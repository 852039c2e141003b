import Mathlib
import KernelM5040.Core.XorLinear

/-!
# Multiplication in GF(2^128): crypto/gf128mul.c

A field element is a `be128`: sixteen bytes of memory, read as two big-endian
words.  In the `lle` order the first byte holds the lowest powers, lower powers
in the more significant bits; in the `bbe` order the element is one big-endian
number.
-/

namespace KernelM5040.Gf128mul

open BitVec Function

/-- `be128`; the fields are what `be64_to_cpu` reads. -/
@[ext]
structure Be128 where
  a : BitVec 64
  b : BitVec 64
  deriving DecidableEq, Repr

namespace Be128

/-- `be128_xor`. -/
def xor (p q : Be128) : Be128 := ⟨p.a ^^^ q.a, p.b ^^^ q.b⟩

def zero : Be128 := ⟨0, 0⟩

/-- Byte `i` of the memory an element takes. -/
def byte (value : Be128) (i : ℕ) : BitVec 8 :=
  if i < 8 then (value.a >>> (56 - 8 * i)).setWidth 8
  else (value.b >>> (120 - 8 * i)).setWidth 8

/-- `memset(r, 0, count)`: the first `count` bytes of memory are cleared. -/
def memset (r : Be128) (count : ℕ) : Be128 :=
  ⟨r.a &&& (allOnes 64 >>> (8 * count)), r.b &&& (allOnes 64 >>> (8 * (count - 8)))⟩

end Be128

/-- `sizeof` of a pointer. -/
def sizeofPointer : ℕ := 8

/-- The macros `xda_lle` and `xda_bbe`: a constant for each bit of the byte. -/
def xda (constants : List (ℕ × BitVec 64)) (i : BitVec 64) : BitVec 64 :=
  constants.foldr
    (fun entry rest => (if i &&& twoPow 64 entry.1 ≠ 0 then entry.2 else 0) ^^^ rest) 0

def tableLle : BitVec 64 → BitVec 64 :=
  xda [(7, 0xe100), (6, 0x7080), (5, 0x3840), (4, 0x1c20), (3, 0x0e10), (2, 0x0708), (1, 0x0384),
    (0, 0x01c2)]

def tableBbe : BitVec 64 → BitVec 64 :=
  xda [(7, 0x4380), (6, 0x21c0), (5, 0x10e0), (4, 0x0870), (3, 0x0438), (2, 0x021c), (1, 0x010e),
    (0, 0x0087)]

def xLle (x : Be128) : Be128 :=
  ⟨(x.a >>> 1) ^^^ (tableLle ((x.b <<< 7) &&& 0xff) <<< 48), (x.b >>> 1) ||| (x.a <<< 63)⟩

def xBbe (x : Be128) : Be128 :=
  ⟨(x.a <<< 1) ||| (x.b >>> 63), (x.b <<< 1) ^^^ tableBbe (x.a >>> 63)⟩

def x8Lle (x : Be128) : Be128 :=
  ⟨(x.a >>> 8) ^^^ (tableLle (x.b &&& 0xff) <<< 48), (x.b >>> 8) ||| (x.a <<< 56)⟩

def x8Bbe (x : Be128) : Be128 :=
  ⟨(x.a <<< 8) ||| (x.b >>> 56), (x.b <<< 8) ^^^ tableBbe (x.a >>> 56)⟩

/-- What the functions for one bit order differ in. -/
structure Order where
  x : Be128 → Be128
  x8 : Be128 → Be128
  -- the byte that holds the powers from x^(8 i) on
  place : ℕ → ℕ
  -- the power within it that a bit stands for
  power : ℕ → ℕ

def lle : Order := { x := xLle, x8 := x8Lle, place := fun i => i, power := fun bit => 7 - bit }

def bbe : Order := { x := xBbe, x8 := x8Bbe, place := fun i => 15 - i, power := fun bit => bit }

/-- The array `p`: the factor times the powers of x. -/
def powers (order : Order) (r : Be128) : ℕ → Be128
  | 0 => r
  | i + 1 => order.x (powers order r i)

/-- The tests of one byte, from 0x80 down to 0x01. -/
def addBits (order : Order) (p : ℕ → Be128) (ch : BitVec 8) (r : Be128) : Be128 :=
  [7, 6, 5, 4, 3, 2, 1, 0].foldl
    (fun r bit => if ch &&& twoPow 8 bit ≠ 0 then r.xor (p (order.power bit)) else r) r

/-- The loop over the bytes, with the multiplication by x^8 between two of
them; `rest` counts the rounds after this one. -/
def mulLoop (x8 : Be128 → Be128) (round : ℕ → Be128 → Be128) : ℕ → ℕ → Be128 → Be128
  | 0, i, r => round i r
  | rest + 1, i, r => mulLoop x8 round rest (i + 1) (x8 (round i r))

def gf128mul (order : Order) (r b : Be128) : Be128 :=
  mulLoop order.x8 (fun i => addBits order (powers order r) (b.byte (order.place (15 - i)))) 15 0
    (r.memset sizeofPointer)

def gf128mulLle : Be128 → Be128 → Be128 := gf128mul lle

def gf128mulBbe : Be128 → Be128 → Be128 := gf128mul bbe

abbrev Table := ℕ → Be128

variable (g : Be128)

/-- The entries of the single bits, `lle`: from 128 down. -/
def singleLle : Table :=
  [64, 32, 16, 8, 4, 2, 1].foldl (fun t j => update t j (xLle (t (j + j))))
    (update (fun _ => Be128.zero) 128 g)

/-- The entries of the single bits, `bbe`: from 1 up. -/
def singleBbe : Table :=
  [1, 2, 4, 8, 16, 32, 64].foldl (fun t j => update t (j + j) (xBbe (t j)))
    (update (fun _ => Be128.zero) 1 g)

/-- The other entries, as sums. -/
def fillTable (t : Table) : Table :=
  [2, 4, 8, 16, 32, 64, 128].foldl (fun t j => (List.range' 1 (j - 1)).foldl
      (fun t k => update t (j + k) ((t j).xor (t k))) t) t

def init4kLle : Table := fillTable (singleLle g)

def init4kBbe : Table := fillTable (singleBbe g)

/-- The first byte's entry, then for each further byte the accumulator times
x^8 plus its entry. -/
def mul4k (x8 : Be128 → Be128) (first : ℕ) (others : List ℕ) (a : Be128) (t : Table) : Be128 :=
  others.foldl (fun r i => (x8 r).xor (t (a.byte i).toNat)) (t (a.byte first).toNat)

def gf128mul4kLle : Be128 → Table → Be128 := mul4k x8Lle 15 (List.range 15).reverse

def gf128mul4kBbe : Be128 → Table → Be128 := mul4k x8Bbe 0 (List.range' 1 15)

/-- The loop of `gf128mul_init_64k_*`: fill table `i`, then start the next one
with the single bits times x^8. -/
def init64kLoop (x8 : Be128 → Be128) : ℕ → ℕ → (ℕ → Table) → ℕ → Table
  | 0, i, t => update t i (fillTable (t i))
  | rest + 1, i, t =>
    let filled := update t i (fillTable (t i))
    let next := [128, 64, 32, 16, 8, 4, 2, 1].foldl
      (fun table j => update table j (x8 (filled i j))) (filled (i + 1))
    init64kLoop x8 rest (i + 1) (update filled (i + 1) next)

def init64kLle : ℕ → Table :=
  init64kLoop x8Lle 15 0 (update (fun _ _ => Be128.zero) 0 (singleLle g))

def init64kBbe : ℕ → Table :=
  init64kLoop x8Bbe 15 0 (update (fun _ _ => Be128.zero) 0 (singleBbe g))

/-- One table for each byte, and the sum of their entries. -/
def mul64k (place : ℕ → ℕ) (a : Be128) (t : ℕ → Table) : Be128 :=
  (List.range' 1 15).foldl (fun r i => r.xor (t i (a.byte (place i)).toNat))
    (t 0 (a.byte (place 0)).toNat)

def gf128mul64kLle : Be128 → (ℕ → Table) → Be128 := mul64k fun i => i

def gf128mul64kBbe : Be128 → (ℕ → Table) → Be128 := mul64k fun i => 15 - i

end KernelM5040.Gf128mul
