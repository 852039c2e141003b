import Mathlib

/-!
# The error correcting code of the NAND driver

`drivers/mtd/nand/nand_ecc.c` keeps three bytes of parities for a block of 256
bytes.  Two of them hold, for every bit of a byte's index, the parity of the
bytes that have the bit and of those that do not; the third holds the same for
the position of a bit in its byte.  A flipped data bit therefore changes exactly
one parity of every pair, and which one spells its address.
-/

namespace KernelM5040.NandEcc

open List Function Nat
open BitVec (ofFin twoPow)

/-- A block: its byte at every index. -/
abbrev Block := BitVec 8 → BitVec 8

/-- The three bytes of a code. -/
abbrev Code := Fin 3 → BitVec 8

/-! ## Computing the code -/

def nandEccPrecalcTable : List ℕ :=
  [0x00, 0x55, 0x56, 0x03, 0x59, 0x0c, 0x0f, 0x5a, 0x5a, 0x0f, 0x0c, 0x59, 0x03, 0x56, 0x55, 0x00,
   0x65, 0x30, 0x33, 0x66, 0x3c, 0x69, 0x6a, 0x3f, 0x3f, 0x6a, 0x69, 0x3c, 0x66, 0x33, 0x30, 0x65,
   0x66, 0x33, 0x30, 0x65, 0x3f, 0x6a, 0x69, 0x3c, 0x3c, 0x69, 0x6a, 0x3f, 0x65, 0x30, 0x33, 0x66,
   0x03, 0x56, 0x55, 0x00, 0x5a, 0x0f, 0x0c, 0x59, 0x59, 0x0c, 0x0f, 0x5a, 0x00, 0x55, 0x56, 0x03,
   0x69, 0x3c, 0x3f, 0x6a, 0x30, 0x65, 0x66, 0x33, 0x33, 0x66, 0x65, 0x30, 0x6a, 0x3f, 0x3c, 0x69,
   0x0c, 0x59, 0x5a, 0x0f, 0x55, 0x00, 0x03, 0x56, 0x56, 0x03, 0x00, 0x55, 0x0f, 0x5a, 0x59, 0x0c,
   0x0f, 0x5a, 0x59, 0x0c, 0x56, 0x03, 0x00, 0x55, 0x55, 0x00, 0x03, 0x56, 0x0c, 0x59, 0x5a, 0x0f,
   0x6a, 0x3f, 0x3c, 0x69, 0x33, 0x66, 0x65, 0x30, 0x30, 0x65, 0x66, 0x33, 0x69, 0x3c, 0x3f, 0x6a,
   0x6a, 0x3f, 0x3c, 0x69, 0x33, 0x66, 0x65, 0x30, 0x30, 0x65, 0x66, 0x33, 0x69, 0x3c, 0x3f, 0x6a,
   0x0f, 0x5a, 0x59, 0x0c, 0x56, 0x03, 0x00, 0x55, 0x55, 0x00, 0x03, 0x56, 0x0c, 0x59, 0x5a, 0x0f,
   0x0c, 0x59, 0x5a, 0x0f, 0x55, 0x00, 0x03, 0x56, 0x56, 0x03, 0x00, 0x55, 0x0f, 0x5a, 0x59, 0x0c,
   0x69, 0x3c, 0x3f, 0x6a, 0x30, 0x65, 0x66, 0x33, 0x33, 0x66, 0x65, 0x30, 0x6a, 0x3f, 0x3c, 0x69,
   0x03, 0x56, 0x55, 0x00, 0x5a, 0x0f, 0x0c, 0x59, 0x59, 0x0c, 0x0f, 0x5a, 0x00, 0x55, 0x56, 0x03,
   0x66, 0x33, 0x30, 0x65, 0x3f, 0x6a, 0x69, 0x3c, 0x3c, 0x69, 0x6a, 0x3f, 0x65, 0x30, 0x33, 0x66,
   0x65, 0x30, 0x33, 0x66, 0x3c, 0x69, 0x6a, 0x3f, 0x3f, 0x6a, 0x69, 0x3c, 0x66, 0x33, 0x30, 0x65,
   0x00, 0x55, 0x56, 0x03, 0x59, 0x0c, 0x0f, 0x5a, 0x5a, 0x0f, 0x0c, 0x59, 0x03, 0x56, 0x55, 0x00]

variable (smc : Bool) (byte : BitVec 8) {bit : ℕ} {bit' : Fin 8}

/-- The table entry of a byte: its column parities and its overall parity. -/
def idx : BitVec 8 := BitVec.ofNat 8 (nandEccPrecalcTable.getD byte.toNat 0)

/-- The variables of the loop of `nand_calculate_ecc`. -/
@[ext]
structure Registers where
  reg1 : BitVec 8
  reg2 : BitVec 8
  reg3 : BitVec 8
  deriving DecidableEq

variable (dat : Block)

/-- One turn of the loop. -/
def accumulate (regs : Registers) (i : BitVec 8) : Registers where
  reg1 := regs.reg1 ^^^ (idx (dat i) &&& 0x3f)
  reg2 := if idx (dat i) &&& 0x40 ≠ 0 then regs.reg2 ^^^ ~~~i else regs.reg2
  reg3 := if idx (dat i) &&& 0x40 ≠ 0 then regs.reg3 ^^^ i else regs.reg3

/-- The indices of a block in the order of the loop. -/
def indices : List (BitVec 8) := (List.range 256).map (BitVec.ofNat 8)

/-- The registers after the loop. -/
def lineParity : Registers := indices.foldl (accumulate dat) ⟨0, 0, 0⟩

/-- The upper half of the line parity. -/
def tmp1 (reg3 reg2 : BitVec 8) : BitVec 8 :=
  (reg3 &&& 0x80) >>> 0 ||| (reg2 &&& 0x80) >>> 1 ||| (reg3 &&& 0x40) >>> 1 |||
    (reg2 &&& 0x40) >>> 2 ||| (reg3 &&& 0x20) >>> 2 ||| (reg2 &&& 0x20) >>> 3 |||
    (reg3 &&& 0x10) >>> 3 ||| (reg2 &&& 0x10) >>> 4

/-- The lower half of the line parity. -/
def tmp2 (reg3 reg2 : BitVec 8) : BitVec 8 :=
  (reg3 &&& 0x08) <<< 4 ||| (reg2 &&& 0x08) <<< 3 ||| (reg3 &&& 0x04) <<< 3 |||
    (reg2 &&& 0x04) <<< 2 ||| (reg3 &&& 0x02) <<< 2 ||| (reg2 &&& 0x02) <<< 1 |||
    (reg3 &&& 0x01) <<< 1 ||| (reg2 &&& 0x01) <<< 0

/-- The code for the registers; `smc` is `CONFIG_MTD_NAND_ECC_SMC`. -/
def eccCode (regs : Registers) : Code
  | 0 => if smc then ~~~tmp2 regs.reg3 regs.reg2 else ~~~tmp1 regs.reg3 regs.reg2
  | 1 => if smc then ~~~tmp1 regs.reg3 regs.reg2 else ~~~tmp2 regs.reg3 regs.reg2
  | 2 => (~~~regs.reg1) <<< 2 ||| 0x03

def nandCalculateEcc : Code := eccCode smc (lineParity dat)

/-! ## Correcting a block -/

/-- `countbits` on a number of `width` bits. -/
def countbits : ℕ → ℕ → ℕ
  | 0, _ => 0
  | width + 1, byte => byte % 2 + countbits width (byte / 2)

/-- One parity of each of the four pairs of a byte differs. -/
def linePairs (s : BitVec 8) : Bool := (s ^^^ (s >>> 1)) &&& 0x55 == 0x55

/-- One parity of each of the three pairs of the last byte differs. -/
def columnPairs (s : BitVec 8) : Bool := (s ^^^ (s >>> 1)) &&& 0x54 == 0x54

def byteoffs (s0 s1 : BitVec 8) : BitVec 8 :=
  (s1 <<< 0) &&& 0x80 ||| (s1 <<< 1) &&& 0x40 ||| (s1 <<< 2) &&& 0x20 ||| (s1 <<< 3) &&& 0x10 |||
    (s0 >>> 4) &&& 0x08 ||| (s0 >>> 3) &&& 0x04 ||| (s0 >>> 2) &&& 0x02 ||| (s0 >>> 1) &&& 0x01

def bitnum (s2 : BitVec 8) : ℕ :=
  ((s2 >>> 5) &&& 0x04 ||| (s2 >>> 4) &&& 0x02 ||| (s2 >>> 3) &&& 0x01).toNat

/-- `EBADMSG` on this architecture. -/
def ebadmsg : ℤ := 77

/-- A block with one bit inverted. -/
def flip (byte : BitVec 8) (bit : ℕ) : Block :=
  Function.update dat byte (dat byte ^^^ twoPow 8 bit)

/-- The part of `nand_correct_data` after the syndrome. -/
def correct (s0 s1 s2 : BitVec 8) : ℤ × Block :=
  if s0 ||| s1 ||| s2 = 0 then (0, dat)
  else if linePairs s0 && linePairs s1 && columnPairs s2 then
    (1, flip dat (byteoffs s0 s1) (bitnum s2))
  else if countbits 32 (s0.toNat ||| s1.toNat <<< 8 ||| s2.toNat <<< 16) = 1 then (1, dat)
  else (-ebadmsg, dat)

variable (readEcc calcEcc : Code)

/-- `nand_correct_data`: what it returns and the block it leaves. -/
def nandCorrectData : ℤ × Block :=
  if smc then
    correct dat (calcEcc 0 ^^^ readEcc 0) (calcEcc 1 ^^^ readEcc 1) (calcEcc 2 ^^^ readEcc 2)
  else
    correct dat (calcEcc 1 ^^^ readEcc 1) (calcEcc 0 ^^^ readEcc 0) (calcEcc 2 ^^^ readEcc 2)

/-! ## Registers under exclusive or -/

/-- Registers combined by exclusive or. -/
def Registers.xor (left right : Registers) : Registers where
  reg1 := left.reg1 ^^^ right.reg1
  reg2 := left.reg2 ^^^ right.reg2
  reg3 := left.reg3 ^^^ right.reg3

/-- What a flipped bit changes. -/
def change (bit : ℕ) : Registers where
  reg1 := idx (twoPow 8 bit) &&& 0x3f
  reg2 := ~~~byte
  reg3 := byte

/-- The table is linear, one bit at a time, and a single bit has odd parity. -/
theorem idx_flip (hbit : bit < 8) :
    idx (byte ^^^ twoPow 8 bit) &&& 0x3f =
        (idx byte &&& 0x3f) ^^^ (idx (twoPow 8 bit) &&& 0x3f) ∧
      (idx (byte ^^^ twoPow 8 bit) &&& 0x40 = 0 ↔ idx byte &&& 0x40 ≠ 0) := by
  revert byte bit
  decide +kernel

theorem accumulate_xor (regs difference : Registers) (i : BitVec 8) :
    accumulate dat (regs.xor difference) i = (accumulate dat regs i).xor difference := by
  simp only [accumulate, Registers.xor, Registers.mk.injEq]
  refine ⟨by ac_rfl, ?_, ?_⟩
  all_goals
    split_ifs
    · ac_rfl
    · rfl

theorem foldl_accumulate_xor (regs difference : Registers) (list : List (BitVec 8)) :
    list.foldl (accumulate dat) (regs.xor difference) =
      (list.foldl (accumulate dat) regs).xor difference := by
  induction list generalizing regs with
  | nil => rfl
  | cons i list ih => rw [foldl_cons, foldl_cons, accumulate_xor, ih]

section

variable (dat : Block) (regs : Registers) {list : List (BitVec 8)}

theorem accumulate_flip_self (i : BitVec 8) (hbit : bit < 8) :
    accumulate (flip dat i bit) regs i = (accumulate dat regs i).xor (change i bit) := by
  obtain ⟨hcolumn, hparity⟩ := idx_flip (dat i) hbit
  simp only [accumulate, flip, update_self, Registers.xor, change, Registers.mk.injEq, hcolumn]
  refine ⟨by ac_rfl, ?_, ?_⟩
  all_goals
    by_cases hold : idx (dat i) &&& 0x40 ≠ 0
    · rw [if_neg (not_not.mpr (hparity.mpr hold)), if_pos hold, BitVec.xor_assoc, BitVec.xor_self,
        BitVec.xor_zero]
    · rw [if_pos (fun hzero => hold (hparity.mp hzero)), if_neg hold]

theorem accumulate_flip_other {i byte : BitVec 8} (bit : ℕ) (hne : i ≠ byte) :
    accumulate (flip dat byte bit) regs i = accumulate dat regs i := by
  simp [accumulate, flip, update_of_ne hne]

theorem foldl_flip_of_notMem {byte : BitVec 8} (bit : ℕ) (hnot : byte ∉ list) :
    list.foldl (accumulate (flip dat byte bit)) regs = list.foldl (accumulate dat) regs := by
  induction list generalizing regs with
  | nil => rfl
  | cons i list ih =>
    rw [mem_cons, not_or] at hnot
    rw [foldl_cons, foldl_cons, accumulate_flip_other dat regs bit (Ne.symm hnot.1), ih _ hnot.2]

theorem foldl_flip {byte : BitVec 8} (hbit : bit < 8) (hmem : byte ∈ list) (hnodup : list.Nodup) :
    list.foldl (accumulate (flip dat byte bit)) regs =
      (list.foldl (accumulate dat) regs).xor (change byte bit) := by
  induction list generalizing regs with
  | nil => exact absurd hmem not_mem_nil
  | cons i list ih =>
    rw [nodup_cons] at hnodup
    rw [foldl_cons, foldl_cons]
    by_cases hhere : byte = i
    · subst hhere
      rw [accumulate_flip_self dat regs byte hbit, foldl_flip_of_notMem dat _ bit hnodup.1,
        foldl_accumulate_xor]
    · rw [accumulate_flip_other dat regs bit (Ne.symm hhere)]
      exact ih _ ((mem_cons.mp hmem).resolve_left hhere) hnodup.2

end

theorem mem_indices : byte ∈ indices := by
  rw [indices, mem_map]
  exact ⟨byte.toNat, mem_range.mpr byte.isLt, by simp⟩

theorem nodup_indices : indices.Nodup := by
  apply Nodup.map_on _ nodup_range
  intro left hleft right hright heq
  rw [mem_range] at hleft hright
  have := congrArg BitVec.toNat heq
  rwa [BitVec.toNat_ofNat, BitVec.toNat_ofNat, mod_eq_of_lt hleft, mod_eq_of_lt hright] at this

theorem lineParity_flip (byte : BitVec 8) (hbit : bit < 8) :
    lineParity (flip dat byte bit) = (lineParity dat).xor (change byte bit) :=
  foldl_flip dat _ hbit (mem_indices byte) nodup_indices

/-! ## The syndrome -/

theorem tmp1_xor (reg3 reg2 reg3' reg2' : BitVec 8) :
    tmp1 (reg3 ^^^ reg3') (reg2 ^^^ reg2') = tmp1 reg3 reg2 ^^^ tmp1 reg3' reg2' := by
  apply BitVec.eq_of_getLsbD_eq
  intro i hi
  interval_cases i <;> simp [tmp1]

theorem tmp2_xor (reg3 reg2 reg3' reg2' : BitVec 8) :
    tmp2 (reg3 ^^^ reg3') (reg2 ^^^ reg2') = tmp2 reg3 reg2 ^^^ tmp2 reg3' reg2' := by
  apply BitVec.eq_of_getLsbD_eq
  intro i hi
  interval_cases i <;> simp [tmp2]

theorem column_xor (reg1 reg1' : BitVec 8) :
    (~~~(reg1 ^^^ reg1')) <<< 2 ||| 0x03 = ((~~~reg1) <<< 2 ||| 0x03) ^^^ reg1' <<< 2 := by
  apply BitVec.eq_of_getLsbD_eq
  intro i hi
  interval_cases i <;> simp

/-- The three bytes in which two codes differ, the line parities as the decoder reads them. -/
@[ext]
structure Syndrome where
  s0 : BitVec 8
  s1 : BitVec 8
  s2 : BitVec 8
  deriving DecidableEq

def Syndrome.xor (left right : Syndrome) : Syndrome where
  s0 := left.s0 ^^^ right.s0
  s1 := left.s1 ^^^ right.s1
  s2 := left.s2 ^^^ right.s2

def syndrome : Syndrome :=
  if smc then ⟨calcEcc 0 ^^^ readEcc 0, calcEcc 1 ^^^ readEcc 1, calcEcc 2 ^^^ readEcc 2⟩
  else ⟨calcEcc 1 ^^^ readEcc 1, calcEcc 0 ^^^ readEcc 0, calcEcc 2 ^^^ readEcc 2⟩

theorem nandCorrectData_eq : nandCorrectData smc dat readEcc calcEcc =
      correct dat (syndrome smc readEcc calcEcc).s0 (syndrome smc readEcc calcEcc).s1
        (syndrome smc readEcc calcEcc).s2 := by
  cases smc <;> rfl

/-- A bit of a block or of the code stored with it. -/
inductive Bit
  | data (byte : BitVec 8) (bit : Fin 8)
  | code (byte : Fin 3) (bit : Fin 8)
  deriving DecidableEq

/-- The two lowest bits of the last byte of a code are not used. -/
def Bit.Used : Bit → Prop
  | .data _ _ => True
  | .code byte bit => byte = 2 → 2 ≤ bit.val

/-- What is read back from the chip. -/
@[ext]
structure Stored where
  dat : Block
  ecc : Code

/-- A block written with the code computed for it. -/
def written : Stored := ⟨dat, nandCalculateEcc smc dat⟩

variable (stored : Stored)

/-- One bit is damaged. -/
def Stored.damage : Bit → Stored
  | .data byte bit => { stored with dat := flip stored.dat byte bit }
  | .code byte bit =>
    { stored with
      ecc := Function.update stored.ecc byte (stored.ecc byte ^^^ twoPow 8 bit) }

/-- The decoder run on what was read back, with the code recomputed from the block. -/
def Stored.correct : ℤ × Block :=
  nandCorrectData smc stored.dat stored.ecc (nandCalculateEcc smc stored.dat)

def Stored.syndrome (smc : Bool) (stored : Stored) : Syndrome :=
  NandEcc.syndrome smc stored.ecc (nandCalculateEcc smc stored.dat)

/-- What a damaged bit contributes to the syndrome. -/
def effect : Bit → Syndrome
  | .data byte bit =>
    ⟨tmp2 byte (~~~byte), tmp1 byte (~~~byte), (idx (twoPow 8 bit) &&& 0x3f) <<< 2⟩
  | .code 0 bit => if smc then ⟨twoPow 8 bit, 0, 0⟩ else ⟨0, twoPow 8 bit, 0⟩
  | .code 1 bit => if smc then ⟨0, twoPow 8 bit, 0⟩ else ⟨twoPow 8 bit, 0, 0⟩
  | .code 2 bit => ⟨0, 0, twoPow 8 bit⟩

theorem nandCalculateEcc_flip (byte : BitVec 8) (bit : Fin 8) :
    nandCalculateEcc smc (flip dat byte bit) 0 = nandCalculateEcc smc dat 0 ^^^
        (if smc then tmp2 byte (~~~byte) else tmp1 byte (~~~byte)) ∧
      nandCalculateEcc smc (flip dat byte bit) 1 = nandCalculateEcc smc dat 1 ^^^
        (if smc then tmp1 byte (~~~byte) else tmp2 byte (~~~byte)) ∧
      nandCalculateEcc smc (flip dat byte bit) 2 = nandCalculateEcc smc dat 2 ^^^
        (idx (twoPow 8 bit) &&& 0x3f) <<< 2 := by
  rw [nandCalculateEcc, nandCalculateEcc, lineParity_flip dat byte bit.isLt]
  refine ⟨?_, ?_, column_xor _ _⟩ <;> cases smc <;>
    simp [eccCode, Registers.xor, change, tmp1_xor, tmp2_xor, BitVec.not_xor_left]

theorem syndrome_damage (bit : Bit) :
    (stored.damage bit).syndrome smc = (stored.syndrome smc).xor (effect smc bit) := by
  cases bit with
  | data byte bit =>
    obtain ⟨hfirst, hsecond, hthird⟩ := nandCalculateEcc_flip smc stored.dat byte bit
    cases smc <;>
      simp only [Stored.syndrome, syndrome, Stored.damage, effect, Syndrome.xor, hfirst, hsecond,
        hthird, Bool.false_eq_true, if_false, if_true, Syndrome.mk.injEq] <;>
      exact ⟨by ac_rfl, by ac_rfl, by ac_rfl⟩
  | code byte bit =>
    fin_cases byte <;> cases smc <;>
      simp [Stored.syndrome, syndrome, Stored.damage, effect, Syndrome.xor, BitVec.xor_assoc]

theorem syndrome_written : (written smc dat).syndrome smc = ⟨0, 0, 0⟩ := by
  cases smc <;> simp [written, Stored.syndrome, syndrome]

/-! ## Decoding -/

/-- The number of bits that are set. -/
def weight : ℕ := countbits 8 byte.toNat

theorem countbits_add (width more : ℕ) {low high : ℕ} (hlow : low < 2 ^ width) :
    countbits (width + more) (low + 2 ^ width * high) = countbits width low + countbits more high := by
  induction width generalizing low with
  | zero =>
    obtain rfl : low = 0 := by omega
    simp [countbits]
  | succ width ih =>
    have hhalf : low / 2 < 2 ^ width := by
      rw [pow_succ] at hlow
      omega
    have hsplit : low + 2 ^ (width + 1) * high = low + 2 * (2 ^ width * high) := by ring
    rw [show width + 1 + more = width + more + 1 by omega, countbits, countbits, hsplit,
      add_mul_mod_self_left, add_mul_div_left _ _ Nat.two_pos, ih hhalf, add_assoc]

theorem countbits_zero (width : ℕ) : countbits width 0 = 0 := by
  induction width with
  | zero => rfl
  | succ width ih => rw [countbits, Nat.zero_div, ih]

theorem countbits_bytes (s0 s1 s2 : BitVec 8) :
    countbits 32 (s0.toNat ||| s1.toNat <<< 8 ||| s2.toNat <<< 16) =
      weight s0 + weight s1 + weight s2 := by
  have h0 := s0.isLt
  have h1 := s1.isLt
  have hlow : s0.toNat ||| s1.toNat <<< 8 = s0.toNat + 2 ^ 8 * s1.toNat := by
    rw [Nat.or_comm, ← shiftLeft_add_eq_or_of_lt h0, shiftLeft_eq]
    ring
  have hall : s0.toNat ||| s1.toNat <<< 8 ||| s2.toNat <<< 16 =
      s0.toNat + 2 ^ 8 * (s1.toNat + 2 ^ 8 * (s2.toNat + 2 ^ 8 * 0)) := by
    rw [hlow, Nat.or_comm, ← shiftLeft_add_eq_or_of_lt (by omega), shiftLeft_eq]
    ring
  rw [hall, countbits_add 8 24 h0, countbits_add 8 16 h1, countbits_add 8 8 s2.isLt,
    countbits_zero, weight, weight, weight]
  ring

/-- The syndrome is neither empty nor that of one damaged bit. -/
structure Detected (syndrome : Syndrome) : Prop where
  nonzero : 0 < weight syndrome.s0 + weight syndrome.s1 + weight syndrome.s2
  pairs : (linePairs syndrome.s0 && linePairs syndrome.s1 && columnPairs syndrome.s2) = false
  many : weight syndrome.s0 + weight syndrome.s1 + weight syndrome.s2 ≠ 1

theorem or_ne_zero_of_weight {s0 s1 s2 : BitVec 8} (hpos : 0 < weight s0 + weight s1 + weight s2) :
    s0 ||| s1 ||| s2 ≠ 0 := by
  intro hzero
  obtain ⟨⟨h0, h1⟩, h2⟩ : (s0 = 0 ∧ s1 = 0) ∧ s2 = 0 := by simpa using hzero
  rw [h0, h1, h2] at hpos
  exact absurd hpos (by decide)

theorem Detected.correct_eq {syndrome : Syndrome} (hdetected : Detected syndrome) (dat : Block) :
    correct dat syndrome.s0 syndrome.s1 syndrome.s2 = (-ebadmsg, dat) := by
  have hnonzero := or_ne_zero_of_weight hdetected.nonzero
  have hmany := hdetected.many
  rw [← countbits_bytes] at hmany
  rw [correct, if_neg hnonzero, hdetected.pairs, if_neg Bool.false_ne_true, if_neg hmany]

theorem line_data :
    linePairs (tmp1 byte (~~~byte)) = true ∧ linePairs (tmp2 byte (~~~byte)) = true ∧
      byteoffs (tmp2 byte (~~~byte)) (tmp1 byte (~~~byte)) = byte ∧
      weight (tmp1 byte (~~~byte)) = 4 ∧ weight (tmp2 byte (~~~byte)) = 4 := by
  revert byte
  decide +kernel

theorem column_data (bit : Fin 8) :
    columnPairs ((idx (twoPow 8 bit) &&& 0x3f) <<< 2) = true ∧
      bitnum ((idx (twoPow 8 bit) &&& 0x3f) <<< 2) = bit := by
  revert bit
  decide +kernel

/-- Two bytes that differ change both parities of a pair or none. -/
theorem line_pair (difference : BitVec 8) :
    linePairs (tmp2 difference difference) = false ∧
      weight (tmp1 difference difference) % 2 = 0 ∧ weight (tmp2 difference difference) % 2 = 0 ∧
      (difference ≠ 0 →
        0 < weight (tmp1 difference difference) + weight (tmp2 difference difference)) := by
  revert difference
  decide +kernel

/-- Two positions of a bit change both parities of a pair or none. -/
theorem column_pair (bit bit' : Fin 8) :
    weight ((idx (twoPow 8 bit) &&& 0x3f) <<< 2 ^^^ (idx (twoPow 8 bit') &&& 0x3f) <<< 2) % 2 = 0 ∧
      (bit ≠ bit' → 0 < weight ((idx (twoPow 8 bit) &&& 0x3f) <<< 2 ^^^
        (idx (twoPow 8 bit') &&& 0x3f) <<< 2)) := by
  revert bit bit'
  decide +kernel

theorem line_code (bit : Fin 8) :
    linePairs (tmp1 byte (~~~byte) ^^^ twoPow 8 bit) = false ∧
      linePairs (tmp2 byte (~~~byte) ^^^ twoPow 8 bit) = false := by
  revert byte bit
  decide +kernel

theorem column_code (bit : Fin 8) (hused : 2 ≤ bit'.val) :
    columnPairs ((idx (twoPow 8 bit) &&& 0x3f) <<< 2 ^^^ twoPow 8 bit') = false := by
  revert bit bit'
  decide +kernel

theorem effect_detected_data {byte byte' : BitVec 8} {bit : Fin 8}
    (hne : Bit.data byte bit ≠ Bit.data byte' bit') :
    Detected ((effect smc (.data byte bit)).xor (effect smc (.data byte' bit'))) := by
  have hnot : ~~~byte ^^^ ~~~byte' = byte ^^^ byte' := by
    apply BitVec.eq_of_getLsbD_eq
    intro i hi
    simp [hi]
  obtain ⟨hpairs, heven1, heven2, hline⟩ := line_pair (byte ^^^ byte')
  obtain ⟨heven, hcolumn⟩ := column_pair bit bit'
  have hpos : byte ^^^ byte' ≠ 0 ∨ bit ≠ bit' := by
    by_contra hboth
    rw [not_or, not_not, not_not] at hboth
    exact hne (by rw [BitVec.xor_eq_zero_iff.mp hboth.1, hboth.2])
  constructor
  · simp only [effect, Syndrome.xor, ← tmp1_xor, ← tmp2_xor, hnot]
    rcases hpos with hbyte | hbit
    · have := hline hbyte
      omega
    · have := hcolumn hbit
      omega
  · simp [effect, Syndrome.xor, ← tmp1_xor, ← tmp2_xor, hnot, hpairs]
  · simp only [effect, Syndrome.xor, ← tmp1_xor, ← tmp2_xor, hnot]
    omega

theorem effect_detected_mixed (bit : Fin 8) {place : Fin 3} (hused : (Bit.code place bit').Used) :
    Detected ((effect smc (.data byte bit)).xor (effect smc (.code place bit'))) := by
  obtain ⟨-, -, -, hweight1, hweight2⟩ := line_data byte
  obtain ⟨hline1, hline2⟩ := line_code byte bit'
  -- the line byte that the code bit is not in keeps its four bits
  match place, hused with
  | 0, _ | 1, _ =>
    cases smc <;> constructor <;>
      simp [effect, Syndrome.xor, hweight1, hweight2, hline1, hline2] <;> omega
  | 2, hused =>
    have hcolumn := column_code bit (hused rfl)
    constructor
    · simp [effect, Syndrome.xor, hweight1, hweight2]
    · simp only [effect, Syndrome.xor, hcolumn, Bool.and_false]
    · simp [effect, Syndrome.xor, hweight1, hweight2]
      omega

theorem effect_detected_code {place place' : Fin 3} {bit : Fin 8}
    (hne : Bit.code place bit ≠ Bit.code place' bit') :
    Detected ((effect smc (.code place bit)).xor (effect smc (.code place' bit'))) := by
  have hall : ∀ smc : Bool, ∀ place place' : Fin 3, ∀ bit bit' : Fin 8,
      ¬(place = place' ∧ bit = bit') →
        let total := (effect smc (.code place bit)).xor (effect smc (.code place' bit'))
        0 < weight total.s0 + weight total.s1 + weight total.s2 ∧
          (linePairs total.s0 && linePairs total.s1 && columnPairs total.s2) = false ∧
          weight total.s0 + weight total.s1 + weight total.s2 ≠ 1 := by
    decide +kernel
  have hdiffer : ¬(place = place' ∧ bit = bit') := by
    rintro ⟨rfl, rfl⟩
    exact hne rfl
  obtain ⟨hnonzero, hpairs, hmany⟩ := hall smc place place' bit bit' hdiffer
  exact ⟨hnonzero, hpairs, hmany⟩

theorem Syndrome.xor_comm (left right : Syndrome) : left.xor right = right.xor left := by
  simp [Syndrome.xor, BitVec.xor_comm]

theorem effect_detected {bit bit' : Bit} (hused : bit.Used) (hused' : bit'.Used)
    (hne : bit ≠ bit') : Detected ((effect smc bit).xor (effect smc bit')) := by
  cases bit with
  | data byte position =>
    cases bit' with
    | data byte' position' => exact effect_detected_data smc hne
    | code place position' => exact effect_detected_mixed smc byte position hused'
  | code place position =>
    cases bit' with
    | data byte' position' =>
      rw [Syndrome.xor_comm]
      exact effect_detected_mixed smc byte' position' hused
    | code place' position' => exact effect_detected_code smc hne

theorem correct_effect_data (byte : BitVec 8) (bit : Fin 8) :
    correct dat (effect smc (.data byte bit)).s0 (effect smc (.data byte bit)).s1
      (effect smc (.data byte bit)).s2 = (1, flip dat byte bit) := by
  obtain ⟨hline1, hline2, hbyte, hweight1, -⟩ := line_data byte
  obtain ⟨hcolumn, hbit⟩ := column_data bit
  have hnonzero : tmp2 byte (~~~byte) ||| tmp1 byte (~~~byte) |||
      (idx (twoPow 8 bit) &&& 0x3f) <<< 2 ≠ 0 := or_ne_zero_of_weight (by omega)
  simp only [effect]
  rw [correct, if_neg hnonzero, hline1, hline2, hcolumn, Bool.and_self, Bool.and_self, if_pos rfl,
    hbyte, hbit]

theorem correct_effect_code (place : Fin 3) (bit : Fin 8) :
    correct dat (effect smc (.code place bit)).s0 (effect smc (.code place bit)).s1
      (effect smc (.code place bit)).s2 = (1, dat) := by
  have hall : ∀ smc : Bool, ∀ place : Fin 3, ∀ bit : Fin 8,
      let total := effect smc (.code place bit)
      total.s0 ||| total.s1 ||| total.s2 ≠ 0 ∧
        (linePairs total.s0 && linePairs total.s1 && columnPairs total.s2) = false ∧
        countbits 32 (total.s0.toNat ||| total.s1.toNat <<< 8 ||| total.s2.toNat <<< 16) = 1 := by
    decide +kernel
  obtain ⟨hnonzero, hpairs, hone⟩ := hall smc place bit
  rw [correct, if_neg hnonzero, hpairs, if_neg Bool.false_ne_true, if_pos hone]

theorem flip_flip (byte : BitVec 8) (bit : ℕ) : flip (flip dat byte bit) byte bit = dat := by
  simp [flip, update_idem, update_eq_self]

theorem correct_damage :
    stored.correct smc = correct stored.dat (stored.syndrome smc).s0 (stored.syndrome smc).s1
      (stored.syndrome smc).s2 :=
  nandCorrectData_eq smc stored.dat stored.ecc _

theorem Syndrome.zero_xor (syndrome : Syndrome) : Syndrome.xor ⟨0, 0, 0⟩ syndrome = syndrome := by
  simp [Syndrome.xor]

/-- The decoder on a block written with its code: nothing is changed when no bit is damaged,
one damaged data bit is restored, one damaged bit of the code leaves the data as they are,
and two damaged bits are reported. -/
theorem nand_ecc_corrects : (written smc dat).correct smc = (0, dat) ∧
      (∀ byte bit, ((written smc dat).damage (.data byte bit)).correct smc = (1, dat)) ∧
      (∀ byte bit, (Bit.code byte bit).Used →
        ((written smc dat).damage (.code byte bit)).correct smc = (1, dat)) ∧
      ∀ bit bit' : Bit, bit.Used → bit'.Used → bit ≠ bit' →
        (((written smc dat).damage bit).damage bit').correct smc =
          (-ebadmsg, (((written smc dat).damage bit).damage bit').dat) := by
  refine ⟨?_, ?_, ?_, ?_⟩
  · rw [correct_damage, syndrome_written]
    rfl
  · intro byte bit
    rw [correct_damage, syndrome_damage, syndrome_written, Syndrome.zero_xor, correct_effect_data]
    simp [Stored.damage, written, flip_flip]
  · intro byte bit _
    rw [correct_damage, syndrome_damage, syndrome_written, Syndrome.zero_xor, correct_effect_code]
    rfl
  · intro bit bit' hused hused' hne
    rw [correct_damage, syndrome_damage, syndrome_damage, syndrome_written, Syndrome.zero_xor]
    exact (effect_detected smc hused hused' hne).correct_eq _

end KernelM5040.NandEcc
