import KernelM5040.Core.BoundedWriter

/-!
# Formatted output: lib/vsprintf.c

`vsnprintf` and the functions it calls for numbers, strings and pointers.  Each
character goes to `*str` if `str < end`, and `str` goes on in any case.  A
format is a list of characters without the terminating NUL.
-/

namespace KernelM5040.Vsprintf

open List BoundedWriter

/-- Arithmetic on `int`. -/
def int (value : ℤ) : ℤ := Int.bmod value (2 ^ 32)

/-- What the caller hands over: the words of the argument list, the strings that pointers lead
to, and the names that `sprint_symbol` gives to addresses. -/
structure Env where
  args : ℕ → ℕ
  strings : ℕ → List Char
  symbol : ℕ → List Char

def pageSize : ℕ := 2 ^ 14

/-! ## Directives -/

/-- The flags `ZEROPAD` to `SPECIAL`. -/
structure Flags where
  zeropad : Bool
  sign : Bool
  plus : Bool
  space : Bool
  left : Bool
  small : Bool
  special : Bool
  deriving DecidableEq, Repr

def noFlags : Flags := ⟨false, false, false, false, false, false, false⟩

/-- A field width or a precision. -/
inductive Amount
  | absent
  | literal (value : ℤ)
  | argument
  deriving DecidableEq, Repr

/-- What stands between a percent sign and the conversion; no precision at all is different
from a dot without a number. -/
structure Directive where
  flags : Flags
  width : Amount
  precision : Option Amount
  qualifier : Option Char
  deriving DecidableEq, Repr

def isdigit (c : Char) : Bool := decide ('0' ≤ c) && decide (c ≤ '9')

/-- The classes `_U`, `_L` and `_D` of `_ctype`. -/
def isalnum (c : Char) : Bool :=
  isdigit c || (decide ('A' ≤ c) && decide (c ≤ 'Z')) || (decide ('a' ≤ c) && decide (c ≤ 'z')) ||
    (decide (192 ≤ c.toNat) && decide (c.toNat ≤ 255) && c.toNat != 215 && c.toNat != 247)

/-- The loop `repeat`. -/
def processFlags (flags : Flags) : List Char → Flags × List Char
  | '-' :: fmt => processFlags { flags with left := true } fmt
  | '+' :: fmt => processFlags { flags with plus := true } fmt
  | ' ' :: fmt => processFlags { flags with space := true } fmt
  | '#' :: fmt => processFlags { flags with special := true } fmt
  | '0' :: fmt => processFlags { flags with zeropad := true } fmt
  | fmt => (flags, fmt)

def skipAtoi (i : ℤ) : List Char → ℤ × List Char
  | [] => (i, [])
  | c :: fmt => if isdigit c then skipAtoi (int (i * 10 + c.toNat - 48)) fmt else (i, c :: fmt)

def getAmount : List Char → Amount × List Char
  | [] => (.absent, [])
  | c :: fmt =>
    if isdigit c then (.literal (skipAtoi 0 (c :: fmt)).1, (skipAtoi 0 (c :: fmt)).2)
    else if c = '*' then (.argument, fmt)
    else (.absent, c :: fmt)

def getPrecision : List Char → Option Amount × List Char
  | '.' :: fmt => (some (getAmount fmt).1, (getAmount fmt).2)
  | fmt => (none, fmt)

def getQualifier : List Char → Option Char × List Char
  | 'l' :: 'l' :: fmt => (some 'L', fmt)
  | c :: fmt =>
    if c ∈ ['h', 'l', 'L', 'Z', 'z', 't'] then (some c, fmt) else (none, c :: fmt)
  | [] => (none, [])

/-- The directive behind a percent sign, and the format from the conversion on. -/
def getDirective (fmt : List Char) : Directive × List Char :=
  let flags := processFlags noFlags fmt
  let width := getAmount flags.2
  let precision := getPrecision width.2
  let qualifier := getQualifier precision.2
  (⟨flags.1, width.1, precision.1, qualifier.1⟩, qualifier.2)

/-- The format behind a conversion: pointers have suffixes, and at the end of the format `fmt`
does not move. -/
def afterConversion : List Char → List Char
  | [] => []
  | 'p' :: fmt => fmt.dropWhile isalnum
  | _ :: fmt => fmt

/-! ## Numbers -/

/-- `put_dec_full`; the last digit comes first. -/
def putDecFull (q : ℕ) : List Char :=
  let d1 := (q >>> 4) &&& 0xf
  let d2 := (q >>> 8) &&& 0xf
  let d3 := q >>> 12
  let d0 := 6 * (d3 + d2 + d1) + (q &&& 0xf)
  let q := (d0 * 0xcd) >>> 11
  let d0 := d0 - 10 * q
  let d1 := q + 9 * d3 + 5 * d2 + d1
  let q := (d1 * 0xcd) >>> 11
  let d1 := d1 - 10 * q
  let d2 := q + 2 * d2
  let q := (d2 * 0xd) >>> 7
  let d2 := d2 - 10 * q
  let d3 := q + 4 * d3
  let q := (d3 * 0xcd) >>> 11
  let d3 := d3 - 10 * q
  [d0, d1, d2, d3, q].map fun digit => Char.ofNat (digit + 48)

/-- `put_dec_trunc`, with one to five digits. -/
def putDecTrunc (q : ℕ) : List Char :=
  let d1 := (q >>> 4) &&& 0xf
  let d2 := (q >>> 8) &&& 0xf
  let d3 := q >>> 12
  let d0 := 6 * (d3 + d2 + d1) + (q &&& 0xf)
  let q := (d0 * 0xcd) >>> 11
  let d0 := d0 - 10 * q
  let d1 := q + 9 * d3 + 5 * d2 + d1
  Char.ofNat (d0 + 48) ::
    if d1 = 0 then []
    else
      let q := (d1 * 0xcd) >>> 11
      let d1 := d1 - 10 * q
      let d2 := q + 2 * d2
      Char.ofNat (d1 + 48) ::
        if d2 = 0 ∧ d3 = 0 then []
        else
          let q := (d2 * 0xd) >>> 7
          let d2 := d2 - 10 * q
          let d3 := q + 4 * d3
          Char.ofNat (d2 + 48) ::
            if d3 = 0 then []
            else
              let q := (d3 * 0xcd) >>> 11
              let d3 := d3 - 10 * q
              Char.ofNat (d3 + 48) :: if q = 0 then [] else [Char.ofNat (q + 48)]

def putDec (num : ℕ) : List Char :=
  if num < 100000 then putDecTrunc num
  else putDecFull (num % 100000) ++ putDec (num / 100000)

/-- A digit of base 8 or 16, or'ed with `locase`. -/
def digit (locase value : ℕ) : Char :=
  Char.ofNat (("0123456789ABCDEF".toList.getD value '0').toNat ||| locase)

/-- Characters that are all the same. -/
def pad (stop : ℕ) (c : Char) : ℕ → Cursor Char → Cursor Char
  | 0, str => str
  | count + 1, str => pad stop c count (put stop str c)

/-- Characters one after the other. -/
def copy (stop : ℕ) : List Char → Cursor Char → Cursor Char
  | [], str => str
  | c :: rest, str => copy stop rest (put stop str c)

/-- How often `while (--size >= 0)` is executed. -/
def countdown (size : ℤ) : ℕ := (int (size - 1) + 1).toNat

/-- What `while (--size >= 0)` leaves in `size`. -/
def countedDown (size : ℤ) : ℤ := min (int (size - 1)) (-1)

/-- The sign that `number` writes. -/
def signOf (flags : Flags) (num : ℕ) : Option Char :=
  if flags.sign then
    if 2 ^ 63 ≤ num then some '-'
    else if flags.plus then some '+'
    else if flags.space then some ' '
    else none
  else none

variable (stop : ℕ) (str : Cursor Char)

/-- `number`; `num` is an `unsigned long long`, `stop` is `end`. -/
def number (num : ℕ) (base : ℕ) (size precision : ℤ) (type : Flags) : Cursor Char :=
  let needPfx := type.special && base != 10
  let locase := if type.small then 0x20 else 0
  let type := if type.left then { type with zeropad := false } else type
  let sign := signOf type num
  let num := if type.sign && decide (2 ^ 63 ≤ num) then 2 ^ 64 - num else num
  let size := if sign.isSome then int (size - 1) else size
  let size := if needPfx then (if base = 16 then int (size - 2) else int (size - 1)) else size
  let tmp :=
    if num = 0 then ['0']
    else if base ≠ 10 then (Nat.digits base num).map (digit locase)
    else putDec num
  let precision := max (tmp.length : ℤ) precision
  let size := int (size - precision)
  -- leading space padding
  let leading := !(type.zeropad || type.left)
  let str := if leading then pad stop ' ' (countdown size) str else str
  let size := if leading then countedDown size else size
  let str := copy stop sign.toList str
  let str := if needPfx then put stop str '0' else str
  let str :=
    if needPfx && base == 16 then put stop str (Char.ofNat ('X'.toNat ||| locase)) else str
  -- zero or space padding
  let str :=
    if !type.left then pad stop (if type.zeropad then '0' else ' ') (countdown size) str else str
  let size := if !type.left then countedDown size else size
  let str := pad stop '0' (precision - tmp.length).toNat str
  let str := copy stop tmp.reverse str
  pad stop ' ' (countdown size) str

/-! ## Strings and pointers -/

/-- `strnlen` with a count that was an `int`, in an `int`. -/
def strnlen (s : List Char) (precision : ℤ) : ℤ :=
  int (if precision < 0 then (min (s.length : ℤ) (2 ^ 64 + precision)) else min s.length precision)

/-- `string`, for the characters that `s` leads to; `while (len < field_width--)` ends with
`field_width` below both numbers. -/
def string (s : List Char) (fieldWidth precision : ℤ) (flags : Flags) : Cursor Char :=
  let len := strnlen s precision
  let str := if !flags.left then pad stop ' ' (fieldWidth - len).toNat str else str
  let fieldWidth := if !flags.left then int (min fieldWidth len - 1) else fieldWidth
  let str := copy stop (s.take len.toNat) str
  pad stop ' ' (fieldWidth - len).toNat str

variable (env : Env)

/-- The characters that a `%s` argument leads to. -/
def stringAt (s : ℕ) : List Char :=
  if s < pageSize then "<NULL>".toList else env.strings s

/-- `pointer`, for the character behind the conversion. -/
def pointer (fmt : Option Char) (stop : ℕ) (str : Cursor Char) (ptr : ℕ) (fieldWidth precision : ℤ)
    (flags : Flags) : Cursor Char :=
  if fmt = some 'F' ∨ fmt = some 'S' then
    string stop str (env.symbol ptr) fieldWidth precision flags
  else if fieldWidth = -1 then
    number stop str ptr 16 16 precision { flags with small := true, zeropad := true }
  else number stop str ptr 16 fieldWidth precision { flags with small := true }

/-! ## Conversions -/

/-- `va_arg` of 64 bits. -/
def Env.word (arg : ℕ) : ℕ := env.args arg % 2 ^ 64

/-- `va_arg(args, int)` -/
def Env.int (env : Env) (arg : ℕ) : ℤ := Vsprintf.int (env.args arg)

/-- Conversion of a signed type of so many bits to `unsigned long long`. -/
def extend (bits value : ℕ) : ℕ := (Int.bmod value (2 ^ bits) % 2 ^ 64).toNat

/-- The field width, whether it makes the field left justified, and the next argument. -/
def getWidth (arg : ℕ) : Amount → ℤ × Bool × ℕ
  | .absent => (-1, false, arg)
  | .literal value => (value, false, arg)
  | .argument =>
    if env.int arg < 0 then (int (-env.int arg), true, arg + 1) else (env.int arg, false, arg + 1)

/-- The precision and the next argument. -/
def getPrecisionValue (arg : ℕ) : Option Amount → ℤ × ℕ
  | none => (-1, arg)
  | some .absent => (0, arg)
  | some (.literal value) => (max value 0, arg)
  | some .argument => (max (env.int arg) 0, arg + 1)

/-- The number for an integer conversion. -/
def getNumber (arg : ℕ) (qualifier : Option Char) (signed : Bool) : ℕ :=
  match qualifier with
  | some 'h' =>
    if signed then extend 16 (env.args arg % 2 ^ 16) else env.args arg % 2 ^ 16
  | none => if signed then extend 32 (env.args arg % 2 ^ 32) else env.args arg % 2 ^ 32
  | some _ => env.word arg

/-- `case 'c'` -/
def character (c : Char) (fieldWidth : ℤ) (flags : Flags) : Cursor Char :=
  let str := if !flags.left then pad stop ' ' (int (fieldWidth - 1)).toNat str else str
  let fieldWidth := if !flags.left then min (int (fieldWidth - 1)) 0 else fieldWidth
  let str := put stop str c
  pad stop ' ' (int (fieldWidth - 1)).toNat str

/-- `case 'n'`: the bytes of `str - buf` at the address of the argument. -/
def countWritten (buf arg : ℕ) (qualifier : Option Char) (str : Cursor Char) : Cursor Char :=
  let bytes := if qualifier ∈ [some 'l', some 'Z', some 'z'] then 8 else 4
  let value := (str.position + 2 ^ 64 - buf) % 2 ^ 64
  { str with
    trace := str.trace ++ (List.range bytes).map fun i =>
      ((env.word arg + i) % 2 ^ 64, Char.ofNat (value / 2 ^ (8 * i) % 2 ^ 8)) }

/-- The conversion at the head of the format, with the cursor and the next argument behind it. -/
def convert (buf stop : ℕ) (directive : Directive) (fmt : List Char) (arg : ℕ) (str : Cursor Char) :
    Cursor Char × ℕ :=
  let width := getWidth env arg directive.width
  let flags := { directive.flags with left := directive.flags.left || width.2.1 }
  let precision := getPrecisionValue env width.2.2 directive.precision
  let arg := precision.2
  let num (signed : Bool) := getNumber env arg directive.qualifier signed
  match fmt with
  | 'c' :: _ => (character stop str (Char.ofNat (env.args arg % 2 ^ 8)) width.1 flags, arg + 1)
  | 's' :: _ => (string stop str (stringAt env (env.word arg)) width.1 precision.1 flags, arg + 1)
  | 'p' :: rest => (pointer env rest.head? stop str (env.word arg) width.1 precision.1 flags, arg + 1)
  | 'n' :: _ => (countWritten env buf arg directive.qualifier str, arg + 1)
  | '%' :: _ => (put stop str '%', arg)
  | 'o' :: _ => (number stop str (num false) 8 width.1 precision.1 flags, arg + 1)
  | 'x' :: _ =>
    (number stop str (num false) 16 width.1 precision.1 { flags with small := true }, arg + 1)
  | 'X' :: _ => (number stop str (num false) 16 width.1 precision.1 flags, arg + 1)
  | 'd' :: _ =>
    (number stop str (num true) 10 width.1 precision.1 { flags with sign := true }, arg + 1)
  | 'i' :: _ =>
    (number stop str (num true) 10 width.1 precision.1 { flags with sign := true }, arg + 1)
  | 'u' :: _ => (number stop str (num false) 10 width.1 precision.1 flags, arg + 1)
  | c :: _ => (put stop (put stop str '%') c, arg)
  | [] => (put stop str '%', arg)

theorem processFlags_length (flags : Flags) (fmt : List Char) :
    (processFlags flags fmt).2.length ≤ fmt.length := by
  fun_induction processFlags flags fmt with
  | case1 _ _ ih | case2 _ _ ih | case3 _ _ ih | case4 _ _ ih | case5 _ _ ih =>
    exact ih.trans (Nat.le_succ _)
  | case6 => exact le_rfl

theorem skipAtoi_length (i : ℤ) (fmt : List Char) : (skipAtoi i fmt).2.length ≤ fmt.length := by
  fun_induction skipAtoi i fmt with
  | case1 => exact le_rfl
  | case2 _ _ _ _ ih => exact ih.trans (Nat.le_succ _)
  | case3 => exact le_rfl

section

variable (fmt : List Char)

theorem getAmount_length : (getAmount fmt).2.length ≤ fmt.length := by
  fun_cases getAmount fmt with
  | case1 => exact le_rfl
  | case2 => exact skipAtoi_length 0 _
  | case3 => exact Nat.le_succ _
  | case4 => exact le_rfl

theorem getPrecision_length : (getPrecision fmt).2.length ≤ fmt.length := by
  fun_cases getPrecision fmt with
  | case1 fmt => exact (getAmount_length fmt).trans (Nat.le_succ _)
  | case2 => exact le_rfl

theorem getQualifier_length : (getQualifier fmt).2.length ≤ fmt.length := by
  fun_cases getQualifier fmt with
  | case1 fmt => exact (Nat.le_succ _).trans (Nat.le_succ _)
  | case2 => exact Nat.le_succ _
  | case3 | case4 => exact le_rfl

theorem afterConversion_length : (afterConversion fmt).length ≤ fmt.length := by
  fun_cases afterConversion fmt with
  | case1 => exact le_rfl
  | case2 fmt => exact (dropWhile_suffix _).length_le.trans (Nat.le_succ _)
  | case3 => exact Nat.le_succ _

/-- A directive and its conversion do not make the format longer. -/
theorem afterDirective_length : (afterConversion (getDirective fmt).2).length ≤ fmt.length :=
  (afterConversion_length _).trans <| (getQualifier_length _).trans <|
    (getPrecision_length _).trans <| (getAmount_length _).trans <| processFlags_length _ _

end

/-- The loop of `vsnprintf` over the format, from an argument on. -/
def format (env : Env) (buf stop : ℕ) (fmt : List Char) (arg : ℕ) (str : Cursor Char) :
    Cursor Char :=
  match fmt with
  | [] => str
  | c :: rest =>
    if c = '%' then
      let directive := getDirective rest
      let converted := convert env buf stop directive.1 directive.2 arg str
      format env buf stop (afterConversion directive.2) converted.2 converted.1
    else format env buf stop rest arg (put stop str c)
  termination_by fmt.length
  decreasing_by
    · exact Nat.lt_succ_of_le (afterDirective_length rest)
    · exact Nat.lt_succ_self _

/-- The conversions of a format. -/
def conversions (fmt : List Char) : List Char :=
  match fmt with
  | [] => []
  | c :: rest =>
    if c = '%' then
      (getDirective rest).2.take 1 ++ conversions (afterConversion (getDirective rest).2)
    else conversions rest
  termination_by fmt.length
  decreasing_by
    · exact Nat.lt_succ_of_le (afterDirective_length rest)
    · exact Nat.lt_succ_self _

/-- `end`, and the size that goes with it. -/
def bufferEnd (buf size : ℕ) : ℕ × ℕ :=
  if (buf + size) % 2 ^ 64 < buf then (2 ^ 64 - 1, 2 ^ 64 - 1 - buf)
  else ((buf + size) % 2 ^ 64, size)

def nul : Char := Char.ofNat 0

/-- The NUL at the end. -/
def terminate (stop size : ℕ) (str : Cursor Char) : List (ℕ × Char) :=
  if 0 < size then
    if str.position < stop then str.trace ++ [(str.position, nul)]
    else str.trace ++ [(stop - 1, nul)]
  else str.trace

/-- `vsnprintf`: the return value and the stores. -/
def vsnprintf (buf size : ℕ) (fmt : List Char) : ℤ × List (ℕ × Char) :=
  if int size < 0 then (0, [])
  else
    let stop := (bufferEnd buf size).1
    let str := format env buf stop fmt 0 ⟨buf, []⟩
    (int (str.position - buf), terminate stop (bufferEnd buf size).2 str)

section Emits

theorem pad_eq_putAll (c : Char) (count : ℕ) (str : Cursor Char) :
    pad stop c count str = putAll stop str (replicate count c) := by
  induction count generalizing str with
  | zero => rfl
  | succ count ih => rw [pad, ih, put_eq_putAll, putAll_putAll, replicate_succ, singleton_append]

theorem copy_eq_putAll (cs : List Char) (str : Cursor Char) :
    copy stop cs str = putAll stop str cs := by
  induction cs generalizing str with
  | nil => rfl
  | cons c rest ih => rw [copy, ih, put_eq_putAll, putAll_putAll, singleton_append]

theorem emits_number (num base : ℕ) (size precision : ℤ) (type : Flags) :
    Emits fun stop str => number stop str num base size precision type := by
  constructor
  intro stop str
  simp only [number, pad_eq_putAll, copy_eq_putAll, put_eq_putAll, ite_putAll, ite_putAll_self,
    putAll_putAll]
  rfl

theorem emits_string (s : List Char) (fieldWidth precision : ℤ) (flags : Flags) :
    Emits fun stop str => string stop str s fieldWidth precision flags := by
  constructor
  intro stop str
  simp only [string, pad_eq_putAll, copy_eq_putAll, ite_putAll_self, putAll_putAll]
  rfl

theorem emits_pointer (fmt : Option Char) (ptr : ℕ) (fieldWidth precision : ℤ) (flags : Flags) :
    Emits fun stop str => pointer env fmt stop str ptr fieldWidth precision flags := by
  simp only [pointer]
  split_ifs
  · exact emits_string _ _ _ _
  · exact emits_number _ _ _ _ _
  · exact emits_number _ _ _ _ _

theorem emits_character (c : Char) (fieldWidth : ℤ) (flags : Flags) :
    Emits fun stop str => character stop str c fieldWidth flags := by
  constructor
  intro stop str
  simp only [character, pad_eq_putAll, put_eq_putAll, ite_putAll_self, putAll_putAll]
  rfl

theorem emits_list (output : List Char) : Emits fun stop str => putAll stop str output :=
  ⟨output, fun _ _ => rfl⟩

/-- Characters and the next argument, for every buffer. -/
def Converts (convert : ℕ → ℕ → Cursor Char → Cursor Char × ℕ) : Prop :=
  ∃ output next, ∀ buf stop str, convert buf stop str = (putAll stop str output, next)

theorem converts_of_emits {write : ℕ → Cursor Char → Cursor Char} (hemits : Emits write)
    (next : ℕ) : Converts fun _ stop str => (write stop str, next) := by
  obtain ⟨output, houtput⟩ := hemits
  exact ⟨output, next, fun _ stop str => by simp only [houtput]⟩

/-- Every conversion but `%n` writes the same characters everywhere. -/
theorem converts_convert (directive : Directive) (fmt : List Char) (arg : ℕ)
    (hcount : 'n' ∉ fmt.take 1) :
    Converts fun buf stop str => convert env buf stop directive fmt arg str := by
  unfold convert
  split
  · exact converts_of_emits (emits_character _ _ _) _
  · exact converts_of_emits (emits_string _ _ _ _) _
  · exact converts_of_emits (emits_pointer _ _ _ _ _ _) _
  · simp at hcount
  · exact converts_of_emits (emits_list ['%']) _
  iterate 6 exact converts_of_emits (emits_number _ _ _ _ _) _
  · exact converts_of_emits (emits_list ['%', _]) _
  · exact converts_of_emits (emits_list ['%']) _

/-- By induction over the format: each turn of the loop writes the same characters and takes the
same arguments for every size. -/
theorem format_eq_putAll (fmt : List Char) (arg : ℕ) (hcount : 'n' ∉ conversions fmt) :
    ∃ output, ∀ buf stop str, format env buf stop fmt arg str = putAll stop str output := by
  fun_induction conversions fmt generalizing arg with
  | case1 =>
    refine ⟨[], fun buf stop str => ?_⟩
    rw [format]
    rfl
  | case2 rest ih =>
    rw [mem_append, not_or] at hcount
    obtain ⟨converted, next, hconverted⟩ :=
      converts_convert env (getDirective rest).1 (getDirective rest).2 arg hcount.1
    obtain ⟨output, houtput⟩ := ih next hcount.2
    refine ⟨converted ++ output, fun buf stop str => ?_⟩
    rw [format, if_pos rfl]
    simp [hconverted, houtput, putAll_putAll]
  | case3 c rest hplain ih =>
    obtain ⟨output, houtput⟩ := ih arg hcount
    refine ⟨c :: output, fun buf stop str => ?_⟩
    rw [format, if_neg hplain, houtput, put_eq_putAll, putAll_putAll, singleton_append]

end Emits

/-! ## Truncation -/

/-- The result of `vsnprintf` for a buffer, if this is the output without truncation: as many
characters as there is space for and a NUL, in the buffer, and the number of all. -/
structure Coherent (output : List Char) (buf size : ℕ) (result : ℤ × List (ℕ × Char)) :
    Prop where
  returned : result.1 = int output.length
  inside : ∀ store ∈ result.2, buf ≤ store.1 ∧ store.1 < buf + size
  holds : 0 < size → ∀ i value, (output.take (size - 1))[i]? = some value →
    stored result.2 (buf + i) = some value
  terminated : 0 < size → stored result.2 (buf + min output.length (size - 1)) = some nul

section Truncation

variable {output : List Char} {buf size length : ℕ} {str : Cursor Char}

/-- `end` lies in the buffer, and behind all characters that the buffer has space for. -/
structure Fits (length buf size stop : ℕ) : Prop where
  upper : stop ≤ buf + size
  lower : ∀ i < length, i < size - 1 → buf + i < stop
  terminator : 0 < size → (if buf + length < stop then buf + length else stop - 1) =
    buf + min length (size - 1)

theorem fits_bufferEnd (hsize : size < 2 ^ 31) (hspace : buf + length < 2 ^ 64 - 1) :
    Fits length buf size (bufferEnd buf size).1 ∧ (0 < (bufferEnd buf size).2 ↔ 0 < size) := by
  rcases lt_or_ge (buf + size) (2 ^ 64) with hlt | hge
  · rw [bufferEnd, Nat.mod_eq_of_lt hlt, if_neg (by omega)]
    refine ⟨⟨le_rfl, fun i _ _ => by omega, fun hpos => ?_⟩, Iff.rfl⟩
    split_ifs <;> omega
  · -- the buffer would reach beyond the last address, but the output does not
    rw [bufferEnd, if_pos (by omega)]
    refine ⟨⟨by omega, fun i hi _ => by omega, fun _ => ?_⟩, by omega⟩
    rw [if_pos (by omega)]
    omega

theorem Fits.terminate {stop size' : ℕ} (hfits : Fits length buf size stop)
    (hpositive : 0 < size' ↔ 0 < size) (hposition : str.position = buf + length) :
    terminate stop size' str =
      if 0 < size then str.trace ++ [(buf + min length (size - 1), nul)] else str.trace := by
  rw [Vsprintf.terminate]
  by_cases hsize : 0 < size
  · rw [if_pos (hpositive.mpr hsize), if_pos hsize, ← hfits.terminator hsize, hposition]
    split_ifs <;> rfl
  · rw [if_neg (hpositive.not.mpr hsize), if_neg hsize]

theorem coherent_of_wrote {stop : ℕ} (hlength : output.length = length)
    (hfits : Fits length buf size stop) (hwrote : Wrote stop buf output str) :
    Coherent output buf size (int (str.position - buf),
      if 0 < size then str.trace ++ [(buf + min length (size - 1), nul)] else str.trace) := by
  subst hlength
  have hinside : ∀ store ∈ str.trace, buf ≤ store.1 ∧ store.1 < buf + size := by
    intro store hstore
    obtain ⟨hlow, hhigh⟩ := hwrote.inside store hstore
    exact ⟨hlow, hhigh.trans_le hfits.upper⟩
  refine ⟨?_, ?_, ?_, ?_⟩
  · rw [hwrote.reached]
    push_cast
    rw [add_sub_cancel_left]
  · intro store hstore
    split_ifs at hstore with hsize
    · rcases mem_append.mp hstore with hcharacter | hnul
      · exact hinside store hcharacter
      · rw [mem_singleton.mp hnul]
        exact ⟨by omega, by omega⟩
    · exact hinside store hstore
  · intro hsize i value hvalue
    rw [getElem?_take] at hvalue
    split_ifs at hvalue with hi
    have hlt := (List.getElem?_eq_some_iff.mp hvalue).1
    rw [if_pos hsize, stored_append, if_neg (by omega)]
    exact hwrote.holds i value hvalue (hfits.lower i hlt hi)
  · intro hsize
    rw [if_pos hsize, stored_append, if_pos rfl]

/-- For every format without `%n` and all arguments there is one output such that, for all sizes
below `2 ^ 31` and all buffers from which the output does not reach the last address,
`vsnprintf` returns the length of the output and leaves in the buffer as much of it as fits. -/
theorem vsnprintf_coherent (fmt : List Char) (hcount : 'n' ∉ conversions fmt) :
    ∃ output : List Char, ∀ buf size, size < 2 ^ 31 → buf + output.length < 2 ^ 64 - 1 →
      Coherent output buf size (vsnprintf env buf size fmt) := by
  obtain ⟨output, houtput⟩ := format_eq_putAll env fmt 0 hcount
  refine ⟨output, fun buf size hsize hspace => ?_⟩
  have hnonneg : ¬int size < 0 := by
    rw [int, Int.bmod_eq_of_le (by omega) (by omega)]
    omega
  obtain ⟨hfits, hpositive⟩ := fits_bufferEnd hsize hspace
  have hwrote : Wrote (bufferEnd buf size).1 buf output
      (putAll (bufferEnd buf size).1 ⟨buf, []⟩ output) :=
    wrote_putAll (by rw [addressSpace]; omega)
  have hresult := coherent_of_wrote rfl hfits hwrote
  rw [← hfits.terminate hpositive hwrote.reached, ← houtput] at hresult
  rw [vsnprintf, if_neg hnonneg]
  exact hresult

/-- All arguments are 65. -/
def letters : Env := ⟨fun _ => 65, fun _ => [], fun _ => []⟩

theorem vsnprintf_coherent_trailing_percent :
    ∃ output : List Char, ∀ buf size, size < 2 ^ 31 → buf + output.length < 2 ^ 64 - 1 →
      Coherent output buf size (vsnprintf letters buf size "a%5d%".toList) :=
  vsnprintf_coherent _ _ (by
    simp [conversions, getDirective, processFlags, getAmount, getPrecision, getQualifier,
      afterConversion, skipAtoi, isdigit])

/-- The output of `%2147483647c`, which is an `int` long. -/
theorem format_widest (buf stop : ℕ) (str : Cursor Char) :
    format env buf stop "%2147483647c".toList 0 str =
      putAll stop str (replicate 2147483646 ' ' ++ [Char.ofNat (env.args 0 % 2 ^ 8)]) := by
  have hdirective : getDirective "2147483647c".toList =
      (⟨noFlags, .literal 2147483647, none, none⟩, ['c']) := by decide +kernel
  have hfmt : "%2147483647c".toList = '%' :: "2147483647c".toList := rfl
  have hpad : (int (2147483647 - 1)).toNat = 2147483646 := by decide
  have hrest : (int (min (int (2147483647 - 1)) 0 - 1)).toNat = 0 := by decide
  have hcharacter : ∀ c, character stop str c 2147483647 noFlags =
      putAll stop str (replicate 2147483646 ' ' ++ [c]) := by
    intro c
    simp only [character, noFlags, Bool.not_false, if_true, hpad, hrest, pad_eq_putAll,
      put_eq_putAll, putAll_putAll, replicate_zero, append_nil]
  have hconvert : convert env buf stop ⟨noFlags, .literal 2147483647, none, none⟩ ['c'] 0 str =
      (character stop str (Char.ofNat (env.args 0 % 2 ^ 8)) 2147483647 noFlags, 1) := rfl
  rw [hfmt, format, if_pos rfl, hdirective]
  simp only [hconvert, hcharacter]
  rw [show afterConversion ['c'] = [] from rfl, format]

/-- Behind the last address `str` goes on at address 0, which is below `end`: the widest field,
for a buffer of 4 bytes in the kernel image, is stored from address 0 on as well. -/
theorem vsnprintf_wraps :
    'n' ∉ conversions "%2147483647c".toList ∧
      (0, ' ') ∈ (vsnprintf letters 0xffffffff81000000 4 "%2147483647c".toList).2 ∧
      ∀ output, ¬Coherent output 0xffffffff81000000 4
        (vsnprintf letters 0xffffffff81000000 4 "%2147483647c".toList) := by
  have hspaces : replicate 2147483646 ' ' =
      replicate 2130706432 ' ' ++ ' ' :: replicate 16777213 ' ' := by
    rw [← replicate_succ, replicate_append_replicate]
  have hstore : (0, ' ') ∈ (vsnprintf letters 0xffffffff81000000 4 "%2147483647c".toList).2 := by
    have htrace := @mem_trace_putAll Char 0xffffffff81000004 0xffffffff81000000 ' ' (by decide)
      (replicate 2130706432 ' ') (replicate 16777213 ' ' ++ [Char.ofNat (letters.args 0 % 2 ^ 8)])
      (by rw [length_replicate]; decide)
    rw [length_replicate, ← cons_append, ← append_assoc, ← hspaces, ← format_widest letters
      0xffffffff81000000] at htrace
    have hend : bufferEnd 0xffffffff81000000 4 = (0xffffffff81000004, 4) := by decide
    rw [vsnprintf, if_neg (by decide), hend]
    simp only [Vsprintf.terminate]
    split_ifs with hpositive
    · exact mem_append_left _ htrace
    · exact mem_append_left _ htrace
    · exact absurd (by decide) hpositive
  refine ⟨?_, hstore, ?_⟩
  · simp [conversions, getDirective, processFlags, getAmount, getPrecision, getQualifier,
      afterConversion, skipAtoi, isdigit]
  · intro output hcoherent
    have hinside := (hcoherent.inside _ hstore).1
    omega

end Truncation

end KernelM5040.Vsprintf
