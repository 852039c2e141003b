import KernelM5040.Core.Machine

/-!
# The socket filter: checker and interpreter

Model of `net/core/filter.c`.  A filter is an array of `struct sock_filter`;
`sk_chk_filter` inspects it once when it is attached and `sk_run_filter`
interprets it on every packet.  Registers are 32-bit vectors, the program
counter is the C `int`, and every interpreter step lists what it touches
besides the registers: scratch words, divisors, packet bytes and the region
searched for a netlink attribute.
-/

namespace KernelM5040.Filter

open Machine

abbrev U32 := BitVec 32
abbrev Byte := BitVec 8

def bpfMaxinsns : ℕ := 4096
def bpfMemwords : ℕ := 16
def skfAdOff : ℤ := -0x1000
def skfNetOff : ℤ := -0x100000
def skfLlOff : ℤ := -0x200000

/-- `struct sock_filter`. -/
structure SockFilter where
  code : BitVec 16
  jt : Byte
  jf : Byte
  k : U32
  deriving DecidableEq

/-! ## Opcodes

The constructors below are the `case` labels of the two `switch` statements,
and `Opcode.code` gives each label its value from `include/linux/filter.h`. -/

inductive Src
  | k
  | x
  deriving DecidableEq

inductive AluOp
  | add
  | sub
  | mul
  | div
  | or
  | and
  | lsh
  | rsh
  deriving DecidableEq

inductive JmpOp
  | jeq
  | jgt
  | jge
  | jset
  deriving DecidableEq

inductive Size
  | w
  | h
  | b
  deriving DecidableEq

inductive Opcode
  | alu (op : AluOp) (src : Src)
  | neg
  | ja
  | jmp (op : JmpOp) (src : Src)
  | ldAbs (size : Size)
  | ldInd (size : Size)
  | ldLen
  | ldxLen
  | ldxMsh
  | ldImm
  | ldxImm
  | ldMem
  | ldxMem
  | tax
  | txa
  | retK
  | retA
  | st
  | stx
  deriving DecidableEq

def bpfLd : BitVec 16 := 0x00
def bpfLdx : BitVec 16 := 0x01
def bpfSt : BitVec 16 := 0x02
def bpfStx : BitVec 16 := 0x03
def bpfAlu : BitVec 16 := 0x04
def bpfJmp : BitVec 16 := 0x05
def bpfRet : BitVec 16 := 0x06
def bpfMisc : BitVec 16 := 0x07

/-- `BPF_CLASS(code)`. -/
def bpfClass (code : BitVec 16) : BitVec 16 := code &&& 0x07

/-- `BPF_K` and `BPF_X`. -/
def Src.code : Src → BitVec 16
  | .k => 0x00
  | .x => 0x08

def AluOp.code : AluOp → BitVec 16
  | .add => 0x00
  | .sub => 0x10
  | .mul => 0x20
  | .div => 0x30
  | .or => 0x40
  | .and => 0x50
  | .lsh => 0x60
  | .rsh => 0x70

def JmpOp.code : JmpOp → BitVec 16
  | .jeq => 0x10
  | .jgt => 0x20
  | .jge => 0x30
  | .jset => 0x40

/-- `BPF_W`, `BPF_H` and `BPF_B`. -/
def Size.code : Size → BitVec 16
  | .w => 0x00
  | .h => 0x08
  | .b => 0x10

/-- Width of a load in bytes. -/
def Size.bytes : Size → ℕ
  | .w => 4
  | .h => 2
  | .b => 1

def Opcode.code : Opcode → BitVec 16
  | .alu op src => bpfAlu ||| op.code ||| src.code
  | .neg => bpfAlu ||| 0x80
  | .ja => bpfJmp ||| 0x00
  | .jmp op src => bpfJmp ||| op.code ||| src.code
  | .ldAbs size => bpfLd ||| size.code ||| 0x20
  | .ldInd size => bpfLd ||| size.code ||| 0x40
  | .ldLen => bpfLd ||| Size.code .w ||| 0x80
  | .ldxLen => bpfLdx ||| Size.code .w ||| 0x80
  | .ldxMsh => bpfLdx ||| Size.code .b ||| 0xa0
  | .ldImm => bpfLd ||| 0x00
  | .ldxImm => bpfLdx ||| 0x00
  | .ldMem => bpfLd ||| 0x60
  | .ldxMem => bpfLdx ||| 0x60
  | .tax => bpfMisc ||| 0x00
  | .txa => bpfMisc ||| 0x80
  | .retK => bpfRet ||| Src.code .k
  | .retA => bpfRet ||| 0x10
  | .st => bpfSt
  | .stx => bpfStx

def AluOp.all : List AluOp := [.add, .sub, .mul, .div, .or, .and, .lsh, .rsh]

def JmpOp.all : List JmpOp := [.jeq, .jgt, .jge, .jset]

def Opcode.plain : List Opcode :=
  [.neg, .ja, .ldAbs .w, .ldAbs .h, .ldAbs .b, .ldInd .w, .ldInd .h, .ldInd .b,
    .ldLen, .ldxLen, .ldxMsh, .ldImm, .ldxImm, .ldMem, .ldxMem, .tax, .txa, .retK, .retA, .st, .stx]

def Opcode.all : List Opcode :=
  (AluOp.all.flatMap fun op => [Opcode.alu op .k, Opcode.alu op .x]).append
    ((JmpOp.all.flatMap fun op => [Opcode.jmp op .k, Opcode.jmp op .x]).append Opcode.plain)

/-- The label a `switch` on `code` selects, if any. -/
def decode (code : BitVec 16) : Option Opcode :=
  Opcode.all.find? fun op => op.code == code

theorem code_of_decode {code : BitVec 16} {op : Opcode}
    (hdecode : decode code = some op) : op.code = code := by
  simpa using List.find?_some hdecode

/-- Among the labels only the two returns are in class `BPF_RET`. -/
theorem bpfClass_code_eq_bpfRet_iff (op : Opcode) :
    bpfClass op.code = bpfRet ↔ op = .retK ∨ op = .retA := by
  cases op with
  | alu op src | jmp op src => cases op <;> cases src <;> decide
  | ldAbs size | ldInd size => cases size <;> decide
  | _ => decide

/-! ## The checker -/

def einval : ℤ := 22

/-- The `switch` of `sk_chk_filter` for the instruction at `pc`: `true` when
the loop goes on, `false` for `return -EINVAL`. -/
def chkInstruction (flen pc : ℕ) (ftest : SockFilter) : Bool :=
  match decode ftest.code with
  | some (.alu .div .k) => ftest.k != 0
  | some (.alu _ _) | some .neg => true
  | some (.ldAbs _) | some (.ldInd _) | some .ldLen | some .ldxLen => true
  | some .ldxMsh | some .ldImm | some .ldxImm => true
  | some .tax | some .txa | some .retK | some .retA => true
  | some .ldMem | some .ldxMem | some .st | some .stx =>
    decide (ftest.k.toNat < bpfMemwords)
  | some .ja => decide (ftest.k.toNat < flen - pc - 1)
  | some (.jmp _ _) =>
    !(decide (flen ≤ pc + ftest.jt.toNat + 1) ||
      decide (flen ≤ pc + ftest.jf.toNat + 1))
  | none => false

/-- The checking loop, on the instructions from `pc` on. -/
def chkLoop (flen : ℕ) : ℕ → List SockFilter → Bool
  | _, [] => true
  | pc, ftest :: rest => chkInstruction flen pc ftest && chkLoop flen (pc + 1) rest

variable (filter : List SockFilter)

def skChkFilter : ℤ :=
  let flen := filter.length
  if flen = 0 ∨ bpfMaxinsns < flen then -einval
  else if chkLoop flen 0 filter then
    match filter.getLast? with
    | some last => if bpfClass last.code = bpfRet then 0 else -einval
    | none => -einval
  else -einval

/-! ## Packets -/

/-- The parts of `struct sk_buff` a filter can see.  `bytes` is the memory of
the buffer; positions are offsets from `skb->head`.  `copyBits` stands for
`skb_copy_bits`, which gathers bytes beyond the linear part. -/
structure SkBuff where
  bytes : ℕ → Byte
  data : ℕ
  tail : ℕ
  networkHeader : ℕ
  macHeader : ℕ
  len : U32
  dataLen : U32
  protocol : BitVec 16
  pktType : BitVec 3
  dev : Option U32
  copyBits : ℤ → ℕ → Option (List Byte)

/-- Where `load_pointer` points: into the buffer, or at the local `tmp`
filled by `skb_copy_bits`. -/
inductive DataPtr
  | head (offset : ℕ)
  | tmp (bytes : List Byte)

variable (skb : SkBuff)

def skbHeadlen : U32 := skb.len - skb.dataLen

def skbIsNonlinear : Bool := skb.dataLen != 0

def skbHeaderPointer (offset : ℤ) (len : ℕ) : Option DataPtr :=
  let hlen := (skbHeadlen skb).toInt
  if (len : ℤ) ≤ hlen - offset then some (.head (skb.data + offset.toNat))
  else (skb.copyBits offset len).map .tmp

/-- The position `__load_pointer` computes for a negative offset; `none` is
the `NULL` it starts from. -/
def headerPosition (k : ℤ) : Option ℕ :=
  if skfNetOff ≤ k then some (skb.networkHeader + (k - skfNetOff).toNat)
  else if skfLlOff ≤ k then some (skb.macHeader + (k - skfLlOff).toNat)
  else none

/-- `__load_pointer`: the pointer is compared with `skb->head`, which every
position here is at or above, and with the tail; the size of the access is not
looked at. -/
def loadPointerSlow (k : ℤ) : Option DataPtr :=
  match headerPosition skb k with
  | some position => if position < skb.tail then some (.head position) else none
  | none => none

def loadPointer (k : ℤ) (size : ℕ) : Option DataPtr :=
  if 0 ≤ k then skbHeaderPointer skb k size
  else if skfAdOff ≤ k then none
  else loadPointerSlow skb k

/-- The `size` bytes at a loaded pointer. -/
def readBytes (size : ℕ) : DataPtr → List Byte
  | .head offset => (List.range size).map fun index => skb.bytes (offset + index)
  | .tmp bytes => bytes.take size

/-- `get_unaligned_be32`, `get_unaligned_be16` and the plain byte load. -/
def bigEndian (bytes : List Byte) : U32 :=
  bytes.foldl (fun value byte => value <<< 8 ||| byte.setWidth 32) 0

/-! ### Netlink attributes

`nla_find` on the linear buffer; the two header fields are in host order,
which is little endian on this board. -/

variable (bytes : ℕ → Byte)

def hostU16 (position : ℕ) : ℕ :=
  (bytes position).toNat + 256 * (bytes (position + 1)).toNat

def nlaType (position : ℕ) : ℕ :=
  hostU16 bytes (position + 2) % 2 ^ 14

def nlaAlign (len : ℕ) : ℕ := (len + 3) / 4 * 4

def nlaOk (position : ℕ) (remaining : ℤ) : Bool :=
  decide (4 ≤ remaining) && decide (4 ≤ hostU16 bytes position) &&
    decide ((hostU16 bytes position : ℤ) ≤ remaining)

/-- The `nla_for_each_attr` loop; an attribute is at least four bytes long, so
`remaining` bounds the number of rounds. -/
def nlaFindLoop (bytes : ℕ → Byte) (attrtype : ℤ) : ℕ → ℕ → ℤ → Option ℕ
  | 0, _, _ => none
  | fuel + 1, position, remaining =>
    if nlaOk bytes position remaining then
      if (nlaType bytes position : ℤ) = attrtype then some position
      else
        let totlen := nlaAlign (hostU16 bytes position)
        nlaFindLoop bytes attrtype fuel (position + totlen) (remaining - totlen)
    else none

def nlaFind (head : ℕ) (len : ℤ) (attrtype : ℤ) : Option ℕ :=
  nlaFindLoop bytes attrtype len.toNat head len

/-! ## The interpreter -/

/-- The locals of `sk_run_filter` that live across iterations. -/
structure State where
  pc : ℤ
  A : U32
  X : U32
  mem : ℕ → U32

/-- What a step touches besides `pc`, `A` and `X`. -/
inductive Event
  | scratchRead (index : ℕ)
  | scratchWrite (index : ℕ)
  | divide (divisor : U32)
  | packetRead (offset size : ℕ)
  | tmpRead (size : ℕ)
  | attributeSearch (start : U32)
  deriving DecidableEq

/-- The ways out of `sk_run_filter`: `BPF_RET`, a `return 0` that drops the
packet, the `default` label, the `return 0` behind the loop, a fetch outside
the array, and a `NULL` device. -/
inductive Exit
  | ret (value : U32)
  | drop
  | illegal
  | endOfLoop
  | badFetch
  | nullDevice
  deriving DecidableEq

abbrev FilterStep := Step State Exit Event

/-- The value `sk_run_filter` returns; a fault returns nothing. -/
def Exit.value : Exit → Option U32
  | .ret value => some value
  | .drop => some 0
  | .illegal => some 0
  | .endOfLoop => some 0
  | .badFetch => none
  | .nullDevice => none

def emptyMem : ℕ → U32 := fun _ => 0

def initial (mem : ℕ → U32) : State := { pc := 0, A := 0, X := 0, mem := mem }

variable (state : State)

/-- `continue` in the loop body: only the `pc++` of the `for` is left. -/
def advance (events : List Event := []) : FilterStep :=
  { events := events, control := .next { state with pc := state.pc + 1 } }

def leave (exit : Exit) (events : List Event := []) : FilterStep :=
  { events := events, control := .exit exit }

/-- `pc += offset` in C `int` arithmetic, then `continue`. -/
def jumpBy (offset : ℕ) : FilterStep :=
  advance { state with pc := Int.bmod (state.pc + offset) (2 ^ 32) }

def Src.operand (src : Src) (fentry : SockFilter) (state : State) : U32 :=
  match src with
  | .k => fentry.k
  | .x => state.X

/-- The arithmetic instructions.  C leaves a shift by 32 or more undefined;
the shift instructions of the board use the low five bits of the count. -/
def AluOp.eval (op : AluOp) (a operand : U32) : U32 :=
  match op with
  | .add => a + operand
  | .sub => a - operand
  | .mul => a * operand
  | .div => a / operand
  | .or => a ||| operand
  | .and => a &&& operand
  | .lsh => a <<< (operand.toNat % 32)
  | .rsh => a >>> (operand.toNat % 32)

def JmpOp.test (op : JmpOp) (a operand : U32) : Bool :=
  match op with
  | .jeq => a == operand
  | .jgt => decide (operand.toNat < a.toNat)
  | .jge => decide (operand.toNat ≤ a.toNat)
  | .jset => (a &&& operand) != 0

/-- The bytes a successful `load_pointer` makes the interpreter read. -/
def readEvent (size : ℕ) : DataPtr → Event
  | .head offset => .packetRead offset size
  | .tmp _ => .tmpRead size

/-- `case SKF_AD_NLATTR` of the second `switch`. -/
def searchAttribute : FilterStep :=
  if skbIsNonlinear skb then leave .drop
  -- sizeof makes this an unsigned 64-bit subtraction: it wraps for a packet
  -- shorter than an attribute header
  else if (skb.len.setWidth 64 - 4).toNat < state.A.toNat then leave .drop
  else
    match nlaFind skb.bytes (skb.data + state.A.toNat) (skb.len - state.A).toInt
        state.X.toInt with
    | some nla =>
      advance { state with A := BitVec.ofNat 32 (nla - skb.data) } [.attributeSearch state.A]
    | none => advance { state with A := 0 } [.attributeSearch state.A]

/-- The second `switch`: a load that found no bytes may name ancillary data. -/
def ancillary (k : ℤ) : FilterStep :=
  if k - skfAdOff = 0 then
    -- ntohs on a little-endian host swaps the two bytes of the field
    advance { state with
      A := (skb.protocol.extractLsb' 0 8 ++ skb.protocol.extractLsb' 8 8).setWidth 32 }
  else if k - skfAdOff = 4 then
    advance { state with A := skb.pktType.setWidth 32 }
  else if k - skfAdOff = 8 then
    match skb.dev with
    | some ifindex => advance { state with A := ifindex }
    | none => leave .nullDevice
  else if k - skfAdOff = 12 then searchAttribute skb state
  else leave .drop

/-- `load_w`, `load_h` and `load_b`: load into the accumulator, or fall out of
the first `switch` into the ancillary data. -/
def loadA (k : ℤ) (size : Size) : FilterStep :=
  match loadPointer skb k size.bytes with
  | some ptr =>
    advance { state with A := bigEndian (readBytes skb size.bytes ptr) } [readEvent size.bytes ptr]
  | none => ancillary skb state k

/-- The first `switch` of `sk_run_filter`. -/
def execute (fentry : SockFilter) (state : State) : FilterStep :=
  match decode fentry.code with
  | some (.alu .div .x) =>
    if state.X = 0 then leave .drop
    else advance { state with A := state.A / state.X } [.divide state.X]
  | some (.alu .div .k) =>
    advance { state with A := state.A / fentry.k } [.divide fentry.k]
  | some (.alu op src) =>
    advance { state with A := op.eval state.A (src.operand fentry state) }
  | some .neg => advance { state with A := -state.A }
  | some .ja => jumpBy state fentry.k.toNat
  | some (.jmp op src) =>
    jumpBy state
      (if op.test state.A (src.operand fentry state) then fentry.jt.toNat else fentry.jf.toNat)
  | some (.ldAbs size) => loadA skb state fentry.k.toInt size
  | some (.ldInd size) => loadA skb state (state.X + fentry.k).toInt size
  | some .ldLen => advance { state with A := skb.len }
  | some .ldxLen => advance { state with X := skb.len }
  | some .ldxMsh =>
    match loadPointer skb fentry.k.toInt 1 with
    | some ptr =>
      advance { state with
          X := (bigEndian (readBytes skb 1 ptr) &&& 0xf) <<< 2 }
        [readEvent 1 ptr]
    | none => leave .drop
  | some .ldImm => advance { state with A := fentry.k }
  | some .ldxImm => advance { state with X := fentry.k }
  | some .ldMem =>
    advance { state with A := state.mem fentry.k.toNat } [.scratchRead fentry.k.toNat]
  | some .ldxMem =>
    advance { state with X := state.mem fentry.k.toNat } [.scratchRead fentry.k.toNat]
  | some .tax => advance { state with X := state.A }
  | some .txa => advance { state with A := state.X }
  | some .retK => leave (.ret fentry.k)
  | some .retA => leave (.ret state.A)
  | some .st =>
    advance { state with mem := Function.update state.mem fentry.k.toNat state.A }
      [.scratchWrite fentry.k.toNat]
  | some .stx =>
    advance { state with mem := Function.update state.mem fentry.k.toNat state.X }
      [.scratchWrite fentry.k.toNat]
  | none => leave .illegal

/-- One round of the `for` loop. -/
def filterStep (skb : SkBuff) (state : State) : FilterStep :=
  if (filter.length : ℤ) ≤ state.pc then leave .endOfLoop
  else if state.pc < 0 then leave .badFetch
  else
    match filter[state.pc.toNat]? with
    | some fentry => execute skb fentry state
    | none => leave .badFetch

/-- `sk_run_filter` for at most `fuel` instructions, from the contents `mem`
the scratch array happens to have. -/
def skRunFilter (skb : SkBuff) (mem : ℕ → U32) (fuel : ℕ) : Control State Exit :=
  runFor (filterStep filter skb) fuel (initial mem)

end KernelM5040.Filter
