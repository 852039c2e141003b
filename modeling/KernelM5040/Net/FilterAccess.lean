import KernelM5040.Net.FilterControl

/-!
# Packet bytes a filter reads

`load_pointer` has three bases: the packet data for non-negative offsets, the
network header and the link-layer header for the two negative ranges.  The
first goes through `skb_header_pointer`, which knows the size of the access;
the other two compare the pointer with the tail only, and the netlink
attribute search subtracts a header size from a length that may be smaller.
This file gives the exact condition under which every round of a run stays
inside the packet.
-/

namespace KernelM5040.Filter

open Option Machine BitVec List

variable (skb : SkBuff)

/-- What every `sk_buff` guarantees: the linear part ends at the tail pointer,
and `skb_copy_bits` delivers as many bytes as it was asked for. -/
structure SkBuff.WellFormed : Prop where
  dataLen_le : skb.dataLen.toNat ≤ skb.len.toNat
  tail_eq : skb.tail = skb.data + (skb.len.toNat - skb.dataLen.toNat)
  copyBits_length : ∀ offset size bytes, skb.copyBits offset size = some bytes → bytes.length = size

/-- The bytes of an event lie between `skb->head` and the tail pointer, or in
the four bytes of `tmp`; the region searched for an attribute starts inside
the packet data. -/
def Event.InPacket : Event → Prop
  | .packetRead offset size => offset + size ≤ skb.tail
  | .tmpRead size => size ≤ 4
  | .attributeSearch start => start.toNat ≤ skb.len.toNat
  | _ => True

/-! ## The condition -/

/-- A load relative to a header that `__load_pointer` lets through has all its
bytes before the tail. -/
def LoadFits (k : ℤ) (size : ℕ) : Prop :=
  ∀ position, headerPosition skb k = some position → k < skfAdOff →
    position < skb.tail → position + size ≤ skb.tail

/-- The attribute search is not asked for behind the end of a linear packet
that is shorter than an attribute header. -/
def AttributeFits (state : State) (k : ℤ) : Prop :=
  k - skfAdOff = 12 → skb.dataLen = 0 → skb.len.toNat < 4 →
    state.A.toNat ≤ skb.len.toNat

/-- The condition on one instruction and the state before it. -/
def InstructionFits (fentry : SockFilter) (state : State) : Prop :=
  match decode fentry.code with
  | some (.ldAbs size) =>
    LoadFits skb fentry.k.toInt size.bytes ∧ AttributeFits skb state fentry.k.toInt
  | some (.ldInd size) =>
    LoadFits skb (state.X + fentry.k).toInt size.bytes ∧
      AttributeFits skb state (state.X + fentry.k).toInt
  | _ => True

/-- The condition on one round of the loop. -/
def RoundFits (filter : List SockFilter) (skb : SkBuff) (state : State) : Prop :=
  ∀ fentry, filter[state.pc.toNat]? = some fentry → InstructionFits skb fentry state

theorem loadFits_one (k : ℤ) : LoadFits skb k 1 := by
  intro position _ _ hlt
  omega

/-! ## One load -/

variable {skb : SkBuff} {size : ℕ} {k : ℤ}

theorem headlen_toNat (hskb : skb.WellFormed) :
    (skbHeadlen skb).toNat = skb.len.toNat - skb.dataLen.toNat := by
  rw [skbHeadlen, toNat_sub_of_le (le_def.mpr hskb.dataLen_le)]

theorem toInt_le_toNat (value : U32) : value.toInt ≤ value.toNat := by
  rw [toInt_eq_toNat_cond]
  split <;> omega

/-- A pointer returned by `load_pointer` is good for `size` bytes exactly when
the load fits. -/
theorem readEvent_inPacket_iff (hskb : skb.WellFormed) {ptr : DataPtr} (hsize : size ≤ 4)
    (hload : loadPointer skb k size = some ptr) :
    (readEvent size ptr).InPacket skb ↔ LoadFits skb k size := by
  have htail := hskb.tail_eq
  unfold loadPointer at hload
  split at hload
  · rename_i hk
    have hfits : LoadFits skb k size := by
      intro position _ hneg
      simp only [skfAdOff] at hneg
      omega
    refine iff_of_true ?_ hfits
    unfold skbHeaderPointer at hload
    dsimp only at hload
    split at hload
    · rename_i hroom
      simp only [some.injEq] at hload
      subst hload
      have hlen := toInt_le_toNat (skbHeadlen skb)
      rw [headlen_toNat hskb] at hlen
      show skb.data + k.toNat + size ≤ skb.tail
      omega
    · obtain ⟨bytes, _, rfl⟩ := map_eq_some_iff.mp hload
      exact hsize
  split at hload
  · simp at hload
  rename_i hneg
  unfold loadPointerSlow at hload
  cases hposition : headerPosition skb k with
  | none => simp [hposition] at hload
  | some position =>
    simp only [hposition] at hload
    split at hload
    · rename_i hlt
      simp only [some.injEq] at hload
      subst hload
      constructor
      · intro hin other hother _ _
        rw [hposition, some.injEq] at hother
        exact hother ▸ hin
      · intro hfits
        exact hfits position hposition (by omega) hlt
    · simp at hload

/-- A load that found no pointer is no header load inside the buffer. -/
theorem loadFits_of_loadPointer_none (hload : loadPointer skb k size = none) :
    LoadFits skb k size := by
  intro position hposition hneg hlt
  have hnonneg : ¬ 0 ≤ k := by
    simp only [skfAdOff] at hneg
    omega
  simp [loadPointer, hnonneg, not_le.mpr hneg, loadPointerSlow, hposition, hlt] at hload

/-- The 64-bit subtraction of the header size: exact from four bytes on,
larger than any accumulator below. -/
theorem header_subtraction (len : U32) :
    (len.setWidth 64 - 4).toNat =
      if len.toNat < 4 then 2 ^ 64 - 4 + len.toNat else len.toNat - 4 := by
  have hfour : (4 : BitVec 64).toNat = 4 := rfl
  rw [toNat_sub, toNat_setWidth, hfour]
  split <;> omega

theorem searchAttribute_inPacket_iff (skb : SkBuff) (state : State) :
    (∀ event ∈ (searchAttribute skb state).events, event.InPacket skb) ↔
      (skb.dataLen = 0 → skb.len.toNat < 4 → state.A.toNat ≤ skb.len.toNat) := by
  unfold searchAttribute
  split
  · rename_i hnonlinear
    refine iff_of_true (by simp [leave]) fun hlinear => ?_
    simp [skbIsNonlinear, hlinear] at hnonlinear
  rename_i hlinear
  have hzero : skb.dataLen = 0 := by simpa [skbIsNonlinear] using hlinear
  split
  · -- the search is refused, which takes at least four bytes
    rename_i hbehind
    rw [header_subtraction] at hbehind
    refine iff_of_true (by simp [leave]) fun _ hshort => ?_
    rw [if_pos hshort] at hbehind
    omega
  rename_i hallowed
  rw [header_subtraction] at hallowed
  have hevents : (∀ event ∈ [Event.attributeSearch state.A], event.InPacket skb) ↔
      (skb.dataLen = 0 → skb.len.toNat < 4 → state.A.toNat ≤ skb.len.toNat) := by
    simp only [mem_singleton, forall_eq, hzero, forall_const]
    refine ⟨fun hin _ => hin, fun hfits => ?_⟩
    show state.A.toNat ≤ skb.len.toNat
    by_cases hshort : skb.len.toNat < 4
    · exact hfits hshort
    · rw [if_neg hshort] at hallowed
      omega
  split <;> exact hevents

theorem ancillary_inPacket_iff (skb : SkBuff) (state : State) (k : ℤ) :
    (∀ event ∈ (ancillary skb state k).events, event.InPacket skb) ↔ AttributeFits skb state k := by
  by_cases hattr : k - skfAdOff = 12
  · simp only [ancillary, hattr, AttributeFits, forall_const]
    exact searchAttribute_inPacket_iff skb state
  -- no other label searches for an attribute
  refine iff_of_true ?_ fun h => absurd h hattr
  unfold ancillary
  repeat' split
  all_goals simp_all [advance, leave]

theorem size_bytes_le (size : Size) : size.bytes ≤ 4 := by
  cases size <;> decide

theorem loadA_inPacket_iff (hskb : skb.WellFormed) (state : State) (k : ℤ) (size : Size) :
    (∀ event ∈ (loadA skb state k size).events, event.InPacket skb) ↔
      LoadFits skb k size.bytes ∧ AttributeFits skb state k := by
  unfold loadA
  cases hload : loadPointer skb k size.bytes with
  | some ptr =>
    -- a pointer was found, so the offset does not name ancillary data
    have hattr : AttributeFits skb state k := by
      intro hk
      simp only [skfAdOff] at hk
      simp [loadPointer, skfAdOff, show ¬ 0 ≤ k by omega, show (-4096 : ℤ) ≤ k by omega] at hload
    simp only [advance, mem_singleton, forall_eq,
      readEvent_inPacket_iff hskb (size_bytes_le size) hload]
    exact ⟨fun hfits => ⟨hfits, hattr⟩, And.left⟩
  | none =>
    rw [ancillary_inPacket_iff]
    exact ⟨fun hattr => ⟨loadFits_of_loadPointer_none hload, hattr⟩, And.right⟩

/-! ## One round and whole runs -/

theorem execute_inPacket_iff (hskb : skb.WellFormed) (fentry : SockFilter) (state : State) :
    (∀ event ∈ (execute skb fentry state).events, event.InPacket skb) ↔
      InstructionFits skb fentry state := by
  unfold execute InstructionFits
  cases decode fentry.code with
  | none => simp [leave]
  | some op =>
    cases op with
    | ldAbs size | ldInd size => exact loadA_inPacket_iff hskb state _ size
    | ldxMsh =>
      refine iff_of_true ?_ trivial
      dsimp only
      split
      · rename_i ptr hload
        simpa [advance] using
          (readEvent_inPacket_iff hskb (by omega) hload).mpr (loadFits_one skb _)
      · simp [leave]
    | alu op src =>
      refine iff_of_true ?_ trivial
      cases op <;> cases src <;> dsimp only <;>
        first
        | (split <;> simp [advance, leave, Event.InPacket])
        | simp [advance, Event.InPacket]
    | _ => simp [advance, leave, jumpBy, Event.InPacket]

theorem filterStep_inPacket_iff {filter : List SockFilter} (hskb : skb.WellFormed) {state : State}
    (hinside : PcInside filter state) :
    (∀ event ∈ (filterStep filter skb state).events, event.InPacket skb) ↔
      RoundFits filter skb state := by
  obtain ⟨hpos, hlt⟩ := hinside
  have hindex : state.pc.toNat < filter.length := by omega
  have hget := List.getElem?_eq_getElem hindex
  simp only [filterStep, not_le.mpr hlt, not_lt.mpr hpos, if_false, hget,
    execute_inPacket_iff hskb, RoundFits, some.injEq, forall_eq']

/-- Packet-access safety of a run: every byte read through `load_pointer` lies
between `skb->head` and the tail pointer, and every attribute search starts
inside the packet, if and only if every round meets the condition. -/
theorem skRunFilter_access_safe_iff (filter : List SockFilter) (haccept : skChkFilter filter = 0)
    (skb : SkBuff) (hskb : skb.WellFormed) (mem : ℕ → U32) :
    (∀ fuel state, skRunFilter filter skb mem fuel = .next state →
      ∀ event ∈ (filterStep filter skb state).events, event.InPacket skb) ↔
    ∀ fuel state, skRunFilter filter skb mem fuel = .next state →
      RoundFits filter skb state := by
  have haccepted := accepted_of_skChkFilter haccept
  refine forall₃_congr fun fuel state hrun => ?_
  exact filterStep_inPacket_iff hskb (pcInside_of_run haccepted skb mem hrun)

/-- A linear packet with a single byte of data. -/
def shortPacket : SkBuff := { emptyPacket with tail := 1, len := 1 }

theorem shortPacket_wellFormed : shortPacket.WellFormed where
  dataLen_le := by decide
  tail_eq := by decide
  copyBits_length := by simp [shortPacket, emptyPacket]

/-- Load the first byte behind the network header. -/
def loadNetworkByte : List SockFilter :=
  [⟨(Opcode.ldAbs .b).code, 0, 0, 0xfff00000⟩, ⟨Opcode.retA.code, 0, 0, 0⟩]

theorem loadNetworkByte_access_safe :
    skChkFilter loadNetworkByte = 0 ∧ shortPacket.WellFormed ∧
      ∀ fuel state, skRunFilter loadNetworkByte shortPacket emptyMem fuel = .next state →
        ∀ event ∈ (filterStep loadNetworkByte shortPacket state).events,
          event.InPacket shortPacket := by
  refine ⟨by decide, shortPacket_wellFormed, ?_⟩
  refine (skRunFilter_access_safe_iff loadNetworkByte (by decide) shortPacket
    shortPacket_wellFormed emptyMem).mpr ?_
  intro fuel state _ fentry hfetch
  have hmem := mem_of_getElem? hfetch
  simp only [loadNetworkByte, mem_cons, not_mem_nil, or_false] at hmem
  rcases hmem with rfl | rfl
  · refine ⟨loadFits_one _ _, fun hk => ?_⟩
    exact absurd hk (by decide)
  · trivial

/-- Load the first word behind the network header. -/
def loadNetworkWord : List SockFilter :=
  [⟨(Opcode.ldAbs .w).code, 0, 0, 0xfff00000⟩, ⟨Opcode.retA.code, 0, 0, 0⟩]

/-- Search for an attribute from position `5` on. -/
def searchBehindEnd : List SockFilter :=
  [⟨Opcode.ldImm.code, 0, 0, 5⟩, ⟨(Opcode.ldAbs .w).code, 0, 0, 0xfffff00c⟩,
    ⟨Opcode.retA.code, 0, 0, 0⟩]

/-- Both parts fail on a packet of one byte: a word load relative to the
network header reads three bytes past the tail, and the attribute search is
started four bytes behind the end. -/
theorem access_unsafe_on_shortPacket :
    (¬ ∀ (filter : List SockFilter) (skb : SkBuff) (mem : ℕ → U32),
      skChkFilter filter = 0 → skb.WellFormed →
        ∀ fuel state, skRunFilter filter skb mem fuel = .next state →
          ∀ offset size, .packetRead offset size ∈ (filterStep filter skb state).events →
            offset + size ≤ skb.tail) ∧
    ¬ ∀ (filter : List SockFilter) (skb : SkBuff) (mem : ℕ → U32),
      skChkFilter filter = 0 → skb.WellFormed →
        ∀ fuel state, skRunFilter filter skb mem fuel = .next state →
          ∀ start, .attributeSearch start ∈ (filterStep filter skb state).events →
            start.toNat ≤ skb.len.toNat := by
  constructor
  · intro hsafe
    have := hsafe loadNetworkWord shortPacket emptyMem (by decide) shortPacket_wellFormed
      0 (initial emptyMem) rfl 0 4 (by decide)
    exact absurd this (by decide)
  · intro hsafe
    have := hsafe searchBehindEnd shortPacket emptyMem (by decide) shortPacket_wellFormed
      1 { initial emptyMem with pc := 1, A := 5 } rfl 5 (by decide)
    exact absurd this (by decide)

end KernelM5040.Filter
