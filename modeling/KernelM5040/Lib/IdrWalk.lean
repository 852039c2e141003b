import KernelM5040.Core.Ascending
import KernelM5040.Lib.IdrRuns

/-!
# Iteration over the ids

`idr_for_each` goes through the ids in ascending order.  Its stack holds the layers
on the path to the current id; where the path ends early, the id is the first one
of the block that is missing.
-/

namespace KernelM5040.Idr

open BitVec Ascending Machine

variable {Ptr Data : Type*} {id : Id} {layers level below pos x count : ℕ} {top p : Slot Ptr}
  {paa : List (Slot Ptr)} {ary : Fin idrSize → Slot Ptr} {bitmap : Bitmap}

/-! ## Paths -/

/-- The way from the top to a slot on the path of an id, with so many layers below
the slot, and the layers that were passed. -/
inductive Way (top : Slot Ptr) (layers pos : ℕ) : ℕ → Slot Ptr → List (Slot Ptr) → Prop
  | top : Way top layers pos layers top []
  | down {level count : ℕ} {bitmap : Bitmap} {ary : Fin idrSize → Slot Ptr}
      {paa : List (Slot Ptr)} (hway : Way top layers pos (level + 1) (.layer bitmap ary count) paa) :
      Way top layers pos level (ary (place pos level)) (.layer bitmap ary count :: paa)

theorem Way.congr (hway : Way top layers x level p paa)
    (hblock : pos / span level = x / span level) : Way top layers pos level p paa := by
  induction hway with
  | top => exact .top
  | @down level count bitmap ary paa hway ih =>
    have hplace : place pos level = place x level := by rw [place, place, hblock]
    rw [← hplace]
    exact .down (ih (by rw [div_span_succ, div_span_succ, hblock]))

/-- What a slot on a way can be. -/
def SlotOk : ℕ → Slot Ptr → Prop
  | 0, p => p = .ofPtr p.toPtr
  | level + 1, p => p = .null ∨ LayerOk level p

/-- What is registered for an id below a slot on its way. -/
def value (pos : ℕ) : ℕ → Slot Ptr → Option Ptr
  | 0, p => p.toPtr
  | level + 1, p => (entry pos level p).join

theorem SlotOk.child (hok : SlotOk (level + 1) (.layer bitmap ary count)) (n : Fin idrSize) :
    SlotOk level (ary n) := by
  have hlayer := hok.resolve_left (by simp)
  cases level with
  | zero | succ level => exact (hlayer.2 n).2

theorem SlotOk.value_child (hok : SlotOk (level + 1) (.layer bitmap ary count)) (pos : ℕ) :
    value pos (level + 1) (.layer bitmap ary count) = value pos level (ary (place pos level)) := by
  have hlayer := hok.resolve_left (by simp)
  cases level with
  | zero =>
    rw [value, value, entry_bottom]
    split
    · rfl
    · next hbit =>
        rw [(hlayer.2 _).1 (Bool.eq_false_of_not_eq_true hbit)]
        rfl
  | succ level => rfl

section

variable (hway : Way top layers pos level p paa)
include hway

theorem Way.le : level ≤ layers := by
  induction hway with
  | top => exact le_refl _
  | down _ ih => exact Nat.le_of_succ_le ih

theorem Way.unique {p' : Slot Ptr} {paa' : List (Slot Ptr)}
    (hother : Way top layers pos level p' paa') : p = p' ∧ paa = paa' := by
  induction hway generalizing p' paa' with
  | top =>
    cases hother with
    | top => exact ⟨rfl, rfl⟩
    | down hother => exact absurd hother.le (Nat.not_succ_le_self _)
  | down hway ih =>
    cases hother with
    | top => exact absurd hway.le (Nat.not_succ_le_self _)
    | down hother =>
      obtain ⟨hlayer, rfl⟩ := ih hother
      cases hlayer
      exact ⟨rfl, rfl⟩

theorem Way.above {upper : ℕ} (hlt : level < upper) (hle : upper ≤ layers) :
    ∃ bitmap ary count rest, Way top layers pos upper (.layer bitmap ary count) rest := by
  induction hway with
  | top => exact absurd hle (not_le.mpr hlt)
  | down hway ih =>
    rcases Nat.eq_or_lt_of_le (Nat.succ_le_of_lt hlt) with rfl | hless
    · exact ⟨_, _, _, _, hway⟩
    · exact ih hless

theorem Way.ok (htop : SlotOk layers top) : SlotOk level p := by
  induction hway with
  | top => exact htop
  | down _ ih => exact ih.child _

theorem Way.value_eq (htop : SlotOk layers top) : value pos layers top = value pos level p := by
  induction hway with
  | top => rfl
  | down hway ih => rw [ih, (hway.ok htop).value_child]

end

/-! ## The inner loops -/

theorem descend_spec (hid : id.toNat < 2 ^ maxIdShift) (htop : SlotOk layers top)
    (hway : Way top layers id.toNat level p paa) :
    ∃ level' p' paa', descend id level p paa = some (level', p', paa') ∧
      Way top layers id.toNat level' p' paa' ∧ (level' = 0 ∨ p' = .null) := by
  induction level generalizing p paa with
  | zero => exact ⟨0, p, paa, by rw [descend], hway, .inl rfl⟩
  | succ level ih =>
    cases p with
    | null => exact ⟨level + 1, .null, paa, rfl, hway, .inr rfl⟩
    | ptr _ => exact (hway.ok htop).elim (by simp) (by cases level <;> exact False.elim)
    | layer bitmap ary count =>
      rw [descend, digit_eq_place hid]
      exact ih hway.down

theorem lt_size_iff : idrBits * level < pos.size ↔ span level ≤ pos := Nat.lt_size

theorem climb_spec {garbage : Slot Ptr} {rounds : ℕ} (hway : Way top layers x level p paa)
    (hlt : x < pos) (hpos : pos < span layers) (hrounds : pos.size ≤ rounds + idrBits * level) :
    ∃ level' p' paa', climb garbage pos.size rounds level p paa = (level', p', paa') ∧
      Way top layers pos level' p' paa' := by
  -- once the block reaches behind the next id, both have the same way
  have hdone : ∀ {level p paa}, Way top layers x level p paa → pos < span level →
      Way top layers pos level p paa := fun hway hless =>
    hway.congr (by rw [Nat.div_eq_of_lt hless, Nat.div_eq_of_lt (hlt.trans hless)])
  induction rounds generalizing level p paa with
  | zero =>
    refine ⟨level, p, paa, rfl, hdone hway ?_⟩
    rw [← not_le, ← lt_size_iff]
    omega
  | succ rounds ih =>
    rw [climb]
    split
    · next hmore =>
        have hspan := lt_size_iff.mp hmore
        cases hway with
        | top => exact absurd hpos (not_lt.mpr hspan)
        | down hway =>
          refine ih hway ?_
          rw [Nat.mul_succ]
          have : 1 ≤ idrBits := by decide
          omega
    · next hend =>
        rw [lt_size_iff, not_le] at hend
        exact ⟨level, p, paa, rfl, hdone hway hend⟩

theorem add_le_of_dvd {step first second : ℕ} (hfirst : step ∣ first) (hsecond : step ∣ second)
    (hlt : first < second) : first + step ≤ second := by
  obtain ⟨a, rfl⟩ := hfirst
  obtain ⟨b, rfl⟩ := hsecond
  rw [← Nat.mul_succ]
  exact Nat.mul_le_mul_left step (Nat.lt_of_mul_lt_mul_left hlt)

/-- Where the path of an id ends early, the id is the first of its block. -/
def Aligned (top : Slot Ptr) (layers pos : ℕ) : Prop :=
  ∀ level paa, Way top layers pos level .null paa → span level ∣ pos

theorem aligned_next (hway : Way top layers x level p paa) (hdvd : span level ∣ x) :
    Aligned top layers (x + span level) := by
  intro upper rest hnull
  rcases lt_or_ge level upper with hlt | hge
  · have hnext : (x / span upper + 1) * span upper = x + span level := by
      refine le_antisymm ?_ (add_le_of_dvd hdvd ((span_dvd hlt.le).mul_left _) ?_)
      · by_contra hless
        rw [not_le] at hless
        -- the next id would lie below a layer that the way has passed
        have hblock : x / span upper = (x + span level) / span upper :=
          (div_span_eq_iff.mpr ⟨(Nat.div_mul_le_self x _).trans (Nat.le_add_right _ _), hless⟩).symm
        obtain ⟨bitmap, ary, count, passed, hlayer⟩ := hway.above hlt hnull.le
        exact absurd (hnull.congr hblock).unique (fun h => by
          obtain ⟨h, _⟩ := h hlayer
          cases h)
      · rw [Nat.succ_mul]
        exact Nat.lt_div_mul_add (span_pos upper)
    rw [← hnext]
    exact Nat.dvd_mul_left _ _
  · exact ((span_dvd hge).trans hdvd).add (span_dvd hge)

/-! ## The outer loop -/

/-- The function is called for a list of ids, until it returns an error. -/
def visit (fn : Id → Ptr → Data → Data × BitVec 32) : List (Id × Ptr) → Data → Data × BitVec 32
  | [], data => (data, 0)
  | (id, ptr) :: rest, data =>
    let (data, error) := fn id ptr data
    if error ≠ 0 then (data, error) else visit fn rest data

/-- The id and its pointer, if one is registered that is not `NULL`. -/
def item (top : Slot Ptr) (layers pos : ℕ) : Option (Id × Ptr) :=
  (value pos layers top).map fun ptr => (BitVec.ofNat 32 pos, ptr)

variable {fn : Id → Ptr → Data → Data × BitVec 32} {data : Data} {walk : Walk Ptr Data}
  {garbage : Slot Ptr} {idp : Handle Ptr} {result : Data × BitVec 32}

/-- What holds in the loop for a given final result. -/
structure WalkOk (top : Slot Ptr) (layers : ℕ) (fn : Id → Ptr → Data → Data × BitVec 32)
    (result : Data × BitVec 32) (walk : Walk Ptr Data) : Prop where
  le : walk.id.toNat ≤ span layers
  way : walk.id.toNat < span layers →
    Way top layers walk.id.toNat walk.level walk.p walk.paa
  aligned : Aligned top layers walk.id.toNat
  visit_eq : visit fn (collect (item top layers) walk.id.toNat (span layers)) walk.data = result

theorem walkOn_ok (hlayers : span layers ≤ limit)
    (hway : Way top layers id.toNat level p paa) (hroom : id.toNat < span layers)
    (hdvd : span level ∣ id.toNat)
    (hvisit : visit fn (collect (item top layers) (id.toNat + span level) (span layers)) data =
      result) :
    WalkOk top layers fn result (walkOn garbage id level p paa data) ∧
      id.toNat < (walkOn garbage id level p paa data).id.toNat := by
  have hle : id.toNat + span level ≤ span layers := add_le_of_dvd hdvd (span_dvd hway.le) hroom
  have hbits : idrBits * level < 32 := by
    by_contra hge
    have hbig : 2 ^ 32 ≤ span level := Nat.pow_le_pow_right (by decide) (not_lt.mp hge)
    have : limit < 2 ^ 32 := by decide
    omega
  have hnext : (id + ((1 : Id) <<< (idrBits * level))).toNat = id.toNat + span level := by
    rw [toNat_add, Digits.toNat_one_shiftLeft hbits]
    exact Nat.mod_eq_of_lt ((hle.trans hlayers).trans_lt (by decide))
  have hlt : id.toNat < id.toNat + span level := Nat.lt_add_of_pos_right (span_pos level)
  refine ⟨⟨hnext ▸ hle, fun hless => ?_, ?_, ?_⟩, hnext ▸ hlt⟩
  · obtain ⟨level', p', paa', hclimb, hway'⟩ := @climb_spec Ptr layers level _ _ top p paa garbage
      (fls (id + ((1 : Id) <<< (idrBits * level)))) hway (hnext ▸ hlt) hless (Nat.le_add_right _ _)
    simp only [walkOn, fls] at hclimb ⊢
    rwa [hclimb]
  · exact hnext ▸ aligned_next hway hdvd
  · exact hnext ▸ hvisit

theorem collect_skip (htop : SlotOk layers top) (hway : Way top layers x level .null paa)
    (hdvd : span level ∣ x) (hroom : x < span layers) :
    collect (item top layers) x (span layers) =
      collect (item top layers) (x + span level) (span layers) := by
  have hle : x + span level ≤ span layers := add_le_of_dvd hdvd (span_dvd hway.le) hroom
  rw [← collect_append (Nat.le_add_right x (span level)) hle, collect_eq_nil, List.nil_append]
  intro pos hge hlt
  have hblock : pos / span level = x / span level := by
    refine div_span_eq_iff.mpr ⟨(Nat.div_mul_le_self x _).trans hge, ?_⟩
    rwa [Nat.succ_mul, Nat.div_mul_cancel hdvd]
  rw [item, (hway.congr hblock).value_eq htop]
  cases level with
  | zero => rfl
  | succ level => rw [value, entry_null]; rfl

theorem walkStep_ok {max : Id} (hmax : max.toNat = span layers)
    (hlayers : span layers ≤ limit) (htop : SlotOk layers top)
    (hwalk : WalkOk top layers fn result walk) :
    match (walkStep max garbage fn walk).control with
    | .next walk' => WalkOk top layers fn result walk' ∧ walk.id.toNat < walk'.id.toNat
    | .exit result' => result' = some result := by
  have hlt : ∀ id : Id, id.toNat ≤ limit → 2 * id.toNat < 2 ^ 32 := fun id hle =>
    lt_of_le_of_lt (Nat.mul_le_mul_left 2 hle) (by decide)
  have hslt : walk.id.slt max = true ↔ walk.id.toNat < span layers := by
    rw [slt_eq_decide, decide_eq_true_iff, toInt_eq_toNat_of_lt (hlt _ (hwalk.le.trans hlayers)),
      toInt_eq_toNat_of_lt (hlt _ (hmax ▸ hlayers)), Int.ofNat_lt, hmax]
  simp only [walkStep]
  by_cases hroom : walk.id.toNat < span layers
  · rw [if_pos (hslt.mpr hroom)]
    have hid : walk.id.toNat < 2 ^ maxIdShift := (hroom.trans_le hlayers).trans limit_lt
    obtain ⟨level, p, paa, hdescend, hway, hend⟩ := descend_spec hid htop (hwalk.way hroom)
    rw [hdescend]
    cases p with
    | null =>
      have hdvd := hwalk.aligned level paa hway
      refine walkOn_ok hlayers hway hroom hdvd ?_
      rw [← collect_skip htop hway hdvd hroom]
      exact hwalk.visit_eq
    | ptr found =>
      obtain rfl : level = 0 := hend.resolve_right (by simp)
      have hitem : item top layers walk.id.toNat = some (walk.id, found) := by
        rw [item, hway.value_eq htop, value, ofNat_toNat, setWidth_eq]
        rfl
      have hvisit := hwalk.visit_eq
      rw [collect_succ hroom, hitem, Option.toList_some, List.singleton_append, visit] at hvisit
      by_cases herror : (fn walk.id found walk.data).2 ≠ 0
      · simp only [if_pos herror] at hvisit ⊢
        rw [hvisit]
      · simp only [if_neg herror] at hvisit ⊢
        exact walkOn_ok hlayers hway hroom (Nat.one_dvd _) hvisit
    | layer bitmap ary count =>
      obtain rfl : level = 0 := hend.resolve_right (by simp)
      exact absurd (hway.ok htop) (by simp [SlotOk, Slot.toPtr, Slot.ofPtr])
  · rw [if_neg (by rw [hslt]; exact hroom)]
    have hend : walk.id.toNat = span layers := le_antisymm hwalk.le (not_lt.mp hroom)
    have hvisit := hwalk.visit_eq
    rw [hend, collect_self] at hvisit
    exact congrArg some hvisit

/-- The ids with a pointer that is not `NULL`, in ascending order. -/
def items (ids : ℕ → Option (Option Ptr)) : List (Id × Ptr) :=
  collect (fun pos => (ids pos).join.map fun ptr => (BitVec.ofNat 32 pos, ptr)) 0 limit

section

variable (hok : HandleOk idp)
include hok

theorem HandleOk.slotOk : SlotOk idp.layers idp.top := by
  rcases hok with ⟨hnull, hzero⟩ | ⟨level, _, hlayers, hok⟩
  · rw [hnull, hzero]
    rfl
  · rw [hlayers]
    exact .inr hok

theorem HandleOk.value_eq (hpos : pos < span idp.layers) :
    value pos idp.layers idp.top = (idp.ids pos).join := by
  rw [Handle.ids, lookup_of_lt hpos]
  rcases hok with ⟨hnull, hzero⟩ | ⟨level, _, hlayers, _⟩
  · rw [hnull, hzero, entry_null]
    rfl
  · rw [hlayers]
    rfl

theorem collect_items : collect (item idp.top idp.layers) 0 (span idp.layers) = items idp.ids := by
  rw [items, ← collect_append (Nat.zero_le _) hok.span_le,
    @collect_eq_nil _ _ (span idp.layers) limit, List.append_nil]
  · refine collect_congr fun pos _ hlt => ?_
    rw [item, hok.value_eq hlt]
  · intro pos hge _
    rw [Handle.ids, lookup_of_ge hge]
    rfl

/-- `idr_for_each` calls the function for the ids in ascending order. -/
theorem idrForEach_eq (garbage : Slot Ptr)
    (fn : Id → Ptr → Data → Data × BitVec 32) (data : Data) {rounds : ℕ} (hrounds : enough ≤ rounds) :
    idrForEach idp garbage fn data rounds = some (visit fn (items idp.ids) data) := by
  have hbits : idp.layers * idrBits < 32 := by
    by_contra hge
    have hbig : 2 ^ 32 ≤ span idp.layers := by
      rw [span, mul_comm]
      exact Nat.pow_le_pow_right (by decide) (not_lt.mp hge)
    exact absurd (hbig.trans hok.span_le) (by decide)
  have hmax : ((1 : Id) <<< (idp.layers * idrBits)).toNat = span idp.layers := by
    rw [Digits.toNat_one_shiftLeft hbits, span, mul_comm]
  have hstart : WalkOk idp.top idp.layers fn (visit fn (items idp.ids) data)
      ⟨idp.layers, 0, idp.top, [], data⟩ :=
    ⟨Nat.zero_le _, fun _ => .top, fun _ _ _ => Nat.dvd_zero _, by rw [← collect_items hok]; rfl⟩
  have hstep := fun walk
      (hwalk : WalkOk idp.top idp.layers fn (visit fn (items idp.ids) data) walk) =>
    @walkStep_ok _ _ _ _ _ walk garbage _ _ hmax hok.span_le hok.slotOk hwalk
  obtain ⟨result, hrun, rfl⟩ := exists_exit_of_measure
    (WalkOk idp.top idp.layers fn (visit fn (items idp.ids) data))
    (· = some (visit fn (items idp.ids) data)) (fun walk => span idp.layers - walk.id.toNat + 1)
    (fun _ _ => Nat.succ_pos _)
    (fun walk walk' hwalk hnext => by
      have hwalk' := hstep walk hwalk
      rw [hnext] at hwalk'
      refine ⟨hwalk'.1, ?_⟩
      have := hwalk'.1.le
      omega)
    (fun walk result hwalk hexit => by
      have hresult := hstep walk hwalk
      rwa [hexit] at hresult)
    hstart (le_trans (by have := hok.span_le; rw [enough]; omega) hrounds)
  rw [idrForEach, hrun]

end

end KernelM5040.Idr
