import KernelM5040.Core.GroupedList
import KernelM5040.Fs.LockFinish
import KernelM5040.Fs.LockQueue

/-!
# The list of an inode

The invariant of an inode's list and the byte map that the list stands for.
One call of `__posix_lock_file` exchanges the locks of one owner, paints the
request over this owner's bytes, and keeps the invariant.
-/

namespace KernelM5040.Locks

open Option List Segments GroupedList Function

variable {Owner : Type*} {lock lock' : ℕ → FileLock Owner} {list before own own' after : List ℕ}
  {owner : Owner} {point : ℤ} {type : LockType} {fl : ℕ}

/-- The owner of a POSIX lock; other locks count for nobody. -/
def posixOwner (lock : FileLock Owner) : Option Owner :=
  if lock.isPosix then some lock.flOwner else none

theorem posixOwner_eq_some {lock : FileLock Owner} :
    posixOwner lock = some owner ↔ lock.isPosix = true ∧ lock.flOwner = owner := by
  by_cases hposix : lock.isPosix = true
  · simp [posixOwner, hposix]
  · simp [posixOwner, hposix]

theorem Held.posixOwner {lock : FileLock Owner} (hheld : Held owner lock) :
    posixOwner lock = some owner :=
  posixOwner_eq_some.mpr ⟨hheld.posix, hheld.owner_eq⟩

/-- The byte map: the owner holds the byte with this type of lock. -/
def HeldBy (lock : ℕ → FileLock Owner) (list : List ℕ) (owner : Owner) (point : ℤ)
    (type : LockType) : Prop :=
  ∃ fl ∈ list, posixOwner (lock fl) = some owner ∧ (lock fl).flStart ≤ point ∧
    point ≤ (lock fl).flEnd ∧ (lock fl).flType = type

/-- Each owner's POSIX locks stand together, behind the locks of other kinds;
they are sorted, disjoint and merged; and locks of different owners overlap only
for reading. -/
structure ListOk (lock : ℕ → FileLock Owner) (list : List ℕ) : Prop where
  nodup : list.Nodup
  posixLast : list.Pairwise fun first second =>
    (lock first).isPosix = true → (lock second).isPosix = true
  grouped : Grouped (fun fl => posixOwner (lock fl)) list
  held : ∀ fl ∈ list, ∀ owner, posixOwner (lock fl) = some owner → Held owner (lock fl)
  proper : ∀ fl ∈ list, (lock fl).isPosix = true → (lock fl).flStart ≤ (lock fl).flEnd
  sorted : list.Pairwise fun first second => ∀ owner,
    posixOwner (lock first) = some owner → posixOwner (lock second) = some owner →
      (lock first).segment.Before (lock second).segment
  compatible : ∀ first ∈ list, ∀ second ∈ list, (lock first).isPosix = true →
    (lock second).isPosix = true → (lock first).flOwner ≠ (lock second).flOwner →
    locksOverlap (lock first) (lock second) = true →
    (lock first).flType = .rdlck ∧ (lock second).flType = .rdlck

/-! ## The parts of a list -/

/-- The locks of one owner between those of others. -/
structure Parts (lock : ℕ → FileLock Owner) (owner : Owner) (before own after : List ℕ) :
    Prop where
  before_ne : ∀ fl ∈ before, posixOwner (lock fl) ≠ some owner
  own_eq : ∀ fl ∈ own, posixOwner (lock fl) = some owner
  after_ne : ∀ fl ∈ after, posixOwner (lock fl) ≠ some owner

theorem others_sublist (before own after : List ℕ) :
    (before ++ after).Sublist (before ++ own ++ after) :=
  (sublist_append_left before own).append_right after

section

variable (hparts : Parts lock owner before own after)
include hparts

theorem Parts.ne_of_mem {fl : ℕ} (hfl : fl ∈ before ++ after) :
    posixOwner (lock fl) ≠ some owner := by
  exact forall_mem_append.mpr ⟨hparts.before_ne, hparts.after_ne⟩ fl hfl

theorem Parts.relist (hsame : ∀ fl ∈ before ++ after, lock' fl = lock fl)
    (hheld : ∀ fl ∈ own', Held owner (lock' fl)) : Parts lock' owner before own' after := by
  have hne : ∀ fl ∈ before ++ after, posixOwner (lock' fl) ≠ some owner := by
    intro fl hfl
    rw [hsame fl hfl]
    exact hparts.ne_of_mem hfl
  rw [forall_mem_append] at hne
  exact ⟨hne.1, fun fl hfl => (hheld fl hfl).posixOwner, hne.2⟩

theorem Parts.heldBy :
    HeldBy lock (before ++ own ++ after) owner point type ↔
      Holds (segments lock own) point type := by
  constructor
  · rintro ⟨fl, hmem, howner, hstart, hend, htype⟩
    refine ⟨(lock fl).segment, mem_segments.mpr ⟨fl, ?_, rfl⟩, ⟨hstart, hend⟩, htype⟩
    rcases mem_append.mp hmem with hmem | hmem
    · rcases mem_append.mp hmem with hmem | hmem
      · exact absurd howner (hparts.before_ne fl hmem)
      · exact hmem
    · exact absurd howner (hparts.after_ne fl hmem)
  · rintro ⟨segment, hmem, hcovers, hkind⟩
    obtain ⟨fl, hfl, rfl⟩ := mem_segments.mp hmem
    exact ⟨fl, by simp [hfl], hparts.own_eq fl hfl, hcovers.1, hcovers.2, hkind⟩

theorem Parts.heldBy_of_ne {other : Owner} (hne : other ≠ owner) :
    HeldBy lock (before ++ own ++ after) other point type ↔
      HeldBy lock (before ++ after) other point type := by
  refine exists_congr fun fl => and_congr_left fun hheld => ?_
  have hnot : fl ∉ own := by
    intro hown
    rw [hparts.own_eq fl hown, some_inj] at hheld
    exact hne hheld.1.symm
  simp [hnot]

end

theorem HeldBy.congr (hsame : ∀ fl ∈ list, lock' fl = lock fl) :
    HeldBy lock' list owner point type ↔ HeldBy lock list owner point type := by
  apply exists_congr
  intro fl
  apply and_congr_right
  intro hmem
  rw [hsame fl hmem]

theorem ListOk.congr (hok : ListOk lock list)
    (hsame : ∀ fl ∈ list, lock' fl = lock fl) : ListOk lock' list := by
  refine ⟨hok.nodup, ?_, ?_, ?_, ?_, ?_, ?_⟩
  · refine hok.posixLast.imp_of_mem fun hfirst hsecond hposix => ?_
    rw [hsame _ hfirst, hsame _ hsecond]
    exact hposix
  · exact hok.grouped.congr fun fl hfl => by rw [hsame fl hfl]
  · intro fl hfl
    rw [hsame fl hfl]
    exact hok.held fl hfl
  · intro fl hfl
    rw [hsame fl hfl]
    exact hok.proper fl hfl
  · refine hok.sorted.imp_of_mem fun hfirst hsecond hsorted => ?_
    rw [hsame _ hfirst, hsame _ hsecond]
    exact hsorted
  · intro first hfirst second hsecond
    rw [hsame first hfirst, hsame second hsecond]
    exact hok.compatible first hfirst second hsecond

theorem ListOk.sublist (hok : ListOk lock list) {fewer : List ℕ} (hfewer : fewer.Sublist list) :
    ListOk lock fewer where
  nodup := hok.nodup.sublist hfewer
  posixLast := hok.posixLast.sublist hfewer
  grouped := hok.grouped.sublist hfewer
  held := fun fl hfl => hok.held fl (hfewer.subset hfl)
  proper := fun fl hfl => hok.proper fl (hfewer.subset hfl)
  sorted := hok.sorted.sublist hfewer
  compatible := fun first hfirst second hsecond =>
    hok.compatible first (hfewer.subset hfirst) second (hfewer.subset hsecond)

theorem ListOk.heldBy_type (hok : ListOk lock list)
    (hheld : HeldBy lock list owner point type) : type ≠ .unlck := by
  obtain ⟨fl, hmem, howner, _, _, rfl⟩ := hheld
  exact (hok.held fl hmem owner howner).type_ne

section

variable (hok : ListOk lock (before ++ own ++ after)) (hparts : Parts lock owner before own after)
include hok hparts

theorem ListOk.ordered : Ordered (segments lock own) := by
  have hsublist : own.Sublist (before ++ own ++ after) :=
    (sublist_append_right before own).trans (sublist_append_left _ after)
  constructor
  · intro segment hmem
    obtain ⟨fl, hfl, rfl⟩ := mem_segments.mp hmem
    exact hok.proper fl (hsublist.subset hfl) (posixOwner_eq_some.mp (hparts.own_eq fl hfl)).1
  · rw [segments, pairwise_map]
    refine (hok.sorted.sublist hsublist).imp_of_mem ?_
    intro first second hfirst hsecond hbefore
    exact hbefore owner (hparts.own_eq first hfirst) (hparts.own_eq second hsecond)

theorem ListOk.posix_after (hlast : own = [] → after = []) :
    ∀ fl ∈ after, (lock fl).isPosix = true := by
  intro fl hfl
  have hne : own ≠ [] := fun hnil => by simp [hlast hnil] at hfl
  obtain ⟨first, hfirst⟩ := exists_mem_of_ne_nil own hne
  exact (pairwise_append.mp hok.posixLast).2.2 first (by simp [hfirst]) fl hfl
    (posixOwner_eq_some.mp (hparts.own_eq first hfirst)).1

end

theorem locksOverlap_comm (first second : FileLock Owner) :
    locksOverlap first second = locksOverlap second first :=
  Bool.and_comm _ _

theorem exists_covers_of_overlap {first second : FileLock Owner}
    (hfirst : first.flStart ≤ first.flEnd) (hsecond : second.flStart ≤ second.flEnd)
    (hoverlap : locksOverlap first second = true) :
    ∃ point, first.segment.Covers point ∧ second.segment.Covers point := by
  rw [locksOverlap, Bool.and_eq_true, decide_eq_true_eq, decide_eq_true_eq] at hoverlap
  exact ⟨max first.flStart second.flStart,
    ⟨le_max_left _ _, max_le hfirst hoverlap.1⟩, ⟨le_max_right _ _, max_le hoverlap.2 hsecond⟩⟩

section

variable (hok : ListOk lock (before ++ own ++ after)) (hparts : Parts lock owner before own after)
include hok hparts

/-- Bytes that an owner shares with another one are locked for reading. -/
theorem ListOk.own_shared (hholds : Holds (segments lock own) point type)
    (hfl : fl ∈ before ++ after) (hposix : (lock fl).isPosix = true)
    (hcovers : (lock fl).segment.Covers point) : type = .rdlck ∧ (lock fl).flType = .rdlck := by
  obtain ⟨segment, hmem, hmine, rfl⟩ := hholds
  obtain ⟨mine, hown, rfl⟩ := mem_segments.mp hmem
  obtain ⟨hownPosix, howner⟩ := posixOwner_eq_some.mp (hparts.own_eq mine hown)
  have hne : (lock mine).flOwner ≠ (lock fl).flOwner := fun heq =>
    hparts.ne_of_mem hfl (posixOwner_eq_some.mpr ⟨hposix, heq.symm.trans howner⟩)
  apply hok.compatible mine (by simp [hown]) fl ((others_sublist before own after).subset hfl) hownPosix
    hposix hne
  rw [locksOverlap, Bool.and_eq_true, decide_eq_true_eq, decide_eq_true_eq]
  exact ⟨hcovers.1.trans hmine.2, hmine.1.trans hcovers.2⟩

/-! ## Exchanging the locks of an owner -/

theorem ListOk.exchange (hlast : own = [] → after = [])
    (hsame : ∀ fl ∈ before ++ after, lock' fl = lock fl) (hnodup : (before ++ own' ++ after).Nodup)
    (hheld : ∀ fl ∈ own', Held owner (lock' fl)) (hordered : Ordered (segments lock' own'))
    (hshared : ∀ point type, Holds (segments lock' own') point type →
      ∀ fl ∈ before ++ after, (lock fl).isPosix = true → (lock fl).segment.Covers point →
        type = .rdlck ∧ (lock fl).flType = .rdlck) : ListOk lock' (before ++ own' ++ after) := by
  have hothers := (hok.sublist (others_sublist before own after)).congr hsame
  have hparts' := hparts.relist hsame hheld
  have hafter : ∀ fl ∈ after, lock' fl = lock fl := fun fl hfl => hsame fl (by simp [hfl])
  have hmem : ∀ fl ∈ before ++ own' ++ after, fl ∈ own' ∨ fl ∈ before ++ after := by
    intro fl hfl
    simp only [mem_append] at hfl ⊢
    tauto
  refine ⟨hnodup, ?_, ?_, ?_, ?_, ?_, ?_⟩
  · refine pairwise_exchange hothers.posixLast ?_ ?_ ?_
    · exact pairwise_of_forall_mem_list fun _ _ second hsecond _ => (hheld second hsecond).posix
    · exact fun _ _ second hsecond _ => (hheld second hsecond).posix
    · intro _ _ second hsecond _
      rw [hafter second hsecond]
      exact hok.posix_after hparts hlast second hsecond
  · refine hothers.grouped.exchange hparts'.own_eq hparts'.before_ne hparts'.after_ne ?_
    intro first hfirst last hlastMem
    have hne : own ≠ [] := fun hnil => by simp [hlast hnil] at hlastMem
    rw [hsame first (by simp [hfirst]), hafter last hlastMem]
    exact hok.grouped.key_ne hne hparts.own_eq hparts.before_ne first hfirst last hlastMem
  · intro fl hfl other hother
    rcases hmem fl hfl with hfl | hfl
    · rw [(hheld fl hfl).posixOwner, some_inj] at hother
      rw [← hother]
      exact hheld fl hfl
    · exact hothers.held fl hfl other hother
  · intro fl hfl hposix
    rcases hmem fl hfl with hfl | hfl
    · exact hordered.proper _ (mem_segments.mpr ⟨fl, hfl, rfl⟩)
    · exact hothers.proper fl hfl hposix
  · refine pairwise_exchange hothers.sorted ?_ ?_ ?_
    · have hpairwise := hordered.pairwise
      rw [segments, pairwise_map] at hpairwise
      exact hpairwise.imp fun hsorted _ _ _ => hsorted
    · intro first hfirst second hsecond other hfirstOwner hsecondOwner
      rw [hparts'.own_eq second hsecond] at hsecondOwner
      exact absurd (hfirstOwner.trans hsecondOwner.symm) (hparts'.before_ne first hfirst)
    · intro first hfirst second hsecond other hfirstOwner hsecondOwner
      rw [hparts'.own_eq first hfirst] at hfirstOwner
      exact absurd (hsecondOwner.trans hfirstOwner.symm) (hparts'.after_ne second hsecond)
  · -- an owner's new lock against a lock of somebody else, in both orders
    have hcross : ∀ first ∈ own', ∀ second ∈ before ++ after, (lock' second).isPosix = true →
        locksOverlap (lock' first) (lock' second) = true →
        (lock' first).flType = .rdlck ∧ (lock' second).flType = .rdlck := by
      intro first hfirst second hsecond hposix hoverlap
      have hmine : (lock' first).segment ∈ segments lock' own' := mem_segments.mpr ⟨first, hfirst, rfl⟩
      obtain ⟨point, hcovers, hcovers'⟩ := exists_covers_of_overlap (hordered.proper _ hmine)
        (hothers.proper second hsecond hposix) hoverlap
      rw [hsame second hsecond] at hposix hcovers' ⊢
      exact hshared point (lock' first).flType ⟨_, hmine, hcovers, rfl⟩ second hsecond hposix
        hcovers'
    intro first hfirst second hsecond hposix hposix' hne hoverlap
    rcases hmem first hfirst with hfirst | hfirst
    · rcases hmem second hsecond with hsecond | hsecond
      · exact absurd ((hheld first hfirst).owner_eq.trans (hheld second hsecond).owner_eq.symm) hne
      · exact hcross first hfirst second hsecond hposix' hoverlap
    · rcases hmem second hsecond with hsecond | hsecond
      · rw [locksOverlap_comm] at hoverlap
        exact (hcross second hsecond first hfirst hposix hoverlap).symm
      · exact hothers.compatible first hfirst second hsecond hposix hposix' hne hoverlap

end

/-! ## One call -/

/-- What a call does to the lists and to the byte maps.  `map` is the new map of
the caller, and `news` are the new locks. -/
structure ListStep (state state' : LockState Owner) (inode request : ℕ) (news : List ℕ)
    (map : ℤ → LockType → Prop) : Prop where
  ok : ListOk state'.lock (state'.iFlock inode)
  lists : ∀ other, other ≠ inode → state'.iFlock other = state.iFlock other
  subset : state'.iFlock inode ⊆ state.iFlock inode ++ news
  locks : ∀ fl, fl ∉ state.iFlock inode ++ news → fl ≠ request →
    state'.lock fl = state.lock fl
  own : ∀ point type,
    HeldBy state'.lock (state'.iFlock inode) (state.lock request).flOwner point type ↔
      type ≠ .unlck ∧ map point type
  foreign : ∀ other, other ≠ (state.lock request).flOwner → ∀ point type,
    HeldBy state'.lock (state'.iFlock inode) other point type ↔
      HeldBy state.lock (state.iFlock inode) other point type

variable {state state' : LockState Owner} {inode request : ℕ} {map : ℤ → LockType → Prop}

theorem ListStep.refl (hok : ListOk state.lock (state.iFlock inode)) (request : ℕ)
    (news : List ℕ) (hlock : state'.lock = state.lock) (hlists : state'.iFlock = state.iFlock) :
    ListStep state state' inode request news
      (HeldBy state.lock (state.iFlock inode) (state.lock request).flOwner) := by
  refine ⟨?_, ?_, ?_, ?_, ?_, ?_⟩
  · rw [hlock, hlists]
    exact hok
  · intro other _
    rw [hlists]
  · rw [hlists]
    exact subset_append_left _ _
  · intro fl _ _
    rw [hlock]
  · intro point type
    rw [hlock, hlists]
    exact ⟨fun hheld => ⟨hok.heldBy_type hheld, hheld⟩, fun hheld => hheld.2⟩
  · intro other _ point type
    rw [hlock, hlists]

theorem ListStep.mono {news news' : List ℕ} (hstep : ListStep state state' inode request news map)
    (hnews : news ⊆ news') : ListStep state state' inode request news' map := by
  have hmore : state.iFlock inode ++ news ⊆ state.iFlock inode ++ news' := by
    intro fl hfl
    rw [mem_append] at hfl ⊢
    exact hfl.imp_right (@hnews fl)
  exact ⟨hstep.ok, hstep.lists, Subset.trans hstep.subset hmore,
    fun fl hfl => hstep.locks fl fun hmem => hfl (hmore hmem), hstep.own, hstep.foreign⟩

theorem isOther_iff [DecidableEq Owner] (state : LockState Owner) (request fl : ℕ) :
    isOther state request fl = true ↔
      posixOwner (state.lock fl) ≠ some (state.lock request).flOwner := by
  by_cases hposix : (state.lock fl).isPosix = true
  · rw [ne_eq, posixOwner_eq_some, isOther, posixSameOwner, hposix]
    simp only [Bool.not_true, Bool.false_or, Bool.not_eq_true', decide_eq_false_iff_not, true_and]
    exact not_congr eq_comm
  · simp [isOther, posixOwner, hposix]

/-- The call that the list and the request make, and how its loop ends. -/
theorem ListOk.exists_call [DecidableEq Owner] (hok : ListOk state.lock (state.iFlock inode))
    (hrequested : Requested (state.lock request)) (hlisted : request ∉ state.iFlock inode) :
    ∃ call : Call Owner, call.base = state.lock ∧ call.start = request ∧
      state.iFlock inode = call.before ++ call.own ++ call.after ∧
      Parts state.lock (state.lock request).flOwner call.before call.own call.after ∧
      (call.own = [] → call.after = []) ∧
      ScanExit call (processOwn state inode request).1 (processOwn state inode request).2.1
        (processOwn state inode request).2.2 := by
  obtain ⟨own, after, hdrop, hown, hafter, hlast⟩ :=
    hok.grouped.exists_group (isOther_iff state request)
  have hlist : state.iFlock inode =
      (state.iFlock inode).takeWhile (isOther state request) ++ own ++ after := by
    rw [append_assoc, ← hdrop, takeWhile_append_dropWhile]
  generalize htake : (state.iFlock inode).takeWhile (isOther state request) = before at hlist
  have hparts : Parts state.lock (state.lock request).flOwner before own after := by
    refine ⟨fun fl hfl => ?_, hown, hafter⟩
    rw [← htake] at hfl
    exact (isOther_iff state request fl).mp (mem_takeWhile_imp hfl)
  rw [hlist] at hok hlisted
  have hposixAfter := hok.posix_after hparts hlast
  let call : Call Owner := {
    base := state.lock
    start := request
    own := own
    before := before
    after := after
    requested := hrequested
    held := fun fl hfl => hok.held fl (by simp [hfl]) _ (hown fl hfl)
    after_owner := fun fl hfl howner =>
      hafter fl hfl (posixOwner_eq_some.mpr ⟨hposixAfter fl hfl, howner⟩)
    nodup := hok.nodup.sublist
      ((sublist_append_right before own).trans (sublist_append_left _ after))
    start_not_own := fun hmem => hlisted (by simp [hmem]) }
  refine ⟨call, rfl, rfl, hlist, hparts, hlast, ?_⟩
  rw [processOwn, htake]
  refine @ScanRange.process _ call _ _ _ [] [] own _ ⟨by simp [call], hdrop, rfl, Or.inl ⟨rfl, rfl⟩,
    by simp, fun _ => rfl, by simp, by simp [call], fun _ _ _ => rfl, fun _ _ => rfl, ?_, ?_, by simp⟩
  · exact ⟨hrequested.posix, rfl, rfl, hrequested.lower, hrequested.upper⟩
  · exact ⟨hok.ordered hparts, hrequested.proper, by simp, by simp, fun _ _ => Iff.rfl⟩

theorem Relisted.listStep {call : Call Owner} {used news : List ℕ}
    (hrelisted : Relisted call state'.lock used own' map) (hok : ListOk state.lock (state.iFlock inode))
    (hbase : call.base = state.lock)
    (hlist : state.iFlock inode = call.before ++ call.own ++ call.after)
    (hparts : Parts state.lock (state.lock call.start).flOwner call.before call.own call.after)
    (hlast : call.own = [] → call.after = [])
    (hlists : state'.iFlock = update state.iFlock inode (call.before ++ own' ++ call.after))
    (hused : used ⊆ news) (hfresh : ∀ fl ∈ used, fl ∉ state.iFlock inode)
    (hstart : call.start ∉ state.iFlock inode)
    (hshared : ∀ point type, type ≠ .unlck → map point type → ∀ fl ∈ call.before ++ call.after,
      (state.lock fl).isPosix = true → (state.lock fl).segment.Covers point → type = .rdlck ∧
      (state.lock fl).flType = .rdlck) : ListStep state state' inode call.start news map := by
  have hthin : call.before ++ call.after ⊆ state.iFlock inode := by
    rw [hlist]
    exact (others_sublist call.before call.own call.after).subset
  have hapart : ∀ fl ∈ call.before ++ call.after, fl ∉ call.own ++ used := by
    intro fl hfl hmem
    rcases mem_append.mp hmem with hown | hnew
    · exact hparts.ne_of_mem hfl (hparts.own_eq fl hown)
    · exact hfresh fl hnew (hthin hfl)
  have hsame : ∀ fl ∈ call.before ++ call.after, state'.lock fl = state.lock fl := by
    intro fl hfl
    rw [← hbase]
    exact hrelisted.others fl (hapart fl hfl) (fun heq => hstart (heq ▸ hthin hfl))
  have hown' : state'.iFlock inode = call.before ++ own' ++ call.after := by
    rw [hlists, update_self]
  have hheld := hrelisted.held
  rw [hbase] at hheld
  have hparts' := hparts.relist hsame hheld
  have htype : ∀ point type, Holds (segments state'.lock own') point type → type ≠ .unlck := by
    rintro point type ⟨segment, hmem, _, rfl⟩
    obtain ⟨fl, hfl, rfl⟩ := mem_segments.mp hmem
    exact (hheld fl hfl).type_ne
  refine ⟨?_, ?_, ?_, ?_, ?_, ?_⟩
  · rw [hown']
    refine (hlist ▸ hok).exchange hparts hlast hsame ?_ hheld hrelisted.ordered ?_
    · refine pairwise_exchange (hok.nodup.sublist ?_) hrelisted.nodup ?_ ?_
      · rw [hlist]
        exact others_sublist call.before call.own call.after
      · rintro first hfirst _ hsecond rfl
        exact hapart first (by simp [hfirst]) (hrelisted.subset hsecond)
      · rintro first hfirst _ hsecond rfl
        exact hapart first (by simp [hsecond]) (hrelisted.subset hfirst)
    · intro point type hholds
      have hne := htype point type hholds
      exact hshared point type hne ((hrelisted.holds point type hne).mp hholds)
  · intro other hother
    rw [hlists, update_of_ne hother]
  · intro fl hfl
    rw [hown'] at hfl
    rw [hlist]
    have hsubset := @hrelisted.subset fl
    simp only [mem_append] at hfl hsubset ⊢
    tauto
  · intro fl hfl hne
    rw [← hbase]
    refine hrelisted.others fl (fun hmem => hfl ?_) hne
    rw [hlist]
    simp only [mem_append] at hmem ⊢
    tauto
  · intro point type
    rw [hown', hparts'.heldBy]
    constructor
    · intro hholds
      have hne := htype point type hholds
      exact ⟨hne, (hrelisted.holds point type hne).mp hholds⟩
    · rintro ⟨hne, hmap⟩
      exact (hrelisted.holds point type hne).mpr hmap
  · intro other hother point type
    rw [hown', hlist, hparts'.heldBy_of_ne hother, hparts.heldBy_of_ne hother]
    exact HeldBy.congr hsame

variable [DecidableEq Owner] {alloc alloc2 newFl newFl2 : Option ℕ}

/-- A request that conflicts with nobody shares its bytes for reading only. -/
theorem ListOk.request_shared (hok : ListOk state.lock (state.iFlock inode))
    (hnone : Unopposed state inode request) (htype : (state.lock request).flType ≠ .unlck)
    (hcovers : (state.lock request).segment.Covers point) (hfl : fl ∈ state.iFlock inode)
    (hother : posixOwner (state.lock fl) ≠ some (state.lock request).flOwner)
    (hposix : (state.lock fl).isPosix = true) (hcovers' : (state.lock fl).segment.Covers point) :
    (state.lock request).flType = .rdlck ∧ (state.lock fl).flType = .rdlck := by
  have hconflict := (hnone.resolve_left htype) fl hfl
  have hne : (state.lock request).flOwner ≠ (state.lock fl).flOwner := fun howner =>
    hother (posixOwner_eq_some.mpr ⟨hposix, howner.symm⟩)
  have hheld := hok.held fl hfl _ (posixOwner_eq_some.mpr ⟨hposix, rfl⟩)
  have hread : ¬ ((state.lock fl).flType = .wrlck ∨ (state.lock request).flType = .wrlck) := by
    intro hwrite
    rw [← Bool.not_eq_true, posixLocksConflict_iff] at hconflict
    exact hconflict ⟨hposix, hne, hcovers'.1.trans hcovers.2, hcovers.1.trans hcovers'.2, hwrite⟩
  rw [not_or] at hread
  constructor
  · cases hcase : (state.lock request).flType with
    | rdlck => rfl
    | wrlck => exact absurd hcase hread.2
    | unlck => exact absurd hcase htype
  · cases hcase : (state.lock fl).flType with
    | rdlck => rfl
    | wrlck => exact absurd hcase hread.1
    | unlck => exact absurd hcase hheld.type_ne

theorem ListOk.changed (hok : ListOk state.lock (state.iFlock inode))
    (hrequested : Requested (state.lock request)) (hrequest : Unused state request)
    (halloc : FreshAlloc state request newFl newFl2) (hnone : Unopposed state inode request) :
    ListStep state (changeLocks state inode request newFl newFl2).2 inode request
      (newFl.toList ++ newFl2.toList)
      (if (changeLocks state inode request newFl newFl2).1 = .done then
          overlay (state.lock request).segment
            (HeldBy state.lock (state.iFlock inode) (state.lock request).flOwner)
        else HeldBy state.lock (state.iFlock inode) (state.lock request).flOwner) := by
  obtain ⟨call, hbase, rfl, hlist, hparts, hlast, hexit⟩ :=
    hok.exists_call hrequested (hrequest.listed inode)
  have hlisted : ∀ {new : ℕ}, Unused state new → new ∉ call.own := by
    intro new hunused hmem
    apply hunused.listed inode
    rw [hlist]
    simp [hmem]
  obtain ⟨used, own', hused, hlists, hrelisted⟩ := @ScanExit.finishLock _ call _ _ _ inode newFl
    newFl2 hexit
    (fun new hnew => ⟨hlisted (halloc.first new hnew).1, (halloc.first new hnew).2⟩)
    (fun new hnew => ⟨hlisted (halloc.second new hnew).1, (halloc.second new hnew).2⟩)
    halloc.distinct
  rw [processOwn_iFlock] at hlists
  have hheldBy : HeldBy state.lock (state.iFlock inode) (state.lock call.start).flOwner =
      Holds (segments state.lock call.own) := by
    funext point type
    rw [hlist]
    exact propext hparts.heldBy
  rw [hheldBy]
  rw [Call.target, hbase] at hrelisted
  have hthin : call.before ++ call.after ⊆ state.iFlock inode := by
    rw [hlist]
    exact (others_sublist call.before call.own call.after).subset
  have hokParts : ListOk state.lock (call.before ++ call.own ++ call.after) := hlist ▸ hok
  refine hrelisted.listStep hok hbase hlist hparts hlast hlists hused ?_ (hrequest.listed inode) ?_
  · intro fl hfl
    rcases mem_append.mp (hused hfl) with hfl | hfl
    · exact (halloc.first fl (mem_toList.mp hfl)).1.listed inode
    · exact (halloc.second fl (mem_toList.mp hfl)).1.listed inode
  · intro point type hne hmap fl hfl hposix hcovers
    split at hmap
    · rcases hmap with ⟨hrequestCovers, rfl⟩ | ⟨_, hheld⟩
      · exact hok.request_shared hnone hne hrequestCovers (hthin hfl) (hparts.ne_of_mem hfl)
          hposix hcovers
      · exact hokParts.own_shared hparts hheld hfl hposix hcovers
    · exact hokParts.own_shared hparts hmap hfl hposix hcovers

/-- The caller's map after a call: the request is painted over it if the call
went through, and anything else leaves it as it was. -/
def mapAfter (state : LockState Owner) (inode request : ℕ) (outcome : Outcome) :
    ℤ → LockType → Prop :=
  if outcome = .done ∧ (state.lock request).flAccess = false then
    overlay (state.lock request).segment
      (HeldBy state.lock (state.iFlock inode) (state.lock request).flOwner)
  else HeldBy state.lock (state.iFlock inode) (state.lock request).flOwner

theorem posixLockFile_list (hok : ListOk state.lock (state.iFlock inode))
    (hrequested : Requested (state.lock request)) (hrequest : Unused state request)
    (halloc : FreshAlloc state request alloc alloc2) :
    ListStep state (posixLockFile state inode request alloc alloc2).state inode request
      (alloc.toList ++ alloc2.toList)
      (mapAfter state inode request (posixLockFile state inode request alloc alloc2).outcome) := by
  have hcase := callCase_posixLockFile state inode request alloc alloc2
  generalize posixLockFile state inode request alloc alloc2 = result at hcase ⊢
  cases hcase with
  | refused houtcome =>
    rw [mapAfter, if_neg fun h => houtcome h.1]
    exact .refl hok request _ rfl rfl
  | deferred _ _ _ =>
    rw [mapAfter, if_neg (by simp)]
    exact .refl hok request _ rfl rfl
  | tested haccess =>
    rw [mapAfter, if_neg (by simp [haccess])]
    exact .refl hok request _ rfl rfl
  | changed haccess hnone hnew hnew2 =>
    have hfresh : FreshAlloc state request _ _ :=
      ⟨fun new h => halloc.first new (hnew new h), fun new h => halloc.second new (hnew2 new h),
        fun new h h2 => halloc.distinct new (hnew new h) (hnew2 new h2)⟩
    have hstep := hok.changed hrequested hrequest hfresh hnone
    simp only [mapAfter, haccess, and_true]
    apply hstep.mono
    intro fl hfl
    rw [mem_append, mem_toList, mem_toList] at hfl ⊢
    exact hfl.imp (hnew fl) (hnew2 fl)

end KernelM5040.Locks
