import KernelM5040.Core.GroupedList
import KernelM5040.Fs.LockScan

/-!
# Ranges

The locks of one owner stand together on the inode's list, as an ordered list of
segments.  The loop of `__posix_lock_file` paints the range of the request over
them: this file follows it round by round, and then through the insertion of
new locks and the cutting of the neighbours.
-/

namespace KernelM5040.Locks

open List Segments

variable {Owner : Type*} {list : List ℕ}

/-- A lock as it stands on an inode's list. -/
structure Held (owner : Owner) (lock : FileLock Owner) : Prop where
  posix : lock.isPosix = true
  owner_eq : lock.flOwner = owner
  type_ne : lock.flType ≠ .unlck
  lower : 0 ≤ lock.flStart
  upper : lock.flEnd ≤ offsetMax

/-- A request as it comes in. -/
structure Requested (lock : FileLock Owner) : Prop where
  posix : lock.isPosix = true
  lower : 0 ≤ lock.flStart
  proper : lock.flStart ≤ lock.flEnd
  upper : lock.flEnd ≤ offsetMax

def segments (lock : ℕ → FileLock Owner) (list : List ℕ) : List (Segment LockType) :=
  list.map fun fl => (lock fl).segment

section

variable (lock : ℕ → FileLock Owner)

@[simp]
theorem segments_append (left right : List ℕ) :
    segments lock (left ++ right) = segments lock left ++ segments lock right :=
  map_append

@[simp]
theorem segments_cons (fl : ℕ) (rest : List ℕ) :
    segments lock (fl :: rest) = (lock fl).segment :: segments lock rest := rfl

@[simp]
theorem segments_nil : segments lock [] = [] := rfl

end

theorem segments_congr {lock lock' : ℕ → FileLock Owner} {list : List ℕ}
    (hsame : ∀ fl ∈ list, lock' fl = lock fl) : segments lock' list = segments lock list :=
  map_congr_left fun fl hfl => by rw [hsame fl hfl]

theorem mem_segments {lock : ℕ → FileLock Owner} {segment : Segment LockType} :
    segment ∈ segments lock list ↔ ∃ fl ∈ list, (lock fl).segment = segment := mem_map

/-! ## The loop -/

/-- The call whose loop is followed: the locks before it, the request, and the
owner's locks between those of others. -/
structure Call (Owner : Type*) where
  base : ℕ → FileLock Owner
  start : ℕ
  own : List ℕ
  before : List ℕ
  after : List ℕ
  requested : Requested (base start)
  held : ∀ fl ∈ own, Held (base start).flOwner (base fl)
  after_owner : ∀ fl ∈ after, (base fl).flOwner ≠ (base start).flOwner
  nodup : own.Nodup
  start_not_own : start ∉ own

/-- The map that is to come out: the request painted over the old locks. -/
def Call.target (call : Call Owner) : ℤ → LockType → Prop :=
  overlay (call.base call.start).segment (Holds (segments call.base call.own))

/-- The request in the course of the call: its range may grow. -/
structure RequestNow (call : Call Owner) (lock : FileLock Owner) : Prop where
  posix : lock.isPosix = true
  owner : lock.flOwner = (call.base call.start).flOwner
  type : lock.flType = (call.base call.start).flType
  lower : 0 ≤ lock.flStart
  upper : lock.flEnd ≤ offsetMax

/-- The loop between two rounds.  `done` has been passed untouched, `placed` is
the request once it is a lock on the list, and `todo` is what is left of the
owner's locks. -/
structure ScanRange (call : Call Owner) (scan : Scan Owner)
    (passed rest done placed todo : List ℕ) : Prop where
  passed_eq : passed = call.before ++ done ++ scan.left.toList ++ placed
  rest_eq : rest = todo ++ call.after
  right : scan.right = none
  place : (placed = [] ∧ scan.request = call.start) ∨
    (placed = [scan.request] ∧ scan.added = true ∧ (call.base call.start).flType ≠ .unlck)
  erases : placed = [] → scan.added = true → (call.base call.start).flType = .unlck
  kept : scan.added = false → done ++ scan.left.toList ++ todo = call.own
  marked : scan.left ≠ none → (call.base call.start).flType = .unlck → scan.added = true
  sublist : (done ++ scan.left.toList ++ placed ++ todo).Sublist call.own
  others : ∀ fl, fl ∉ call.own → fl ≠ call.start → scan.state.lock fl = call.base fl
  values : ∀ fl ∈ done ++ scan.left.toList ++ todo, scan.state.lock fl = call.base fl
  request : RequestNow call scan.wanted
  painting : Painting call.target (segments scan.state.lock done)
    (segments scan.state.lock scan.left.toList) scan.wanted.segment
    (segments scan.state.lock todo)
  ahead : scan.left ≠ none ∨ scan.added = true →
    ∀ fl ∈ todo, scan.wanted.flStart ≤ (scan.state.lock fl).flStart

variable {call : Call Owner} {scan : Scan Owner} {passed rest done placed todo : List ℕ}
  {fl other : ℕ} {lock' : ℕ → FileLock Owner}

theorem FileLock.segment_extend_comm {lock other : FileLock Owner}
    (htype : other.flType = lock.flType) :
    (lock.extend other).segment = other.segment.hull lock.segment := by
  apply Segment.ext
  · exact min_comm _ _
  · exact max_comm _ _
  · exact htype.symm

theorem RequestNow.extend {lock other : FileLock Owner} (hrequest : RequestNow call lock)
    (hother : Held (call.base call.start).flOwner other) :
    RequestNow call (lock.extend other) where
  posix := hrequest.posix
  owner := hrequest.owner
  type := hrequest.type
  lower := le_min hrequest.lower hother.lower
  upper := max_le hrequest.upper hother.upper

section

variable (hscan : ScanRange call scan passed rest done placed todo)
include hscan

theorem ScanRange.nodup : (done ++ scan.left.toList ++ placed ++ todo).Nodup :=
  call.nodup.sublist hscan.sublist

/-- The request is none of the locks that are still as they were. -/
theorem ScanRange.request_not_mem : scan.request ∉ done ++ scan.left.toList ++ todo := by
  intro hmem
  rcases hscan.place with ⟨_, hstart⟩ | ⟨hplaced, _⟩
  · apply call.start_not_own
    rw [← hstart]
    apply hscan.sublist.subset
    simp only [mem_append] at hmem ⊢
    tauto
  · have hnodup := hscan.nodup
    rw [hplaced] at hnodup
    have hdisjoint : (scan.request :: (done ++ scan.left.toList ++ todo)).Nodup := by
      refine (Perm.nodup_iff ?_).mp hnodup
      rw [append_assoc, singleton_append]
      exact perm_middle
    exact (nodup_cons.mp hdisjoint).1 hmem

theorem ScanRange.place_of_not_added (hadded : scan.added = false) :
    placed = [] ∧ scan.request = call.start := by
  rcases hscan.place with hplace | ⟨_, hyes, _⟩
  · exact hplace
  · rw [hadded] at hyes
    exact absurd hyes (by simp)

theorem ScanRange.request_mem_own (hother : other ∉ call.own) (hstart : other ≠ call.start) :
    other ≠ scan.request := by
  rcases hscan.place with ⟨_, heq⟩ | ⟨hplaced, _⟩
  · rw [heq]
    exact hstart
  intro heq
  apply hother
  apply hscan.sublist.subset
  simp [hplaced, heq]

end

section

variable (hscan : ScanRange call scan passed rest done placed (fl :: todo))
include hscan

theorem ScanRange.fl_not_mem : fl ∉ done ++ scan.left.toList ++ placed ++ todo :=
  (nodup_cons.mp ((Perm.nodup_iff perm_middle).mp hscan.nodup)).1

theorem ScanRange.fl_mem_own : fl ∈ call.own :=
  hscan.sublist.subset (by simp)

theorem ScanRange.held_fl : Held (call.base call.start).flOwner (scan.state.lock fl) := by
  rw [hscan.values fl (by simp)]
  exact call.held fl hscan.fl_mem_own

theorem ScanRange.fl_ne_request : scan.request ≠ fl := by
  intro heq
  exact hscan.request_not_mem (heq ▸ by simp)

/-- A lock that begins left of the request is met before anything else is
touched. -/
theorem ScanRange.untouched (hstart : (scan.state.lock fl).flStart < scan.wanted.flStart) :
    scan.left = none ∧ scan.added = false ∧ placed = [] := by
  have hnot : ¬ (scan.left ≠ none ∨ scan.added = true) := fun htouched =>
    absurd (hscan.ahead htouched fl mem_cons_self) (not_le.mpr hstart)
  rw [not_or, not_not, Bool.not_eq_true] at hnot
  exact ⟨hnot.1, hnot.2, (hscan.place_of_not_added hnot.2).1⟩

theorem ScanRange.proper_fl : (scan.state.lock fl).flStart ≤ (scan.state.lock fl).flEnd :=
  hscan.painting.ordered.proper (scan.state.lock fl).segment (by simp)

theorem ScanRange.lt_start :
    ∀ other ∈ todo, (scan.state.lock fl).flEnd < (scan.state.lock other).flStart := by
  intro other hother
  obtain ⟨_, hrest, _⟩ := ordered_append.mp hscan.painting.ordered
  obtain ⟨_, _, hcross⟩ := ordered_cons.mp hrest
  exact (hcross _ (mem_segments.mpr ⟨other, hother, rfl⟩)).1

variable (hsame : ∀ other, other ≠ fl → other ≠ scan.request → lock' other = scan.state.lock other)
include hsame

/-- The locks that are still as they were stay so when only `fl` and the request
change. -/
theorem ScanRange.lock_eq (hother : other ∈ done ++ scan.left.toList ++ todo) :
    lock' other = scan.state.lock other := by
  apply hsame
  · rintro rfl
    apply hscan.fl_not_mem
    simp only [mem_append] at hother ⊢
    tauto
  · rintro rfl
    apply hscan.request_not_mem
    simp only [mem_append, mem_cons] at hother ⊢
    tauto

theorem ScanRange.segments_eq (hlist : list ⊆ done ++ scan.left.toList ++ todo) :
    segments lock' list = segments scan.state.lock list :=
  segments_congr fun _ hother => hscan.lock_eq hsame (hlist hother)

end

/-- The request takes the place of `fl`, or `fl` grows by it, or leaves the list. -/
theorem ScanRange.settle (hscan : ScanRange call scan passed (fl :: rest) done placed (fl :: todo))
    {state' : LockState Owner} {request : ℕ} {passed' placed' : List ℕ}
    (hsame : ∀ other, other ≠ fl → other ≠ scan.request → state'.lock other = scan.state.lock other)
    (hpassed : passed' = call.before ++ done ++ scan.left.toList ++ placed')
    (hplace : placed' = [] ∧ request = call.start ∨
      placed' = [request] ∧ (call.base call.start).flType ≠ .unlck)
    (herases : placed' = [] → (call.base call.start).flType = .unlck)
    (hsublist : (done ++ scan.left.toList ++ placed' ++ todo).Sublist call.own)
    (hrequest : RequestNow call (state'.lock request))
    (hstart : (state'.lock request).flStart ≤ (scan.state.lock fl).flStart)
    (hpainting : Painting call.target (segments scan.state.lock done)
      (segments scan.state.lock scan.left.toList) (state'.lock request).segment
      (segments scan.state.lock todo)) :
    ScanRange call { scan with state := state', request := request, added := true }
      passed' rest done placed' todo := by
  refine ⟨hpassed, (List.cons.inj hscan.rest_eq).2, hscan.right,
    hplace.imp_right fun hplace => ⟨hplace.1, rfl, hplace.2⟩, fun hplaced _ => herases hplaced,
    by simp, fun _ _ => rfl, hsublist, ?_, ?_, hrequest, ?_, ?_⟩
  · intro other hother hne
    rw [hsame other (fun h => hother (h ▸ hscan.fl_mem_own)) (hscan.request_mem_own hother hne)]
    exact hscan.others other hother hne
  · intro other hother
    rw [hscan.lock_eq hsame hother]
    apply hscan.values
    simp only [mem_append, mem_cons] at hother ⊢
    tauto
  · rw [hscan.segments_eq hsame (by simp), hscan.segments_eq hsame (by simp),
      hscan.segments_eq hsame (by simp)]
    exact hpainting
  · intro _ other hother
    have hlt := hscan.lt_start other hother
    have hproper := hscan.proper_fl
    change (state'.lock request).flStart ≤ (state'.lock other).flStart
    have hlock : state'.lock other = scan.state.lock other :=
      hscan.lock_eq hsame (by simp [hother])
    rw [hlock]
    omega

/-- The request ends before the locks that are left. -/
def Clear (lock : ℕ → FileLock Owner) (request : ℕ) (todo : List ℕ) : Prop :=
  ∀ fl ∈ todo, (lock request).segment.Before (lock fl).segment

/-- How the loop ends: nothing to cut on the right, a lock that is cut there, or
a lock that is cut on both sides. -/
inductive ScanExit (call : Call Owner) : Scan Owner → List ℕ → List ℕ → Prop
  | apart {scan : Scan Owner} {passed rest done placed todo : List ℕ}
      (hscan : ScanRange call scan passed rest done placed todo)
      (hclear : Clear scan.state.lock scan.request todo) : ScanExit call scan passed rest
  | right {scan : Scan Owner} {passed rest done placed todo : List ℕ} {fl : ℕ}
      (hscan : ScanRange call scan passed rest done placed (fl :: todo))
      (hright : CutsRight scan.wanted (scan.state.lock fl)) :
      ScanExit call { scan with added := scan.addedNow, right := some fl } passed rest
  | split {scan : Scan Owner} {passed rest done placed todo : List ℕ} {fl : ℕ}
      (hscan : ScanRange call scan passed rest done placed (fl :: todo))
      (hsplit : Splits scan.wanted (scan.state.lock fl)) :
      ScanExit call { scan with added := scan.addedNow, left := some fl, right := some fl }
        passed rest

theorem mergeRange_lock {state : LockState Owner} {request : ℕ} (hne : request ≠ fl) :
    (mergeRange state request fl).lock request =
        (state.lock request).extend (state.lock fl) ∧
      (mergeRange state request fl).lock fl = (state.lock fl).extend (state.lock request) ∧
      ∀ other, other ≠ fl → other ≠ request →
        (mergeRange state request fl).lock other = state.lock other := by
  rw [mergeRange_eq _ hne]
  refine ⟨?_, setLock_lock_self _ _ _, ?_⟩
  · rw [setLock_lock_of_ne _ hne, setLock_lock_self]
  · intro other hfl hrequest
    rw [setLock_lock_of_ne _ hfl, setLock_lock_of_ne _ hrequest]

section

variable (hscan : ScanRange call scan passed (fl :: rest) done placed (fl :: todo))
include hscan

theorem ScanRange.pass (hbefore : (scan.state.lock fl).segment.Before scan.wanted.segment) :
    ScanRange call scan (passed ++ [fl]) rest (done ++ [fl]) placed todo := by
  have hlt : (scan.state.lock fl).flEnd < scan.wanted.flStart := hbefore.1
  obtain ⟨hleft, hadded, rfl⟩ := hscan.untouched (lt_of_le_of_lt hscan.proper_fl hlt)
  obtain ⟨hpassed, hrest, hright, hplace, herases, hkept, hmarked, hsublist, hothers,
    hvalues, hrequest, hpainting, _⟩ := hscan
  rw [hleft] at hpassed hsublist hvalues hpainting hkept
  refine ⟨?_, (List.cons.inj hrest).2, hright, hplace, herases, ?_, hmarked, ?_, hothers, ?_,
    hrequest, ?_, ?_⟩
  · rw [hpassed, hleft]
    simp
  · intro hno
    rw [← hkept hno, hleft]
    simp
  · rw [hleft]
    simpa using hsublist
  · intro other hother
    apply hvalues
    rw [hleft] at hother
    simpa using hother
  · rw [hleft, segments_append]
    exact hpainting.pass hbefore
  · rintro (hsome | hyes)
    · exact absurd hleft hsome
    · rw [hadded] at hyes
      exact absurd hyes (by simp)

theorem ScanRange.reachLeft (htype : scan.wanted.flType ≠ (scan.state.lock fl).flType)
    (hreach : scan.wanted.flStart ≤ (scan.state.lock fl).flEnd)
    (hstop : (scan.state.lock fl).flEnd ≤ scan.wanted.flEnd)
    (hstart : (scan.state.lock fl).flStart < scan.wanted.flStart) :
    ScanRange call { scan with added := scan.addedNow, left := some fl } (passed ++ [fl]) rest
      done placed todo := by
  obtain ⟨hleft, hadded, rfl⟩ := hscan.untouched hstart
  have hnow : scan.addedNow = true ↔ (call.base call.start).flType = .unlck := by
    simp [Scan.addedNow, hadded, hscan.request.type]
  have hlt := hscan.lt_start
  obtain ⟨_, hplace'⟩ := hscan.place_of_not_added hadded
  obtain ⟨hpassed, hrest, hright, hplace, herases, hkept, hmarked, hsublist, hothers,
    hvalues, hrequest, hpainting, _⟩ := hscan
  rw [hleft] at hpassed hsublist hvalues hpainting hkept
  refine ⟨?_, (List.cons.inj hrest).2, hright, Or.inl ⟨rfl, hplace'⟩, fun _ => hnow.mp, ?_,
    fun _ => hnow.mpr, ?_, hothers, ?_, hrequest, ?_, ?_⟩
  · rw [hpassed]
    simp
  · intro _
    rw [← hkept hadded]
    simp
  · simpa using hsublist
  · intro other hother
    apply hvalues
    simpa using hother
  · exact hpainting.setLeft hstart hreach hstop (Ne.symm htype)
  · intro _ other hother
    have := hlt other hother
    change scan.wanted.flStart ≤ (scan.state.lock other).flStart
    omega

theorem ScanRange.round :
    match scanLock scan fl with
    | .next scan' => ∃ done' placed',
        ScanRange call scan' (passed ++ [fl]) rest done' placed' todo
    | .delete scan' => ScanRange call scan' passed rest done placed todo
    | .leave scan' => ScanExit call scan' passed (fl :: rest) := by
  have hheld := hscan.held_fl
  obtain ⟨hmergeRequest, hmergeFl, hmergeOther⟩ :=
    @mergeRange_lock Owner fl scan.state scan.request hscan.fl_ne_request
  -- what stays when `fl` leaves the list
  have hlist := And.intro (hscan.place.imp_right fun hplace => And.intro hplace.1 hplace.2.2)
    (((sublist_cons_self fl todo).append_left _).trans hscan.sublist)
  have hcase := roundCase_scanLock scan fl
  generalize scanLock scan fl = round at hcase ⊢
  cases hcase with
  | before hbefore => exact ⟨_, _, hscan.pass hbefore⟩
  | after hafter =>
    refine .apart hscan fun other hother => ?_
    exact hscan.painting.after_head hafter _ (mem_segments.mpr ⟨other, hother, rfl⟩)
  | extend htype hbefore hafter hadded =>
    obtain ⟨rfl, _⟩ := hscan.place_of_not_added hadded
    refine ⟨done, [fl], hscan.settle hmergeOther (by simp [hscan.passed_eq]) (Or.inr ⟨rfl, ?_⟩)
      (by simp) (by simpa using hscan.sublist) ?_ ?_ ?_⟩
    · rw [← hscan.request.type, htype]
      exact hheld.type_ne
    · rw [hmergeFl]
      have hrequest := hscan.request
      exact ⟨hheld.posix, hheld.owner_eq, htype.symm.trans hrequest.type,
        le_min hheld.lower hrequest.lower, max_le hheld.upper hrequest.upper⟩
    · rw [hmergeFl]
      exact min_le_left _ _
    · rw [hmergeFl, FileLock.segment_extend_comm htype]
      exact hscan.painting.absorb htype hafter hbefore
  | absorb htype hbefore hafter hadded =>
    have hplaced : placed ≠ [] := fun hnil =>
      hheld.type_ne (htype ▸ hscan.request.type.trans (hscan.erases hnil hadded))
    have hdrop := @ScanRange.settle Owner call scan passed rest done placed todo fl hscan
      (locksWakeUpBlocks (mergeRange scan.state scan.request fl) fl) scan.request _ _
      (by simpa using hmergeOther) hscan.passed_eq hlist.1 (fun hnil => absurd hnil hplaced) hlist.2
      (by
        rw [locksWakeUpBlocks_lock, hmergeRequest]
        exact hscan.request.extend hheld)
      (by
        rw [locksWakeUpBlocks_lock, hmergeRequest]
        exact min_le_right _ _)
      (by
        rw [locksWakeUpBlocks_lock, hmergeRequest]
        exact hscan.painting.absorb htype hafter hbefore)
    rw [← hadded] at hdrop
    exact hdrop
  | right hright => exact .right hscan hright
  | split hsplit => exact .split hscan hsplit
  | left htype hreach hstop hstart =>
    exact ⟨done, placed, hscan.reachLeft htype hreach hstop hstart⟩
  | cover hstop hstart hadded =>
    refine hscan.settle (by simp) hscan.passed_eq hlist.1 ?_ hlist.2 (by simpa using hscan.request)
      (by simpa using hstart) ?_
    · intro hnil
      rw [Scan.addedNow, Bool.or_eq_true, decide_eq_true_eq] at hadded
      rcases hadded with hyes | hunlck
      · exact hscan.erases hnil hyes
      · exact hscan.request.type.symm.trans hunlck
    · rw [locksWakeUpBlocks_lock]
      exact hscan.painting.cover hstart hstop
  | replace hstop hstart hadded =>
    rw [Scan.addedNow_eq_false] at hadded
    have hrequest := hscan.request
    have hlock : (replaceLock scan.state scan.request fl).lock fl =
        { scan.state.lock fl with
          flStart := scan.wanted.flStart
          flEnd := scan.wanted.flEnd
          flType := scan.wanted.flType } := by
      simp [replaceLock]
    obtain ⟨rfl, _⟩ := hscan.place_of_not_added hadded.1
    refine ⟨done, [fl], hscan.settle ?_ (by simp [hscan.passed_eq]) (Or.inr ⟨rfl, ?_⟩) (by simp)
      (by simpa using hscan.sublist) ?_ ?_ ?_⟩
    · intro other hfl _
      rw [replaceLock, setLock_lock_of_ne _ hfl, locksWakeUpBlocks_lock]
    · rw [← hscan.request.type]
      exact hadded.2
    · rw [hlock]
      exact ⟨hheld.posix, hheld.owner_eq, hrequest.type, hrequest.lower, hrequest.upper⟩
    · rw [hlock]
      exact hstart
    · rw [hlock]
      exact hscan.painting.cover hstart hstop

end

theorem ScanRange.process [DecidableEq Owner]
    (hscan : ScanRange call scan passed rest done placed todo) :
    ScanExit call (processLocks scan passed rest).1 (processLocks scan passed rest).2.1
      (processLocks scan passed rest).2.2 := by
  induction todo generalizing scan passed rest done placed with
  | nil =>
    -- the next lock, if there is one, belongs to somebody else
    have hleave : processLocks scan passed rest = (scan, passed, rest) := by
      rw [hscan.rest_eq, nil_append]
      cases hafter : call.after with
      | nil => rfl
      | cons next later =>
        have hnext : next ∈ call.after := by simp [hafter]
        have howner := call.after_owner next hnext
        have hbase := hscan.others next (fun hown => howner (call.held next hown).owner_eq)
          (fun heq => howner (by rw [heq]))
        have hother : posixSameOwner scan.wanted (scan.state.lock next) = false := by
          rw [hbase, posixSameOwner, hscan.request.owner]
          exact decide_eq_false (Ne.symm howner)
        rw [processLocks, hother]
        rfl
    rw [hleave]
    exact .apart hscan (by simp [Clear])
  | cons fl todo ih =>
    obtain rfl : rest = fl :: (todo ++ call.after) := hscan.rest_eq
    have hround := hscan.round
    have hsame : posixSameOwner scan.wanted (scan.state.lock fl) = true := by
      rw [posixSameOwner, hscan.request.owner, hscan.held_fl.owner_eq]
      exact decide_eq_true rfl
    rw [processLocks, hsame]
    generalize scanLock scan fl = round at hround ⊢
    cases round with
    | next scan' =>
      obtain ⟨done', placed', hnext⟩ := hround
      exact ih hnext
    | delete scan' => exact ih hround
    | leave scan' => exact hround

end KernelM5040.Locks
