import KernelM5040.Fs.LockRanges

/-!
# The end of a lock call

After the loop `__posix_lock_file` puts the request on the list, if the loop has
not done so, and cuts the locks that it only covers in part.  The lists of
segments follow the steps of `Painting`, and the result is the map with the
request painted over it, or, when an allocation has failed, the old one.
-/

namespace KernelM5040.Locks

open Option List Function Segments

variable {Owner : Type*} {call : Call Owner} {lock lock' : ℕ → FileLock Owner}
  {scan : Scan Owner} {request : ℕ} {passed rest used done placed todo : List ℕ}
  {left : Option ℕ} {fl copy : ℕ}

/-! ## The request on the list -/

/-- The owner's locks with the request among them, before the neighbours are
cut.  `used` are the new locks. -/
structure Placed (call : Call Owner) (lock : ℕ → FileLock Owner) (request : ℕ)
    (used done : List ℕ) (left : Option ℕ) (placed todo : List ℕ) : Prop where
  nodup : (done ++ left.toList ++ placed ++ todo).Nodup
  subset : done ++ left.toList ++ placed ++ todo ⊆ call.own ++ used
  apart : request ∉ done ++ left.toList ++ todo
  held : ∀ other ∈ done ++ left.toList ++ todo, Held (call.base call.start).flOwner (lock other)
  others : ∀ other, other ∉ call.own ++ used → other ≠ call.start → lock other = call.base other
  now : RequestNow call (lock request)
  place : (placed = [] ∧ (call.base call.start).flType = .unlck) ∨
    ((call.base call.start).flType ≠ .unlck ∧
      ∃ top, placed = [top] ∧ lock top = lock request)
  painting : Painting call.target (segments lock done) (segments lock left.toList)
    (lock request).segment (segments lock todo)

theorem ScanRange.subset (hscan : ScanRange call scan passed rest done placed todo) {other : ℕ}
    (hother : other ∈ done ++ scan.left.toList ++ todo) : other ∈ call.own := by
  apply hscan.sublist.subset
  simp only [mem_append] at hother ⊢
  tauto

section

variable (hscan : ScanRange call scan passed rest done placed todo)
include hscan

theorem ScanRange.held {other : ℕ} (hother : other ∈ done ++ scan.left.toList ++ todo) :
    Held (call.base call.start).flOwner (scan.state.lock other) := by
  rw [hscan.values other hother]
  exact call.held other (hscan.subset hother)

/-- The loop has added the request, or there is nothing to add. -/
theorem ScanRange.toPlaced (hadded : scan.addedNow = true) :
    Placed call scan.state.lock scan.request [] done scan.left placed todo where
  nodup := hscan.nodup
  subset := by
    rw [append_nil]
    exact hscan.sublist.subset
  apart := hscan.request_not_mem
  held := fun _ hother => hscan.held hother
  others := by
    intro other hother
    rw [append_nil] at hother
    exact hscan.others other hother
  now := hscan.request
  place := by
    rcases hscan.place with ⟨hnil, _⟩ | ⟨hplaced, _, htype⟩
    · refine Or.inl ⟨hnil, ?_⟩
      rw [Scan.addedNow, Bool.or_eq_true, decide_eq_true_eq] at hadded
      rcases hadded with hyes | hunlck
      · exact hscan.erases hnil hyes
      · exact hscan.request.type.symm.trans hunlck
    · exact Or.inr ⟨htype, scan.request, hplaced, rfl⟩
  painting := hscan.painting

theorem ScanRange.toPlaced_new (hadded : scan.added = false)
    (htype : (call.base call.start).flType ≠ .unlck) {new : ℕ} (hown : new ∉ call.own)
    (hstart : new ≠ call.start) :
    Placed call (setLock scan.state new scan.wanted).lock scan.request [new] done scan.left [new]
      todo := by
  obtain ⟨rfl, hrequest⟩ := hscan.place_of_not_added hadded
  have hnew : new ∉ done ++ scan.left.toList ++ todo := fun hmem =>
    hown (hscan.subset hmem)
  have hlock : ∀ other ∈ done ++ scan.left.toList ++ todo,
      (setLock scan.state new scan.wanted).lock other = scan.state.lock other := by
    intro other hother
    apply setLock_lock_of_ne
    rintro rfl
    exact hnew hother
  have htop : (setLock scan.state new scan.wanted).lock scan.request = scan.wanted := by
    apply setLock_lock_of_ne
    rw [hrequest]
    exact hstart.symm
  refine ⟨?_, ?_, hscan.request_not_mem, ?_, ?_, ?_, ?_, ?_⟩
  · have hnodup := hscan.nodup
    rw [append_nil] at hnodup
    rw [append_assoc, singleton_append]
    exact (Perm.nodup_iff perm_middle).mpr (nodup_cons.mpr ⟨hnew, hnodup⟩)
  · intro other hother
    have hsubset := @ScanRange.subset _ _ _ _ _ _ _ _ hscan other
    simp only [mem_append, mem_singleton] at hother hsubset ⊢
    tauto
  · intro other hother
    rw [hlock other hother]
    exact hscan.held hother
  · intro other hother hne
    simp only [mem_append, mem_singleton, not_or] at hother
    rw [setLock_lock_of_ne _ hother.2]
    exact hscan.others other hother.1 hne
  · rw [htop]
    exact hscan.request
  · exact Or.inr ⟨htype, new, rfl, by rw [htop, setLock_lock_self]⟩
  · rw [htop, segments_congr fun other hmem => hlock other (by simp [hmem]),
      segments_congr fun other hmem => hlock other (by simp [mem_toList.mp hmem]),
      segments_congr fun other hmem => hlock other (by simp [hmem])]
    exact hscan.painting

end

/-! ## Cutting -/

section

variable (state : LockState Owner) (request : ℕ)

theorem cutRight_lock (fl : ℕ) :
    (cutRight state request (some fl)).lock = update state.lock fl
      { state.lock fl with flStart := (state.lock request).flEnd + 1 } :=
  locksWakeUpBlocks_lock _ _

theorem cutLeft_lock (fl : ℕ) :
    (cutLeft state request (some fl)).lock = update state.lock fl
      { state.lock fl with flEnd := (state.lock request).flStart - 1 } :=
  locksWakeUpBlocks_lock _ _

@[simp]
theorem cutRight_iFlock (right : Option ℕ) : (cutRight state request right).iFlock = state.iFlock := by
  cases right with
  | none => rfl
  | some fl => exact locksWakeUpBlocks_iFlock _ _

@[simp]
theorem cutLeft_iFlock (left : Option ℕ) : (cutLeft state request left).iFlock = state.iFlock := by
  cases left with
  | none => rfl
  | some fl => exact locksWakeUpBlocks_iFlock _ _

end

theorem Placed.request_proper (hplaced : Placed call lock request used done left placed todo) :
    (lock request).flStart ≤ (lock request).flEnd := hplaced.painting.proper

theorem segments_update {list : List ℕ} (hnot : fl ∉ list) (value : FileLock Owner) :
    segments (update lock fl value) list = segments lock list :=
  segments_congr fun _ hother => update_of_ne (ne_of_mem_of_not_mem hother hnot) _ _

theorem Placed.after_head (hplaced : Placed call lock request used done left placed (fl :: todo))
    (hhead : (lock request).segment.Before (lock fl).segment) : Clear lock request (fl :: todo) :=
  fun other hother =>
    hplaced.painting.after_head hhead _ (mem_segments.mpr ⟨other, hother, rfl⟩)

theorem Placed.change (hplaced : Placed call lock request used done left placed todo)
    {done' : List ℕ} {left' : Option ℕ} (hlist : done' ++ left'.toList = done ++ left.toList)
    (hmem : fl ∈ done ++ left.toList ++ todo) {value : FileLock Owner}
    (hheld : Held (call.base call.start).flOwner value)
    (hpainting : Painting call.target (segments (update lock fl value) done')
      (segments (update lock fl value) left'.toList) (lock request).segment
      (segments (update lock fl value) todo)) :
    Placed call (update lock fl value) request used done' left' placed todo := by
  have hrequest : update lock fl value request = lock request := by
    apply update_of_ne
    rintro rfl
    exact hplaced.apart hmem
  obtain ⟨hnodup, hsubset, hapart, hheld', hothers, hnow, hplace, _⟩ := hplaced
  rw [← hlist] at hmem hnodup hsubset hapart hheld'
  refine ⟨hnodup, hsubset, hapart, ?_, ?_, ?_, ?_, ?_⟩
  · intro other hother
    by_cases hfl : other = fl
    · rw [hfl, update_self]
      exact hheld
    · rw [update_of_ne hfl]
      exact hheld' other hother
  · intro other hother hstart
    rw [update_of_ne ?_]
    · exact hothers other hother hstart
    rintro rfl
    apply hother
    apply hsubset
    simp only [mem_append] at hmem ⊢
    tauto
  · rw [hrequest]
    exact hnow
  · refine hplace.imp_right (And.imp_right ?_)
    rintro ⟨top, rfl, htop⟩
    refine ⟨top, rfl, ?_⟩
    rw [hrequest, update_of_ne ?_]
    · exact htop
    rintro rfl
    rw [append_assoc, singleton_append] at hnodup
    exact (nodup_cons.mp ((Perm.nodup_iff perm_middle).mp hnodup)).1 hmem
  · rw [hrequest]
    exact hpainting

theorem Placed.cutRight (hplaced : Placed call lock request used done left placed (fl :: todo))
    (hright : CutsRight (lock request) (lock fl)) :
    Placed call (update lock fl { lock fl with flStart := (lock request).flEnd + 1 }) request used
      done left placed (fl :: todo) := by
  have hnodup := (Perm.nodup_iff perm_middle).mp hplaced.nodup
  have hnot : fl ∉ done ++ left.toList ++ placed ++ todo := (nodup_cons.mp hnodup).1
  simp only [mem_append, not_or] at hnot
  apply hplaced.change rfl (by simp)
  · obtain ⟨hposix, howner, htype, hlower, hupper⟩ := hplaced.held fl (by simp)
    have hreach := hright.reach
    exact ⟨hposix, howner, htype, by change 0 ≤ (lock request).flEnd + 1; omega, hupper⟩
  · rw [segments_cons, segments_update hnot.1.1.1, segments_update hnot.1.1.2,
      segments_update hnot.2, update_self]
    exact hplaced.painting.cutRight hright.start hright.reach hright.stop

theorem Placed.cutLeft (hplaced : Placed call lock request used done (some fl) placed todo) :
    Placed call (update lock fl { lock fl with flEnd := (lock request).flStart - 1 }) request used
      (done ++ [fl]) none placed todo := by
  have hnodup := hplaced.nodup
  have hnot : fl ∉ done ∧ fl ∉ todo := by
    have hperm : (done ++ (some fl).toList ++ placed ++ todo).Perm
        (fl :: (done ++ placed ++ todo)) := by
      simp only [toList_some, append_assoc, singleton_append]
      exact perm_middle
    have hmem := (nodup_cons.mp (hperm.nodup_iff.mp hnodup)).1
    simp only [mem_append, not_or] at hmem
    exact ⟨hmem.1.1, hmem.2⟩
  apply hplaced.change (by simp) (by simp)
  · obtain ⟨hposix, howner, htype, hlower, hupper⟩ := hplaced.held fl (by simp)
    have hproper := hplaced.request_proper
    have hmax := hplaced.now.upper
    exact ⟨hposix, howner, htype, hlower, by change (lock request).flStart - 1 ≤ offsetMax; omega⟩
  · rw [segments_append, segments_update hnot.1, segments_update hnot.2, segments_cons, update_self]
    exact hplaced.painting.cutLeft

theorem Placed.split (hplaced : Placed call lock request used done none placed (fl :: todo))
    (hsplit : Splits (lock request) (lock fl)) (hfresh : copy ∉ call.own ++ used)
    (hne : copy ≠ request) (hsame : ∀ other, other ≠ copy → other ≠ fl → lock' other = lock other)
    (hcopy : lock' copy = { lock fl with flEnd := (lock request).flStart - 1 })
    (hfl : lock' fl = { lock fl with flStart := (lock request).flEnd + 1 }) :
    Placed call lock' request (copy :: used) (done ++ [copy]) none placed (fl :: todo) := by
  have hrequest : lock' request = lock request := by
    apply hsame request hne.symm
    rintro rfl
    exact hplaced.apart (by simp)
  have hproper := hplaced.request_proper
  obtain ⟨htype, hstop, hstart⟩ := hsplit
  obtain ⟨hposix, howner, hheldType, hlower, hupper⟩ := hplaced.held fl (by simp)
  obtain ⟨hnodup, hsubset, hapart, hheld, hothers, hnow, hplace, hpainting⟩ := hplaced
  simp only [toList_none, append_nil] at hnodup hsubset hapart hheld
  have hnot : copy ∉ done ++ placed ++ fl :: todo := fun hmem => hfresh (hsubset hmem)
  have hflNot := (nodup_cons.mp ((Perm.nodup_iff perm_middle).mp hnodup)).1
  have hlocks : ∀ other ∈ done ++ placed ++ todo, lock' other = lock other := by
    intro other hother
    apply hsame
    · rintro rfl
      apply hnot
      simp only [mem_append, mem_cons] at hother ⊢
      tauto
    · rintro rfl
      exact hflNot hother
  refine ⟨?_, ?_, ?_, ?_, ?_, ?_, ?_, ?_⟩
  · simp only [toList_none, append_nil, append_assoc, singleton_append]
    rw [append_assoc] at hnodup hnot
    exact (Perm.nodup_iff perm_middle).mpr (nodup_cons.mpr ⟨hnot, hnodup⟩)
  · intro other hother
    have hold := @hsubset other
    simp only [toList_none, append_nil, mem_append, mem_cons,
      not_mem_nil, or_false] at hother hold ⊢
    tauto
  · simp only [toList_none, append_nil, mem_append, mem_singleton, not_or] at hapart ⊢
    exact ⟨⟨hapart.1, hne.symm⟩, hapart.2⟩
  · intro other hother
    simp only [toList_none, append_nil, mem_append, mem_cons, not_mem_nil, or_false] at hother
    rcases hother with (hother | rfl) | rfl | hother
    · rw [hlocks other (by simp [hother])]
      exact hheld other (by simp [hother])
    · rw [hcopy]
      exact ⟨hposix, howner, hheldType, hlower,
        by change (lock request).flStart - 1 ≤ offsetMax; omega⟩
    · rw [hfl]
      exact ⟨hposix, howner, hheldType, by change 0 ≤ (lock request).flEnd + 1; omega, hupper⟩
    · rw [hlocks other (by simp [hother])]
      exact hheld other (by simp [hother])
  · intro other hother hstart
    have hfl : fl ∈ call.own ++ used := hsubset (by simp)
    rw [hsame other]
    · refine hothers other (fun hmem => hother ?_) hstart
      simp only [mem_append, mem_cons] at hmem ⊢
      tauto
    · rintro rfl
      simp at hother
    · rintro rfl
      simp only [mem_append, mem_cons] at hother hfl
      tauto
  · rw [hrequest]
    exact hnow
  · refine hplace.imp_right (And.imp_right ?_)
    rintro ⟨top, rfl, htop⟩
    exact ⟨top, rfl, by rw [hrequest, hlocks top (by simp)]; exact htop⟩
  · rw [hrequest, segments_append, segments_cons, segments_cons, hcopy, hfl,
      segments_congr fun other hmem => hlocks other (by simp [hmem]),
      @segments_congr _ _ _ todo fun other hmem => hlocks other (by simp [hmem])]
    exact hpainting.split hstart hstop htype.symm

/-! ## The new list -/

/-- What a call has made of the owner's locks: they are the list `own'` now, and
it stands for the map `map`. -/
structure Relisted (call : Call Owner) (lock : ℕ → FileLock Owner) (used own' : List ℕ)
    (map : ℤ → LockType → Prop) : Prop where
  nodup : own'.Nodup
  subset : own' ⊆ call.own ++ used
  held : ∀ fl ∈ own', Held (call.base call.start).flOwner (lock fl)
  others : ∀ other, other ∉ call.own ++ used → other ≠ call.start → lock other = call.base other
  ordered : Ordered (segments lock own')
  holds : ∀ point type, type ≠ .unlck →
    (Holds (segments lock own') point type ↔ map point type)

theorem Placed.relisted (hplaced : Placed call lock request used done none placed todo)
    (hclear : Clear lock request todo) :
    Relisted call lock used (done ++ placed ++ todo) call.target := by
  obtain ⟨hnodup, hsubset, _, hheld, hothers, hnow, hplace, hpainting⟩ := hplaced
  simp only [toList_none, append_nil] at hnodup hsubset hheld hpainting
  have hlater : ∀ later ∈ segments lock todo, (lock request).segment.Before later := by
    intro later hmem
    obtain ⟨fl, hfl, rfl⟩ := mem_segments.mp hmem
    exact hclear fl hfl
  rcases hplace with ⟨rfl, hunlck⟩ | ⟨htype, top, rfl, htop⟩
  · obtain ⟨hordered, hholds⟩ := hpainting.erase hlater
    rw [append_nil] at hnodup hsubset ⊢
    refine ⟨hnodup, hsubset, hheld, hothers, ?_, ?_⟩
    · rw [segments_append]
      exact hordered
    intro point type hne
    rw [segments_append]
    apply hholds
    change type ≠ (lock request).flType
    rw [hnow.type, hunlck]
    exact hne
  · obtain ⟨hordered, hholds⟩ := hpainting.insert hlater
    have hsegments : segments lock (done ++ [top] ++ todo) =
        segments lock done ++ (lock request).segment :: segments lock todo := by
      simp [htop]
    refine ⟨hnodup, hsubset, ?_, hothers, ?_, ?_⟩
    · intro other hother
      simp only [mem_append, mem_singleton] at hother
      rcases hother with (hother | rfl) | hother
      · exact hheld other (by simp [hother])
      · rw [htop]
        exact ⟨hnow.posix, hnow.owner, hnow.type ▸ htype, hnow.lower, hnow.upper⟩
      · exact hheld other (by simp [hother])
    · rw [hsegments]
      exact hordered
    · intro point type _
      rw [hsegments]
      exact hholds point type

section

variable (hscan : ScanRange call scan passed rest done placed todo) (hadded : scan.added = false)
include hscan hadded

theorem ScanRange.relisted :
    passed ++ rest = call.before ++ call.own ++ call.after ∧
      Relisted call scan.state.lock [] call.own (Holds (segments call.base call.own)) := by
  obtain ⟨rfl, _⟩ := hscan.place_of_not_added hadded
  have hkept := hscan.kept hadded
  have hlocks : ∀ fl ∈ call.own, scan.state.lock fl = call.base fl := by
    rw [← hkept]
    exact hscan.values
  have hsegments := segments_congr hlocks
  refine ⟨?_, call.nodup, by simp, ?_, ?_, ?_, ?_⟩
  · rw [hscan.passed_eq, hscan.rest_eq, ← hkept]
    simp
  · intro fl hfl
    rw [hlocks fl hfl]
    exact call.held fl hfl
  · intro other hother
    rw [append_nil] at hother
    exact hscan.others other hother
  · rw [← hkept]
    simpa using hscan.painting.ordered
  · intro point type _
    rw [hsegments]

theorem ScanRange.relisted_unlck (htype : (call.base call.start).flType = .unlck)
    (hclear : Clear scan.state.lock scan.request todo) :
    Relisted call scan.state.lock [] call.own call.target := by
  have hleft : scan.left = none := by
    by_contra hsome
    rw [hscan.marked hsome htype] at hadded
    exact absurd hadded (by simp)
  have hkept := hscan.kept hadded
  have hnow : scan.addedNow = true := by
    rw [Scan.addedNow, hscan.request.type, htype]
    simp
  have hplaced := hscan.toPlaced hnow
  obtain ⟨rfl, _⟩ := hscan.place_of_not_added hadded
  rw [hleft] at hplaced hkept
  have hrelisted := hplaced.relisted hclear
  rw [append_nil] at hrelisted
  rw [← hkept]
  simpa using hrelisted

end

/-! ## Cutting the neighbours -/

variable {inode : ℕ} {newFl newFl2 : Option ℕ} {news : List ℕ} {result : Outcome × LockState Owner}

theorem setList_lock (state : LockState Owner) (inode : ℕ) (list : List ℕ) :
    (setList state inode list).lock = state.lock := rfl

theorem Placed.relisted_cutLeft (hplaced : Placed call lock request used done left placed todo)
    (hclear : Clear lock request todo) {state : LockState Owner} (hlock : state.lock = lock) :
    Relisted call (Locks.cutLeft state request left).lock used
      (done ++ left.toList ++ placed ++ todo) call.target := by
  subst hlock
  cases left with
  | none =>
    have hrelisted := hplaced.relisted hclear
    simpa [Locks.cutLeft] using hrelisted
  | some cut =>
    have hne : ∀ other ∈ request :: todo, other ≠ cut := by
      rintro other hother rfl
      rcases mem_cons.mp hother with rfl | hother
      · exact hplaced.apart (by simp)
      · have hnodup := hplaced.nodup
        rw [nodup_append] at hnodup
        exact hnodup.2.2 other (by simp) other hother rfl
    rw [cutLeft_lock]
    refine hplaced.cutLeft.relisted fun fl hfl => ?_
    rw [update_of_ne (hne request (by simp)), update_of_ne (hne fl (by simp [hfl]))]
    exact hclear fl hfl

theorem splitLock_of_ne (hne : scan.left ≠ scan.right) : splitLock scan = none :=
  if_neg hne

theorem cutNeighbours_eq (hsplit : splitLock scan = none) (newFl2 : Option ℕ) :
    cutNeighbours scan inode newFl2 passed rest =
      Locks.cutLeft (Locks.cutRight (Locks.setList scan.state inode (passed ++ rest)) scan.request
        scan.right) scan.request scan.left := by
  simp [cutNeighbours, copySplit, hsplit]

theorem cutNeighbours_split (hsplit : splitLock scan = some fl) (hright : scan.right = some fl) :
    cutNeighbours scan inode (some copy) passed rest =
      Locks.cutLeft (Locks.cutRight
        (Locks.setList (setLock scan.state copy (scan.state.lock fl)) inode
          (passed ++ copy :: rest)) scan.request (some fl)) scan.request (some copy) := by
  simp [cutNeighbours, copySplit, hsplit, hright]

theorem Placed.cutNeighbours_apart
    (hplaced : Placed call scan.state.lock scan.request used done scan.left placed todo)
    (hright : scan.right = none) (hclear : Clear scan.state.lock scan.request todo) :
    (cutNeighbours scan inode newFl2 passed rest).iFlock =
        update scan.state.iFlock inode (passed ++ rest) ∧
      Relisted call (cutNeighbours scan inode newFl2 passed rest).lock used
        (done ++ scan.left.toList ++ placed ++ todo) call.target := by
  have hsplit : splitLock scan = none := by
    rw [splitLock, hright, ite_self]
  rw [cutNeighbours_eq hsplit, hright]
  refine ⟨?_, hplaced.relisted_cutLeft hclear rfl⟩
  rw [cutLeft_iFlock]
  rfl

theorem Placed.cutNeighbours_right
    (hplaced : Placed call scan.state.lock scan.request used done scan.left placed (fl :: todo))
    (hright : scan.right = some fl) (hcuts : CutsRight scan.wanted (scan.state.lock fl)) :
    (cutNeighbours scan inode newFl2 passed rest).iFlock =
        update scan.state.iFlock inode (passed ++ rest) ∧
      Relisted call (cutNeighbours scan inode newFl2 passed rest).lock used
        (done ++ scan.left.toList ++ placed ++ fl :: todo) call.target := by
  have hnodup := hplaced.nodup
  rw [nodup_append] at hnodup
  have hne : scan.left ≠ scan.right := by
    rw [hright]
    intro hleft
    exact hnodup.2.2 fl (by simp [hleft]) fl (by simp) rfl
  have hcut := hplaced.cutRight hcuts
  rw [cutNeighbours_eq (splitLock_of_ne hne), hright]
  refine ⟨?_, hcut.relisted_cutLeft (hcut.after_head ?_) (cutRight_lock _ _ _)⟩
  · rw [cutLeft_iFlock, cutRight_iFlock]
    rfl
  have hrequest : scan.request ≠ fl := by
    rintro heq
    exact hplaced.apart (by simp [heq])
  rw [update_of_ne hrequest, update_self]
  exact ⟨Int.lt_succ _, fun hsame => absurd hsame hcuts.type_ne⟩

theorem Placed.cutNeighbours_split
    (hplaced : Placed call scan.state.lock scan.request used done none placed (fl :: todo))
    (hleft : scan.left = some fl) (hright : scan.right = some fl)
    (hsplits : Splits scan.wanted (scan.state.lock fl)) (hfresh : copy ∉ call.own ++ used)
    (hne : copy ≠ scan.request) :
    (cutNeighbours scan inode (some copy) passed rest).iFlock =
        update scan.state.iFlock inode (passed ++ copy :: rest) ∧
      Relisted call (cutNeighbours scan inode (some copy) passed rest).lock (copy :: used)
        (done ++ [copy] ++ placed ++ fl :: todo) call.target := by
  have hsplit : splitLock scan = some fl := by
    rw [splitLock, hleft, hright, if_pos rfl]
  have hflCopy : fl ≠ copy := by
    rintro rfl
    exact hfresh (hplaced.subset (by simp))
  have hflRequest : scan.request ≠ fl := by
    intro heq
    exact hplaced.apart (by simp [heq])
  rw [Locks.cutNeighbours_split hsplit hright]
  refine ⟨?_, ?_⟩
  · rw [cutLeft_iFlock, cutRight_iFlock]
    rfl
  have hlock : (Locks.cutLeft (Locks.cutRight
      (Locks.setList (setLock scan.state copy (scan.state.lock fl)) inode
        (passed ++ copy :: rest)) scan.request (some fl)) scan.request (some copy)).lock =
      update (update (update scan.state.lock copy (scan.state.lock fl)) fl
          { scan.state.lock fl with flStart := scan.wanted.flEnd + 1 }) copy
        { scan.state.lock fl with flEnd := scan.wanted.flStart - 1 } := by
    rw [cutLeft_lock, cutRight_lock, setList_lock, update_of_ne hflRequest,
      update_of_ne hflCopy.symm, setLock_lock_self, setLock_lock_of_ne _ hflCopy,
      setLock_lock_of_ne _ hne.symm]
    rfl
  have hcut := hplaced.split hsplits hfresh hne (fun other hcopy hfl => (congrFun hlock other).trans
      (by rw [update_of_ne hcopy, update_of_ne hfl, update_of_ne hcopy]))
    ((congrFun hlock copy).trans (update_self _ _ _))
    ((congrFun hlock fl).trans (by rw [update_of_ne hflCopy, update_self]))
  have hrelisted := hcut.relisted (hcut.after_head ?_)
  · simpa using hrelisted
  rw [hlock, update_of_ne hne.symm, update_of_ne hflRequest, update_of_ne hne.symm,
    update_of_ne hflCopy, update_self]
  exact ⟨Int.lt_succ _, fun hsame => absurd hsame hsplits.type_ne⟩

/-! ## `__posix_lock_file` after the loop -/

/-- The request as it is put on the list: the loop has done it, or the first new
lock is a copy of it. -/
inductive Placing (state : LockState Owner) (request : ℕ) (newFl : Option ℕ) :
    Bool → LockState Owner → List ℕ → Prop
  | kept : Placing state request newFl true state []
  | inserted {new : ℕ} (htype : (state.lock request).flType ≠ .unlck)
      (hnew : newFl = some new) :
      Placing state request newFl false (setLock state new (state.lock request)) [new]

section

variable (scan : Scan Owner) (inode : ℕ) (newFl newFl2 : Option ℕ) (passed rest : List ℕ)

/-- What `finishLock` can return. -/
inductive FinishCase : Outcome × LockState Owner → Prop
  | noCopy (hsplit : (splitLock scan).isSome = true) :
      FinishCase (.enolck, setList scan.state inode (passed ++ rest))
  | noNew (hadded : scan.added = false) :
      FinishCase (.enolck, setList scan.state inode (passed ++ rest))
  | nothing {outcome : Outcome} (hadded : scan.added = false)
      (htype : scan.wanted.flType = .unlck) :
      FinishCase (outcome, setList scan.state inode (passed ++ rest))
  | cut {state' : LockState Owner} {news : List ℕ}
      (hplacing : Placing scan.state scan.request newFl scan.added state' news)
      (hsplit : (splitLock scan).isSome = true → newFl2.isSome = true) : FinishCase
        (.done, cutNeighbours { scan with state := state' } inode newFl2 passed (news ++ rest))

theorem finishCase_finishLock : FinishCase scan inode newFl newFl2 passed rest
    (finishLock scan inode newFl newFl2 passed rest) := by
  have hcopy : ¬ ((splitLock scan).isSome && newFl2.isNone) = true →
      (splitLock scan).isSome = true → newFl2.isSome = true := by
    cases newFl2 <;> simp
  simp only [finishLock]
  split_ifs with hsplit hadded htype
  · rw [Bool.and_eq_true] at hsplit
    exact .noCopy hsplit.1
  · have hplacing : Placing scan.state scan.request newFl scan.added scan.state [] := by
      rw [hadded]
      exact .kept
    exact .cut hplacing (hcopy hsplit)
  · exact .nothing (Bool.eq_false_of_not_eq_true hadded) htype
  · exact .nothing (Bool.eq_false_of_not_eq_true hadded) htype
  rw [Bool.not_eq_true] at hadded
  cases newFl with
  | none => exact .noNew hadded
  | some new =>
    have hplacing : Placing scan.state scan.request (some new) scan.added
        (setLock scan.state new scan.wanted) [new] := by
      rw [hadded]
      exact .inserted htype rfl
    exact .cut hplacing (hcopy hsplit)

end

/-- New locks are neither locks of the owner nor the request. -/
def Call.Fresh (call : Call Owner) (new : Option ℕ) : Prop :=
  ∀ fl ∈ new, fl ∉ call.own ∧ fl ≠ call.start

theorem ScanRange.placing (hscan : ScanRange call scan passed rest done placed todo) {added : Bool}
    {state' : LockState Owner} (hplacing : Placing scan.state scan.request newFl added state' news)
    (hadded : added = true → scan.addedNow = true) (hnot : added = false → scan.added = false)
    (hfresh : call.Fresh newFl) :
    Placed call state'.lock scan.request news done scan.left (placed ++ news) todo ∧
      state'.iFlock = scan.state.iFlock ∧ news ⊆ newFl.toList ∧
      ∀ other ∈ scan.request :: call.own, state'.lock other = scan.state.lock other := by
  cases hplacing with
  | kept =>
    rw [append_nil]
    exact ⟨hscan.toPlaced (hadded rfl), rfl, by simp, fun _ _ => rfl⟩
  | inserted htype hnew =>
    rename_i new
    have hno := hnot rfl
    obtain ⟨rfl, hrequest⟩ := hscan.place_of_not_added hno
    obtain ⟨hown, hstart⟩ := hfresh new hnew
    rw [hscan.request.type] at htype
    refine ⟨hscan.toPlaced_new hno htype hown hstart, rfl, by simp [hnew], ?_⟩
    intro other hother
    apply setLock_lock_of_ne
    rintro rfl
    rcases mem_cons.mp hother with hother | hother
    · exact hstart (hother.trans hrequest)
    · exact hown hother

/-- What the call has made of the list: done means painted over, and anything
else leaves the map as it was. -/
def Call.Finished (call : Call Owner) (inode : ℕ) (lists : ℕ → List ℕ)
    (newFl newFl2 : Option ℕ) (result : Outcome × LockState Owner) : Prop :=
  ∃ used own', used ⊆ newFl.toList ++ newFl2.toList ∧
    result.2.iFlock = Function.update lists inode (call.before ++ own' ++ call.after) ∧
    Relisted call result.2.lock used own'
      (if result.1 = .done then call.target else Holds (segments call.base call.own))

section

variable (hscan : ScanRange call scan passed rest done placed todo)
include hscan

theorem ScanRange.finished_enolck (hadded : scan.added = false) :
    call.Finished inode scan.state.iFlock newFl newFl2
      (.enolck, setList scan.state inode (passed ++ rest)) := by
  obtain ⟨hlist, hrelisted⟩ := hscan.relisted hadded
  refine ⟨[], call.own, by simp, by rw [← hlist]; rfl, ?_⟩
  rw [if_neg (by simp)]
  exact hrelisted

theorem ScanRange.finished_unlck (hadded : scan.added = false)
    (htype : (call.base call.start).flType = .unlck)
    (hclear : Clear scan.state.lock scan.request todo) (outcome : Outcome) :
    call.Finished inode scan.state.iFlock newFl newFl2
      (outcome, setList scan.state inode (passed ++ rest)) := by
  obtain ⟨hlist, hrelisted⟩ := hscan.relisted hadded
  refine ⟨[], call.own, by simp, by rw [← hlist]; rfl, ?_⟩
  split_ifs
  · exact hscan.relisted_unlck hadded htype hclear
  · exact hrelisted

theorem ScanRange.finish_apart (hclear : Clear scan.state.lock scan.request todo)
    (hnew : call.Fresh newFl) (hcase : FinishCase scan inode newFl newFl2 passed rest result) :
    call.Finished inode scan.state.iFlock newFl newFl2 result := by
  cases hcase with
  | noCopy hsplit => simp [splitLock, hscan.right] at hsplit
  | noNew hadded => exact hscan.finished_enolck hadded
  | nothing hadded htype =>
    rw [hscan.request.type] at htype
    exact hscan.finished_unlck hadded htype hclear _
  | cut hplacing hsplit =>
    rename_i state' news
    obtain ⟨hplaced, hlists, hsubset, hsame⟩ := hscan.placing hplacing
      (fun hyes => by rw [Scan.addedNow, hyes, Bool.true_or]) id hnew
    obtain ⟨hlist, hrelisted⟩ := @Placed.cutNeighbours_apart _ _
      { scan with state := state' } passed (news ++ rest) _ _ _ _ inode newFl2 hplaced
      hscan.right (by
        intro fl hfl
        rw [hsame scan.request (by simp), hsame fl (by simp [hscan.subset, hfl])]
        exact hclear fl hfl)
    refine ⟨news, _, fun _ hmem => mem_append_left _ (hsubset hmem), ?_, hrelisted⟩
    rw [hlist, hlists, hscan.passed_eq, hscan.rest_eq]
    simp

end

section

variable (hscan : ScanRange call scan passed rest done placed (fl :: todo))
  (hnew : call.Fresh newFl)
include hscan hnew

theorem ScanRange.finish_right (hright : CutsRight scan.wanted (scan.state.lock fl))
    (hcase : FinishCase { scan with added := scan.addedNow, right := some fl } inode newFl newFl2
      passed rest result) : call.Finished inode scan.state.iFlock newFl newFl2 result := by
  have hno : scan.addedNow = false → scan.added = false := fun hnow =>
    (Scan.addedNow_eq_false.mp hnow).1
  cases hcase with
  | noCopy hsplit =>
    have hne : scan.left ≠ some fl := by
      intro hleft
      apply hscan.fl_not_mem
      simp [hleft]
    simp [splitLock, hne] at hsplit
  | noNew hadded => exact hscan.finished_enolck (hno hadded)
  | nothing hnow hunlck => exact absurd hunlck (Scan.addedNow_eq_false.mp hnow).2
  | cut hplacing hsplit =>
    rename_i state' news
    obtain ⟨hplaced, hlists, hsubset, hsame⟩ := hscan.placing hplacing id hno hnew
    rw [Scan.wanted, ← hsame scan.request (by simp), ← hsame fl (by simp [hscan.fl_mem_own])]
      at hright
    obtain ⟨hlist, hrelisted⟩ := @Placed.cutNeighbours_right _ _
      { scan with state := state', added := scan.addedNow, right := some fl } passed
      (news ++ rest) _ _ _ _ _ inode newFl2 hplaced rfl hright
    refine ⟨news, _, fun _ hmem => mem_append_left _ (hsubset hmem), ?_, hrelisted⟩
    rw [hlist, hlists, hscan.passed_eq, hscan.rest_eq]
    simp

theorem ScanRange.finish_split (hsplits : Splits scan.wanted (scan.state.lock fl))
    (hcopy : call.Fresh newFl2) (hdistinct : ∀ fl ∈ newFl, fl ∉ newFl2)
    (hcase : FinishCase { scan with added := scan.addedNow, left := some fl, right := some fl }
      inode newFl newFl2 passed rest result) :
    call.Finished inode scan.state.iFlock newFl newFl2 result := by
  obtain ⟨hleft, hadded, rfl⟩ := hscan.untouched hsplits.start
  cases hcase with
  | noCopy _ | noNew _ => exact hscan.finished_enolck hadded
  | nothing hnow hunlck => exact absurd hunlck (Scan.addedNow_eq_false.mp hnow).2
  | cut hplacing hsplit =>
    rename_i state' news
    obtain ⟨copy, rfl⟩ := isSome_iff_exists.mp (hsplit (by simp [splitLock]))
    obtain ⟨hplaced, hlists, hsubset, hsame⟩ :=
      hscan.placing hplacing id (fun _ => hadded) hnew
    obtain ⟨hcopyOwn, hcopyStart⟩ := hcopy copy rfl
    have hfresh : copy ∉ call.own ++ news := by
      rw [mem_append, not_or]
      refine ⟨hcopyOwn, fun hmem => ?_⟩
      exact hdistinct copy (mem_toList.mp (hsubset hmem)) rfl
    have hne : copy ≠ scan.request := by
      rw [(hscan.place_of_not_added hadded).2]
      exact hcopyStart
    rw [hleft] at hplaced
    rw [Scan.wanted, ← hsame scan.request (by simp), ← hsame fl (by simp [hscan.fl_mem_own])]
      at hsplits
    obtain ⟨hlist, hrelisted⟩ := @Placed.cutNeighbours_split _ _
      { scan with state := state', added := scan.addedNow, left := some fl, right := some fl }
      passed (news ++ rest) _ _ _ _ _ copy inode hplaced rfl rfl hsplits hfresh hne
    refine ⟨copy :: news, _, ?_, ?_, hrelisted⟩
    · intro other hother
      rcases mem_cons.mp hother with rfl | hother
      · simp
      · exact mem_append_left _ (hsubset hother)
    · rw [hlist, hlists, hscan.passed_eq, hscan.rest_eq, hleft]
      simp

end

/-- For every way out of the loop and every outcome of the allocations. -/
theorem ScanExit.finishLock (hexit : ScanExit call scan passed rest) (hnew : call.Fresh newFl)
    (hcopy : call.Fresh newFl2) (hdistinct : ∀ fl ∈ newFl, fl ∉ newFl2) :
    call.Finished inode scan.state.iFlock newFl newFl2
      (finishLock scan inode newFl newFl2 passed rest) := by
  have hcase := finishCase_finishLock scan inode newFl newFl2 passed rest
  cases hexit with
  | apart hscan hclear => exact hscan.finish_apart hclear hnew hcase
  | right hscan hright => exact hscan.finish_right hnew hright hcase
  | split hscan hsplits => exact hscan.finish_split hnew hsplits hcopy hdistinct hcase

end KernelM5040.Locks
