import KernelM5040.Net.IpFragment

/-!
# Reassembled datagrams are exact

The fragments of a queue lie side by side without overlap, each one a part of a
fragment that was received, in its place; `meat` counts their bytes.  When that
count reaches the length of the datagram there is no gap.
-/

namespace KernelM5040.IpFragment

open SkBuff Prod Option List Tiling

/-! ### Buffers -/

theorem SkBuff.length_payload (skb : SkBuff) : skb.payload.length = skb.len :=
  length_append

variable {memory : Bool} {skb result : SkBuff} {length : ℕ}

theorem pskbPull_some (hpull : pskbPull memory skb length = some result) :
    length ≤ skb.len ∧ result.payload = skb.payload.drop length ∧
      result.pulled = skb.pulled ++ skb.payload.take length ∧ result.hdrlen = skb.hdrlen ∧
      result.id = skb.id := by
  unfold pskbPull at hpull
  split_ifs at hpull with hrefused
  obtain rfl := some.inj hpull
  rw [Bool.or_eq_true, decide_eq_true_iff, not_or, not_lt] at hrefused
  exact ⟨hrefused.1, drop_append.symm, rfl, rfl, rfl⟩

theorem pskbPull_len (hpull : pskbPull memory skb length = some result) :
    result.len = skb.len - length := by
  rw [← length_payload, (pskbPull_some hpull).2.1, length_drop, length_payload]

theorem pskbTrimRcsum_some (htrim : pskbTrimRcsum memory skb length = some result) :
    result.payload = skb.payload.take length ∧ result.pulled = skb.pulled ∧
      result.hdrlen = skb.hdrlen ∧ result.id = skb.id := by
  unfold pskbTrimRcsum at htrim
  split_ifs at htrim with hlong hrefused
  · obtain rfl := some.inj htrim
    refine ⟨?_, rfl, rfl, rfl⟩
    rw [take_of_length_le]
    rw [length_payload]
    exact hlong
  · obtain rfl := some.inj htrim
    exact ⟨take_append.symm, rfl, rfl, rfl⟩

/-! ### Where the bytes come from -/

/-- A buffer holds a part of a fragment that was received, at the place the
fragment gives it; what was cut off in front has been pulled. -/
def Origin (received : List Fragment) (skb : SkBuff) : Prop :=
  ∃ fragment ∈ received, ∃ skipped,
    skb.offset = fragment.offset + skipped ∧ skb.hdrlen = fragment.header.length ∧
      skb.pulled = fragment.header ++ fragment.payload.take skipped ∧
      skb.payload <+: fragment.payload.drop skipped

variable {received more : List Fragment}

theorem Origin.mono (horigin : Origin received skb) (hsubset : received ⊆ more) :
    Origin more skb := by
  obtain ⟨fragment, hmem, hrest⟩ := horigin
  exact ⟨fragment, hsubset hmem, hrest⟩

variable {offset stop : ℕ}

/-- Pulling moves the place of a buffer by as much as it takes off. -/
theorem Origin.pull (horigin : Origin received { skb with offset := offset })
    (hpull : pskbPull memory skb length = some result) :
    Origin received { result with offset := offset + length } := by
  obtain ⟨fragment, hmem, skipped, hoffset, hhdrlen, hpulled, hpayload⟩ := horigin
  change skb.pulled = _ at hpulled
  change skb.payload <+: _ at hpayload
  obtain ⟨hle, hresult, hresultPulled, hresultHdrlen, -⟩ := pskbPull_some hpull
  have htake : skb.payload.take length = (fragment.payload.drop skipped).take length := by
    obtain ⟨rest, hrest⟩ := hpayload
    rw [← hrest, take_append_of_le_length]
    rw [length_payload]
    exact hle
  refine ⟨fragment, hmem, skipped + length, ?_, ?_, ?_, ?_⟩
  · simp only at hoffset ⊢
    omega
  · exact hresultHdrlen.trans hhdrlen
  · change result.pulled = _
    rw [hresultPulled, hpulled, htake, append_assoc, take_add]
  · change result.payload <+: _
    rw [hresult, ← drop_drop]
    exact hpayload.drop length

/-- A received fragment without its header, cut to some length. -/
theorem origin_received {fragment : Fragment} {pull trim : Bool} (hmem : fragment ∈ received)
    (hpull : pskbPull pull fragment.skb fragment.skb.hdrlen = some skb)
    (htrim : pskbTrimRcsum trim skb length = some result) :
    Origin received { result with offset := fragment.offset } := by
  obtain ⟨-, hpayload, hpulled, hhdrlen, -⟩ := pskbPull_some hpull
  obtain ⟨hresult, hresultPulled, hresultHdrlen, -⟩ := pskbTrimRcsum_some htrim
  have hall : fragment.skb.payload = fragment.header ++ fragment.payload := by
    simp [SkBuff.payload, Fragment.skb, Fragment.payload]
  have hheader : fragment.skb.hdrlen = fragment.header.length := rfl
  rw [hall, hheader] at hpayload hpulled
  refine ⟨fragment, hmem, 0, rfl, hresultHdrlen.trans hhdrlen, ?_, ?_⟩
  · change result.pulled = _
    rw [hresultPulled, hpulled]
    simp [Fragment.skb]
  · change result.payload <+: _
    rw [hresult, hpayload]
    simp only [drop_left, drop_zero]
    exact take_prefix _ _

/-! ### The queue -/

/-- The bytes of a list of buffers. -/
def total (fragments : List SkBuff) : ℕ := (fragments.map SkBuff.len).sum

theorem total_append (front back : List SkBuff) :
    total (front ++ back) = total front + total back := by
  simp [total]

theorem total_cons (skb : SkBuff) (fragments : List SkBuff) :
    total (skb :: fragments) = skb.len + total fragments := by
  simp [total]

/-- What holds of a queue between calls. -/
structure Consistent (received : List Fragment) (q : Ipq) : Prop where
  arranged : Arranged SkBuff.offset SkBuff.len 0 q.fragments q.len
  meat : q.meat = total q.fragments
  origin : ∀ skb ∈ q.fragments, Origin received skb

/-- The fragments behind, after the loop: they start after the new fragment's
end if there was memory, and `meat` has lost what they have. -/
structure Eaten (received : List Fragment) (low high stop : ℕ) (behind : List SkBuff) (meat : ℤ)
    (result : List SkBuff × ℤ × Bool) : Prop where
  arranged : Arranged SkBuff.offset SkBuff.len (if result.2.2 then stop else low) result.1 high
  meat : result.2.1 - total result.1 = meat - total behind
  origin : ∀ skb ∈ result.1, Origin received skb

theorem eaten_eatOverlaps {received : List Fragment} {memory : Bool} {low high stop : ℕ}
    {behind : List SkBuff} (harranged : Arranged SkBuff.offset len low behind high)
    (hstop : stop ≤ high) (horigin : ∀ skb ∈ behind, Origin received skb) (meat : ℤ) :
    Eaten received low high stop behind meat (eatOverlaps memory stop behind meat) := by
  induction behind generalizing low meat with
  | nil => exact ⟨hstop, rfl, horigin⟩
  | cons next rest ih =>
    obtain ⟨hlow, hlength, hrest⟩ := harranged
    obtain ⟨hnext, hothers⟩ := forall_mem_cons.mp horigin
    simp only [eatOverlaps]
    split_ifs with hoverlaps hpartial
    · cases hpull : pskbPull memory next (stop - next.offset) with
      | none => exact ⟨⟨hlow, hlength, hrest⟩, rfl, horigin⟩
      | some pulled =>
        have hlen := pskbPull_len hpull
        have hend : next.offset + (stop - next.offset) + pulled.len =
            next.offset + next.len := by omega
        refine ⟨⟨?_, ?_, ?_⟩, ?_, ?_⟩
        · simp only [if_true]
          omega
        · change 0 < pulled.len
          omega
        · change Arranged _ _ (next.offset + (stop - next.offset) + pulled.len) rest high
          rwa [hend]
        · simp only [total_cons]
          change meat - _ - ((pulled.len + total rest : ℕ) : ℤ) = _
          omega
        · exact forall_mem_cons.mpr ⟨hnext.pull hpull, hothers⟩
    · obtain ⟨hresult, hmeat, hresultOrigin⟩ := ih hrest hothers (meat - next.len)
      refine ⟨?_, ?_, hresultOrigin⟩
      · refine hresult.low_mono ?_
        split_ifs
        · exact le_rfl
        · omega
      · rw [hmeat, total_cons]
        omega
    · refine ⟨⟨?_, hlength, hrest⟩, rfl, horigin⟩
      simp only [if_true]
      omega

/-- The new fragment starts after the end of those in front of it. -/
theorem pullOverlap_ok {front : List SkBuff} {start : ℕ} (hlen : skb.len = stop - offset)
    (hstop : offset < stop) (horigin : Origin received { skb with offset := offset })
    (hpull : pullOverlap memory front.getLast? skb offset stop = .ok (result, start)) :
    reach SkBuff.offset len 0 front ≤ start ∧ start < stop ∧
      result.len = stop - start ∧ result.id = skb.id ∧
      Origin received { result with offset := start } := by
  unfold pullOverlap at hpull
  unfold reach
  cases hprev : front.getLast? with
  | none =>
    rw [hprev] at hpull
    obtain ⟨rfl, rfl⟩ := mk.inj (Except.ok.inj hpull)
    exact ⟨Nat.zero_le _, hstop, hlen, rfl, horigin⟩
  | some prev =>
    rw [hprev] at hpull
    simp only at hpull ⊢
    split_ifs at hpull with hnone hinside
    · obtain ⟨rfl, rfl⟩ := mk.inj (Except.ok.inj hpull)
      exact ⟨by omega, hstop, hlen, rfl, horigin⟩
    cases hresult : pskbPull memory skb (prev.offset + prev.len - offset) with
    | none =>
      rw [hresult] at hpull
      cases hpull
    | some pulled =>
      rw [hresult] at hpull
      obtain ⟨rfl, rfl⟩ := mk.inj (Except.ok.inj hpull)
      have hpulledLen := pskbPull_len hresult
      exact ⟨by omega, by omega, by omega, (pskbPull_some hresult).2.2.2.2, horigin.pull hresult⟩

/-- What a call leaves behind: the queue stays consistent, and it is reassembled
only when it is full, around the fragment that has just come in. -/
structure Advanced (received : List Fragment) (id : ℕ) (result : Ipq × Queued) : Prop where
  consistent : Consistent received result.1
  full : ∀ position, result.2 = .reassemble position → result.1.meat = result.1.len ∧
    result.1.fragments[position]?.map SkBuff.id = some id

variable {q : Ipq}

theorem Consistent.advanced_error (hconsistent : Consistent received q) (id : ℕ) (err : Errno) :
    Advanced received id (q, .error err) :=
  ⟨hconsistent, nofun⟩

variable {call : Call}

theorem recordEnd_some {result : Ipq} {more : Bool} {final : ℕ}
    (hrecord : recordEnd q more stop = some (result, final)) (hoffset : offset ≤ stop)
    (haligned : 8 ∣ offset) :
    offset ≤ final ∧ final ≤ stop ∧ final ≤ result.len ∧ q.len ≤ result.len ∧
      result.fragments = q.fragments ∧ result.meat = q.meat := by
  unfold recordEnd at hrecord
  cases more with
  | false =>
    simp only [Bool.not_false, if_true] at hrecord
    split_ifs at hrecord with hrefused
    obtain ⟨rfl, rfl⟩ := mk.inj (some.inj hrecord)
    rw [Bool.or_eq_true, decide_eq_true_iff, not_or, not_lt] at hrefused
    exact ⟨hoffset, le_rfl, le_rfl, hrefused.1, rfl, rfl⟩
  | true =>
    simp only [Bool.not_true, Bool.false_eq_true, if_false] at hrecord
    split_ifs at hrecord with hlonger hlast
    · obtain ⟨rfl, rfl⟩ := mk.inj (some.inj hrecord)
      exact ⟨by omega, Nat.sub_le _ _, le_rfl, hlonger.le, rfl, rfl⟩
    · obtain ⟨rfl, rfl⟩ := mk.inj (some.inj hrecord)
      exact ⟨by omega, Nat.sub_le _ _, not_lt.mp hlonger, le_rfl, rfl, rfl⟩

theorem Fragment.offset_aligned (fragment : Fragment) : 8 ∣ fragment.offset := by
  rw [Fragment.offset, Nat.shiftLeft_eq]
  exact Dvd.intro_left _ rfl

theorem consistent_empty (received : List Fragment) (hfragments : q.fragments = [])
    (hmeat : q.meat = 0) : Consistent received q := by
  constructor
  · rw [hfragments]
    exact Nat.zero_le _
  · rw [hfragments, hmeat]
    rfl
  · simp [hfragments]

section

variable (hconsistent : Consistent received q)
include hconsistent

theorem Consistent.insertFragment (hlen : skb.len = stop - offset) (hoffset : offset < stop)
    (hstop : stop ≤ q.len) (horigin : Origin received { skb with offset := offset }) :
    Advanced received skb.id (insertFragment q call skb offset stop) := by
  have hsplit : q.fragments = (q.fragments.takeWhile fun next => next.offset < offset) ++
      q.fragments.dropWhile fun next => next.offset < offset :=
    takeWhile_append_dropWhile.symm
  have hmeat := hconsistent.meat
  have harranged := hconsistent.arranged
  have horigins := hconsistent.origin
  unfold IpFragment.insertFragment
  simp only
  generalize (q.fragments.takeWhile fun next => next.offset < offset) = front at hsplit ⊢
  generalize (q.fragments.dropWhile fun next => next.offset < offset) = behind at hsplit ⊢
  rw [hsplit] at hmeat harranged horigins
  rw [total_append] at hmeat
  obtain ⟨hfront, hbehind⟩ := harranged.split
  obtain ⟨horiginFront, horiginBehind⟩ := forall_mem_append.mp horigins
  cases hpull : pullOverlap call.pullFront front.getLast? skb offset stop with
  | error err => exact hconsistent.advanced_error _ err
  | ok pulled =>
    obtain ⟨skb, start⟩ := pulled
    obtain ⟨hreach, hstart, hskbLen, hid, hskbOrigin⟩ :=
      pullOverlap_ok hlen hoffset horigin hpull
    have heaten := @eaten_eatOverlaps received call.pullNext _ _ stop behind hbehind hstop
      horiginBehind q.meat
    generalize eatOverlaps call.pullNext stop behind q.meat = eaten at heaten
    obtain ⟨behind, meat, enough⟩ := eaten
    obtain ⟨hrest, hrestMeat, hrestOrigin⟩ := heaten
    cases enough with
    | false =>
      simp only at hrestMeat
      refine Consistent.advanced_error ⟨?_, ?_, ?_⟩ _ .enomem
      · exact arranged_append.mpr ⟨_, hfront, hrest⟩
      · simp only [total_append]
        omega
      · exact forall_mem_append.mpr ⟨horiginFront, hrestOrigin⟩
    | true =>
      simp only at hrestMeat ⊢
      have hresult : Consistent received
          { q with
            fragments := front ++ { skb with offset := start } :: behind
            meat := meat + skb.len
            firstIn := q.firstIn || start == 0 } := by
        have hend : start + skb.len = stop := by omega
        refine ⟨?_, ?_, ?_⟩
        · refine arranged_append.mpr ⟨_, hfront, hreach, ?_, ?_⟩
          · change 0 < skb.len
            omega
          · change Arranged _ _ (start + skb.len) behind q.len
            rw [hend]
            exact hrest
        · simp only [total_append, total_cons]
          change meat + skb.len = ((total front + (skb.len + total behind) : ℕ) : ℤ)
          omega
        · exact forall_mem_append.mpr ⟨horiginFront, forall_mem_cons.mpr ⟨hskbOrigin, hrestOrigin⟩⟩
      split_ifs with hfull
      · refine ⟨hresult, ?_⟩
        intro position hposition
        obtain rfl := Queued.reassemble.inj hposition
        rw [Bool.and_eq_true, beq_iff_eq] at hfull
        refine ⟨hfull.2, ?_⟩
        simp [hid]
      · exact ⟨hresult, nofun⟩

theorem Consistent.queueOpen (hreceived : call.fragment ∈ received) :
    Advanced received call.fragment.id (queueOpen q call) := by
  have hlen : call.fragment.skb.len = call.fragment.skb.hdrlen + call.fragment.payload.length := by
    simp [len, Fragment.skb, Fragment.payload, add_assoc]
  unfold IpFragment.queueOpen
  simp only
  cases hrecord : recordEnd q call.fragment.more
      (call.fragment.offset + call.fragment.skb.len - call.fragment.skb.hdrlen) with
  | none => exact hconsistent.advanced_error _ _
  | some recorded =>
    obtain ⟨q1, stop⟩ := recorded
    obtain ⟨hoffset, hstop, hinside, hgrown, hfragments, hmeat⟩ :=
      recordEnd_some hrecord (by omega) call.fragment.offset_aligned
    have hrecorded : Consistent received q1 := by
      constructor
      · rw [hfragments]
        exact hconsistent.arranged.high_mono hgrown
      · rw [hfragments, hmeat]
        exact hconsistent.meat
      · rw [hfragments]
        exact hconsistent.origin
    simp only
    split_ifs with hempty
    · exact hrecorded.advanced_error _ _
    cases hpull : pskbPull call.pullHeader call.fragment.skb call.fragment.skb.hdrlen with
    | none => exact hrecorded.advanced_error _ _
    | some skb =>
      simp only
      cases htrim : pskbTrimRcsum call.trim skb (stop - call.fragment.offset) with
      | none => exact hrecorded.advanced_error _ _
      | some trimmed =>
        have hskbLen := pskbPull_len hpull
        have htrimmedLen : trimmed.len = stop - call.fragment.offset := by
          rw [← length_payload, (pskbTrimRcsum_some htrim).1, length_take, length_payload]
          omega
        have hid : trimmed.id = call.fragment.id :=
          (pskbTrimRcsum_some htrim).2.2.2.trans (pskbPull_some hpull).2.2.2.2
        rw [← hid]
        exact hrecorded.insertFragment htrimmedLen (by omega) hinside
          (origin_received hreceived hpull htrim)

theorem Consistent.close : Consistent received { q with complete := true } :=
  ⟨hconsistent.arranged, hconsistent.meat, hconsistent.origin⟩

theorem Consistent.ipFragQueue (hreceived : call.fragment ∈ received) :
    Advanced received call.fragment.id (ipFragQueue q call) := by
  have htooFar : Consistent received
      (if call.fragComplete then (q, false) else ipFragTooFar q call).1 := by
    split_ifs
    · exact hconsistent
    unfold ipFragTooFar
    split
    · exact hconsistent
    · split_ifs
      · exact hconsistent
      · exact ⟨hconsistent.arranged, hconsistent.meat, hconsistent.origin⟩
  unfold IpFragment.ipFragQueue
  generalize (if call.fragComplete then (q, false) else ipFragTooFar q call) = answer at htooFar
  obtain ⟨q1, tooFar⟩ := answer
  by_cases hcomplete : q.complete = true
  · rw [if_pos hcomplete]
    exact hconsistent.advanced_error _ _
  rw [if_neg hcomplete]
  cases tooFar with
  | false => exact htooFar.queueOpen hreceived
  | true =>
    split_ifs
    · exact (consistent_empty received rfl rfl).queueOpen hreceived
    · exact htooFar.close.advanced_error _ .etimedout

end

/-! ### The datagram -/

theorem rehead_map {Value : Type*} (clone : ℕ) (fragments : List SkBuff) (position : ℕ)
    (value : SkBuff → Value) (hvalue : ∀ skb id, value { skb with id := id } = value skb) :
    (rehead clone fragments position).map value = fragments.map value := by
  unfold rehead
  split
  · next head first rest hhead =>
    have hset : ((first :: rest).set position (skbClone clone head)).map value =
        (first :: rest).map value := by
      apply ext_getElem?
      intro index
      rw [getElem?_map, getElem?_map, getElem?_set]
      split_ifs with hindex hbound
      · rw [← hindex, hhead, map_some, map_some, skbClone, hvalue]
      · obtain ⟨hlt, -⟩ := List.getElem?_eq_some_iff.mp hhead
        exact absurd hlt hbound
      · rfl
    rw [map_cons, map_tail, hset, skbMorph, hvalue]
    rfl
  · rfl

theorem Consistent.rehead (hconsistent : Consistent received q) (clone position : ℕ) :
    Consistent received { q with fragments := rehead clone q.fragments position } := by
  refine ⟨?_, ?_, ?_⟩
  · have hplaces := rehead_map clone q.fragments position (fun skb => (skb.offset, skb.len))
      fun _ _ => rfl
    have harranged := (@arranged_map _ fst snd 0 q.len _
      (fun skb : SkBuff => (skb.offset, skb.len)) q.fragments).mpr hconsistent.arranged
    rw [← hplaces] at harranged
    exact arranged_map.mp harranged
  · have hlengths := rehead_map clone q.fragments position len fun _ _ => rfl
    simp only [total, hlengths]
    exact hconsistent.meat
  · have horigins := rehead_map clone q.fragments position (Origin received) fun _ _ => rfl
    have horigin : ∀ statement ∈ q.fragments.map (Origin received), statement :=
      forall_mem_map.mpr hconsistent.origin
    rw [← horigins] at horigin
    exact fun skb hmem => horigin _ (mem_map_of_mem hmem)

/-- What makes a datagram exact: it has the header of a first fragment and the
length that the queue has found, and each byte is the byte at its place of one
of the fragments received. -/
structure Exact (received : List Fragment) (size : ℕ) (datagram : Datagram) : Prop where
  header : ∃ fragment ∈ received, fragment.offset = 0 ∧ datagram.header = fragment.header
  len : datagram.len = datagram.header.length + size
  totLen : datagram.totLen.toNat = datagram.len
  length : datagram.payload.length = size
  payload : ∀ position < size, ∃ fragment ∈ received, fragment.offset ≤ position ∧
    position - fragment.offset < fragment.payload.length ∧
    datagram.payload[position]? = fragment.payload[position - fragment.offset]?

/-- What `ip_frag_reasm` makes of a full queue. -/
inductive Glued (received : List Fragment) (id : ℕ) (q : Ipq) : Ipq × Verdict → Prop
  | error (err : Errno) : Glued received id q (q, .error err)
  | datagram (datagram : Datagram) (hid : datagram.id = id)
      (hexact : Exact received q.len datagram) :
      Glued received id q ({ q with fragments := [] }, .datagram datagram)

section

variable (hconsistent : Consistent received q) (hfull : q.meat = q.len)
include hconsistent hfull

theorem Consistent.tiles : Tiles SkBuff.offset len 0 q.fragments q.len := by
  have hsum : total q.fragments = q.len := by
    have := hconsistent.meat
    omega
  refine hconsistent.arranged.tiles ?_
  rw [zero_add]
  exact hsum

theorem Consistent.payload {position : ℕ} (hposition : position < q.len) :
    ∃ fragment ∈ received, fragment.offset ≤ position ∧
      position - fragment.offset < fragment.payload.length ∧
      (q.fragments.flatMap SkBuff.payload)[position]? =
        fragment.payload[position - fragment.offset]? := by
  obtain ⟨skb, hmem, hle, hlt, heq⟩ := (hconsistent.tiles hfull).getElem?_flatMap
    (fun skb _ => skb.length_payload) (Nat.zero_le position) hposition
  obtain ⟨fragment, hfragment, skipped, hoffset, -, -, rest, hrest⟩ := hconsistent.origin skb hmem
  have hlength := congrArg length hrest
  rw [length_append, length_drop, length_payload] at hlength
  refine ⟨fragment, hfragment, by omega, by omega, ?_⟩
  rw [Nat.sub_zero] at heq
  rw [heq]
  have hplace : position - fragment.offset = skipped + (position - skb.offset) := by omega
  rw [hplace, ← getElem?_drop, ← hrest, getElem?_append_left]
  rw [length_payload]
  omega

theorem Consistent.glue {head : SkBuff} {rest : List SkBuff}
    (hfragments : q.fragments = head :: rest) (call : Call) :
    Glued received head.id q (glue q call) := by
  have htiles := hconsistent.tiles hfull
  have hlength := htiles.length_flatMap fun skb _ => skb.length_payload
  rw [hfragments] at htiles
  -- the head starts the datagram, so that nothing but its header has been pulled
  obtain ⟨fragment, hmem, skipped, hoffset, hhdrlen, hpulled, -⟩ :=
    hconsistent.origin head (by rw [hfragments]; exact mem_cons_self)
  have hfirst := htiles.1
  have hzero : fragment.offset = 0 ∧ skipped = 0 := by omega
  rw [hzero.2, take_zero, append_nil] at hpulled
  have hpulledLength : head.pulled.length = head.hdrlen := by rw [hpulled, hhdrlen]
  have hexact : ∀ datagram : Datagram, datagram.header = head.pulled →
      datagram.len = head.pulled.length + q.len → head.hdrlen + q.len ≤ 65535 →
      datagram.totLen = BitVec.ofNat 16 (head.hdrlen + q.len) →
      datagram.payload = q.fragments.flatMap SkBuff.payload →
      Exact received q.len datagram := by
    intro datagram hheader hlen hsmall htotLen hpayload
    refine ⟨⟨fragment, hmem, hzero.1, hheader.trans hpulled⟩, ?_, ?_, ?_, ?_⟩
    · rw [hlen, hheader]
    · rw [htotLen, hlen, hpulledLength, BitVec.toNat_ofNat]
      omega
    · rw [hpayload]
      omega
    · intro position hposition
      rw [hpayload]
      exact hconsistent.payload hfull hposition
  have hsum : head.len + total rest = q.len := by
    have := hconsistent.meat
    rw [hfragments, total_cons] at this
    omega
  have hpayload : q.fragments.flatMap SkBuff.payload =
      head.bytes ++ (head.fragList ++ rest.flatMap SkBuff.payload) := by
    rw [hfragments, flatMap_cons, SkBuff.payload, append_assoc]
  unfold IpFragment.glue
  simp only [hfragments]
  split_ifs with hlarge hexpand hlinear
  · exact Glued.error _
  · exact Glued.error _
  · rw [List.isEmpty_iff] at hlinear
    refine Glued.datagram _ rfl (hexact _ rfl ?_ (not_lt.mp hlarge) rfl ?_)
    · change head.pulled.length + head.bytes.length + total rest = _
      rw [len, hlinear, length_nil] at hsum
      omega
    · rw [hpayload, hlinear, nil_append]
  · cases hsplit : call.split with
    | none => exact Glued.error _
    | some id =>
      refine Glued.datagram _ rfl (hexact _ rfl ?_ (not_lt.mp hlarge) rfl ?_)
      · change head.pulled.length + head.bytes.length + total (_ :: rest) = _
        rw [total_cons]
        change _ + (0 + head.fragList.length + total rest) = _
        rw [len] at hsum
        omega
      · rw [hpayload]
        rfl

/-- A full queue is glued together around the fragment that completed it. -/
theorem Consistent.ipFragReasm {position id : ℕ}
    (hnewest : q.fragments[position]?.map SkBuff.id = some id) (call : Call) :
    ∃ closed, closed.complete = true ∧ closed.len = q.len ∧ closed.meat = q.meat ∧
      Consistent received closed ∧ Glued received id closed (ipFragReasm q call position) := by
  obtain ⟨newest, hfound, rfl⟩ := map_eq_some_iff.mp hnewest
  cases hfragments : q.fragments with
  | nil => simp [hfragments] at hfound
  | cons first rest =>
    unfold IpFragment.ipFragReasm
    split_ifs with hzero
    · refine ⟨{ q with complete := true }, rfl, rfl, rfl, hconsistent.close, ?_⟩
      rw [hzero, hfragments] at hfound
      obtain rfl := some.inj hfound
      exact hconsistent.close.glue hfull hfragments call
    cases hclone : call.clone with
    | none =>
      exact ⟨{ q with complete := true }, rfl, rfl, rfl, hconsistent.close, Glued.error _⟩
    | some clone =>
      have hreheaded : IpFragment.rehead clone q.fragments position = skbMorph newest first ::
            (q.fragments.set position (skbClone clone newest)).tail := by
        unfold IpFragment.rehead
        rw [hfound, hfragments]
      have hclosed := hconsistent.close.rehead clone position
      exact ⟨{ q with complete := true, fragments := IpFragment.rehead clone q.fragments position },
        rfl, rfl, rfl, hclosed, hclosed.glue hfull hreheaded call⟩

end

/-! ### Runs -/

/-- The datagrams that a call hands on. -/
def Verdict.datagrams : Verdict → List Datagram
  | .datagram built => [built]
  | _ => []

/-- The queue after a sequence of calls, and the datagrams they have handed on. -/
def run (q : Ipq) : List Call → Ipq × List Datagram
  | [] => (q, [])
  | call :: calls =>
    let (q, verdict) := defrag q call
    let (q, datagrams) := run q calls
    (q, verdict.datagrams ++ datagrams)

/-- What holds in a run.  A queue that has been handed on as a datagram is
closed, and `meat` still counts the bytes of the datagram. -/
structure Running (received : List Fragment) (q : Ipq) (delivered : List Datagram) : Prop where
  arranged : Arranged SkBuff.offset SkBuff.len 0 q.fragments q.len
  meat : q.meat = total q.fragments + (delivered.map fun datagram => datagram.payload.length).sum
  origin : ∀ skb ∈ q.fragments, Origin received skb
  closed : delivered ≠ [] → q.complete = true

variable {delivered : List Datagram}

theorem Consistent.running (hconsistent : Consistent received q) : Running received q [] :=
  { hconsistent with
    meat := by simpa using hconsistent.meat
    closed := fun hdelivered => absurd rfl hdelivered }

theorem defrag_of_complete (hcomplete : q.complete = true) (call : Call) :
    defrag q call = (q, .error .enoent) := by
  unfold defrag ipFragQueue
  rw [if_pos hcomplete]

/-- What one call promises. -/
structure Defragged (received : List Fragment) (id : ℕ) (delivered : List Datagram)
    (result : Ipq × Verdict) : Prop where
  running : Running received result.1 (delivered ++ result.2.datagrams)
  exact : ∀ datagram, result.2 = .datagram datagram →
    datagram.id = id ∧ Exact received result.1.len datagram
  safe : result.2 ≠ .crashed

theorem Glued.defragged {id : ℕ} {result : Ipq × Verdict} (hglued : Glued received id q result)
    (hconsistent : Consistent received q) (hfull : q.meat = q.len) (hcomplete : q.complete = true) :
    Defragged received id [] result := by
  cases hglued with
  | error err =>
    exact ⟨hconsistent.running, nofun, nofun⟩
  | datagram datagram hid hexact =>
    refine ⟨⟨Nat.zero_le _, ?_, by simp, fun _ => hcomplete⟩, ?_, nofun⟩
    · simp [Verdict.datagrams, total, hexact.length, hfull]
    · intro found hfound
      obtain rfl := Verdict.datagram.inj hfound
      exact ⟨hid, hexact⟩

/-- The list of fragments is sorted, its payload ranges are disjoint, non-empty
and inside the datagram, and `meat` counts them: those of the list, and those
that have left it for a datagram. -/
structure Laid (q : Ipq) (delivered : List Datagram) : Prop where
  sorted : q.fragments.Pairwise fun skb later => skb.offset < later.offset
  disjoint : q.fragments.Pairwise fun skb later => skb.offset + skb.len ≤ later.offset
  nonempty : ∀ skb ∈ q.fragments, 0 < skb.len
  inside : ∀ skb ∈ q.fragments, skb.offset + skb.len ≤ q.len
  meat : q.meat = (q.fragments.map SkBuff.len).sum +
    (delivered.map fun datagram => datagram.payload.length).sum

section

variable (hrunning : Running received q delivered)
include hrunning

theorem Running.mono (hsubset : received ⊆ more) : Running more q delivered :=
  { hrunning with origin := fun skb hmem => (hrunning.origin skb hmem).mono hsubset }

theorem Running.consistent (hcomplete : q.complete = false) :
    delivered = [] ∧ Consistent received q := by
  have hnil : delivered = [] := by
    by_contra hdelivered
    rw [hrunning.closed hdelivered] at hcomplete
    cases hcomplete
  subst hnil
  exact ⟨rfl, hrunning.arranged, by simpa using hrunning.meat, hrunning.origin⟩

theorem Running.defrag (hreceived : call.fragment ∈ received) :
    Defragged received call.fragment.id delivered (defrag q call) := by
  cases hcomplete : q.complete with
  | true =>
    rw [defrag_of_complete hcomplete]
    refine ⟨?_, nofun, nofun⟩
    simpa [Verdict.datagrams] using hrunning
  | false =>
    obtain ⟨rfl, hconsistent⟩ := hrunning.consistent hcomplete
    have hadvanced := hconsistent.ipFragQueue hreceived
    unfold IpFragment.defrag
    generalize ipFragQueue q call = queued at hadvanced
    obtain ⟨q1, queued⟩ := queued
    cases queued with
    | error err | inProgress =>
      exact ⟨hadvanced.consistent.running, nofun, nofun⟩
    | reassemble position =>
      obtain ⟨hfull, hnewest⟩ := hadvanced.full position rfl
      obtain ⟨closed, hcomplete, hlen, hmeat, hclosed, hglued⟩ :=
        hadvanced.consistent.ipFragReasm hfull hnewest call
      exact hglued.defragged hclosed (by rw [hmeat, hlen]; exact hfull) hcomplete

theorem Running.run {calls : List Call} (hreceived : ∀ call ∈ calls, call.fragment ∈ received) :
    Running received (run q calls).1 (delivered ++ (run q calls).2) := by
  induction calls generalizing q delivered with
  | nil =>
    rw [IpFragment.run, append_nil]
    exact hrunning
  | cons call calls ih =>
    obtain ⟨hcall, hcalls⟩ := forall_mem_cons.mp hreceived
    have hrest := ih (hrunning.defrag hcall).running hcalls
    rw [append_assoc] at hrest
    exact hrest

theorem Running.laid : Laid q delivered := by
  have hmem := fun skb => @Arranged.mem _ _ _ skb _ _ _ hrunning.arranged
  have hdisjoint := hrunning.arranged.pairwise
  refine ⟨?_, hdisjoint, fun skb hskb => (hmem skb hskb).2.1, fun skb hskb => (hmem skb hskb).2.2,
    hrunning.meat⟩
  refine hdisjoint.imp_of_mem ?_
  intro skb later hskb _ hle
  have := (hmem skb hskb).2.1
  omega

end

theorem running_run (calls : List Call) :
    Running (calls.map Call.fragment) (run Ipq.init calls).1 (run Ipq.init calls).2 := by
  have hinit : Running (calls.map Call.fragment) Ipq.init [] :=
    (consistent_empty _ rfl rfl).running
  exact hinit.run fun call hmem => mem_map_of_mem hmem

/-- Whatever fragments come in, and whichever buffers lack memory, the list is
laid out without overlap after every call, it has no gap when `ip_frag_reasm`
is called, and a datagram that is built is exact. -/
theorem reassembly_exact (calls : List Call) (call : Call) :
    let q := (run Ipq.init calls).1
    let queued := ipFragQueue q call
    let result := defrag q call
    Laid q (run Ipq.init calls).2 ∧
      (∀ position, queued.2 = .reassemble position →
        Tiles SkBuff.offset SkBuff.len 0 queued.1.fragments queued.1.len) ∧
      (∀ datagram, result.2 = .datagram datagram → datagram.id = call.fragment.id ∧
        Exact ((calls ++ [call]).map Call.fragment) result.1.len datagram) ∧
      result.2 ≠ .crashed := by
  have hrunning : Running ((calls ++ [call]).map Call.fragment) (run Ipq.init calls).1
      (run Ipq.init calls).2 := by
    refine (running_run calls).mono ?_
    rw [map_append]
    exact subset_append_left _ _
  have hreceived : call.fragment ∈ (calls ++ [call]).map Call.fragment := by simp
  have hdefragged := hrunning.defrag hreceived
  refine ⟨hrunning.laid, ?_, hdefragged.exact, hdefragged.safe⟩
  intro position hreassemble
  cases hcomplete : (run Ipq.init calls).1.complete with
  | true => simp [ipFragQueue, hcomplete] at hreassemble
  | false =>
    have hadvanced := (hrunning.consistent hcomplete).2.ipFragQueue hreceived
    exact hadvanced.consistent.tiles (hadvanced.full position hreassemble).1

-- sixteen bytes of ones, then the last twelve from offset 8 on, of twos: eight overlap
example :
    let call (id : ℕ) (fragOff : BitVec 16) (bytes : List Byte) : Call :=
      ⟨⟨id, replicate 20 0, fragOff, bytes, []⟩, false, none, 64, true, true, true, true,
        true, some 9, true, none⟩
    let calls := [call 1 0x2000 (replicate 16 1), call 2 0x0001 (replicate 12 2)]
    (run Ipq.init calls).2.map (fun datagram => (datagram.len, datagram.payload)) =
      [(40, replicate 16 1 ++ replicate 4 2)] := by
  decide +kernel

end KernelM5040.IpFragment
