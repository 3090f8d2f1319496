import ContainerHackathon.Horovod.Cycle

/-!
# Horovod.Outcome

What `ComputeResponseList` leaves behind on all ranks, whichever way the
responses were found.
-/

namespace ContainerHackathon.Horovod

open Fallible ResponseCache

variable {n : Nat} {cfg : Config} {s : State n} {bits : Finset Nat}
  {caches : Fin (n + 1) → ResponseCache}

/-! ## rank zero -/

/-- The requests that a rank sends. -/
def sentBy (s : State n) (caches : Fin (n + 1) → ResponseCache) (r : Fin (n + 1)) : List Request :=
  sent (caches r) (s.workers r).messages

theorem sentBy_sublist (s : State n) (caches : Fin (n + 1) → ResponseCache) (r : Fin (n + 1)) :
    (sentBy s caches r).Sublist (s.workers r).messages :=
  List.filter_sublist

/-- Every rank has asked for the tensor at rank zero. -/
def Complete (s : State n) (caches : Fin (n + 1) → ResponseCache) (x : String) : Prop :=
  (receivedFrom s (sentBy s caches) x).length = n + 1

instance (s : State n) (caches : Fin (n + 1) → ResponseCache) :
    DecidablePred (Complete s caches) := fun _ => instDecidableEqNat _ _

theorem complete_iff (hs : Inv cfg s) {x : String} : Complete s caches x ↔
    ∀ r, s.recorded r x + (requestNames (sentBy s caches r)).count x = 1 :=
  (length_receivedFrom hs (sentBy_sublist s caches) x).2

/-- A tensor that is complete has no cached response. -/
theorem Synced.notMem_of_complete (sy : Synced s bits caches) (hs : Inv cfg s) {x : String}
    (hx : Complete s caches x) (r : Fin (n + 1)) : x ∉ (caches r).entryNames := by
  have hone := (complete_iff hs).mp hx 0
  by_cases hrecorded : s.messageTable x = []
  · rw [State.recorded, hrecorded, List.countP_nil, Nat.zero_add] at hone
    obtain ⟨m, hm, rfl⟩ := mem_requestNames.mp
      (List.count_pos_iff.mp (show 0 < _ by rw [hone]; exact Nat.one_pos))
    exact sy.notMem_of_sent hm r
  · exact fun hmem => hs.uncached x hrecorded r (sy.subset r x hmem)

/-- **Rank zero finds the responses**: those that are cached, and new ones for
the tensors that are complete. -/
theorem Synced.exists_coordinate (sy : Synced s bits caches) (hs : Inv cfg s) : ∃ fused,
    coordinate cfg bits (s.workers 0).tensorTable (caches 0) s.messageTable (sentBy s caches) =
      .ok (fused, fun x => if Complete s caches x then [] else
        receivedFrom s (sentBy s caches) x) ∧
    Answers s (fun x => (caches 0).chosen bits x = true) (Complete s caches) fused := by
  have hadd := addMessages_eq fun x =>
    (length_receivedFrom hs (sentBy_sublist s caches) x).1
  rcases hrun : addMessages (n + 1) s.messageTable
    ((List.finRange (n + 1)).flatMap (sentBy s caches)) with ⟨table, ready⟩
  rw [hrun] at hadd
  obtain ⟨htable, hnodup, hready⟩ := hadd
  simp only at htable hnodup hready
  have hcomplete : ∀ x, x ∈ ready ↔ Complete s caches x := fun x => by
    rw [hready]
    exact and_iff_right (hs.short x)
  obtain ⟨responses, hconstruct, hnames, hconstructed⟩ := exists_constructResponses hnodup fun x hx =>
    fromAll_receivedFrom hs (sentBy_sublist s caches) ((hcomplete x).mp hx)
  have hknown : ∀ r ∈ ((caches 0).entries (bits.sort (· ≤ ·))).map Entry.response ++ responses,
      Known (tensorInfo (s.workers 0).tensorTable) r := by
    intro r hr
    rcases List.mem_append.mp hr with hr | hr
    · obtain ⟨e, he, rfl⟩ := List.mem_map.mp hr
      exact (sy.known_of_mem_entries hs 0 he).2.2
    · obtain ⟨x, hx, hr⟩ := hconstructed r hr
      have hx := (hcomplete x).mp hx
      have hall := fromAll_receivedFrom hs (sentBy_sublist s caches) hx
      obtain ⟨r', hr', hname, -⟩ := exists_constructResponse x hall.nonempty hall.lt hall.nodup
      obtain rfl := Except.ok.inj (hr.symm.trans hr')
      obtain ⟨m, -, rfl, -, t, ht, -⟩ := exists_asked_of_complete hs (sentBy_sublist s caches) hx 0
      exact ⟨_, _, hname, tensorInfo_of_lookup ht⟩
  obtain ⟨fused, hfuse, hperm, hne⟩ := exists_fuseResponses cfg.threshold hknown
  refine ⟨fused, ?_, fun x => ?_, hne, fun r hr hreduces x hx => ?_⟩
  · rw [coordinate, hrun, htable]
    simp only [mapM_peekResponse (sy.exists_entryAt 0), ok_bind]
    rw [show received s.messageTable ((List.finRange (n + 1)).flatMap (sentBy s caches)) =
      receivedFrom s (sentBy s caches) from rfl]
    rw [hconstruct]
    simp only [ok_bind, hfuse, hcomplete]
    rfl
  · have hcount := count_responseNames_of_perm hperm x
    rw [responseNames, responseNames, List.flatMap_append, List.count_append, hnames] at hcount
    refine hcount.trans (congrArg₂ (· + ·) (sy.count_entries x) ?_)
    rw [hnodup.count]
    simp only [hcomplete]
  · obtain ⟨r', hr', hx', htype⟩ := exists_of_tags_perm hperm hr hx
    rcases List.mem_append.mp hr' with hr' | hr'
    · exact sy.shared_of_mem_entries hs hr' hx'
    · obtain ⟨y, hy, hr'⟩ := hconstructed r' hr'
      have hy := (hcomplete y).mp hy
      have hall := fromAll_receivedFrom hs (sentBy_sublist s caches) hy
      obtain ⟨r'', hr'', hname, -⟩ := exists_constructResponse y hall.nonempty hall.lt hall.nodup
      obtain rfl := Except.ok.inj (hr'.symm.trans hr'')
      rw [hname, List.mem_singleton] at hx'
      rw [hx']
      exact shared_of_constructed hs (sentBy_sublist s caches) hy hr' (htype ▸ hreduces)

/-! ## the caches -/

section put

variable {fused : List Response}

theorem Answers.mem (h : Answers s (fun x => (caches 0).chosen bits x = true) (Complete s caches) fused)
    {x : String} : x ∈ responseNames fused ↔
      (caches 0).chosen bits x = true ∨ Complete s caches x := by
  rw [← List.count_pos_iff, h.count]
  by_cases hchosen : (caches 0).chosen bits x = true <;>
    by_cases hcomplete : Complete s caches x <;> simp [hchosen, hcomplete]

/-- Every rank has the tensors that are answered. -/
theorem Synced.exists_lookup (sy : Synced s bits caches) (hs : Inv cfg s)
    (hfused : Answers s (fun x => (caches 0).chosen bits x = true) (Complete s caches) fused)
    {x : String} (hx : x ∈ responseNames fused) (r : Fin (n + 1)) :
    ∃ t, Keyed.lookup TensorTableEntry.tensorName x (s.workers r).tensorTable = some t := by
  rcases hfused.mem.mp hx with hx | hx
  · obtain ⟨e, -, rfl, t, ht, -⟩ := sy.exists_entry hs hx r
    exact ⟨t, ht⟩
  · obtain ⟨m, -, rfl, -, t, ht, -⟩ := exists_asked_of_complete hs (sentBy_sublist s caches) hx r
    exact ⟨t, ht⟩

/-- The cached entries for what is answered fit the tables. -/
theorem Synced.putting (sy : Synced s bits caches) (hs : Inv cfg s)
    (hfused : Answers s (fun x => (caches 0).chosen bits x = true) (Complete s caches) fused)
    (r : Fin (n + 1)) :
    Putting (s.workers r).tensorTable (· ∈ responseNames fused) cfg.capacity (caches r) where
  wf := sy.wf r
  capacity := (sy.capacity r).trans (hs.worker r).capacity
  fits := fun e he hname => by
    rcases hfused.mem.mp hname with hx | hx
    · obtain ⟨e', he', hname', hfits⟩ := sy.exists_entry hs hx r
      rwa [List.inj_on_of_nodup_map (sy.wf r).nodup he he' hname'.symm]
    · exact absurd (List.mem_map_of_mem he) (sy.notMem_of_complete hs hx r)

theorem entryFor_name {table : List TensorTableEntry} {x : String} {t : TensorTableEntry}
    (ht : Keyed.lookup TensorTableEntry.tensorName x table = some t) (response : Response) :
    (entryFor response t).name = x := by
  rw [← Keyed.key_of_lookup ht, Entry.name, entryFor]
  simp only
  split
  · next h => rw [h, List.headD_cons]
  · rfl

/-- Ranks put the same, but for the device. -/
theorem entriesFor_shared {response : Response} (hshared : ∀ x ∈ response.tensorNames, Shared s x)
    (q r : Fin (n + 1)) : (entriesFor (s.workers q).tensorTable response).map Entry.shared =
      (entriesFor (s.workers r).tensorTable response).map Entry.shared := by
  rw [entriesFor, entriesFor, List.map_filterMap, List.map_filterMap]
  refine List.filterMap_congr fun x hx => ?_
  obtain ⟨info, hall⟩ := hshared x hx
  obtain ⟨t, ht, hinfo⟩ := hall q
  obtain ⟨t', ht', hinfo'⟩ := hall r
  have hname : t.tensorName = t'.tensorName :=
    (Keyed.key_of_lookup ht).trans (Keyed.key_of_lookup ht').symm
  simp only [ht, ht', Option.map_some, entryFor, Entry.shared, hname, hinfo, hinfo']

/-- **The responses are put into the caches of all ranks**, which stay
coherent. -/
theorem Synced.exists_putResponses (sy : Synced s bits caches) (hs : Inv cfg s)
    (hfused : Answers s (fun x => (caches 0).chosen bits x = true) (Complete s caches) fused) :
    ∃ caches' : Fin (n + 1) → ResponseCache, (∀ r,
        (do
          let c ← putResponses (n + 1) (s.workers r).tensorTable fused (caches r)
          c.updateCacheBits) = .ok (caches' r)) ∧
      ∀ r, (caches' r).WF ∧ (caches' r).bitsOutdated = false ∧
        (caches' r).capacity = (caches r).capacity ∧
        (caches' r).cache.length ≤ cfg.capacity ∧ (caches' r).Coherent (caches' 0) ∧
        ∀ x, x ∈ (caches' r).entryNames → x ∈ (caches r).entryNames ∨ x ∈ responseNames fused := by
  have hmem : ∀ r ∈ fused, ∀ x ∈ r.tensorNames, x ∈ responseNames fused :=
    fun r hr x hx => List.mem_flatMap.mpr ⟨r, hr, hx⟩
  have htable : ∀ q, ∀ r ∈ fused, ∀ x ∈ r.tensorNames,
      x ∈ (s.workers q).tensorTable.map TensorTableEntry.tensorName := fun q r hr x hx => by
    obtain ⟨t, ht⟩ := sy.exists_lookup hs hfused (hmem r hr x hx) q
    rw [← Keyed.key_of_lookup ht]
    exact List.mem_map_of_mem (Keyed.mem_of_lookup ht)
  choose filled hput hputting hcache using fun r =>
    ResponseCache.exists_putResponses cfg.capacity_pos.ne' (n + 1) hfused.nonempty hmem (htable r)
      (sy.putting hs hfused r)
  choose caches' hupdate hwf hfresh hcache' hcapacity using fun r =>
    exists_updateCacheBits (hputting r).wf
  refine ⟨caches', fun r => by rw [hput]; exact hupdate r, fun r =>
    ⟨hwf r, hfresh r, ?_, ?_, ?_, ?_⟩⟩
  · rw [hcapacity, (hputting r).capacity, (sy.putting hs hfused r).capacity]
  · rw [hcache', hcache]
    exact Keyed.length_foldl_use_le (sy.wf r).nodup ((sy.bounded r).trans (hs.worker r).bounded)
      cfg.capacity_pos
  · have hfilled : (filled r).Coherent (filled 0) := by
      refine (sy.coherent r).use cfg.capacity ?_ (hcache r) (hcache 0)
      rw [List.map_flatMap, List.map_flatMap]
      refine List.flatMap_congr fun response hresponse => ?_
      obtain ⟨hresponse, hsupported⟩ := List.mem_filter.mp hresponse
      rw [supported, Bool.and_eq_true] at hsupported
      exact entriesFor_shared (hfused.shared response hresponse hsupported.1) r 0
    rwa [Coherent, hcache', hcache']
  · intro x hx
    rw [entryNames, hcache', hcache] at hx
    obtain ⟨e, he, rfl⟩ := List.mem_map.mp hx
    refine (Keyed.mem_of_mem_foldl_use (sy.wf r).nodup he).imp List.mem_map_of_mem fun he => ?_
    obtain ⟨response, hresponse, he⟩ := List.mem_flatMap.mp he
    obtain ⟨y, hy, hentry⟩ := List.mem_filterMap.mp he
    obtain ⟨t, ht, rfl⟩ := Option.map_eq_some_iff.mp hentry
    rw [entryFor_name ht]
    exact hmem response (List.mem_of_mem_filter hresponse) y hy

end put

/-! ## the computation -/

/-- What the computation leaves behind: the requests are tried again, recorded
or answered, on all ranks in the same way. -/
structure Outcome (cfg : Config) (s s' : State n) (tried : Fin (n + 1) → List Request)
    (caches : Fin (n + 1) → ResponseCache) (fused : List Response) : Prop where
  workers : ∀ r, s'.workers r = (s.workers r).compute (tried r) (caches r) fused
  sublist : ∀ r, (tried r).Sublist (s.workers r).messages
  balance : ∀ r x, (requestNames (s.workers r).messages).count x + s.recorded r x =
    (requestNames (tried r)).count x + s'.recorded r x + (responseNames fused).count x
  answered : ∀ x, x ∈ responseNames fused ↔
    ∀ r, (requestNames (s.workers r).messages).count x + s.recorded r x = 1
  recorded : ∀ x, ∀ m ∈ s'.messageTable x,
    m ∈ s.messageTable x ∨ m.tensorName = x ∧ ∃ r, m ∈ (s.workers r).messages
  short : ∀ x, (s'.messageTable x).length < n + 1
  wf : ∀ r, (caches r).WF
  fresh : ∀ r, (caches r).bitsOutdated = false
  capacity : ∀ r, (caches r).capacity = (s.workers r).cache.capacity
  bounded : ∀ r, (caches r).cache.length ≤ cfg.capacity
  uncached : ∀ x, s'.messageTable x ≠ [] → ∀ r, x ∉ (caches r).entryNames
  coherent : ∀ r, (caches r).Coherent (caches 0)
  shared : ∀ r ∈ fused, r.responseType.reduces = true → ∀ x ∈ r.tensorNames, Shared s x

/-- What is tried again. -/
def againBy (s : State n) (bits : Finset Nat) (caches : Fin (n + 1) → ResponseCache)
    (r : Fin (n + 1)) : List Request := again (caches r) bits (s.workers r).messages

/-- A tensor is not chosen while a request for it is sent or recorded. -/
theorem Synced.chosen_eq_false (sy : Synced s bits caches) (hs : Inv cfg s) {x : String}
    (hx : receivedFrom s (sentBy s caches) x ≠ []) : ¬ (caches 0).chosen bits x = true := by
  intro hchosen
  obtain ⟨m, hm⟩ := List.exists_mem_of_ne_nil _ hx
  obtain ⟨-, r, hrank, -⟩ := asked_of_mem_receivedFrom hs (sentBy_sublist s caches) hm
  have hpos : 0 < (receivedFrom s (sentBy s caches) x).countP
      (fun m => m.requestRank = (r : Nat)) :=
    List.countP_pos_iff.mpr ⟨m, hm, decide_eq_true hrank⟩
  rw [countP_receivedFrom hs (sentBy_sublist s caches)] at hpos
  have hcount := sy.count_messages hs r x
  have hle := count_requestNames_le hs r x
  rw [if_pos hchosen] at hcount
  simp only [sentBy] at hpos
  omega

/-- The outcome when rank zero finds the responses. -/
theorem Synced.outcome_slow (sy : Synced s bits caches) (hs : Inv cfg s) {fused : List Response}
    (hfused : Answers s (fun x => (caches 0).chosen bits x = true) (Complete s caches) fused)
    {caches' : Fin (n + 1) → ResponseCache}
    (hcaches : ∀ r, (caches' r).WF ∧ (caches' r).bitsOutdated = false ∧
      (caches' r).capacity = (caches r).capacity ∧
      (caches' r).cache.length ≤ cfg.capacity ∧ (caches' r).Coherent (caches' 0) ∧
      ∀ x, x ∈ (caches' r).entryNames → x ∈ (caches r).entryNames ∨ x ∈ responseNames fused) :
    Outcome cfg s ⟨fun r => (s.workers r).compute (againBy s bits caches r) (caches' r) fused,
        fun x => if Complete s caches x then [] else receivedFrom s (sentBy s caches) x⟩
      (againBy s bits caches) caches' fused where
  workers := fun r => rfl
  sublist := fun r => List.filter_sublist
  balance := fun r x => by
    have hcount := sy.count_messages hs r x
    have hreceived := countP_receivedFrom hs (sentBy_sublist s caches) r x
    have hrecorded : State.recorded ⟨fun r => (s.workers r).compute (againBy s bits caches r)
          (caches' r) fused, fun x => if Complete s caches x then [] else
            receivedFrom s (sentBy s caches) x⟩ r x =
        if Complete s caches x then 0
        else s.recorded r x + (requestNames (sentBy s caches r)).count x := by
      rw [State.recorded, ← hreceived]
      dsimp only
      split
      · exact List.countP_nil
      · rfl
    rw [hfused.count, hrecorded]
    by_cases hx : Complete s caches x
    · have hone := (complete_iff hs).mp hx r
      rw [if_pos hx, if_pos hx]
      simp only [againBy, sentBy] at *
      omega
    · rw [if_neg hx, if_neg hx]
      simp only [againBy, sentBy] at *
      omega
  answered := fun x => by
    rw [hfused.mem]
    constructor
    · rintro (hx | hx) r
      · obtain ⟨m, hm, rfl, -⟩ := sy.exists_of_chosen hx r
        have hpos := List.count_pos_iff.mpr (mem_requestNames.mpr ⟨m, hm, rfl⟩)
        have hle := count_requestNames_le hs r m.tensorName
        omega
      · have hone := (complete_iff hs).mp hx r
        have hsent := ((sentBy_sublist s caches r).map Request.tensorName).count_le x
        have hle := count_requestNames_le hs r x
        simp only [requestNames] at *
        omega
    · intro hall
      exact (sy.chosen_or_sent hs hall).imp_right (complete_iff hs).mpr
  recorded := fun x m hm => by
    simp only at hm
    split at hm
    · cases hm
    · rcases mem_receivedFrom.mp hm with hm | ⟨hx, r, hm⟩
      · exact .inl hm
      · exact .inr ⟨hx, r, (sentBy_sublist s caches r).mem hm⟩
  short := fun x => by
    simp only
    split
    · exact Nat.succ_pos n
    · next hx =>
      exact lt_of_le_of_ne (length_receivedFrom hs (sentBy_sublist s caches) x).1 hx
  wf := fun r => (hcaches r).1
  fresh := fun r => (hcaches r).2.1
  capacity := fun r => (hcaches r).2.2.1.trans (sy.capacity r)
  bounded := fun r => (hcaches r).2.2.2.1
  uncached := fun x hx r hmem => by
    simp only at hx
    split at hx
    · exact hx rfl
    · next hcomplete =>
      rcases (hcaches r).2.2.2.2.2 x hmem with hmem | hmem
      · by_cases hrecorded : s.messageTable x = []
        · obtain ⟨m, hm⟩ := List.exists_mem_of_ne_nil _ hx
          rcases mem_receivedFrom.mp hm with hm | ⟨rfl, q, hm⟩
          · rw [hrecorded] at hm
            cases hm
          · exact sy.notMem_of_sent hm r hmem
        · exact hs.uncached x hrecorded r (sy.subset r x hmem)
      · rcases hfused.mem.mp hmem with hchosen | hmem
        · exact sy.chosen_eq_false hs hx hchosen
        · exact hcomplete hmem
  coherent := fun r => (hcaches r).2.2.2.2.1
  shared := hfused.shared

/-- The outcome when no request had to be sent. -/
theorem Synced.outcome_fast (sy : Synced s bits caches) (hs : Inv cfg s)
    (hhits : ∀ r, ∀ m ∈ (s.workers r).messages, (caches r).hits m = true) {fused : List Response}
    (hfused : Answers s (fun x => (caches 0).chosen bits x = true) (fun _ => False) fused)
    {caches' : Fin (n + 1) → ResponseCache}
    (hcaches : ∀ r, (caches' r).WF ∧ (caches' r).bitsOutdated = false ∧
      (caches' r).capacity = (caches r).capacity ∧
      (caches' r).cache.length ≤ cfg.capacity ∧ (caches' r).Coherent (caches' 0) ∧
      ∀ x, x ∈ (caches' r).entryNames ↔ x ∈ (caches r).entryNames) :
    Outcome cfg s { s with workers := fun r =>
        (s.workers r).compute (againBy s bits caches r) (caches' r) fused }
      (againBy s bits caches) caches' fused := by
  have hsent : ∀ r, sentBy s caches r = [] := fun r =>
    List.filter_eq_nil_iff.mpr fun m hm => by simp [hhits r m hm]
  have hcount : ∀ x, (responseNames fused).count x =
      if (caches 0).chosen bits x = true then 1 else 0 := fun x => by
    rw [hfused.count]
    simp only [if_false, Nat.add_zero]
  refine ⟨fun r => rfl, fun r => List.filter_sublist, fun r x => ?_, fun x => ?_,
    fun x m hm => .inl hm, hs.short, fun r => (hcaches r).1, fun r => (hcaches r).2.1,
    fun r => (hcaches r).2.2.1.trans (sy.capacity r), fun r => (hcaches r).2.2.2.1,
    fun x hx r hmem => ?_, fun r => (hcaches r).2.2.2.2.1, hfused.shared⟩
  · have hmessages := sy.count_messages hs r x
    have hnone : (requestNames (sent (caches r) (s.workers r).messages)).count x = 0 := by
      have := hsent r
      rw [sentBy] at this
      rw [this]
      rfl
    rw [hcount, State.recorded, State.recorded, hmessages, hnone, againBy]
    dsimp only
    omega
  · have hmem : x ∈ responseNames fused ↔ (caches 0).chosen bits x = true := by
      rw [← List.count_pos_iff, hcount]
      split <;> simp [*]
    rw [hmem]
    constructor
    · intro hx r
      obtain ⟨m, hm, rfl, -⟩ := sy.exists_of_chosen hx r
      have hpos := List.count_pos_iff.mpr (mem_requestNames.mpr ⟨m, hm, rfl⟩)
      have hle := count_requestNames_le hs r m.tensorName
      omega
    · -- a tensor that is recorded everywhere would have been answered before
      intro hall
      refine (sy.chosen_or_sent hs hall).resolve_right fun hcomplete => ?_
      have hlength := (complete_iff hs).mpr hcomplete
      rw [Complete, receivedFrom, received, List.flatMap_eq_nil_iff.mpr fun r _ => hsent r] at hlength
      have := hs.short x
      simp only [List.filter_nil, List.append_nil] at hlength
      omega
  · exact hs.uncached x hx r (sy.subset r x (((hcaches r).2.2.2.2.2 x).mp hmem))

/-- The outcome when there is nothing to do. -/
theorem Synced.outcome_idle (sy : Synced s ∅ caches) (hs : Inv cfg s)
    (hhits : ∀ r, ∀ m ∈ (s.workers r).messages, (caches r).hits m = true)
    (hfresh : ∀ r, (caches r).bitsOutdated = false) :
    Outcome cfg s { s with workers := fun r =>
        (s.workers r).compute (againBy s ∅ caches r) (caches r) [] } (againBy s ∅ caches) caches [] :=
  sy.outcome_fast hs hhits
    ⟨fun x => by simp [responseNames, ResponseCache.chosen], fun _ h => absurd h List.not_mem_nil,
      fun _ h => absurd h List.not_mem_nil⟩
    fun r => ⟨sy.wf r, hfresh r, rfl, (sy.bounded r).trans (hs.worker r).bounded, sy.coherent r,
      fun _ => Iff.rfl⟩

/-- **`ComputeResponseList` succeeds on all ranks.** -/
theorem exists_computeResponseList (hs : Inv cfg s) (stalled : Fin (n + 1) → Request → Bool) :
    ∃ s' tried caches fused, computeResponseList cfg stalled s = .ok s' ∧
      Outcome cfg s s' tried caches fused := by
  obtain ⟨coordinators, caches, hrecord, herase, sy, hhits⟩ := exists_synced hs stalled
  have hsort : (sequence fun r => (s.workers r).messages.foldlM
      (sortMessage (caches r) (sync coordinators).cacheHits) ([], [])) =
      .ok fun r => (againBy s (sync coordinators).cacheHits caches r, sentBy s caches r) :=
    sequence_eq_ok.mpr fun r => foldl_sortMessage (sy.wf r) _ _ _
  rw [computeResponseList, hrecord, ok_bind]
  simp only [herase, ok_bind, hsort]
  by_cases huncached : (sync coordinators).uncachedInQueue = true
  · obtain ⟨fused, hcoordinate, hfused⟩ := sy.exists_coordinate hs
    obtain ⟨caches', hput, hcaches⟩ := sy.exists_putResponses hs hfused
    refine ⟨_, _, caches', fused, ?_, sy.outcome_slow hs hfused hcaches⟩
    rw [if_pos huncached, hcoordinate]
    simp only [ok_bind, sequence_eq_ok.mpr hput]
    rfl
  · have hhits := hhits (Bool.eq_false_iff.mpr huncached)
    rw [if_neg huncached]
    split
    · next hempty =>
      rw [hempty] at sy ⊢
      exact ⟨_, _, caches, [], rfl, sy.outcome_idle hs (fun r => (hhits r).2) fun r => (hhits r).1⟩
    · obtain ⟨fused, caches', hfast, hfused, hcaches⟩ := sy.exists_fastPath hs
      refine ⟨_, _, caches', fused, ?_, sy.outcome_fast hs (fun r => (hhits r).2) hfused hcaches⟩
      have hresults : (sequence fun r => fastPath cfg (sync coordinators).cacheHits
          (s.workers r).tensorTable (caches r)) = .ok fun r => (fused, caches' r) :=
        sequence_eq_ok.mpr hfast
      rw [hresults]
      rfl

end ContainerHackathon.Horovod
