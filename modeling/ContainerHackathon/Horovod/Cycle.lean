import ContainerHackathon.Horovod.Invariant

/-!
# Horovod.Cycle

`ComputeResponseList` in a state in which all is accounted for: it succeeds on
every rank, all ranks find the same responses, and these answer exactly the
tensors that all ranks have asked for.
-/

namespace ContainerHackathon.Horovod

open Fallible ResponseCache

variable {n : Nat} {cfg : Config} {s : State n}

/-! ## coordination of the caches -/

theorem mem_cacheHits_sync {coordinators : Fin (n + 1) → CacheCoordinator} {b : Nat} :
    b ∈ (sync coordinators).cacheHits ↔
      ∀ r, b ∈ (coordinators r).cacheHits ∧ b ∉ (coordinators r).invalidBits := by
  simp only [sync, Finset.mem_filter, Finset.mem_sdiff]
  exact ⟨fun h => h.2, fun h => ⟨h 0, h⟩⟩

theorem mem_invalidBits_sync {coordinators : Fin (n + 1) → CacheCoordinator} {b : Nat} :
    b ∈ (sync coordinators).invalidBits ↔ ∃ r, b ∈ (coordinators r).invalidBits := by
  simp [sync]

theorem uncachedInQueue_sync {coordinators : Fin (n + 1) → CacheCoordinator} :
    (sync coordinators).uncachedInQueue = false ↔ ∀ r, (coordinators r).uncachedInQueue = false := by
  simp [sync]

/-- The caches after the invalid entries are erased, and the bits of the
responses that are performed. -/
structure Synced (s : State n) (bits : Finset Nat) (caches : Fin (n + 1) → ResponseCache) : Prop where
  wf : ∀ r, (caches r).WF
  capacity : ∀ r, (caches r).capacity = (s.workers r).cache.capacity
  bounded : ∀ r, (caches r).cache.length ≤ (s.workers r).cache.cache.length
  coherent : ∀ r, (caches r).Coherent (caches 0)
  same : ∀ r, (caches r).tensorNameToBit = (caches 0).tensorNameToBit
  subset : ∀ r x, x ∈ (caches r).entryNames → x ∈ (s.workers r).cache.entryNames
  /-- A request either has its response in the cache or can be sent. -/
  valid : ∀ r, ∀ m ∈ (s.workers r).messages, (caches r).hits m = false →
    m.tensorName ∉ (caches r).entryNames
  all : ∀ b ∈ bits, ∀ r, ∃ m ∈ (s.workers r).messages, (caches r).hits m = true ∧
    (caches r).tensorNameToBit m.tensorName = some b
  of_all : ∀ x b, (caches 0).tensorNameToBit x = some b →
    (∀ r, ∃ m ∈ (s.workers r).messages, m.tensorName = x ∧ (caches r).hits m = true) → b ∈ bits

/-- What is left of a cache and what it says about requests. -/
theorem hits_of_erased {c c' : ResponseCache} (hc : c.WF) (hc' : c'.WF)
    (hcache : c'.cache = c.cache.filter fun e => (c'.tensorNameToBit e.name).isSome) (m : Request) :
    c'.hits m = true ↔ c.stateOf m = .hit ∧ (c'.tensorNameToBit m.tensorName).isSome = true := by
  rw [hits, decide_eq_true_eq, stateOf_eq_hit hc', stateOf_eq_hit hc, hcache]
  constructor
  · rintro ⟨e, he, hname, hparams⟩
    obtain ⟨he, hsome⟩ := List.mem_filter.mp he
    exact ⟨⟨e, he, hname, hparams⟩, hname ▸ hsome⟩
  · rintro ⟨⟨e, he, hname, hparams⟩, hsome⟩
    exact ⟨e, List.mem_filter.mpr ⟨he, hname ▸ hsome⟩, hname, hparams⟩

/-- **The coordination of the caches** succeeds and yields the same bits on
all ranks. -/
theorem exists_synced (hs : Inv cfg s) (stalled : Fin (n + 1) → Request → Bool) :
    ∃ coordinators caches,
      (sequence fun r => recordMessages (s.workers r).cache (stalled r) (s.workers r).messages) =
        .ok coordinators ∧
      (sequence fun r => eraseInvalid (sync coordinators).invalidBits (s.workers r).cache) =
        .ok caches ∧
      Synced s (sync coordinators).cacheHits caches ∧
      ((sync coordinators).uncachedInQueue = false → ∀ r, (caches r).bitsOutdated = false ∧
        ∀ m ∈ (s.workers r).messages, (caches r).hits m = true) := by
  choose coordinators hrecord hhits hinvalid huncached using fun r =>
    exists_recordMessages (hs.worker r).wf (stalled r) (s.workers r).messages
  simp only [hs.bits] at hhits hinvalid
  have hactive : ∀ r, ∀ b ∈ (sync coordinators).invalidBits, ∃ e ∈ (s.workers r).cache.cache,
      (s.workers r).cache.tensorNameToBit e.name = some b := fun r b hb => by
    obtain ⟨q, hb⟩ := mem_invalidBits_sync.mp hb
    obtain ⟨m, -, -, hbit⟩ := (hinvalid q b).mp hb
    rw [← hs.bits r] at hbit
    obtain ⟨e, he, hname⟩ := List.mem_map.mp (((hs.worker r).wf.names _).mpr ⟨b, hbit⟩)
    exact ⟨e, he, hname ▸ hbit⟩
  choose caches herase hwf hcapacity hbits hcache using fun r =>
    exists_eraseInvalid (hs.worker r).wf (hactive r)
  simp only [hs.bits] at hbits
  -- without a request to send, no cached response is invalid
  have hall : (sync coordinators).uncachedInQueue = false → ∀ r, ∀ m ∈ (s.workers r).messages,
      (s.workers r).cache.stateOf m = .hit ∧ stalled r m = false := fun hfast r =>
    (huncached r).mp (uncachedInQueue_sync.mp hfast r)
  have hnone : (sync coordinators).uncachedInQueue = false → (sync coordinators).invalidBits = ∅ :=
    fun hfast => Finset.eq_empty_of_forall_notMem fun b hb => by
      obtain ⟨q, hq⟩ := mem_invalidBits_sync.mp hb
      obtain ⟨m, hm, hinvalidates, -⟩ := (hinvalid q b).mp hq
      rw [invalidates, (hall hfast q m hm).1, (hall hfast q m hm).2] at hinvalidates
      simp at hinvalidates
  have hkept : ∀ r x b, (caches r).tensorNameToBit x = some b ↔
      (s.workers 0).cache.tensorNameToBit x = some b ∧ b ∉ (sync coordinators).invalidBits :=
    fun r x b => by rw [hbits, Option.filter_eq_some_iff, decide_eq_true_eq]
  have herased := fun r => hits_of_erased (hs.worker r).wf (hwf r) (hcache r)
  refine ⟨coordinators, caches, sequence_eq_ok.mpr hrecord, sequence_eq_ok.mpr herase,
    ⟨hwf, hcapacity, fun r => ?_, fun r => ?_, fun r => ?_, fun r x hx => ?_, fun r m hm hmiss hx => ?_,
      fun b hb r => ?_, fun x b hbit hall => ?_⟩, fun hfast r => ⟨?_, fun m hm => ?_⟩⟩
  · rw [hcache]
    exact List.length_filter_le _ _
  · have hcache' := hcache r
    have hcache₀ := hcache 0
    simp only [hbits] at hcache' hcache₀
    exact (hs.coherent r).filter
      (fun x => (((s.workers 0).cache.tensorNameToBit x).filter
        (· ∉ (sync coordinators).invalidBits)).isSome) hcache' hcache₀
  · funext x
    rw [hbits, hbits]
  · rw [entryNames, hcache] at hx
    obtain ⟨e, he, rfl⟩ := List.mem_map.mp hx
    exact List.mem_map_of_mem (List.mem_filter.mp he).1
  · -- an invalid response was erased
    obtain ⟨b, hbit⟩ := ((hwf r).names _).mp hx
    obtain ⟨hbit₀, hb⟩ := (hkept r _ _).mp hbit
    have hnhit : (s.workers r).cache.stateOf m ≠ .hit := fun hhit => by
      rw [(herased r m).mpr ⟨hhit, by rw [hbit]; rfl⟩] at hmiss
      cases hmiss
    have hnmiss : (s.workers r).cache.stateOf m ≠ .miss := fun hmiss =>
      stateOf_eq_miss.mp hmiss (((hs.worker r).wf.names _).mpr ⟨b, by rw [hs.bits, hbit₀]⟩)
    refine hb (mem_invalidBits_sync.mpr ⟨r, (hinvalid r b).mpr ⟨m, hm, .inl ?_, hbit₀⟩⟩)
    cases hstate : (s.workers r).cache.stateOf m with
    | miss => exact absurd hstate hnmiss
    | hit => exact absurd hstate hnhit
    | invalid => rfl
  · have hvalid : b ∉ (sync coordinators).invalidBits := fun hinv => by
      obtain ⟨q, hq⟩ := mem_invalidBits_sync.mp hinv
      exact (mem_cacheHits_sync.mp hb q).2 hq
    obtain ⟨m, hm, hhit, hbit⟩ := (hhits r b).mp (mem_cacheHits_sync.mp hb r).1
    have hbit' := (hkept r _ _).mpr ⟨hbit, hvalid⟩
    exact ⟨m, hm, (herased r m).mpr ⟨hhit, by rw [hbit']; rfl⟩, hbit'⟩
  · obtain ⟨hbit, hvalid⟩ := (hkept 0 _ _).mp hbit
    refine mem_cacheHits_sync.mpr fun r => ⟨?_, fun hinv => hvalid (mem_invalidBits_sync.mpr ⟨r, hinv⟩)⟩
    obtain ⟨m, hm, rfl, hhit⟩ := hall r
    exact (hhits r b).mpr ⟨m, hm, ((herased r m).mp hhit).1, hbit⟩
  · have hsame := herase r
    rw [hnone hfast, eraseInvalid, Finset.sort_empty] at hsame
    rw [← Except.ok.inj hsame]
    exact (hs.worker r).fresh
  · have hhit := (hall hfast r m hm).1
    obtain ⟨bit, -, hbit⟩ := exists_peekCacheBit (hs.worker r).wf (m := m) (by rw [hhit]; simp)
    rw [hs.bits] at hbit
    refine (herased r m).mpr ⟨hhit, ?_⟩
    rw [(hkept r _ _).mpr ⟨hbit, by rw [hnone hfast]; exact Finset.notMem_empty bit⟩]
    rfl

/-! ## what becomes of the requests -/

theorem count_requestNames_filter (ms : List Request) (p : Request → Bool) (x : String) :
    (requestNames (ms.filter p)).count x + (requestNames (ms.filter fun m => !p m)).count x =
      (requestNames ms).count x := by
  rw [requestNames, requestNames, requestNames, ← List.count_append, ← List.map_append]
  exact ((List.filter_append_perm p ms).map _).count_eq x

theorem mem_requestNames {ms : List Request} {x : String} :
    x ∈ requestNames ms ↔ ∃ m ∈ ms, m.tensorName = x := List.mem_map

theorem count_requestNames_le (hs : Inv cfg s) (r : Fin (n + 1)) (x : String) :
    (requestNames (s.workers r).messages).count x + s.recorded r x ≤ 1 := by
  have hbalance := hs.balance r x
  have hone := (hs.worker r).count_le_one x
  omega

section synced

variable {bits : Finset Nat} {caches : Fin (n + 1) → ResponseCache}

/-- The requests that are tried again in the next cycle. -/
def again (c : ResponseCache) (bits : Finset Nat) (ms : List Request) : List Request :=
  ms.filter fun m => c.hits m && !c.chosen bits m.tensorName

/-- The requests that are sent to rank zero. -/
def sent (c : ResponseCache) (ms : List Request) : List Request := ms.filter fun m => !c.hits m

theorem chosen_eq_true {c : ResponseCache} {x : String} :
    c.chosen bits x = true ↔ ∃ b ∈ bits, c.tensorNameToBit x = some b := by
  rw [chosen, Option.any_eq_true]
  constructor
  · rintro ⟨b, hbit, hb⟩
    exact ⟨b, of_decide_eq_true hb, hbit⟩
  · rintro ⟨b, hb, hbit⟩
    exact ⟨b, hbit, decide_eq_true hb⟩

theorem Synced.chosen (sy : Synced s bits caches) (r : Fin (n + 1)) (x : String) :
    (caches r).chosen bits x = (caches 0).chosen bits x := by
  rw [ResponseCache.chosen, ResponseCache.chosen, sy.same r]

/-- Every rank has asked for what is chosen. -/
theorem Synced.exists_of_chosen (sy : Synced s bits caches) {x : String}
    (hx : (caches 0).chosen bits x = true) (r : Fin (n + 1)) :
    ∃ m ∈ (s.workers r).messages, m.tensorName = x ∧ (caches r).hits m = true := by
  rw [← sy.chosen r, chosen_eq_true] at hx
  obtain ⟨b, hb, hbit⟩ := hx
  obtain ⟨m, hm, hhit, hbit'⟩ := sy.all b hb r
  exact ⟨m, hm, bit_injective (sy.wf r) hbit' hbit, hhit⟩

/-- **A request is tried again, sent, or answered from the cache.** -/
theorem Synced.count_messages (sy : Synced s bits caches) (hs : Inv cfg s) (r : Fin (n + 1))
    (x : String) : (requestNames (s.workers r).messages).count x =
      (requestNames (again (caches r) bits (s.workers r).messages)).count x +
        (requestNames (sent (caches r) (s.workers r).messages)).count x +
        if (caches 0).chosen bits x = true then 1 else 0 := by
  have hhits := count_requestNames_filter (s.workers r).messages (caches r).hits x
  have hchosen := count_requestNames_filter ((s.workers r).messages.filter (caches r).hits)
    (fun m => (caches r).chosen bits m.tensorName) x
  have hagain : ((s.workers r).messages.filter (caches r).hits).filter
      (fun m => !(caches r).chosen bits m.tensorName) =
      again (caches r) bits (s.workers r).messages := by
    rw [again, List.filter_filter]
    exact List.filter_congr fun m _ => Bool.and_comm _ _
  have hanswered : (requestNames (((s.workers r).messages.filter (caches r).hits).filter
      fun m => (caches r).chosen bits m.tensorName)).count x =
      if (caches 0).chosen bits x = true then 1 else 0 := by
    split
    · next hx =>
      obtain ⟨m, hm, rfl, hhit⟩ := sy.exists_of_chosen hx r
      have hpos : 0 < (requestNames (((s.workers r).messages.filter (caches r).hits).filter
          fun m => (caches r).chosen bits m.tensorName)).count m.tensorName :=
        List.count_pos_iff.mpr (mem_requestNames.mpr ⟨m, List.mem_filter.mpr
          ⟨List.mem_filter.mpr ⟨hm, hhit⟩, by rw [sy.chosen, hx]⟩, rfl⟩)
      have hle := count_requestNames_le hs r m.tensorName
      omega
    · next hx =>
      refine List.count_eq_zero.mpr fun hmem => hx ?_
      obtain ⟨m, hm, rfl⟩ := mem_requestNames.mp hmem
      rw [← sy.chosen r]
      exact (List.mem_filter.mp hm).2
  rw [hagain, hanswered] at hchosen
  rw [sent]
  omega

/-- A request for a tensor without a cached response is sent. -/
theorem Synced.count_again_eq_zero (sy : Synced s bits caches) {r : Fin (n + 1)} {x : String}
    (hx : x ∉ (caches r).entryNames) :
    (requestNames (again (caches r) bits (s.workers r).messages)).count x = 0 := by
  refine List.count_eq_zero.mpr fun hmem => hx ?_
  obtain ⟨m, hm, rfl⟩ := mem_requestNames.mp hmem
  obtain ⟨e, he, hname, -⟩ := (stateOf_eq_hit (sy.wf r)).mp
    (of_decide_eq_true (Bool.and_eq_true_iff.mp (List.mem_filter.mp hm).2).1)
  exact hname ▸ List.mem_map_of_mem he

/-- A tensor of which a request is sent has no cached response, on any rank. -/
theorem Synced.notMem_of_sent (sy : Synced s bits caches) {r : Fin (n + 1)} {m : Request}
    (hm : m ∈ sent (caches r) (s.workers r).messages) (q : Fin (n + 1)) :
    m.tensorName ∉ (caches q).entryNames := by
  obtain ⟨hm, hmiss⟩ := List.mem_filter.mp hm
  rw [Bool.not_eq_true'] at hmiss
  rw [entryNames, (sy.coherent q).names, ← (sy.coherent r).names]
  exact sy.valid r m hm hmiss

/-- **What every rank has asked for is chosen or was sent by all.** -/
theorem Synced.chosen_or_sent (sy : Synced s bits caches) (hs : Inv cfg s) {x : String}
    (hall : ∀ r, (requestNames (s.workers r).messages).count x + s.recorded r x = 1) :
    (caches 0).chosen bits x = true ∨ ∀ r,
      s.recorded r x + (requestNames (sent (caches r) (s.workers r).messages)).count x = 1 := by
  by_cases hx : (caches 0).chosen bits x = true
  · exact .inl hx
  have hcached : x ∉ (caches 0).entryNames := fun hmem => hx ?_
  · refine .inr fun r => ?_
    have hcached' : x ∉ (caches r).entryNames := by
      rwa [entryNames, (sy.coherent r).names]
    have hcount := sy.count_messages hs r x
    have hagain := sy.count_again_eq_zero hcached'
    have := hall r
    rw [if_neg hx] at hcount
    omega
  · -- a tensor with a cached response is nowhere recorded, so all ranks have a hit
    have hnone : s.messageTable x = [] := by
      by_contra hne
      exact hs.uncached x hne 0 (sy.subset 0 x hmem)
    have hhits : ∀ r, ∃ m ∈ (s.workers r).messages, m.tensorName = x ∧ (caches r).hits m = true :=
      fun r => by
        have hcount := hall r
        rw [State.recorded, hnone, List.countP_nil, Nat.add_zero] at hcount
        obtain ⟨m, hm, rfl⟩ := mem_requestNames.mp
          (List.count_pos_iff.mp (show 0 < _ by rw [hcount]; exact Nat.one_pos))
        refine ⟨m, hm, rfl, ?_⟩
        cases hhit : (caches r).hits m with
        | true => rfl
        | false =>
            refine absurd ?_ (sy.valid r m hm hhit)
            rwa [entryNames, (sy.coherent r).names]
    obtain ⟨b, hbit⟩ := ((sy.wf 0).names x).mp hmem
    exact chosen_eq_true.mpr ⟨b, sy.of_all x b hbit hhits, hbit⟩

end synced

/-! ## the requests at rank zero -/

section received

variable {requests : Fin (n + 1) → List Request}

/-- The requests for a name after those that the ranks sent came in. -/
def receivedFrom (s : State n) (requests : Fin (n + 1) → List Request) : String → List Request :=
  received s.messageTable ((List.finRange (n + 1)).flatMap requests)

theorem mem_receivedFrom {x : String} {m : Request} :
    m ∈ receivedFrom s requests x ↔
      m ∈ s.messageTable x ∨ m.tensorName = x ∧ ∃ r, m ∈ requests r := by
  simp [receivedFrom, received, and_comm]

/-- All of them are requests for this tensor, of ranks that have it. -/
theorem asked_of_mem_receivedFrom (hs : Inv cfg s)
    (hsub : ∀ r, (requests r).Sublist (s.workers r).messages) {x : String} {m : Request}
    (hm : m ∈ receivedFrom s requests x) : m.tensorName = x ∧ ∃ r, Asked r (s.workers r) m := by
  rcases mem_receivedFrom.mp hm with hm | ⟨hx, r, hm⟩
  · exact hs.recorded x m hm
  · exact ⟨hx, r, (hs.worker r).asked m (List.mem_append_right _ ((hsub r).mem hm))⟩

/-- The requests of one rank among them. -/
theorem countP_receivedFrom (hs : Inv cfg s)
    (hsub : ∀ r, (requests r).Sublist (s.workers r).messages) (r : Fin (n + 1)) (x : String) :
    (receivedFrom s requests x).countP (fun m => m.requestRank = (r : Nat)) =
      s.recorded r x + (requestNames (requests r)).count x := by
  have hsingle : ∀ q, (requests q).countP (fun m => decide (m.requestRank = (r : Nat)) &&
      decide (m.tensorName = x)) = if q = r then (requestNames (requests r)).count x else 0 := by
    intro q
    have hrank : ∀ m ∈ requests q, m.requestRank = (q : Nat) := fun m hm =>
      ((hs.worker q).asked m (List.mem_append_right _ ((hsub q).mem hm))).1
    split
    · next hq =>
      subst hq
      rw [requestNames, List.count_eq_countP, List.countP_map]
      refine List.countP_congr fun m hm => ?_
      simp [hrank m hm]
    · next hq =>
      refine List.countP_eq_zero.mpr fun m hm => ?_
      rw [hrank m hm]
      simp [Fin.val_inj, hq]
  rw [receivedFrom, received, List.countP_append, List.countP_filter, List.countP_flatMap,
    ← Fin.sum_univ_def]
  simp only [Function.comp_def, hsingle, Finset.sum_ite_eq', Finset.mem_univ, if_true]
  rfl

/-- **A tensor is complete at rank zero when every rank has asked for it.** -/
theorem length_receivedFrom (hs : Inv cfg s)
    (hsub : ∀ r, (requests r).Sublist (s.workers r).messages) (x : String) :
    (receivedFrom s requests x).length ≤ n + 1 ∧
    ((receivedFrom s requests x).length = n + 1 ↔
      ∀ r, s.recorded r x + (requestNames (requests r)).count x = 1) := by
  have hcount : ∀ r : Fin (n + 1), ((receivedFrom s requests x).map Request.requestRank).count (r : Nat) =
      s.recorded r x + (requestNames (requests r)).count x := fun r => by
    rw [← countP_receivedFrom hs hsub r x, List.count_eq_countP, List.countP_map]
    exact List.countP_congr fun m _ => by simp
  have hlt : ∀ v ∈ (receivedFrom s requests x).map Request.requestRank, v < n + 1 := by
    simp only [List.forall_mem_map]
    intro m hm
    obtain ⟨-, r, hrank, -⟩ := asked_of_mem_receivedFrom hs hsub hm
    exact hrank ▸ r.isLt
  have hone : ∀ v < n + 1, ((receivedFrom s requests x).map Request.requestRank).count v ≤ 1 :=
    fun v hv => by
      have hle := count_requestNames_le hs ⟨v, hv⟩ x
      have hsent := ((hsub ⟨v, hv⟩).map Request.tensorName).count_le x
      have := hcount ⟨v, hv⟩
      simp only [requestNames] at *
      omega
  have h := length_le_and_eq_iff _ hlt hone
  rw [List.length_map] at h
  refine ⟨h.1, h.2.trans ⟨fun hall r => ?_, fun hall v hv => ?_⟩⟩
  · rw [← hcount r]
    exact hall r r.isLt
  · rw [← hall ⟨v, hv⟩]
    exact hcount ⟨v, hv⟩

/-- The requests for a complete tensor come from all ranks. -/
theorem fromAll_receivedFrom (hs : Inv cfg s)
    (hsub : ∀ r, (requests r).Sublist (s.workers r).messages) {x : String}
    (hx : (receivedFrom s requests x).length = n + 1) : FromAll (receivedFrom s requests x) where
  nonempty := fun h => by simp [h] at hx
  lt := fun m hm => by
    obtain ⟨-, r, hrank, -⟩ := asked_of_mem_receivedFrom hs hsub hm
    rw [hx, hrank]
    exact r.isLt
  nodup := List.nodup_iff_count_le_one.mpr fun v => by
    by_cases hv : v < n + 1
    · have hall := ((length_receivedFrom hs hsub x).2.mp hx) ⟨v, hv⟩
      rw [← countP_receivedFrom hs hsub ⟨v, hv⟩ x] at hall
      rw [List.count_eq_countP, List.countP_map, ← hall]
      exact List.countP_mono_left fun m _ h => by simpa using h
    · refine (List.count_eq_zero.mpr fun hmem => hv ?_).trans_le (Nat.zero_le 1)
      obtain ⟨m, hm, rfl⟩ := List.mem_map.mp hmem
      obtain ⟨-, r, hrank, -⟩ := asked_of_mem_receivedFrom hs hsub hm
      exact hrank ▸ r.isLt

end received

/-! ## the tensors of all ranks -/

/-- All ranks have a tensor of this name, of one type and shape. -/
def Shared (s : State n) (x : String) : Prop :=
  ∃ info, ∀ r, ∃ t, Keyed.lookup TensorTableEntry.tensorName x (s.workers r).tensorTable = some t ∧
    t.params.tensor = info

theorem tensorInfo_of_lookup {table : List TensorTableEntry} {x : String} {t : TensorTableEntry}
    (h : Keyed.lookup TensorTableEntry.tensorName x table = some t) :
    tensorInfo table x = .ok t.params.tensor := by
  rw [tensorInfo, getTensorEntry, h]
  rfl

section chosen

variable {bits : Finset Nat} {caches : Fin (n + 1) → ResponseCache} {x : String}

/-- A chosen entry is for the tensor in the table. -/
theorem Synced.exists_entry (sy : Synced s bits caches) (hs : Inv cfg s)
    (hx : (caches 0).chosen bits x = true) (r : Fin (n + 1)) :
    ∃ e ∈ (caches r).cache, e.name = x ∧ Fits (s.workers r).tensorTable e := by
  obtain ⟨m, hm, rfl, hhit⟩ := sy.exists_of_chosen hx r
  obtain ⟨e, he, hname, hparams⟩ := (stateOf_eq_hit (sy.wf r)).mp (of_decide_eq_true hhit)
  obtain ⟨-, t, ht, htparams⟩ := (hs.worker r).asked m (List.mem_append_right _ hm)
  exact ⟨e, he, hname, t, by rw [hname, ht], hparams.trans htparams.symm⟩

theorem Synced.shared_of_chosen (sy : Synced s bits caches) (hs : Inv cfg s)
    (hx : (caches 0).chosen bits x = true) : Shared s x := by
  obtain ⟨e, he, hname, -⟩ := sy.exists_entry hs hx 0
  refine ⟨e.params.tensor, fun r => ?_⟩
  obtain ⟨er, her, hrname, t, ht, hparams⟩ := sy.exists_entry hs hx r
  obtain ⟨e', he', hshared⟩ := (sy.coherent r).exists_shared her
  have hsame : e' = e := List.inj_on_of_nodup_map (sy.wf 0).nodup he' he <| by
    rw [hname, ← hrname, ← sharedName, hshared, sharedName]
  rw [hsame] at hshared
  refine ⟨t, by rw [← hrname]; exact ht, ?_⟩
  rw [← hparams]
  exact (congrArg Prod.snd hshared).symm

end chosen

section complete

variable {requests : Fin (n + 1) → List Request} {x : String}

theorem exists_asked_of_complete (hs : Inv cfg s)
    (hsub : ∀ r, (requests r).Sublist (s.workers r).messages)
    (hx : (receivedFrom s requests x).length = n + 1) (r : Fin (n + 1)) :
    ∃ m ∈ receivedFrom s requests x, m.tensorName = x ∧ Asked r (s.workers r) m := by
  have hone := (length_receivedFrom hs hsub x).2.mp hx r
  rw [← countP_receivedFrom hs hsub] at hone
  obtain ⟨m, hm, hrank⟩ := List.countP_pos_iff.mp (show 0 < _ by rw [hone]; exact Nat.one_pos)
  obtain ⟨hname, q, hasked⟩ := asked_of_mem_receivedFrom hs hsub hm
  obtain rfl : q = r := Fin.ext (hasked.1.symm.trans (of_decide_eq_true hrank))
  exact ⟨m, hm, hname, hasked⟩

/-- Reductions are constructed only from requests for one type and shape. -/
theorem shared_of_constructed (hs : Inv cfg s)
    (hsub : ∀ r, (requests r).Sublist (s.workers r).messages)
    (hx : (receivedFrom s requests x).length = n + 1) {response : Response}
    (h : constructResponse x (receivedFrom s requests x) = .ok response)
    (hreduces : response.responseType.reduces = true) : Shared s x := by
  have hall := fromAll_receivedFrom hs hsub hx
  obtain ⟨response', h', -, hmatches, hoperation, -⟩ :=
    exists_constructResponse x hall.nonempty hall.lt hall.nodup
  obtain rfl := Except.ok.inj (h.symm.trans h')
  have hne : response.responseType ≠ .error := fun heq => by rw [heq] at hreduces; cases hreduces
  obtain ⟨first, hfirst, -⟩ := exists_asked_of_complete hs hsub hx 0
  refine ⟨first.params.tensor, fun r => ?_⟩
  obtain ⟨m, hm, rfl, -, t, ht, hparams⟩ := exists_asked_of_complete hs hsub hx r
  have hmatch := hmatches.mp hne m hm first hfirst
  have hshape : m.params.tensor.shape = first.params.tensor.shape := by
    have hshapes := hmatch.shapes
    rw [hoperation hne m hm] at hreduces
    rw [ShapesMatch] at hshapes
    cases htype : m.requestType <;> rw [htype] at hshapes hreduces
    · exact hshapes
    · cases hreduces
    · exact hshapes.1
    · exact hshapes
  refine ⟨t, ht, ?_⟩
  rw [hparams]
  cases hm' : m.params.tensor
  cases hfirst' : first.params.tensor
  have hdtype := hmatch.dtype
  rw [hm', hfirst'] at hshape hdtype
  simp only at hshape hdtype
  rw [hshape, hdtype]

end complete

/-! ## the responses of a cycle -/

theorem count_responseNames_of_perm {rs rs' : List Response}
    (h : (rs.flatMap tags).Perm (rs'.flatMap tags)) (x : String) :
    (responseNames rs).count x = (responseNames rs').count x := by
  have hnames : ∀ rs : List Response, responseNames rs = (rs.flatMap tags).map Prod.fst := fun rs => by
    rw [responseNames, List.map_flatMap]
    refine List.flatMap_congr fun r _ => ?_
    simp only [tags, List.map_map, Function.comp_def, List.map_id']
  rw [hnames, hnames]
  exact (h.map _).count_eq x

/-- A response that is fused does with a tensor what one of the responses did. -/
theorem exists_of_tags_perm {rs rs' : List Response} (h : (rs.flatMap tags).Perm (rs'.flatMap tags))
    {r : Response} (hr : r ∈ rs) {x : String} (hx : x ∈ r.tensorNames) :
    ∃ r' ∈ rs', x ∈ r'.tensorNames ∧ r'.responseType = r.responseType := by
  have hmem : (x, r.responseType, r.devices) ∈ rs'.flatMap tags :=
    h.mem_iff.mp (List.mem_flatMap.mpr ⟨r, hr, List.mem_map.mpr ⟨x, hx, rfl⟩⟩)
  obtain ⟨r', hr', htag⟩ := List.mem_flatMap.mp hmem
  obtain ⟨x', hx', heq⟩ := List.mem_map.mp htag
  simp only [Prod.mk.injEq] at heq
  exact ⟨r', hr', heq.1 ▸ hx', heq.2.1⟩

section responses

variable {bits : Finset Nat} {caches : Fin (n + 1) → ResponseCache}

/-- What is answered: the tensors that are chosen, and those that are
complete. -/
structure Answers (s : State n) (chosen complete : String → Prop) [DecidablePred chosen]
    [DecidablePred complete] (fused : List Response) : Prop where
  count : ∀ x, (responseNames fused).count x =
    (if chosen x then 1 else 0) + if complete x then 1 else 0
  nonempty : ∀ r ∈ fused, r.tensorNames ≠ []
  shared : ∀ r ∈ fused, r.responseType.reduces = true → ∀ x ∈ r.tensorNames, Shared s x

/-- The cached responses that are performed, each for one tensor. -/
theorem Synced.count_entries (sy : Synced s bits caches) (x : String) :
    (responseNames (((caches 0).entries (bits.sort (· ≤ ·))).map Entry.response)).count x =
      if (caches 0).chosen bits x = true then 1 else 0 := by
  have hnames : responseNames (((caches 0).entries (bits.sort (· ≤ ·))).map Entry.response) =
      ((caches 0).entries (bits.sort (· ≤ ·))).map Entry.name := by
    rw [responseNames, List.flatMap_map, List.map_eq_flatMap]
    refine List.flatMap_congr fun e he => ?_
    exact (sy.wf 0).single e ((mem_entries (sy.wf 0)).mp he).1
  have hmem : x ∈ ((caches 0).entries (bits.sort (· ≤ ·))).map Entry.name ↔
      (caches 0).chosen bits x = true := by
    rw [chosen_eq_true, List.mem_map]
    constructor
    · rintro ⟨e, he, rfl⟩
      obtain ⟨-, b, hb, hbit⟩ := (mem_entries (sy.wf 0)).mp he
      exact ⟨b, (Finset.mem_sort _).mp hb, hbit⟩
    · rintro ⟨b, hb, hbit⟩
      obtain ⟨e, he, hname⟩ := List.mem_map.mp (((sy.wf 0).names x).mpr ⟨b, hbit⟩)
      exact ⟨e, (mem_entries (sy.wf 0)).mpr ⟨he, b, (Finset.mem_sort _).mpr hb, hname ▸ hbit⟩, hname⟩
  rw [hnames, (nodup_entries (sy.wf 0) (Finset.sort_nodup bits (· ≤ ·))).count]
  simp only [hmem]

/-- The bits that are performed have entries. -/
theorem Synced.exists_entryAt (sy : Synced s bits caches) (r : Fin (n + 1)) :
    ∀ b ∈ bits.sort (· ≤ ·), ∃ e, (caches r).entryAt b = .ok e := fun b hb => by
  obtain ⟨m, -, -, hbit⟩ := sy.all b ((Finset.mem_sort _).mp hb) r
  obtain ⟨e, he, hname⟩ := List.mem_map.mp (((sy.wf r).names _).mpr ⟨b, hbit⟩)
  exact ⟨e, (entryAt_eq_ok (sy.wf r)).mpr ⟨he, hname ▸ hbit⟩⟩

theorem Synced.known_of_mem_entries (sy : Synced s bits caches) (hs : Inv cfg s) (r : Fin (n + 1))
    {e : Entry} (he : e ∈ (caches r).entries (bits.sort (· ≤ ·))) :
    (caches 0).chosen bits e.name = true ∧ e.response.tensorNames = [e.name] ∧
      Known (tensorInfo (s.workers r).tensorTable) e.response := by
  obtain ⟨hmem, b, hb, hbit⟩ := (mem_entries (sy.wf r)).mp he
  have hchosen : (caches 0).chosen bits e.name = true := by
    rw [← sy.chosen r]
    exact chosen_eq_true.mpr ⟨b, (Finset.mem_sort _).mp hb, hbit⟩
  have hsingle := (sy.wf r).single e hmem
  obtain ⟨e', -, hname, t, ht, -⟩ := sy.exists_entry hs hchosen r
  rw [hname] at ht
  exact ⟨hchosen, hsingle, e.name, t.params.tensor, hsingle, tensorInfo_of_lookup ht⟩

/-- All ranks find the same responses in their caches. -/
theorem Synced.entries_eq (sy : Synced s bits caches) (r : Fin (n + 1)) (sorted : List Nat) :
    ((caches r).entries sorted).map Entry.response = ((caches 0).entries sorted).map Entry.response ∧
    ((caches r).entries sorted).map Entry.name = ((caches 0).entries sorted).map Entry.name := by
  have hshared := (sy.coherent r).entries (sy.wf r) (sy.wf 0) (sy.same r) sorted
  have hresponses := congrArg (List.map Prod.fst) hshared
  have hnames := congrArg
    (List.map fun s : Response × TensorInfo => s.1.tensorNames.headD "") hshared
  rw [List.map_map, List.map_map] at hresponses hnames
  exact ⟨hresponses, hnames⟩

/-- What is fused from the cached responses is for shared tensors. -/
theorem Synced.shared_of_mem_entries (sy : Synced s bits caches) (hs : Inv cfg s)
    {response : Response}
    (hr : response ∈ ((caches 0).entries (bits.sort (· ≤ ·))).map Entry.response) {x : String}
    (hx : x ∈ response.tensorNames) : Shared s x := by
  obtain ⟨e, he, rfl⟩ := List.mem_map.mp hr
  obtain ⟨hchosen, hsingle, -⟩ := sy.known_of_mem_entries hs 0 he
  rw [hsingle, List.mem_singleton] at hx
  exact hx ▸ sy.shared_of_chosen hs hchosen

theorem Shared.tensorInfo_eq {x : String} (h : Shared s x) (q r : Fin (n + 1)) :
    tensorInfo (s.workers q).tensorTable x = tensorInfo (s.workers r).tensorTable x := by
  obtain ⟨info, h⟩ := h
  obtain ⟨t, ht, hinfo⟩ := h q
  obtain ⟨t', ht', hinfo'⟩ := h r
  rw [tensorInfo_of_lookup ht, tensorInfo_of_lookup ht', hinfo, hinfo']

/-- **The fast path**: every rank finds the responses in its own cache, and
fuses them like rank zero. -/
theorem Synced.exists_fastPath (sy : Synced s bits caches) (hs : Inv cfg s) :
    ∃ (fused : List Response) (caches' : Fin (n + 1) → ResponseCache),
      (∀ r, fastPath cfg bits (s.workers r).tensorTable (caches r) = .ok (fused, caches' r)) ∧
      Answers s (fun x => (caches 0).chosen bits x = true) (fun _ => False) fused ∧
      ∀ r, (caches' r).WF ∧ (caches' r).bitsOutdated = false ∧
        (caches' r).capacity = (caches r).capacity ∧
        (caches' r).cache.length ≤ cfg.capacity ∧ (caches' r).Coherent (caches' 0) ∧
        ∀ x, x ∈ (caches' r).entryNames ↔ x ∈ (caches r).entryNames := by
  choose used hget hwf hcapacity hcache using fun r =>
    exists_getResponses (sy.wf r) (sy.exists_entryAt r)
  choose caches' hupdate hwf' hfresh hcache' hcapacity' using fun r =>
    exists_updateCacheBits (hwf r)
  have hknown : ∀ r, ∀ response ∈ ((caches 0).entries (bits.sort (· ≤ ·))).map Entry.response,
      Known (tensorInfo (s.workers r).tensorTable) response := fun r response hr => by
    rw [← (sy.entries_eq r _).1] at hr
    obtain ⟨e, he, rfl⟩ := List.mem_map.mp hr
    exact (sy.known_of_mem_entries hs r he).2.2
  obtain ⟨fused, hfuse, hperm, hne⟩ := exists_fuseResponses cfg.threshold (hknown 0)
  refine ⟨fused, caches', fun r => ?_, ⟨fun x => ?_, hne, fun r hr _ x hx => ?_⟩, fun r =>
    ⟨hwf' r, hfresh r, by rw [hcapacity', hcapacity], ?_, ?_, fun x => ?_⟩⟩
  · have hsame : fuseResponses cfg.threshold (tensorInfo (s.workers r).tensorTable)
        (((caches r).entries (bits.sort (· ≤ ·))).map Entry.response) = .ok fused := by
      rw [(sy.entries_eq r _).1, ← hfuse]
      refine fuseResponses_congr (hknown r) fun response hr name hname => ?_
      exact (sy.shared_of_mem_entries hs hr (by rw [hname]; exact List.mem_singleton_self name)).tensorInfo_eq r 0
    rw [fastPath, hget]
    simp only [ok_bind, hsame, hupdate]
    rfl
  · rw [count_responseNames_of_perm hperm, sy.count_entries]
    simp only [if_false, Nat.add_zero]
  · obtain ⟨r', hr', hx', -⟩ := exists_of_tags_perm hperm hr hx
    exact sy.shared_of_mem_entries hs hr' hx'
  · rw [hcache', hcache, (Keyed.foldl_touch_perm (sy.wf r).nodup _).length_eq]
    exact (sy.bounded r).trans (hs.worker r).bounded
  · have htouched : (used r).Coherent (used 0) :=
      (sy.coherent r).touch _ (by rw [hcache r, (sy.entries_eq r _).2]) (hcache 0)
    rwa [Coherent, hcache', hcache']
  · have hperm := Keyed.foldl_touch_perm (sy.wf r).nodup
      (((caches r).entries (bits.sort (· ≤ ·))).map Entry.name)
    rw [entryNames, hcache', hcache]
    exact (hperm.map Entry.name).mem_iff

end responses

end ContainerHackathon.Horovod
