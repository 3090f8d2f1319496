import ContainerHackathon.Horovod.Outcome

/-!
# Horovod.Agreement

The invariant holds in every state that the ranks reach, in whatever order
they enqueue, poll, compute and perform.  So no step fails, all ranks perform
the same responses in the same order, and every tensor is performed once.  As
in `Horovod.Controller`, no rank joins or shuts down.
-/

namespace ContainerHackathon.Horovod

open Fallible ResponseCache

variable {n : Nat} {cfg : Config} {s s' : State n} {r : Fin (n + 1)} {w : Worker}

/-! ## one rank -/

theorem Inv.init (cfg : Config) :
    Inv cfg (⟨fun _ => Worker.start cfg, fun _ => []⟩ : State n) where
  worker := fun _ => {
    nodup := List.nodup_nil
    asked := fun _ h => absurd h List.not_mem_nil
    wf := wf_empty cfg.capacity
    fresh := rfl
    capacity := rfl
    bounded := Nat.zero_le _
    performed := fun _ h => absurd h List.not_mem_nil
    enqueued := fun _ => rfl }
  balance := fun _ _ => rfl
  recorded := fun _ _ h => absurd h List.not_mem_nil
  short := fun _ => Nat.succ_pos n
  uncached := fun _ h => absurd rfl h
  coherent := fun _ => rfl
  history := fun _ => rfl

/-- What a step of one rank has to keep. -/
theorem Inv.set (hs : Inv cfg s) (hw : w.Inv cfg r)
    (hbalance : ∀ x, (requestNames w.messageQueue).count x + (requestNames w.messages).count x +
      s.recorded r x + (responseNames w.responses).count x = w.tensorNames.count x)
    (hasked : ∀ x, ∀ m ∈ s.messageTable x, Asked r (s.workers r) m → Asked r w m)
    (hcache : w.cache = (s.workers r).cache) (hhistory : w.history = (s.workers r).history) :
    Inv cfg (s.set r w) := by
  have hself : (s.set r w).workers r = w := s.workers_set r w
  have hother : ∀ q, q ≠ r → (s.set r w).workers q = s.workers q :=
    fun q hq => s.workers_set_of_ne w hq
  have hcaches : ∀ q, ((s.set r w).workers q).cache = (s.workers q).cache := fun q => by
    by_cases hq : q = r
    · rw [hq, hself, hcache]
    · rw [hother q hq]
  have hhistories : ∀ q, ((s.set r w).workers q).history = (s.workers q).history := fun q => by
    by_cases hq : q = r
    · rw [hq, hself, hhistory]
    · rw [hother q hq]
  refine ⟨fun q => ?_, fun q x => ?_, fun x m hm => ?_, hs.short, fun x hx q => ?_, fun q => ?_,
    fun q => ?_⟩
  · by_cases hq : q = r
    · subst hq
      rwa [hself]
    · rw [hother q hq]
      exact hs.worker q
  · by_cases hq : q = r
    · subst hq
      rw [hself]
      exact hbalance x
    · rw [hother q hq]
      exact hs.balance q x
  · obtain ⟨hx, q, hq⟩ := hs.recorded x m hm
    refine ⟨hx, q, ?_⟩
    by_cases hqr : q = r
    · subst hqr
      rw [hself]
      exact hasked x m hm hq
    · rwa [hother q hqr]
  · rw [hcaches]
    exact hs.uncached x hx q
  · rw [hcaches, hcaches]
    exact hs.coherent q
  · rw [hhistories, hhistories]
    exact hs.history q

/-- The tensors of the responses that are still to be performed are in the
table. -/
theorem Inv.mem_of_answered (hs : Inv cfg s) (r : Fin (n + 1)) {x : String}
    (hx : x ∈ responseNames (s.workers r).responses) : x ∈ (s.workers r).tensorNames := by
  rw [← List.count_pos_iff, ← hs.balance r x]
  exact Nat.add_pos_right _ (List.count_pos_iff.mpr hx)

/-- A larger table does not change what responses and requests are about. -/
theorem filterMap_lookup_append {table added : List TensorTableEntry} {names : List String}
    (h : ∀ x ∈ names, x ∈ table.map TensorTableEntry.tensorName) :
    (names.filterMap fun x => Keyed.lookup TensorTableEntry.tensorName x (table ++ added)) =
      names.filterMap fun x => Keyed.lookup TensorTableEntry.tensorName x table :=
  List.filterMap_congr fun x hx => by
    obtain ⟨t, ht⟩ := Keyed.exists_lookup (h x hx)
    rw [ht, Keyed.lookup_append ht]

/-! ### enqueueing -/

/-- A new tensor is in none of the responses. -/
theorem Inv.history_enqueue (hs : Inv cfg s) (r : Fin (n + 1)) (type : RequestType)
    (params : TensorParams) (rootRank : Int) (name : String) :
    ((s.workers r).enqueue r type params rootRank name).history = (s.workers r).history := by
  rw [Worker.enqueue]
  split
  · rfl
  · rw [Worker.history, Worker.history]
    refine congrArg₂ (· ++ ·) rfl (List.map_congr_left fun response hresponse => ?_)
    rw [filterMap_lookup_append fun x hx => ?_]
    exact hs.mem_of_answered r (List.mem_flatMap.mpr ⟨response, hresponse, hx⟩)

theorem Inv.enqueue (hs : Inv cfg s) (r : Fin (n + 1)) (type : RequestType) (params : TensorParams)
    (rootRank : Int) (name : String) :
    Inv cfg (s.set r ((s.workers r).enqueue r type params rootRank name)) := by
  have hhistory := hs.history_enqueue r type params rootRank name
  rw [Worker.enqueue] at hhistory ⊢
  split at hhistory
  · next hold =>
    rw [if_pos hold, State.set, Function.update_eq_self]
    exact hs
  · next hnew =>
    rw [if_neg hnew]
    have hw := hs.worker r
    have hlookup : Keyed.lookup TensorTableEntry.tensorName name
        ((s.workers r).tensorTable ++ [⟨name, params⟩]) = some ⟨name, params⟩ := by
      rw [Keyed.lookup, List.find?_append, Option.or_eq_some_iff]
      refine .inr ⟨Keyed.lookup_eq_none.mpr hnew, ?_⟩
      simp
    have hasked : ∀ m, Asked r (s.workers r) m → Asked r { s.workers r with
        tensorTable := (s.workers r).tensorTable ++ [⟨name, params⟩]
        messageQueue := (s.workers r).messageQueue ++ [⟨r, type, params, rootRank, name⟩]
        enqueued := (s.workers r).enqueued ++ [name] } m := fun m hm => by
      obtain ⟨hrank, t, ht, hparams⟩ := hm
      exact ⟨hrank, t, Keyed.lookup_append ht, hparams⟩
    refine hs.set ⟨?_, fun m hm => ?_, hw.wf, hw.fresh, hw.capacity, hw.bounded, hw.performed, fun x => ?_⟩
      (fun x => ?_) (fun x m _ => hasked m) rfl hhistory
    · rw [Worker.tensorNames, List.map_append, List.map_singleton]
      exact hw.nodup.append (List.nodup_singleton name)
        (List.disjoint_singleton.mpr hnew)
    · rw [List.append_assoc, List.mem_append, List.mem_append, List.mem_singleton] at hm
      rcases hm with hm | rfl | hm
      · exact hasked m (hw.asked m (List.mem_append_left _ hm))
      · exact ⟨rfl, _, hlookup, rfl⟩
      · exact hasked m (hw.asked m (List.mem_append_right _ hm))
    · have := hw.enqueued x
      simp only [Worker.tensorNames, List.map_append, List.map_singleton, List.count_append] at this ⊢
      omega
    · have := hs.balance r x
      simp only [Worker.tensorNames, requestNames, List.map_append, List.map_singleton,
        List.count_append] at this ⊢
      simp only [Worker.messages, Worker.responses] at this ⊢
      omega

/-! ### polling -/

theorem history_poll {w' : Worker} (h : w.poll = some w') : w'.history = w.history := by
  rw [Worker.poll] at h
  split at h
  · next hphase =>
    obtain rfl := Option.some.inj h
    simp only [Worker.history, Worker.responses, hphase]
  · cases h

theorem Inv.poll (hs : Inv cfg s) (h : (s.workers r).poll = some w) : Inv cfg (s.set r w) := by
  have hw := hs.worker r
  have hhistory := history_poll h
  rw [Worker.poll] at h
  split at h
  · next hphase =>
    obtain rfl := Option.some.inj h
    refine hs.set ⟨hw.nodup, fun m hm => ?_, hw.wf, hw.fresh, hw.capacity, hw.bounded,
      hw.performed, hw.enqueued⟩ (fun x => ?_) (fun x m _ hm => hm) rfl hhistory
    · exact hw.asked m (List.mem_append_left _ (by simpa [Worker.messages] using hm))
    · have := hs.balance r x
      simp only [Worker.messages, Worker.responses, hphase, requestNames, responseNames,
        List.map_nil, List.flatMap_nil, List.count_nil] at this ⊢
      exact (by omega : _ + _ + _ + _ = _).trans this
  · cases h

/-! ### performing -/

/-- **The tensors of a response are taken out of the table.** -/
theorem exists_getTensorEntries {table : List TensorTableEntry} {names : List String}
    (hnodup : names.Nodup) (h : ∀ x ∈ names, x ∈ table.map TensorTableEntry.tensorName) :
    ∃ entries rest, getTensorEntries table names = .ok (entries, rest) ∧
      entries.map TensorTableEntry.tensorName = names ∧
      entries = names.filterMap (fun x => Keyed.lookup TensorTableEntry.tensorName x table) ∧
      rest.map TensorTableEntry.tensorName =
        (table.map TensorTableEntry.tensorName).filter (· ∉ names) ∧
      ∀ x ∉ names, Keyed.lookup TensorTableEntry.tensorName x rest =
        Keyed.lookup TensorTableEntry.tensorName x table := by
  induction names generalizing table with
  | nil => exact ⟨[], table, rfl, rfl, rfl, by simp, fun _ _ => rfl⟩
  | cons name names ih =>
      rw [List.forall_mem_cons] at h
      rw [List.nodup_cons] at hnodup
      obtain ⟨t, ht⟩ := Keyed.exists_lookup h.1
      have hne : ∀ x ∈ names, x ≠ name := fun x hx hname => hnodup.1 (hname ▸ hx)
      obtain ⟨entries, rest, hrun, hnames, hentries, hrest, hlookup⟩ :=
        ih hnodup.2 fun x hx => Keyed.mem_map_key_without.mpr ⟨h.2 x hx, hne x hx⟩
      refine ⟨t :: entries, rest, ?_, ?_, ?_, ?_, fun x hx => ?_⟩
      · rw [getTensorEntries, ht]
        simp only [hrun, ok_bind]
        rfl
      · rw [List.map_cons, hnames, Keyed.key_of_lookup ht]
      · rw [List.filterMap_cons, ht, hentries]
        congr 1
        exact List.filterMap_congr fun x hx => Keyed.lookup_without (hne x hx)
      · rw [hrest, Keyed.map_key_without, List.filter_filter]
        exact List.filter_congr fun x _ => by simp [Bool.and_comm]
      · rw [List.mem_cons, not_or] at hx
        rw [hlookup x hx.2, Keyed.lookup_without hx.1]

theorem Inv.perform (hs : Inv cfg s) {result : Except Failure Worker}
    (h : (s.workers r).perform = some result) :
    ∃ w, result = .ok w ∧ w.history = (s.workers r).history ∧ Inv cfg (s.set r w) := by
  have hw := hs.worker r
  rw [Worker.perform] at h
  split at h
  · next response responses hphase =>
    have hanswered : ∀ x, (responseNames (s.workers r).responses).count x =
        response.tensorNames.count x + (responseNames responses).count x := fun x => by
      rw [Worker.responses, hphase, responseNames, List.flatMap_cons, List.count_append]
      rfl
    -- every tensor is in one response, and nowhere else
    have hbalance : ∀ x, (requestNames (s.workers r).messageQueue).count x +
        (requestNames (s.workers r).messages).count x + s.recorded r x +
        (response.tensorNames.count x + (responseNames responses).count x) ≤ 1 := fun x => by
      rw [← hanswered, hs.balance]
      exact hw.count_le_one x
    have hnodup : response.tensorNames.Nodup := List.nodup_iff_count_le_one.mpr fun x => by
      have := hbalance x
      omega
    obtain ⟨entries, rest, hentries, hnames, hlookups, hrest, hlookup⟩ :=
      exists_getTensorEntries hnodup fun x hx => hs.mem_of_answered r <| by
        rw [← List.count_pos_iff, hanswered]
        exact Nat.add_pos_left (List.count_pos_iff.mpr hx) _
    have hcount : ∀ x, (rest.map TensorTableEntry.tensorName).count x +
        response.tensorNames.count x = (s.workers r).tensorNames.count x := fun x => by
      have hle := hbalance x
      rw [hrest]
      by_cases hx : x ∈ response.tensorNames
      · have hpos := List.count_pos_iff.mpr hx
        have htable := hs.balance r x
        rw [hanswered] at htable
        have hzero : ((((s.workers r).tensorTable.map TensorTableEntry.tensorName).filter
            (· ∉ response.tensorNames)).count x) = 0 :=
          List.count_eq_zero.mpr fun hmem => by simpa [hx] using (List.mem_filter.mp hmem).2
        omega
      · rw [List.count_filter (by simpa using hx), List.count_eq_zero.mpr hx]
        rfl
    have hother : ∀ x, 0 < (requestNames (s.workers r).messageQueue).count x +
        (requestNames (s.workers r).messages).count x + s.recorded r x +
        (responseNames responses).count x → x ∉ response.tensorNames := fun x hpos hx => by
      have hle := hbalance x
      have := List.count_pos_iff.mpr hx
      omega
    have hasked : ∀ m : Request, 0 < (requestNames (s.workers r).messageQueue).count m.tensorName +
        (requestNames (s.workers r).messages).count m.tensorName + s.recorded r m.tensorName →
        Asked r (s.workers r) m →
        Asked r ((s.workers r).finish response responses entries rest) m := by
      rintro m hpos ⟨hrank, t, ht, hparams⟩
      exact ⟨hrank, t, (hlookup _ (hother _ (Nat.add_pos_left hpos _))).trans ht, hparams⟩
    have hmessages : (s.workers r).messages = [] := by rw [Worker.messages, hphase]
    have hsame : ∀ q ∈ responses,
        (q.tensorNames.filterMap fun x => Keyed.lookup TensorTableEntry.tensorName x rest) =
        q.tensorNames.filterMap fun x =>
          Keyed.lookup TensorTableEntry.tensorName x (s.workers r).tensorTable := fun q hq =>
      List.filterMap_congr fun x hx => hlookup x <| hother x <|
        Nat.add_pos_right _ (List.count_pos_iff.mpr (List.mem_flatMap.mpr ⟨q, hq, hx⟩))
    have hlater : responses.map (fun q => common q
        (q.tensorNames.filterMap fun x => Keyed.lookup TensorTableEntry.tensorName x rest)) =
        responses.map fun q => common q (q.tensorNames.filterMap fun x =>
          Keyed.lookup TensorTableEntry.tensorName x (s.workers r).tensorTable) :=
      List.map_congr_left fun q hq => by rw [hsame q hq]
    have hhistory : ((s.workers r).finish response responses entries rest).history =
        (s.workers r).history := by
      simp only [Worker.history, Worker.finish, Worker.responses, hphase, List.map_append,
        List.map_cons, List.map_nil, List.append_assoc, List.singleton_append, hlater, hlookups]
    refine ⟨(s.workers r).finish response responses entries rest,
      (Option.some.inj h).symm.trans (by rw [hentries]; rfl), hhistory,
      hs.set ⟨?_, fun m hm => ?_, hw.wf, hw.fresh, hw.capacity, hw.bounded, ?_, fun x => ?_⟩ (fun x => ?_)
        (fun x m hm hask => hasked m ?_ hask) rfl hhistory⟩
    · rw [Worker.tensorNames, Worker.finish, hrest]
      exact hw.nodup.filter _
    · have hm : m ∈ (s.workers r).messageQueue := by
        simpa [Worker.messages, Worker.finish] using hm
      have hpos := List.count_pos_iff.mpr (mem_requestNames.mpr ⟨m, hm, rfl⟩)
      exact hasked m (by omega) (hw.asked m (List.mem_append_left _ hm))
    · simp only [Worker.finish, List.mem_append, List.mem_singleton]
      rintro p (hp | rfl)
      · exact hw.performed p hp
      · exact hnames
    · have henqueued := hw.enqueued x
      have := hcount x
      simp only [responseNames, List.map_append, List.flatMap_append, List.map_singleton,
        List.flatMap_singleton, List.count_append, Worker.tensorNames, Worker.finish]
        at henqueued this ⊢
      omega
    · have htable := hs.balance r x
      have := hcount x
      rw [hanswered, hmessages] at htable
      simp only [Worker.messages, Worker.responses, Worker.tensorNames, Worker.finish] at htable this ⊢
      omega
    · obtain ⟨rfl, -⟩ := hs.recorded x m hm
      exact Nat.add_pos_right _ (List.countP_pos_iff.mpr ⟨m, hm, decide_eq_true hask.1⟩)
  · cases h

/-! ## all ranks -/

theorem responses_of_isPolled (h : w.isPolled = true) : w.responses = [] := by
  cases hphase : w.phase with
  | polled ms => rw [Worker.responses, hphase]
  | performing rs =>
      rw [Worker.isPolled, hphase] at h
      cases h

/-- Ranks have in common what they are about to perform. -/
theorem common_congr {response : Response}
    (h : response.responseType.reduces = true → ∀ x ∈ response.tensorNames, Shared s x)
    (q r : Fin (n + 1)) :
    common response (response.tensorNames.filterMap fun x =>
      Keyed.lookup TensorTableEntry.tensorName x (s.workers q).tensorTable) =
    common response (response.tensorNames.filterMap fun x =>
      Keyed.lookup TensorTableEntry.tensorName x (s.workers r).tensorTable) := by
  rw [common, common]
  split
  · next hreduces =>
    rw [List.map_filterMap, List.map_filterMap]
    refine congrArg _ (List.filterMap_congr fun x hx => ?_)
    obtain ⟨info, hall⟩ := h hreduces x hx
    obtain ⟨t, ht, hinfo⟩ := hall q
    obtain ⟨t', ht', hinfo'⟩ := hall r
    rw [ht, ht', Option.map_some, Option.map_some, hinfo, hinfo']
  · rfl

/-- A computation adds its responses to what will be performed. -/
theorem Outcome.history (hpolled : ∀ r, (s.workers r).isPolled = true)
    {tried : Fin (n + 1) → List Request} {caches : Fin (n + 1) → ResponseCache}
    {fused : List Response} (h : Outcome cfg s s' tried caches fused) (r : Fin (n + 1)) :
    (s'.workers r).history = (s.workers r).history ++ fused.map fun p =>
      common p (p.tensorNames.filterMap fun x =>
        Keyed.lookup TensorTableEntry.tensorName x (s.workers r).tensorTable) := by
  rw [h.workers, Worker.history, Worker.history, responses_of_isPolled (hpolled r), List.map_nil,
    List.append_nil]
  rfl

/-- A computation keeps everything accounted for. -/
theorem Outcome.inv (hs : Inv cfg s) (hpolled : ∀ r, (s.workers r).isPolled = true)
    {tried : Fin (n + 1) → List Request} {caches : Fin (n + 1) → ResponseCache}
    {fused : List Response} (h : Outcome cfg s s' tried caches fused) : Inv cfg s' := by
  have hasked : ∀ q m, Asked q (s.workers q) m → Asked q (s'.workers q) m := fun q m hm => by
    rw [h.workers]
    exact hm
  have hnone := fun q => responses_of_isPolled (hpolled q)
  refine ⟨fun q => ?_, fun q x => ?_, fun x m hm => ?_, h.short, fun x hx q => ?_, fun q => ?_,
    fun q => ?_⟩
  · have hw := hs.worker q
    refine ⟨by rw [h.workers]; exact hw.nodup, fun m hm => hasked q m (hw.asked m ?_),
      by rw [h.workers]; exact h.wf q, by rw [h.workers]; exact h.fresh q, ?_,
      by rw [h.workers]; exact h.bounded q,
      by rw [h.workers]; exact hw.performed, by rw [h.workers]; exact hw.enqueued⟩
    · rw [h.workers] at hm
      have hm : m ∈ (s.workers q).messageQueue ++ tried q := by
        simpa [Worker.compute, Worker.messages] using hm
      exact List.mem_append.mpr ((List.mem_append.mp hm).imp_right (h.sublist q).mem)
    · rw [h.workers]
      exact (h.capacity q).trans hw.capacity
  · have hbalance := hs.balance q x
    have hcycle := h.balance q x
    rw [hnone q] at hbalance
    rw [h.workers]
    simp only [Worker.compute, Worker.messages, Worker.responses, Worker.tensorNames, requestNames,
      responseNames, List.map_append, List.count_append, List.map_nil, List.flatMap_nil,
      List.count_nil] at hbalance hcycle ⊢
    omega
  · rcases h.recorded x m hm with hm | ⟨hx, q, hm⟩
    · obtain ⟨hx, q, hq⟩ := hs.recorded x m hm
      exact ⟨hx, q, hasked q m hq⟩
    · exact ⟨hx, q, hasked q m ((hs.worker q).asked m (List.mem_append_right _ hm))⟩
  · rw [h.workers]
    exact h.uncached x hx q
  · rw [h.workers, h.workers]
    exact h.coherent q
  · rw [h.history hpolled, h.history hpolled, hs.history q]
    exact congrArg _ (List.map_congr_left fun p hp => common_congr (h.shared p hp) q 0)

/-- **What every action does**: it succeeds and keeps the invariant. -/
theorem Inv.act (hs : Inv cfg s) {a : Action n} {result : Except Failure (State n)}
    (h : s.act cfg a = some result) : ∃ s', result = .ok s' ∧ Inv cfg s' := by
  cases a with
  | enqueue r type params rootRank name =>
      exact ⟨_, (Option.some.inj h).symm, hs.enqueue r type params rootRank name⟩
  | poll r =>
      obtain ⟨w, hw, rfl⟩ := Option.map_eq_some_iff.mp h
      exact ⟨_, rfl, hs.poll hw⟩
  | compute stalled =>
      rw [State.act] at h
      split at h
      · next hpolled =>
        obtain ⟨s', tried, caches, fused, hrun, hout⟩ := exists_computeResponseList hs stalled
        exact ⟨s', (Option.some.inj h).symm.trans hrun, hout.inv hs hpolled⟩
      · cases h
  | perform r =>
      obtain ⟨result', hw, rfl⟩ := Option.map_eq_some_iff.mp h
      obtain ⟨w, rfl, -, hinv⟩ := hs.perform hw
      exact ⟨_, rfl, hinv⟩

/-- A computation that took place. -/
theorem exists_outcome (hs : Inv cfg s) {stalled : Fin (n + 1) → Request → Bool}
    (h : s.act cfg (.compute stalled) = some (.ok s')) :
    (∀ r, (s.workers r).isPolled = true) ∧
      ∃ tried caches fused, Outcome cfg s s' tried caches fused := by
  rw [State.act] at h
  split at h
  · next hpolled =>
    obtain ⟨s'', tried, caches, fused, hrun, hout⟩ := exists_computeResponseList hs stalled
    obtain rfl := Except.ok.inj ((Option.some.inj h).symm.trans hrun)
    exact ⟨hpolled, tried, caches, fused, hout⟩
  · cases h

/-- **The invariant holds in every state that is reached.** -/
theorem inv_of_reachable (h : Transition.Reachable (system cfg n) s) : Inv cfg s := by
  refine h.invariant (fun s hinit => ?_) fun s a s' _ hs hstep => ?_
  · rw [show s = ⟨fun _ => Worker.start cfg, fun _ => []⟩ from hinit]
    exact Inv.init cfg
  · obtain ⟨result, hact, hok⟩ := Option.bind_eq_some_iff.mp hstep
    obtain ⟨s'', rfl, hs''⟩ := hs.act hact
    exact Option.some.inj hok ▸ hs''

/-! ### a run of two ranks -/

/-- Two ranks that cache two responses and fuse 64 bytes. -/
def sampleConfig : Config := ⟨2, 64, Nat.two_pos⟩

def sampleParams : TensorParams := ⟨⟨.float32, [3]⟩, cpuDeviceId⟩

/-- Both have enqueued a gradient, and start a cycle. -/
def sampleState : State 1 where
  workers := fun r => {
    tensorTable := [⟨"grad", sampleParams⟩]
    messageQueue := []
    phase := .polled [⟨r, .allreduce, sampleParams, 0, "grad"⟩]
    cache := .empty 2
    enqueued := ["grad"]
    performed := [] }
  messageTable := fun _ => []

theorem reachable_sampleState : Transition.Reachable (system sampleConfig 1) sampleState := by
  have hrun : Transition.run (system sampleConfig 1)
      [.enqueue 0 .allreduce sampleParams 0 "grad", .enqueue 1 .allreduce sampleParams 0 "grad",
        .poll 0, .poll 1] ⟨fun _ => Worker.start sampleConfig, fun _ => []⟩ = some sampleState := by
    refine congrArg some (congrArg (State.mk · fun _ => []) (funext fun r => ?_))
    fin_cases r <;> rfl
  exact Transition.reachable_of_run _ rfl hrun

theorem compute_sampleState : sampleState.act sampleConfig (.compute fun _ _ => false) =
    some (computeResponseList sampleConfig (fun _ _ => false) sampleState) := by
  rw [State.act]
  exact if_pos fun _ => rfl

/-- Both enqueue a reduction. -/
def bothEnqueue (dtype : DataType) (shape : List Nat) (name : String) : List (Action 1) :=
  [.enqueue 0 .allreduce ⟨⟨dtype, shape⟩, cpuDeviceId⟩ 0 name,
    .enqueue 1 .allreduce ⟨⟨dtype, shape⟩, cpuDeviceId⟩ 0 name]

/-- Both perform a fused reduction, whose two responses are cached, and start
a cycle with one of these tensors and a new one. -/
def twoCycles : List (Action 1) :=
  bothEnqueue .float32 [3] "grad" ++ bothEnqueue .float32 [2] "bias" ++
    [.poll 0, .poll 1, .compute fun _ _ => false, .perform 0, .perform 1] ++
    bothEnqueue .float32 [3] "grad" ++ bothEnqueue .float64 [] "loss" ++ [.poll 0, .poll 1]

/-- The cached and the new response are to be performed: rank one is through
with both, and has enqueued the gradient again, rank zero is through with
one. -/
def performedOnOne : List (Action 1) :=
  twoCycles ++ [.compute fun _ _ => false, .perform 1, .perform 1, .perform 0,
    .enqueue 1 .allreduce sampleParams 0 "grad"]

/-- The state behind a schedule of two ranks. -/
def stateAfter (as : List (Action 1)) : State 1 :=
  (Transition.run (system sampleConfig 1) as ⟨fun _ => Worker.start sampleConfig, fun _ => []⟩).getD
    sampleState

theorem reachable_twoCycles :
    Transition.Reachable (system sampleConfig 1) (stateAfter twoCycles) :=
  Transition.reachable_getD _ rfl (by decide +kernel)

theorem reachable_performedOnOne :
    Transition.Reachable (system sampleConfig 1) (stateAfter performedOnOne) :=
  Transition.reachable_getD _ rfl (by decide +kernel)

/-! ## no failures -/

/-- **No step of any rank fails**: no `.at` throws, no iterator is invalid, no
vector is written outside, no response is overwritten, no tensor is missing. -/
theorem act_ok (h : Transition.Reachable (system cfg n) s) {a : Action n}
    {result : Except Failure (State n)} (hact : s.act cfg a = some result) :
    ∃ s', result = .ok s' := by
  obtain ⟨s', hok, -⟩ := (inv_of_reachable h).act hact
  exact ⟨s', hok⟩

theorem act_ok_sampleState : ∃ s',
    sampleState.act sampleConfig (.compute fun _ _ => false) = some (.ok s') := by
  obtain ⟨s', hok⟩ := act_ok reachable_sampleState compute_sampleState
  exact ⟨s', compute_sampleState.trans (congrArg some hok)⟩

/-! ## agreement -/

/-- What a rank has performed, as far as all ranks have it in common. -/
def Worker.done (w : Worker) : List (Response × List TensorInfo) :=
  w.performed.map fun p => common p.1 p.2

/-- **All ranks perform the same responses in the same order**, reductions on
tensors of the same types and shapes; a rank may only be behind. -/
theorem done_prefix_or_prefix (h : Transition.Reachable (system cfg n) s) (q r : Fin (n + 1)) :
    (s.workers q).done <+: (s.workers r).done ∨ (s.workers r).done <+: (s.workers q).done := by
  have hs := inv_of_reachable h
  have hhistory : (s.workers q).history = (s.workers r).history :=
    (hs.history q).trans (hs.history r).symm
  have hq : (s.workers q).done <+: (s.workers q).history := List.prefix_append _ _
  have hr : (s.workers r).done <+: (s.workers q).history := by
    rw [hhistory]
    exact List.prefix_append _ _
  exact List.prefix_or_prefix_of_prefix hq hr

/-- Rank one has performed a response from the caches, and a new one, that
rank zero has still to perform. -/
theorem done_prefix_performedOnOne :
    ((stateAfter performedOnOne).workers 0).done.map (fun p => p.1.tensorNames) =
      [["grad", "bias"], ["grad"]] ∧
    ((stateAfter performedOnOne).workers 1).done.map (fun p => p.1.tensorNames) =
      [["grad", "bias"], ["grad"], ["loss"]] ∧
    (((stateAfter performedOnOne).workers 0).done <+: ((stateAfter performedOnOne).workers 1).done ∨
      ((stateAfter performedOnOne).workers 1).done <+:
        ((stateAfter performedOnOne).workers 0).done) :=
  ⟨by decide +kernel, by decide +kernel, done_prefix_or_prefix reachable_performedOnOne 0 1⟩

/-- **All ranks have cached the same responses under the same bits**, for
tensors of the same types and shapes, and no more than they may. -/
theorem cache_agreement (h : Transition.Reachable (system cfg n) s) (q r : Fin (n + 1)) :
    (∀ name, (s.workers q).cache.tensorNameToBit name = (s.workers r).cache.tensorNameToBit name) ∧
    (∀ bit e, (s.workers q).cache.entryAt bit = .ok e →
      ∃ e', (s.workers r).cache.entryAt bit = .ok e' ∧ e'.response = e.response ∧
        e'.params.tensor = e.params.tensor) ∧
    (s.workers q).cache.cache.length ≤ cfg.capacity := by
  have hs := inv_of_reachable h
  have hbits : (s.workers q).cache.tensorNameToBit = (s.workers r).cache.tensorNameToBit :=
    (hs.bits q).trans (hs.bits r).symm
  have hcoherent : (s.workers q).cache.Coherent (s.workers r).cache :=
    (hs.coherent q).trans (hs.coherent r).symm
  refine ⟨fun name => by rw [hbits], fun bit e he => ?_, (hs.worker q).bounded⟩
  obtain ⟨e', he', hshared⟩ := hcoherent.entryAt (hs.worker q).wf (hs.worker r).wf hbits he
  exact ⟨e', he', congrArg Prod.fst hshared, congrArg Prod.snd hshared⟩

/-- Two responses are cached under the same bits. -/
theorem cache_agreement_twoCycles :
    (∀ r : Fin 2, ((stateAfter twoCycles).workers r).cache.tensorNameToBit "bias" = some 1 ∧
      ((stateAfter twoCycles).workers r).cache.tensorNameToBit "grad" = some 0) ∧
    (∀ name, ((stateAfter twoCycles).workers 0).cache.tensorNameToBit name =
      ((stateAfter twoCycles).workers 1).cache.tensorNameToBit name) ∧
    (∀ bit e, ((stateAfter twoCycles).workers 0).cache.entryAt bit = .ok e →
      ∃ e', ((stateAfter twoCycles).workers 1).cache.entryAt bit = .ok e' ∧
        e'.response = e.response ∧ e'.params.tensor = e.params.tensor) ∧
    ((stateAfter twoCycles).workers 0).cache.cache.length ≤ 2 :=
  ⟨by decide +kernel, cache_agreement reachable_twoCycles 0 1⟩

/-! ## exactly once -/

/-- **Every tensor that a rank accepted is performed exactly once, or still to
be performed**: then it is once in the queue, among the requests of the cycle,
at rank zero, or in a response. -/
theorem enqueued_eq (h : Transition.Reachable (system cfg n) s) (r : Fin (n + 1)) (x : String) :
    (s.workers r).enqueued.count x =
      (responseNames ((s.workers r).performed.map Prod.fst)).count x +
      ((requestNames (s.workers r).messageQueue).count x +
        (requestNames (s.workers r).messages).count x + s.recorded r x +
        (responseNames (s.workers r).responses).count x) ∧
    (requestNames (s.workers r).messageQueue).count x +
      (requestNames (s.workers r).messages).count x + s.recorded r x +
      (responseNames (s.workers r).responses).count x ≤ 1 := by
  have hs := inv_of_reachable h
  rw [hs.balance r x]
  exact ⟨(hs.worker r).enqueued x, (hs.worker r).count_le_one x⟩

/-- Rank one has performed the gradient twice and asks for it again; rank
zero has still to perform the loss. -/
theorem enqueued_eq_performedOnOne :
    (((stateAfter performedOnOne).workers 1).enqueued.count "grad" = 3 ∧
      ((stateAfter performedOnOne).workers 0).enqueued.count "loss" = 1) ∧
    ∀ (r : Fin 2) (x : String),
      ((stateAfter performedOnOne).workers r).enqueued.count x =
        (responseNames (((stateAfter performedOnOne).workers r).performed.map Prod.fst)).count x +
        ((requestNames ((stateAfter performedOnOne).workers r).messageQueue).count x +
          (requestNames ((stateAfter performedOnOne).workers r).messages).count x +
          (stateAfter performedOnOne).recorded r x +
          (responseNames ((stateAfter performedOnOne).workers r).responses).count x) ∧
      (requestNames ((stateAfter performedOnOne).workers r).messageQueue).count x +
        (requestNames ((stateAfter performedOnOne).workers r).messages).count x +
        (stateAfter performedOnOne).recorded r x +
        (responseNames ((stateAfter performedOnOne).workers r).responses).count x ≤ 1 :=
  ⟨by decide +kernel, enqueued_eq reachable_performedOnOne⟩

/-! ## progress -/

/-- **A cycle answers what all ranks have asked for**, and nothing else,
whatever is cached, stalled or recorded: the tensors that every rank had in its
table when it started the cycle. -/
theorem mem_responses_iff (h : Transition.Reachable (system cfg n) s)
    {stalled : Fin (n + 1) → Request → Bool}
    (hact : s.act cfg (.compute stalled) = some (.ok s')) (r : Fin (n + 1)) (x : String) :
    x ∈ responseNames (s'.workers r).responses ↔
      ∀ q, x ∈ (s.workers q).tensorNames ∧ x ∉ requestNames (s.workers q).messageQueue := by
  have hs := inv_of_reachable h
  obtain ⟨hpolled, tried, caches, fused, hout⟩ := exists_outcome hs hact
  rw [hout.workers, show ((s.workers r).compute (tried r) (caches r) fused).responses = fused from rfl,
    hout.answered]
  refine forall_congr' fun q => ?_
  have hbalance := hs.balance q x
  have hone := (hs.worker q).count_le_one x
  rw [responses_of_isPolled (hpolled q)] at hbalance
  simp only [responseNames, List.flatMap_nil, List.count_nil] at hbalance
  rw [← List.count_pos_iff, ← List.count_eq_zero]
  omega

/-- The gradient is answered on both ranks. -/
theorem mem_responses_sampleState : ∃ s',
    sampleState.act sampleConfig (.compute fun _ _ => false) = some (.ok s') ∧
      "grad" ∈ responseNames (s'.workers 0).responses ∧
      "grad" ∈ responseNames (s'.workers 1).responses := by
  obtain ⟨s', hok, -⟩ := (inv_of_reachable reachable_sampleState).act compute_sampleState
  have hact' := compute_sampleState.trans (congrArg some hok)
  have hall : ∀ q : Fin 2, "grad" ∈ (sampleState.workers q).tensorNames ∧
      "grad" ∉ requestNames (sampleState.workers q).messageQueue :=
    fun q => ⟨List.mem_singleton_self _, List.not_mem_nil⟩
  exact ⟨s', hact', (mem_responses_iff reachable_sampleState hact' 0 "grad").mpr hall,
    (mem_responses_iff reachable_sampleState hact' 1 "grad").mpr hall⟩

end ContainerHackathon.Horovod
