import ContainerHackathon.Horovod.Progress
import ContainerHackathon.Lib.TotalOrder

/-!
# Horovod.Service

The ranks as what they implement, a `TotalOrder`: what each has asked for, the
order of all responses, and how far each has performed it.  Queues, cycles,
caches and the message table are gone; `service_simulation` says that they only
decide when something is answered, and with what else.  The parties of the
service are all ranks: none of them joins or shuts down.
-/

namespace ContainerHackathon.Horovod

open Fallible

variable {n : Nat} {cfg : Config} {s s' : State n} {r : Fin (n + 1)} {w w' : Worker} {x : String}

def answerNames (p : Response × List TensorInfo) : List String := p.1.tensorNames

def State.service (s : State n) :
    TotalOrder.State (Fin (n + 1)) String (Response × List TensorInfo) where
  asked := fun r => (s.workers r).enqueued
  order := (s.workers ⟨0, n.succ_pos⟩).history
  done := fun r => (s.workers r).performed.length

/-! ## what is asked and answered -/

theorem flatMap_history (w : Worker) : w.history.flatMap answerNames = w.answered := by
  rw [Worker.history, Worker.answered, Worker.performedNames, responseNames, responseNames,
    List.flatMap_append, List.flatMap_map, List.flatMap_map, List.flatMap_map]
  rfl

theorem answered_service (hs : Inv cfg s) (r : Fin (n + 1)) (x : String) :
    s.service.answered answerNames x = (s.workers r).answered.count x := by
  rw [TotalOrder.State.answered, ← flatMap_history, hs.history r]
  rfl

/-- What a rank waits for is in its table, and in no response. -/
theorem waits_service (hs : Inv cfg s) :
    s.service.Waits answerNames r x ↔ (s.workers r).Waits x := by
  have hasked := (hs.worker r).enqueued x
  have hbalance := hs.balance r x
  have hone := (hs.worker r).count_le_one x
  have hanswered : (s.workers r).answered.count x =
      (responseNames ((s.workers r).performed.map Prod.fst)).count x +
        (responseNames (s.workers r).responses).count x := List.count_append
  rw [TotalOrder.State.Waits, answered_service hs r, hanswered,
    show s.service.asked r = (s.workers r).enqueued from rfl]
  constructor
  · intro hlt
    exact ⟨List.count_pos_iff.mp (by omega), List.count_eq_zero.mp (by omega)⟩
  · rintro ⟨hmem, hunanswered⟩
    have hpos := List.count_pos_iff.mpr hmem
    have hzero := List.count_eq_zero.mpr hunanswered
    omega

theorem pending_service (hs : Inv cfg s) (r : Fin (n + 1)) :
    s.service.pending answerNames r = responseNames (s.workers r).responses := by
  have horder : s.service.order = (s.workers r).history := (hs.history r).symm
  have hdone : s.service.done r =
      ((s.workers r).performed.map fun p => common p.1 p.2).length := (List.length_map _).symm
  rw [TotalOrder.State.pending, horder, hdone, Worker.history, List.drop_left, List.flatMap_map]
  rfl

/-- A rank that moves alone. -/
theorem service_set (h : w.history = (s.workers r).history) : (s.set r w).service =
    ⟨Function.update s.service.asked r w.enqueued, s.service.order,
      Function.update s.service.done r w.performed.length⟩ := by
  have hother : ∀ {β : Type} (f : Worker → β), (fun q => f ((s.set r w).workers q)) =
      Function.update (fun q => f (s.workers q)) r (f w) := fun f => by
    funext q
    by_cases hq : q = r
    · subst hq
      rw [State.workers_set, Function.update_self]
    · rw [State.workers_set_of_ne _ _ hq, Function.update_of_ne hq]
  have horder : ((s.set r w).workers 0).history = (s.workers 0).history := by
    rw [congrFun (hother Worker.history) 0, h]
    exact congrFun (Function.update_eq_self r fun q => (s.workers q).history) 0
  exact TotalOrder.State.ext (hother Worker.enqueued) horder
    (hother fun w => w.performed.length)

/-! ## the steps -/

theorem service_enqueue (hs : Inv cfg s) (r : Fin (n + 1)) (type : RequestType)
    (params : TensorParams) (rootRank : Int) (name : String) :
    (s.set r ((s.workers r).enqueue r type params rootRank name)).service = s.service ∨
      TotalOrder.step answerNames (.ask r name) s.service =
        some (s.set r ((s.workers r).enqueue r type params rootRank name)).service := by
  have hhistory := hs.history_enqueue r type params rootRank name
  by_cases hname : name ∈ (s.workers r).tensorTable.map TensorTableEntry.tensorName
  · left
    rw [Worker.enqueue, if_pos hname, State.set, Function.update_eq_self]
  · right
    rw [service_set hhistory, Worker.enqueue, if_neg hname, TotalOrder.step_ask]
    · exact congrArg some (TotalOrder.State.ext rfl rfl (Function.update_eq_self r _).symm)
    · exact fun hwaits => hname ((waits_service hs).mp hwaits).mem
    · rw [pending_service hs]
      exact fun hpending => hname (hs.mem_of_answered r hpending)

theorem service_poll (h : (s.workers r).poll = some w) : (s.set r w).service = s.service := by
  rw [service_set (history_poll h)]
  rw [Worker.poll] at h
  split at h
  · obtain rfl := Option.some.inj h
    exact TotalOrder.State.ext (Function.update_eq_self r _) rfl (Function.update_eq_self r _)
  · cases h

theorem service_perform (hs : Inv cfg s) (h : (s.workers r).perform = some (.ok w)) :
    TotalOrder.step answerNames (.perform r) s.service = some (s.set r w).service := by
  obtain ⟨_, hok, hhistory, -⟩ := hs.perform h
  obtain rfl := Except.ok.inj hok
  obtain ⟨response, responses, entries, table, hphase, rfl⟩ := perform_cases h
  have horder : s.service.order = (s.workers r).history := (hs.history r).symm
  rw [TotalOrder.step_perform, service_set hhistory]
  · refine congrArg some (TotalOrder.State.ext (Function.update_eq_self r _).symm rfl ?_)
    have hlength : ((s.workers r).finish response responses entries table).performed.length =
        s.service.done r + 1 := List.length_append
    rw [hlength]
  · rw [horder, Worker.history, List.length_append, List.length_map, Worker.responses, hphase]
    exact Nat.lt_add_of_pos_right (Nat.succ_pos _)

theorem service_compute (hs : Inv cfg s) {stalled : Fin (n + 1) → Request → Bool}
    (h : s.act cfg (.compute stalled) = some (.ok s')) :
    ∃ batch, TotalOrder.step answerNames (.answer batch) s.service = some s'.service := by
  obtain ⟨hpolled, tried, caches, fused, hout⟩ := exists_outcome hs h
  have hcount : ∀ r x, (responseNames fused).count x ≤ 1 ∧
      (x ∈ responseNames fused → (s.workers r).Waits x) := fun r x => by
    have hbalance := hs.balance r x
    have hcycle := hout.balance r x
    have hone := (hs.worker r).count_le_one x
    rw [responses_of_isPolled (hpolled r)] at hbalance
    refine ⟨by omega, fun hx => ⟨List.count_pos_iff.mp ?_, ?_⟩⟩
    · have hall := (hout.answered x).mp hx r
      omega
    · rw [responses_of_isPolled (hpolled r)]
      exact List.not_mem_nil
  have hnames : ∀ f : Response → List TensorInfo,
      (fused.map fun p => (p, f p)).flatMap answerNames = responseNames fused := fun f => by
    rw [List.flatMap_map]
    rfl
  refine ⟨fused.map fun p => common p (p.tensorNames.filterMap fun x =>
    Keyed.lookup TensorTableEntry.tensorName x (s.workers 0).tensorTable), ?_⟩
  rw [TotalOrder.step_answer]
  · refine congrArg some (TotalOrder.State.ext (funext fun r => ?_)
      (hout.history hpolled 0).symm (funext fun r => ?_))
    · change _ = (s'.workers r).enqueued
      rw [hout.workers]
      rfl
    · change _ = (s'.workers r).performed.length
      rw [hout.workers]
      rfl
  · refine List.nodup_iff_count_le_one.mpr fun x => ?_
    exact (congrArg _ (hnames _)).trans_le (hcount 0 x).1
  · intro x hx r
    exact (waits_service hs).mpr ((hcount r x).2 (hnames _ ▸ hx))

/-! ## the service -/

theorem service_init (h : (system cfg n).init s) :
    (TotalOrder.system answerNames).init s.service := by
  obtain rfl : s = ⟨fun _ => Worker.start cfg, fun _ => []⟩ := h
  rfl

theorem service_step (hr : Transition.Reachable (system cfg n) s) {a : Action n}
    (hstep : (system cfg n).step a s = some s') : s'.service = s.service ∨
      ∃ b, (TotalOrder.system answerNames).step b s.service = some s'.service := by
  have hs := inv_of_reachable hr
  have hact := step_eq_some.mp hstep
  cases a with
  | enqueue r type params rootRank name =>
      obtain rfl := Except.ok.inj (Option.some.inj hact)
      exact (service_enqueue hs r type params rootRank name).imp_right fun h => ⟨.ask r name, h⟩
  | poll r =>
      obtain ⟨w, hw, hset⟩ := Option.map_eq_some_iff.mp hact
      obtain rfl := Except.ok.inj hset
      exact .inl (service_poll hw)
  | compute stalled =>
      obtain ⟨batch, hbatch⟩ := service_compute hs hact
      exact .inr ⟨.answer batch, hbatch⟩
  | perform r =>
      obtain ⟨result, hw, hset⟩ := Option.map_eq_some_iff.mp hact
      cases result with
      | error e => cases hset
      | ok w =>
          obtain rfl := Except.ok.inj hset
          exact .inr ⟨.perform r, service_perform hs hw⟩

/-- **The ranks implement a totally ordered service**: every step of theirs is
one of the service, or invisible. -/
theorem service_simulation (cfg : Config) (n : Nat) : Transition.Simulation (system cfg n)
    (TotalOrder.system answerNames) (State.service (n := n)) where
  init _ := service_init
  step _ _ _ hr := service_step hr

theorem service_reachable (h : Transition.Reachable (system cfg n) s) :
    Transition.Reachable (TotalOrder.system answerNames) s.service :=
  Transition.Simulation.reachable ⟨fun _ => service_init, fun _ _ _ hr => service_step hr⟩ h

/-- **No rank is more than one tensor of a name ahead of another**: it can ask
again only when all have asked. -/
theorem enqueued_le_succ (h : Transition.Reachable (system cfg n) s) (q r : Fin (n + 1))
    (x : String) : (s.workers q).enqueued.count x ≤ (s.workers r).enqueued.count x + 1 := by
  have hservice := service_reachable h
  have hq := (TotalOrder.asked_bounds hservice q x).2
  have hr := (TotalOrder.asked_bounds hservice r x).1
  exact hq.trans (Nat.succ_le_succ hr)

/-- Rank one has asked for the gradient three times, rank zero twice. -/
theorem enqueued_le_succ_performedOnOne :
    ((stateAfter performedOnOne).workers 1).enqueued.count "grad" = 3 ∧
    ((stateAfter performedOnOne).workers 0).enqueued.count "grad" = 2 ∧
    ((stateAfter performedOnOne).workers 1).enqueued.count "grad" ≤
      ((stateAfter performedOnOne).workers 0).enqueued.count "grad" + 1 :=
  ⟨by decide +kernel, by decide +kernel, enqueued_le_succ reachable_performedOnOne 1 0 "grad"⟩

end ContainerHackathon.Horovod
