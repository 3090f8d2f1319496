import ContainerHackathon.Horovod.Agreement

/-!
# Horovod.Progress

A tensor that all ranks have asked for is answered in the second computation
from then on at the latest, and performed before the third.  The ranks always
come to a next computation: between two of them each can only start its cycle
and perform what is left, and when none of them can, all can compute.  No rank
joins or shuts down in between.
-/

namespace ContainerHackathon.Horovod

open Fallible

variable {n : Nat} {cfg : Config} {s s' : State n} {r : Fin (n + 1)} {w w' : Worker} {x : String}

def Worker.performedNames (w : Worker) : List String := responseNames (w.performed.map Prod.fst)

/-- The tensors that were answered, performed or not. -/
def Worker.answered (w : Worker) : List String := w.performedNames ++ responseNames w.responses

/-- A tensor that was asked for, and is not answered. -/
structure Worker.Waits (w : Worker) (x : String) : Prop where
  mem : x ∈ w.tensorNames
  unanswered : x ∉ responseNames w.responses

/-- At most the requests of this cycle are waiting for it. -/
def Worker.Taken (w : Worker) (x : String) : Prop :=
  w.isPolled = true → x ∉ requestNames w.messageQueue

def Action.isCompute : Action n → Bool
  | .compute _ => true
  | _ => false

/-- The steps between two computations. -/
def Action.isLocal : Action n → Bool
  | .poll _ | .perform _ => true
  | _ => false

def Action.isEnqueue : Action n → Bool
  | .enqueue .. => true
  | _ => false

/-! ## one step -/

theorem step_eq_some {a : Action n} :
    (system cfg n).step a s = some s' ↔ s.act cfg a = some (.ok s') := by
  change (s.act cfg a).bind Except.toOption = some s' ↔ _
  rw [Option.bind_eq_some_iff]
  constructor
  · rintro ⟨result, hact, hok⟩
    cases result with
    | error e => cases hok
    | ok t => rw [hact, Option.some.inj hok]
  · exact fun hact => ⟨_, hact, rfl⟩

/-- What the steps of a rank alone keep. -/
structure Local (w w' : Worker) : Prop where
  answered : w'.answered = w.answered
  performed : w.performedNames <+: w'.performedNames
  waits : ∀ x, w.Waits x → w'.Waits x
  taken : ∀ x, w.Waits x → w.Taken x → w'.Taken x

theorem Local.refl (w : Worker) : Local w w :=
  ⟨rfl, List.prefix_rfl, fun _ h => h, fun _ _ h => h⟩

theorem local_enqueue (w : Worker) (rank : Nat) (type : RequestType) (params : TensorParams)
    (rootRank : Int) (name : String) : Local w (w.enqueue rank type params rootRank name) := by
  rw [Worker.enqueue]
  split
  · exact .refl w
  · next hnew =>
    refine ⟨rfl, List.prefix_rfl, fun x hx => ⟨?_, hx.unanswered⟩, fun x hx htaken hpolled => ?_⟩
    · rw [Worker.tensorNames, List.map_append]
      exact List.mem_append_left _ hx.mem
    · rw [requestNames, List.map_append, List.mem_append, not_or]
      refine ⟨htaken hpolled, fun hmem => hnew ?_⟩
      have hname : x = name := List.mem_singleton.mp hmem
      exact hname ▸ hx.mem

theorem local_poll (h : w.poll = some w') : Local w w' := by
  rw [Worker.poll] at h
  split at h
  · next hphase =>
    obtain rfl := Option.some.inj h
    refine ⟨?_, List.prefix_rfl, fun x hx => ⟨hx.mem, List.not_mem_nil⟩,
      fun x _ _ _ => List.not_mem_nil⟩
    simp only [Worker.answered, Worker.performedNames, Worker.responses, hphase]
  · cases h

/-- What a rank does when it performs a response. -/
theorem perform_cases (h : w.perform = some (.ok w')) : ∃ response responses entries table,
    w.phase = .performing (response :: responses) ∧
      w' = w.finish response responses entries table := by
  rw [Worker.perform] at h
  split at h
  · next response responses hphase =>
    obtain ⟨⟨entries, table⟩, -, hw⟩ := bind_eq_ok.mp (Option.some.inj h)
    exact ⟨response, responses, entries, table, hphase, (Except.ok.inj hw).symm⟩
  · cases h

theorem local_perform (hw : w.Inv cfg r) (hw' : w'.Inv cfg r) (h : w.perform = some (.ok w')) :
    Local w w' := by
  obtain ⟨response, responses, entries, table, hphase, rfl⟩ := perform_cases h
  have hperformed : (w.finish response responses entries table).performedNames =
      w.performedNames ++ response.tensorNames := by
    simp only [Worker.performedNames, Worker.finish, responseNames, List.map_append,
      List.map_singleton, List.flatMap_append, List.flatMap_singleton]
  have hresponses : responseNames w.responses = response.tensorNames ++ responseNames responses := by
    rw [Worker.responses, hphase, responseNames, List.flatMap_cons, responseNames]
  refine ⟨?_, hperformed ▸ List.prefix_append _ _, fun x hx => ?_, fun x _ _ hpolled => ?_⟩
  · rw [Worker.answered, Worker.answered, hperformed, hresponses, List.append_assoc]
    rfl
  · have hx' : x ∉ response.tensorNames ∧ x ∉ responseNames responses := by
      simpa only [hresponses, List.mem_append, not_or] using hx.unanswered
    refine ⟨?_, hx'.2⟩
    -- it is not performed, so it stays in the table
    have hbefore := hw.enqueued x
    have hafter := hw'.enqueued x
    change _ = (w.finish response responses entries table).performedNames.count x + _ at hafter
    rw [hperformed, List.count_append, List.count_eq_zero.mpr hx'.1] at hafter
    have hmem := List.count_pos_iff.mpr hx.mem
    rw [← List.count_pos_iff]
    simp only [Worker.performedNames, Worker.finish] at hbefore hafter ⊢
    omega
  · cases hpolled

theorem local_set {w : Worker} (h : Local (s.workers r) w) (q : Fin (n + 1)) :
    Local (s.workers q) ((s.set r w).workers q) := by
  by_cases hq : q = r
  · subst hq
    rwa [State.workers_set]
  · rw [State.workers_set_of_ne _ _ hq]
    exact .refl _

/-- **All steps but computations** are steps of one rank alone. -/
theorem local_of_act (hs : Inv cfg s) {a : Action n} (ha : a.isCompute = false)
    (h : s.act cfg a = some (.ok s')) (q : Fin (n + 1)) : Local (s.workers q) (s'.workers q) := by
  obtain ⟨t, hok, ht⟩ := hs.act h
  obtain rfl := Except.ok.inj hok
  cases a with
  | enqueue r type params rootRank name =>
      obtain rfl := Except.ok.inj (Option.some.inj h)
      exact local_set (local_enqueue _ _ _ _ _ _) q
  | poll r =>
      obtain ⟨w, hw, hset⟩ := Option.map_eq_some_iff.mp h
      obtain rfl := Except.ok.inj hset
      exact local_set (local_poll hw) q
  | compute stalled => cases ha
  | perform r =>
      obtain ⟨result, hw, hset⟩ := Option.map_eq_some_iff.mp h
      cases result with
      | error e => cases hset
      | ok w =>
          obtain rfl := Except.ok.inj hset
          refine local_set (local_perform (hs.worker r) ?_ hw) q
          simpa only [State.workers_set] using ht.worker r

theorem answered_of_isPolled (h : w.isPolled = true) : w.answered = w.performedNames := by
  rw [Worker.answered, responses_of_isPolled h]
  exact List.append_nil _

/-! ## stages -/

/-- How far a tensor is that all ranks have asked for, after so many
computations; `before` says how often it was performed until then. -/
def Stage (before : Fin (n + 1) → Nat) (x : String) (s : State n) : Nat → Prop
  | 0 => ∀ r, (s.workers r).Waits x ∧ before r ≤ (s.workers r).answered.count x
  | 1 => (∀ r, (s.workers r).Waits x ∧ (s.workers r).Taken x ∧
      before r ≤ (s.workers r).answered.count x) ∨
      ∀ r, before r < (s.workers r).answered.count x
  | 2 => ∀ r, before r < (s.workers r).answered.count x
  | _ + 3 => ∀ r, before r < (s.workers r).performedNames.count x

variable {before : Fin (n + 1) → Nat} {k : Nat}

/-- Without a computation a tensor stays where it is. -/
theorem Stage.of_local (h : Stage before x s k)
    (hlocal : ∀ q, Local (s.workers q) (s'.workers q)) : Stage before x s' k := by
  have hanswered : ∀ r, (s'.workers r).answered.count x = (s.workers r).answered.count x :=
    fun r => congrArg _ (hlocal r).answered
  match k, h with
  | 0, h =>
      exact fun r => ⟨(hlocal r).waits x (h r).1, (h r).2.trans_eq (hanswered r).symm⟩
  | 1, .inl h =>
      exact .inl fun r => ⟨(hlocal r).waits x (h r).1, (hlocal r).taken x (h r).1 (h r).2.1,
        (h r).2.2.trans_eq (hanswered r).symm⟩
  | 1, .inr h => exact .inr fun r => (h r).trans_eq (hanswered r).symm
  | 2, h => exact fun r => (h r).trans_eq (hanswered r).symm
  | _ + 3, h => exact fun r => (h r).trans_le ((hlocal r).performed.sublist.count_le x)

/-- **A computation brings a tensor one stage further.** -/
theorem Stage.of_outcome (hs : Inv cfg s) (h : Stage before x s k)
    (hpolled : ∀ r, (s.workers r).isPolled = true) {tried : Fin (n + 1) → List Request}
    {caches : Fin (n + 1) → ResponseCache} {fused : List Response}
    (hout : Outcome cfg s s' tried caches fused) : Stage before x s' (k + 1) := by
  have hperformed : ∀ r, (s'.workers r).performedNames = (s.workers r).performedNames := fun r => by
    rw [hout.workers]
    rfl
  have hanswered : ∀ r, (s'.workers r).answered.count x =
      (s.workers r).answered.count x + (responseNames fused).count x := fun r => by
    rw [answered_of_isPolled (hpolled r), ← List.count_append, ← hperformed]
    rw [hout.workers]
    rfl
  match k, h with
  | 0, h =>
      by_cases hx : x ∈ responseNames fused
      · refine .inr fun r => ?_
        rw [hanswered]
        exact lt_add_of_le_of_pos (h r).2 (List.count_pos_iff.mpr hx)
      · refine .inl fun r => ⟨?_, fun hphase => ?_, ?_⟩
        · rw [hout.workers]
          exact ⟨(h r).1.mem, hx⟩
        · rw [hout.workers] at hphase
          cases hphase
        · rw [hanswered]
          exact Nat.le_add_right_of_le (h r).2
  | 1, .inl h =>
      -- every rank asks in this cycle, or has asked rank zero before
      have hx : x ∈ responseNames fused := hout.answered x |>.mpr fun r => by
        obtain ⟨hwaits, htaken, -⟩ := h r
        have hbalance := hs.balance r x
        have hone := (hs.worker r).count_le_one x
        have hmem := List.count_pos_iff.mpr hwaits.mem
        rw [List.count_eq_zero.mpr (htaken (hpolled r)),
          List.count_eq_zero.mpr hwaits.unanswered] at hbalance
        omega
      intro r
      rw [hanswered]
      exact lt_add_of_le_of_pos (h r).2.2 (List.count_pos_iff.mpr hx)
  | 1, .inr h =>
      intro r
      rw [hanswered]
      exact Nat.lt_add_right _ (h r)
  | 2, h =>
      intro r
      rw [hperformed, ← answered_of_isPolled (hpolled r)]
      exact h r
  | _ + 3, h =>
      intro r
      rw [hperformed]
      exact h r

theorem Stage.of_act (hs : Inv cfg s) (h : Stage before x s k) {a : Action n}
    (hact : s.act cfg a = some (.ok s')) :
    Stage before x s' (k + if a.isCompute = true then 1 else 0) := by
  cases a with
  | compute stalled =>
      obtain ⟨hpolled, tried, caches, fused, hout⟩ := exists_outcome hs hact
      exact h.of_outcome hs hpolled hout
  | _ => exact h.of_local (local_of_act hs rfl hact)

/-- A run, with as many computations as it has. -/
theorem Stage.of_run (hs : Inv cfg s) (h : Stage before x s k) {as : List (Action n)}
    (hrun : Transition.run (system cfg n) as s = some s') :
    Stage before x s' (k + as.countP Action.isCompute) := by
  induction as generalizing s k with
  | nil =>
      obtain rfl : s = s' := Option.some.inj hrun
      exact h
  | cons a as ih =>
      obtain ⟨t, hstep, hrun⟩ := Option.bind_eq_some_iff.mp hrun
      have hact := step_eq_some.mp hstep
      obtain ⟨t', hok, ht⟩ := hs.act hact
      obtain rfl := Except.ok.inj hok
      rw [List.countP_cons, Nat.add_comm (as.countP _), ← Nat.add_assoc]
      exact ih ht (h.of_act hs hact) hrun

/-- Where a tensor starts. -/
theorem Stage.start (h : ∀ r, (s.workers r).Waits x) :
    Stage (fun r => (s.workers r).performedNames.count x) x s 0 := fun r => ⟨h r, by
  rw [Worker.answered, List.count_append]
  exact Nat.le_add_right _ _⟩

/-! ## the computations to come -/

/-- The steps that a rank still makes before the next computation. -/
def Worker.stepsLeft (w : Worker) : Nat :=
  match w.phase with
  | .polled _ => 0
  | .performing responses => responses.length + 1

theorem stepsLeft_poll (h : w.poll = some w') : w'.stepsLeft < w.stepsLeft := by
  rw [Worker.poll] at h
  split at h
  · next hphase =>
    obtain rfl := Option.some.inj h
    rw [Worker.stepsLeft, Worker.stepsLeft, hphase]
    exact Nat.succ_pos _
  · cases h

theorem stepsLeft_perform (h : w.perform = some (.ok w')) : w'.stepsLeft < w.stepsLeft := by
  obtain ⟨response, responses, entries, table, hphase, rfl⟩ := perform_cases h
  rw [Worker.stepsLeft, Worker.stepsLeft, hphase]
  exact Nat.lt_succ_self _

theorem stepsLeft_set {w : Worker} (h : w.stepsLeft < (s.workers r).stepsLeft) :
    ∑ q, ((s.set r w).workers q).stepsLeft < ∑ q, (s.workers q).stepsLeft := by
  have hself : ((s.set r w).workers r).stepsLeft = w.stepsLeft := by
    rw [State.workers_set]
  refine Finset.sum_lt_sum (fun q _ => ?_) ⟨r, Finset.mem_univ r, hself.trans_lt h⟩
  by_cases hq : q = r
  · subst hq
    exact hself.trans_le h.le
  · rw [State.workers_set_of_ne _ _ hq]

/-- Every step between two computations leaves fewer to make. -/
theorem stepsLeft_of_step (hs : Inv cfg s) {a : Action n} (ha : a.isLocal = true)
    (hstep : (system cfg n).step a s = some s') :
    Inv cfg s' ∧ ∑ r, (s'.workers r).stepsLeft < ∑ r, (s.workers r).stepsLeft := by
  have hact := step_eq_some.mp hstep
  obtain ⟨t, hok, ht⟩ := hs.act hact
  obtain rfl := Except.ok.inj hok
  refine ⟨ht, ?_⟩
  cases a with
  | enqueue => cases ha
  | compute => cases ha
  | poll r =>
      obtain ⟨w, hw, hset⟩ := Option.map_eq_some_iff.mp hact
      obtain rfl := Except.ok.inj hset
      exact stepsLeft_set (stepsLeft_poll hw)
  | perform r =>
      obtain ⟨result, hw, hset⟩ := Option.map_eq_some_iff.mp hact
      cases result with
      | error e => cases hset
      | ok w =>
          obtain rfl := Except.ok.inj hset
          exact stepsLeft_set (stepsLeft_perform hw)

/-- A rank that has not started its cycle can make a step. -/
theorem exists_local_step (hs : Inv cfg s) (h : (s.workers r).isPolled = false) :
    ∃ a : Action n, a.isLocal = true ∧ (system cfg n).step a s ≠ none := by
  suffices hact : ∃ a result, a.isLocal = true ∧ s.act cfg a = some result by
    obtain ⟨a, result, ha, hact⟩ := hact
    obtain ⟨t, rfl, -⟩ := hs.act hact
    exact ⟨a, ha, fun hnone => Option.some_ne_none _ ((step_eq_some.mpr hact).symm.trans hnone)⟩
  cases hphase : (s.workers r).phase with
  | polled messages =>
      rw [Worker.isPolled, hphase] at h
      cases h
  | performing responses =>
      cases responses with
      | nil =>
          refine ⟨.poll r, .ok (s.set r { s.workers r with
            phase := .polled (s.workers r).messageQueue, messageQueue := [] }), rfl, ?_⟩
          rw [State.act, Worker.poll, hphase]
          rfl
      | cons response responses =>
          suffices hperform : ∃ result, (s.workers r).perform = some result by
            obtain ⟨result, hresult⟩ := hperform
            exact ⟨.perform r, _, rfl, Option.map_eq_some_iff.mpr ⟨result, hresult, rfl⟩⟩
          rw [Worker.perform, hphase]
          exact ⟨_, rfl⟩

/-- **The ranks come to the next computation**, whatever they have left to do. -/
theorem exists_polled (hs : Inv cfg s) : ∃ as t,
    Transition.run (system cfg n) as s = some t ∧ (∀ a ∈ as, a.isLocal = true) ∧ Inv cfg t ∧
      ∀ r, (t.workers r).isPolled = true := by
  obtain ⟨as, t, hrun, has, ht, hend⟩ := Transition.exists_exhausted (S := system cfg n)
    (μ := fun s : State n => ∑ r, (s.workers r).stepsLeft)
    (fun a : Action n => a.isLocal = true) (fun _ _ _ hs ha => stepsLeft_of_step hs ha) hs
  refine ⟨as, t, hrun, has, ht, fun r => ?_⟩
  by_contra hr
  obtain ⟨a, ha, hstep⟩ := exists_local_step ht (Bool.eq_false_iff.mpr hr)
  exact hstep (hend a ha)

/-- As many computations as one likes, without enqueueing anything. -/
theorem exists_computations (hs : Inv cfg s) (k : Nat) : ∃ as t,
    Transition.run (system cfg n) as s = some t ∧ (∀ a ∈ as, a.isEnqueue = false) ∧ Inv cfg t ∧
      as.countP Action.isCompute = k := by
  induction k with
  | zero => exact ⟨[], s, rfl, fun _ ha => absurd ha List.not_mem_nil, hs, rfl⟩
  | succ k ih =>
      obtain ⟨as, t, hrun, has, ht, hcount⟩ := ih
      obtain ⟨bs, u, hlocal, hbs, hu, hpolled⟩ := exists_polled ht
      obtain ⟨v, tried, caches, fused, hcompute, hout⟩ :=
        exists_computeResponseList hu fun _ _ => false
      have hstep : (system cfg n).step (.compute fun _ _ => false) u = some v :=
        step_eq_some.mpr (by rw [State.act, if_pos hpolled, hcompute])
      have hnone : bs.countP Action.isCompute = 0 := List.countP_eq_zero.mpr fun b hb => by
        have := hbs b hb
        cases b <;> simp_all [Action.isLocal, Action.isCompute]
      refine ⟨as ++ (bs ++ [.compute fun _ _ => false]), v, ?_, ?_, hout.inv hu hpolled, ?_⟩
      · rw [Transition.run_append, hrun, Option.bind_some, Transition.run_append, hlocal,
          Option.bind_some, Transition.run, hstep]
        rfl
      · intro a ha
        rcases List.mem_append.mp ha with ha | ha
        · exact has a ha
        · rcases List.mem_append.mp ha with ha | ha
          · have := hbs a ha
            cases a <;> simp_all [Action.isLocal, Action.isEnqueue]
          · rw [List.mem_singleton.mp ha]
            rfl
      · rw [List.countP_append, List.countP_append, hcount, hnone]
        rfl

/-! ### what was accepted -/

theorem enqueued_set {w : Worker} (h : w.enqueued = (s.workers r).enqueued) (q : Fin (n + 1)) :
    ((s.set r w).workers q).enqueued = (s.workers q).enqueued := by
  by_cases hq : q = r
  · subst hq
    rwa [State.workers_set]
  · rw [State.workers_set_of_ne _ _ hq]

theorem enqueued_of_act (hs : Inv cfg s) {a : Action n} (ha : a.isEnqueue = false)
    (hact : s.act cfg a = some (.ok s')) (q : Fin (n + 1)) :
    (s'.workers q).enqueued = (s.workers q).enqueued := by
  cases a with
  | enqueue => cases ha
  | poll r =>
      obtain ⟨w, hw, hset⟩ := Option.map_eq_some_iff.mp hact
      obtain rfl := Except.ok.inj hset
      refine enqueued_set ?_ q
      rw [Worker.poll] at hw
      split at hw
      · obtain rfl := Option.some.inj hw
        rfl
      · cases hw
  | compute stalled =>
      obtain ⟨-, tried, caches, fused, hout⟩ := exists_outcome hs hact
      rw [hout.workers]
      rfl
  | perform r =>
      obtain ⟨result, hw, hset⟩ := Option.map_eq_some_iff.mp hact
      cases result with
      | error e => cases hset
      | ok w =>
          obtain rfl := Except.ok.inj hset
          obtain ⟨response, responses, entries, table, -, rfl⟩ := perform_cases hw
          exact enqueued_set (w := (s.workers r).finish response responses entries table) rfl q

theorem enqueued_of_run (hs : Inv cfg s) {as : List (Action n)}
    (has : ∀ a ∈ as, a.isEnqueue = false)
    (hrun : Transition.run (system cfg n) as s = some s') (q : Fin (n + 1)) :
    (s'.workers q).enqueued = (s.workers q).enqueued := by
  induction as generalizing s with
  | nil =>
      obtain rfl : s = s' := Option.some.inj hrun
      rfl
  | cons a as ih =>
      obtain ⟨t, hstep, hrun⟩ := Option.bind_eq_some_iff.mp hrun
      rw [List.forall_mem_cons] at has
      have hact := step_eq_some.mp hstep
      obtain ⟨t', hok, ht⟩ := hs.act hact
      obtain rfl := Except.ok.inj hok
      exact (ih ht has.2 hrun).trans (enqueued_of_act hs has.1 hact q)

/-! ## progress -/

/-- **Within two computations a tensor is answered, before the third it is
performed**: in every run, once all ranks have asked for it. -/
theorem performed_of_computations (h : Transition.Reachable (system cfg n) s)
    (hx : ∀ r, (s.workers r).Waits x) {as : List (Action n)}
    (hrun : Transition.run (system cfg n) as s = some s') (r : Fin (n + 1)) :
    (2 ≤ as.countP Action.isCompute →
      (s.workers r).performedNames.count x < (s'.workers r).answered.count x) ∧
    (3 ≤ as.countP Action.isCompute →
      (s.workers r).performedNames.count x < (s'.workers r).performedNames.count x) := by
  have hstage := (Stage.start hx).of_run (inv_of_reachable h) hrun
  rw [Nat.zero_add] at hstage
  constructor
  · intro hcount
    obtain ⟨k, hk⟩ := Nat.exists_eq_add_of_le' hcount
    rw [hk] at hstage
    cases k with
    | zero => exact hstage r
    | succ k =>
        refine lt_of_lt_of_le (hstage r) ?_
        rw [Worker.answered, List.count_append]
        exact Nat.le_add_right _ _
  · intro hcount
    obtain ⟨k, hk⟩ := Nat.exists_eq_add_of_le' hcount
    rw [hk] at hstage
    exact hstage r

theorem waits_sampleState (r : Fin 2) : (sampleState.workers r).Waits "grad" :=
  ⟨List.mem_singleton_self _, List.not_mem_nil⟩

theorem performed_of_computations_sampleState : ∃ as s',
    Transition.run (system sampleConfig 1) as sampleState = some s' ∧
      ∀ r, 0 < (s'.workers r).performedNames.count "grad" := by
  obtain ⟨as, s', hrun, -, -, hcount⟩ :=
    exists_computations (inv_of_reachable reachable_sampleState) 3
  exact ⟨as, s', hrun, fun r =>
    (performed_of_computations reachable_sampleState waits_sampleState hrun r).2 hcount.ge⟩

/-- **The ranks can always finish**: without anything enqueued they come to a
state in which each has performed, once more, all that all ranks were waiting
for. -/
theorem exists_performed (h : Transition.Reachable (system cfg n) s) : ∃ as s',
    Transition.run (system cfg n) as s = some s' ∧ (∀ a ∈ as, a.isEnqueue = false) ∧
    ∀ x, (∀ q, (s.workers q).Waits x) → ∀ r, x ∉ (s'.workers r).tensorNames ∧
      (s'.workers r).performedNames.count x = (s.workers r).performedNames.count x + 1 := by
  have hs := inv_of_reachable h
  obtain ⟨as, s', hrun, has, hs', hcount⟩ := exists_computations hs 3
  refine ⟨as, s', hrun, has, fun x hx r => ?_⟩
  have hstage := (Stage.start hx).of_run hs hrun
  rw [Nat.zero_add, hcount] at hstage
  have hperformed := hstage r
  -- what was accepted is performed or in the table
  have hbefore := (hs.worker r).enqueued x
  have hafter := (hs'.worker r).enqueued x
  rw [enqueued_of_run hs has hrun] at hafter
  have hone := (hs.worker r).count_le_one x
  rw [← List.count_eq_zero]
  simp only [Worker.performedNames] at hperformed ⊢
  omega

theorem exists_performed_sampleState : ∃ as s',
    Transition.run (system sampleConfig 1) as sampleState = some s' ∧
    (∀ a ∈ as, a.isEnqueue = false) ∧ ∀ r, "grad" ∉ (s'.workers r).tensorNames ∧
      (s'.workers r).performedNames.count "grad" = 1 := by
  obtain ⟨as, s', hrun, has, hall⟩ := exists_performed reachable_sampleState
  exact ⟨as, s', hrun, has, fun r => hall "grad" waits_sampleState r⟩

end ContainerHackathon.Horovod
