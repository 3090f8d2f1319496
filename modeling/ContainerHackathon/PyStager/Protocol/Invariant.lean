import ContainerHackathon.PyStager.Protocol

/-!
# PyStager.Protocol.Invariant

The invariants of the run, each proved over all transitions:

* `Delivery` — a worker's message is on its way exactly from the moment the
  master sent it until the worker received it;
* `Progress` — how far a worker is in its job list, that none of the jobs
  behind it raised, and that its record of processed jobs is the
  corresponding prefix;
* `Counting` — how many messages the master has consumed in which loop;
* `Seeing` — which ranks left at the existence check.
-/

namespace ContainerHackathon.PyStager

open Transition

variable {c : Config} {s s' : State}

/-! ## delivery of the job lists -/

/-- The master has sent to `w`. -/
def MasterPc.sentTo : MasterPc → Nat → Prop
  | .send k, w => w < k
  | .idle _, _ | .complete _, _ | .done, _ => True
  | .check, _ | .exit1, _ | .raised _, _ => False

instance (m : MasterPc) (w : Nat) : Decidable (m.sentTo w) := by
  cases m <;> simp only [MasterPc.sentTo] <;> infer_instance

/-- The worker has not received its message. -/
def WorkerPc.unserved : WorkerPc → Prop
  | .check | .recv | .exit1 => True
  | .reportIdle | .job .. | .report .. | .finished | .raised _ => False

structure Delivery (c : Config) (s : State) : Prop where
  nodes : ∀ k, s.master = .send k → 1 ≤ k
  unserved : ∀ w, 1 ≤ w → w < c.p → (s.worker w).unserved →
    s.inbox w = if s.master.sentTo w then [c.message w] else []
  served : ∀ w, ¬ (s.worker w).unserved → s.inbox w = [] ∧ s.master.sentTo w
  outside : ∀ w, ¬ (1 ≤ w ∧ w < c.p) → s.inbox w = [] ∧ s.worker w = .check

theorem delivery_init : Delivery c initState where
  nodes := by simp [initState]
  unserved := by simp [initState, MasterPc.sentTo]
  served := by simp [initState, WorkerPc.unserved]
  outside := by simp [initState]

/-- The head of a worker's inbox is its slot of the dictionary. -/
theorem Delivery.head (h : Delivery c s) {w : Nat} {m : Option String} {ms : List (Option String)}
    (hw : 1 ≤ w ∧ w < c.p) (hc : s.worker w = .recv) (hi : s.inbox w = m :: ms) :
    m = c.message w ∧ ms = [] ∧ s.master.sentTo w := by
  have hu := h.unserved w hw.1 hw.2 (by rw [hc]; trivial)
  rw [hi] at hu
  split at hu
  · next hs => exact ⟨(List.cons.inj hu).1, (List.cons.inj hu).2, hs⟩
  · cases hu

theorem delivery_trans (h : Delivery c s) (ht : Trans c s s') : Delivery c s' := by
  obtain ⟨hnodes, hunserved, hserved, houtside⟩ := h
  cases ht with
  | masterExits => constructor <;> grind [MasterPc.sentTo]
  | masterRaises => constructor <;> grind [MasterPc.sentTo]
  | masterStarts => constructor <;> grind [MasterPc.sentTo]
  | send => constructor <;> grind [MasterPc.sentTo, Function.update_apply]
  | sendsDone => constructor <;> grind [MasterPc.sentTo]
  | idleRecv => constructor <;> grind [MasterPc.sentTo]
  | idleDone => constructor <;> grind [MasterPc.sentTo]
  | completeRecv => constructor <;> grind [MasterPc.sentTo]
  | completeDone => constructor <;> grind [MasterPc.sentTo]
  | workerExits => constructor <;> grind [WorkerPc.unserved]
  | workerStarts => constructor <;> grind [WorkerPc.unserved]
  | recvIdle => constructor <;> grind [WorkerPc.unserved]
  | recvJobs => constructor <;> grind [WorkerPc.unserved]
  | sendIdle => constructor <;> grind [WorkerPc.unserved]
  | process => constructor <;> grind [WorkerPc.unserved]
  | jobRaises => constructor <;> grind [WorkerPc.unserved]
  | jobsDone => constructor <;> grind [WorkerPc.unserved]
  | sendFinished => constructor <;> grind [WorkerPc.unserved]

theorem delivery (h : Reachable (system c) s) : Delivery c s :=
  reachable_invariant delivery_init (fun _ _ _ hI ht => delivery_trans hI ht) h

/-! ## progress through the job lists -/

/-- The records of a job list worked off on rank `w`. -/
def jobRecords (c : Config) (w : Nat) (jobs : List String) : List Job :=
  jobs.mapIdx (processJob c w)

theorem take_succ_jobRecords {w k : Nat} {jobs : List String} {job : String}
    (h : jobs[k]? = some job) :
    (jobRecords c w jobs).take (k + 1) =
      (jobRecords c w jobs).take k ++ [processJob c w k job] := by
  rw [List.take_add_one]
  simp [jobRecords, h]

/-- What worker `w` has processed when it stands at a given place. -/
def ProgressAt (c : Config) (w : Nat) (processed : List Job) : WorkerPc → Prop
  | .check | .recv | .exit1 => processed = []
  | .reportIdle => processed = [] ∧ c.message w = none
  | .job jobs k => c.message w ≠ none ∧ jobs = jobList (c.message w) ∧
      (k ≤ jobs.length ∧ ∀ i < k, c.raises w i = none) ∧ processed = (jobRecords c w jobs).take k
  | .report jobs k text => c.message w ≠ none ∧ jobs = jobList (c.message w) ∧
      ((∃ job, jobs[k]? = some job ∧ text = rsyncStr c.params job) ∧ ∀ i ≤ k, c.raises w i = none) ∧
      processed = (jobRecords c w jobs).take (k + 1)
  | .finished => (∀ i < (jobList (c.message w)).length, c.raises w i = none) ∧
      processed = jobRecords c w (jobList (c.message w))
  | .raised e => ∃ k < (jobList (c.message w)).length,
      (c.raises w k = some e ∧ ∀ i < k, c.raises w i = none) ∧
      processed = (jobRecords c w (jobList (c.message w))).take k

def Progress (c : Config) (s : State) : Prop := ∀ w, ProgressAt c w (s.processed w) (s.worker w)

theorem Progress.at_pc (h : Progress c s) {w : Nat} {pc : WorkerPc} (hc : s.worker w = pc) :
    ProgressAt c w (s.processed w) pc := hc ▸ h w

theorem progress_init : Progress c initState := fun _ => rfl

/-- A step of worker `w` has to be checked at `w` only. -/
theorem progress_of_worker {w : Nat} (h : Progress c s)
    (hother : ∀ v, v ≠ w → s'.worker v = s.worker v ∧ s'.processed v = s.processed v)
    (hw : ProgressAt c w (s'.processed w) (s'.worker w)) : Progress c s' := by
  intro v
  by_cases hv : v = w
  · subst hv; exact hw
  · obtain ⟨h1, h2⟩ := hother v hv
    rw [h1, h2]
    exact h v

theorem progress_trans (hd : Delivery c s) (h : Progress c s) (ht : Trans c s s') :
    Progress c s' := by
  cases ht with
  | masterExits | masterRaises | masterStarts | send | sendsDone | idleRecv | idleDone
  | completeRecv | completeDone => exact h
  | @workerExits w hw hc hs =>
      have hat := h.at_pc hc
      exact progress_of_worker h (w := w) (by grind) (by simpa [ProgressAt] using hat)
  | @workerStarts w hw hc hs =>
      have hat := h.at_pc hc
      exact progress_of_worker h (w := w) (by grind) (by simpa [ProgressAt] using hat)
  | @recvIdle w ms hw hc hi =>
      have hat := h.at_pc hc
      have hm := (hd.head hw hc hi).1
      exact progress_of_worker h (w := w) (by grind) (by simpa [ProgressAt, ← hm] using hat)
  | @recvJobs w text ms hw hc hi =>
      have hat := h.at_pc hc
      have hm := (hd.head hw hc hi).1
      exact progress_of_worker h (w := w) (by grind)
        (by simpa [ProgressAt, ← hm, jobList] using hat)
  | @sendIdle w hw hc =>
      have hat := h.at_pc hc
      refine progress_of_worker h (w := w) (by grind) ?_
      simp [ProgressAt, hat.1, hat.2, jobList, jobRecords]
  | @process w jobs k job hw hc hj hr =>
      obtain ⟨hm, hjobs, ⟨-, hquiet⟩, hproc⟩ := h.at_pc hc
      have hquiet' : ∀ i ≤ k, c.raises w i = none := fun i hi =>
        (Nat.lt_or_eq_of_le hi).elim (hquiet i) fun heq => heq ▸ hr
      refine progress_of_worker h (w := w) (by grind) ?_
      simpa [ProgressAt, hm, hproc, take_succ_jobRecords hj, hj, ← hjobs] using hquiet'
  | @jobRaises w jobs k job e hw hc hj hr =>
      obtain ⟨hm, hjobs, ⟨-, hquiet⟩, hproc⟩ := h.at_pc hc
      have hlt : k < jobs.length := (List.getElem?_eq_some_iff.mp hj).1
      refine progress_of_worker h (w := w) (by grind) ?_
      simp only [goto_worker, goto_processed, if_true, ProgressAt, ← hjobs]
      exact ⟨k, hlt, ⟨hr, hquiet⟩, hproc⟩
  | @jobsDone w jobs k hw hc hj =>
      obtain ⟨hm, hjobs, ⟨-, hquiet⟩, hproc⟩ := h.at_pc hc
      have hquiet' : ∀ i < jobs.length, c.raises w i = none := fun i hi => hquiet i (by omega)
      have htake : (jobRecords c w jobs).take k = jobRecords c w jobs :=
        List.take_of_length_le (by simpa [jobRecords] using hj)
      refine progress_of_worker h (w := w) (by grind) ?_
      simpa [ProgressAt, hproc, htake, ← hjobs] using hquiet'
  | @sendFinished w jobs k text hw hc =>
      obtain ⟨hm, hjobs, ⟨⟨job, hj, -⟩, hquiet⟩, hproc⟩ := h.at_pc hc
      have hlt : k < jobs.length := (List.getElem?_eq_some_iff.mp hj).1
      have hquiet' : ∀ i < k + 1, c.raises w i = none := fun i hi => hquiet i (by omega)
      refine progress_of_worker h (w := w) (by grind) ?_
      simp only [goto_worker, goto_processed, post_processed, if_true, ProgressAt]
      exact ⟨hm, hjobs, ⟨hlt, hquiet'⟩, hproc⟩

theorem progress (h : Reachable (system c) s) : Progress c s :=
  reachable_invariant progress_init
    (fun _ _ hr hI ht => progress_trans (delivery hr) hI ht) h

/-- A job that was processed did not raise. -/
theorem raises_of_processed (h : Reachable (system c) s) {w k : Nat}
    (hk : k < (s.processed w).length) : c.raises w k = none := by
  have hp := progress h
  cases hc : s.worker w with
  | check | recv | exit1 =>
      have hnil : s.processed w = [] := hp.at_pc hc
      simp [hnil] at hk
  | reportIdle => simp [(hp.at_pc hc).1] at hk
  | job jobs i =>
      obtain ⟨-, -, ⟨-, hquiet⟩, hproc⟩ := hp.at_pc hc
      rw [hproc, List.length_take] at hk
      exact hquiet k (by omega)
  | report jobs i text =>
      obtain ⟨-, -, ⟨-, hquiet⟩, hproc⟩ := hp.at_pc hc
      rw [hproc, List.length_take] at hk
      exact hquiet k (by omega)
  | finished =>
      obtain ⟨hquiet, hproc⟩ := hp.at_pc hc
      exact hquiet k (by simpa [hproc, jobRecords] using hk)
  | raised e =>
      obtain ⟨i, -, ⟨-, hquiet⟩, hproc⟩ := hp.at_pc hc
      rw [hproc, List.length_take] at hk
      exact hquiet k (by omega)

/-! ## the master's counters -/

/-- How many messages the master has consumed in a loop. -/
def State.taken (s : State) (loop : RecvLoop) : Nat := s.log.countP (fun x => x.1 = loop)

/-- The idle loop's share: one receive for every worker beyond the items. -/
def Config.idleReceives (c : Config) : Nat := c.p - 1 - c.items.length

def Counting (c : Config) (s : State) : Prop :=
  match s.master with
  | .check | .send _ | .exit1 | .raised _ => s.log = []
  | .idle k => (s.taken .idle : Int) = c.p - c.items.length - k ∧
      s.taken .idle ≤ c.idleReceives ∧ s.taken .complete = 0
  | .complete k => s.taken .idle = c.idleReceives ∧ s.taken .complete + 1 = k ∧
      s.taken .complete ≤ c.items.length
  | .done => s.taken .idle = c.idleReceives ∧ s.taken .complete = c.items.length

@[simp] theorem RecvLoop.eq_complete_iff (loop : RecvLoop) :
    loop = .complete ↔ ¬ loop = .idle := by
  cases loop <;> simp

theorem length_log (s : State) : s.log.length = s.taken .idle + s.taken .complete := by
  have hsplit := List.length_eq_countP_add_countP (fun x => decide (x.1 = RecvLoop.idle))
    (l := s.log)
  simpa [State.taken] using hsplit

/-- Receiving in one loop counts there and not in the other. -/
theorem taken_receive (s : State) (master : MasterPc) (outbox : Nat → List Notice)
    (x : RecvLoop × Nat × Notice) (loop : RecvLoop) :
    State.taken { s with master := master, outbox := outbox, log := s.log ++ [x] } loop =
      s.taken loop + if x.1 = loop then 1 else 0 := by
  simp [State.taken, List.countP_append, List.countP_singleton]

theorem counting_trans (h : Counting c s) (ht : Trans c s s') : Counting c s' := by
  cases ht with
  | masterExits hm hs => simpa [Counting, hm] using h
  | masterRaises hm hs hd => simpa [Counting, hm] using h
  | masterStarts hm hs hd => simpa [Counting, hm] using h
  | send hm hk => simpa [Counting, hm] using h
  | sendsDone hm hk =>
      have hlog : s.log = [] := by simpa [Counting, hm] using h
      simp [Counting, State.taken, hlog]
  | @idleRecv k w m ms hm hk ho =>
      obtain ⟨h1, h2, h3⟩ : _ ∧ _ ∧ _ := by simpa only [Counting, hm] using h
      simp only [Counting, taken_receive, Config.idleReceives] at h1 h2 h3 ⊢
      refine ⟨?_, ?_, ?_⟩ <;> simp <;> omega
  | idleDone hm hk =>
      obtain ⟨h1, h2, h3⟩ : _ ∧ _ ∧ _ := by simpa only [Counting, hm] using h
      simp only [Counting, State.taken, Config.idleReceives] at h1 h2 h3 ⊢
      omega
  | @completeRecv k w m ms hm hk ho =>
      obtain ⟨h1, h2, h3⟩ : _ ∧ _ ∧ _ := by simpa only [Counting, hm] using h
      simp only [Counting, taken_receive]
      refine ⟨?_, ?_, ?_⟩ <;> simp <;> omega
  | completeDone hm hk =>
      obtain ⟨h1, h2, h3⟩ : _ ∧ _ ∧ _ := by simpa only [Counting, hm] using h
      refine ⟨h1, ?_⟩
      change s.taken .complete = _
      omega
  | workerExits | workerStarts | recvIdle | recvJobs | sendIdle | process | jobRaises | jobsDone
  | sendFinished => exact h

theorem counting (h : Reachable (system c) s) : Counting c s :=
  reachable_invariant (I := Counting c) rfl (fun _ _ _ hI ht => counting_trans hI ht) h

/-! ## who left at the existence check -/

structure Seeing (c : Config) (s : State) : Prop where
  left : s.master = .exit1 → c.sees 0 = false
  stayed : s.master ≠ .check → s.master ≠ .exit1 → c.sees 0 = true
  raised : ∀ e, s.master = .raised e → c.transferDict = .error e
  distributed : s.master ≠ .check → s.master ≠ .exit1 → (∀ e, s.master ≠ .raised e) →
    ∃ transferDict, c.transferDict = .ok transferDict
  workerLeft : ∀ w, s.worker w = .exit1 → c.sees w = false
  workerStayed : ∀ w, s.worker w ≠ .check → s.worker w ≠ .exit1 → c.sees w = true

theorem seeing_trans (h : Seeing c s) (ht : Trans c s s') : Seeing c s' := by
  obtain ⟨h1, h2, h3, h4, h5, h6⟩ := h
  cases ht <;> constructor <;> grind

theorem seeing (h : Reachable (system c) s) : Seeing c s := by
  refine reachable_invariant ?_ (fun _ _ _ hI ht => seeing_trans hI ht) h
  constructor <;> simp [initState]

end ContainerHackathon.PyStager
