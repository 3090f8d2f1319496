import ContainerHackathon.PyStager.Protocol.Messages

/-!
# PyStager.Protocol.Halting

Every run comes to an end (`measure_trans`), and the ends of the runs are
told apart: either every rank has terminated, or some rank waits for a
message that nobody can send any more (`leftWaiting_of_halted`).  The
latter is excluded exactly by `Config.NobodyLeft`.
-/

namespace ContainerHackathon.PyStager

open Transition

variable {c : Config} {s s' : State}

/-! ## every run ends -/

def masterMeasure (c : Config) : MasterPc → Nat
  | .check => c.p + (c.p + c.items.length + 5)
  | .send k => (c.p - k) + (c.p + c.items.length + 4)
  | .idle k => k.toNat + (c.items.length + 3)
  | .complete k => (c.items.length + 1 - k) + 1
  | .done | .exit1 | .raised _ => 0

def workerMeasure (c : Config) (w : Nat) : WorkerPc → Nat
  | .check => 2 * (jobList (c.message w)).length + 3
  | .recv => 2 * (jobList (c.message w)).length + 2
  | .reportIdle => 1
  | .job jobs k => 2 * (jobs.length - k) + 1
  | .report jobs k _ => 2 * (jobs.length - k)
  | .finished | .exit1 | .raised _ => 0

/-- The number of steps left, at most. -/
def State.measure (c : Config) (s : State) : Nat :=
  masterMeasure c s.master + ∑ w ∈ Finset.Ico 1 c.p, workerMeasure c w (s.worker w)

theorem measure_of_master (hw : s'.worker = s.worker)
    (hm : masterMeasure c s'.master < masterMeasure c s.master) : s'.measure c < s.measure c := by
  simp only [State.measure, hw]
  omega

theorem measure_of_worker {w : Nat} (hr : 1 ≤ w ∧ w < c.p) (hm : s'.master = s.master)
    (hother : ∀ v, v ≠ w → s'.worker v = s.worker v)
    (hlt : workerMeasure c w (s'.worker w) < workerMeasure c w (s.worker w)) :
    s'.measure c < s.measure c := by
  simp only [State.measure, hm]
  refine Nat.add_lt_add_left (Finset.sum_lt_sum (fun v hv => ?_)
    ⟨w, Finset.mem_Ico.mpr hr, hlt⟩) _
  by_cases hv : v = w
  · subst hv; exact hlt.le
  · rw [hother v hv]

/-- Every step brings the run nearer to its end. -/
theorem measure_trans (hd : Delivery c s) (hp : Progress c s) (ht : Trans c s s') :
    s'.measure c < s.measure c := by
  cases ht with
  | masterExits hm | masterRaises hm | masterStarts hm | send hm hk | sendsDone hm hk
  | idleRecv hm hk ho | idleDone hm hk | completeRecv hm hk ho | completeDone hm hk =>
      refine measure_of_master rfl ?_
      simp only [hm, masterMeasure]
      omega
  | workerExits hw hc | workerStarts hw hc | sendIdle hw hc =>
      exact measure_of_worker hw rfl (by grind) (by simp [hc, workerMeasure])
  | @recvIdle w ms hw hc hi =>
      exact measure_of_worker hw rfl (by grind) (by simp [hc, workerMeasure])
  | @recvJobs w text ms hw hc hi =>
      have hmsg := (hd.head hw hc hi).1
      exact measure_of_worker hw rfl (by grind) (by simp [hc, workerMeasure, ← hmsg, jobList])
  | @process w jobs k job hw hc hj hr =>
      exact measure_of_worker hw rfl (by grind) (by simp [hc, workerMeasure])
  | @jobRaises w jobs k job e hw hc hj hr =>
      exact measure_of_worker hw rfl (by grind) (by simp [hc, workerMeasure])
  | @jobsDone w jobs k hw hc hj =>
      exact measure_of_worker hw rfl (by grind) (by simp [hc, workerMeasure])
  | @sendFinished w jobs k text hw hc =>
      obtain ⟨-, -, ⟨⟨job, hj, -⟩, -⟩, -⟩ := hp.at_pc hc
      have hlt : k < jobs.length := (List.getElem?_eq_some_iff.mp hj).1
      refine measure_of_worker hw rfl (by grind) ?_
      simp only [goto_worker, if_true, hc, workerMeasure]
      omega

/-- **Termination**: every reachable state leads to one where nobody moves. -/
theorem exists_halted_of_reachable (h : Reachable (system c) s) :
    ∃ t, Steps (system c) s t ∧ Halted (system c) t :=
  exists_halted (S := system c) (μ := State.measure c)
    (fun _ _ _ hr hs => measure_trans (delivery hr) (progress hr) (trans_of_step hs)) h

/-! ## how a run can end -/

def MasterPc.gone : MasterPc → Prop
  | .done | .exit1 | .raised _ => True
  | .check | .send _ | .idle _ | .complete _ => False

def WorkerPc.gone : WorkerPc → Prop
  | .finished | .exit1 | .raised _ => True
  | .check | .recv | .reportIdle | .job .. | .report .. => False

/-- The master is at a `comm.recv()`. -/
def MasterPc.receives (c : Config) : MasterPc → Prop
  | .idle k => 1 < k
  | .complete k => k ≤ c.items.length
  | .check | .send _ | .done | .exit1 | .raised _ => False

/-- A master that receives has sent to every worker. -/
theorem MasterPc.sentTo_of_receives {m : MasterPc} (h : m.receives c) (w : Nat) : m.sentTo w := by
  cases m <;> trivial

/-- Every rank has terminated. -/
def AllGone (c : Config) (s : State) : Prop :=
  s.master.gone ∧ ∀ w, 1 ≤ w → w < c.p → (s.worker w).gone

/-- The master waits and all workers are gone, with no message under way. -/
def MasterLeftWaiting (c : Config) (s : State) : Prop :=
  s.master.receives c ∧ (∀ w, s.outbox w = []) ∧ ∀ w, 1 ≤ w → w < c.p → (s.worker w).gone

/-- A worker waits for its message and the master is gone without having
sent it. -/
def WorkerLeftWaiting (c : Config) (s : State) : Prop :=
  ∃ w, 1 ≤ w ∧ w < c.p ∧ s.worker w = .recv ∧ s.inbox w = [] ∧ s.master.gone

/-- Some rank is blocked in `comm.recv` with no message for it in flight
and every rank that could send it one terminated. -/
def LeftWaiting (c : Config) (s : State) : Prop := MasterLeftWaiting c s ∨ WorkerLeftWaiting c s

/-- Nobody can move although not every rank has terminated. -/
def Deadlocked (c : Config) (s : State) : Prop := Halted (system c) s ∧ ¬ AllGone c s

/-- A `comm.recv()` only blocks on an empty channel. -/
theorem outbox_of_receive {loop : RecvLoop} {source : Nat} {next : MasterPc}
    (h : s.receive loop source next = none) : s.outbox source = [] := by
  unfold State.receive at h
  split at h
  · assumption
  · cases h

theorem master_of_halted (h : Halted (system c) s) :
    s.master.gone ∨ s.master.receives c ∧ ∀ w, s.outbox w = [] := by
  have hmaster : ∀ source, masterStep c source s = none := fun source => h (.master source)
  have hstuck := hmaster 0
  cases hm : s.master with
  | check =>
      simp only [masterStep, hm] at hstuck
      split at hstuck
      · split at hstuck <;> cases hstuck
      · cases hstuck
  | send k =>
      simp only [masterStep, hm] at hstuck
      split at hstuck <;> cases hstuck
  | idle k =>
      by_cases hk : 1 < k
      · have hout : ∀ w, s.outbox w = [] := fun w =>
          outbox_of_receive (by simpa only [masterStep, hm, if_pos hk] using hmaster w)
        exact .inr ⟨hk, hout⟩
      · simp [masterStep, hm, if_neg hk] at hstuck
  | complete k =>
      by_cases hk : k ≤ c.items.length
      · have hout : ∀ w, s.outbox w = [] := fun w =>
          outbox_of_receive (by simpa only [masterStep, hm, if_pos hk] using hmaster w)
        exact .inr ⟨hk, hout⟩
      · simp [masterStep, hm, if_neg hk] at hstuck
  | done | exit1 | raised => exact .inl trivial

theorem worker_of_halted (h : Halted (system c) s) {w : Nat} (hw : 1 ≤ w ∧ w < c.p) :
    (s.worker w).gone ∨ s.worker w = .recv ∧ s.inbox w = [] := by
  have hstuck : workerStep c w s = none := by
    have := h (.worker w)
    simpa only [system, step, if_pos hw] using this
  cases hc : s.worker w with
  | check | reportIdle | report => simp [workerStep, hc] at hstuck
  | recv =>
      cases hi : s.inbox w with
      | nil => exact .inr ⟨rfl, rfl⟩
      | cons m ms => cases m <;> simp [workerStep, hc, hi] at hstuck
  | job jobs k =>
      simp only [workerStep, hc] at hstuck
      split at hstuck
      · cases hstuck
      · split at hstuck <;> cases hstuck
  | finished | exit1 | raised => exact .inl trivial

/-- **Ends of runs**: a run that stops leaves all ranks terminated or one
waiting in vain. -/
theorem leftWaiting_of_halted (h : Reachable (system c) s) (hh : Halted (system c) s) :
    AllGone c s ∨ LeftWaiting c s := by
  have hd := delivery h
  by_cases hall : ∀ w, 1 ≤ w → w < c.p → (s.worker w).gone
  · cases master_of_halted hh with
    | inl hm => exact .inl ⟨hm, hall⟩
    | inr hm => exact .inr (.inl ⟨hm.1, hm.2, hall⟩)
  · push Not at hall
    obtain ⟨w, h1, h2, hgone⟩ := hall
    obtain ⟨hc, hi⟩ := (worker_of_halted hh ⟨h1, h2⟩).resolve_left hgone
    have hin := hd.unserved w h1 h2 (by rw [hc]; trivial)
    rw [hi] at hin
    cases master_of_halted hh with
    | inl hm => exact .inr (.inr ⟨w, h1, h2, hc, hi, hm⟩)
    | inr hm =>
        rw [if_pos (MasterPc.sentTo_of_receives hm.1 w)] at hin
        cases hin

/-! ## when nobody is left waiting -/

/-- The master gets to its sends: it sees the source, scanner and builder
return, and the scanner counted no more items than it listed. -/
def Config.Starts (c : Config) : Prop :=
  c.sees 0 = true ∧ c.masterRaises = none ∧ c.scan.total c.params.loadLevel ≤ c.items.length

instance (c : Config) : Decidable c.Starts := inferInstanceAs (Decidable (_ ∧ _ ∧ _))

/-- The ranks' fates fit together: a master that gets to its sends is sent
by the workers that go on all the messages it waits for, and no worker goes
on without a master. -/
def Config.NobodyLeft (c : Config) : Prop :=
  if c.Starts then c.need ≤ c.supply else ∀ w, 1 ≤ w → w < c.p → c.sees w = false

theorem transferDict_ok_iff (hp : 2 ≤ c.p) : (∃ transferDict, c.transferDict = .ok transferDict) ↔
    c.masterRaises = none ∧ c.scan.total c.params.loadLevel ≤ c.items.length := by
  rw [Config.transferDict]
  cases c.masterRaises with
  | some e => simp
  | none =>
      simp only [loadDistributor_eq_ite hp, true_and]
      split <;> simp_all [Config.items]

/-- A master that has sent got to its sends. -/
theorem starts_of_sentTo (hp : 2 ≤ c.p) (h : Reachable (system c) s) {w : Nat}
    (hsent : s.master.sentTo w) : c.Starts := by
  have hcheck : s.master ≠ .check := fun hm => by simp [hm, MasterPc.sentTo] at hsent
  have hexit : s.master ≠ .exit1 := fun hm => by simp [hm, MasterPc.sentTo] at hsent
  have hraised : ∀ e, s.master ≠ .raised e := fun e hm => by simp [hm, MasterPc.sentTo] at hsent
  have hok := (seeing h).distributed hcheck hexit hraised
  exact ⟨(seeing h).stayed hcheck hexit, (transferDict_ok_iff hp).mp hok⟩

/-- A master that starts only terminates when it is done. -/
theorem done_of_gone (hp : 2 ≤ c.p) (h : Reachable (system c) s) (hc : c.Starts)
    (hm : s.master.gone) : s.master = .done := by
  obtain ⟨h0, hok⟩ := hc
  obtain ⟨d, hd⟩ := (transferDict_ok_iff hp).mpr hok
  cases hmaster : s.master with
  | done => rfl
  | exit1 => simp [(seeing h).left hmaster] at h0
  | raised e => simp [(seeing h).raised e hmaster] at hd
  | check | send | idle | complete => simp [hmaster, MasterPc.gone] at hm

theorem not_masterLeftWaiting (hp : 2 ≤ c.p) (hc : c.NobodyLeft) (h : Reachable (system c) s) :
    ¬ MasterLeftWaiting c s := by
  intro hwait
  obtain ⟨hm, hout, hgone⟩ := hwait
  rw [Config.NobodyLeft, if_pos (starts_of_sentTo hp h (MasterPc.sentTo_of_receives hm 0))] at hc
  have hlt : s.log.length < c.need := length_log_lt h (by
    cases hmaster : s.master <;> simp_all [MasterPc.receives])
  obtain ⟨w, hw, hmore⟩ := Gather.exists_more (gather_reachable h) (P := Finset.Ico 1 c.p)
    (fun i hi => script_outside hi) (by
      rw [sum_length_script, State.gather, List.length_map]
      exact lt_of_lt_of_le hlt hc)
  have hw' := Finset.mem_Ico.mp hw
  cases hmore with
  | inl htransit => exact htransit (hout w)
  | inr hpending =>
      have hg := hgone w hw'.1 hw'.2
      cases hwk : s.worker w <;> simp_all [WorkerPc.gone, State.gather, State.owed, owedAt]

theorem not_workerLeftWaiting (hp : 2 ≤ c.p) (hc : c.NobodyLeft) (h : Reachable (system c) s) :
    ¬ WorkerLeftWaiting c s := by
  intro hwait
  obtain ⟨w, h1, h2, hrecv, hi, hm⟩ := hwait
  have hin := (delivery h).unserved w h1 h2 (by rw [hrecv]; trivial)
  have hsees := (seeing h).workerStayed w (by simp [hrecv]) (by simp [hrecv])
  have hstart : ¬ c.Starts := fun hstart => by simp [done_of_gone hp h hstart hm, MasterPc.sentTo, hi] at hin
  rw [Config.NobodyLeft, if_neg hstart] at hc
  rw [hc w h1 h2] at hsees
  cases hsees

/-- When all ranks have terminated, no rank can have been missing. -/
theorem nobodyLeft_of_allGone (hp : 2 ≤ c.p) (h : Reachable (system c) s) (hgone : AllGone c s) :
    c.NobodyLeft := by
  by_cases hstart : c.Starts
  · rw [Config.NobodyLeft, if_pos hstart, ← length_log_of_done h (done_of_gone hp h hstart hgone.1)]
    exact length_log_le h
  · rw [Config.NobodyLeft, if_neg hstart]
    intro w h1 h2
    by_contra hsees
    have hserved : ¬ (s.worker w).unserved := by
      have hg := hgone.2 w h1 h2
      cases hwk : s.worker w with
      | exit1 => exact absurd ((seeing h).workerLeft w hwk) hsees
      | check | recv => simp [hwk, WorkerPc.gone] at hg
      | reportIdle | job | report | finished | raised => simp [WorkerPc.unserved]
    exact hstart (starts_of_sentTo hp h ((delivery h).served w hserved).2)

/-- **Nobody is left waiting** in any interleaving exactly under
`NobodyLeft`. -/
theorem never_leftWaiting_iff (hp : 2 ≤ c.p) :
    (∀ s, Reachable (system c) s → ¬ LeftWaiting c s) ↔ c.NobodyLeft := by
  constructor
  · intro hnever
    have hstart : Reachable (system c) initState := .init rfl
    obtain ⟨t, hst, hh⟩ := exists_halted_of_reachable hstart
    have hr := hstart.steps hst
    have hgone := (leftWaiting_of_halted hr hh).resolve_right (hnever t hr)
    exact nobodyLeft_of_allGone hp hr hgone
  · exact fun hc s hr hwait =>
      hwait.elim (not_masterLeftWaiting hp hc hr) (not_workerLeftWaiting hp hc hr)

/-- Under `NobodyLeft` a run that stops has terminated everywhere. -/
theorem allGone_of_halted (hp : 2 ≤ c.p) (hc : c.NobodyLeft) (h : Reachable (system c) s)
    (hh : Halted (system c) s) : AllGone c s :=
  (leftWaiting_of_halted h hh).resolve_right ((never_leftWaiting_iff hp).mpr hc s h)

/-- A master that starts and gets what it needs can always finish. -/
theorem exists_steps_done (hp : 2 ≤ c.p) (hstart : c.Starts) (hneed : c.need ≤ c.supply)
    (h : Reachable (system c) s) : ∃ t, Steps (system c) s t ∧ t.master = .done := by
  have hleft : c.NobodyLeft := by rw [Config.NobodyLeft, if_pos hstart]; exact hneed
  obtain ⟨t, hst, hh⟩ := exists_halted_of_reachable h
  have ht := h.steps hst
  exact ⟨t, hst, done_of_gone hp ht hstart (allGone_of_halted hp hleft ht hh).1⟩

end ContainerHackathon.PyStager
