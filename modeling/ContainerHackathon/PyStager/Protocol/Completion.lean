import ContainerHackathon.PyStager.Protocol.Halting

/-!
# PyStager.Protocol.Completion

What is true once the master has logged 'PyStager is done'.  Whenever the
workers send no more than the master consumes (`drained_of_done`), no
message is left over and every worker has gone through its whole job list
(`processed_of_owed`); a normal run is of this kind
(`normalRun_correct`).
-/

namespace ContainerHackathon.PyStager

open Transition

variable {c : Config} {s t : State}

/-! ## records of processed jobs -/

@[simp] theorem map_name_jobRecords (w : Nat) (jobs : List String) :
    (jobRecords c w jobs).map Job.name = jobs := by
  refine List.ext_getElem (by simp [jobRecords]) fun i _ _ => ?_
  simp [jobRecords, processJob]

theorem mem_jobRecords {w : Nat} {jobs : List String} {j : Job} :
    j ∈ jobRecords c w jobs ↔ ∃ k name, jobs[k]? = some name ∧ processJob c w k name = j := by
  simp only [jobRecords, List.mem_mapIdx]
  constructor
  · intro hat
    obtain ⟨k, hk, hj⟩ := hat
    exact ⟨k, jobs[k], List.getElem?_eq_getElem hk, hj⟩
  · intro hrecord
    obtain ⟨k, name, hk, hj⟩ := hrecord
    obtain ⟨hlt, hname⟩ := List.getElem?_eq_some_iff.mp hk
    exact ⟨k, hlt, by rw [hname, hj]⟩

/-- A worker has processed a front part of its job list, in order. -/
theorem isPrefix_processed (h : Reachable (system c) s) (w : Nat) :
    s.processed w <+: jobRecords c w (jobList (c.message w)) := by
  have hp := progress h
  cases hc : s.worker w with
  | check | recv | exit1 =>
      have hnil : s.processed w = [] := hp.at_pc hc
      exact hnil ▸ List.nil_prefix
  | reportIdle => exact (hp.at_pc hc).1 ▸ List.nil_prefix
  | job jobs k =>
      obtain ⟨-, hjobs, -, hproc⟩ := hp.at_pc hc
      rw [hproc, hjobs]
      exact List.take_prefix ..
  | report jobs k text =>
      obtain ⟨-, hjobs, -, hproc⟩ := hp.at_pc hc
      rw [hproc, hjobs]
      exact List.take_prefix ..
  | finished => exact (hp.at_pc hc).2 ▸ List.prefix_rfl
  | raised e =>
      obtain ⟨k, -, -, hproc⟩ := hp.at_pc hc
      rw [hproc]
      exact List.take_prefix ..

theorem processed_outside (h : Reachable (system c) s) {w : Nat} (hw : ¬ (1 ≤ w ∧ w < c.p)) :
    s.processed w = [] :=
  (progress h).at_pc ((delivery h).outside w hw).2

/-- The names of processed jobs are pieces between separators. -/
theorem notMem_name_of_processed (h : Reachable (system c) s) {w : Nat} {j : Job}
    (hj : j ∈ s.processed w) : ';' ∉ j.name.toList := by
  have hmem : j.name ∈ (jobRecords c w (jobList (c.message w))).map Job.name :=
    List.mem_map_of_mem ((isPrefix_processed h w).subset hj)
  rw [map_name_jobRecords] at hmem
  cases hm : c.message w with
  | none => simp [hm, jobList] at hmem
  | some text =>
      rw [hm] at hmem
      exact Delimited.notMem_of_mem_split hmem

/-- Both kinds of message are answered, if no job raises. -/
theorem notices_ne_nil {w : Nat} (hquiet : c.QuietAt w) : notices c w (c.message w) ≠ [] := by
  have hlen := length_notices (c := c) w
  rw [sends_of_quietAt hquiet] at hlen
  intro hnil
  rw [hnil, List.length_nil] at hlen
  omega

/-- A worker that owes nothing has processed its whole list. -/
theorem processed_of_owed (h : Reachable (system c) s) {w : Nat} (hw : 1 ≤ w ∧ w < c.p)
    (hs : c.sees w = true) (hquiet : c.QuietAt w) (howed : s.owed c w = []) :
    s.processed w = jobRecords c w (jobList (c.message w)) := by
  have hp := progress h
  rw [State.owed] at howed
  cases hc : s.worker w with
  | check | recv =>
      rw [hc, owedAt, script_of_sees hw hs] at howed
      exact absurd howed (notices_ne_nil hquiet)
  | reportIdle | report => simp [hc, owedAt] at howed
  | job jobs k =>
      obtain ⟨-, hjobs, -, hproc⟩ := hp.at_pc hc
      rw [Config.QuietAt, ← hjobs] at hquiet
      rw [hc, owedAt, List.map_eq_nil_iff, List.drop_eq_nil_iff, Config.completed,
        reach_eq hquiet, List.take_length] at howed
      rw [hproc, ← hjobs, List.take_of_length_le (by simpa [jobRecords] using howed)]
  | finished => exact (hp.at_pc hc).2
  | exit1 => simp [(seeing h).workerLeft w hc] at hs
  | raised e =>
      obtain ⟨k, hk, hr, -⟩ := hp.at_pc hc
      simp [hquiet k hk] at hr

/-! ## the state of affairs when the master is done -/

/-- No other rank is going to send anything once the supply is used up. -/
theorem drained_of_done (h : Reachable (system c) s) (hm : s.master = .done)
    (hsupply : c.supply ≤ c.need) (w : Nat) : s.outbox w = [] ∧ s.owed c w = [] := by
  have hlen := length_log_of_done h hm
  have hle := length_log_le h
  refine Gather.drained (gather_reachable h) (P := Finset.Ico 1 c.p)
    (fun i hi => script_outside hi) ?_ w
  rw [sum_length_script, State.gather, List.length_map]
  omega

/-- A worker that owes nothing has taken its message. -/
theorem inbox_of_owed (h : Reachable (system c) s) {w : Nat} (hs : c.sees w = true)
    (hquiet : c.QuietAt w) (howed : s.owed c w = []) : s.inbox w = [] := by
  have hd := delivery h
  by_cases hw : 1 ≤ w ∧ w < c.p
  · refine (hd.served w fun hu => ?_).1
    rw [State.owed] at howed
    cases hc : s.worker w with
    | check | recv =>
        rw [hc, owedAt, script_of_sees hw hs] at howed
        exact absurd howed (notices_ne_nil hquiet)
    | exit1 => simp [(seeing h).workerLeft w hc] at hs
    | reportIdle | job | report | finished | raised => simp [hc, WorkerPc.unserved] at hu
  · exact (hd.outside w hw).1

theorem done_of_steps (hm : s.master = .done)
    (hst : Steps (system c) s t) : t.master = .done := by
  induction hst with
  | refl => exact hm
  | tail _ hstep ih =>
      obtain ⟨a, ha⟩ := hstep
      cases trans_of_step ha <;> simp_all

/-! ## normal runs -/

/-- The circumstances of a normal run: all ranks see the source, no rank
raises, and the scanner's count and items are as they should be. -/
structure Config.Normal (c : Config) : Prop where
  ranks : 2 ≤ c.p
  masterReturns : c.masterRaises = none
  total : c.scan.total c.params.loadLevel = c.items.length
  sees : ∀ r, r < c.p → c.sees r = true
  distinct : c.items.Nodup
  free : ∀ item ∈ c.items, ';' ∉ item.toList
  workersReturn : c.Quiet

theorem Config.Normal.starts (hc : c.Normal) : c.Starts :=
  ⟨hc.sees 0 (by have := hc.ranks; omega), hc.masterReturns, hc.total.le⟩

theorem Config.Normal.nobodyLeft (hc : c.Normal) : c.NobodyLeft := by
  rw [Config.NobodyLeft, if_pos hc.starts]
  exact need_le_supply hc.ranks hc.masterReturns hc.total (fun w _ hw => hc.sees w hw)
    hc.workersReturn

/-- When nothing raises, every worker ends up with the records of its hand. -/
theorem processed_of_done (hp : 2 ≤ c.p) (hmaster : c.masterRaises = none)
    (htotal : c.scan.total c.params.loadLevel = c.items.length)
    (hfree : ∀ item ∈ c.items, ';' ∉ item.toList) (h : Reachable (system c) s)
    (hm : s.master = .done) {w : Nat} (hw : 1 ≤ w ∧ w < c.p) (hs : c.sees w = true)
    (hquiet : c.QuietAt w) : s.processed w = jobRecords c w (itemsOf c.p c.items w) := by
  have howed := (drained_of_done h hm (supply_le_need hp hmaster htotal hfree) w).2
  rw [processed_of_owed h hw hs hquiet howed, jobList_message_of_free hp hmaster htotal hfree hw]

/-- Every item is in exactly one hand, exactly once. -/
theorem exists_unique_hand {p : Nat} {items : List String} (hp : 2 ≤ p) (hnodup : items.Nodup)
    {item : String} (hitem : item ∈ items) : ∃ w, (1 ≤ w ∧ w < p) ∧
      (itemsOf p items w).count item = 1 ∧
      ∀ v, 1 ≤ v → v < p → v ≠ w → item ∉ itemsOf p items v := by
  have hperm := RoundRobin.flatMap_deal_perm items (k := p - 1) (by omega)
  have hdealt : ((List.range (p - 1)).flatMap (RoundRobin.deal (p - 1) items)).Nodup :=
    hperm.nodup_iff.mpr hnodup
  obtain ⟨hhand, hdisjoint⟩ := List.nodup_flatMap.mp hdealt
  obtain ⟨r, hr, hmem⟩ := List.mem_flatMap.mp (hperm.mem_iff.mpr hitem)
  have hlt := List.mem_range.mp hr
  refine ⟨r + 1, by omega, ?_, fun v h1 h2 hne hv => ?_⟩
  · rw [itemsOf, Nat.add_sub_cancel]
    exact List.count_eq_one_of_mem (hhand r hr) hmem
  · have hsymm : Std.Symm (Function.onFun List.Disjoint (RoundRobin.deal (p - 1) items)) :=
      ⟨fun _ _ h => h.symm⟩
    have hv1 : v - 1 ∈ List.range (p - 1) := List.mem_range.mpr (by omega)
    exact hdisjoint.forall hr hv1 (by omega) hmem hv

/-- **Normal runs are correct**: nobody gets stuck before everything is
finished, and when the master is done nothing is in flight, now or later,
and every item has been processed by exactly one worker exactly once. -/
theorem normalRun_correct (hc : c.Normal) (h : Reachable (system c) s) :
    (¬ (s.master = .done ∧ ∀ w, 1 ≤ w → w < c.p → s.worker w = .finished) →
      ∃ a s', (system c).step a s = some s') ∧
    (s.master = .done →
      (s.taken .idle = c.p - 1 - c.items.length ∧ s.taken .complete = c.items.length) ∧
      (∀ t, Steps (system c) s t → ∀ w, t.inbox w = [] ∧ t.outbox w = []) ∧
      ∀ item ∈ c.items, ∃ w, (1 ≤ w ∧ w < c.p) ∧
        ((s.processed w).map Job.name).count item = 1 ∧
        ∀ v, v ≠ w → item ∉ (s.processed v).map Job.name) := by
  have hp := hc.ranks
  refine ⟨fun hunfinished => ?_, fun hm => ⟨?_, fun t hst w => ?_, fun item hitem => ?_⟩⟩
  · by_contra hstuck
    have hh : Halted (system c) s := by
      intro a
      cases ha : (system c).step a s with
      | none => rfl
      | some s' => exact absurd ⟨a, s', ha⟩ hstuck
    obtain ⟨hm, hgone⟩ := allGone_of_halted hp hc.nobodyLeft h hh
    refine hunfinished ⟨done_of_gone hp h hc.starts hm, fun w h1 h2 => ?_⟩
    have hg := hgone w h1 h2
    cases hw : s.worker w with
    | finished => rfl
    | exit1 => simpa [hc.sees w h2] using (seeing h).workerLeft w hw
    | raised e =>
        obtain ⟨k, hk, hr, -⟩ := (progress h).at_pc hw
        simp [hc.workersReturn w h1 h2 k hk] at hr
    | check | recv | reportIdle | job | report => simp [hw, WorkerPc.gone] at hg
  · have hcount := counting h
    rw [Counting, hm] at hcount
    exact hcount
  · have ht := h.steps hst
    have hd := drained_of_done ht (done_of_steps hm hst)
      (supply_le_need hp hc.masterReturns hc.total hc.free) w
    refine ⟨?_, hd.1⟩
    by_cases hw : 1 ≤ w ∧ w < c.p
    · exact inbox_of_owed ht (hc.sees w hw.2) (hc.workersReturn w hw.1 hw.2) hd.2
    · exact ((delivery ht).outside w hw).1
  · have hprocessed : ∀ w, 1 ≤ w → w < c.p →
        (s.processed w).map Job.name = itemsOf c.p c.items w := fun w h1 h2 => by
      rw [processed_of_done hp hc.masterReturns hc.total hc.free h hm ⟨h1, h2⟩ (hc.sees w h2)
        (hc.workersReturn w h1 h2), map_name_jobRecords]
    obtain ⟨w, hw, hcount, hothers⟩ := exists_unique_hand hp hc.distinct hitem
    refine ⟨w, hw, by rw [hprocessed w hw.1 hw.2, hcount], fun v hv => ?_⟩
    by_cases hin : 1 ≤ v ∧ v < c.p
    · rw [hprocessed v hin.1 hin.2]
      exact hothers v hin.1 hin.2 hv
    · simp [processed_outside h hin]

/-- A configuration in which every rank sees the source and every command
succeeds. -/
def plainConfig (p : Nat) (items : List String) : Config where
  p := p
  params := ⟨"/src/", "/dst/", 1, 1, .directory⟩
  scan := ⟨[], items, 0, 0, items.length⟩
  masterRaises := none
  sees _ := true
  outcome _ _ := ⟨0, true, none, none⟩

theorem plainConfig_quiet (p : Nat) (items : List String) : (plainConfig p items).Quiet :=
  fun _ _ _ _ _ => rfl

/-- Three workers, two items: worker 2 is the first to finish its job, and
worker 3 reports before it. -/
def idleSchedule : List Move :=
  [.worker 3, .master 0, .worker 1, .master 0, .worker 1, .master 0, .master 0, .master 0, .worker 3,
    .worker 3, .master 3, .worker 2, .worker 2, .worker 2, .worker 2, .master 0, .master 2, .worker 1,
    .worker 1, .worker 2, .master 1, .worker 1, .master 0]

theorem normalRun_correct_idle : ∃ s, Reachable (system (plainConfig 4 ["a", "b"])) s ∧
    s.master = .done ∧ (s.taken .idle = 1 ∧ s.taken .complete = 2) ∧
    ∀ item ∈ ["a", "b"], ∃ w, (1 ≤ w ∧ w < 4) ∧
      ((s.processed w).map Job.name).count item = 1 ∧
      ∀ v, v ≠ w → item ∉ (s.processed v).map Job.name := by
  have hc : (plainConfig 4 ["a", "b"]).Normal :=
    ⟨by decide, rfl, rfl, fun _ _ => rfl, by decide, by decide, plainConfig_quiet _ _⟩
  refine ⟨_, reachable_of_run idleSchedule rfl rfl, rfl, ?_⟩
  have hdone := (normalRun_correct hc (reachable_of_run idleSchedule rfl rfl)).2 rfl
  exact ⟨hdone.1, hdone.2.2⟩

/-- Two workers, three items: both are busy, and worker 2 is slow. -/
def busySchedule : List Move :=
  [.worker 2, .master 0, .master 0, .master 0, .master 0, .master 0, .worker 1, .worker 1, .worker 1,
    .worker 1, .master 1, .worker 1, .worker 2, .worker 2, .worker 2, .worker 1, .master 2, .worker 1,
    .master 1, .worker 2, .master 0]

end ContainerHackathon.PyStager
