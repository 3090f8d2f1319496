import ContainerHackathon.PyStager.Protocol.Invariant

/-!
# PyStager.Protocol.Messages

The run seen as a counted gather: every worker has a script of notices, the
master takes them from any worker and only counts.  `simulation` maps every
step of the run to a step of `Gather` or to none, so the conservation laws
of the pattern hold of the run; the rest of the module computes the two
numbers they compare:

* `Config.need` — how many messages the master's two loops consume;
* `Config.supply` — how many the workers that see the source will send, each
  up to the first job that raises.
-/

namespace ContainerHackathon.PyStager

open Transition

variable {c : Config} {s s' : State}

/-! ## how far a worker gets -/

/-- How many of `n` jobs come before the first one that raises. -/
def Config.reach (c : Config) (w n : Nat) : Nat :=
  ((List.range n).takeWhile (fun k => c.raises w k = none)).length

/-- The jobs that worker `w` gets through. -/
def Config.completed (c : Config) (w : Nat) (jobs : List String) : List String :=
  jobs.take (c.reach w jobs.length)

theorem reach_le (w n : Nat) : c.reach w n ≤ n := by
  have hle := (List.takeWhile_prefix (fun k => decide (c.raises w k = none))
    (l := List.range n)).length_le
  simpa [Config.reach] using hle

theorem raises_of_lt_reach {w n k : Nat} (h : k < c.reach w n) : c.raises w k = none := by
  unfold Config.reach at h
  have hget : ((List.range n).takeWhile (fun k => decide (c.raises w k = none)))[k] = k := by
    rw [(List.takeWhile_prefix _).getElem]
    simp
  have hmem := List.mem_takeWhile_imp (List.getElem_mem h)
  rw [hget] at hmem
  simpa using hmem

theorem reach_le_of_raises {w n k : Nat} (h : c.raises w k ≠ none) : c.reach w n ≤ k :=
  Nat.le_of_not_lt fun hlt => h (raises_of_lt_reach hlt)

theorem lt_reach {w n k : Nat} (hk : k < n) (h : ∀ i ≤ k, c.raises w i = none) :
    k < c.reach w n := by
  have hsplit : List.range n = List.range (k + 1) ++ List.range' (0 + (k + 1)) (n - (k + 1)) := by
    rw [List.range_eq_range', List.range_eq_range', List.range'_append_1, Nat.add_sub_of_le hk]
  rw [Config.reach, hsplit, List.takeWhile_append_of_pos]
  · simp
    omega
  · intro i hi
    have := List.mem_range.mp hi
    simpa using h i (by omega)

/-- No job raises: all of them are gone through. -/
theorem reach_eq {w n : Nat} (h : ∀ k < n, c.raises w k = none) : c.reach w n = n := by
  cases n with
  | zero => rfl
  | succ n =>
      have hlt : n < c.reach w (n + 1) :=
        lt_reach (Nat.lt_succ_self n) fun i hi => h i (Nat.lt_succ_of_le hi)
      have hle : c.reach w (n + 1) ≤ n + 1 := reach_le w (n + 1)
      omega

/-! ## what a worker owes -/

/-- The notices that worker `w` sends in answer to a message. -/
def notices (c : Config) (w : Nat) : Option String → List Notice
  | none => [.idle w]
  | some text => (c.completed w (Delimited.split ';' text)).map
      (fun job => .finished w (rsyncStr c.params job))

/-- What worker `w` sends in a whole run. -/
def script (c : Config) (w : Nat) : List Notice :=
  if 1 ≤ w ∧ w < c.p ∧ c.sees w = true then notices c w (c.message w) else []

/-- What a worker at a given place still has to send. -/
def owedAt (c : Config) (w : Nat) : WorkerPc → List Notice
  | .check | .recv => script c w
  | .reportIdle => [.idle w]
  | .job jobs k => ((c.completed w jobs).drop k).map (fun job => .finished w (rsyncStr c.params job))
  | .report jobs k text => .finished w text ::
      ((c.completed w jobs).drop (k + 1)).map (fun job => .finished w (rsyncStr c.params job))
  | .finished | .exit1 | .raised _ => []

def State.owed (s : State) (c : Config) (w : Nat) : List Notice := owedAt c w (s.worker w)

theorem script_of_sees {w : Nat} (hw : 1 ≤ w ∧ w < c.p) (hs : c.sees w = true) :
    script c w = notices c w (c.message w) := if_pos ⟨hw.1, hw.2, hs⟩

theorem script_of_not_sees {w : Nat} (hs : c.sees w = false) : script c w = [] :=
  if_neg fun h => by rw [hs] at h; exact absurd h.2.2 (by simp)

theorem script_outside {w : Nat} (hw : w ∉ Finset.Ico 1 c.p) : script c w = [] :=
  if_neg fun h => hw (Finset.mem_Ico.mpr ⟨h.1, h.2.1⟩)

/-- The first message of a script in progress is the one about to be sent. -/
theorem owedAt_job {w k : Nat} {jobs : List String} {job : String} (h : jobs[k]? = some job)
    (hquiet : ∀ i ≤ k, c.raises w i = none) :
    owedAt c w (.job jobs k) = owedAt c w (.report jobs k (rsyncStr c.params job)) := by
  obtain ⟨hlt, rfl⟩ := List.getElem?_eq_some_iff.mp h
  have hlen : k < (c.completed w jobs).length := by
    rw [Config.completed, List.length_take]
    exact lt_min (lt_reach hlt hquiet) hlt
  rw [owedAt, owedAt, List.drop_eq_getElem_cons hlen, List.map_cons]
  simp [Config.completed]

/-- Where the jobs end, or one of them raises, nothing is left to send. -/
theorem owedAt_job_eq_nil {w k : Nat} {jobs : List String}
    (h : jobs.length ≤ k ∨ c.raises w k ≠ none) : owedAt c w (.job jobs k) = [] := by
  have hlen : (c.completed w jobs).length ≤ k := by
    rw [Config.completed, List.length_take]
    exact h.elim (fun hk => by omega) fun hr => (Nat.min_le_left ..).trans (reach_le_of_raises hr)
  rw [owedAt, List.drop_eq_nil_of_le hlen, List.map_nil]

/-! ## the run is a counted gather -/

/-- What the gather sees of a state. -/
def State.gather (c : Config) (s : State) : Gather.State Nat Notice where
  pending := s.owed c
  transit := s.outbox
  got := s.log.map Prod.snd

/-- A step of worker `w` that sends nothing. -/
theorem gather_of_silent {w : Nat}
    (hother : ∀ v, v ≠ w → s'.worker v = s.worker v) (hw : s'.owed c w = s.owed c w)
    (hout : s'.outbox = s.outbox) (hlog : s'.log = s.log) : s'.gather c = s.gather c := by
  refine Gather.State.ext (funext fun v => ?_) hout (by simp [State.gather, hlog])
  by_cases hv : v = w
  · subst hv; exact hw
  · simp [State.gather, State.owed, hother v hv]

/-- A step of worker `w` that sends the next notice of its script. -/
theorem gather_of_post {w : Nat} {m : Notice} {pc : WorkerPc}
    (howed : s.owed c w = m :: owedAt c w pc) :
    Gather.step (.send w) (s.gather c) = some (((s.post w m).goto w pc).gather c) := by
  have hpending : (s.gather c).pending w = m :: owedAt c w pc := howed
  rw [Gather.step_send hpending, Option.some.injEq]
  refine Gather.State.ext (funext fun v => ?_) rfl rfl
  by_cases hv : v = w
  · subst hv; simp [State.gather, State.owed]
  · simp [State.gather, State.owed, hv]

theorem gather_step (hd : Delivery c s) (hp : Progress c s) (hs : Seeing c s) (ht : Trans c s s') :
    s'.gather c = s.gather c ∨ ∃ b, Gather.step b (s.gather c) = some (s'.gather c) := by
  cases ht with
  | masterExits | masterRaises | masterStarts | send | sendsDone | idleDone | completeDone =>
      exact .inl rfl
  | @idleRecv k w m ms hm hk ho =>
      refine .inr ⟨.take w, ?_⟩
      have htransit : (s.gather c).transit w = m :: ms := ho
      rw [Gather.step_take htransit]
      simp [State.gather]
      rfl
  | @completeRecv k w m ms hm hk ho =>
      refine .inr ⟨.take w, ?_⟩
      have htransit : (s.gather c).transit w = m :: ms := ho
      rw [Gather.step_take htransit]
      simp [State.gather]
      rfl
  | @workerExits w hw hc hsees =>
      refine .inl (gather_of_silent (w := w) (by grind) ?_ rfl rfl)
      simp [State.owed, hc, owedAt, script_of_not_sees hsees]
  | @workerStarts w hw hc hsees =>
      refine .inl (gather_of_silent (w := w) (by grind) ?_ rfl rfl)
      simp [State.owed, hc, owedAt]
  | @recvIdle w ms hw hc hi =>
      have hmsg := (hd.head hw hc hi).1
      have hsees := hs.workerStayed w (by simp [hc]) (by simp [hc])
      refine .inl (gather_of_silent (w := w) (by grind) ?_ rfl rfl)
      simp [State.owed, hc, owedAt, script_of_sees hw hsees, ← hmsg, notices]
  | @recvJobs w text ms hw hc hi =>
      have hmsg := (hd.head hw hc hi).1
      have hsees := hs.workerStayed w (by simp [hc]) (by simp [hc])
      refine .inl (gather_of_silent (w := w) (by grind) ?_ rfl rfl)
      simp [State.owed, hc, owedAt, script_of_sees hw hsees, ← hmsg, notices]
  | @sendIdle w hw hc =>
      exact .inr ⟨.send w, gather_of_post (by simp [State.owed, hc, owedAt])⟩
  | @process w jobs k job hw hc hj hr =>
      obtain ⟨-, -, ⟨-, hquiet⟩, -⟩ := hp.at_pc hc
      refine .inl (gather_of_silent (w := w) (by grind) ?_ rfl rfl)
      have hquiet' : ∀ i ≤ k, c.raises w i = none := fun i hi =>
        (Nat.lt_or_eq_of_le hi).elim (hquiet i) fun heq => heq ▸ hr
      simp [State.owed, hc, owedAt_job hj hquiet']
  | @jobRaises w jobs k job e hw hc hj hr =>
      refine .inl (gather_of_silent (w := w) (by grind) ?_ rfl rfl)
      have hne : c.raises w k ≠ none := by simp [hr]
      simp only [State.owed, goto_worker, if_true, hc, owedAt_job_eq_nil (.inr hne)]
      rfl
  | @jobsDone w jobs k hw hc hj =>
      refine .inl (gather_of_silent (w := w) (by grind) ?_ rfl rfl)
      simp only [State.owed, goto_worker, if_true, hc, owedAt_job_eq_nil (.inl hj)]
      rfl
  | @sendFinished w jobs k text hw hc =>
      exact .inr ⟨.send w, gather_of_post (by simp [State.owed, hc, owedAt])⟩

/-- **Simulation**: the run refines the counted gather of the workers'
scripts. -/
theorem simulation (c : Config) :
    Simulation (system c) (Gather.system (script c)) (State.gather c) where
  init s hs := by
    subst hs
    exact Gather.State.ext rfl rfl rfl
  step _ _ _ hr hs := gather_step (delivery hr) (progress hr) (seeing hr) (trans_of_step hs)

theorem gather_reachable (h : Reachable (system c) s) :
    Reachable (Gather.system (script c)) (s.gather c) := (simulation c).reachable h

/-! ## need and supply -/

/-- The messages the master consumes before it is done: at least one from
every worker's slot, and one for every item. -/
def Config.need (c : Config) : Nat := max (c.p - 1) c.items.length

/-- The messages that worker `w` sends: one for every job that it gets
through, and one if it has no jobs. -/
def Config.sends (c : Config) (w : Nat) : Nat :=
  match c.message w with
  | none => 1
  | some text => c.reach w (Delimited.split ';' text).length

/-- The messages that the workers will send. -/
def Config.supply (c : Config) : Nat :=
  ∑ w ∈ Finset.Ico 1 c.p, if c.sees w = true then c.sends w else 0

theorem length_notices (w : Nat) : (notices c w (c.message w)).length = c.sends w := by
  rw [Config.sends]
  cases c.message w with
  | none => rfl
  | some text => simp [notices, Config.completed, reach_le]

/-- The length of a script is the worker's share of the supply. -/
theorem length_script {w : Nat} (hw : w ∈ Finset.Ico 1 c.p) :
    (script c w).length = if c.sees w = true then c.sends w else 0 := by
  cases hs : c.sees w with
  | false => simp [script_of_not_sees hs]
  | true => rw [script_of_sees (Finset.mem_Ico.mp hw) hs, length_notices, if_pos rfl]

/-- No job of worker `w` raises. -/
def Config.QuietAt (c : Config) (w : Nat) : Prop :=
  ∀ k < (jobList (c.message w)).length, c.raises w k = none

/-- No job raises. -/
def Config.Quiet (c : Config) : Prop := ∀ w, 1 ≤ w → w < c.p → c.QuietAt w

theorem length_jobList_pos {w : Nat} (h : c.message w ≠ none) :
    0 < (jobList (c.message w)).length := by
  obtain ⟨text, htext⟩ := Option.ne_none_iff_exists'.mp h
  rw [htext, jobList, Delimited.length_split]
  omega

theorem sends_le (w : Nat) : c.sends w ≤ max 1 (jobList (c.message w)).length := by
  rw [Config.sends]
  cases c.message w with
  | none => simp
  | some text => exact (reach_le w _).trans (Nat.le_max_right ..)

theorem sends_of_quietAt {w : Nat} (h : c.QuietAt w) :
    c.sends w = max 1 (jobList (c.message w)).length := by
  have hpos := length_jobList_pos (c := c) (w := w)
  unfold Config.QuietAt at h
  rw [Config.sends]
  cases hm : c.message w with
  | none => simp [jobList]
  | some text =>
      rw [hm] at h hpos
      have hlen := hpos (by simp)
      have hreach := reach_eq h
      simp only [jobList] at hlen hreach ⊢
      omega

/-- A job that raises costs the master a message. -/
theorem sends_lt {w k : Nat} (hk : k < (jobList (c.message w)).length) (hr : c.raises w k ≠ none) :
    c.sends w < max 1 (jobList (c.message w)).length := by
  rw [Config.sends]
  cases hm : c.message w with
  | none => simp [hm, jobList] at hk
  | some text =>
      rw [hm] at hk
      exact lt_of_lt_of_le ((reach_le_of_raises hr).trans_lt hk) (Nat.le_max_right ..)

theorem sum_length_script (c : Config) :
    ∑ w ∈ Finset.Ico 1 c.p, (script c w).length = c.supply :=
  Finset.sum_congr rfl fun _ hw => length_script hw

theorem idleReceives_add (c : Config) : c.idleReceives + c.items.length = c.need := by
  simp only [Config.idleReceives, Config.need]
  omega

/-- What the master has consumed never exceeds what the workers send. -/
theorem length_log_le (h : Reachable (system c) s) : s.log.length ≤ c.supply := by
  have hle := Gather.got_length_le (gather_reachable h) (P := Finset.Ico 1 c.p)
    (fun i hi => script_outside hi)
  simpa [State.gather, sum_length_script] using hle

theorem length_log_of_done (h : Reachable (system c) s) (hm : s.master = .done) :
    s.log.length = c.need := by
  have hc := counting h
  rw [Counting, hm] at hc
  rw [length_log, hc.1, hc.2, idleReceives_add]

/-- While the master waits in a receive loop it has consumed less than it
needs. -/
theorem length_log_lt (h : Reachable (system c) s)
    (hm : (∃ k, s.master = .idle k ∧ 1 < k) ∨ ∃ k, s.master = .complete k ∧ k ≤ c.items.length) :
    s.log.length < c.need := by
  have hc := counting h
  rw [length_log, ← idleReceives_add]
  cases hm with
  | inl hidle =>
      obtain ⟨k, hk, hlt⟩ := hidle
      rw [Counting, hk] at hc
      simp only [Config.idleReceives] at hc ⊢
      omega
  | inr hcomplete =>
      obtain ⟨k, hk, hle⟩ := hcomplete
      rw [Counting, hk] at hc
      omega

/-! ## the supply in terms of the items -/

section supply

variable (hp : 2 ≤ c.p) (hmaster : c.masterRaises = none)
  (htotal : c.scan.total c.params.loadLevel = c.items.length)

/-- The jobs that the items of worker `w` are split into. -/
def Config.pieces (c : Config) (w : Nat) : List String :=
  (itemsOf c.p c.items w).flatMap (Delimited.split ';')

include hp hmaster htotal

theorem message_eq {w : Nat} (hw : 1 ≤ w ∧ w < c.p) :
    c.message w = slotOf (itemsOf c.p c.items w) := by
  have hok : c.transferDict = .ok (dealt c.p c.items) := by
    rw [Config.transferDict, hmaster]
    exact loadDistributor_eq hp htotal
  simp [Config.message, hok, dealt, hw]

theorem jobList_message {w : Nat} (hw : 1 ≤ w ∧ w < c.p) : jobList (c.message w) = c.pieces w := by
  rw [message_eq hp hmaster htotal hw, jobList_slotOf, Config.pieces]

omit hmaster htotal in
/-- Dealt round, the items make up the need. -/
theorem sum_itemsOf (items : List String) :
    ∑ w ∈ Finset.Ico 1 c.p, max 1 (itemsOf c.p items w).length = max (c.p - 1) items.length := by
  have hcard : (Finset.Ico 1 c.p).card = c.p - 1 := by simp
  by_cases hlt : items.length < c.p - 1
  · have hone : ∀ w ∈ Finset.Ico 1 c.p, max 1 (itemsOf c.p items w).length = 1 := by
      intro w hw
      have hw' := Finset.mem_Ico.mp hw
      rw [itemsOf, RoundRobin.length_deal items (by omega)]
      have hdiv : (items.length + (c.p - 1 - 1 - (w - 1))) / (c.p - 1) ≤ 1 :=
        Nat.le_of_lt_succ (Nat.div_lt_of_lt_mul (by omega))
      omega
    rw [Finset.sum_congr rfl hone, Finset.sum_const, hcard]
    simp
    omega
  · have hlen : ∀ w ∈ Finset.Ico 1 c.p,
        max 1 (itemsOf c.p items w).length = (itemsOf c.p items w).length := by
      intro w hw
      have hw' := Finset.mem_Ico.mp hw
      have hne : itemsOf c.p items w ≠ [] := by
        rw [Ne, itemsOf_eq_nil_iff items hw'.1 hw'.2]
        omega
      have := List.length_pos_iff.mpr hne
      omega
    have hperm := (RoundRobin.flatMap_deal_perm items (k := c.p - 1) (by omega)).length_eq
    rw [Finset.sum_congr rfl hlen, Nat.max_eq_right (Nat.le_of_not_lt hlt), ← hperm, List.length_flatMap,
      Finset.sum_Ico_eq_sum_range, ← List.sum_toFinset _ List.nodup_range, List.toFinset_range]
    simp [itemsOf]

omit hp hmaster htotal in
theorem length_itemsOf_le (w : Nat) : (itemsOf c.p c.items w).length ≤ (c.pieces w).length := by
  rw [Config.pieces, Delimited.length_flatMap_split]
  omega

omit hp hmaster htotal in
theorem pieces_of_free (hfree : ∀ item ∈ c.items, ';' ∉ item.toList) (w : Nat) :
    c.pieces w = itemsOf c.p c.items w :=
  Delimited.flatMap_split_of_notMem fun item h => hfree item (mem_of_mem_itemsOf h)

/-- When every worker sees the source and no job raises, the master gets all
it needs. -/
theorem need_le_supply (hsees : ∀ w, 1 ≤ w → w < c.p → c.sees w = true) (hquiet : c.Quiet) :
    c.need ≤ c.supply := by
  rw [Config.need, ← sum_itemsOf hp, Config.supply]
  refine Finset.sum_le_sum fun w hw => ?_
  have hw' := Finset.mem_Ico.mp hw
  have hle := length_itemsOf_le (c := c) w
  rw [if_pos (hsees w hw'.1 hw'.2), sends_of_quietAt (hquiet w hw'.1 hw'.2),
    jobList_message hp hmaster htotal hw']
  omega

variable (hfree : ∀ item ∈ c.items, ';' ∉ item.toList)

include hfree

theorem jobList_message_of_free {w : Nat} (hw : 1 ≤ w ∧ w < c.p) :
    jobList (c.message w) = itemsOf c.p c.items w := by
  rw [jobList_message hp hmaster htotal hw, pieces_of_free hfree]

theorem share_le {w : Nat} (hw : w ∈ Finset.Ico 1 c.p) :
    (if c.sees w = true then c.sends w else 0) ≤ max 1 (itemsOf c.p c.items w).length := by
  have hle := sends_le (c := c) w
  rw [jobList_message_of_free hp hmaster htotal hfree (Finset.mem_Ico.mp hw)] at hle
  split <;> omega

/-- Items without `;` never cause more messages than the master needs. -/
theorem supply_le_need : c.supply ≤ c.need := by
  rw [Config.need, ← sum_itemsOf hp, Config.supply]
  exact Finset.sum_le_sum fun w hw => share_le hp hmaster htotal hfree hw

/-- A single worker that left, or died in a job, is enough to leave the
master short. -/
theorem supply_lt_need {w : Nat} (hw : 1 ≤ w ∧ w < c.p)
    (hs : c.sees w = false ∨ ¬ c.QuietAt w) : c.supply < c.need := by
  rw [Config.need, ← sum_itemsOf hp, Config.supply]
  refine Finset.sum_lt_sum (fun v hv => share_le hp hmaster htotal hfree hv)
    ⟨w, Finset.mem_Ico.mpr hw, ?_⟩
  cases hs with
  | inl hs =>
      rw [if_neg (by simp [hs])]
      omega
  | inr hraises =>
      unfold Config.QuietAt at hraises
      push Not at hraises
      obtain ⟨k, hk, hr⟩ := hraises
      have hlt := sends_lt hk hr
      rw [jobList_message_of_free hp hmaster htotal hfree hw] at hlt
      split <;> omega

end supply

end ContainerHackathon.PyStager
