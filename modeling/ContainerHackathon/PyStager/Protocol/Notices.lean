import ContainerHackathon.PyStager.Protocol.Completion

/-!
# PyStager.Protocol.Notices

The master tells the two kinds of notices apart by the loop in which it
receives them, not by what they say.  The two only coincide when there is
one kind of notice: no idle worker, or no job (`classified_iff`).  In
between, a worker that is quick with its job is taken for an idle one.
-/

namespace ContainerHackathon.PyStager

open Transition

variable {c : Config} {s : State}

/-- Every message consumed in the idle loop is the idle notice of a worker
without a job, and every message consumed in the completion loop is the
completion notice of a job. -/
def Classified (c : Config) (s : State) : Prop :=
  ∀ x ∈ s.log, match x with
    | (.idle, w, m) => m = .idle w ∧ c.message w = none
    | (.complete, w, m) =>
        ∃ job ∈ jobList (c.message w), m = .finished w (rsyncStr c.params job)

/-- Whatever the master consumes stands in the script of its sender. -/
theorem mem_script_of_log (h : Reachable (system c) s) {loop : RecvLoop} {w : Nat} {m : Notice}
    (hx : (loop, w, m) ∈ s.log) : (1 ≤ w ∧ w < c.p) ∧ m ∈ notices c w (c.message w) := by
  have hm : m ∈ script c w :=
    Gather.mem_script_of_got (gather_reachable h) (List.mem_map_of_mem (f := Prod.snd) hx)
  rw [script] at hm
  split at hm
  · next hw => exact ⟨⟨hw.1, hw.2.1⟩, hm⟩
  · exact absurd hm List.not_mem_nil

theorem taken_pos_of_mem {loop : RecvLoop} {x : Nat × Notice} (hx : (loop, x) ∈ s.log) :
    0 < s.taken loop := by
  rw [State.taken, List.countP_pos_iff]
  exact ⟨_, hx, by simp⟩

theorem taken_le (h : Reachable (system c) s) :
    s.taken .idle ≤ c.idleReceives ∧ s.taken .complete ≤ c.items.length := by
  have hc := counting h
  cases hm : s.master with
  | check | send | exit1 | raised => simp_all [Counting, State.taken]
  | idle k =>
      simp only [Counting, hm] at hc
      exact ⟨hc.2.1, by omega⟩
  | complete k =>
      simp only [Counting, hm] at hc
      exact ⟨hc.1.le, hc.2.2⟩
  | done =>
      simp only [Counting, hm] at hc
      exact ⟨hc.1.le, hc.2.le⟩

variable (hp : 2 ≤ c.p) (hmaster : c.masterRaises = none)
  (htotal : c.scan.total c.params.loadLevel = c.items.length)

include hp hmaster htotal

/-- A worker has no message exactly when it has no item. -/
theorem message_eq_none_iff {w : Nat} (hw : 1 ≤ w ∧ w < c.p) :
    c.message w = none ↔ c.items.length < w := by
  rw [message_eq hp hmaster htotal hw, slotOf_eq_none_iff, itemsOf_eq_nil_iff c.items hw.1 hw.2]

theorem classified_of_uniform (hn : c.items.length = 0 ∨ c.p - 1 ≤ c.items.length)
    (h : Reachable (system c) s) : Classified c s := by
  intro x hx
  obtain ⟨loop, w, m⟩ := x
  obtain ⟨hw, hm⟩ := mem_script_of_log h hx
  have hpos := taken_pos_of_mem hx
  have hle := taken_le h
  cases loop with
  | idle =>
      -- an idle receive: fewer items than workers, hence none at all
      have hnone : c.message w = none := by
        rw [message_eq_none_iff hp hmaster htotal hw]
        simp only [Config.idleReceives] at hle
        omega
      exact ⟨by simpa [hnone, notices] using hm, hnone⟩
  | complete =>
      cases hmsg : c.message w with
      | none =>
          rw [message_eq_none_iff hp hmaster htotal hw] at hmsg
          omega
      | some text =>
          rw [hmsg, notices, List.mem_map] at hm
          obtain ⟨job, hjob, rfl⟩ := hm
          have hlisted : job ∈ jobList (c.message w) := by
            rw [hmsg]
            exact List.mem_of_mem_take hjob
          exact ⟨job, hlisted, rfl⟩

/-! ## the quick worker -/

/-- The master can send everything before any worker starts. -/
theorem exists_sent (hsees : ∀ r, r < c.p → c.sees r = true) (k : Nat) (hk : 1 + k ≤ c.p) :
    ∃ s, Reachable (system c) s ∧ s.master = .send (1 + k) ∧ (∀ w, s.worker w = .check) ∧
      ∀ w, s.outbox w = [] := by
  induction k with
  | zero =>
      obtain ⟨d, hd⟩ := (transferDict_ok_iff hp).mpr ⟨hmaster, htotal.le⟩
      refine ⟨{ initState with master := .send 1 },
        (Reachable.init (s := initState) rfl).step (.master 0) ?_, rfl, fun _ => rfl, fun _ => rfl⟩
      simp [system, step, masterStep, initState, hd, hsees 0 (by omega)]
  | succ k ih =>
      obtain ⟨s, hr, hm, hw, ho⟩ := ih (by omega)
      refine ⟨{ s with
        master := .send (1 + k + 1)
        inbox := Function.update s.inbox (1 + k) (s.inbox (1 + k) ++ [c.message (1 + k)]) },
        hr.step (.master 0) ?_, rfl, hw, ho⟩
      simp only [system, step, masterStep, hm, if_pos (show 1 + k < c.p by omega)]

/-- With idle workers around, worker 1 may still be the first to be heard. -/
theorem exists_misclassified (hsees : ∀ r, r < c.p → c.sees r = true) (hquiet : c.Quiet)
    (hn : 0 < c.items.length) (hlt : c.items.length < c.p - 1) :
    ∃ s, Reachable (system c) s ∧ ¬ Classified c s := by
  have hw1 : 1 ≤ 1 ∧ 1 < c.p := by omega
  -- the master has sent and is about to receive
  obtain ⟨s, hr, hm, hw, ho⟩ := exists_sent hp hmaster htotal hsees (c.p - 1) (by omega)
  rw [show 1 + (c.p - 1) = c.p by omega] at hm
  have hstep : (system c).step (.master 0) s =
      some { s with master := .idle ((c.p : Int) - c.items.length) } := by
    simp [system, step, masterStep, hm]
  have hr := hr.step (.master 0) hstep
  -- worker 1 finds its message
  obtain ⟨text, htext⟩ : ∃ text, c.message 1 = some text := by
    rw [← Option.ne_none_iff_exists', Ne, message_eq_none_iff hp hmaster htotal hw1]
    omega
  have hinbox := (delivery hr).unserved 1 hw1.1 hw1.2 (by simp [hw, WorkerPc.unserved])
  simp only [MasterPc.sentTo, if_true, htext] at hinbox
  obtain ⟨job, jobs, hjobs⟩ : ∃ job jobs, Delimited.split ';' text = job :: jobs :=
    List.exists_cons_of_ne_nil fun h => by
      have hlen := Delimited.length_split ';' text
      simp [h] at hlen
  have hreturns : c.raises 1 0 = none :=
    hquiet 1 hw1.1 hw1.2 0 (length_jobList_pos (by simp [htext]))
  have hr := hr.step (.worker 1)
    (by simp only [system, step, if_pos hw1, workerStep, hw, hsees 1 hw1.2, if_true]; rfl)
  have hr := hr.step (.worker 1)
    (by simp only [system, step, if_pos hw1, workerStep, goto_worker, if_true, goto_inbox, hinbox]; rfl)
  have hr := hr.step (.worker 1)
    (by simp only [system, step, if_pos hw1, workerStep, goto_worker, if_true, hjobs,
          List.getElem?_cons_zero, hreturns]; rfl)
  have hr := hr.step (.worker 1)
    (by simp only [system, step, if_pos hw1, workerStep, goto_worker, if_true]; rfl)
  have hr := hr.step (.master 1)
    (by simp only [system, step, masterStep, goto_master, post_master, record_master,
          consume_master, if_pos (show (1 : Int) < c.p - c.items.length by omega), State.receive,
          goto_outbox, post_outbox, if_true, record_outbox, consume_outbox, ho, List.nil_append]
        rfl)
  refine ⟨_, hr, fun hclass => ?_⟩
  have hlast := hclass (.idle, 1, .finished 1 (rsyncStr c.params job)) (by simp)
  simp at hlast

/-- **The loops classify the notices** in every interleaving exactly when
no worker is idle or all are. -/
theorem classified_iff (hsees : ∀ r, r < c.p → c.sees r = true) (hquiet : c.Quiet) :
    (∀ s, Reachable (system c) s → Classified c s) ↔
      c.items.length = 0 ∨ c.p - 1 ≤ c.items.length := by
  constructor
  · intro hall
    by_contra hn
    obtain ⟨s, hr, hmis⟩ := exists_misclassified hp hmaster htotal hsees hquiet (by omega) (by omega)
    exact hmis (hall s hr)
  · exact fun hn s h => classified_of_uniform hp hmaster htotal hn h

omit hp hmaster htotal

/-- Two workers, one item: worker 1 is done before worker 2 reports. -/
theorem quickWorker_misclassified : ∃ s, Reachable (system (plainConfig 3 ["a"])) s ∧
    ¬ Classified (plainConfig 3 ["a"]) s := by
  refine ⟨_, reachable_of_run [.master 0, .master 0, .master 0, .master 0,
    .worker 1, .worker 1, .worker 1, .worker 1, .master 1] rfl rfl, fun hclass => ?_⟩
  have hlast := hclass (.idle, 1, .finished 1 "rsync -r /src/a/ /dst//a") (by decide)
  exact absurd hlast.1 (by decide)

/-- Two workers, three items, all of them busy. -/
theorem classified_iff_busy : ∃ s, Reachable (system (plainConfig 3 ["a", "b", "c"])) s ∧
    s.master = .done ∧ Classified (plainConfig 3 ["a", "b", "c"]) s :=
  have hall := (classified_iff (c := plainConfig 3 ["a", "b", "c"]) (by decide) rfl rfl
    (fun _ _ => rfl) (plainConfig_quiet _ _)).mpr (.inr (by decide))
  have h := reachable_of_run busySchedule rfl rfl
  ⟨_, h, rfl, hall _ h⟩

end ContainerHackathon.PyStager
