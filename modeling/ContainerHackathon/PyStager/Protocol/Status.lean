import ContainerHackathon.PyStager.Protocol.Completion

/-!
# PyStager.Protocol.Status

What 'exit status : 0' is worth.  The worker drops the exit status of its
command and prints the outcome of its comparison on its own terminal, and
the master counts completion messages without reading them; so the status
is right exactly when nothing can fail (`transferred_iff`).
-/

namespace ContainerHackathon.PyStager

open Transition

variable {c : Config} {s : State}

/-- Every item was processed, and whenever it was, its command returned 0
and its comparison, if there was one, came out identical. -/
def Transferred (c : Config) (s : State) : Prop :=
  ∀ item ∈ c.items, (∃ w, ∃ j ∈ s.processed w, j.name = item) ∧
    ∀ w, ∀ j ∈ s.processed w, j.name = item →
      (∀ status, j.rsync = some status → status = 0) ∧
      (∀ verdict, j.identical = some verdict → verdict = true)

/-- The master can get to its end: it gets to its sends, and the workers
that see the source send enough messages. -/
def Config.CanFinish (c : Config) : Prop := c.Starts ∧ c.need ≤ c.supply

/-- What the outcome of a job must be for the transfer to have succeeded:
a status counts if the command was run, a verdict if there was one. -/
def Config.Succeeds (c : Config) (outcome : Outcome) : Prop :=
  c.params.rsyncStatus = 1 → outcome.rsync = 0 ∧
    (c.params.checksumStatus = 1 → c.params.loadLevel = .directory → outcome.identical = true)

/-- Item `i` is job `i / (p-1)` of worker `i % (p-1) + 1`. -/
def Config.outcomeOf (c : Config) (i : Nat) : Outcome := c.outcome (i % (c.p - 1) + 1) (i / (c.p - 1))

/-- A record shows a success exactly when its outcome was one. -/
theorem processJob_ok_iff (w k : Nat) (name : String) :
    ((∀ status, (processJob c w k name).rsync = some status → status = 0) ∧
      ∀ verdict, (processJob c w k name).identical = some verdict → verdict = true) ↔
    c.Succeeds (c.outcome w k) := by
  by_cases hr : c.params.rsyncStatus = 1
  · by_cases hk : c.params.checksumStatus = 1 ∧ c.params.loadLevel = .directory
    · simp [processJob, Config.Succeeds, hr, hk]
    · simp only [processJob, Config.Succeeds, hr, hk, true_and, if_true, if_false]
      simp
      tauto
  · simp [processJob, Config.Succeeds, hr]

theorem canFinish_of_done (hp : 2 ≤ c.p) (h : Reachable (system c) s) (hm : s.master = .done) :
    c.CanFinish := by
  have hsent : s.master.sentTo 0 := by
    rw [hm]
    trivial
  exact ⟨starts_of_sentTo hp h hsent, by rw [← length_log_of_done h hm]; exact length_log_le h⟩

/-- A master that can finish does, and with it every other rank. -/
theorem exists_done (hp : 2 ≤ c.p) (hc : c.CanFinish) :
    ∃ s, Reachable (system c) s ∧ s.master = .done := by
  have hinit : Reachable (system c) initState := .init rfl
  obtain ⟨s, hst, hm⟩ := exists_steps_done hp hc.1 hc.2 hinit
  exact ⟨s, hinit.steps hst, hm⟩

/-- Without `;` in the items the master can only finish when nobody left
and no job raises. -/
theorem fit_of_canFinish (hp : 2 ≤ c.p)
    (htotal : c.scan.total c.params.loadLevel = c.items.length)
    (hfree : ∀ item ∈ c.items, ';' ∉ item.toList) (hc : c.CanFinish) {w : Nat}
    (hw : 1 ≤ w ∧ w < c.p) : c.sees w = true ∧ c.QuietAt w := by
  by_contra hs
  have hlt := supply_lt_need hp hc.1.2.1 htotal hfree hw (by
    rw [← Bool.not_eq_true]
    exact not_and_or.mp hs)
  have hle := hc.2
  omega

section done

variable (hp : 2 ≤ c.p) (htotal : c.scan.total c.params.loadLevel = c.items.length)
  (hfree : ∀ item ∈ c.items, ';' ∉ item.toList) (h : Reachable (system c) s)
  (hm : s.master = .done)

include hp htotal hfree h hm

/-- The record of item `i` once the master is done. -/
theorem record_mem_processed {i : Nat} (hi : i < c.items.length) :
    processJob c (i % (c.p - 1) + 1) (i / (c.p - 1)) c.items[i] ∈
      s.processed (i % (c.p - 1) + 1) := by
  have hlt : i % (c.p - 1) < c.p - 1 := Nat.mod_lt _ (by omega)
  have hw : 1 ≤ i % (c.p - 1) + 1 ∧ i % (c.p - 1) + 1 < c.p := by omega
  have hc := canFinish_of_done hp h hm
  obtain ⟨hs, hquiet⟩ := fit_of_canFinish hp htotal hfree hc hw
  rw [processed_of_done hp hc.1.2.1 htotal hfree h hm hw hs hquiet, mem_jobRecords]
  refine ⟨_, c.items[i], ?_, rfl⟩
  rw [itemsOf, Nat.add_sub_cancel, RoundRobin.getElem?_deal _ hlt, Nat.mul_comm,
    Nat.mod_add_div, List.getElem?_eq_getElem hi]

/-- Every record is the record of some item. -/
theorem exists_item_of_processed {w : Nat} {j : Job} (hj : j ∈ s.processed w) :
    ∃ i, ∃ hi : i < c.items.length,
      j = processJob c (i % (c.p - 1) + 1) (i / (c.p - 1)) c.items[i] := by
  have hw : 1 ≤ w ∧ w < c.p := by
    by_contra hw
    rw [processed_outside h hw] at hj
    exact List.not_mem_nil hj
  have hc := canFinish_of_done hp h hm
  obtain ⟨hs, hquiet⟩ := fit_of_canFinish hp htotal hfree hc hw
  rw [processed_of_done hp hc.1.2.1 htotal hfree h hm hw hs hquiet, mem_jobRecords] at hj
  obtain ⟨k, name, hk, rfl⟩ := hj
  rw [itemsOf, RoundRobin.getElem?_deal _ (by omega)] at hk
  obtain ⟨hi, rfl⟩ := List.getElem?_eq_some_iff.mp hk
  refine ⟨_, hi, ?_⟩
  have hmod : (w - 1 + k * (c.p - 1)) % (c.p - 1) = w - 1 := by
    rw [Nat.add_mul_mod_self_right, Nat.mod_eq_of_lt (by omega)]
  have hdiv : (w - 1 + k * (c.p - 1)) / (c.p - 1) = k := by
    rw [Nat.add_mul_div_right _ _ (by omega), Nat.div_eq_of_lt (by omega), Nat.zero_add]
  rw [hmod, hdiv, Nat.sub_add_cancel hw.1]

theorem transferred_of_done_iff :
    Transferred c s ↔ ∀ i, i < c.items.length → c.Succeeds (c.outcomeOf i) := by
  constructor
  · intro ht i hi
    have hrecord := record_mem_processed hp htotal hfree h hm hi
    exact (processJob_ok_iff _ _ _).mp ((ht _ (List.getElem_mem hi)).2 _ _ hrecord rfl)
  · intro hall item hitem
    obtain ⟨i, hi, rfl⟩ := List.getElem_of_mem hitem
    refine ⟨⟨_, _, record_mem_processed hp htotal hfree h hm hi, rfl⟩, fun w j hj _ => ?_⟩
    obtain ⟨k, hk, rfl⟩ := exists_item_of_processed hp htotal hfree h hm hj
    exact (processJob_ok_iff _ _ _).mpr (hall k hk)

end done

/-- **'exit status : 0' means success** in every run exactly when, in the
configurations whose master can finish at all, no item contains a `;` and
no command and no comparison fails.  The scanner never counts less than it
lists. -/
theorem transferred_iff (hp : 2 ≤ c.p)
    (hscan : c.items.length ≤ c.scan.total c.params.loadLevel) :
    (∀ s, Reachable (system c) s → s.master = .done → Transferred c s) ↔
      (c.CanFinish → (∀ item ∈ c.items, ';' ∉ item.toList) ∧
        ∀ i, i < c.items.length → c.Succeeds (c.outcomeOf i)) := by
  constructor
  · intro hall hc
    have htotal : c.scan.total c.params.loadLevel = c.items.length := le_antisymm hc.1.2.2 hscan
    obtain ⟨s, h, hm⟩ := exists_done hp hc
    have ht := hall s h hm
    have hfree : ∀ item ∈ c.items, ';' ∉ item.toList := by
      intro item hitem
      obtain ⟨⟨w, j, hj, rfl⟩, -⟩ := ht item hitem
      exact notMem_name_of_processed h hj
    exact ⟨hfree, (transferred_of_done_iff hp htotal hfree h hm).mp ht⟩
  · intro hcond s h hm
    have hc := canFinish_of_done hp h hm
    have htotal : c.scan.total c.params.loadLevel = c.items.length := le_antisymm hc.1.2.2 hscan
    obtain ⟨hfree, hall⟩ := hcond hc
    exact (transferred_of_done_iff hp htotal hfree h hm).mpr hall

/-- Of three items, the `rsync` of the second fails. -/
def failingConfig : Config := { plainConfig 3 ["a", "b", "c"] with
  outcome := fun w k => if w = 2 ∧ k = 0 then ⟨23, true, none, none⟩ else ⟨0, true, none, none⟩ }

/-- The master is done with status 0 although a command returned 23. -/
theorem failingConfig_not_transferred : ∃ s, Reachable (system failingConfig) s ∧
    s.master = .done ∧ ¬ Transferred failingConfig s := by
  refine ⟨_, reachable_of_run busySchedule rfl rfl, rfl, fun ht => ?_⟩
  have hzero := ((ht "b" (by decide)).2 2 ⟨2, "b", some 23, some true⟩ (by decide) rfl).1 23 rfl
  exact absurd hzero (by decide)

theorem transferred_iff_plain : ∃ s, Reachable (system (plainConfig 3 ["a", "b", "c"])) s ∧
    s.master = .done ∧ Transferred (plainConfig 3 ["a", "b", "c"]) s :=
  have hall := (transferred_iff (c := plainConfig 3 ["a", "b", "c"]) (by decide) (by decide)).mpr
    fun _ => ⟨by decide, fun _ _ _ => ⟨rfl, fun _ _ => rfl⟩⟩
  have h := reachable_of_run busySchedule rfl rfl
  ⟨_, h, rfl, hall _ h rfl⟩

end ContainerHackathon.PyStager
