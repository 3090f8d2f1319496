import ContainerHackathon.EcEarth.LegChain

/-!
# EcEarth.WholeYears

The date check of LPJ-GUESS over a whole run.  The check looks at the start
of a leg and at the start plus the restart frequency; the leg is clipped to
the end of the run after it.  So every leg starts at New Year, and every leg
ends there except a clipped one, which ends wherever the run does
(`wholeYears_iff`).
-/

namespace ContainerHackathon.EcEarth

open Transition Journal

variable {c : Config} {s s' : State} {v v' : Vars} {d : Int}

/-! ## the legs of a run -/

/-- All invocations on a run directory without records. -/
def freshChain (c : Config) : System State Move where
  init s := s.dir.eceInfo = [] ∧ s.script = none ∧ s.invoked = false ∧ s.launched = []
  step := step c

/-- What the check asks of a leg that starts at `d`. -/
def WholeYear (c : Config) (d : Int) : Prop :=
  c.isNewYear d = true ∧ c.isNewYear (c.dateAdd d c.rstFreq) = true

/-- The leg that starts at `d` ends before the end of the run. -/
def Unclipped (c : Config) (d : Int) : Prop :=
  c.rstFreq ≠ "" ∧ c.dateAdd d c.rstFreq < c.runEndDate

instance (c : Config) (d : Int) : Decidable (Unclipped c d) :=
  inferInstanceAs (Decidable (_ ∧ _))

/-- The dates at which legs start that are not clipped, and the one after
them. -/
inductive LegStart (c : Config) : Int → Prop
  | first : LegStart c c.runStartDate
  | next {d : Int} : LegStart c d → WholeYear c d → Unclipped c d → d < c.dateAdd d c.rstFreq →
      LegStart c (c.dateAdd d c.rstFreq)

/-- Where the leg that starts at `d` ends. -/
def legEnd (c : Config) (d : Int) : Int :=
  if Unclipped c d then c.dateAdd d c.rstFreq else c.runEndDate

/-- A leg that has passed the check. -/
structure Checked (c : Config) (leg : Leg) : Prop where
  start : LegStart c leg.legStartDate
  wholeYear : WholeYear c leg.legStartDate
  positive : leg.legStartDate < leg.legEndDate
  stop : leg.legEndDate = legEnd c leg.legStartDate

theorem clipLegEnd_setLegEnd :
    (clipLegEnd c (setLegEnd c v)).leg.legEndDate = legEnd c v.leg.legStartDate := by
  unfold clipLegEnd setLegEnd legEnd Unclipped
  grind

theorem lpjgRefuses_eq_false_iff (hlpjg : c.lpjg = true) :
    lpjgRefuses c v = false ↔ WholeYear c v.leg.legStartDate := by
  simp [lpjgRefuses, WholeYear, hlpjg]

/-- A leg that is computed from the records so far has passed the check,
unless the records already reach the end of the run. -/
theorem checked_of_computeLeg (hlpjg : c.lpjg = true) {eceInfo : List Leg}
    (hchain : Chained c eceInfo)
    (hnext : LegStart c (nextStart c eceInfo) ∨ nextStart c eceInfo = c.runEndDate)
    (h : computeLeg c eceInfo v = .ok v') : Checked c v'.leg := by
  have hfollows := (computeLeg_spec hchain h).1
  obtain ⟨hpass, rfl, -⟩ := computeLeg_eq_ok h
  rw [lpjgRefuses_eq_false_iff hlpjg] at hpass
  have hstart : LegStart c (nextStart c (base eceInfo v)) := by
    rw [base] at hfollows ⊢
    split at hfollows
    · next hscratch => simpa [hscratch] using LegStart.first
    · next hscratch =>
      rw [if_neg hscratch]
      refine hnext.resolve_right fun hend => ?_
      have := hfollows.start
      have := hfollows.positive
      have := hfollows.bounded
      omega
  refine ⟨hfollows.start ▸ hstart, ?_, hfollows.positive, ?_⟩
  · simpa using hpass
  · simpa using clipLegEnd_setLegEnd

/-- The end of a leg that has passed the check is at New Year too, or is
the end of the run. -/
theorem Checked.stop_cases {leg : Leg} (h : Checked c leg) :
    (LegStart c leg.legEndDate ∧ c.isNewYear leg.legEndDate = true) ∨
      (¬ Unclipped c leg.legStartDate ∧ leg.legEndDate = c.runEndDate) := by
  have hstop := h.stop
  have hpos := h.positive
  rw [legEnd] at hstop
  split at hstop
  · next hunclipped =>
    rw [hstop] at hpos ⊢
    exact .inl ⟨.next h.start h.wholeYear hunclipped hpos, h.wholeYear.2⟩
  · next hclipped => exact .inr ⟨hclipped, hstop⟩

/-! ## the invariant -/

/-- The records end at the start of another leg or at the end of the run,
and every leg past the check has passed it. -/
structure YearInvariant (c : Config) (s : State) : Prop where
  recorded : LegStart c (nextStart c s.dir.eceInfo) ∨ nextStart c s.dir.eceInfo = c.runEndDate
  script : ∀ pc v, s.script = some (pc, v) → pc ≠ .loop → Checked c v.leg
  launched : ∀ l ∈ s.launched, Checked c l.leg

theorem legChain_of_freshChain (h : Reachable (freshChain c) s) : Reachable (legChain c) s := by
  have sim : Simulation (freshChain c) (legChain c) id :=
    ⟨fun s hs => ⟨hs.1 ▸ each_nil, hs.2⟩, fun s m s' _ hstep => .inr ⟨m, hstep⟩⟩
  exact sim.reachable h

theorem YearInvariant.step (hlpjg : c.lpjg = true) {m : Move} (hchain : Chained c s.dir.eceInfo)
    (h : YearInvariant c s) (hstep : step c m s = some s') : YearInvariant c s' := by
  refine ⟨?_, fun pc v hs hpc => ?_, fun l hl => ?_⟩
  · obtain heq | hnil | ⟨v, hs, happ⟩ := step_eceInfo hstep
    · rw [heq]
      exact h.recorded
    · rw [hnil]
      exact .inl .first
    · rw [happ, nextStart_concat]
      exact (h.script _ v hs (by simp)).stop_cases.imp And.left And.right
  · obtain ⟨last, hlast, hs'⟩ | ⟨before, -, hleg⟩ := step_script hstep hs hpc
    · exact h.script last v hs' hlast
    · exact checked_of_computeLeg hlpjg hchain h.recorded hleg
  · obtain heq | ⟨v, hs, happ⟩ := step_launched hstep
    · exact h.launched l (heq ▸ hl)
    · rw [happ] at hl
      cases List.mem_append.mp hl with
      | inl hl => exact h.launched l hl
      | inr hl =>
          rw [List.mem_singleton.mp hl]
          exact h.script _ v hs (by simp)

theorem yearInvariant_of_reachable (hlpjg : c.lpjg = true) (h : Reachable (freshChain c) s) :
    YearInvariant c s := by
  refine h.invariant (fun s hs => ?_) fun s m s' hr hinv hstep => ?_
  · obtain ⟨hinfo, hscript, -, hlaunched⟩ := hs
    exact ⟨.inl (hinfo ▸ .first), by simp [hscript], by simp [hlaunched]⟩
  · exact hinv.step hlpjg (invariant_of_reachable (legChain_of_freshChain hr)).recorded hstep

/-! ## running a leg -/

/-- Nothing is running, and a run from scratch finds nothing in its way. -/
def Idle (s : State) : Prop :=
  s.script = none ∧ (s.dir.eceInfo = [] → s.dir.otherFiles = false)

theorem computeLeg_runNumLegs {eceInfo : List Leg} (h : computeLeg c eceInfo v = .ok v') :
    v'.runNumLegs = v.runNumLegs := by
  obtain ⟨-, rfl, -⟩ := computeLeg_eq_ok h
  unfold clipLegEnd setLegEnd setLegStart
  grind

/-- One invocation for one leg runs through, if the leg passes the checks. -/
theorem exists_next_leg (hr : Reachable (freshChain c) s) (hidle : Idle s)
    (hleg : computeLeg c s.dir.eceInfo (.init 1 false) = .ok v) : ∃ s',
      Reachable (freshChain c) s' ∧ Idle s' ∧ s'.dir.eceInfo = s.dir.eceInfo ++ [v.leg] ∧
        ⟨v.leg, v.ifsLastout⟩ ∈ s'.launched := by
  obtain ⟨⟨eceInfo, otherFiles⟩, script, invoked, launched⟩ := s
  obtain ⟨rfl, hother⟩ := hidle
  have hgo : (v.legIsRestart || RunDir.isEmpty ⟨eceInfo, otherFiles⟩) = true := by
    rw [computeLeg_legIsRestart hleg]
    cases eceInfo with
    | nil => simpa [RunDir.isEmpty, fromScratch] using hother
    | cons r rs => simp [fromScratch, Vars.init]
  have hnum : v.runNumLegs = 1 := computeLeg_runNumLegs hleg
  have hrun : run (freshChain c) (.invoke 1 false :: List.replicate 6 .next)
      ⟨⟨eceInfo, otherFiles⟩, none, invoked, launched⟩ =
      some ⟨⟨eceInfo ++ [v.leg], true⟩, none, true, launched ++ [⟨v.leg, v.ifsLastout⟩]⟩ := by
    rw [Bool.or_eq_true] at hgo
    have hone : ¬ (Vars.init 1 false).runNumLegs ≤ 0 := by decide
    simp [run, freshChain, List.replicate, step, next, State.goto, State.exit, State.populate,
      State.launch, State.record, hleg, hgo, hnum, hone]
  exact ⟨_, hr.steps (steps_of_run hrun), ⟨rfl, by simp⟩, rfl, by simp⟩

/-- The leg from `d` on passes the checks when `d` is where the records
end. -/
theorem exists_computeLeg (hlpjg : c.lpjg = true) {eceInfo : List Leg}
    (hchain : Chained c eceInfo) (hstart : nextStart c eceInfo = d) (hyear : WholeYear c d)
    (hpos : d < legEnd c d) : ∃ v, computeLeg c eceInfo (.init 1 false) = .ok v ∧
      v.leg.legStartDate = d ∧ v.leg.legEndDate = legEnd c d := by
  have hbase : base eceInfo (.init 1 false) = eceInfo := by
    cases eceInfo <;> simp [base, fromScratch, Vars.init]
  have hv := (setLegStart_spec (v := .init 1 false) hchain).2
  rw [hbase, hstart] at hv
  have hpass : ¬ lpjgRefuses c (setLegEnd c (setLegStart c eceInfo (.init 1 false))) = true := by
    rw [Bool.not_eq_true, lpjgRefuses_eq_false_iff hlpjg, setLegEnd_legStartDate, hv]
    exact hyear
  have hstop : (clipLegEnd c (setLegEnd c (setLegStart c eceInfo
      (.init 1 false)))).leg.legEndDate = legEnd c d := by
    rw [clipLegEnd_setLegEnd, hv]
  have hbegin : (clipLegEnd c (setLegEnd c (setLegStart c eceInfo
      (.init 1 false)))).leg.legStartDate = d := by
    rw [clipLegEnd_legStartDate, setLegEnd_legStartDate, hv]
  refine ⟨_, ?_, hbegin, hstop⟩
  simp only [computeLeg]
  rw [if_neg hpass, if_neg]
  rw [Leg.legLengthSec, hstop, hbegin]
  omega

/-- A run gets to every date at which a leg can start. -/
theorem LegStart.exists_idle (hlpjg : c.lpjg = true) (h : LegStart c d) :
    ∃ s, Reachable (freshChain c) s ∧ Idle s ∧ nextStart c s.dir.eceInfo = d := by
  induction h with
  | first => exact ⟨⟨⟨[], false⟩, none, false, []⟩, .init ⟨rfl, rfl, rfl, rfl⟩, ⟨rfl, fun _ => rfl⟩, rfl⟩
  | next _ hyear hunclipped hpos ih =>
      obtain ⟨s, hr, hidle, hnext⟩ := ih
      have hend : legEnd c _ = _ := if_pos hunclipped
      have hchain := (invariant_of_reachable (legChain_of_freshChain hr)).recorded
      obtain ⟨v, hleg, -, hstop⟩ := exists_computeLeg hlpjg hchain hnext hyear (hend ▸ hpos)
      obtain ⟨s', hr', hidle', happ, -⟩ := exists_next_leg hr hidle hleg
      exact ⟨s', hr', hidle', by rw [happ, nextStart_concat, hstop, hend]⟩

/-! ## whole years -/

/-- **LPJ-GUESS legs.**  In every run, over all invocations, every launched
leg starts and ends at New Year exactly if the run itself ends at New Year,
or none of the legs that pass the check is clipped to the end of the run. -/
theorem wholeYears_iff (hlpjg : c.lpjg = true) :
    (∀ s, Reachable (freshChain c) s → ∀ l ∈ s.launched,
      c.isNewYear l.leg.legStartDate = true ∧ c.isNewYear l.leg.legEndDate = true) ↔
    (c.isNewYear c.runEndDate = true ∨
      ∀ d, LegStart c d → WholeYear c d → d < c.runEndDate → Unclipped c d) := by
  constructor
  · intro h
    by_contra hnot
    rw [not_or] at hnot
    obtain ⟨hend, hclipped⟩ := hnot
    push Not at hclipped
    obtain ⟨d, hstart, hyear, hlt, hclip⟩ := hclipped
    have hstop : legEnd c d = c.runEndDate := if_neg hclip
    obtain ⟨s, hr, hidle, hnext⟩ := hstart.exists_idle hlpjg
    have hchain := (invariant_of_reachable (legChain_of_freshChain hr)).recorded
    obtain ⟨v, hleg, -, hv⟩ := exists_computeLeg hlpjg hchain hnext hyear (hstop ▸ hlt)
    obtain ⟨s', hr', -, -, hl⟩ := exists_next_leg hr hidle hleg
    have hbad := (h s' hr' _ hl).2
    rw [hv, hstop] at hbad
    exact hend hbad
  · intro h s hr l hl
    have hchecked := (yearInvariant_of_reachable hlpjg hr).launched l hl
    refine ⟨hchecked.wholeYear.1, ?_⟩
    obtain ⟨-, hyear⟩ | ⟨hclip, hend⟩ := hchecked.stop_cases
    · exact hyear
    · have hlt : l.leg.legStartDate < c.runEndDate := hend ▸ hchecked.positive
      refine hend ▸ h.resolve_right fun hall => hclip ?_
      exact hall _ hchecked.start hchecked.wholeYear hlt

/-- Legs of a year from the beginning of 2000. -/
def yearly (runEndDate : Int) : Config where
  runStartDate := 946684800
  runEndDate := runEndDate
  rstFreq := "1 year"
  dateAdd date _ :=
    if date = 946684800 then 978307200 else if date = 978307200 then 1009843200 else date
  lpjg := true
  isNewYear date := date ∈ [946684800, 978307200, 1009843200]

/-- One invocation for two legs. -/
def twoLegs : List Move := .invoke 2 false :: List.replicate 9 .next

theorem wholeYears_iff_two : ∃ s : State, s.launched.length = 2 ∧ ∀ l ∈ s.launched,
    (yearly 1009843200).isNewYear l.leg.legStartDate = true ∧
      (yearly 1009843200).isNewYear l.leg.legEndDate = true :=
  ⟨_, rfl, (wholeYears_iff rfl).mpr (.inl rfl) _
    (reachable_of_run (S := freshChain (yearly 1009843200)) twoLegs
      (s := ⟨⟨[], false⟩, none, false, []⟩) ⟨rfl, rfl, rfl, rfl⟩ rfl)⟩

/-- A run that ends in July: the second leg passes the check and ends with
the run. -/
theorem halfYear_launched : ∃ s, Reachable (freshChain (yearly 993945600)) s ∧
    ∃ l ∈ s.launched, l.leg = ⟨2, 978307200, 993945600⟩ ∧
      (yearly 993945600).isNewYear l.leg.legEndDate = false :=
  ⟨_, reachable_of_run (S := freshChain (yearly 993945600)) twoLegs
    (s := ⟨⟨[], false⟩, none, false, []⟩) ⟨rfl, rfl, rfl, rfl⟩ rfl, _,
    List.mem_cons_of_mem _ List.mem_cons_self, rfl, rfl⟩

end ContainerHackathon.EcEarth
