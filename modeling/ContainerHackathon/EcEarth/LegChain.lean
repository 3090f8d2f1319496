import ContainerHackathon.Lib.Transition
import ContainerHackathon.EcEarth.Leg

/-!
# EcEarth.LegChain

The loop of `ece-esm.sh` over the legs, over any number of invocations.
What a leg leaves for the next one is partly in shell variables, which die
with the invocation, and partly in `ece.info`, which every leg and every
invocation reads again.  The script may be aborted between any two of its
moves.

`legChain_correct`: the records form a chain of legs, no leg is launched
behind the end of the run, and `ifs_lastout` marks the legs that end it.
-/

namespace ContainerHackathon.EcEarth

open Transition Journal

/-! ## the run directory and the script -/

/-- The run directory: the records of `ece.info`, which is readable as soon
as it has one, and whether there is any other file. -/
structure RunDir where
  eceInfo : List Leg
  otherFiles : Bool
  deriving DecidableEq, Repr

/-- `ls *` finds nothing. -/
def RunDir.isEmpty (d : RunDir) : Bool := d.eceInfo.isEmpty && !d.otherFiles

/-- Where the script is in the body of its loop. -/
inductive Pc
  /-- At the test `run_num_legs>0`. -/
  | loop
  /-- The leg has its dates; a run from scratch looks at the run directory. -/
  | prepare
  /-- In `rm -fr ${run_dir}/*`. -/
  | clear
  /-- Populating the run directory. -/
  | setup
  /-- Before the model is launched. -/
  | launch
  /-- The model has finished; its record is not written yet. -/
  | record
  deriving DecidableEq, Repr

/-- A leg handed to the model, with `ifs_lastout` as the model sees it. -/
structure Launch where
  leg : Leg
  ifsLastout : Bool
  deriving DecidableEq, Repr

structure State where
  dir : RunDir
  script : Option (Pc × Vars)
  /-- The script was invoked before. -/
  invoked : Bool
  launched : List Launch
  deriving DecidableEq, Repr

namespace State

def goto (s : State) (pc : Pc) (v : Vars) : State := { s with script := some (pc, v) }

def exit (s : State) : State := { s with script := none }

def populate (s : State) : State := { s with dir := { s.dir with otherFiles := true } }

def launch (s : State) (v : Vars) : State :=
  { s with launched := s.launched ++ [⟨v.leg, v.ifsLastout⟩] }

/-- Append the record of the leg to `ece.info`. -/
def record (s : State) (v : Vars) : State :=
  { s with dir := { s.dir with eceInfo := s.dir.eceInfo ++ [v.leg] } }

end State

/-! ## moves -/

inductive Move
  /-- Submit the script with its `run_num_legs` and `force_run_from_scratch`. -/
  | invoke (runNumLegs : Int) (forceRunFromScratch : Bool)
  /-- The script makes its next move. -/
  | next
  /-- `rm` removes `ece.info` or the other files. -/
  | unlink (info : Bool)
  /-- The script is killed, or a command fails. -/
  | abort
  deriving DecidableEq, Repr

def next (c : Config) (s : State) (v : Vars) : Pc → Option State
  | .loop =>
      if v.runNumLegs ≤ 0 then some s.exit
      else
        match computeLeg c s.dir.eceInfo v with
        | .error _ => some s.exit
        | .ok v => some (s.goto .prepare v)
  | .prepare =>
      if v.legIsRestart || s.dir.isEmpty then some (s.goto .setup v)
      else if v.forceRunFromScratch then some (s.goto .clear v)
      -- "Run directory not empty and $force_run_from_scratch not set."
      else some s.exit
  | .clear => if s.dir.isEmpty then some (s.goto .setup v) else none
  | .setup => some (s.populate.goto .launch v)
  | .launch => some ((s.launch v).goto .record v)
  | .record =>
      some ((s.record v).goto .loop
        { v with forceRunFromScratch := false, runNumLegs := v.runNumLegs - 1 })

def unlink (info : Bool) (d : RunDir) : RunDir :=
  if info then { d with eceInfo := [] } else { d with otherFiles := false }

def step (c : Config) : Move → State → Option State
  | .invoke runNumLegs force, s =>
      match s.script with
      | some _ => none
      | none =>
          if force && s.invoked then none
          else some ({ s with invoked := true }.goto .loop (.init runNumLegs force))
  | .next, s =>
      match s.script with
      | some (pc, v) => next c s v pc
      | none => none
  | .unlink info, s =>
      match s.script with
      | some (.clear, _) => some { s with dir := unlink info s.dir }
      | _ => none
  | .abort, s =>
      match s.script with
      | some _ => some s.exit
      | none => none

/-- All invocations on one run directory.  The directory may already hold
the records of earlier legs of this experiment, or other files. -/
def legChain (c : Config) : System State Move where
  init s := Chained c s.dir.eceInfo ∧ s.script = none ∧ s.invoked = false ∧ s.launched = []
  step := step c

/-! ## the invariant -/

variable {c : Config} {s s' : State} {v : Vars} {pc : Pc}

/-- The leg in the variables continues `before`, and `ifs_lastout` says
whether it ends the run. -/
def LegReady (c : Config) (before : List Leg) (v : Vars) : Prop :=
  Follows c before v.leg ∧ (v.ifsLastout = true ↔ v.leg.legEndDate = c.runEndDate)

/-- What the variables of a running script promise.  At the head of the
loop `ifs_lastout` may still be set by the leg before, but then the records
reach the end of the run and no leg follows. -/
def VarsOk (c : Config) (d : RunDir) (v : Vars) : Pc → Prop
  | .loop => v.ifsLastout = true →
      v.forceRunFromScratch = false ∧ nextStart c d.eceInfo = c.runEndDate
  | .prepare => LegReady c (if v.legIsRestart then d.eceInfo else []) v
  | .clear => LegReady c [] v
  | .setup | .launch | .record => LegReady c d.eceInfo v

structure Invariant (c : Config) (s : State) : Prop where
  recorded : Chained c s.dir.eceInfo
  script : ∀ pc v, s.script = some (pc, v) → VarsOk c s.dir v pc
  launched : ∀ l ∈ s.launched, l.ifsLastout = true ↔ l.leg.legEndDate = c.runEndDate

theorem RunDir.isEmpty_iff {d : RunDir} :
    d.isEmpty = true ↔ d.eceInfo = [] ∧ d.otherFiles = false := by
  simp [RunDir.isEmpty]

/-- The leg computed at the top of the loop is ready: a stale `ifs_lastout`
would need a leg that starts at the end of the run. -/
theorem legReady_of_computeLeg {d : RunDir} {v' : Vars} (hchain : Chained c d.eceInfo)
    (hv : VarsOk c d v .loop) (h : computeLeg c d.eceInfo v = .ok v') :
    VarsOk c d v' .prepare := by
  obtain ⟨hfollows, hlast⟩ := computeLeg_spec hchain h
  have hbase : (if v'.legIsRestart then d.eceInfo else []) = base d.eceInfo v := by
    rw [computeLeg_legIsRestart h, base]
    cases fromScratch d.eceInfo v <;> rfl
  refine ⟨hbase ▸ hfollows, hlast.trans ⟨fun h => h.resolve_left fun hstale => ?_, .inr⟩⟩
  obtain ⟨hforce, hend⟩ := hv hstale
  have hstart : v'.leg.legStartDate = c.runEndDate := by
    rw [hfollows.start, ← hend, base, fromScratch, hforce]
    cases d.eceInfo <;> rfl
  have := hfollows.positive
  have := hfollows.bounded
  omega

/-- A restart, or a run from scratch in an empty directory, goes on from
the records as they are. -/
theorem legReady_of_keep {d : RunDir} (hv : VarsOk c d v .prepare)
    (hkeep : (v.legIsRestart || d.isEmpty) = true) : LegReady c d.eceInfo v := by
  rw [VarsOk] at hv
  cases (Bool.or_eq_true _ _).mp hkeep with
  | inl hr => rwa [hr] at hv
  | inr hempty =>
      rw [(RunDir.isEmpty_iff.mp hempty).1] at hv ⊢
      rwa [ite_self] at hv

theorem Invariant.exit (h : Invariant c s) : Invariant c s.exit :=
  ⟨h.recorded, by simp [State.exit], h.launched⟩

/-- The script may go on wherever its variables keep their promise. -/
theorem Invariant.goto (h : Invariant c s) (hv : VarsOk c s.dir v pc) :
    Invariant c (s.goto pc v) := by
  refine ⟨h.recorded, fun pc' v' hs => ?_, h.launched⟩
  obtain ⟨rfl, rfl⟩ : pc = pc' ∧ v = v' := by simpa [State.goto] using hs
  exact hv

/-- One move of the script, from each place in the loop. -/
theorem Invariant.next (h : Invariant c s) (hs : s.script = some (pc, v))
    (hnext : next c s v pc = some s') : Invariant c s' := by
  have hv := h.script pc v hs
  cases pc with
  | loop =>
      rw [EcEarth.next] at hnext
      split at hnext
      · obtain rfl := Option.some.inj hnext
        exact h.exit
      · split at hnext
        · obtain rfl := Option.some.inj hnext
          exact h.exit
        · rename_i hleg
          obtain rfl := Option.some.inj hnext
          exact h.goto (legReady_of_computeLeg h.recorded hv hleg)
  | prepare =>
      rw [EcEarth.next] at hnext
      split at hnext
      · rename_i hor
        obtain rfl := Option.some.inj hnext
        exact h.goto (legReady_of_keep hv hor)
      · rename_i hor
        obtain ⟨hr, -⟩ : v.legIsRestart = false ∧ s.dir.isEmpty = false := by simpa using hor
        split at hnext
        · obtain rfl := Option.some.inj hnext
          refine h.goto ?_
          rw [VarsOk, hr] at hv
          exact hv
        · obtain rfl := Option.some.inj hnext
          exact h.exit
  | clear =>
      rw [EcEarth.next] at hnext
      split at hnext
      · rename_i hempty
        obtain rfl := Option.some.inj hnext
        refine h.goto ?_
        rw [VarsOk, (RunDir.isEmpty_iff.mp hempty).1]
        exact hv
      · cases hnext
  | setup =>
      obtain rfl := Option.some.inj hnext
      exact Invariant.goto ⟨h.recorded, h.script, h.launched⟩ hv
  | launch =>
      obtain rfl := Option.some.inj hnext
      refine Invariant.goto ⟨h.recorded, h.script, fun l hl => ?_⟩ hv
      cases List.mem_append.mp hl with
      | inl hl => exact h.launched l hl
      | inr hl =>
          rw [List.mem_singleton.mp hl]
          exact hv.2
  | record =>
      obtain rfl := Option.some.inj hnext
      refine ⟨each_concat.mpr ⟨h.recorded, hv.1⟩, fun pc' v' hs' => ?_, h.launched⟩
      obtain ⟨rfl, rfl⟩ : Pc.loop = pc' ∧ _ = v' := by simpa [State.goto] using hs'
      exact fun hlast => ⟨rfl, nextStart_concat.trans (hv.2.mp hlast)⟩

theorem Invariant.step {m : Move} (h : Invariant c s) (hstep : step c m s = some s') :
    Invariant c s' := by
  cases m with
  | invoke runNumLegs force =>
      simp only [EcEarth.step] at hstep
      split at hstep
      · cases hstep
      · split at hstep
        · cases hstep
        · obtain rfl := Option.some.inj hstep
          exact Invariant.goto ⟨h.recorded, h.script, h.launched⟩ (by simp [VarsOk, Vars.init])
  | next =>
      simp only [EcEarth.step] at hstep
      split at hstep
      · rename_i hs
        exact h.next hs hstep
      · cases hstep
  | unlink info =>
      simp only [EcEarth.step] at hstep
      split at hstep
      · rename_i v hs
        obtain rfl := Option.some.inj hstep
        refine ⟨?_, fun pc' v' hs' => ?_, h.launched⟩
        · cases info with
          | true => exact each_nil
          | false => exact h.recorded
        · -- in `clear` the promise does not depend on the directory
          obtain ⟨rfl, rfl⟩ : Pc.clear = pc' ∧ v = v' := by simpa [hs] using hs'
          exact h.script _ _ hs
      · cases hstep
  | abort =>
      simp only [EcEarth.step] at hstep
      split at hstep
      · obtain rfl := Option.some.inj hstep
        exact h.exit
      · cases hstep

theorem invariant_of_reachable (h : Reachable (legChain c) s) : Invariant c s := by
  refine h.invariant ?_ fun s m s' _ hinv hstep => hinv.step hstep
  exact fun s ⟨hchain, hscript, _, hlaunched⟩ =>
    ⟨hchain, by simp [hscript], by simp [hlaunched]⟩

/-! ## what a step can do -/

/-- Only `record` and `rm` change the records. -/
theorem step_eceInfo {m : Move} (hstep : step c m s = some s') :
    s'.dir.eceInfo = s.dir.eceInfo ∨ s'.dir.eceInfo = [] ∨
      ∃ v, s.script = some (.record, v) ∧ s'.dir.eceInfo = s.dir.eceInfo ++ [v.leg] := by
  cases m with
  | next =>
      simp only [EcEarth.step] at hstep
      split at hstep
      · rename_i pc v hs
        cases pc with
        | record =>
            obtain rfl := Option.some.inj hstep
            exact .inr (.inr ⟨v, hs, rfl⟩)
        | _ => grind [EcEarth.next, State.goto, State.exit, State.populate, State.launch]
      · cases hstep
  | unlink info => cases info <;> grind [EcEarth.step, unlink]
  | _ => grind [EcEarth.step, State.goto, State.exit]

/-- Past the head of the loop, the variables stay as they were computed
there. -/
theorem step_script {m : Move} (hstep : step c m s = some s') (hs : s'.script = some (pc, v))
    (hpc : pc ≠ .loop) : (∃ last, last ≠ .loop ∧ s.script = some (last, v)) ∨
      ∃ before, s.script = some (.loop, before) ∧ computeLeg c s.dir.eceInfo before = .ok v := by
  cases m with
  | next =>
      simp only [EcEarth.step] at hstep
      split at hstep
      · rename_i last before hbefore
        by_cases hloop : last = .loop
        · subst hloop
          grind [EcEarth.next, State.goto, State.exit]
        · have hsame : before = v := by
            cases last <;> grind [EcEarth.next, State.goto, State.exit, State.populate,
              State.launch, State.record]
          exact .inl ⟨last, hloop, hsame ▸ hbefore⟩
      · cases hstep
  | _ => grind [EcEarth.step, State.goto, State.exit]

/-- Only `launch` launches. -/
theorem step_launched {m : Move} (hstep : step c m s = some s') : s'.launched = s.launched ∨
    ∃ v, s.script = some (.launch, v) ∧ s'.launched = s.launched ++ [⟨v.leg, v.ifsLastout⟩] := by
  cases m with
  | next =>
      simp only [EcEarth.step] at hstep
      split at hstep
      · rename_i pc v hs
        cases pc with
        | launch =>
            obtain rfl := Option.some.inj hstep
            exact .inr ⟨v, hs, rfl⟩
        | _ => grind [EcEarth.next, State.goto, State.exit, State.populate, State.record]
      · cases hstep
  | _ => grind [EcEarth.step, State.goto, State.exit]

/-- **The leg chain.**  Over all invocations and aborts: the records of
`ece.info` are numbered from 1, start at the start of the run and each at
the end of the one before, have positive length and stay inside the run; a
leg is launched only while all records end before the end of the run; and
a launched leg has `ifs_lastout` exactly if it ends there. -/
theorem legChain_correct (h : Reachable (legChain c) s) :
    Chained c s.dir.eceInfo ∧
    (∀ m s', (legChain c).step m s = some s' → s'.launched ≠ s.launched →
      ∀ r ∈ s.dir.eceInfo, r.legEndDate < c.runEndDate) ∧
    ∀ l ∈ s.launched, l.ifsLastout = true ↔ l.leg.legEndDate = c.runEndDate := by
  have hinv := invariant_of_reachable h
  refine ⟨hinv.recorded, fun m s' hstep hne r hr => ?_, hinv.launched⟩
  obtain ⟨v, hs, -⟩ := (step_launched hstep).resolve_left hne
  obtain ⟨hfollows, -⟩ := hinv.script _ v hs
  calc r.legEndDate ≤ nextStart c s.dir.eceInfo := hinv.recorded.end_le r hr
    _ = v.leg.legStartDate := hfollows.start.symm
    _ < v.leg.legEndDate := hfollows.positive
    _ ≤ c.runEndDate := hfollows.bounded

/-- Legs of length 10 in a run of length 25. -/
def shortConfig : Config where
  runStartDate := 0
  runEndDate := 25
  rstFreq := "10 seconds"
  dateAdd date _ := date + 10
  lpjg := false
  isNewYear _ := false

/-- One forced leg, an abort behind the launch of the second leg, and an
invocation for more legs than are left. -/
def shortRun : List Move :=
  [.invoke 2 true, .next, .next, .unlink false] ++ List.replicate 8 .next ++
    [.abort, .invoke 5 false] ++ List.replicate 11 .next

/-- The second leg was launched twice, and the last one with `ifs_lastout`. -/
theorem legChain_correct_short : ∃ s, Reachable (legChain shortConfig) s ∧
    s.dir.eceInfo = [⟨1, 0, 10⟩, ⟨2, 10, 20⟩, ⟨3, 20, 25⟩] ∧
    s.launched = [⟨⟨1, 0, 10⟩, false⟩, ⟨⟨2, 10, 20⟩, false⟩, ⟨⟨2, 10, 20⟩, false⟩,
      ⟨⟨3, 20, 25⟩, true⟩] ∧
    Chained shortConfig s.dir.eceInfo ∧
    (∀ m s', (legChain shortConfig).step m s = some s' → s'.launched ≠ s.launched →
      ∀ r ∈ s.dir.eceInfo, r.legEndDate < 25) ∧
    ∀ l ∈ s.launched, l.ifsLastout = true ↔ l.leg.legEndDate = 25 :=
  have hrun := reachable_of_run (S := legChain shortConfig) shortRun
    (s := ⟨⟨[], true⟩, none, false, []⟩) ⟨each_nil, rfl, rfl, rfl⟩ rfl
  have h := legChain_correct hrun
  ⟨_, hrun, rfl, rfl, h⟩

end ContainerHackathon.EcEarth
