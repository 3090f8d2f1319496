import ContainerHackathon.EcEarth.Leg

/-!
# EcEarth.RunFiles

The files of an ifs-only run: the month files and restart files that IFS
leaves in the run directory, the archives `output/ifs` and `restart/ifs`,
and the lines of `ece.info`.

After the model has finished, `ece-esm.sh` runs a sequence of commands over
them, `postprocess`.  `exec` is one command; a command that fails ends the
script, which runs under `set -e`.  `runSteps` stops between two commands,
`runCmds` goes through to the end, and they agree (`runCmds_runSteps`).
-/

namespace ContainerHackathon.EcEarth

variable {ρ : Type*}

/-! ## files -/

/-- The prefixes `ICMSH` and `ICMGG`. -/
inductive IcmKind
  | sh
  | gg
  deriving DecidableEq, Repr

/-- `ICMSH${exp_name}+YYYYMM` or `ICMGG${exp_name}+YYYYMM`. -/
structure MonthFile where
  kind : IcmKind
  month : Nat
  deriving DecidableEq, Repr

/-- Month files in a directory, with their GRIB records; names are unique. -/
structure Output (ρ : Type*) where
  files : List (MonthFile × List ρ)
  nodup : (files.map Prod.fst).Nodup

/-- The time part of a restart file: the day since the start of the run and
the second of that day. -/
structure Stamp where
  day : Int
  second : Int
  deriving DecidableEq, Repr

/-- `srf<time part>.????` or `rcf`. -/
inductive RestartName
  | srf (stamp : Stamp) (part : String)
  | rcf
  deriving DecidableEq, Repr

/-- `output/ifs/NNN/f`, by leg number and month file. -/
abbrev Archive (ρ : Type*) := Nat → MonthFile → Option (List ρ)

/-- A line of `ece.info`. -/
inductive InfoLine
  | comment
  | legNumber (n : Nat)
  | legStartDate (date : Int)
  | legEndDate (date : Int)
  deriving DecidableEq, Repr

/-- The run directory with its archives. -/
structure RunFiles (ρ : Type*) where
  /-- The month files that are not archived yet. -/
  icm : List (MonthFile × List ρ)
  /-- The parts of the restart files that are not archived yet. -/
  srf : Stamp → List (String × List ρ)
  rcf : Option (List ρ)
  output : Archive ρ
  restart : Nat → RestartName → Option (List ρ)
  eceInfo : List InfoLine
  /-- The run directory holds the files of a run from scratch. -/
  populated : Bool

/-- A new run directory. -/
def RunFiles.empty : RunFiles ρ where
  icm := []
  srf _ := []
  rcf := none
  output _ _ := none
  restart _ _ := none
  eceInfo := []
  populated := false

/-- Write the files `new` into a directory that holds the files `old`. -/
def overwrite {ν β : Type*} [DecidableEq ν] (new old : List (ν × β)) : List (ν × β) :=
  new ++ old.filter fun x => x.1 ∉ new.map Prod.fst

theorem overwrite_nil {ν β : Type*} [DecidableEq ν] (new : List (ν × β)) :
    overwrite new [] = new := by
  simp [overwrite]

/-! ## commands -/

inductive Cmd
  /-- `if [ -f output/ifs/${prv_leg}/${f} ]`, with its branches. -/
  | test (f : MonthFile)
  /-- The same for a pattern that no file matches: the pattern stands for
  itself, and `cat` or `mv` does not find it. -/
  | noMatch
  /-- `cat ${f} >> output/ifs/${prv_leg}/${f}`. -/
  | cat (f : MonthFile)
  /-- `rm -f ${f}`. -/
  | rm (f : MonthFile)
  /-- `mv ${f} ${outdir}`. -/
  | mv (f : MonthFile)
  /-- `mv srf${nd}.???? ${outdir}`. -/
  | mvSrf
  /-- `test -f rcf && cp rcf ${outdir}`. -/
  | cpRcf
  /-- `echo .. | tee -a ${ece_info_file}`. -/
  | echo (line : InfoLine)
  deriving DecidableEq, Repr

namespace RunFiles

def putOutput (d : RunFiles ρ) (n : Nat) (f : MonthFile) (content : List ρ) : RunFiles ρ :=
  { d with output := Function.update d.output n (Function.update (d.output n) f (some content)) }

def unlink (d : RunFiles ρ) (f : MonthFile) : RunFiles ρ :=
  { d with icm := d.icm.filter fun x => x.1 ≠ f }

def putRestart (d : RunFiles ρ) (n : Nat) (name : RestartName) (content : List ρ) : RunFiles ρ :=
  { d with restart :=
      Function.update d.restart n (Function.update (d.restart n) name (some content)) }

/-- Move all parts with the time part `nd`. -/
def moveSrf (d : RunFiles ρ) (n : Nat) (nd : Stamp) : RunFiles ρ :=
  { (d.srf nd).foldl (fun d part => d.putRestart n (.srf nd part.1) part.2) d with
    srf := Function.update d.srf nd [] }

end RunFiles

/-- One command of the post-processing of leg `legNumber`, whose restart
files have the time part `nd`: the commands it goes on with, and the files;
`none` if it fails. -/
def exec (legNumber : Nat) (nd : Stamp) : Cmd → RunFiles ρ → Option (List Cmd × RunFiles ρ)
  | .test f, d =>
      if (d.output (legNumber - 1) f).isSome then some ([.cat f, .rm f], d) else some ([.mv f], d)
  | .noMatch, _ => none
  | .cat f, d =>
      match d.icm.lookup f with
      | none => none
      | some content => some ([],
          d.putOutput (legNumber - 1) f ((d.output (legNumber - 1) f).getD [] ++ content))
  | .rm f, d => some ([], d.unlink f)
  | .mv f, d =>
      match d.icm.lookup f with
      | none => none
      | some content => some ([], (d.putOutput legNumber f content).unlink f)
  | .mvSrf, d => if d.srf nd = [] then none else some ([], d.moveSrf legNumber nd)
  | .cpRcf, d =>
      match d.rcf with
      | none => some ([], d)
      | some content => some ([], d.putRestart (legNumber + 1) .rcf content)
  | .echo line, d => some ([], { d with eceInfo := d.eceInfo ++ [line] })

/-- `n` commands, one after the other. -/
def runSteps (legNumber : Nat) (nd : Stamp) :
    Nat → List Cmd × RunFiles ρ → Option (List Cmd × RunFiles ρ)
  | 0, p => some p
  | _ + 1, ([], _) => none
  | n + 1, (cmd :: rest, d) =>
      (exec legNumber nd cmd d).bind fun p => runSteps legNumber nd n (p.1 ++ rest, p.2)

/-- A command with the commands it goes on with. -/
def runCmd (legNumber : Nat) (nd : Stamp) (d : RunFiles ρ) (cmd : Cmd) : Option (RunFiles ρ) :=
  (exec legNumber nd cmd d).bind fun p =>
    p.1.foldlM (fun d cmd => (exec legNumber nd cmd d).map Prod.snd) p.2

/-- All commands. -/
def runCmds (legNumber : Nat) (nd : Stamp) (cmds : List Cmd) (d : RunFiles ρ) :
    Option (RunFiles ρ) :=
  cmds.foldlM (runCmd legNumber nd) d

/-! ## the post-processing of a leg -/

/-- `for f in ICMSH${exp_name}+?????? ICMGG${exp_name}+??????`. -/
def globIcm (icm : List (MonthFile × List ρ)) : List Cmd :=
  let words (kind : IcmKind) : List Cmd :=
    match (icm.map Prod.fst).filter (fun f => f.kind = kind) with
    | [] => [.noMatch]
    | fs => fs.map .test
  words .sh ++ words .gg

/-- The lines that a leg appends to `ece.info`. -/
def recordLines (leg : Leg) : List InfoLine :=
  [.comment, .comment, .comment, .legNumber leg.legNumber, .legStartDate leg.legStartDate,
    .legEndDate leg.legEndDate]

/-- The commands behind the launch that touch these files.  Directories are
there as soon as something is moved into them, so `mkdir -p` has nothing to
do. -/
def postprocess (leg : Leg) (legIsRestart : Bool) (d : RunFiles ρ) : List Cmd :=
  globIcm d.icm ++ (if legIsRestart then [.mvSrf] else []) ++ [.cpRcf] ++
    (recordLines leg).map .echo

/-! ## a leg, and the loop over the legs -/

/-- IFS, which writes the same files for the same leg. -/
structure Ifs (ρ : Type*) where
  output : Leg → Output ρ
  /-- The parts of the restart files for the end of the leg. -/
  restart : Leg → List (String × List ρ)
  rcf : Leg → Option (List ρ)

/-- The time part of restart files for a date. -/
def stampOf (c : Config) (date : Int) : Stamp :=
  ⟨(date - c.runStartDate) / 86400, (date - c.runStartDate) % 86400⟩

/-- `nd="$(printf %06d $((leg_start_sec/(24*3600))))0000"`. -/
def nd (c : Config) (leg : Leg) : Stamp :=
  ⟨(leg.legStartDate - c.runStartDate).tdiv (24 * 3600), 0⟩

/-- `rm -f ICM{SH,GG}${exp_name}+??????`. -/
def removeLeftovers (d : RunFiles ρ) : RunFiles ρ := { d with icm := [] }

/-- `launch $cmd`, successfully. -/
def launch (c : Config) (ifs : Ifs ρ) (leg : Leg) (d : RunFiles ρ) : RunFiles ρ :=
  { d with
    icm := overwrite (ifs.output leg).files d.icm
    srf := Function.update d.srf (stampOf c leg.legEndDate)
      (overwrite (ifs.restart leg) (d.srf (stampOf c leg.legEndDate)))
    rcf := (ifs.rcf leg).or d.rcf
    populated := true }

/-- The files when the model has finished.  A restart removes leftovers; a
run from scratch needs an empty run directory, or may empty it. -/
def finishModel (c : Config) (ifs : Ifs ρ) (v : Vars) (d : RunFiles ρ) : Option (RunFiles ρ) :=
  if v.legIsRestart then some (launch c ifs v.leg (removeLeftovers d))
  else if d.populated then
    if v.forceRunFromScratch then some (launch c ifs v.leg .empty)
    -- "Run directory not empty and $force_run_from_scratch not set."
    else none
  else some (launch c ifs v.leg d)

/-- The body of the loop, for a leg that has its dates. -/
def runLeg (c : Config) (ifs : Ifs ρ) (v : Vars) (d : RunFiles ρ) : Option (RunFiles ρ) :=
  (finishModel c ifs v d).bind fun d =>
    runCmds v.leg.legNumber (nd c v.leg) (postprocess v.leg v.legIsRestart d) d

def InfoLine.assign (leg : Leg) : InfoLine → Leg
  | .comment => leg
  | .legNumber n => { leg with legNumber := n }
  | .legStartDate date => { leg with legStartDate := date }
  | .legEndDate date => { leg with legEndDate := date }

/-- `. ./${ece_info_file}` line by line. -/
def sourceLines (lines : List InfoLine) (leg : Leg) : Leg := lines.foldl InfoLine.assign leg

/-- A readable `ece.info` assigns what one record with the final values
would; what it does not assign keeps the value from before. -/
def infoRecords (lines : List InfoLine) (leg : Leg) : List Leg :=
  if lines = [] then [] else [sourceLines lines leg]

def InfoLine.isLegNumber : InfoLine → Bool
  | .legNumber _ => true
  | _ => false

def InfoLine.isLegEndDate : InfoLine → Bool
  | .legEndDate _ => true
  | _ => false

/-- Under `set -u` the script ends at a variable that neither `ece.info` nor
a leg before it in the invocation has set. -/
def unbound (lines : List InfoLine) (v : Vars) : Option String :=
  -- `leg_number` is positive as soon as a leg has set it
  if v.forceRunFromScratch || lines.isEmpty || v.leg.legNumber != 0 then none
  else if !lines.any InfoLine.isLegEndDate then some "leg_end_date: unbound variable"
  else if !lines.any InfoLine.isLegNumber then some "leg_number: unbound variable"
  else none

/-- The top of the loop body, from the lines of `ece.info`. -/
def readLeg (c : Config) (lines : List InfoLine) (v : Vars) : Except Exit Vars :=
  match unbound lines v with
  | some message => .error (.error message)
  | none => computeLeg c (infoRecords lines v.leg) v

theorem computeLeg_of_readLeg {c : Config} {lines : List InfoLine} {v v' : Vars}
    (h : readLeg c lines v = .ok v') : computeLeg c (infoRecords lines v.leg) v = .ok v' := by
  unfold readLeg at h
  split at h
  · cases h
  · exact h

/-- Lines that do not assign a variable leave it as it was. -/
theorem legNumber_sourceLines {lines : List InfoLine} (h : ¬ lines.any InfoLine.isLegNumber)
    (leg : Leg) : (sourceLines lines leg).legNumber = leg.legNumber := by
  induction lines generalizing leg with
  | nil => rfl
  | cons line lines ih =>
      rw [List.any_cons, Bool.or_eq_true, not_or] at h
      rw [sourceLines, List.foldl_cons]
      refine (ih h.2 _).trans ?_
      cases line with
      | legNumber n => exact absurd rfl h.1
      | _ => rfl

theorem legEndDate_sourceLines {lines : List InfoLine} (h : ¬ lines.any InfoLine.isLegEndDate)
    (leg : Leg) : (sourceLines lines leg).legEndDate = leg.legEndDate := by
  induction lines generalizing leg with
  | nil => rfl
  | cons line lines ih =>
      rw [List.any_cons, Bool.or_eq_true, not_or] at h
      rw [sourceLines, List.foldl_cons]
      refine (ih h.2 _).trans ?_
      cases line with
      | legEndDate date => exact absurd rfl h.1
      | _ => rfl

/-- Where the lines determine the variables, they set them. -/
theorem readLeg_eq (c : Config) {lines : List InfoLine} {a : Leg} (v : Vars)
    (h : ∀ leg, sourceLines lines leg = a) :
    readLeg c lines v = computeLeg c (infoRecords lines v.leg) v := by
  have hend : lines.any InfoLine.isLegEndDate := by
    by_contra hnot
    have hkept : (sourceLines lines _).legEndDate = a.legEndDate + 1 :=
      legEndDate_sourceLines hnot ⟨0, 0, a.legEndDate + 1⟩
    rw [h] at hkept
    omega
  have hnumber : lines.any InfoLine.isLegNumber := by
    by_contra hnot
    have hkept : (sourceLines lines _).legNumber = a.legNumber + 1 :=
      legNumber_sourceLines hnot ⟨a.legNumber + 1, 0, 0⟩
    rw [h] at hkept
    omega
  have hbound : unbound lines v = none := by
    rw [unbound, hend, hnumber]
    simp
  rw [readLeg, hbound]

theorem sourceLines_append {lines : List InfoLine} (more : List InfoLine) (leg : Leg) :
    sourceLines (lines ++ more) leg = sourceLines more (sourceLines lines leg) :=
  List.foldl_append

/-- Sourcing whole records, line by line or record by record. -/
theorem sourceLines_records (legs : List Leg) (leg : Leg) :
    sourceLines (legs.flatMap recordLines) leg = source legs leg := by
  induction legs generalizing leg with
  | nil => rfl
  | cons r legs ih =>
      rw [List.flatMap_cons, sourceLines_append, ih]
      rfl

/-- A leg gets the same dates from the lines of `ece.info` and from its
records. -/
theorem computeLeg_infoRecords (c : Config) (legs : List Leg) (v : Vars) :
    computeLeg c (infoRecords (legs.flatMap recordLines) v.leg) v = computeLeg c legs v := by
  have hstart : setLegStart c (infoRecords (legs.flatMap recordLines) v.leg) v =
      setLegStart c legs v := by
    cases legs with
    | nil => rfl
    | cons r legs =>
        have hne : (r :: legs).flatMap recordLines ≠ [] := by simp [recordLines]
        rw [infoRecords, if_neg hne, sourceLines_records]
        rfl
  simp only [computeLeg, hstart]

/-- The loop over the legs, `n` more of them; the files when the script
exits with status 0. -/
def runLegs (c : Config) (ifs : Ifs ρ) : Nat → Vars → RunFiles ρ → Option (RunFiles ρ)
  | 0, _, d => some d
  | n + 1, v, d =>
      match readLeg c d.eceInfo v with
      | .error .nothingLeft => some d
      | .error (.error _) => none
      | .ok v => (runLeg c ifs v d).bind fun d =>
          runLegs c ifs n { v with forceRunFromScratch := false, runNumLegs := v.runNumLegs - 1 } d

/-! ## commands one by one and all at once -/

variable {legNumber : Nat} {stamp : Stamp} {cmd : Cmd} {cmds : List Cmd} {d d' : RunFiles ρ}

theorem runCmds_nil : runCmds legNumber stamp [] d = some d := rfl

theorem runCmds_cons : runCmds legNumber stamp (cmd :: cmds) d =
    (runCmd legNumber stamp d cmd).bind (runCmds legNumber stamp cmds) := rfl

theorem runCmds_append {more : List Cmd} : runCmds legNumber stamp (cmds ++ more) d =
    (runCmds legNumber stamp cmds d).bind (runCmds legNumber stamp more) := by
  simp only [runCmds, List.foldlM_append]
  rfl

/-- A command that goes on with nothing is run by one step. -/
theorem runCmd_of_simple (h : ∀ p, exec legNumber stamp cmd d = some p → p.1 = []) :
    runCmd legNumber stamp d cmd = (exec legNumber stamp cmd d).map Prod.snd := by
  rw [runCmd]
  cases hexec : exec legNumber stamp cmd d with
  | none => rfl
  | some p =>
      rw [Option.bind_some, h p hexec]
      rfl

theorem runCmd_cat (f : MonthFile) : runCmd legNumber stamp d (.cat f) =
    (exec legNumber stamp (.cat f) d).map Prod.snd :=
  runCmd_of_simple fun p hp => by
    rw [exec] at hp
    split at hp
    · cases hp
    · rw [← Option.some.inj hp]

theorem runCmd_rm (f : MonthFile) : runCmd legNumber stamp d (.rm f) =
    (exec legNumber stamp (.rm f) d).map Prod.snd :=
  runCmd_of_simple fun p hp => by rw [← Option.some.inj hp]

theorem runCmd_mv (f : MonthFile) : runCmd legNumber stamp d (.mv f) =
    (exec legNumber stamp (.mv f) d).map Prod.snd :=
  runCmd_of_simple fun p hp => by
    rw [exec] at hp
    split at hp
    · cases hp
    · rw [← Option.some.inj hp]

/-- What a command goes on with goes on with nothing. -/
theorem runCmds_exec {p : List Cmd × RunFiles ρ} (h : exec legNumber stamp cmd d = some p) :
    runCmds legNumber stamp p.1 p.2 = runCmd legNumber stamp d cmd := by
  cases cmd with
  | test f =>
      have hrun := h
      rw [exec] at h
      rw [runCmd, hrun, Option.bind_some]
      split at h <;> obtain rfl := Option.some.inj h
      · simp only [runCmds, List.foldlM_cons, List.foldlM_nil, runCmd_cat, runCmd_rm]
      · simp only [runCmds, List.foldlM_cons, List.foldlM_nil, runCmd_mv]
  | _ =>
      have hnil : p.1 = [] := by
        simp only [exec] at h
        first
        | (obtain rfl := Option.some.inj h; rfl)
        | (split at h
           · cases h
           · obtain rfl := Option.some.inj h; rfl)
        | (split at h <;> (obtain rfl := Option.some.inj h; rfl))
        | cases h
      rw [runCmd, h, Option.bind_some, hnil]
      rfl

/-- **Stopping between two commands** and going on is going through. -/
theorem runCmds_runSteps {n : Nat} {p : List Cmd × RunFiles ρ}
    (h : runSteps legNumber stamp n (cmds, d) = some p) :
    runCmds legNumber stamp p.1 p.2 = runCmds legNumber stamp cmds d := by
  induction n generalizing cmds d with
  | zero =>
      obtain rfl := Option.some.inj h
      rfl
  | succ n ih =>
      cases cmds with
      | nil => simp [runSteps] at h
      | cons cmd cmds =>
          obtain ⟨q, hq, hrest⟩ := Option.bind_eq_some_iff.mp h
          rw [ih hrest, runCmds_append, runCmds_exec hq, runCmds_cons]

end ContainerHackathon.EcEarth
