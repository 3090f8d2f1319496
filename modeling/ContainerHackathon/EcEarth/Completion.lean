import ContainerHackathon.EcEarth.Archive

/-!
# EcEarth.Completion

Runs that go through to the end.  Behind the first leg every leg is a
restart: its dates depend on the last record of `ece.info` only
(`computeLeg_restart`), and its files on the archives of the leg before and
its own (`restartLeg_agree`).  So a run completes in one way at most
(`Completes.unique`), in whatever invocations.
-/

namespace ContainerHackathon.EcEarth

open Transition Journal

variable {ρ : Type*} {c : Config} {ifs : Ifs ρ} {lines : List InfoLine} {a b leg : Leg}
  {v : Vars} {d d' F G : RunFiles ρ} {stamp : Stamp} {k n : Nat}

/-! ## the dates of a restart -/

/-- `leg_end_date` before it is clipped. -/
def unclippedEnd (c : Config) (start : Int) : Int :=
  if c.rstFreq ≠ "" then c.dateAdd start c.rstFreq else c.runEndDate

/-- The leg behind the record `a`. -/
def legBehind (c : Config) (a : Leg) : Leg where
  legNumber := a.legNumber + 1
  legStartDate := a.legEndDate
  legEndDate :=
    if c.runEndDate ≤ unclippedEnd c a.legEndDate then c.runEndDate else unclippedEnd c a.legEndDate

/-- What a restart behind the record `a` does. -/
def planLeg (c : Config) (a : Leg) : Except Exit Leg :=
  if c.lpjg && (!c.isNewYear a.legEndDate || !c.isNewYear (c.dateAdd a.legEndDate c.rstFreq)) then
    .error (.error lpjgMsg)
  else if (legBehind c a).legLengthSec ≤ 0 then .error .nothingLeft
  else .ok (legBehind c a)

/-- The variables of a restart. -/
def restartVars (c : Config) (a : Leg) (v : Vars) : Vars :=
  { v with
    legIsRestart := true
    leg := legBehind c a
    ifsLastout := v.ifsLastout || decide (c.runEndDate ≤ unclippedEnd c a.legEndDate) }

theorem clipLegEnd_restart (hv : v.forceRunFromScratch = false) :
    clipLegEnd c (setLegEnd c (setLegStart c [a] v)) = restartVars c a v := by
  have hstart : setLegEnd c (setLegStart c [a] v) =
      { v with
        legIsRestart := true
        leg := ⟨a.legNumber + 1, a.legEndDate, unclippedEnd c a.legEndDate⟩ } := by
    simp [setLegStart, setLegEnd, fromScratch, hv, source, unclippedEnd]
  rw [hstart, clipLegEnd, restartVars, legBehind]
  by_cases hclip : c.runEndDate ≤ unclippedEnd c a.legEndDate
  · simp [hclip]
  · simp [hclip]

/-- The dates of a restart come from the last record. -/
theorem computeLeg_restart (hv : v.forceRunFromScratch = false) :
    computeLeg c [a] v = (planLeg c a).map fun _ => restartVars c a v := by
  have hrefuses : lpjgRefuses c (setLegEnd c (setLegStart c [a] v)) =
      (c.lpjg && (!c.isNewYear a.legEndDate ||
        !c.isNewYear (c.dateAdd a.legEndDate c.rstFreq))) := by
    simp [lpjgRefuses, setLegStart, fromScratch, hv, source]
  simp only [computeLeg, hrefuses, clipLegEnd_restart hv, planLeg, restartVars]
  split
  · rfl
  · split <;> rfl

theorem planLeg_eq_ok (h : planLeg c a = .ok leg) :
    leg = legBehind c a ∧ a.legEndDate < leg.legEndDate := by
  rw [planLeg] at h
  split at h
  · cases h
  · split at h
    · cases h
    · rename_i hlength
      obtain rfl := Except.ok.inj h
      refine ⟨rfl, ?_⟩
      rw [Leg.legLengthSec, legBehind] at hlength
      rw [legBehind]
      simp only at hlength ⊢
      omega

/-- The number in the last record only matters for the number of the leg. -/
theorem planLeg_renumber (hend : b.legEndDate = a.legEndDate) (h : planLeg c a = .ok leg) :
    planLeg c b = .ok { leg with legNumber := b.legNumber + 1 } := by
  obtain ⟨rfl, -⟩ := planLeg_eq_ok h
  have hleg : legBehind c b = { legBehind c a with legNumber := b.legNumber + 1 } := by
    rw [legBehind, legBehind, hend]
  have hlength : (legBehind c b).legLengthSec = (legBehind c a).legLengthSec := by
    rw [hleg]
    rfl
  rw [planLeg] at h ⊢
  rw [hend, hlength, hleg]
  split at h
  · cases h
  · rename_i hlpjg
    rw [if_neg hlpjg]
    split at h
    · cases h
    · rename_i hpositive
      rw [if_neg hpositive]

/-! ## the last record -/

/-- Sourcing the lines assigns the record `a`, whatever was assigned
before. -/
def LastRecord (lines : List InfoLine) (a : Leg) : Prop :=
  lines ≠ [] ∧ ∀ leg, sourceLines lines leg = a

theorem lastRecord_append : LastRecord (lines ++ recordLines leg) leg := by
  refine ⟨by simp [recordLines], fun b => ?_⟩
  rw [sourceLines_append]
  rfl

theorem lastRecord_recordLines : LastRecord (recordLines leg) leg :=
  ⟨by simp [recordLines], fun _ => rfl⟩

theorem LastRecord.unique (ha : LastRecord lines a) (hb : LastRecord lines b) : a = b :=
  (ha.2 a).symm.trans (hb.2 a)

theorem infoRecords_eq (h : LastRecord lines a) : infoRecords lines b = [a] := by
  rw [infoRecords, if_neg h.1, h.2]

/-- A record that is not complete does not change the end date. -/
theorem lastRecord_take (leg : Leg) (h : LastRecord lines a) (hn : n < (recordLines leg).length) :
    ∃ b, LastRecord (lines ++ (recordLines leg).take n) b ∧ b.legEndDate = a.legEndDate := by
  refine ⟨sourceLines ((recordLines leg).take n) a, ⟨?_, fun b => ?_⟩, ?_⟩
  · exact List.append_ne_nil_of_left_ne_nil h.1 _
  · rw [sourceLines_append, h.2]
  · rw [show (recordLines leg).length = 6 from rfl] at hn
    interval_cases n <;> rfl

/-! ## the files of a restart -/

/-- The files after the post-processing. -/
def afterLeg (leg : Leg) (stamp : Stamp) (d : RunFiles ρ) : RunFiles ρ :=
  let d := { d with
    icm := []
    output := archived leg.legNumber (fun f => d.icm.lookup f) d.output }
  let d := d.moveSrf leg.legNumber stamp
  let d := match d.rcf with
    | none => d
    | some content => d.putRestart (leg.legNumber + 1) .rcf content
  { d with eceInfo := d.eceInfo ++ recordLines leg }

theorem runCmd_mvSrf : runCmd k stamp d .mvSrf =
    if d.srf stamp = [] then none else some (d.moveSrf k stamp) := by
  rw [runCmd, exec]
  split <;> rfl

theorem runCmd_cpRcf : runCmd k stamp d .cpRcf =
    some (match d.rcf with
      | none => d
      | some content => d.putRestart (k + 1) .rcf content) := by
  rw [runCmd, exec]
  cases d.rcf <;> rfl

theorem runCmds_echo : runCmds k stamp (lines.map .echo) d =
    some { d with eceInfo := d.eceInfo ++ lines } := by
  induction lines generalizing d with
  | nil => simp [runCmds]
  | cons line lines ih =>
      rw [List.map_cons, runCmds_cons]
      simp [runCmd, exec, ih]

/-- **The post-processing of a restart** goes through if there are month
files of either kind and restart files for its start. -/
theorem runCmds_postprocess (hnodup : (d.icm.map Prod.fst).Nodup) (hboth : BothKinds d.icm)
    (hsrf : d.srf stamp ≠ []) :
    runCmds leg.legNumber stamp (postprocess leg true d) d = some (afterLeg leg stamp d) := by
  rw [postprocess, if_pos rfl, runCmds_append, runCmds_append, runCmds_append,
    runCmds_globIcm hnodup hboth, Option.bind_some, runCmds_cons, runCmd_mvSrf, if_neg hsrf,
    Option.bind_some, runCmds_nil, Option.bind_some, runCmds_cons, runCmd_cpRcf,
    Option.bind_some, runCmds_nil, Option.bind_some, runCmds_echo]
  rfl

theorem of_runCmds_postprocess (hnodup : (d.icm.map Prod.fst).Nodup)
    (h : runCmds leg.legNumber stamp (postprocess leg true d) d = some d') :
    BothKinds d.icm ∧ d.srf stamp ≠ [] := by
  rw [postprocess, if_pos rfl, List.append_assoc, List.append_assoc, runCmds_append] at h
  obtain ⟨d₁, hglob, hrest⟩ := Option.bind_eq_some_iff.mp h
  have hboth := bothKinds_of_runCmds hglob
  refine ⟨hboth, fun hsrf => ?_⟩
  rw [runCmds_globIcm hnodup hboth] at hglob
  obtain rfl := Option.some.inj hglob
  rw [List.singleton_append, runCmds_cons, runCmd_mvSrf, if_pos hsrf] at hrest
  cases hrest

/-- The restart archive when the parts of the restart files with the time
part `stamp` have been moved. -/
def movedSrf (k : Nat) (stamp : Stamp) (parts : List (String × List ρ))
    (restart : Nat → RestartName → Option (List ρ)) : Nat → RestartName → Option (List ρ) :=
  parts.foldl (fun r part =>
    Function.update r k (Function.update (r k) (.srf stamp part.1) (some part.2))) restart

theorem moveSrf_eq : d.moveSrf k stamp =
    { d with
      restart := movedSrf k stamp (d.srf stamp) d.restart
      srf := Function.update d.srf stamp [] } := by
  have hparts : ∀ (parts : List (String × List ρ)) (d : RunFiles ρ),
      parts.foldl (fun d part => d.putRestart k (.srf stamp part.1) part.2) d =
        { d with restart := movedSrf k stamp parts d.restart } := by
    intro parts
    induction parts with
    | nil => intro d; rfl
    | cons part parts ih => intro d; rw [List.foldl_cons, ih]; rfl
  rw [RunFiles.moveSrf, hparts]

/-- What the post-processing does to each kind of file. -/
theorem afterLeg_eq : afterLeg leg stamp d =
    { icm := []
      srf := Function.update d.srf stamp []
      rcf := d.rcf
      output := archived leg.legNumber (fun f => d.icm.lookup f) d.output
      restart :=
        let restart := movedSrf leg.legNumber stamp (d.srf stamp) d.restart
        d.rcf.elim restart fun content =>
          Function.update restart (leg.legNumber + 1)
            (Function.update (restart (leg.legNumber + 1)) .rcf (some content))
      eceInfo := d.eceInfo ++ recordLines leg
      populated := d.populated } := by
  rw [afterLeg]
  simp only [moveSrf_eq]
  cases d.rcf <;> rfl

/-- The files when the model has finished a restart. -/
def relaunched (c : Config) (ifs : Ifs ρ) (leg : Leg) (d : RunFiles ρ) : RunFiles ρ :=
  launch c ifs leg (removeLeftovers d)

def restartLeg (c : Config) (ifs : Ifs ρ) (leg : Leg) (d : RunFiles ρ) : Option (RunFiles ρ) :=
  runCmds leg.legNumber (nd c leg) (postprocess leg true (relaunched c ifs leg d))
    (relaunched c ifs leg d)

theorem runLeg_restart (hv : v.legIsRestart = true) :
    runLeg c ifs v d = restartLeg c ifs v.leg d := by
  rw [runLeg, finishModel, if_pos hv, hv]
  rfl

theorem launch_icm (h : d.icm = []) : (launch c ifs leg d).icm = (ifs.output leg).files := by
  rw [launch, h]
  exact overwrite_nil _

theorem relaunched_icm : (relaunched c ifs leg d).icm = (ifs.output leg).files := launch_icm rfl

/-- The model found the restart files for its start, and wrote month files
of either kind. -/
structure Restartable (c : Config) (ifs : Ifs ρ) (leg : Leg) (d : RunFiles ρ) : Prop where
  bothKinds : BothKinds (ifs.output leg).files
  srf : (relaunched c ifs leg d).srf (nd c leg) ≠ []

theorem restartLeg_eq (h : Restartable c ifs leg d) :
    restartLeg c ifs leg d = some (afterLeg leg (nd c leg) (relaunched c ifs leg d)) :=
  runCmds_postprocess (relaunched_icm ▸ (ifs.output leg).nodup) (relaunched_icm ▸ h.bothKinds)
    h.srf

theorem restartable_of_restartLeg (h : restartLeg c ifs leg d = some d') :
    Restartable c ifs leg d := by
  obtain ⟨hboth, hsrf⟩ := of_runCmds_postprocess (relaunched_icm ▸ (ifs.output leg).nodup) h
  exact ⟨relaunched_icm ▸ hboth, hsrf⟩

/-- **A restart** appends its record, and archives its month files. -/
theorem restartLeg_spec (h : restartLeg c ifs leg d = some d') :
    d'.icm = [] ∧ d'.eceInfo = d.eceInfo ++ recordLines leg ∧
      d'.output =
        archived leg.legNumber (fun f => (ifs.output leg).files.lookup f) d.output := by
  rw [restartLeg_eq (restartable_of_restartLeg h)] at h
  obtain rfl := Option.some.inj h
  rw [afterLeg_eq, relaunched_icm]
  exact ⟨rfl, rfl, rfl⟩

/-- `e` differs from `d` only in the archives of legs before leg `k`. -/
structure AgreeFrom (k : Nat) (d e : RunFiles ρ) : Prop where
  others : e = { d with output := e.output }
  output : ∀ n, k ≤ n → e.output n = d.output n

/-- The archive of the month files has no part in anything else. -/
theorem restartLeg_output (o : Archive ρ) :
    restartLeg c ifs leg { d with output := o } =
      (restartLeg c ifs leg d).map fun d' =>
        { d' with output := archived leg.legNumber (fun f => (ifs.output leg).files.lookup f) o } := by
  by_cases h : Restartable c ifs leg d
  · have hother : Restartable c ifs leg { d with output := o } := ⟨h.bothKinds, h.srf⟩
    rw [restartLeg_eq h, restartLeg_eq hother, afterLeg_eq, afterLeg_eq, relaunched_icm,
      relaunched_icm]
    rfl
  · have hnone : ∀ e : RunFiles ρ, ¬ Restartable c ifs leg e → restartLeg c ifs leg e = none :=
      fun e he => Option.eq_none_iff_forall_ne_some.mpr fun _ hsome =>
        he (restartable_of_restartLeg hsome)
    rw [hnone d h, hnone { d with output := o } fun hother => h ⟨hother.bothKinds, hother.srf⟩]
    rfl

/-- A leg only reads the archive of the leg before. -/
theorem archived_congr {written : MonthFile → Option (List ρ)} {o o' : Archive ρ}
    (hk : o' k = o k) (hn : o' n = o n) :
    archived (k + 1) written o' n = archived (k + 1) written o n := by
  funext f
  simp only [archived, Nat.add_sub_cancel, hk, hn]

/-- A leg only writes the archives of the leg before and its own. -/
theorem archived_frame {written : MonthFile → Option (List ρ)} {o : Archive ρ} (hn : n < k) :
    archived (k + 1) written o n = o n := by
  funext f
  have hprv : n ≠ k := by omega
  have hown : n ≠ k + 1 := by omega
  simp only [archived, Nat.add_sub_cancel, if_neg hprv, if_neg hown, ite_self]
  cases written f <;> rfl

/-- Legs behind leg `k` keep the difference where it is. -/
theorem restartLeg_agree {e : RunFiles ρ} (h : AgreeFrom k d e) (hnumber : leg.legNumber = k + 1)
    (hleg : restartLeg c ifs leg d = some d') :
    ∃ e', restartLeg c ifs leg e = some e' ∧ AgreeFrom k d' e' := by
  rw [h.others, restartLeg_output, hleg]
  refine ⟨_, rfl, rfl, fun n hn => ?_⟩
  rw [(restartLeg_spec hleg).2.2, hnumber]
  exact archived_congr (h.output k le_rfl) (h.output n hn)

theorem AgreeFrom.succ {e : RunFiles ρ} (h : AgreeFrom k d e) : AgreeFrom (k + 1) d e :=
  ⟨h.others, fun n hn => h.output n (by omega)⟩

/-! ## completion -/

/-- There is no time left to simulate. -/
def NothingLeft (c : Config) (d : RunFiles ρ) : Prop :=
  readLeg c d.eceInfo (.init 1 false) = .error .nothingLeft

/-- Submitted for enough legs, the script goes on from `d` to the end of the
run, and leaves the files `F`. -/
def Completes (c : Config) (ifs : Ifs ρ) (d F : RunFiles ρ) : Prop :=
  ∃ n, runLegs c ifs n (.init n false) d = some F ∧ NothingLeft c F

/-- Leg by leg. -/
inductive Finishes (c : Config) (ifs : Ifs ρ) : RunFiles ρ → RunFiles ρ → Prop
  | done {d : RunFiles ρ} {a : Leg} (hlast : LastRecord d.eceInfo a)
      (hplan : planLeg c a = .error .nothingLeft) : Finishes c ifs d d
  | leg {d d' F : RunFiles ρ} {a leg : Leg} (hlast : LastRecord d.eceInfo a)
      (hplan : planLeg c a = .ok leg) (hleg : restartLeg c ifs leg d = some d')
      (hrest : Finishes c ifs d' F) : Finishes c ifs d F

theorem nothingLeft_iff (h : LastRecord d.eceInfo a) :
    NothingLeft c d ↔ planLeg c a = .error .nothingLeft := by
  rw [NothingLeft, readLeg_eq c _ h.2, infoRecords_eq h, computeLeg_restart rfl]
  cases planLeg c a with
  | error e => simp [Except.map]
  | ok leg => simp [Except.map]

theorem runLegs_succ (h : LastRecord d.eceInfo a) (hv : v.forceRunFromScratch = false) :
    runLegs c ifs (n + 1) v d =
      match planLeg c a with
      | .error .nothingLeft => some d
      | .error (.error _) => none
      | .ok leg => (restartLeg c ifs leg d).bind
          (runLegs c ifs n
            { restartVars c a v with
              forceRunFromScratch := false
              runNumLegs := (restartVars c a v).runNumLegs - 1 }) := by
  rw [runLegs, readLeg_eq c v h.2, infoRecords_eq h, computeLeg_restart hv]
  cases hplan : planLeg c a with
  | error e => cases e <;> rfl
  | ok leg =>
      obtain ⟨rfl, -⟩ := planLeg_eq_ok hplan
      simp only [Except.map]
      rw [runLeg_restart rfl]
      rfl

theorem lastRecord_restartLeg (h : restartLeg c ifs leg d = some d') :
    LastRecord d'.eceInfo leg := by
  rw [(restartLeg_spec h).2.1]
  exact lastRecord_append

theorem finishes_of_runLegs (hlast : LastRecord d.eceInfo a) (hv : v.forceRunFromScratch = false)
    (hrun : runLegs c ifs n v d = some F) (hnothing : NothingLeft c F) : Finishes c ifs d F := by
  induction n generalizing v d a with
  | zero =>
      obtain rfl := Option.some.inj hrun
      exact .done hlast ((nothingLeft_iff hlast).mp hnothing)
  | succ n ih =>
      rw [runLegs_succ hlast hv] at hrun
      cases hplan : planLeg c a with
      | error e =>
          rw [hplan] at hrun
          cases e with
          | nothingLeft =>
              obtain rfl := Option.some.inj hrun
              exact .done hlast hplan
          | error message => cases hrun
      | ok leg =>
          rw [hplan] at hrun
          obtain ⟨d', hleg, hrest⟩ := Option.bind_eq_some_iff.mp hrun
          exact .leg hlast hplan hleg (ih (lastRecord_restartLeg hleg) rfl hrest)

theorem Finishes.exists_runLegs (h : Finishes c ifs d F) :
    ∃ n, ∀ v, v.forceRunFromScratch = false → runLegs c ifs n v d = some F := by
  induction h with
  | done hlast hplan => exact ⟨0, fun v hv => rfl⟩
  | leg hlast hplan hleg _ ih =>
      obtain ⟨n, hn⟩ := ih
      refine ⟨n + 1, fun v hv => ?_⟩
      rw [runLegs_succ hlast hv, hplan]
      simp only [hleg, Option.bind_some]
      exact hn _ rfl

theorem Finishes.nothingLeft (h : Finishes c ifs d F) : NothingLeft c F := by
  induction h with
  | done hlast hplan => exact (nothingLeft_iff hlast).mpr hplan
  | leg _ _ _ _ ih => exact ih

/-- The invocations of the script leg by leg. -/
theorem completes_iff (hlast : LastRecord d.eceInfo a) :
    Completes c ifs d F ↔ Finishes c ifs d F := by
  constructor
  · rintro ⟨n, hrun, hnothing⟩
    exact finishes_of_runLegs hlast rfl hrun hnothing
  · intro h
    obtain ⟨n, hn⟩ := h.exists_runLegs
    exact ⟨n, hn _ rfl, h.nothingLeft⟩

/-- A run completes in one way. -/
theorem Finishes.unique (hF : Finishes c ifs d F) (hG : Finishes c ifs d G) : F = G := by
  induction hF with
  | done hlast hplan =>
      cases hG with
      | done => rfl
      | leg hlast' hplan' =>
          rw [hlast.unique hlast', hplan'] at hplan
          cases hplan
  | leg hlast hplan hleg _ ih =>
      cases hG with
      | done hlast' hplan' =>
          rw [hlast.unique hlast', hplan'] at hplan
          cases hplan
      | leg hlast' hplan' hleg' hrest' =>
          rw [hlast.unique hlast', hplan'] at hplan
          obtain rfl := Except.ok.inj hplan
          obtain rfl := Option.some.inj (hleg.symm.trans hleg')
          exact ih hrest'

theorem Completes.unique (hlast : LastRecord d.eceInfo a) (hF : Completes c ifs d F)
    (hG : Completes c ifs d G) : F = G :=
  ((completes_iff hlast).mp hF).unique ((completes_iff hlast).mp hG)

/-- Files that differ only behind the last leg's directory complete as
well. -/
theorem Finishes.agree {e : RunFiles ρ} (h : Finishes c ifs d F) (hlast : LastRecord d.eceInfo a)
    (hagree : AgreeFrom a.legNumber d e) : ∃ G, Finishes c ifs e G := by
  induction h generalizing e a with
  | done hlast' hplan =>
      have heceInfo := congrArg RunFiles.eceInfo hagree.others
      exact ⟨e, .done (heceInfo ▸ hlast') hplan⟩
  | leg hlast' hplan hleg _ ih =>
      obtain rfl := hlast.unique hlast'
      have heceInfo := congrArg RunFiles.eceInfo hagree.others
      obtain ⟨rfl, -⟩ := planLeg_eq_ok hplan
      obtain ⟨e', he', hagree'⟩ := restartLeg_agree hagree rfl hleg
      obtain ⟨G, hG⟩ := ih (lastRecord_restartLeg hleg) hagree'.succ
      exact ⟨G, .leg (heceInfo ▸ hlast') hplan he' hG⟩

/-- The archives of the legs before the last one are never touched again. -/
theorem Finishes.frame (h : Finishes c ifs d F) (hlast : LastRecord d.eceInfo a)
    (hn : n < a.legNumber) : F.output n = d.output n := by
  induction h generalizing a with
  | done => rfl
  | leg hlast' hplan hleg _ ih =>
      obtain rfl := hlast.unique hlast'
      obtain ⟨rfl, -⟩ := planLeg_eq_ok hplan
      rw [ih (lastRecord_restartLeg hleg) (Nat.lt_succ_of_lt hn), (restartLeg_spec hleg).2.2]
      exact archived_frame hn

/-! ## runs that are never killed -/

/-- Legs, of any invocations, from an empty run directory. -/
inductive Completed (c : Config) (ifs : Ifs ρ) : RunFiles ρ → Prop
  | empty : Completed c ifs .empty
  | leg {d d' : RunFiles ρ} {v v' : Vars} (h : Completed c ifs d)
      (hread : readLeg c d.eceInfo v = .ok v')
      (hleg : runLeg c ifs v' d = some d') : Completed c ifs d'

/-- The loop over the legs runs legs. -/
theorem Completed.runLegs (h : Completed c ifs d) (hrun : runLegs c ifs n v d = some d') :
    Completed c ifs d' := by
  induction n generalizing v d with
  | zero => exact Option.some.inj hrun ▸ h
  | succ n ih =>
      rw [EcEarth.runLegs] at hrun
      split at hrun
      · exact Option.some.inj hrun ▸ h
      · cases hrun
      · rename_i hread
        obtain ⟨e, hleg, hrest⟩ := Option.bind_eq_some_iff.mp hrun
        exact ih (.leg h hread hleg) hrest

/-- The records are complete and end behind the start of the run. -/
def Recorded (c : Config) (lines : List InfoLine) : Prop :=
  lines = [] ∨ ∃ a, LastRecord lines a ∧ c.runStartDate ≤ a.legEndDate

/-- A restart reads its dates from the last record. -/
theorem plan_of_restart {v' : Vars} (hrecorded : Recorded c lines)
    (hread : readLeg c lines v = .ok v') (hrestart : v'.legIsRestart = true) :
    ∃ a, LastRecord lines a ∧ c.runStartDate ≤ a.legEndDate ∧ planLeg c a = .ok v'.leg := by
  have hcompute := computeLeg_of_readLeg hread
  have hscratch := computeLeg_legIsRestart hcompute
  rw [hrestart, eq_comm, Bool.not_eq_true'] at hscratch
  obtain ⟨hforce, hinfo⟩ := Bool.or_eq_false_iff.mp hscratch
  rcases hrecorded with rfl | ⟨a, hlast, hstart⟩
  · simp [infoRecords] at hinfo
  · refine ⟨a, hlast, hstart, ?_⟩
    rw [infoRecords_eq hlast, computeLeg_restart hforce] at hcompute
    cases hplan : planLeg c a with
    | error e =>
        rw [hplan] at hcompute
        cases hcompute
    | ok leg =>
        rw [hplan] at hcompute
        rw [← Except.ok.inj hcompute, (planLeg_eq_ok hplan).1]
        rfl

/-- A leg from scratch is the first, and starts at the start of the run. -/
theorem dates_of_scratch {v' : Vars} {eceInfo : List Leg}
    (hcompute : computeLeg c eceInfo v = .ok v') (hscratch : v'.legIsRestart = false) :
    v'.leg.legNumber = 1 ∧ c.runStartDate < v'.leg.legEndDate := by
  have hlegIsRestart := computeLeg_legIsRestart hcompute
  rw [hscratch, eq_comm, Bool.not_eq_false'] at hlegIsRestart
  obtain ⟨-, hv', hlength⟩ := computeLeg_eq_ok hcompute
  have hstart : v'.leg.legStartDate = c.runStartDate := by
    rw [hv', clipLegEnd_legStartDate, setLegEnd_legStartDate, setLegStart, if_pos hlegIsRestart]
  constructor
  · rw [hv', clipLegEnd_legNumber, setLegEnd_legNumber, setLegStart, if_pos hlegIsRestart]
  · rw [Leg.legLengthSec] at hlength
    omega

/-- The post-processing of a leg from scratch. -/
theorem runCmds_postprocess_scratch (hnodup : (d.icm.map Prod.fst).Nodup)
    (h : runCmds leg.legNumber stamp (postprocess leg false d) d = some d') :
    BothKinds d.icm ∧ d'.icm = [] ∧ d'.eceInfo = d.eceInfo ++ recordLines leg ∧
      d'.output = archived leg.legNumber (fun f => d.icm.lookup f) d.output ∧
      d'.populated = d.populated := by
  rw [postprocess, if_neg Bool.false_ne_true, List.append_nil, List.append_assoc,
    runCmds_append] at h
  obtain ⟨d₁, hglob, hrest⟩ := Option.bind_eq_some_iff.mp h
  have hboth := bothKinds_of_runCmds hglob
  rw [runCmds_globIcm hnodup hboth] at hglob
  obtain rfl := Option.some.inj hglob
  rw [List.singleton_append, runCmds_cons, runCmd_cpRcf, Option.bind_some, runCmds_echo] at hrest
  obtain rfl := Option.some.inj hrest
  cases d.rcf <;> exact ⟨hboth, rfl, rfl, rfl, rfl⟩

/-- A leg from scratch starts in an empty run directory. -/
theorem runLeg_scratch (hempty : d.populated = false → d = .empty) (hv : v.legIsRestart = false)
    (h : runLeg c ifs v d = some d') :
    BothKinds (ifs.output v.leg).files ∧ d'.icm = [] ∧ d'.eceInfo = recordLines v.leg ∧
      d'.output = archived v.leg.legNumber (fun f => (ifs.output v.leg).files.lookup f)
        (fun _ _ => none) ∧ d'.populated = true := by
  obtain ⟨e, hfinish, hrun⟩ := Option.bind_eq_some_iff.mp h
  have hlaunch : e = launch c ifs v.leg .empty := by
    rw [finishModel, hv, if_neg Bool.false_ne_true] at hfinish
    split at hfinish
    · split at hfinish
      · exact (Option.some.inj hfinish).symm
      · cases hfinish
    · next hpopulated =>
      rw [hempty (by simpa using hpopulated)] at hfinish
      exact (Option.some.inj hfinish).symm
  have hicm : e.icm = (ifs.output v.leg).files := hlaunch ▸ launch_icm rfl
  rw [hv] at hrun
  obtain ⟨hboth, hnil, hinfo, houtput, hpopulated⟩ :=
    runCmds_postprocess_scratch (hicm ▸ (ifs.output v.leg).nodup) hrun
  rw [hicm] at hboth houtput
  rw [hlaunch] at hinfo houtput hpopulated
  exact ⟨hboth, hnil, hinfo, houtput, hpopulated⟩

/-- What holds between legs: no month file is left over, the directory is
either new or populated, and the records are complete. -/
structure BetweenLegs (c : Config) (d : RunFiles ρ) : Prop where
  icm : d.icm = []
  empty : d.populated = false → d = .empty
  recorded : Recorded c d.eceInfo

theorem restartLeg_populated (h : restartLeg c ifs leg d = some d') : d'.populated = true := by
  rw [restartLeg_eq (restartable_of_restartLeg h)] at h
  obtain rfl := Option.some.inj h
  rw [afterLeg_eq]
  rfl

theorem Completed.betweenLegs (h : Completed c ifs d) : BetweenLegs c d := by
  induction h with
  | empty => exact ⟨rfl, fun _ => rfl, .inl rfl⟩
  | @leg d d' v v' _ hread hleg ih =>
      cases hrestart : v'.legIsRestart with
      | true =>
          obtain ⟨a, -, hstart, hplan⟩ := plan_of_restart ih.recorded hread hrestart
          rw [runLeg_restart hrestart] at hleg
          refine ⟨(restartLeg_spec hleg).1, fun hfalse => ?_,
            .inr ⟨v'.leg, lastRecord_restartLeg hleg, ?_⟩⟩
          · rw [restartLeg_populated hleg] at hfalse
            cases hfalse
          · exact hstart.trans (planLeg_eq_ok hplan).2.le
      | false =>
          obtain ⟨-, hicm, hinfo, -, hpopulated⟩ := runLeg_scratch ih.empty hrestart hleg
          refine ⟨hicm, fun hfalse => ?_, .inr ⟨v'.leg, ?_, ?_⟩⟩
          · rw [hpopulated] at hfalse
            cases hfalse
          · rw [hinfo]
            exact lastRecord_recordLines
          · exact (dates_of_scratch (computeLeg_of_readLeg hread) hrestart).2.le

/-- **The records of a run that is never killed** are a chain of legs. -/
theorem Completed.chained (h : Completed c ifs d) :
    ∃ legs, d.eceInfo = legs.flatMap recordLines ∧ Chained c legs := by
  induction h with
  | empty => exact ⟨[], rfl, each_nil⟩
  | @leg d d' v v' hd hread hleg ih =>
      obtain ⟨legs, hinfo, hchain⟩ := ih
      have hcompute := computeLeg_of_readLeg hread
      rw [hinfo, computeLeg_infoRecords] at hcompute
      obtain ⟨hfollows, -⟩ := computeLeg_spec hchain hcompute
      have hscratch := computeLeg_legIsRestart hcompute
      cases hrestart : v'.legIsRestart with
      | true =>
          rw [hrestart, eq_comm, Bool.not_eq_true'] at hscratch
          rw [base, hscratch, if_neg Bool.false_ne_true] at hfollows
          rw [runLeg_restart hrestart] at hleg
          refine ⟨legs ++ [v'.leg], ?_, each_concat.mpr ⟨hchain, hfollows⟩⟩
          rw [(restartLeg_spec hleg).2.1, hinfo, List.flatMap_append, List.flatMap_singleton]
      | false =>
          rw [hrestart, eq_comm, Bool.not_eq_false'] at hscratch
          rw [base, hscratch, if_pos rfl] at hfollows
          obtain ⟨-, -, hrecord, -⟩ := runLeg_scratch hd.betweenLegs.empty hrestart hleg
          have hone : Chained c ([] ++ [v'.leg]) := each_concat.mpr ⟨each_nil, hfollows⟩
          exact ⟨[v'.leg], by rw [hrecord, List.flatMap_singleton], hone⟩

/-- The archive is that of legs filed one after the other; the last record
has the number of the last leg. -/
def ArchivedBy (stamp : Stamp) (s : ArchiveState ρ) (d : RunFiles ρ) : Prop :=
  Reachable (archiving stamp) s ∧ s.files.output = d.output ∧
    (d.eceInfo = [] ∨ ∃ a, LastRecord d.eceInfo a ∧ a.legNumber = s.filings.length)

/-- One more leg. -/
theorem exists_archiveLeg {o : Output ρ} {s : ArchiveState ρ} (hs : Reachable (archiving stamp) s)
    (hboth : BothKinds o.files) : ∃ s', Reachable (archiving stamp) s' ∧
      s'.filings.length = s.filings.length + 1 ∧
      s'.files.output =
        archived (s.filings.length + 1) (fun f => o.files.lookup f) s.files.output :=
  ⟨_, .step o hs (archiveLeg_eq stamp s hboth), by simp, rfl⟩

/-- **The archive of a run that is never killed** is one that the archiving
loop can reach, leg after leg. -/
theorem Completed.exists_archivedBy (stamp : Stamp) (h : Completed c ifs d) :
    ∃ s, ArchivedBy stamp s d := by
  induction h with
  | empty => exact ⟨⟨[], .empty⟩, .init rfl, rfl, .inl rfl⟩
  | @leg d d' v v' hd hread hleg ih =>
      cases hrestart : v'.legIsRestart with
      | true =>
          obtain ⟨a, hlast, -, hplan⟩ := plan_of_restart hd.betweenLegs.recorded hread hrestart
          obtain ⟨s, hs, houtput, hrecord⟩ := ih
          have hnumber : v'.leg.legNumber = s.filings.length + 1 := by
            obtain ⟨b, hb, hbnumber⟩ := hrecord.resolve_left hlast.1
            rw [(planLeg_eq_ok hplan).1, ← hbnumber, hlast.unique hb]
            rfl
          rw [runLeg_restart hrestart] at hleg
          obtain ⟨s', hs', hlength, hfiled⟩ :=
            exists_archiveLeg hs (restartable_of_restartLeg hleg).bothKinds
          refine ⟨s', hs', ?_, .inr ⟨v'.leg, lastRecord_restartLeg hleg, hnumber.trans hlength.symm⟩⟩
          rw [hfiled, houtput, (restartLeg_spec hleg).2.2, hnumber]
      | false =>
          obtain ⟨hboth, -, hinfo, houtput, -⟩ :=
            runLeg_scratch hd.betweenLegs.empty hrestart hleg
          have hnumber := (dates_of_scratch (computeLeg_of_readLeg hread) hrestart).1
          have hinit : Reachable (archiving stamp) (⟨[], .empty⟩ : ArchiveState ρ) := .init rfl
          obtain ⟨s', hs', hlength, hfiled⟩ := exists_archiveLeg hinit hboth
          refine ⟨s', hs', ?_, .inr ⟨v'.leg, ?_, hnumber.trans hlength.symm⟩⟩
          · rw [hfiled, houtput, hnumber]
            rfl
          · rw [hinfo]
            exact lastRecord_recordLines

end ContainerHackathon.EcEarth
