import ContainerHackathon.EcEarth.Completion

/-!
# EcEarth.Recovery

The script killed between two commands of the post-processing of a leg, and
submitted again.  The leg is repeated: leftover month files are removed, the
model writes them again, and they are archived a second time.  A file that
was moved is overwritten by the same file, but what was appended to a file
of the leg before is appended once more (`recovery_iff`).  Behind the `mv`
of the restart files the leg cannot be repeated, as that `mv` fails.
-/

namespace ContainerHackathon.EcEarth

variable {ρ : Type*} {c : Config} {ifs : Ifs ρ} {lines : List InfoLine} {a leg : Leg}
  {d d' F : RunFiles ρ} {stamp : Stamp} {k m n : Nat} {f : MonthFile} {fs : List MonthFile}
  {written prv : MonthFile → Option (List ρ)} {o : Archive ρ} {cmds more : List Cmd}
  {p : List Cmd × RunFiles ρ}

/-! ## archiving a second time -/

/-- Archiving takes no file away. -/
theorem isSome_archived_only (f : MonthFile) :
    (archived (k + 1) (only fs written) o k f).isSome = (o k f).isSome := by
  simp only [archived, Nat.add_sub_cancel]
  cases only fs written f with
  | none => rfl
  | some content => cases o k f <;> simp

/-- What is moved again is moved to the same place. -/
theorem archived_again_of_ne (hn : n ≠ k) :
    archived (k + 1) written (archived (k + 1) (only fs written) o) n =
      archived (k + 1) written o n := by
  funext f
  have hprv : (archived (k + 1) (only fs written) o k f).isSome = _ := isSome_archived_only f
  simp only [archived, Nat.add_sub_cancel] at hprv ⊢
  cases hwritten : written f with
  | none => simp [only, hwritten]
  | some content =>
      simp only [hprv, if_neg hn]
      by_cases hfs : f ∈ fs
      · by_cases hsome : (o k f).isSome <;> by_cases hown : n = k + 1 <;>
          simp [only, hfs, hwritten, hsome, hown]
      · simp [only, hfs]

/-- What is already archived is archived again to the same place, if no
file of the leg before has grown. -/
theorem archived_again (hsame : archived (k + 1) (only fs written) o k = o k) :
    archived (k + 1) written (archived (k + 1) (only fs written) o) =
      archived (k + 1) written o := by
  funext n
  by_cases hn : n = k
  · subst hn
    exact archived_congr hsame hsame
  · exact archived_again_of_ne hn

/-- A file of the leg before that has grown grows again. -/
theorem archived_again_ne
    (hne : archived (k + 1) (only fs written) o k ≠ o k) :
    archived (k + 1) written (archived (k + 1) (only fs written) o) k ≠
      archived (k + 1) written o k := by
  obtain ⟨f, hf⟩ := Function.ne_iff.mp hne
  intro h
  apply hf
  have hgrown := congrFun h f
  simp only [archived, Nat.add_sub_cancel] at hgrown ⊢
  by_cases hfs : f ∈ fs
  · cases hwritten : written f with
    | none => simp [only, hwritten]
    | some content =>
        cases hprv : o k f with
        | none => simp [only, hfs, hwritten]
        | some old =>
            simp only [only, hfs, hwritten, hprv, if_true, Option.isSome_some, Option.getD_some,
              Option.some.injEq, List.append_assoc, List.append_cancel_left_eq] at hgrown ⊢
            simpa using hgrown
  · simp [only, hfs]

/-- The directory of the leg before is as it was if every file appended
there was empty. -/
theorem archived_only_prv_iff : archived (k + 1) (only fs written) o k = o k ↔
    ∀ f ∈ fs, (o k f).isSome → (written f).getD [] = [] := by
  rw [funext_iff]
  refine forall_congr' fun f => ?_
  simp only [archived, Nat.add_sub_cancel]
  by_cases hfs : f ∈ fs
  · cases hwritten : written f with
    | none => simp [only, hwritten]
    | some content => cases hprv : o k f <;> simp [only, hfs, hwritten]
  · simp [only, hfs]

/-! ## where the script can be killed -/

/-- The number of commands for a month file: the test, and `cat` and `rm`, or
`mv`. -/
def archiveSteps (prv : MonthFile → Option (List ρ)) (f : MonthFile) : Nat :=
  if (prv f).isSome then 3 else 2

/-- The number of commands of the archiving loop. -/
def loopSteps (prv : MonthFile → Option (List ρ)) (fs : List MonthFile) : Nat :=
  (fs.map (archiveSteps prv)).sum

/-- The month files whose `cat` or `mv` is among the first `n` commands of the
archiving loop. -/
def reached (prv : MonthFile → Option (List ρ)) : List MonthFile → Nat → List MonthFile
  | [], _ => []
  | f :: fs, n => if n < 2 then [] else f :: reached prv fs (n - archiveSteps prv f)

theorem reached_of_lt (h : n < 2) : reached prv fs n = [] := by
  cases fs with
  | nil => rfl
  | cons f fs => exact if_pos h

theorem mem_of_mem_reached (h : f ∈ reached prv fs n) : f ∈ fs := by
  induction fs generalizing n with
  | nil => cases h
  | cons g fs ih =>
      rw [reached] at h
      split at h
      · cases h
      · rcases List.mem_cons.mp h with rfl | h
        · exact List.mem_cons_self
        · exact List.mem_cons_of_mem g (ih h)

theorem reached_congr {prv' : MonthFile → Option (List ρ)}
    (h : ∀ f ∈ fs, archiveSteps prv' f = archiveSteps prv f) :
    reached prv' fs n = reached prv fs n := by
  induction fs generalizing n with
  | nil => rfl
  | cons f fs ih =>
      rw [reached, reached, h f List.mem_cons_self,
        ih fun g hg => h g (List.mem_cons_of_mem f hg)]

/-- What is archived does not change how the files behind it are archived. -/
theorem archiveSteps_afterFiles {g : MonthFile} (h : g ∉ [f]) :
    archiveSteps ((afterFiles k [f] d).output (k - 1)) g = archiveSteps (d.output (k - 1)) g := by
  simp [archiveSteps, afterFiles, archived, only, h]

/-- The script is killed in the first part of its commands or behind it. -/
theorem runSteps_append (h : runSteps k stamp n (cmds ++ more, d) = some p) :
    (∃ rest, runSteps k stamp n (cmds, d) = some (rest, p.2)) ∨
      ∃ m e, m ≤ n ∧ runSteps k stamp m (cmds, d) = some ([], e) ∧
        runSteps k stamp (n - m) (more, e) = some p := by
  induction n generalizing cmds d with
  | zero =>
      obtain rfl := Option.some.inj h
      exact .inl ⟨cmds, rfl⟩
  | succ n ih =>
      cases cmds with
      | nil => exact .inr ⟨0, d, Nat.zero_le _, rfl, h⟩
      | cons cmd cmds =>
          obtain ⟨q, hq, hrest⟩ := Option.bind_eq_some_iff.mp h
          rw [show q.1 ++ cmds.append more = (q.1 ++ cmds) ++ more from
            (List.append_assoc ..).symm] at hrest
          rcases ih hrest with ⟨rest, hrest⟩ | ⟨m, e, hmn, hm, hmore⟩
          · refine .inl ⟨rest, ?_⟩
            simp [runSteps, hq, hrest]
          · refine .inr ⟨m + 1, e, Nat.succ_le_succ hmn, ?_, by rwa [Nat.add_sub_add_right]⟩
            simp [runSteps, hq, hm]

/-- The month files `done` are archived. -/
def Archiving (k : Nat) (done : List MonthFile) (d e : RunFiles ρ) : Prop :=
  ∃ icm, e = { d with
    icm := icm
    output := archived k (only done fun f => d.icm.lookup f) d.output }

theorem archiving_nil : Archiving k [] d d := by
  refine ⟨d.icm, ?_⟩
  rw [archived_only_nil]

theorem Archiving.srf {e : RunFiles ρ} (h : Archiving k fs d e) : e.srf = d.srf := by
  obtain ⟨icm, rfl⟩ := h
  rfl

theorem Archiving.eceInfo {e : RunFiles ρ} (h : Archiving k fs d e) : e.eceInfo = d.eceInfo := by
  obtain ⟨icm, rfl⟩ := h
  rfl

theorem Archiving.output {e : RunFiles ρ} (h : Archiving k fs d e) :
    e.output = archived k (only fs fun f => d.icm.lookup f) d.output := by
  obtain ⟨icm, rfl⟩ := h
  rfl

/-- The files behind the first one are archived behind it. -/
theorem Archiving.cons {e : RunFiles ρ} (hf : f ∉ fs) (h : Archiving k fs (afterFiles k [f] d) e) :
    Archiving k (f :: fs) d e := by
  obtain ⟨icm, rfl⟩ := h
  have hfs : ∀ g ∈ fs, g ∉ [f] := fun g hg he => hf (List.mem_singleton.mp he ▸ hg)
  refine ⟨icm, ?_⟩
  rw [afterFiles, only_lookup_filter hfs, archived_only_cons _ hf]

/-- The script is killed in the commands for one file or behind them. -/
theorem runSteps_test {content : List ρ} (hcontent : d.icm.lookup f = some content)
    (h : runSteps k stamp n (.test f :: cmds, d) = some p) :
    n < archiveSteps (d.output (k - 1)) f ∧ p.1 ≠ [] ∧
        Archiving k (if n < 2 then [] else [f]) d p.2 ∨
      archiveSteps (d.output (k - 1)) f ≤ n ∧
        runSteps k stamp (n - archiveSteps (d.output (k - 1)) f) (cmds, afterFiles k [f] d) =
          some p := by
  rw [archiveSteps]
  cases n with
  | zero =>
      obtain rfl := Option.some.inj h
      exact .inl ⟨by split <;> omega, by simp, archiving_nil⟩
  | succ n =>
      by_cases hprv : (d.output (k - 1) f).isSome
      · rw [if_pos hprv]
        rw [runSteps, exec, if_pos hprv, Option.bind_some] at h
        cases n with
        | zero =>
            obtain rfl := Option.some.inj h
            exact .inl ⟨by omega, by simp, archiving_nil⟩
        | succ n =>
            rw [List.cons_append, runSteps, exec_cat hcontent hprv, Option.bind_some] at h
            cases n with
            | zero =>
                -- killed between `cat` and `rm`
                obtain rfl := Option.some.inj h
                exact .inl ⟨by omega, by simp, d.icm, rfl⟩
            | succ n =>
                rw [List.nil_append, List.cons_append, runSteps, exec_rm, Option.bind_some] at h
                exact .inr ⟨by omega, h⟩
      · rw [if_neg hprv]
        rw [runSteps, exec, if_neg hprv, Option.bind_some] at h
        cases n with
        | zero =>
            obtain rfl := Option.some.inj h
            exact .inl ⟨by omega, by simp, archiving_nil⟩
        | succ n =>
            rw [List.cons_append, runSteps, exec_mv hcontent hprv, Option.bind_some] at h
            exact .inr ⟨by omega, h⟩

/-- The script is killed in the archiving loop. -/
theorem runSteps_tests (hnodup : fs.Nodup) (hfs : ∀ f ∈ fs, (d.icm.lookup f).isSome)
    (h : runSteps k stamp n (fs.map .test, d) = some p) :
    Archiving k (reached (d.output (k - 1)) fs n) d p.2 ∧
      n ≤ loopSteps (d.output (k - 1)) fs ∧
        (p.1 = [] → loopSteps (d.output (k - 1)) fs ≤ n) := by
  induction fs generalizing d n with
  | nil =>
      cases n with
      | zero =>
          obtain rfl := Option.some.inj h
          exact ⟨archiving_nil, Nat.le_refl 0, fun _ => Nat.le_refl 0⟩
      | succ n => cases h
  | cons f fs ih =>
      obtain ⟨hf, hnodup⟩ := List.nodup_cons.mp hnodup
      obtain ⟨content, hcontent⟩ := Option.isSome_iff_exists.mp (hfs f (by simp))
      have hsum : loopSteps (d.output (k - 1)) (f :: fs) =
          archiveSteps (d.output (k - 1)) f + loopSteps (d.output (k - 1)) fs := List.sum_cons
      rcases runSteps_test hcontent h with ⟨hlt, hne, harch⟩ | ⟨hle, hrun⟩
      · refine ⟨?_, by omega, fun hnil => absurd hnil hne⟩
        rwa [reached, Nat.sub_eq_zero_of_le (Nat.le_of_lt hlt), reached_of_lt Nat.zero_lt_two]
      · have hne : ∀ g ∈ fs, g ∉ [f] := fun g hg he => hf (List.mem_singleton.mp he ▸ hg)
        have hrest : ∀ g ∈ fs, ((afterFiles k [f] d).icm.lookup g).isSome := by
          intro g hg
          rw [lookup_afterFiles (hne g hg)]
          exact hfs g (List.mem_cons_of_mem f hg)
        have hsteps : ∀ g ∈ fs, archiveSteps ((afterFiles k [f] d).output (k - 1)) g =
            archiveSteps (d.output (k - 1)) g := fun g hg => archiveSteps_afterFiles (hne g hg)
        have hloop : loopSteps ((afterFiles k [f] d).output (k - 1)) fs =
            loopSteps (d.output (k - 1)) fs := congrArg List.sum (List.map_congr_left hsteps)
        have htwo : ¬ n < 2 := by
          rw [archiveSteps] at hle
          split at hle <;> omega
        obtain ⟨harch, hupper, hlower⟩ := ih hnodup hrest hrun
        rw [reached_congr hsteps] at harch
        rw [hloop] at hupper hlower
        refine ⟨?_, by omega, fun hnil => by have := hlower hnil; omega⟩
        rw [reached, if_neg htwo]
        exact harch.cons fun hmem => hf (mem_of_mem_reached hmem)

/-- The script is killed while it appends to `ece.info`. -/
theorem runSteps_echo (h : runSteps k stamp n (lines.map .echo, d) = some p) :
    p = ((lines.drop n).map .echo, { d with eceInfo := d.eceInfo ++ lines.take n }) := by
  induction n generalizing lines d with
  | zero =>
      obtain rfl := Option.some.inj h
      simp
  | succ n ih =>
      cases lines with
      | nil => cases h
      | cons line lines =>
          rw [List.map_cons, runSteps, exec, Option.bind_some, List.nil_append] at h
          rw [ih h]
          simp

/-- The restart files of the leg are moved, and its record is not complete
before the last command. -/
structure SrfMoved (stamp : Stamp) (leg : Leg) (lines : List InfoLine)
    (p : List Cmd × RunFiles ρ) : Prop where
  srf : p.2.srf stamp = []
  record : p.1 = [] ∨ ∃ n < (recordLines leg).length,
    p.2.eceInfo = lines ++ (recordLines leg).take n

/-- The script is killed behind the `mv` of the restart files. -/
theorem runSteps_afterSrf (hsrf : d.srf stamp = [])
    (h : runSteps k stamp n (.cpRcf :: (recordLines leg).map .echo, d) = some p) :
    SrfMoved stamp leg d.eceInfo p := by
  cases n with
  | zero =>
      obtain rfl := Option.some.inj h
      exact ⟨hsrf, .inr ⟨0, by simp [recordLines], by simp⟩⟩
  | succ n =>
      have hcp : ∃ e : RunFiles ρ, exec k stamp .cpRcf d = some ([], e) ∧ e.srf = d.srf ∧
          e.eceInfo = d.eceInfo := by
        rw [exec]
        cases d.rcf with
        | none => exact ⟨d, rfl, rfl, rfl⟩
        | some content => exact ⟨_, rfl, rfl, rfl⟩
      obtain ⟨e, he, hesrf, heinfo⟩ := hcp
      rw [runSteps, he, Option.bind_some, List.nil_append] at h
      obtain rfl := runSteps_echo h
      refine ⟨by rw [← hsrf, ← hesrf], ?_⟩
      by_cases hn : n < (recordLines leg).length
      · exact .inr ⟨n, hn, by rw [← heinfo]⟩
      · refine .inl ?_
        rw [List.drop_eq_nil_of_le (by omega), List.map_nil]

/-- The month files in the order of the archiving loop. -/
def monthFiles (icm : List (MonthFile × List ρ)) : List MonthFile := names .sh icm ++ names .gg icm

/-- **Where the script can be killed**: in the archiving loop or at its end,
with the month files archived that it has reached, or behind the `mv` of the
restart files. -/
theorem archiving_or_srfMoved (hnodup : (d.icm.map Prod.fst).Nodup) (hboth : BothKinds d.icm)
    (hsrf : d.srf stamp ≠ [])
    (h : runSteps k stamp n (postprocess leg true d, d) = some p) :
    n ≤ loopSteps (d.output (k - 1)) (monthFiles d.icm) ∧
        Archiving k (reached (d.output (k - 1)) (monthFiles d.icm) n) d p.2 ∨
      loopSteps (d.output (k - 1)) (monthFiles d.icm) < n ∧ SrfMoved stamp leg d.eceInfo p := by
  have hglob : globIcm d.icm = (monthFiles d.icm).map .test := by
    rw [globIcm_eq, if_neg (names_ne_nil.mpr (hboth .sh)), if_neg (names_ne_nil.mpr (hboth .gg)),
      monthFiles, List.map_append]
  have hlookup : ∀ f ∈ monthFiles d.icm, (d.icm.lookup f).isSome :=
    fun f hf => lookup_isSome.mpr (mem_names_append.mp hf)
  rw [postprocess, if_pos rfl, List.append_assoc, List.append_assoc, hglob] at h
  rcases runSteps_append h with ⟨rest, hrun⟩ | ⟨m, e, hmn, hrun, htail⟩
  · obtain ⟨harch, hupper, -⟩ := runSteps_tests (nodup_names hnodup) hlookup hrun
    exact .inl ⟨hupper, harch⟩
  · obtain ⟨harch, hupper, hlower⟩ := runSteps_tests (nodup_names hnodup) hlookup hrun
    have hloop : loopSteps (d.output (k - 1)) (monthFiles d.icm) = m :=
      Nat.le_antisymm (hlower rfl) hupper
    cases hnm : n - m with
    | zero =>
        obtain rfl : m = n := by omega
        rw [hnm] at htail
        obtain rfl := Option.some.inj htail
        exact .inl ⟨hupper, harch⟩
    | succ i =>
        have hmoved : exec k stamp .mvSrf e = some ([], e.moveSrf k stamp) := by
          rw [exec, if_neg]
          rw [harch.srf]
          exact hsrf
        have hinfo : (e.moveSrf k stamp).eceInfo = d.eceInfo := by
          rw [moveSrf_eq, ← harch.eceInfo]
        have hempty : (e.moveSrf k stamp).srf stamp = [] := by
          rw [moveSrf_eq]
          simp
        rw [hnm, List.singleton_append, runSteps, hmoved, Option.bind_some, List.nil_append] at htail
        have hcut := runSteps_afterSrf hempty htail
        exact .inr ⟨by omega, hcut.srf, hinfo ▸ hcut.record⟩

/-! ## the leg repeated -/

theorem overwrite_overwrite {ν β : Type*} [DecidableEq ν] (new old : List (ν × β)) :
    overwrite new (overwrite new old) = overwrite new old := by
  have hnew : new.filter (fun x => x.1 ∉ new.map Prod.fst) = [] :=
    List.filter_eq_nil_iff.mpr fun x hx => by simpa using ⟨x.2, hx⟩
  rw [overwrite, overwrite, List.filter_append, hnew, List.nil_append, List.filter_filter]
  simp

/-- Repeating a leg whose month files are partly archived starts from the
files that the leg started from, but for the archive. -/
theorem relaunched_archiving {e : RunFiles ρ} (h : Archiving k fs (relaunched c ifs leg d) e) :
    relaunched c ifs leg e = relaunched c ifs leg { d with output := e.output } := by
  obtain ⟨icm, rfl⟩ := h
  have hrcf : (ifs.rcf leg).or ((ifs.rcf leg).or d.rcf) = (ifs.rcf leg).or d.rcf := by
    cases ifs.rcf leg <;> rfl
  simp [relaunched, launch, removeLeftovers, overwrite_overwrite, hrcf]

/-- The restart files for the start of a leg are not those it writes. -/
theorem nd_ne_stampOf (hstart : c.runStartDate ≤ leg.legStartDate)
    (hpositive : leg.legStartDate < leg.legEndDate) : nd c leg ≠ stampOf c leg.legEndDate := by
  intro h
  obtain ⟨hday, hsecond⟩ := Stamp.mk.injEq .. ▸ h
  rw [Int.tdiv_eq_ediv_of_nonneg (by omega)] at hday
  omega

/-- Behind the `mv` of its restart files a leg cannot be repeated. -/
theorem not_finishes_of_srfMoved {e : RunFiles ρ} (hlast : LastRecord lines a)
    (hstart : c.runStartDate ≤ a.legEndDate) (hplan : planLeg c a = .ok leg)
    (hsrf : e.srf (nd c leg) = []) (hn : n < (recordLines leg).length)
    (hinfo : e.eceInfo = lines ++ (recordLines leg).take n) : ¬ Finishes c ifs e F := by
  intro h
  obtain ⟨b, hb, hend⟩ := lastRecord_take leg hlast hn
  rw [← hinfo] at hb
  have hplan' := planLeg_renumber hend hplan
  obtain ⟨hleg, hpositive⟩ := planLeg_eq_ok hplan
  cases h with
  | done hlast' hnothing =>
      rw [hlast'.unique hb, hplan'] at hnothing
      cases hnothing
  | leg hlast' hplan'' hrun =>
      rw [hlast'.unique hb, hplan'] at hplan''
      obtain rfl := Except.ok.inj hplan''
      refine (restartable_of_restartLeg hrun).srf ?_
      have hne : nd c leg ≠ stampOf c leg.legEndDate := by
        refine nd_ne_stampOf ?_ ?_
        · rw [hleg]
          exact hstart
        · rw [show leg.legStartDate = a.legEndDate by rw [hleg]; rfl]
          exact hpositive
      exact (Function.update_of_ne hne _ _).trans hsrf

/-- The leg repeated does what it did, but on the archive as it is now. -/
theorem restartLeg_archiving {e : RunFiles ρ}
    (h : Archiving k fs (relaunched c ifs leg d) e) :
    restartLeg c ifs leg e = (restartLeg c ifs leg d).map fun d' =>
      { d' with output :=
          archived leg.legNumber (fun f => (ifs.output leg).files.lookup f) e.output } := by
  rw [restartLeg, relaunched_archiving h, ← restartLeg, restartLeg_output]

/-- The records of `ece.info`. -/
def records (lines : List InfoLine) : List InfoLine := lines.filter (· ≠ .comment)

/-- What a run leaves is what it should leave. -/
def SameResult (F G : RunFiles ρ) : Prop :=
  G.output = F.output ∧ G.restart = F.restart ∧ records G.eceInfo = records F.eceInfo

/-! ## a leg interrupted -/

/-- A leg behind the first, in a run that was not killed before, and a point
of its post-processing at which the script is killed. -/
structure Interruption (c : Config) (ifs : Ifs ρ) where
  /-- The files before the leg. -/
  before : RunFiles ρ
  /-- The variables at the head of the loop. -/
  vars : Vars
  /-- The variables with the dates of the leg. -/
  legVars : Vars
  /-- The files when the model has finished. -/
  model : RunFiles ρ
  /-- The number of commands behind the model. -/
  point : Nat
  /-- The commands left and the files when the script is killed. -/
  killed : List Cmd × RunFiles ρ
  /-- The files after the leg, had the script not been killed. -/
  after : RunFiles ρ
  /-- The files after the run, had the script not been killed. -/
  final : RunFiles ρ
  completed : Completed c ifs before
  computed : readLeg c before.eceInfo vars = .ok legVars
  restart : legVars.legIsRestart = true
  finished : finishModel c ifs legVars before = some model
  cut : runSteps legVars.leg.legNumber (nd c legVars.leg) point
    (postprocess legVars.leg legVars.legIsRestart model, model) = some killed
  goesOn : runLeg c ifs legVars before = some after
  completes : Completes c ifs after final

namespace Interruption

variable (i : Interruption c ifs)

theorem plan : ∃ a, LastRecord i.before.eceInfo a ∧ c.runStartDate ≤ a.legEndDate ∧
    planLeg c a = .ok i.legVars.leg :=
  plan_of_restart i.completed.betweenLegs.recorded i.computed i.restart

theorem model_eq : i.model = relaunched c ifs i.legVars.leg i.before := by
  have h := i.finished
  rw [finishModel, if_pos i.restart] at h
  exact (Option.some.inj h).symm

theorem restartLeg_before : restartLeg c ifs i.legVars.leg i.before = some i.after :=
  runLeg_restart i.restart ▸ i.goesOn

theorem finishes : Finishes c ifs i.after i.final :=
  (completes_iff (lastRecord_restartLeg i.restartLeg_before)).mp i.completes

/-- Going on with the commands that are left. -/
theorem runCmds_killed :
    runCmds i.legVars.leg.legNumber (nd c i.legVars.leg) i.killed.1 i.killed.2 = some i.after := by
  have h := runCmds_runSteps i.cut
  rw [i.restart, i.model_eq] at h
  exact h.trans i.restartLeg_before

/-- `output/ifs/${prv_leg}`, before the leg. -/
def prvDir : MonthFile → Option (List ρ) := i.before.output (i.legVars.leg.legNumber - 1)

/-- The month files of the leg, in the order of the archiving loop. -/
def legFiles : List MonthFile := monthFiles (ifs.output i.legVars.leg).files

/-- A `cat` was executed, of a file with records. -/
def CatExecuted : Prop :=
  ∃ f ∈ reached i.prvDir i.legFiles i.point,
    (i.prvDir f).isSome ∧ ((ifs.output i.legVars.leg).files.lookup f).getD [] ≠ []

/-- The `mv` of the restart files, which is behind the archiving loop, was
executed. -/
def MvSrfExecuted : Prop := loopSteps i.prvDir i.legFiles < i.point

instance : Decidable i.CatExecuted :=
  inferInstanceAs (Decidable (∃ f ∈ reached i.prvDir i.legFiles i.point,
    (i.prvDir f).isSome ∧ ((ifs.output i.legVars.leg).files.lookup f).getD [] ≠ []))

instance : Decidable i.MvSrfExecuted :=
  inferInstanceAs (Decidable (loopSteps i.prvDir i.legFiles < i.point))

theorem killed_cases :
    ¬ i.MvSrfExecuted ∧ Archiving i.legVars.leg.legNumber
        (reached i.prvDir i.legFiles i.point) i.model i.killed.2 ∨
      i.MvSrfExecuted ∧
        SrfMoved (nd c i.legVars.leg) i.legVars.leg i.before.eceInfo i.killed := by
  have h := i.cut
  have hrestartable := restartable_of_restartLeg i.restartLeg_before
  rw [i.restart, i.model_eq] at h
  have hcases := archiving_or_srfMoved (relaunched_icm ▸ (ifs.output i.legVars.leg).nodup)
    (relaunched_icm ▸ hrestartable.bothKinds) hrestartable.srf h
  rw [relaunched_icm] at hcases
  rw [MvSrfExecuted, not_lt, i.model_eq]
  exact hcases

end Interruption

/-- Killed before the restart files are moved, the leg is repeated.  The run
completes, and the archive of the leg before keeps what it has grown to. -/
theorem exists_completes_of_archiving {e d₃ : RunFiles ρ} (hlast : LastRecord d.eceInfo a)
    (hplan : planLeg c a = .ok leg) (hleg : restartLeg c ifs leg d = some d₃)
    (hF : Finishes c ifs d₃ F) (h : Archiving leg.legNumber fs (relaunched c ifs leg d) e) :
    ∃ G, Completes c ifs e G ∧
      (e.output a.legNumber = d.output a.legNumber ↔ SameResult F G) := by
  obtain ⟨rfl, -⟩ := planLeg_eq_ok hplan
  have hrepeat : restartLeg c ifs (legBehind c a) e = some
      { d₃ with
        output := archived (a.legNumber + 1)
          (fun f => (ifs.output (legBehind c a)).files.lookup f) e.output } := by
    rw [restartLeg_archiving h, hleg]
    rfl
  have hspec : d₃.output = archived (a.legNumber + 1)
      (fun f => (ifs.output (legBehind c a)).files.lookup f) d.output :=
    (restartLeg_spec hleg).2.2
  have hlastd := lastRecord_restartLeg hleg
  have hlaste : LastRecord e.eceInfo a := h.eceInfo ▸ hlast
  have houtput := h.output
  rw [relaunched_icm] at houtput
  by_cases hsame : e.output a.legNumber = d.output a.legNumber
  · have hagain : archived (a.legNumber + 1)
        (fun f => (ifs.output (legBehind c a)).files.lookup f) e.output = d₃.output := by
      rw [hspec, houtput]
      exact archived_again (houtput ▸ hsame)
    rw [hagain] at hrepeat
    have hG : Completes c ifs e F := (completes_iff hlaste).mpr (.leg hlaste hplan hrepeat hF)
    exact ⟨F, hG, iff_of_true hsame ⟨rfl, rfl, rfl⟩⟩
  · have hagree : AgreeFrom (a.legNumber + 1) d₃
        { d₃ with
          output := archived (a.legNumber + 1)
            (fun f => (ifs.output (legBehind c a)).files.lookup f) e.output } := by
      refine ⟨rfl, fun n hn => ?_⟩
      rw [hspec, houtput]
      exact archived_again_of_ne (by omega)
    obtain ⟨G, hG⟩ := hF.agree hlastd hagree
    refine ⟨G, (completes_iff hlaste).mpr (.leg hlaste hplan hrepeat hG), iff_of_false hsame ?_⟩
    -- no later leg touches the file that has grown
    intro hresult
    have hlevel := congrFun hresult.1 a.legNumber
    rw [hG.frame (a := legBehind c a) hlastd (Nat.lt_succ_self _),
      hF.frame hlastd (Nat.lt_succ_self _), hspec] at hlevel
    simp only [houtput] at hlevel hsame
    exact archived_again_ne hsame hlevel

namespace Interruption

variable (i : Interruption c ifs)

/-- Without a `cat` of records the directory of the leg before is as it
was. -/
theorem output_prv_iff (hplan : planLeg c a = .ok i.legVars.leg)
    (h : Archiving i.legVars.leg.legNumber (reached i.prvDir i.legFiles i.point) i.model
      i.killed.2) :
    i.killed.2.output a.legNumber = i.before.output a.legNumber ↔ ¬ i.CatExecuted := by
  have hnumber : i.legVars.leg.legNumber = a.legNumber + 1 := by
    rw [(planLeg_eq_ok hplan).1]
    rfl
  have hprv : i.prvDir = i.before.output a.legNumber := by
    rw [prvDir, hnumber, Nat.add_sub_cancel]
  have houtput := h.output
  rw [i.model_eq, relaunched_icm, hnumber] at houtput
  rw [CatExecuted, houtput]
  refine archived_only_prv_iff.trans ?_
  simp only [hprv, not_exists, not_and, not_not]
  rfl

/-- Killed in the archiving loop. -/
theorem of_archiving
    (h : Archiving i.legVars.leg.legNumber (reached i.prvDir i.legFiles i.point) i.model
      i.killed.2) :
    ∃ G, Completes c ifs i.killed.2 G ∧
      (∀ G', Completes c ifs i.killed.2 G' → G' = G) ∧
      (¬ i.CatExecuted ↔ SameResult i.final G) := by
  obtain ⟨a, hlast, -, hplan⟩ := i.plan
  rw [← i.output_prv_iff hplan h]
  rw [i.model_eq] at h
  have hlastKilled : LastRecord i.killed.2.eceInfo a := h.eceInfo ▸ hlast
  obtain ⟨G, hG, hresult⟩ :=
    exists_completes_of_archiving hlast hplan i.restartLeg_before i.finishes h
  exact ⟨G, hG, fun G' hG' => hG'.unique hlastKilled hG, hresult⟩

/-- Killed behind the `mv` of the restart files: at the end of the leg, or
for good. -/
theorem of_srfMoved
    (h : SrfMoved (nd c i.legVars.leg) i.legVars.leg i.before.eceInfo i.killed) :
    i.killed.1 = [] ∧ i.killed.2 = i.after ∨
      i.killed.1 ≠ [] ∧ ∀ G, ¬ Completes c ifs i.killed.2 G := by
  obtain ⟨a, hlast, hstart, hplan⟩ := i.plan
  by_cases hnil : i.killed.1 = []
  · have hafter := i.runCmds_killed
    rw [hnil, runCmds_nil] at hafter
    exact .inl ⟨hnil, Option.some.inj hafter⟩
  · obtain ⟨n, hn, hinfo⟩ := h.record.resolve_left hnil
    obtain ⟨b, hb, -⟩ := lastRecord_take i.legVars.leg hlast hn
    refine .inr ⟨hnil, fun G hG => ?_⟩
    have hfinishes := (completes_iff (hinfo ▸ hb)).mp hG
    exact not_finishes_of_srfMoved hlast hstart hplan h.srf hn hinfo hfinishes

end Interruption

/-- **Recovery.**  When a leg is killed in its post-processing and the script
is submitted again and runs to completion, it leaves what the run that was
never killed leaves, exactly if no records were appended to a file of the
leg before, or the restart files of the leg were moved already. -/
theorem recovery_iff (i : Interruption c ifs) :
    (∀ G, Completes c ifs i.killed.2 G → SameResult i.final G) ↔
      ¬ i.CatExecuted ∨ i.MvSrfExecuted := by
  rcases i.killed_cases with ⟨hmv, harch⟩ | ⟨hmv, hmoved⟩
  · obtain ⟨G, hG, hunique, hresult⟩ := i.of_archiving harch
    rw [or_iff_left hmv, hresult]
    constructor
    · intro h
      exact h G hG
    · intro h G' hG'
      rw [hunique G' hG']
      exact h
  · refine iff_of_true (fun G hG => ?_) (.inr hmv)
    rcases i.of_srfMoved hmoved with ⟨-, hafter⟩ | ⟨-, hnot⟩
    · rw [hafter] at hG
      rw [hG.unique (lastRecord_restartLeg i.restartLeg_before) i.completes]
      exact ⟨rfl, rfl, rfl⟩
    · exact absurd hG (hnot G)

/-- The script runs to completion again unless it was killed between the
`mv` of the restart files and the end of the leg. -/
theorem completes_again_iff (i : Interruption c ifs) :
    (∃ G, Completes c ifs i.killed.2 G) ↔ ¬ i.MvSrfExecuted ∨ i.killed.1 = [] := by
  rcases i.killed_cases with ⟨hmv, harch⟩ | ⟨hmv, hmoved⟩
  · obtain ⟨G, hG, -⟩ := i.of_archiving harch
    exact iff_of_true ⟨G, hG⟩ (.inl hmv)
  · rw [or_iff_right (not_not.mpr hmv)]
    rcases i.of_srfMoved hmoved with ⟨hnil, hafter⟩ | ⟨hne, hnot⟩
    · exact iff_of_true ⟨i.final, hafter ▸ i.completes⟩ hnil
    · exact iff_of_false (fun h => h.elim hnot) hne

/-- Two legs of a day in one month. -/
def twoDays : Config where
  runStartDate := 0
  runEndDate := 172800
  rstFreq := "1 day"
  dateAdd date _ := date + 86400
  lpjg := false
  isNewYear _ := false

/-- Every leg writes its number. -/
def twoDaysIfs : Ifs Nat where
  output leg := oneRecord leg.legNumber
  restart leg := [("0001", [leg.legNumber])]
  rcf leg := some [leg.legNumber]

/-- The variables of the second leg. -/
def secondDay : Vars := restartVars twoDays ⟨1, 0, 86400⟩ (.init 1 false)

theorem eq_some_getD {β : Type*} {x : Option β} (b : β) (h : x.isSome) : x = some (x.getD b) := by
  cases x with
  | none => cases h
  | some y => rfl

/-- The files after the first leg. -/
def firstDay : RunFiles Nat := (runLegs twoDays twoDaysIfs 1 (.init 1 false) .empty).getD .empty

/-- The files when the model has finished the second leg. -/
def secondDayModel : RunFiles Nat := relaunched twoDays twoDaysIfs secondDay.leg firstDay

/-- The files after the second leg. -/
def bothDays : RunFiles Nat := (runLeg twoDays twoDaysIfs secondDay firstDay).getD .empty

/-- What is left when the script is killed behind `n` commands. -/
def killedBehind (n : Nat) : Option (List Cmd × RunFiles Nat) :=
  runSteps 2 (nd twoDays secondDay.leg) n
    (postprocess secondDay.leg true secondDayModel, secondDayModel)

/-- The script is killed in the second leg, behind `n` commands. -/
def killedInSecondDay (n : Nat) (h : (killedBehind n).isSome) : Interruption twoDays twoDaysIfs where
  before := firstDay
  vars := .init 1 false
  legVars := secondDay
  model := secondDayModel
  point := n
  killed := (killedBehind n).getD ([], .empty)
  after := bothDays
  final := bothDays
  completed := Completed.empty.runLegs (eq_some_getD _ rfl)
  computed := rfl
  restart := rfl
  finished := rfl
  cut := eq_some_getD _ h
  goesOn := eq_some_getD _ rfl
  completes := ⟨0, rfl, rfl⟩

/-- Killed before the first `cat`, the run recovers. -/
theorem recovery_iff_beforeCat : (killedInSecondDay 1 rfl).killed.1.head? = some (.cat ⟨.sh, 201001⟩) ∧
    ∀ G, Completes twoDays twoDaysIfs (killedInSecondDay 1 rfl).killed.2 G →
      SameResult (killedInSecondDay 1 rfl).final G :=
  ⟨rfl, (recovery_iff (killedInSecondDay 1 rfl)).mpr (.inl (by decide))⟩

/-- The files when the script was killed between `cat` and `rm` and is
submitted again. -/
def bothDaysAgain : RunFiles Nat :=
  (runLegs twoDays twoDaysIfs 1 (.init 1 false) (killedInSecondDay 2 rfl).killed.2).getD .empty

/-- The records of the second leg are appended twice. -/
theorem appended_twice :
    (killedInSecondDay 2 rfl).killed.1.head? = some (.rm ⟨.sh, 201001⟩) ∧
    Completes twoDays twoDaysIfs (killedInSecondDay 2 rfl).killed.2 bothDaysAgain ∧
    (killedInSecondDay 2 rfl).final.output 1 ⟨.sh, 201001⟩ = some [1, 2] ∧
    bothDaysAgain.output 1 ⟨.sh, 201001⟩ = some [1, 2, 2] ∧
    ¬ SameResult (killedInSecondDay 2 rfl).final bothDaysAgain := by
  have hfinal : (killedInSecondDay 2 rfl).final.output 1 ⟨.sh, 201001⟩ = some [1, 2] := rfl
  have hagain : bothDaysAgain.output 1 ⟨.sh, 201001⟩ = some [1, 2, 2] := rfl
  refine ⟨rfl, ⟨1, eq_some_getD _ rfl, rfl⟩, hfinal, hagain, fun hsame => ?_⟩
  rw [hsame.1, hfinal] at hagain
  simp at hagain

end ContainerHackathon.EcEarth
