import ContainerHackathon.Lib.Interleaving
import ContainerHackathon.PyStager.FileLevel
import ContainerHackathon.PyStager.WorkerJob

/-!
# PyStager.Staging

The protocol together with the files its workers' commands work on, at load
level 1.  Whatever the interleaving, the files are those that the processed
jobs leave one after the other, each worker's in its own order
(`staged_of_reachable`); and when the master is done these are all jobs
(`schedule_of_done`).  So a run that stages the files in every schedule has
staged them when the master is done (`files_arrive`).
-/

namespace ContainerHackathon.PyStager

open Transition Interleaving PathString FileTree

/-- The run and the files. -/
structure StagingState where
  run : State
  files : Fs

/-- The job whose `rsync` a step runs, with its worker. -/
def commandOf (c : Config) (m : Move) (s : State) : Option (Nat × String) :=
  match m with
  | .master _ => none
  | .worker w =>
      match s.worker w with
      | .job jobList jobCount =>
          if c.params.rsyncStatus = 1 then jobList[jobCount]?.map fun job => (w, job) else none
      | _ => none

/-- The protocol at load level 1, where no job raises; `command` is what the
command of a job does. -/
def staging (c : Config) (command : Fs → String → Fs) (files : Fs) : System StagingState Move where
  init s := s = ⟨initState, files⟩
  step m s := (step c m s.run).map fun run =>
    ⟨run, (commandOf c m s.run).elim s.files fun x => command s.files x.2⟩

variable {c : Config} {command : Fs → String → Fs} {files : Fs} {s : StagingState}

/-- The names of the jobs that every rank has processed. -/
def State.names (s : State) (w : Nat) : List String := (s.processed w).map Job.name

theorem raises_eq_none (hlevel : c.params.loadLevel = .file) (w k : Nat) : c.raises w k = none := by
  simp [Config.raises, hlevel]

/-- The master processes nothing. -/
theorem processed_of_masterStep {source : Nat} {t t' : State} (h : masterStep c source t = some t') :
    t'.processed = t.processed := by
  unfold masterStep State.receive at h
  grind

/-- The command of a step is that of the job it records. -/
theorem names_of_step (hlevel : c.params.loadLevel = .file) (hrsync : c.params.rsyncStatus = 1)
    {m : Move} {t t' : State} (h : step c m t = some t') : t'.names =
      (commandOf c m t).elim t.names fun x => Function.update t.names x.1 (t.names x.1 ++ [x.2]) := by
  cases m with
  | master source =>
      funext v
      simp [commandOf, State.names, processed_of_masterStep h]
  | worker w =>
      simp only [step] at h
      split at h
      · next hw =>
        unfold workerStep at h
        unfold commandOf
        funext v
        cases hc : t.worker w with
        | job jobs k =>
            simp only [hc, hrsync, if_true] at h ⊢
            cases hj : jobs[k]? with
            | none =>
                rw [hj] at h
                obtain rfl := Option.some.inj h
                simp [State.names]
            | some job =>
                simp only [hj, raises_eq_none hlevel] at h
                obtain rfl := Option.some.inj h
                by_cases hv : v = w
                · subst hv
                  simp [State.names, processJob]
                · simp [State.names, hv]
        | recv =>
            simp only [hc] at h ⊢
            split at h
            · cases h
            · split at h <;> obtain rfl := Option.some.inj h <;> simp [State.names]
        | check | reportIdle | report =>
            simp only [hc] at h ⊢
            obtain rfl := Option.some.inj h
            simp [State.names]
        | finished | exit1 | raised => simp [hc] at h
      · cases h

/-- The files are those that the processed jobs leave one after the other. -/
structure Staged (c : Config) (command : Fs → String → Fs) (files : Fs) (s : StagingState) : Prop where
  reachable : Reachable (system c) s.run
  order : ∃ order, Interleaves order s.run.names ∧
    s.files = (order.map Prod.snd).foldl command files

variable (command files) in
/-- Every step of the protocol is one of the run with files. -/
theorem steps_staging {t : State} (h : Steps (system c) s.run t) :
    ∃ files', Steps (staging c command files) s ⟨t, files'⟩ := by
  induction h with
  | refl => exact ⟨s.files, .refl⟩
  | tail _ hstep ih =>
      obtain ⟨files', hsteps⟩ := ih
      obtain ⟨m, hm⟩ := hstep
      exact ⟨_, hsteps.tail ⟨m, Option.map_eq_some_iff.mpr ⟨_, hm, rfl⟩⟩⟩

/-- **The files of a run**: whatever the interleaving, they come from the
processed jobs in some order that keeps every worker's. -/
theorem staged_of_reachable (hlevel : c.params.loadLevel = .file) (hrsync : c.params.rsyncStatus = 1)
    (h : Reachable (staging c command files) s) : Staged c command files s := by
  refine h.invariant (I := Staged c command files) ?_ ?_
  · rintro s rfl
    exact ⟨.init rfl, [], interleaves_nil, rfl⟩
  · intro s m s' _ ih hstep
    obtain ⟨order, horder, hfiles⟩ := ih.order
    obtain ⟨t, ht, rfl⟩ := Option.map_eq_some_iff.mp hstep
    refine ⟨.step m ih.reachable ht, ?_⟩
    dsimp only
    rw [names_of_step hlevel hrsync ht]
    cases commandOf c m s.run with
    | none => exact ⟨order, horder, hfiles⟩
    | some x => exact ⟨order ++ [(x.1, x.2)], horder.concat x.1 x.2, by simp [hfiles]⟩

/-! ## the end of the run -/

/-- A run at load level 1 that calls `rsync`: every rank sees the source,
`directory_scanner` is that of the given directories, and
`data_structure_builder` returns. -/
structure Config.FileRun (c : Config) (os : Os) : Prop where
  ranks : 2 ≤ c.p
  level : c.params.loadLevel = .file
  copies : c.params.rsyncStatus = 1
  master : c.MasterRuns os none
  free : ∀ item ∈ c.items, ';' ∉ item.toList
  sees : ∀ r < c.p, c.sees r = true

section done

variable {os : Os} {scan : ScanResult} {transferDict : TransferDict} (hc : c.FileRun os)
  (hscan : directoryScanner os c.params.sourceDir .file = .ok scan)
  (hdict : loadDistributor scan .file c.p = .ok transferDict)

include hc hscan

theorem Config.FileRun.scan_eq : c.scan = scan ∧ c.masterRaises = none := by
  have hmaster := hc.master
  rw [Config.MasterRuns, hc.level, hscan] at hmaster
  exact hmaster

theorem Config.FileRun.total : c.scan.total c.params.loadLevel = c.items.length := by
  obtain ⟨size, -, hresult⟩ := except_bind_eq_ok hscan
  rw [Config.items, hc.level, (hc.scan_eq hscan).1, ← Except.ok.inj hresult]
  rfl

omit hscan in
theorem Config.FileRun.quiet : c.Quiet := fun w _ _ k _ => raises_eq_none hc.level w k

theorem Config.FileRun.starts : c.Starts :=
  ⟨hc.sees 0 (by have := hc.ranks; omega), (hc.scan_eq hscan).2, (hc.total hscan).le⟩

/-- Every run goes on until the master is done. -/
theorem Config.FileRun.exists_done {t : State} (h : Reachable (system c) t) :
    ∃ t', Steps (system c) t t' ∧ t'.master = .done := by
  have hstarts := hc.starts hscan
  have hneed := need_le_supply hc.ranks hstarts.2.1 (hc.total hscan)
    (fun w _ hw => hc.sees w hw) hc.quiet
  exact exists_steps_done hc.ranks hstarts hneed h

include hdict

theorem Config.FileRun.transferDict_eq : c.transferDict = .ok transferDict := by
  rw [transferDict_of_masterRuns hc.master, hc.level, hscan, ← hdict]
  rfl

/-- Every worker has processed its jobs when the master is done. -/
theorem names_of_done {t : State} (h : Reachable (system c) t) (hm : t.master = .done) {w : Nat}
    (hw : 1 ≤ w ∧ w < c.p) : t.names w = jobList ((transferDict w).getD none) := by
  have hsupply := supply_le_need hc.ranks (hc.scan_eq hscan).2 (hc.total hscan) hc.free
  have howed := (drained_of_done h hm hsupply w).2
  rw [State.names, processed_of_owed h hw (hc.sees w hw.2) (hc.quiet w hw.1 hw.2) howed,
    map_name_jobRecords, Config.message, hc.transferDict_eq hscan hdict]

/-- **When the master is done**, the commands were those of all jobs, in a
schedule. -/
theorem schedule_of_done (h : Reachable (staging c command files) s) (hm : s.run.master = .done) :
    ∃ order, IsSchedule c.p transferDict order ∧ s.files = order.foldl command files := by
  obtain ⟨hrun, order, horder, hfiles⟩ := staged_of_reachable hc.level hc.copies h
  have hnames : ∀ w, 1 ≤ w → w < c.p →
      s.run.names w = jobList ((transferDict w).getD none) := fun w h1 hw =>
    names_of_done hc hscan hdict hrun hm ⟨h1, hw⟩
  refine ⟨order.map Prod.snd, ⟨?_, fun w h1 hw => ?_⟩, hfiles⟩
  · have hperm := horder.perm ((List.range (c.p - 1)).map (· + 1)) ?_ ?_
    · rw [List.flatMap_map] at hperm
      refine hperm.trans (List.Perm.of_eq (List.flatMap_congr fun r hr => ?_))
      exact hnames _ (by omega) (by have := List.mem_range.mp hr; omega)
    · exact List.nodup_range.map (add_left_injective 1)
    · intro w hw
      rw [State.names, processed_outside hrun, List.map_nil]
      intro hin
      exact hw (List.mem_map.mpr ⟨w - 1, List.mem_range.mpr (by omega), by omega⟩)
  · rw [← hnames w h1 hw]
    exact horder.sublist w

end done

/-- **Files arrive**: a run that stages them in every schedule goes on, from
every state, until the master is done, and then every file is at its
place. -/
theorem files_arrive {rsync : Rsync} {environment : String → Option (List String)} {os : Os}
    {cwd : Location} {source : Dir String Bytes} (hc : c.FileRun os)
    (hstages : StagesFiles rsync environment os cwd c.params c.p source files)
    (h : Reachable (staging c (fileJob rsync environment cwd c.params) files) s) :
    (∃ t, Steps (staging c (fileJob rsync environment cwd c.params) files) s t ∧
      t.run.master = .done) ∧
    (s.run.master = .done → ∀ path content, (path, content) ∈ source.files → ∃ time,
      s.files (resolve cwd c.params.destinationDir ++ path) = some (.file content time)) := by
  obtain ⟨scan, transferDict, hscan, hdict, -, -, hruns⟩ := hstages
  constructor
  · have hrun := (staged_of_reachable hc.level hc.copies h).reachable
    obtain ⟨t, hsteps, hm⟩ := hc.exists_done hscan hrun
    obtain ⟨files', hsteps⟩ :=
      steps_staging (fileJob rsync environment cwd c.params) files hsteps
    exact ⟨_, hsteps, hm⟩
  · intro hm path content hx
    obtain ⟨order, horder, hfiles⟩ := schedule_of_done hc hscan hdict h hm
    rw [hfiles]
    exact hruns order horder path content hx

end ContainerHackathon.PyStager
