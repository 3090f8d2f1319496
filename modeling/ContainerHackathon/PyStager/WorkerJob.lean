import ContainerHackathon.PyStager.Checksum
import ContainerHackathon.PyStager.Scanner
import ContainerHackathon.PyStager.Protocol.Completion

/-!
# PyStager.WorkerJob

One pass of a worker's job loop over what it finds at its two paths.  The
protocol knows of a job only how it turns out; `Outcome.of` reads this off
the hashed directories and the status of the command, and with it the
protocol processes a job exactly as the loop does (`runJob_eq`).  Likewise
for the master's part before the protocol starts
(`transferDict_of_masterRuns`).
-/

namespace ContainerHackathon.PyStager

open FileTree Python Transition

section program

variable (hexdigest : Bytes → Bytes)

/-- `hash_directory` on what is found at `directory_to_process`; `os.chdir`
raises unless it is a directory. -/
def hashPath (jobName inputStatus : String) (found : Option (Entry String Bytes)) (notes : Notes) :
    Except PyError Notes :=
  match found with
  | none => .error .fileNotFoundError
  | some (.file _) => .error .notADirectoryError
  | some (.dir directory) => hashDirectory hexdigest jobName inputStatus directory notes

/-- `if md5(source_hash_text) == md5(destination_hash_text)`, with its
branches. -/
def compareTexts (job : String) (notes : Notes) : Except PyError (Bool × Notes) :=
  let sourceHashText := hashRepoText "source" job
  let destinationHashText := hashRepoText "destination" job
  (md5 hexdigest notes sourceHashText).bind fun s =>
  (md5 hexdigest notes destinationHashText).bind fun d =>
  if s = d then
    .ok (true, Function.update (Function.update notes sourceHashText none) destinationHashText none)
  else .ok (false, notes)

/-- The body of `for job_count in range(0, len(job_list))`, with what is
found at the two paths when they are hashed, and what `os.system(rsync_str)`
returns. -/
def runJob (params : Params) (rank : Nat) (job : String)
    (source destination : Option (Entry String Bytes)) (status : Int) (notes : Notes) :
    Except PyError (Job × Notes) :=
  match params.loadLevel with
  | .directory =>
      let hashed :=
        if params.checksumStatus = 1 then hashPath hexdigest job "source" source notes else .ok notes
      hashed.bind fun notes =>
      if params.rsyncStatus = 1 then
        if params.checksumStatus = 1 then
          (hashPath hexdigest job "destination" destination notes).bind fun notes =>
          (compareTexts hexdigest job notes).map fun x => (⟨rank, job, some status, some x.1⟩, x.2)
        else .ok (⟨rank, job, some status, none⟩, notes)
      else .ok (⟨rank, job, none, none⟩, notes)
  | .file => .ok (⟨rank, job, if params.rsyncStatus = 1 then some status else none, none⟩, notes)

/-! ## reading off the outcome -/

/-- The text that `hash_directory` leaves. -/
def hashText (found : Option (Entry String Bytes)) : Except PyError Bytes :=
  match found with
  | none => .error .fileNotFoundError
  | some (.file _) => .error .notADirectoryError
  | some (.dir directory) =>
      (directory.lastFilenames.foldlM (hashFile hexdigest directory) ⟨[], none, []⟩).map
        HashLoop.hashedTextNote

def errorOf {β : Type*} : Except PyError β → Option PyError
  | .error e => some e
  | .ok _ => none

/-- The two texts have the same digest. -/
def sameTexts : Except PyError Bytes → Except PyError Bytes → Bool
  | .ok s, .ok d => hexdigest s = hexdigest d
  | _, _ => false

/-- How a job turns out that finds this at its two paths. -/
def Outcome.of (source destination : Option (Entry String Bytes)) (status : Int) : Outcome where
  rsync := status
  identical := sameTexts hexdigest (hashText hexdigest source) (hashText hexdigest destination)
  sourceRaises := errorOf (hashText hexdigest source)
  destinationRaises := errorOf (hashText hexdigest destination)

end program

variable {hexdigest : Bytes → Bytes} {c : Config} {s : State} {notes : Notes}
  {source destination : Option (Entry String Bytes)} {status : Int} {rank jobCount : Nat}

variable (hexdigest) in
theorem hashPath_eq (jobName inputStatus : String) (found : Option (Entry String Bytes))
    (notes : Notes) : hashPath hexdigest jobName inputStatus found notes =
      (hashText hexdigest found).map fun text =>
        Function.update notes (hashRepoText inputStatus jobName) (some text) := by
  cases found with
  | none => rfl
  | some entry =>
      cases entry with
      | file content => rfl
      | dir directory =>
          simp only [hashPath, hashDirectory, hashText]
          cases directory.lastFilenames.foldlM (hashFile hexdigest directory) ⟨[], none, []⟩ <;> rfl

/-- Neither `md5` raises once both texts are written. -/
theorem exists_compareTexts {job : String} {s d : Bytes}
    (hs : notes (hashRepoText "source" job) = some s)
    (hd : notes (hashRepoText "destination" job) = some d) : ∃ notes',
    compareTexts hexdigest job notes = .ok (sameTexts hexdigest (.ok s) (.ok d), notes') := by
  rw [compareTexts, md5_eq hs, md5_eq hd]
  by_cases hsame : hexdigest s = hexdigest d <;> simp [Except.bind, sameTexts, hsame]

variable (hexdigest) in
/-- The notes that the comparison finds. -/
theorem exists_compareTexts_update (job : String) (notes : Notes) (s d : Bytes) : ∃ notes',
    compareTexts hexdigest job (Function.update
      (Function.update notes (hashRepoText "source" job) (some s))
      (hashRepoText "destination" job) (some d)) =
        .ok (sameTexts hexdigest (.ok s) (.ok d), notes') :=
  exists_compareTexts
    ((Function.update_of_ne (hashRepoText_source_ne job) _ _).trans (Function.update_self ..))
    (Function.update_self ..)

/-- **A job of the protocol** is one pass of the loop: it raises what the loop
raises, and it records what the loop does otherwise. -/
theorem runJob_eq (job : String)
    (h : c.outcome rank jobCount = .of hexdigest source destination status) (notes : Notes) :
    (runJob hexdigest c.params rank job source destination status notes).map Prod.fst =
      match c.raises rank jobCount with
      | some e => .error e
      | none => .ok (processJob c rank jobCount job) := by
  unfold runJob Config.raises processJob
  rw [h]
  cases hlevel : c.params.loadLevel with
  | file => simp [Except.map, Outcome.of]
  | directory =>
      by_cases hk : c.params.checksumStatus = 1
      · simp only [hk, hashPath_eq, Outcome.of, if_true, and_self]
        cases hsource : hashText hexdigest source with
        | error e => simp [Except.map, Except.bind, errorOf]
        | ok s =>
            by_cases hr : c.params.rsyncStatus = 1
            · simp only [hr, if_true]
              cases hdestination : hashText hexdigest destination with
              | error e => simp [Except.map, Except.bind, errorOf]
              | ok d =>
                  obtain ⟨notes', hcompare⟩ := exists_compareTexts_update hexdigest job notes s d
                  simp [Except.map, Except.bind, errorOf, hcompare]
            · simp [hr, Except.map, Except.bind, errorOf]
      · by_cases hr : c.params.rsyncStatus = 1 <;>
          simp [hk, hr, Except.map, Except.bind, Outcome.of]

theorem hashText_of_hashes {directory : Dir String Bytes} {cs : List Bytes}
    (h : Hashes directory cs) : hashText hexdigest (some (.dir directory)) =
      .ok ((CumulativeDigest.fed [] cs).flatMap hexdigest) := by
  have hrun := foldlM_hashFile hexdigest [] [] h.1 fun _ => h.2
  simp only [HashLoop.after, if_true] at hrun
  rw [hashText, hrun]
  rfl

theorem exists_hashes_of_hashText {directory : Dir String Bytes} {text : Bytes}
    (h : hashText hexdigest (some (.dir directory)) = .ok text) : ∃ cs, Hashes directory cs := by
  have hpath := hashPath_eq hexdigest "" "" (some (.dir directory)) fun _ => none
  rw [h] at hpath
  exact exists_hashes_of_hashDirectory hpath

theorem sameTexts_eq_true {x y : Except PyError Bytes} : sameTexts hexdigest x y = true ↔
    ∃ s d, x = .ok s ∧ y = .ok d ∧ hexdigest s = hexdigest d := by
  cases x <;> cases y <;> simp [sameTexts]

/-- The outcome says that the files are identical exactly if the worker
does. -/
theorem identical_of_iff (job : String) (source destination : Dir String Bytes) (status : Int)
    (notes : Notes) :
    (Outcome.of hexdigest (some (.dir source)) (some (.dir destination)) status).identical = true ↔
      ReportsIdentical hexdigest job source destination notes := by
  unfold Outcome.of
  rw [sameTexts_eq_true, reportsIdentical_iff]
  constructor
  · intro htexts
    obtain ⟨s, d, hs, hd, hsame⟩ := htexts
    obtain ⟨cs, hcs⟩ := exists_hashes_of_hashText hs
    obtain ⟨ds, hds⟩ := exists_hashes_of_hashText hd
    rw [hashText_of_hashes hcs] at hs
    rw [hashText_of_hashes hds] at hd
    rw [← Except.ok.inj hs, ← Except.ok.inj hd] at hsame
    exact ⟨cs, ds, hcs, hds, hsame⟩
  · intro hhashes
    obtain ⟨cs, ds, hcs, hds, hsame⟩ := hhashes
    exact ⟨_, _, hashText_of_hashes hcs, hashText_of_hashes hds, hsame⟩

/-! ## the protocol -/

/-- **Every job that the protocol records** is what the loop makes of the two
directories, if the outcomes are read off them. -/
theorem runJob_of_processed (h : Reachable (system c) s) {w k : Nat} {j : Job}
    {source destination : Nat → Nat → Option (Entry String Bytes)} {status : Nat → Nat → Int}
    (houtcome : ∀ w k, c.outcome w k =
      .of hexdigest (source w k) (destination w k) (status w k))
    (hj : (s.processed w)[k]? = some j) (notes : Notes) :
    (runJob hexdigest c.params w j.name (source w k) (destination w k) (status w k) notes).map
      Prod.fst = .ok j := by
  have hlt := (List.getElem?_eq_some_iff.mp hj).1
  obtain ⟨rest, hrest⟩ := isPrefix_processed h w
  have hrecord : (jobRecords c w (jobList (c.message w)))[k]? = some j := by
    rw [← hrest, List.getElem?_append_left hlt, hj]
  rw [jobRecords, List.getElem?_mapIdx, Option.map_eq_some_iff] at hrecord
  obtain ⟨name, -, rfl⟩ := hrecord
  have hjob := runJob_eq name (houtcome w k) notes
  rwa [raises_of_processed h hlt] at hjob

/-- What the master comes to before the distributor: the scan, and how
`data_structure_builder` ends. -/
def Config.MasterRuns (c : Config) (os : Os) (builder : Option PyError) : Prop :=
  match directoryScanner os c.params.sourceDir c.params.loadLevel with
  | .error e => c.masterRaises = some e
  | .ok scan => c.scan = scan ∧ c.masterRaises = builder

/-- Scanner, builder and distributor, one after the other. -/
theorem transferDict_of_masterRuns {os : Os} {builder : Option PyError}
    (h : c.MasterRuns os builder) : c.transferDict =
      (directoryScanner os c.params.sourceDir c.params.loadLevel).bind fun scan =>
        builder.elim (loadDistributor scan c.params.loadLevel c.p) .error := by
  unfold Config.MasterRuns at h
  unfold Config.transferDict
  cases hscan : directoryScanner os c.params.sourceDir c.params.loadLevel with
  | error e =>
      rw [hscan] at h
      simp only [h, Except.bind]
  | ok scan =>
      rw [hscan] at h
      rw [h.1, h.2]
      cases builder <;> rfl

end ContainerHackathon.PyStager
