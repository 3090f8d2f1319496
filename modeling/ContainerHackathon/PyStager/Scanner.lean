import ContainerHackathon.Lib.PathString
import ContainerHackathon.PyStager.Distributor

/-!
# PyStager.Scanner

`directory_scanner`, written against what the operating system answers to
path strings (`Os`); `Os.ofTree` gives the answers of a directory tree.

At load level 0 the loop filters and re-sorts the listing while it goes,
but the number handed to `load_distributor` as the bound of its own loop is
the length of the unfiltered listing.
-/

namespace ContainerHackathon.PyStager

open PathString FileTree

/-! ## the operating system's answers -/

/-- The answers to path strings at one moment, in one working directory.
`du` is the first field printed by `du -sc`, `stat` the `st_size`. -/
structure Os where
  listdir : String → Except PyError (List String)
  isdir : String → Bool
  isfile : String → Bool
  du : String → Except PyError Nat
  stat : String → Except PyError Nat
  walk : String → List (String × List String × List String)

/-- The answers of a directory tree to a process working in `cwd`. What
`du` reports and how large a directory itself is depend on the file
system. -/
def Os.ofTree (root : Dir String Bytes) (cwd : Location) (duSize : Entry String Bytes → Nat)
    (dirSize : Dir String Bytes → Nat) : Os where
  listdir s :=
    match lookup root cwd s with
    | none => .error .fileNotFoundError
    | some (.file _) => .error .notADirectoryError
    | some (.dir d) => .ok d.names
  isdir s :=
    match lookup root cwd s with
    | some (.dir _) => true
    | _ => false
  isfile s :=
    match lookup root cwd s with
    | some (.file _) => true
    | _ => false
  du s :=
    match lookup root cwd s with
    | none => .error .calledProcessError
    | some e => .ok (duSize e)
  stat s :=
    match lookup root cwd s with
    | none => .error .fileNotFoundError
    | some (.file c) => .ok c.length
    | some (.dir d) => .ok (dirSize d)
  walk s :=
    match lookup root cwd s with
    | some (.dir d) => (d.walk []).map (fun x => (x.1.foldl join s, x.2))
    | _ => []

/-! ## the scanner -/

/-- The variables of the scanner's loops. -/
structure ScanLoop where
  dirDetailList : List (String × Nat × Nat) := []
  listItemsToProcess : List String := []
  totalSizeSource : Nat := 0
  totalNumFiles : Nat := 0

/-- One round of `for d in list_directories`. -/
def scanEntry (os : Os) (sourcePath : String) (loop : ScanLoop) (d : String) :
    Except PyError ScanLoop :=
  let path := sourcePath ++ d
  if os.isdir path then
    (os.du path).bind fun size => (os.listdir path).bind fun inside =>
      let numFiles := (inside.filter (fun f => os.isfile (join path f))).length
      .ok {
        dirDetailList := loop.dirDetailList ++ [(d, size, numFiles)]
        listItemsToProcess := (loop.listItemsToProcess ++ [d]).insertionSort (· ≤ ·)
        totalSizeSource := loop.totalSizeSource + size
        totalNumFiles := loop.totalNumFiles + numFiles }
  else .ok loop -- logged as "does not exist"

/-- One round of `for f in list_items_to_process` at the file level. -/
def scanFile (os : Os) (sourcePath : String) (totalSizeSource : Nat) (f : String) :
    Except PyError Nat :=
  (os.stat (sourcePath ++ f)).bind fun size => .ok (totalSizeSource + size)

/-- `directory_scanner`. -/
def directoryScanner (os : Os) (sourcePath : String) : LoadLevel → Except PyError ScanResult
  | .file =>
      let listItemsToProcess := (os.walk sourcePath).flatMap (fun x => x.2.2)
      (listItemsToProcess.foldlM (scanFile os sourcePath) 0).bind fun totalSizeSource =>
        .ok {
          dirDetailList := []
          listItemsToProcess := listItemsToProcess
          totalSizeSource := totalSizeSource / 1000000
          totalNumFiles := listItemsToProcess.length
          totalNumDirectories := 0 }
  | .directory =>
      (os.listdir sourcePath).bind fun listDirectories =>
        (listDirectories.foldlM (scanEntry os sourcePath) {}).bind fun loop =>
          .ok {
            dirDetailList := loop.dirDetailList
            listItemsToProcess := loop.listItemsToProcess
            totalSizeSource := loop.totalSizeSource / 1000000
            totalNumFiles := loop.totalNumFiles
            totalNumDirectories := listDirectories.length }

/-! ## load level 0 -/

theorem scanEntry_items {os : Os} {sourcePath d : String} {loop loop' : ScanLoop}
    (h : scanEntry os sourcePath loop d = .ok loop') :
    loop'.listItemsToProcess.Perm (loop.listItemsToProcess ++
      if os.isdir (sourcePath ++ d) then [d] else []) := by
  unfold scanEntry at h
  by_cases hd : os.isdir (sourcePath ++ d)
  · simp only [hd, if_true] at h ⊢
    obtain ⟨size, -, h⟩ := except_bind_eq_ok h
    obtain ⟨inside, -, h⟩ := except_bind_eq_ok h
    rw [Except.ok.injEq] at h
    subst h
    exact List.perm_insertionSort _ _
  · simp only [hd, Bool.false_eq_true, if_false, Except.ok.injEq, List.append_nil] at h ⊢
    rw [h]

/-- The loop collects the entries that it finds to be directories. -/
theorem scanLoop_items {os : Os} {sourcePath : String} {entries : List String}
    {loop loop' : ScanLoop} (h : entries.foldlM (scanEntry os sourcePath) loop = .ok loop') :
    loop'.listItemsToProcess.Perm (loop.listItemsToProcess ++
      entries.filter (fun d => os.isdir (sourcePath ++ d))) := by
  induction entries generalizing loop with
  | nil =>
      obtain rfl : loop = loop' := Except.ok.inj h
      simp
  | cons d entries ih =>
      rw [List.foldlM_cons] at h
      obtain ⟨mid, hd, h⟩ := except_bind_eq_ok h
      refine (ih h).trans (((scanEntry_items hd).append_right _).trans ?_)
      rw [List.append_assoc, List.filter_cons]
      split <;> simp

variable {os : Os} {sourceDir : String} {entries : List String} {scan : ScanResult} {p : Nat}

/-- What the scan of a listing returns: the directories found behind
`source_path + d`, and the length of the whole listing. -/
theorem directoryScanner_directory (hlist : os.listdir sourceDir = .ok entries)
    (hscan : directoryScanner os sourceDir .directory = .ok scan) :
    scan.listItemsToProcess.Perm (entries.filter (fun d => os.isdir (sourceDir ++ d))) ∧
      scan.totalNumDirectories = entries.length := by
  simp only [directoryScanner, hlist] at hscan
  obtain ⟨listDirectories, hl, hscan⟩ := except_bind_eq_ok hscan
  obtain ⟨loop, hloop, hscan⟩ := except_bind_eq_ok hscan
  rw [Except.ok.injEq] at hl hscan
  subst hl hscan
  exact ⟨by simpa using scanLoop_items hloop, rfl⟩

/-- The scanner never counts fewer items than it lists. -/
theorem directoryScanner_length_le_total {level : LoadLevel}
    (hscan : directoryScanner os sourceDir level = .ok scan) :
    scan.listItemsToProcess.length ≤ scan.total level := by
  cases level with
  | file =>
      obtain ⟨size, -, hscan⟩ := except_bind_eq_ok hscan
      rw [Except.ok.injEq] at hscan
      subst hscan
      exact le_rfl
  | directory =>
      obtain ⟨entries, hlist, -⟩ := except_bind_eq_ok hscan
      obtain ⟨hitems, htotal⟩ := directoryScanner_directory hlist hscan
      rw [hitems.length_eq, ScanResult.total, htotal]
      exact List.length_filter_le _ _

/-- **The distributor accepts the scan** exactly when the loop filtered
nothing out of the listing. -/
theorem loadDistributor_scan_ok_iff (hp : 2 ≤ p) (hlist : os.listdir sourceDir = .ok entries)
    (hscan : directoryScanner os sourceDir .directory = .ok scan) :
    (∃ transferDict, loadDistributor scan .directory p = .ok transferDict) ↔
      ∀ d ∈ entries, os.isdir (sourceDir ++ d) := by
  obtain ⟨hitems, htotal⟩ := directoryScanner_directory hlist hscan
  have hle : (entries.filter (fun d => os.isdir (sourceDir ++ d))).length ≤ entries.length :=
    List.length_filter_le _ _
  rw [← List.length_filter_eq_length_iff, ← hitems.length_eq]
  constructor
  · intro haccepts
    obtain ⟨transferDict, hok⟩ := haccepts
    by_contra hne
    rw [← hitems.length_eq] at hle
    have herr : loadDistributor scan .directory p = .error .indexError :=
      loadDistributor_indexError hp (by rw [ScanResult.total, htotal]; omega)
    rw [herr] at hok
    cases hok
  · intro hfull
    exact ⟨_, loadDistributor_eq hp (by rw [ScanResult.total, htotal, hfull])⟩

/-- The sub-directories among the entries of the source. -/
def subdirectories (os : Os) (sourceDir : String) (entries : List String) : List String :=
  entries.filter (fun d => os.isdir (join sourceDir d))

/-- The distributor accepts the scan and the workers, splitting their
slots, get every sub-directory of the source once. -/
def DistributesSubdirectories (os : Os) (sourceDir : String) (entries : List String)
    (scan : ScanResult) (p : Nat) : Prop :=
  ∃ transferDict, loadDistributor scan .directory p = .ok transferDict ∧
    (allJobs p transferDict).Perm (subdirectories os sourceDir entries)

/-- **Scanner and distributor agree exactly** when every entry of the
listing is a sub-directory, also under the name `source_dir + d` without a
separator, and no entry contains a `;`. -/
theorem distributesSubdirectories_iff (hp : 2 ≤ p) (hlist : os.listdir sourceDir = .ok entries)
    (hscan : directoryScanner os sourceDir .directory = .ok scan) :
    DistributesSubdirectories os sourceDir entries scan p ↔
      ∀ d ∈ entries, os.isdir (sourceDir ++ d) ∧ os.isdir (join sourceDir d) ∧
        ';' ∉ d.toList := by
  obtain ⟨hitems, htotal⟩ := directoryScanner_directory hlist hscan
  have hok_iff := loadDistributor_scan_ok_iff hp hlist hscan
  have hdealt : ∀ t, loadDistributor scan .directory p = .ok t → (∀ d ∈ entries,
      os.isdir (sourceDir ++ d)) → scan.listItemsToProcess.Perm entries ∧
      (allJobs p t).Perm (scan.listItemsToProcess.flatMap (Delimited.split ';')) := by
    intro t ht hdirs
    rw [List.filter_eq_self.mpr fun d hd => by simpa using hdirs d hd] at hitems
    rw [loadDistributor_eq hp (by rw [ScanResult.total, htotal, hitems.length_eq]),
      Except.ok.injEq] at ht
    subst ht
    exact ⟨hitems, allJobs_dealt_perm hp _⟩
  constructor
  · intro hdistributes d hd
    obtain ⟨t, hok, hperm⟩ := hdistributes
    have hdirs := hok_iff.mp ⟨t, hok⟩
    obtain ⟨hsame, hpieces⟩ := hdealt t hok hdirs
    -- as many jobs as pieces, at most as many as entries: no piece too many
    have hcount := (hpieces.symm.trans hperm).length_eq
    have hle : (subdirectories os sourceDir entries).length ≤ entries.length :=
      List.length_filter_le _ _
    have hnosep := (Delimited.length_flatMap_split_le_iff ';' scan.listItemsToProcess).mp
      (by rw [hcount, hsame.length_eq]; exact hle)
    rw [Delimited.flatMap_split_of_notMem hnosep, hsame.length_eq] at hcount
    exact ⟨hdirs d hd, List.length_filter_eq_length_iff.mp hcount.symm d hd,
      hnosep d (hsame.mem_iff.mpr hd)⟩
  · intro hall
    have hdirs : ∀ d ∈ entries, os.isdir (sourceDir ++ d) := fun d hd => (hall d hd).1
    obtain ⟨t, hok⟩ := hok_iff.mpr hdirs
    obtain ⟨hsame, hpieces⟩ := hdealt t hok hdirs
    have hnosep : ∀ s ∈ scan.listItemsToProcess, ';' ∉ s.toList :=
      fun s hs => (hall s (hsame.mem_iff.mp hs)).2.2
    rw [Delimited.flatMap_split_of_notMem hnosep] at hpieces
    have hsubs : subdirectories os sourceDir entries = entries :=
      List.filter_eq_self.mpr fun d hd => by simpa using (hall d hd).2.1
    exact ⟨t, hok, by rw [hsubs]; exact hpieces.trans hsame⟩

/-- A source with one directory and one file next to it. -/
def mixedSource : Dir String Bytes :=
  .sub "src" (.sub "data" .nil (.file "readme" [104, 105] .nil)) .nil

def mixedOs : Os := Os.ofTree mixedSource [] (fun _ => 4) (fun _ => 4096)

/-- The file counts as a directory in the loop bound: the distributor runs
past the end of the list. -/
theorem mixedSource_not_distributed : ∃ scan,
    directoryScanner mixedOs "/src/" .directory = .ok scan ∧
      loadDistributor scan .directory 2 = .error .indexError ∧
      ¬ DistributesSubdirectories mixedOs "/src/" ["data", "readme"] scan 2 := by
  refine ⟨_, rfl, rfl, fun hdistributes => ?_⟩
  obtain ⟨t, ht, -⟩ := hdistributes
  cases ht

/-- A source with directories only is distributed. -/
theorem distributesSubdirectories_iff_ok :
    ∃ scan, directoryScanner (Os.ofTree (.sub "src" (.sub "b" .nil (.sub "a" .nil .nil)) .nil) []
      (fun _ => 4) (fun _ => 4096)) "/src/" .directory = .ok scan ∧
    DistributesSubdirectories (Os.ofTree (.sub "src" (.sub "b" .nil (.sub "a" .nil .nil)) .nil) []
      (fun _ => 4) (fun _ => 4096)) "/src/" ["b", "a"] scan 3 :=
  ⟨_, rfl, (distributesSubdirectories_iff (by decide) rfl rfl).mpr (by decide)⟩

end ContainerHackathon.PyStager
