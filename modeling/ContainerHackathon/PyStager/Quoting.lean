import ContainerHackathon.Lib.Shell
import ContainerHackathon.PyStager.Commands
import ContainerHackathon.PyStager.Distributor

/-!
# PyStager.Quoting

The way of an item name from the scan into a command: joined with `;`,
split again by the worker, and pasted unquoted into a command line for
`os.system`.  `transparent_iff` says which names survive it.
-/

namespace ContainerHackathon.PyStager

open Shell

variable {scan : ScanResult} {p : Nat} {sourceDir destinationDir : String}

/-- The workers get back the scanned names, and every command line is one
simple command with the intended arguments, whatever the environment. -/
def Transparent (scan : ScanResult) (p : Nat) (sourceDir destinationDir : String) : Prop :=
  ∃ transferDict, loadDistributor scan .directory p = .ok transferDict ∧
    (allJobs p transferDict).Perm scan.listItemsToProcess ∧
    (∀ job ∈ allJobs p transferDict, ∀ environment,
      arguments environment (rsyncDirectoryStr sourceDir destinationDir job) =
        some ["rsync", "-r", sourceDir ++ job ++ "/", destinationDir ++ "/" ++ job]) ∧
    ∀ dirName ∈ scan.listItemsToProcess, ∀ environment,
      arguments environment (mkdirStr dirName) = some ["mkdir", dirName]

/-- A string of characters without any meaning to the shell. -/
def FreeOfMeta (s : String) : Prop := s.toList.all isFree

instance (s : String) : Decidable (FreeOfMeta s) := inferInstanceAs (Decidable (_ = true))

theorem notMem_of_plainWord {n : String} (h : PlainWord n.toList) : ';' ∉ n.toList :=
  fun hmem => absurd (h.ordinary ';' hmem) (by decide)

/-- The transfer gets its two operands as written exactly if both are plain
words. -/
theorem rsync_arguments_iff (sourceDir destinationDir job : String) :
    (∀ environment, arguments environment (rsyncDirectoryStr sourceDir destinationDir job) =
      some ["rsync", "-r", sourceDir ++ job ++ "/", destinationDir ++ "/" ++ job]) ↔
    PlainWord (sourceDir ++ job ++ "/").toList ∧ PlainWord (destinationDir ++ "/" ++ job).toList := by
  have hline : (rsyncDirectoryStr sourceDir destinationDir job).toList =
      blankEnded (["rsync", "-r", sourceDir ++ job ++ "/"].map String.toList) ++
        (destinationDir ++ "/" ++ job).toList := by
    simp [rsyncDirectoryStr, blankEnded]
  have hne : ∀ w ∈ ["rsync", "-r", sourceDir ++ job ++ "/"] ++ [destinationDir ++ "/" ++ job],
      w ≠ "" := by
    have hslash : ∀ a b : String, a ++ "/" ++ b ≠ "" := fun a b h => by
      have hlen := congrArg (fun s => s.toList.length) h
      simp at hlen
    have hsrc := hslash (sourceDir ++ job) ""
    rw [String.append_empty] at hsrc
    simp only [List.cons_append, List.nil_append, List.forall_mem_cons]
    exact ⟨by decide, by decide, hsrc, hslash _ _, by simp⟩
  have hiff := arguments_iff hline hne
  simp only [List.cons_append, List.nil_append, List.forall_mem_cons] at hiff
  rw [hiff]
  have hcommand : PlainWord "rsync".toList ∧ PlainWord "-r".toList := by decide
  exact ⟨fun h => ⟨h.2.2.1, h.2.2.2.1⟩, fun h => ⟨hcommand.1, hcommand.2, h.1, h.2, by simp⟩⟩

/-- `mkdir` gets the name as written exactly if it is a plain word. -/
theorem mkdir_arguments_iff {dirName : String} (hne : dirName ≠ "") :
    (∀ environment, arguments environment (mkdirStr dirName) = some ["mkdir", dirName]) ↔
      PlainWord dirName.toList := by
  have hline : (mkdirStr dirName).toList =
      blankEnded (["mkdir"].map String.toList) ++ dirName.toList := by
    simp [mkdirStr, blankEnded]
  have hiff := arguments_iff hline (by simp [hne])
  simp only [List.cons_append, List.nil_append, List.forall_mem_cons] at hiff
  rw [hiff]
  have hcommand : PlainWord "mkdir".toList := by decide
  exact ⟨fun h => h.2.1, fun h => ⟨hcommand, h, by simp⟩⟩

/-- A plain name between free characters is part of plain operands. -/
theorem plainWord_operands (hsource : FreeOfMeta sourceDir) (hdest : FreeOfMeta destinationDir)
    {job : String} (hjob : PlainWord job.toList) :
    PlainWord (sourceDir ++ job ++ "/").toList ∧ PlainWord (destinationDir ++ "/" ++ job).toList := by
  have hslash : ∀ c ∈ ['/'], isFree c := fun c hc => by
    rw [List.mem_singleton.mp hc]
    rfl
  constructor
  · have hword := (hjob.prepend (List.all_eq_true.mp hsource)).append_slash
    simpa using hword
  · have hword := hjob.prepend (List.forall_mem_append.mpr ⟨List.all_eq_true.mp hdest, hslash⟩)
    simpa using hword

/-- **Names pass unchanged** from the scan to the commands exactly when each
of them is a plain word of the shell. -/
theorem transparent_iff (hp : 2 ≤ p) (htotal : scan.total .directory = scan.listItemsToProcess.length)
    (hnames : ∀ n ∈ scan.listItemsToProcess, n ≠ "")
    (hsource : FreeOfMeta sourceDir) (hdest : FreeOfMeta destinationDir) :
    Transparent scan p sourceDir destinationDir ↔
      ∀ n ∈ scan.listItemsToProcess, PlainWord n.toList := by
  constructor
  · intro htransparent n hn
    obtain ⟨t, -, -, -, hmkdir⟩ := htransparent
    exact (mkdir_arguments_iff (hnames n hn)).mp (hmkdir n hn)
  · intro hplain
    have hperm := allJobs_dealt_perm hp scan.listItemsToProcess
    rw [Delimited.flatMap_split_of_notMem fun n hn => notMem_of_plainWord (hplain n hn)] at hperm
    exact ⟨_, loadDistributor_eq hp htotal, hperm,
      fun job hjob => (rsync_arguments_iff _ _ _).mpr
        (plainWord_operands hsource hdest (hplain job (hperm.mem_iff.mp hjob))),
      fun n hn => (mkdir_arguments_iff (hnames n hn)).mpr (hplain n hn)⟩

/-- A scan of directories with the given names. -/
def scanOf (names : List String) : ScanResult :=
  ⟨names.map (fun n => (n, 4, 0)), names, 0, 0, names.length⟩

/-- A blank in the name makes two directories out of it. -/
theorem blank_not_transparent : ¬ Transparent (scanOf ["my data"]) 2 "/src/" "/dst" := by
  intro htransparent
  obtain ⟨t, -, -, -, hmkdir⟩ := htransparent
  have hsplit := hmkdir "my data" (by decide) fun _ => none
  exact absurd hsplit (by decide)

theorem transparent_iff_plain :
    Transparent (scanOf ["run-01", "run_02", "x.y", "2010,b"]) 3 "/src/" "/dst" :=
  (transparent_iff (by decide) rfl (by decide) (by unfold FreeOfMeta; decide +kernel)
    (by unfold FreeOfMeta; decide +kernel)).mpr (by decide)

end ContainerHackathon.PyStager
