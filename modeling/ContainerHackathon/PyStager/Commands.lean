import ContainerHackathon.PyStager.Params

/-!
# PyStager.Commands

The strings PyStager builds out of its two directory parameters and a job
name: command lines for `os.system` and the names of files.  Every place
concatenates in its own way; the concatenations are kept exactly.
-/

namespace ContainerHackathon.PyStager

/-- The command of a worker at load level 0. -/
def rsyncDirectoryStr (sourceDir destinationDir job : String) : String :=
  "rsync -r " ++ sourceDir ++ job ++ "/" ++ " " ++ destinationDir ++ "/" ++ job

/-- The command of a worker at load level 1. -/
def rsyncFileStr (sourceDir destinationDir job : String) : String :=
  "rsync  " ++ sourceDir ++ "/" ++ job ++ " " ++ destinationDir ++ "/" ++ job

/-- `rsync_str` when the transfer is deactivated. -/
def requestStr (sourceDir job : String) : String :=
  " Opereation requested on the " ++ sourceDir ++ job

/-- The value of `rsync_str` that goes into the completion message. -/
def rsyncStr (params : Params) (job : String) : String :=
  if params.rsyncStatus = 1 then
    match params.loadLevel with
    | .directory => rsyncDirectoryStr params.sourceDir params.destinationDir job
    | .file => rsyncFileStr params.sourceDir params.destinationDir job
  else requestStr params.sourceDir job

/-- The master's command for a missing job directory. -/
def mkdirStr (dirName : String) : String := "mkdir " ++ dirName

/-- `hash_directory`'s `directory_to_process`. -/
def directoryToProcess (sourcePath jobName : String) : String := sourcePath ++ jobName

/-- The name of the file in which `hash_directory` writes its digests. -/
def hashRepoText (inputStatus jobName : String) : String :=
  inputStatus ++ "_" ++ jobName ++ "_hashed.txt"

/-- The worker's `msg_out` when the two hash texts have the same digest. -/
def identicalMsg (job : String) : String :=
  "source: " ++ job ++ " and destination: " ++ job ++ " files are identical"

/-- The worker's `msg_out` when they have not. -/
def unverifiedMsg (job : String) : String :=
  "integrity of source: " ++ job ++ " and destination: " ++ job ++ " files could not be verified"

/-- Strings with different first characters differ. -/
theorem append_ne_append {a b : String} (ha : a ≠ "") (hb : b ≠ "")
    (hhead : a.toList.head? ≠ b.toList.head?) (x y : String) : a ++ x ≠ b ++ y := by
  have hfirst : ∀ {s : String} (t : String), s ≠ "" →
      (s ++ t).toList.head? = s.toList.head? := fun t h => by
    have hne := mt String.toList_eq_nil_iff.mp h
    rw [String.toList_append, List.head?_append_of_ne_nil _ hne]
  intro h
  rw [← hfirst x ha, ← hfirst y hb, h] at hhead
  exact hhead rfl

theorem identicalMsg_ne_unverifiedMsg (job : String) : identicalMsg job ≠ unverifiedMsg job := by
  unfold identicalMsg unverifiedMsg
  rw [String.append_assoc, String.append_assoc, String.append_assoc, String.append_assoc,
    String.append_assoc, String.append_assoc]
  apply append_ne_append
  · decide
  · decide
  · decide

/-- Neither hash text overwrites the other. -/
theorem hashRepoText_source_ne (job : String) :
    hashRepoText "source" job ≠ hashRepoText "destination" job := by
  unfold hashRepoText
  rw [String.append_assoc, String.append_assoc, String.append_assoc, String.append_assoc]
  apply append_ne_append
  · decide
  · decide
  · decide

end ContainerHackathon.PyStager
