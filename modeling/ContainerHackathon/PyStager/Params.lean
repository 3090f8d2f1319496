import Mathlib

/-!
# PyStager.Params

The data that every part of PyStager reads: the parameters of
`parameters.dat`, the tuple that `directory_scanner` hands to the rest of
the master, and the Python exceptions that can end a rank.
-/

namespace ContainerHackathon.PyStager

/-- The exceptions that PyStager's own statements can raise. -/
inductive PyError
  | keyError
  | indexError
  | fileNotFoundError
  | notADirectoryError
  | isADirectoryError
  | unboundLocalError
  | calledProcessError
  deriving DecidableEq, Repr

/-- A file's bytes. -/
abbrev Bytes := List UInt8

/-- A sequence of statements gets through when each of them does. -/
theorem except_bind_eq_ok {ε α β : Type*} {x : Except ε α} {f : α → Except ε β} {b : β}
    (h : x.bind f = .ok b) : ∃ a, x = .ok a ∧ f a = .ok b := by
  cases x with
  | error e => cases h
  | ok a => exact ⟨a, rfl, h⟩

/-- `Load_Level`: `0` stages sub-directories, `1` stages files.  With any
other number `directory_scanner` stops at its unbound
`total_num_directories`, so the other ranks never get any work. -/
inductive LoadLevel
  | directory
  | file
  deriving DecidableEq, Repr

/-- The parameters read in by every rank. -/
structure Params where
  sourceDir : String
  destinationDir : String
  rsyncStatus : Int
  checksumStatus : Int
  loadLevel : LoadLevel
  deriving DecidableEq, Repr

/-- What `directory_scanner` returns. `totalSizeSource` is in megabytes
(the source prints it as `Gb`), an exact rational instead of a float. -/
structure ScanResult where
  dirDetailList : List (String × Nat × Nat)
  listItemsToProcess : List String
  totalSizeSource : ℚ
  totalNumFiles : Nat
  totalNumDirectories : Nat
  deriving DecidableEq

end ContainerHackathon.PyStager
