import ContainerHackathon.PyStager.Checksum

/-!
# PyStager.Reproducible

Whether the check of a copy succeeds, in every order in which `os.walk` may
meet the entries of the two trees.

The walk may end in every directory without sub-directories, at each of its
files.  So the check succeeds only if all these directories have the same
number of files, all under names that are files of the top directory too,
with one content (`reproducible_iff`).  Trees with a file in a
sub-directory only, with an empty file, or with two different files fail.
-/

namespace ContainerHackathon.PyStager

open FileTree Python

variable {hexdigest : Bytes → Bytes} {directory copy source destination : Dir String Bytes}
  {n : Nat} {c : Bytes} {cs : List Bytes}

/-! ## what a copy hashes to -/

/-- `hash_directory` returns for both directories and leaves equal texts, and
the worker reports that the files are identical. -/
def Reproduced (hexdigest : Bytes → Bytes) (job : String) (source destination : Dir String Bytes)
    (notes : Notes) : Prop :=
  ∃ afterSource afterBoth,
    hashDirectory hexdigest job "source" source notes = .ok afterSource ∧
    hashDirectory hexdigest job "destination" destination afterSource = .ok afterBoth ∧
    afterBoth (hashRepoText "source" job) = afterBoth (hashRepoText "destination" job) ∧
    ReportsIdentical hexdigest job source destination notes

/-- All directories without sub-directories have `n` files, each under the
name of a file with the content `c` in the top directory. -/
def UniformLeaves (directory : Dir String Bytes) (n : Nat) (c : Bytes) : Prop :=
  ∀ path leaf, directory.at? path = some (.dir leaf) → leaf.dirnames = [] →
    leaf.filenames.length = n ∧ ∀ m ∈ leaf.filenames, openedContent directory m = some c

/-- Wherever the walk ends, the same bytes are fed, and not none. -/
def Uniform (directory : Dir String Bytes) : Prop :=
  ∃ n c, (n ≠ 0 → c ≠ []) ∧ UniformLeaves directory n c

theorem openedContent_eq (directory : Dir String Bytes) (m : String) :
    openedContent directory m = ((directory.child? m).map Entry.content).join := by
  rw [openedContent]
  cases directory.child? m with
  | none => rfl
  | some x => cases x <;> rfl

theorem openedContent_copy (h : SameTree directory copy) (m : String) :
    openedContent copy m = openedContent directory m := by
  rw [openedContent_eq, openedContent_eq, h.child? m]

/-- Every copy of a uniform tree hashes the same contents. -/
theorem hashes_copy (hwf : directory.WF) (hnonempty : n ≠ 0 → c ≠ [])
    (h : UniformLeaves directory n c) (hcopy : copy.WF) (hsame : SameTree directory copy) :
    Hashes copy (List.replicate n c) := by
  obtain ⟨path, leaf, hleaf, hnil, hlast⟩ := exists_leaf hcopy
  obtain ⟨original, horiginal, hcopied⟩ := hsame.symm.at? hleaf
  have hwfLeaf := wf_of_at? hcopy hleaf
  have hwfOriginal := wf_of_at? hwf horiginal
  obtain ⟨hlength, hcontents⟩ :=
    h path original horiginal (hcopied.dirnames_nil hwfLeaf hwfOriginal hnil)
  have hperm := hcopied.filenames_perm hwfLeaf hwfOriginal
  have hopened : ∀ m ∈ leaf.filenames, openedContent copy m = some c := fun m hm => by
    rw [openedContent_copy hsame]
    exact hcontents m (hperm.subset hm)
  constructor
  · rw [hlast, mapM_eq_replicate hopened, hperm.length_eq, hlength]
  · cases n with
    | zero => simp
    | succ n => simpa [List.replicate_succ] using hnonempty (Nat.succ_ne_zero n)

/-- If every copy hashes the same contents, the tree is uniform. -/
theorem uniform_of_hashes (hwf : directory.WF)
    (h : ∀ copy : Dir String Bytes, copy.WF → SameTree directory copy → Hashes copy cs) :
    Uniform directory := by
  refine ⟨cs.length, cs.headD [], ?_, fun path leaf hleaf hnil => ⟨?_, fun m hm => ?_⟩⟩
  · intro hne
    obtain ⟨c, rest, rfl⟩ := List.exists_cons_of_length_pos (Nat.pos_of_ne_zero hne)
    simpa using (h directory hwf (.refl directory)).2
  · obtain ⟨copy, hcopy, hsame, hlast⟩ :=
      exists_copy hwf hleaf (wf_of_at? hwf hleaf) (.refl leaf) hnil
    have hmapM := (h copy hcopy hsame).1
    rw [hlast] at hmapM
    exact (length_of_mapM hmapM).symm
  · obtain ⟨copy, hcopy, hsame, hhead⟩ := exists_copy_head hwf hleaf hnil hm
    have hmapM := (h copy hcopy hsame).1
    obtain ⟨rest, hrest⟩ := List.head?_eq_some_iff.mp hhead
    rw [hrest] at hmapM
    obtain ⟨c, _, hc, -, rfl⟩ := mapM_cons_eq_some_iff.mp hmapM
    rw [← openedContent_copy hsame, hc, List.headD_cons]

/-! ## the check of a copy -/

theorem reproduced_of_hashes (job : String) (notes : Notes) (hs : Hashes source cs)
    (hd : Hashes destination cs) : Reproduced hexdigest job source destination notes := by
  refine ⟨_, _, hashDirectory_of_hashes job "source" notes hs,
    hashDirectory_of_hashes job "destination" _ hd, ?_,
    (reportsIdentical_iff job notes).mpr ⟨cs, cs, hs, hd, rfl⟩⟩
  rw [Function.update_of_ne (hashRepoText_source_ne job), Function.update_self,
    Function.update_self]

/-- The digests of what copies of the directory hash to are told apart. -/
def NoCollisionsOnCopies (hexdigest : Bytes → Bytes) (directory : Dir String Bytes) : Prop :=
  ∀ source destination : Dir String Bytes, source.WF → destination.WF →
    SameTree directory source → SameTree directory destination →
    NoCollisions hexdigest source destination

/-- **The check is complete and independent of the order** in which the
entries are met exactly for uniform trees. -/
theorem reproducible_iff (hwf : directory.WF) (h : NoCollisionsOnCopies hexdigest directory)
    (job : String) (notes : Notes) :
    (∀ source destination : Dir String Bytes, source.WF → destination.WF →
      SameTree directory source → SameTree directory destination →
      Reproduced hexdigest job source destination notes) ↔ Uniform directory := by
  constructor
  · intro hall
    have hhashes : ∀ copy : Dir String Bytes, copy.WF → SameTree directory copy →
        ∃ cs, Hashes directory cs ∧ Hashes copy cs := fun copy hcopy hsame => by
      obtain ⟨_, _, -, -, -, hreports⟩ := hall directory copy hwf hcopy (.refl directory) hsame
      exact (reportsIdentical_iff_hashes
        (h directory copy hwf hcopy (.refl directory) hsame) job notes).mp hreports
    obtain ⟨cs, hcs, -⟩ := hhashes directory hwf (.refl directory)
    have hcopies : ∀ copy : Dir String Bytes, copy.WF → SameTree directory copy →
        Hashes copy cs := fun copy hcopy hsame => by
      obtain ⟨ds, hds, hcopied⟩ := hhashes copy hcopy hsame
      rwa [hashes_unique hcs hds]
    exact uniform_of_hashes hwf hcopies
  · rintro ⟨n, c, hnonempty, huniform⟩ source destination hs hd hsame hsame'
    exact reproduced_of_hashes job notes (hashes_copy hwf hnonempty huniform hs hsame)
      (hashes_copy hwf hnonempty huniform hd hsame')

/-- A file, and two sub-directories with the same file each. -/
def repeatedFile : Dir String Bytes :=
  .file "f" [120] (.sub "d" (.file "f" [120] .nil) (.sub "e" (.file "f" [120] .nil) .nil))

theorem wf_repeatedFile : repeatedFile.WF := by
  simp [repeatedFile, Dir.WF, Dir.names]

/-- The walk ends in one of the two sub-directories, at its file. -/
theorem uniformLeaves_repeatedFile : UniformLeaves repeatedFile 1 [120] := by
  have hfile : ∀ path leaf, Dir.at? (.file "f" [120] .nil : Dir String Bytes) path =
      some (.dir leaf) → leaf = .file "f" [120] .nil := by
    intro path leaf hleaf
    cases path with
    | nil => cases hleaf; rfl
    | cons n path =>
        obtain ⟨t, hchild, -⟩ := at?_dir_cons hleaf
        simp only [Dir.child?] at hchild
        split at hchild <;> cases hchild
  intro path leaf hleaf hnil
  have hend : leaf = .file "f" [120] .nil := by
    cases path with
    | nil => cases hleaf; cases hnil
    | cons n path =>
        obtain ⟨t, hchild, ht⟩ := at?_dir_cons hleaf
        simp only [repeatedFile, Dir.child?] at hchild
        split_ifs at hchild <;> cases hchild <;> exact hfile path leaf ht
  rw [hend]
  exact ⟨rfl, fun m hm => by obtain rfl := List.mem_singleton.mp hm; rfl⟩

/-- MD5 of `x`, in ASCII. -/
def fileDigest : Bytes := [57, 100, 100, 52, 101, 52, 54, 49, 50, 54, 56, 99, 56, 48, 51, 52,
  102, 53, 99, 56, 53, 54, 52, 101, 49, 53, 53, 99, 54, 55, 97, 54]

/-- MD5 of the two strings that get hashed below. -/
def twoDigests (x : Bytes) : Bytes :=
  if x = [120] then fileDigest
  else if x = fileDigest then [54, 52, 101, 98, 49, 56, 102, 54, 97, 56, 102, 55, 57, 51, 54, 56,
    57, 97, 100, 49, 101, 98, 49, 49, 51, 54, 102, 52, 51, 99, 99, 102]
  else List.replicate 32 48

theorem noCollisionsOnCopies_repeatedFile : NoCollisionsOnCopies twoDigests repeatedFile := by
  intro source destination hs hd hsame hsame'
  have hinputs : ∀ copy : Dir String Bytes, copy.WF → SameTree repeatedFile copy →
      ∀ x ∈ digestInputs twoDigests copy, x = [120] ∨ x = fileDigest := by
    intro copy hcopy hcopied x hx
    obtain ⟨cs, hcs, hx⟩ := hx
    rw [hashes_unique hcs
      (hashes_copy wf_repeatedFile (by simp) uniformLeaves_repeatedFile hcopy hcopied)] at hx
    simpa [CumulativeDigest.fed, twoDigests] using hx
  constructor
  · intro x
    unfold twoDigests
    split_ifs <;> rfl
  · have hboth : ∀ x ∈ digestInputs twoDigests source ∪ digestInputs twoDigests destination,
        x = [120] ∨ x = fileDigest :=
      fun x hx => hx.elim (hinputs source hs hsame x) (hinputs destination hd hsame' x)
    intro x hx y hy heq
    obtain rfl | rfl := hboth x hx <;> obtain rfl | rfl := hboth y hy <;> revert heq <;> decide

/-- All copies of a tree with one file in every directory are reported as
identical. -/
theorem reproducible_iff_repeated : Uniform repeatedFile ∧
    ∀ source destination : Dir String Bytes, source.WF → destination.WF →
      SameTree repeatedFile source → SameTree repeatedFile destination →
      Reproduced twoDigests "job" source destination (fun _ => none) := by
  have huniform : Uniform repeatedFile := ⟨1, [120], by simp, uniformLeaves_repeatedFile⟩
  exact ⟨huniform, (reproducible_iff wf_repeatedFile noCollisionsOnCopies_repeatedFile "job"
    fun _ => none).mpr huniform⟩

/-- A file in a sub-directory. -/
def nestedFile : Dir String Bytes := .sub "d" (.file "f" [120] .nil) .nil

/-- The file is opened in the top directory, where it is not. -/
theorem nestedFile_raises : nestedFile.WF ∧
    hashDirectory emptyDigest "job" "source" nestedFile (fun _ => none) =
      .error .fileNotFoundError ∧
    ¬ Reproduced emptyDigest "job" nestedFile nestedFile (fun _ => none) := by
  have hraises : hashDirectory emptyDigest "job" "source" nestedFile (fun _ => none) =
      .error .fileNotFoundError := rfl
  refine ⟨by simp [nestedFile, Dir.WF, Dir.names], hraises, ?_⟩
  rintro ⟨_, _, hok, -⟩
  rw [hraises] at hok
  cases hok

end ContainerHackathon.PyStager
