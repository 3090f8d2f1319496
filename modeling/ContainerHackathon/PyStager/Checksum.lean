import ContainerHackathon.Lib.CumulativeDigest
import ContainerHackathon.Lib.PathString
import ContainerHackathon.Lib.Python
import ContainerHackathon.Lib.TreeCopy
import ContainerHackathon.PyStager.Commands

/-!
# PyStager.Checksum

`hash_directory`, `md5` and the worker's verdict.  The digest function is a
parameter; a source or destination directory is the tree that the path
leads to, in the order in which `os.walk` meets its entries.

`hash_directory` collects the files of the whole walk in `files_list` and
then loops over `filenames`, which is what the last iteration of the walk
left there, opening these names in the top directory.  So the verdict
compares two sequences of top-level files (`reportsIdentical_iff`) and says
nothing about the trees (`reportsIdentical_sound_iff`).
-/

namespace ContainerHackathon.PyStager

open FileTree CumulativeDigest Python

/-- The hash texts in `current_path`, by file name. -/
abbrev Notes := String → Option Bytes

/-- The variables of the loop over the files: the bytes fed to `md5_hash`,
`hashed_file` (unbound at first) and what was written to the text file. -/
structure HashLoop where
  md5Hash : Bytes
  hashedFile : Option Bytes
  hashedTextNote : Bytes

section program

variable (hexdigest : Bytes → Bytes)

/-- The body of `for byte_block in iter(lambda: f.read(4096),b"")`. -/
def updateBlock (loop : HashLoop) (byteBlock : Bytes) : HashLoop :=
  { loop with
    md5Hash := loop.md5Hash ++ byteBlock
    hashedFile := some (hexdigest (loop.md5Hash ++ byteBlock)) }

/-- One file, opened: feed its blocks, then write `hashed_file`. -/
def hashContent (loop : HashLoop) (content : Bytes) : Except PyError HashLoop :=
  let loop := (readBlocks 4096 content.length content).foldl (updateBlock hexdigest) loop
  match loop.hashedFile with
  | none => .error .unboundLocalError
  | some hashedFile => .ok { loop with hashedTextNote := loop.hashedTextNote ++ hashedFile }

/-- The body of `for file_to_process in filenames`, in the working
directory `directory_to_process`. -/
def hashFile (directory : Dir String Bytes) (loop : HashLoop) (fileToProcess : String) :
    Except PyError HashLoop :=
  match directory.child? fileToProcess with
  | none => .error .fileNotFoundError
  | some (.dir _) => .error .isADirectoryError
  | some (.file content) => hashContent hexdigest loop content

/-- `hash_directory`: leave the hash text of `directory` among the notes. -/
def hashDirectory (jobName inputStatus : String) (directory : Dir String Bytes) (notes : Notes) :
    Except PyError Notes :=
  (directory.lastFilenames.foldlM (hashFile hexdigest directory) ⟨[], none, []⟩).bind fun loop =>
    .ok (Function.update notes (hashRepoText inputStatus jobName) (some loop.hashedTextNote))

/-- `md5(fname)`. -/
def md5 (notes : Notes) (fname : String) : Except PyError Bytes :=
  match notes fname with
  | none => .error .fileNotFoundError
  | some content =>
      .ok (hexdigest ((readBlocks 4096 content.length content).foldl (· ++ ·) []))

/-- The checksum part of a job with both status flags set; the transfer
itself happens between the two calls of `hash_directory`. -/
def verifyJob (job : String) (source destination : Dir String Bytes) (notes : Notes) :
    Except PyError (String × Notes) :=
  (hashDirectory hexdigest job "source" source notes).bind fun notes =>
  (hashDirectory hexdigest job "destination" destination notes).bind fun notes =>
  let sourceHashText := hashRepoText "source" job
  let destinationHashText := hashRepoText "destination" job
  (md5 hexdigest notes sourceHashText).bind fun s =>
  (md5 hexdigest notes destinationHashText).bind fun d =>
  if s = d then
    .ok (identicalMsg job,
      Function.update (Function.update notes sourceHashText none) destinationHashText none)
  else .ok (unverifiedMsg job, notes)

/-- The worker reports that the files are identical. -/
def ReportsIdentical (job : String) (source destination : Dir String Bytes) (notes : Notes) :
    Prop :=
  ∃ notes', verifyJob hexdigest job source destination notes = .ok (identicalMsg job, notes')

end program

/-! ## what reaches the hash text -/

/-- The content of a name opened in the working directory, if it is a file. -/
def openedContent (directory : Dir String Bytes) (n : String) : Option Bytes :=
  match directory.child? n with
  | some (.file content) => some content
  | _ => none

/-- `hash_directory` gets through, over these contents: every name it loops
over is that of a top-level file, and the first file is not empty. -/
def Hashes (directory : Dir String Bytes) (contents : List Bytes) : Prop :=
  directory.lastFilenames.mapM (openedContent directory) = some contents ∧
    contents.head? ≠ some []

variable {hexdigest : Bytes → Bytes} {directory source destination : Dir String Bytes}

/-- The loop's variables when `seen` has been fed and `note` written. -/
def HashLoop.after (hexdigest : Bytes → Bytes) (seen note : Bytes) : HashLoop :=
  ⟨seen, if seen = [] then none else some (hexdigest seen), note⟩

theorem foldl_updateBlock {blocks : List Bytes} (h : ∀ b ∈ blocks, b ≠ []) (seen note : Bytes) :
    blocks.foldl (updateBlock hexdigest) (.after hexdigest seen note) =
      .after hexdigest (seen ++ blocks.flatten) note := by
  induction blocks generalizing seen with
  | nil => simp
  | cons b blocks ih =>
      rw [List.forall_mem_cons] at h
      have hstep : updateBlock hexdigest (.after hexdigest seen note) b =
          .after hexdigest (seen ++ b) note := by
        simp [updateBlock, HashLoop.after, h.1]
      rw [List.foldl_cons, hstep, ih h.2, List.flatten_cons, List.append_assoc]

/-- One file: its bytes are added to all bytes before it. -/
theorem hashContent_after (seen note content : Bytes) :
    hashContent hexdigest (.after hexdigest seen note) content =
      if seen ++ content = [] then .error .unboundLocalError
      else .ok (.after hexdigest (seen ++ content) (note ++ hexdigest (seen ++ content))) := by
  have hne : ∀ b ∈ readBlocks 4096 content.length content, b ≠ [] :=
    fun _ => ne_nil_of_mem_readBlocks
  have hblocks : _ = HashLoop.after hexdigest _ note := foldl_updateBlock hne seen note
  rw [flatten_readBlocks (by decide) (Nat.le_refl _)] at hblocks
  simp only [hashContent]
  rw [hblocks]
  by_cases hnil : seen ++ content = []
  · simp only [HashLoop.after, hnil, if_true]
  · simp only [HashLoop.after, hnil, if_false]

/-- More entries do not change what a name opens. -/
theorem openedContent_append {d e : Dir String Bytes} {n : String} {content : Bytes}
    (h : openedContent d n = some content) : openedContent (d.append e) n = some content := by
  have hmem : n ∈ d.names := by
    rw [openedContent] at h
    split at h
    · next he => exact mem_names_of_child? he
    · cases h
  rwa [openedContent, child?_append_of_mem e hmem]

/-- A name that is no file ends the loop. -/
theorem hashFile_ok {loop loop' : HashLoop} {n : String}
    (h : hashFile hexdigest directory loop n = .ok loop') : ∃ content,
      openedContent directory n = some content ∧ hashContent hexdigest loop content = .ok loop' := by
  rw [hashFile] at h
  split at h
  · cases h
  · cases h
  · next content he => exact ⟨content, by rw [openedContent, he], h⟩

theorem hashFile_of_opened {loop : HashLoop} {n : String} {content : Bytes}
    (h : openedContent directory n = some content) :
    hashFile hexdigest directory loop n = hashContent hexdigest loop content := by
  rw [openedContent] at h
  split at h
  · next he =>
    rw [hashFile, he]
    rw [Option.some.inj h]
  · cases h

/-- A loop that gets through has opened every name, and the first bytes
came before the first write. -/
theorem exists_opened_of_foldlM_hashFile {names : List String} {seen note : Bytes}
    {loop : HashLoop}
    (h : names.foldlM (hashFile hexdigest directory) (.after hexdigest seen note) = .ok loop) :
    ∃ cs, names.mapM (openedContent directory) = some cs ∧ (seen = [] → cs.head? ≠ some []) := by
  induction names generalizing seen note with
  | nil => exact ⟨[], rfl, by simp⟩
  | cons n names ih =>
      rw [List.foldlM_cons] at h
      obtain ⟨mid, hmid, h⟩ := except_bind_eq_ok h
      obtain ⟨content, hopen, hcontent⟩ := hashFile_ok hmid
      rw [hashContent_after] at hcontent
      by_cases hnil : seen ++ content = []
      · rw [if_pos hnil] at hcontent
        cases hcontent
      · rw [if_neg hnil] at hcontent
        have hmid' := Except.ok.inj hcontent
        subst hmid'
        obtain ⟨cs, hcs, -⟩ := ih h
        have hhead : seen = [] → (content :: cs).head? ≠ some [] := fun hseen => by
          subst hseen
          simpa using hnil
        exact ⟨content :: cs, mapM_cons_eq_some_iff.mpr ⟨content, cs, hopen, hcs, rfl⟩, hhead⟩

variable (hexdigest) in
/-- Files that can be opened, the first bytes before the first write: every
file adds the digest of all bytes so far. -/
theorem foldlM_hashFile {names : List String} {cs : List Bytes} (seen note : Bytes)
    (hcs : names.mapM (openedContent directory) = some cs) (hhead : seen = [] → cs.head? ≠ some []) :
    names.foldlM (hashFile hexdigest directory) (.after hexdigest seen note) =
      .ok (.after hexdigest (seen ++ cs.flatten) (note ++ (fed seen cs).flatMap hexdigest)) := by
  induction names generalizing seen note cs with
  | nil =>
      obtain rfl : cs = [] := by simpa using hcs.symm
      simp [fed, Pure.pure, Except.pure]
  | cons n names ih =>
      obtain ⟨content, ds, hopen, hds, hcons⟩ := mapM_cons_eq_some_iff.mp hcs
      subst hcons
      have hnil : seen ++ content ≠ [] := fun hnil => by
        obtain ⟨hseen, hcontent⟩ := List.append_eq_nil_iff.mp hnil
        exact hhead hseen (by rw [hcontent, List.head?_cons])
      rw [List.foldlM_cons, hashFile_of_opened hopen, hashContent_after, if_neg hnil]
      have hrest := ih (seen ++ content) (note ++ hexdigest (seen ++ content)) hds
        fun h => absurd h hnil
      exact hrest.trans (by simp [fed])

/-- **`hash_directory`** writes the digests of the growing prefixes of the
files it opens. -/
theorem hashDirectory_of_hashes (jobName inputStatus : String) (notes : Notes) {cs : List Bytes}
    (h : Hashes directory cs) :
    hashDirectory hexdigest jobName inputStatus directory notes = .ok (Function.update notes
      (hashRepoText inputStatus jobName) (some ((fed [] cs).flatMap hexdigest))) := by
  have hrun := foldlM_hashFile hexdigest [] [] h.1 fun _ => h.2
  simp only [HashLoop.after, if_true] at hrun
  rw [hashDirectory, hrun]
  rfl

/-- It raises in all other cases. -/
theorem exists_hashes_of_hashDirectory {jobName inputStatus : String} {notes notes' : Notes}
    (h : hashDirectory hexdigest jobName inputStatus directory notes = .ok notes') :
    ∃ cs, Hashes directory cs := by
  obtain ⟨loop, hloop, -⟩ := except_bind_eq_ok h
  have hstart : (⟨[], none, []⟩ : HashLoop) = .after hexdigest [] [] := rfl
  rw [hstart] at hloop
  obtain ⟨cs, hcs, hhead⟩ := exists_opened_of_foldlM_hashFile hloop
  exact ⟨cs, hcs, hhead rfl⟩

theorem md5_eq {notes : Notes} {fname : String} {content : Bytes} (h : notes fname = some content) :
    md5 hexdigest notes fname = .ok (hexdigest content) := by
  have hfold : ∀ (blocks : List Bytes) (acc : Bytes),
      blocks.foldl (· ++ ·) acc = acc ++ blocks.flatten := by
    intro blocks
    induction blocks with
    | nil => simp
    | cons b blocks ih => simp [ih]
  simp only [md5, h, hfold, List.nil_append, flatten_readBlocks (k := 4096) (by decide) (Nat.le_refl _)]

variable (hexdigest) in
/-- What the notes hold when both directories have been hashed. -/
theorem verifyJob_eq (job : String) (notes : Notes) {cs ds : List Bytes} (hcs : Hashes source cs)
    (hds : Hashes destination ds) : ∃ n1 n2,
      verifyJob hexdigest job source destination notes =
        if hexdigest ((fed [] cs).flatMap hexdigest) = hexdigest ((fed [] ds).flatMap hexdigest)
        then .ok (identicalMsg job, n1) else .ok (unverifiedMsg job, n2) := by
  have hne := hashRepoText_source_ne job
  rw [verifyJob, hashDirectory_of_hashes _ _ _ hcs, Except.bind,
    hashDirectory_of_hashes _ _ _ hds, Except.bind]
  simp only []
  rw [md5_eq ((Function.update_of_ne hne _ _).trans (Function.update_self ..)),
    md5_eq (Function.update_self ..)]
  exact ⟨_, _, rfl⟩

/-- **The verdict** 'files are identical': both hash texts get written, and
they have the same digest. -/
theorem reportsIdentical_iff (job : String) (notes : Notes) :
    ReportsIdentical hexdigest job source destination notes ↔
      ∃ cs ds, Hashes source cs ∧ Hashes destination ds ∧
        hexdigest ((fed [] cs).flatMap hexdigest) = hexdigest ((fed [] ds).flatMap hexdigest) := by
  constructor
  · intro hreports
    obtain ⟨notes', h⟩ := hreports
    obtain ⟨n1, hs, h'⟩ := except_bind_eq_ok h
    obtain ⟨n2, hd, -⟩ := except_bind_eq_ok h'
    obtain ⟨cs, hcs⟩ := exists_hashes_of_hashDirectory hs
    obtain ⟨ds, hds⟩ := exists_hashes_of_hashDirectory hd
    obtain ⟨m1, m2, heq⟩ := verifyJob_eq hexdigest job notes hcs hds
    rw [heq] at h
    split at h
    · next hdigest => exact ⟨cs, ds, hcs, hds, hdigest⟩
    · exact absurd (congrArg Prod.fst (Except.ok.inj h)).symm (identicalMsg_ne_unverifiedMsg job)
  · intro htexts
    obtain ⟨cs, ds, hcs, hds, hdigest⟩ := htexts
    obtain ⟨m1, m2, heq⟩ := verifyJob_eq hexdigest job notes hcs hds
    rw [if_pos hdigest] at heq
    exact ⟨m1, heq⟩

/-! ## soundness -/

/-- The same files at the same relative paths. -/
def SameFiles (source destination : Dir String Bytes) : Prop :=
  ∀ path content, (path, content) ∈ source.files ↔ (path, content) ∈ destination.files

/-- The byte strings whose digests the check of one directory takes: the
growing prefixes, and the text made of their digests. -/
def digestInputs (hexdigest : Bytes → Bytes) (directory : Dir String Bytes) : Set Bytes :=
  {x | ∃ cs, Hashes directory cs ∧ (x ∈ fed [] cs ∨ x = (fed [] cs).flatMap hexdigest)}

/-- The digest function has digests of one length and no collision on the
strings involved. -/
structure NoCollisions (hexdigest : Bytes → Bytes) (source destination : Dir String Bytes) :
    Prop where
  length : ∀ x, (hexdigest x).length = 32
  injOn : Set.InjOn hexdigest (digestInputs hexdigest source ∪ digestInputs hexdigest destination)

/-- Without collisions the verdict compares the sequences of opened files. -/
theorem reportsIdentical_iff_hashes (h : NoCollisions hexdigest source destination) (job : String)
    (notes : Notes) : ReportsIdentical hexdigest job source destination notes ↔
      ∃ cs, Hashes source cs ∧ Hashes destination cs := by
  rw [reportsIdentical_iff]
  constructor
  · intro htexts
    obtain ⟨cs, ds, hcs, hds, hdigest⟩ := htexts
    have hnotes := h.injOn (.inl ⟨cs, hcs, .inr rfl⟩) (.inr ⟨ds, hds, .inr rfl⟩) hdigest
    have hsub : {x | x ∈ fed [] cs ∨ x ∈ fed [] ds} ⊆
        digestInputs hexdigest source ∪ digestInputs hexdigest destination :=
      Set.union_subset_union (fun _ hx => ⟨cs, hcs, .inl hx⟩) fun _ hx => ⟨ds, hds, .inl hx⟩
    have hcd := eq_of_flatMap_fed (by decide) h.length (h.injOn.mono hsub) hnotes
    exact ⟨cs, hcs, hcd ▸ hds⟩
  · exact fun ⟨cs, hcs, hds⟩ => ⟨cs, cs, hcs, hds, rfl⟩

/-- Names that no directory uses yet are not hard to find. -/
theorem exists_fresh_name (used : List String) : ∃ n, PathString.IsName n ∧ n ∉ used := by
  have hinj : Function.Injective fun k : Nat => String.ofList (List.replicate (k + 1) 'a') := by
    intro j k h
    have hlen := congrArg (fun s => s.toList.length) h
    simpa using hlen
  obtain ⟨n, ⟨k, rfl⟩, hn⟩ := (Set.infinite_range_of_injective hinj).exists_notMem_finset
    used.toFinset
  have hlist : (String.ofList (List.replicate (k + 1) 'a')).toList = 'a' :: List.replicate k 'a' := by
    rw [String.toList_ofList, List.replicate_succ]
  have hne : ∀ s : String, s.toList.head? ≠ some 'a' →
      String.ofList (List.replicate (k + 1) 'a') ≠ s := fun s hs he =>
    hs (by rw [← he, hlist, List.head?_cons])
  refine ⟨_, ⟨hne _ (by decide), hne _ (by decide), hne _ (by decide), ?_, ?_⟩, by simpa using hn⟩
  · simp [hlist]
  · simp [hlist]

/-- **Blind spot.**  Beside every source that can be hashed there is a
destination with one more file that hashes to the same text: a sub-directory
with the right names is visited last. -/
theorem exists_unsound (hwf : source.WF) (hnamed : source.Named PathString.IsName) {cs : List Bytes}
    (hcs : Hashes source cs) : ∃ destination : Dir String Bytes, destination.WF ∧
      destination.Named PathString.IsName ∧ Hashes destination cs ∧
      ¬ SameFiles source destination := by
  obtain ⟨x, hx, hxs⟩ := exists_fresh_name source.names
  obtain ⟨y, hy, hys⟩ := exists_fresh_name (x :: source.names)
  have hnodup : source.lastFilenames.Nodup := lastFilenames_of_forall (P := PathString.IsName)
    (fun e he _ => nodup_filenames he) hwf hnamed
  have hnames : ∀ n ∈ source.lastFilenames, PathString.IsName n :=
    lastFilenames_of_forall (Q := fun ns => ∀ n ∈ ns, PathString.IsName n)
      (fun e _ he => named_filenames he) hwf hnamed
  have hxwf : (source.append (.file x [] .nil)).WF :=
    wf_append hwf ⟨by simp [Dir.names], trivial⟩ fun n hn hnx =>
      hxs (by rw [← List.mem_singleton.mp hnx]; exact hn)
  refine ⟨(source.append (.file x [] .nil)).append
    (.sub y (.ofNames [] source.lastFilenames) .nil), ?_, ?_, ⟨?_, hcs.2⟩, ?_⟩
  · refine wf_append hxwf ⟨by simp [Dir.names], wf_ofNames [] hnodup, trivial⟩ ?_
    intro n hn hny
    simp only [Dir.names, List.mem_singleton] at hny
    subst hny
    simp [Dir.names] at hn hys
    tauto
  · exact named_append (named_append hnamed ⟨hx, trivial⟩) ⟨hy, named_ofNames [] hnames, trivial⟩
  · rw [lastFilenames_moveLast, lastFilenames_of_leaf (dirnames_ofNames ..), filenames_ofNames]
    exact mapM_eq_some_of_forall (fun n c hc => openedContent_append (openedContent_append hc)) hcs.1
  · intro hsame
    refine notMem_files_of_notMem_names hxs [] [] ((hsame [x] []).mpr ?_)
    simp [Dir.files]

theorem hashes_unique {cs ds : List Bytes} (hcs : Hashes directory cs) (hds : Hashes directory ds) :
    cs = ds := Option.some.inj (hcs.1.symm.trans hds.1)

/-- A destination with the same sequence of opened files brings no new
strings into play. -/
theorem noCollisions_of_hashes (h : NoCollisions hexdigest source source) {cs : List Bytes}
    (hcs : Hashes source cs) (hds : Hashes destination cs) :
    NoCollisions hexdigest source destination := by
  have hsub : digestInputs hexdigest destination ⊆ digestInputs hexdigest source :=
    fun x ⟨ds, hds', hx⟩ => ⟨cs, hcs, hashes_unique hds' hds ▸ hx⟩
  exact ⟨h.length, h.injOn.mono (Set.union_subset_union_right _ hsub)⟩

/-- **The verdict is sound** for a source, whatever the destination, only
if `hash_directory` raises on the source; for a pair of directories, if
they have the same files or the sequences of opened files differ. -/
theorem reportsIdentical_sound_iff (hwf : source.WF) (hnamed : source.Named PathString.IsName)
    (h : NoCollisions hexdigest source source) (job : String) (notes : Notes) :
    ((∀ destination : Dir String Bytes, destination.WF → destination.Named PathString.IsName →
        NoCollisions hexdigest source destination →
        ReportsIdentical hexdigest job source destination notes → SameFiles source destination) ↔
      ¬ ∃ cs, Hashes source cs) ∧
    ∀ destination : Dir String Bytes, NoCollisions hexdigest source destination →
      ((ReportsIdentical hexdigest job source destination notes → SameFiles source destination) ↔
        SameFiles source destination ∨ ¬ ∃ cs, Hashes source cs ∧ Hashes destination cs) := by
  refine ⟨⟨?_, ?_⟩, fun destination hd => ?_⟩
  · intro hsound hruns
    obtain ⟨cs, hcs⟩ := hruns
    obtain ⟨destination, hwf', hnamed', hds, hdiffer⟩ := exists_unsound hwf hnamed hcs
    have hd := noCollisions_of_hashes h hcs hds
    exact hdiffer (hsound destination hwf' hnamed' hd
      ((reportsIdentical_iff_hashes hd job notes).mpr ⟨cs, hcs, hds⟩))
  · intro hraises destination _ _ hd hreports
    obtain ⟨cs, hcs, -⟩ := (reportsIdentical_iff_hashes hd job notes).mp hreports
    exact absurd ⟨cs, hcs⟩ hraises
  · rw [reportsIdentical_iff_hashes hd, imp_iff_not_or, or_comm]

/-- A file beside an empty directory: the walk ends in the latter. -/
def shadowedFile (content : Bytes) : Dir String Bytes := .file "f" content (.sub "d" .nil .nil)

theorem wf_shadowedFile (content : Bytes) : (shadowedFile content).WF := by
  simp [shadowedFile, Dir.WF, Dir.names]

/-- MD5 of the empty string, in ASCII; nothing else gets hashed below. -/
def emptyDigest : Bytes → Bytes
  | [] => [100, 52, 49, 100, 56, 99, 100, 57, 56, 102, 48, 48, 98, 50, 48, 52,
      101, 57, 56, 48, 48, 57, 57, 56, 101, 99, 102, 56, 52, 50, 55, 101]
  | _ :: _ => List.replicate 32 48

/-- Where nothing is opened, only the empty string is hashed. -/
theorem noCollisions_of_hashes_nil (hs : Hashes source []) (hd : Hashes destination []) :
    NoCollisions emptyDigest source destination where
  length x := by cases x <;> rfl
  injOn := by
    have hone : ∀ directory : Dir String Bytes, Hashes directory [] →
        ∀ x ∈ digestInputs emptyDigest directory, x = [] := by
      intro directory hnil x hx
      obtain ⟨cs, hcs, hx⟩ := hx
      rw [hashes_unique hcs hnil] at hx
      simpa [fed] using hx
    have hnil : ∀ x ∈ digestInputs emptyDigest source ∪ digestInputs emptyDigest destination,
        x = [] := fun x hx => hx.elim (hone source hs x) (hone destination hd x)
    exact fun x hx y hy _ => (hnil x hx).trans (hnil y hy).symm

theorem hashes_shadowedFile (content : Bytes) : Hashes (shadowedFile content) [] :=
  ⟨rfl, by simp⟩

theorem noCollisions_shadowedFile (a b : Bytes) :
    NoCollisions emptyDigest (shadowedFile a) (shadowedFile b) :=
  noCollisions_of_hashes_nil (hashes_shadowedFile a) (hashes_shadowedFile b)

/-- Two different files are reported as identical. -/
theorem shadowedFile_unsound :
    NoCollisions emptyDigest (shadowedFile [120]) (shadowedFile [121]) ∧
    ReportsIdentical emptyDigest "job" (shadowedFile [120]) (shadowedFile [121]) (fun _ => none) ∧
    ¬ SameFiles (shadowedFile [120]) (shadowedFile [121]) := by
  have hn := noCollisions_shadowedFile [120] [121]
  refine ⟨hn, (reportsIdentical_iff_hashes hn _ _).mpr
    ⟨[], hashes_shadowedFile _, hashes_shadowedFile _⟩, fun hsame => ?_⟩
  have hmem := (hsame ["f"] [120]).mp (by decide)
  exact absurd hmem (by decide)

theorem reportsIdentical_sound_iff_shadowed :
    ¬ ∀ destination : Dir String Bytes, destination.WF → destination.Named PathString.IsName →
      NoCollisions emptyDigest (shadowedFile [120]) destination →
      ReportsIdentical emptyDigest "job" (shadowedFile [120]) destination (fun _ => none) →
      SameFiles (shadowedFile [120]) destination := by
  have hnamed : (shadowedFile [120]).Named PathString.IsName := by
    simp only [shadowedFile, Dir.Named]
    decide
  have h := reportsIdentical_sound_iff (wf_shadowedFile _) hnamed (noCollisions_shadowedFile _ _) "job"
    (fun _ => none)
  exact fun hall => h.1.mp hall ⟨[], hashes_shadowedFile _⟩

end ContainerHackathon.PyStager
