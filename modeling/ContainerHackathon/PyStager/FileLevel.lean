import ContainerHackathon.PyStager.Quoting
import ContainerHackathon.PyStager.Scanner

/-!
# PyStager.FileLevel

A run at load level 1, from the scan to the files in the destination.  The
scan collects the files of all directories under their base names, and
everything after it looks for these names directly in the source; so the
run does what it should exactly for flat sources (`stagesFiles_iff`).

`rsync` is a parameter, with what its manual says about copying one regular
file as hypotheses.  Without further options it takes a file of the same
size and time at the destination for the file it is to copy, so the run
also needs that no such file is there by chance.
-/

namespace ContainerHackathon.PyStager

open PathString FileTree Shell

/-! ## file systems and rsync -/

/-- What can stand at a location; a file with the time of its last change. -/
inductive Node
  | dir
  | file (content : Bytes) (time : Nat)
  deriving DecidableEq, Repr

/-- What is at each location. -/
abbrev Fs := Location → Option Node

/-- A directory tree as a file system, given the times of its files. -/
def Fs.ofTree (root : Dir String Bytes) (times : Location → Nat) : Fs := fun loc =>
  match root.at? loc with
  | none => none
  | some (.dir _) => some .dir
  | some (.file content) => some (.file content (times loc))

/-- An operand that names a local file: it is no option, and no `:` stands
before its first slash. -/
def IsLocal (s : String) : Prop :=
  s.toList.head? ≠ some '-' ∧ ':' ∉ s.toList.takeWhile (fun c => c ≠ '/')

instance (s : String) : Decidable (IsLocal s) := inferInstanceAs (Decidable (_ ∧ _))

theorem isLocal_append_slash {a : String} (h : IsLocal a) (hne : a ≠ "") (b : String) :
    IsLocal (a ++ "/" ++ b) := by
  have hlist : (a ++ "/" ++ b).toList = a.toList ++ '/' :: b.toList := by simp
  rw [IsLocal, hlist, List.head?_append_of_ne_nil _ (toList_ne_nil hne), List.takeWhile_append]
  refine ⟨h.1, ?_⟩
  split
  · next hlen =>
    rw [List.takeWhile_cons_of_neg (by simp), List.append_nil]
    intro hmem
    refine h.2 ?_
    rwa [List.IsPrefix.eq_of_length (List.takeWhile_prefix _) hlen]
  · exact h.2

/-- A successful `rsync SRC DEST` in a working directory. -/
abbrev Rsync := Location → String → String → Fs → Fs

/-- What is relied on when the operands are local and `SRC` names no
directory: the file ends up at `DEST`, or inside it if it is a directory,
and nothing else changes.  A file at `DEST` with the size and the time of
the source file is left alone. -/
structure RsyncSpec (rsync : Rsync) : Prop where
  frame : ∀ cwd src dst fs loc, IsLocal src → IsLocal dst →
    ¬ resolve cwd dst <+: loc → rsync cwd src dst fs loc = fs loc
  keepsDir : ∀ cwd src dst fs, IsLocal src → IsLocal dst →
    fs (resolve cwd dst) = some .dir → rsync cwd src dst fs (resolve cwd dst) = some .dir
  skips : ∀ cwd src dst fs content old time, IsLocal src → IsLocal dst →
    fs (resolve cwd src) = some (.file content time) →
    fs (resolve cwd dst) = some (.file old time) → old.length = content.length →
    rsync cwd src dst fs = fs
  copies : ∀ cwd src dst fs content time, IsLocal src → IsLocal dst →
    fs (resolve cwd src) = some (.file content time) →
    fs (resolve cwd dst).dropLast = some .dir → fs (resolve cwd dst) ≠ some .dir →
    (∀ old, fs (resolve cwd dst) = some (.file old time) → old.length ≠ content.length) →
    ∃ written, rsync cwd src dst fs =
      Function.update fs (resolve cwd dst) (some (.file content written))

/-! ## the run -/

/-- `os.system` on a command line that calls `rsync` with two pathnames. -/
def runRsync (rsync : Rsync) (environment : String → Option (List String)) (cwd : Location)
    (line : String) (fs : Fs) : Fs :=
  match arguments environment line with
  | some [command, src, dst] => if command = "rsync" then rsync cwd src dst fs else fs
  | _ => fs

/-- A worker's job at load level 1. -/
def fileJob (rsync : Rsync) (environment : String → Option (List String)) (cwd : Location)
    (params : Params) (fs : Fs) (job : String) : Fs :=
  runRsync rsync environment cwd (rsyncFileStr params.sourceDir params.destinationDir job) fs

/-- An order in which the workers together may come to their jobs. -/
def IsSchedule (p : Nat) (transferDict : TransferDict) (order : List String) : Prop :=
  order.Perm (allJobs p transferDict) ∧
    ∀ w, 1 ≤ w → w < p → (jobList ((transferDict w).getD none)).Sublist order

/-- The run does not raise, every file is handed out once, its size counted
once, and whatever the order of the jobs it arrives at its place. -/
def StagesFiles (rsync : Rsync) (environment : String → Option (List String)) (os : Os)
    (cwd : Location) (params : Params) (p : Nat) (source : Dir String Bytes) (fs : Fs) : Prop :=
  ∃ scan transferDict, directoryScanner os params.sourceDir .file = .ok scan ∧
    loadDistributor scan .file p = .ok transferDict ∧
    ((allJobs p transferDict).map (fun f => [f])).Perm (source.files.map Prod.fst) ∧
    scan.totalSizeSource = ((source.files.map (fun x => x.2.length)).sum : Nat) / 1000000 ∧
    ∀ order, IsSchedule p transferDict order → ∀ path content, (path, content) ∈ source.files →
      ∃ time, order.foldl (fileJob rsync environment cwd params) fs
        (resolve cwd params.destinationDir ++ path) = some (.file content time)

/-- A name that the command line and the distributor pass on unchanged. -/
def IsFileName (n : String) : Prop := IsName n ∧ PlainWord n.toList

instance (n : String) : Decidable (IsFileName n) := inferInstanceAs (Decidable (_ ∧ _))

/-! ## the command of a job -/

variable {rsync : Rsync} {environment : String → Option (List String)} {cwd : Location}
  {params : Params} {p : Nat} {root source : Dir String Bytes} {duSize : Entry String Bytes → Nat}
  {dirSize : Dir String Bytes → Nat} {times : Location → Nat}

theorem rsyncFile_arguments {sourceDir destinationDir job : String}
    (hsource : FreeOfMeta sourceDir) (hdest : FreeOfMeta destinationDir)
    (hjob : PlainWord job.toList) (environment : String → Option (List String)) :
    arguments environment (rsyncFileStr sourceDir destinationDir job) =
      some ["rsync", sourceDir ++ "/" ++ job, destinationDir ++ "/" ++ job] := by
  have hword : ∀ dir : String, FreeOfMeta dir → PlainWord ((dir.toList ++ ['/']) ++ job.toList) :=
    fun dir hdir => hjob.prepend (List.forall_mem_append.mpr ⟨List.all_eq_true.mp hdir, fun c hc => by
      rw [List.mem_singleton.mp hc]; rfl⟩)
  have hcommand : ∀ w ∈ ["rsync".toList], PlainWord w := by decide
  have hline : (rsyncFileStr sourceDir destinationDir job).toList =
      blankEnded ["rsync".toList] ++ ' ' :: (blankEnded [(sourceDir.toList ++ ['/']) ++ job.toList] ++
        ((destinationDir.toList ++ ['/']) ++ job.toList)) := by
    simp [rsyncFileStr, blankEnded]
  have htokens : tokens (rsyncFileStr sourceDir destinationDir job).toList =
      .ok (["rsync".toList, (sourceDir.toList ++ ['/']) ++ job.toList] ++
        [(destinationDir.toList ++ ['/']) ++ job.toList]) := by
    rw [hline, tokens_skip_blank hcommand, ← tokens_plain _ _ (by
      simp only [List.forall_mem_cons]
      exact ⟨hcommand _ List.mem_cons_self, hword _ hsource, by simp⟩) (hword _ hdest)]
    simp [blankEnded]
  rw [arguments_of_tokens htokens]
  simp [← String.toList_inj]

/-- A job with a file name runs `rsync` between the two namesakes. -/
theorem fileJob_eq (hsource : FreeOfMeta params.sourceDir) (hdest : FreeOfMeta params.destinationDir)
    {job : String} (hjob : IsFileName job) (fs : Fs) :
    fileJob rsync environment cwd params fs job =
      rsync cwd (params.sourceDir ++ "/" ++ job) (params.destinationDir ++ "/" ++ job) fs := by
  rw [fileJob, runRsync, rsyncFile_arguments hsource hdest hjob.2]
  exact if_pos rfl

variable (rsync environment cwd) in
/-- The operands of a job, and where they lead. -/
theorem exists_operands (hslash : endsWithSlash params.sourceDir)
    (hsource : FreeOfMeta params.sourceDir) (hdest : FreeOfMeta params.destinationDir)
    (hsrcLocal : IsLocal params.sourceDir) (hdstLocal : IsLocal params.destinationDir)
    (hne : params.destinationDir ≠ "") {n : String} (hname : IsFileName n) : ∃ src dst,
    (resolve cwd src = resolve cwd params.sourceDir ++ [n] ∧
      resolve cwd dst = resolve cwd params.destinationDir ++ [n]) ∧ (IsLocal src ∧ IsLocal dst) ∧
    ∀ fs, fileJob rsync environment cwd params fs n = rsync cwd src dst fs := by
  have hsne := ne_empty_of_endsWithSlash hslash
  refine ⟨_, _, ⟨?_, ?_⟩, ⟨?_, ?_⟩, fileJob_eq hsource hdest hname⟩
  · exact resolve_append_slash_name hsne hname.1 cwd
  · exact resolve_append_slash_name hne hname.1 cwd
  · exact isLocal_append_slash hsrcLocal hsne n
  · exact isLocal_append_slash hdstLocal hne n

/-! ## flat sources -/

section run

variable (spec : RsyncSpec rsync)
  (hroot : lookup root cwd params.sourceDir = some (.dir source)) (hwf : source.WF)
  (hnamed : source.Named IsFileName) (hslash : endsWithSlash params.sourceDir)
  (hsource : FreeOfMeta params.sourceDir) (hdest : FreeOfMeta params.destinationDir)
  (hsrcLocal : IsLocal params.sourceDir) (hdstLocal : IsLocal params.destinationDir)
  (hne : params.destinationDir ≠ "")

/-- The source as a part of the file system. -/
theorem at?_source (hroot : lookup root cwd params.sourceDir = some (.dir source)) :
    root.at? (resolve cwd params.sourceDir) = some (.dir source) := by
  obtain ⟨loc, hfollow, hat⟩ := Option.bind_eq_some_iff.mp hroot
  rwa [resolve_of_follow hfollow]

theorem ofTree_source (hroot : lookup root cwd params.sourceDir = some (.dir source))
    (hwf : source.WF) {path : Location} {content : Bytes} (h : (path, content) ∈ source.files) :
    Fs.ofTree root times (resolve cwd params.sourceDir ++ path) =
      some (.file content (times (resolve cwd params.sourceDir ++ path))) := by
  rw [Fs.ofTree, at?_append (at?_source hroot), (mem_files_iff hwf path content).mp h]

theorem isFileName_of_mem (hnamed : source.Named IsFileName) {n : String} {content : Bytes}
    (h : ([n], content) ∈ source.files) : IsFileName n :=
  named_of_mem_files hnamed h n (List.mem_singleton_self n)

/-- Two files of one name are one file. -/
theorem content_unique (hwf : source.WF) {path : Location} {a b : Bytes}
    (ha : (path, a) ∈ source.files) (hb : (path, b) ∈ source.files) : a = b := by
  have h := (mem_files_iff hwf path a).mp ha
  rw [(mem_files_iff hwf path b).mp hb] at h
  simpa [eq_comm] using h

/-- The place for the copy of a file: there is no directory, and a file
that passes for the source file is a copy of it. -/
def GoodTarget (target : Option Node) (content : Bytes) (time : Nat) : Prop :=
  target ≠ some .dir ∧
    ∀ old, target = some (.file old time) → old.length = content.length → old = content

instance (target : Option Node) (content : Bytes) (time : Nat) :
    Decidable (GoodTarget target content time) :=
  match target with
  | none => isTrue ⟨by simp, by simp⟩
  | some .dir => isFalse fun h => h.1 rfl
  | some (.file old oldTime) =>
      decidable_of_iff (oldTime = time → old.length = content.length → old = content)
        (by simp +contextual [GoodTarget, eq_comm])

theorem goodTarget_copy (content : Bytes) (time written : Nat) :
    GoodTarget (some (.file content written)) content time := by
  refine ⟨by simp, fun old h _ => ?_⟩
  simp only [Option.some.injEq, Node.file.injEq] at h
  exact h.1.symm

/-- What holds of the file system while a flat source is being copied. -/
structure Copying (cwd : Location) (params : Params) (source : Dir String Bytes) (fs : Fs) : Prop where
  destDir : fs (resolve cwd params.destinationDir) = some .dir
  sources : ∀ n content, ([n], content) ∈ source.files →
    ∃ time, fs (resolve cwd params.sourceDir ++ [n]) = some (.file content time) ∧
      GoodTarget (fs (resolve cwd params.destinationDir ++ [n])) content time

include spec hnamed hslash hsource hdest hsrcLocal hdstLocal hne

variable (environment) in
/-- A job of a flat source leaves a copy at its own target and everything
else alone. -/
theorem fileJob_copying {fs : Fs} (h : Copying cwd params source fs) {n : String} {content : Bytes}
    (hn : ([n], content) ∈ source.files) : ∃ written,
    fileJob rsync environment cwd params fs n =
      Function.update fs (resolve cwd params.destinationDir ++ [n])
        (some (.file content written)) := by
  obtain ⟨src, dst, ⟨hsrc, hdst⟩, ⟨hsl, hdl⟩, hjob⟩ := exists_operands rsync environment cwd hslash
    hsource hdest hsrcLocal hdstLocal hne (isFileName_of_mem hnamed hn)
  obtain ⟨time, hat, htarget⟩ := h.sources n content hn
  rw [← hsrc] at hat
  rw [← hdst] at htarget
  rw [hjob, ← hdst]
  by_cases hquick : ∃ old, fs (resolve cwd dst) = some (.file old time) ∧ old.length = content.length
  · obtain ⟨old, hold, hlen⟩ := hquick
    obtain rfl := htarget.2 old hold hlen
    refine ⟨time, ?_⟩
    rw [spec.skips _ _ _ _ _ _ _ hsl hdl hat hold hlen, ← hold, Function.update_eq_self]
  · push Not at hquick
    refine spec.copies _ _ _ _ _ _ hsl hdl hat ?_ htarget.1 hquick
    rw [hdst, List.dropLast_concat]
    exact h.destDir

include hwf

theorem copying_fileJob {fs : Fs} (h : Copying cwd params source fs) {n : String} {content : Bytes}
    (hn : ([n], content) ∈ source.files) :
    Copying cwd params source (fileJob rsync environment cwd params fs n) := by
  obtain ⟨written, hjob⟩ := fileJob_copying environment spec hnamed hslash hsource
    hdest hsrcLocal hdstLocal hne h hn
  rw [hjob]
  refine ⟨?_, fun m b hm => ?_⟩
  · rw [Function.update_of_ne (by simp)]
    exact h.destDir
  · obtain ⟨time, hat, htarget⟩ := h.sources m b hm
    by_cases hmn : m = n
    · subst hmn
      obtain rfl := content_unique hwf hn hm
      rw [Function.update_self]
      by_cases heq : resolve cwd params.sourceDir ++ [m] = resolve cwd params.destinationDir ++ [m]
      · -- the file is copied onto itself
        exact ⟨written, by rw [heq, Function.update_self], goodTarget_copy ..⟩
      · exact ⟨time, by rw [Function.update_of_ne heq, hat], goodTarget_copy ..⟩
    · have hother : ∀ dir : Location, dir ++ [m] ≠ resolve cwd params.destinationDir ++ [n] :=
        fun dir he => hmn (List.singleton_inj.mp (List.append_inj' he rfl).2)
      exact ⟨time, by rw [Function.update_of_ne (hother _), hat],
        by rwa [Function.update_of_ne (hother _)]⟩

/-- **Flat sources arrive.** -/
theorem run_copies (order : List String) (fs : Fs) (h : Copying cwd params source fs)
    (horder : ∀ n ∈ order, ∃ content, ([n], content) ∈ source.files) {n : String} {content : Bytes}
    (hn : ([n], content) ∈ source.files) (harrived : n ∈ order ∨
      ∃ time, fs (resolve cwd params.destinationDir ++ [n]) = some (.file content time)) :
    ∃ time, order.foldl (fileJob rsync environment cwd params) fs
      (resolve cwd params.destinationDir ++ [n]) = some (.file content time) := by
  induction order generalizing fs with
  | nil => simpa using harrived
  | cons m order ih =>
      rw [List.forall_mem_cons] at horder
      obtain ⟨⟨b, hm⟩, horder⟩ := horder
      refine ih _ (copying_fileJob spec hwf hnamed hslash hsource hdest hsrcLocal hdstLocal hne h hm)
        horder ?_
      obtain ⟨written, hjob⟩ := fileJob_copying environment spec hnamed hslash
        hsource hdest hsrcLocal hdstLocal hne h hm
      rw [hjob]
      by_cases heq : n = m
      · subst heq
        obtain rfl := content_unique hwf hn hm
        exact .inr ⟨written, Function.update_self ..⟩
      · rw [Function.update_of_ne (by simpa using heq)]
        exact harrived.imp_left fun hmem => (List.mem_cons.mp hmem).resolve_left heq

omit hwf

/-- A directory in the place of a file's copy is still there at the end. -/
theorem run_keepsDir (order : List String) (fs : Fs)
    (horder : ∀ n ∈ order, ∃ content, ([n], content) ∈ source.files) {n : String}
    (hdir : fs (resolve cwd params.destinationDir ++ [n]) = some .dir) :
    order.foldl (fileJob rsync environment cwd params) fs
      (resolve cwd params.destinationDir ++ [n]) = some .dir := by
  induction order generalizing fs with
  | nil => exact hdir
  | cons m order ih =>
      rw [List.forall_mem_cons] at horder
      obtain ⟨⟨b, hm⟩, horder⟩ := horder
      obtain ⟨src, dst, ⟨-, hdst⟩, ⟨hsl, hdl⟩, hjob⟩ := exists_operands rsync environment cwd hslash
        hsource hdest hsrcLocal hdstLocal hne (isFileName_of_mem hnamed hm)
      refine ih _ horder ?_
      rw [hjob]
      by_cases heq : n = m
      · subst heq
        rw [← hdst] at hdir ⊢
        exact spec.keepsDir _ _ _ _ hsl hdl hdir
      · rw [spec.frame _ _ _ _ _ hsl hdl (by rw [hdst]; simpa [eq_comm] using heq)]
        exact hdir

/-- So is a file that passes for the source file. -/
theorem run_keepsOld (order : List String) (fs : Fs)
    (horder : ∀ n ∈ order, ∃ content, ([n], content) ∈ source.files)
    (hapart : ∀ n ∈ order, ¬ resolve cwd params.destinationDir ++ [n] <+:
      resolve cwd params.sourceDir) {n : String} {content old : Bytes} {time : Nat}
    (hat : fs (resolve cwd params.sourceDir ++ [n]) = some (.file content time))
    (hold : fs (resolve cwd params.destinationDir ++ [n]) = some (.file old time))
    (hlen : old.length = content.length) :
    order.foldl (fileJob rsync environment cwd params) fs
      (resolve cwd params.destinationDir ++ [n]) = some (.file old time) := by
  induction order generalizing fs with
  | nil => exact hold
  | cons m order ih =>
      rw [List.forall_mem_cons] at horder hapart
      obtain ⟨⟨b, hm⟩, horder⟩ := horder
      obtain ⟨src, dst, ⟨hsrc, hdst⟩, ⟨hsl, hdl⟩, hjob⟩ := exists_operands rsync environment cwd hslash
        hsource hdest hsrcLocal hdstLocal hne (isFileName_of_mem hnamed hm)
      have hkept : fileJob rsync environment cwd params fs m
          (resolve cwd params.sourceDir ++ [n]) = some (.file content time) ∧
          fileJob rsync environment cwd params fs m
          (resolve cwd params.destinationDir ++ [n]) = some (.file old time) := by
        rw [hjob]
        by_cases heq : n = m
        · subst heq
          rw [spec.skips _ _ _ _ content old time hsl hdl (by rw [hsrc, hat]) (by rw [hdst, hold]) hlen]
          exact ⟨hat, hold⟩
        · have hother : ¬ resolve cwd params.destinationDir ++ [m] <+:
              resolve cwd params.sourceDir ++ [n] := fun hpre => by
            obtain he | hpre := List.prefix_concat_iff.mp hpre
            · exact heq (List.singleton_inj.mp (List.append_inj' he rfl).2).symm
            · exact hapart.1 hpre
          rw [spec.frame _ _ _ _ _ hsl hdl (by rwa [hdst]), spec.frame _ _ _ _ _ hsl hdl
            (by rw [hdst]; simpa [eq_comm] using heq)]
          exact ⟨hat, hold⟩
      exact ih _ horder hapart.2 hkept.1 hkept.2

end run

/-! ## the scan of a flat source -/

/-- The size of the file at a path. -/
def sizeAt (source : Dir String Bytes) (path : Location) : Nat :=
  match source.at? path with
  | some (.file content) => content.length
  | _ => 0

theorem foldlM_scanFile {os : Os} {sourcePath : String} {size : String → Nat} {items : List String}
    (h : ∀ f ∈ items, os.stat (sourcePath ++ f) = .ok (size f)) (total : Nat) :
    items.foldlM (scanFile os sourcePath) total = .ok (total + (items.map size).sum) := by
  induction items generalizing total with
  | nil => simp [Pure.pure, Except.pure]
  | cons f items ih =>
      rw [List.forall_mem_cons] at h
      have hstep : scanFile os sourcePath total f = .ok (total + size f) := by
        rw [scanFile, h.1]; rfl
      rw [List.foldlM_cons, hstep]
      exact (ih h.2 _).trans (by simp [Nat.add_assoc])

/-- Every file lies directly in the source. -/
def Flat (source : Dir String Bytes) : Prop := ∀ x ∈ source.files, x.1.length = 1

section scan

variable (hroot : lookup root cwd params.sourceDir = some (.dir source)) (hwf : source.WF)
  (hnamed : source.Named IsFileName) (hslash : endsWithSlash params.sourceDir)

/-- The base names that the walk over the source collects. -/
def walkedFiles (os : Os) (sourcePath : String) : List String :=
  (os.walk sourcePath).flatMap (fun x => x.2.2)

variable (duSize dirSize) in
theorem walkedFiles_eq (hroot : lookup root cwd params.sourceDir = some (.dir source)) :
    walkedFiles (Os.ofTree root cwd duSize dirSize) params.sourceDir =
      (source.walk []).flatMap (fun x => x.2.2) := by
  simp [walkedFiles, Os.ofTree, hroot, List.flatMap_map]

variable (duSize dirSize) in
/-- The base names of a flat source are its files. -/
theorem walkedFiles_perm (hroot : lookup root cwd params.sourceDir = some (.dir source))
    (hflat : Flat source) :
    ((walkedFiles (Os.ofTree root cwd duSize dirSize) params.sourceDir).map (fun f => [f])).Perm
      (source.files.map Prod.fst) := by
  have hperm := (walk_filenames_perm source []).map Option.toList
  rw [← walkedFiles_eq duSize dirSize hroot, List.map_map,
    List.map_map] at hperm
  have hpaths : source.files.map (Option.toList ∘ fun x => x.1.getLast?) =
      source.files.map Prod.fst := by
    refine List.map_congr_left fun x hx => ?_
    obtain ⟨n, hn⟩ := List.length_eq_one_iff.mp (hflat x hx)
    simp [hn]
  rw [hpaths] at hperm
  exact hperm

include hroot hwf hnamed hslash

/-- The scan of a flat source counts every file's size once. -/
theorem directoryScanner_flat (hflat : Flat source) :
    directoryScanner (Os.ofTree root cwd duSize dirSize) params.sourceDir .file = .ok {
      dirDetailList := []
      listItemsToProcess := walkedFiles (Os.ofTree root cwd duSize dirSize) params.sourceDir
      totalSizeSource := ((source.files.map (fun x => x.2.length)).sum : Nat) / 1000000
      totalNumFiles := (walkedFiles (Os.ofTree root cwd duSize dirSize) params.sourceDir).length
      totalNumDirectories := 0 } := by
  have hperm := walkedFiles_perm duSize dirSize hroot hflat
  have hstat : ∀ f ∈ walkedFiles (Os.ofTree root cwd duSize dirSize) params.sourceDir,
      (Os.ofTree root cwd duSize dirSize).stat (params.sourceDir ++ f) = .ok (sizeAt source [f]) := by
    intro f hf
    obtain ⟨⟨path, content⟩, hx, hpath⟩ :=
      List.mem_map.mp (hperm.mem_iff.mp (List.mem_map_of_mem (f := fun f => [f]) hf))
    subst hpath
    have hat := (mem_files_iff hwf [f] content).mp hx
    have hentry := hat
    rw [at?_singleton] at hentry
    have hname := isFileName_of_mem hnamed hx
    simp only [Os.ofTree, lookup_append_name hslash hname.1 hroot, hentry, sizeAt, hat]
  have hsizes : ((walkedFiles (Os.ofTree root cwd duSize dirSize) params.sourceDir).map
      (fun f => sizeAt source [f])).sum = (source.files.map (fun x => x.2.length)).sum := by
    have hmap := (hperm.map (sizeAt source)).sum_eq
    rw [List.map_map, List.map_map] at hmap
    refine hmap.trans (congrArg List.sum (List.map_congr_left fun x hx => ?_))
    simp [sizeAt, (mem_files_iff hwf x.1 x.2).mp hx]
  have hloop := foldlM_scanFile hstat 0
  rw [hsizes, Nat.zero_add] at hloop
  simp only [directoryScanner]
  rw [show ((Os.ofTree root cwd duSize dirSize).walk params.sourceDir).flatMap (fun x => x.2.2) =
    walkedFiles (Os.ofTree root cwd duSize dirSize) params.sourceDir from rfl, hloop]
  rfl

end scan

/-! ## file-level runs -/

/-- All jobs one after the other, worker by worker, are a schedule. -/
theorem isSchedule_allJobs (p : Nat) (transferDict : TransferDict) :
    IsSchedule p transferDict (allJobs p transferDict) := by
  refine ⟨.refl _, fun w h1 hw => ?_⟩
  have hmem : w - 1 ∈ List.range (p - 1) := List.mem_range.mpr (by omega)
  have hsub := List.sublist_flatten_of_mem
    (List.mem_map_of_mem (f := fun r => jobList ((transferDict (r + 1)).getD none)) hmem)
  rw [Nat.sub_add_cancel h1] at hsub
  exact hsub

/-- Where no file's copy has a directory in its place, the source does not
lie inside such a place. -/
theorem apart_of_targets (hroot : lookup root cwd params.sourceDir = some (.dir source)) {n : String}
    (htarget : Fs.ofTree root times (resolve cwd params.destinationDir ++ [n]) ≠ some .dir) :
    ¬ resolve cwd params.destinationDir ++ [n] <+: resolve cwd params.sourceDir := by
  intro hpre
  obtain ⟨rest, hrest⟩ := hpre
  have hat := at?_source hroot
  rw [← hrest] at hat
  obtain ⟨e, he⟩ := at?_dir_of_append hat
  exact htarget (by rw [Fs.ofTree, he])

/-- The quick check: does what stands at the target pass for the file? -/
def passesFor (content : Bytes) (time : Nat) : Option Node → Bool
  | some (.file old oldTime) => old.length = content.length && oldTime = time
  | some .dir | none => false

/-- Where the file ends up. -/
def copyTarget (fs : Fs) (src dst : Location) : Location :=
  if fs dst = some .dir then dst ++ [src.getLastD ""] else dst

theorem prefix_copyTarget (fs : Fs) (src dst : Location) : dst <+: copyTarget fs src dst := by
  unfold copyTarget
  split
  · exact List.prefix_append _ _
  · exact List.prefix_rfl

/-- An `rsync` at the moment `now` that does what is relied on, and nothing
for other sources. -/
def copyFile (now : Nat) : Rsync := fun cwd src dst fs =>
  match fs (resolve cwd src) with
  | some (.file content time) =>
      let target := copyTarget fs (resolve cwd src) (resolve cwd dst)
      if passesFor content time (fs target) then fs
      else Function.update fs target (some (.file content now))
  | some .dir | none => fs

/-- Nothing but the target can change. -/
theorem copyFile_of_ne (now : Nat) {cwd loc : Location} {src dst : String} {fs : Fs}
    (h : loc ≠ copyTarget fs (resolve cwd src) (resolve cwd dst)) :
    copyFile now cwd src dst fs loc = fs loc := by
  unfold copyFile
  cases hs : fs (resolve cwd src) with
  | none => rfl
  | some node =>
      cases node with
      | dir => rfl
      | file content time =>
          dsimp only
          split
          · rfl
          · exact Function.update_of_ne h _ _

theorem copyFile_spec (now : Nat) : RsyncSpec (copyFile now) where
  frame cwd src dst fs loc _ _ hloc :=
    copyFile_of_ne now fun he => hloc (he ▸ prefix_copyTarget ..)
  keepsDir cwd src dst fs _ _ hdir := by
    rw [copyFile_of_ne now (by simp [copyTarget, hdir]), hdir]
  skips cwd src dst fs content old time _ _ hsrc hdst hlen := by
    simp [copyFile, copyTarget, hsrc, hdst, hlen, passesFor]
  copies cwd src dst fs content time _ _ hsrc _ hdir hother := by
    have hdiffers : passesFor content time (fs (resolve cwd dst)) = false := by
      unfold passesFor
      split
      · next old oldTime hdst =>
        by_contra hpass
        simp at hpass
        exact hother old (by rw [hdst, hpass.2]) hpass.1
      · rfl
      · rfl
    exact ⟨now, by simp [copyFile, copyTarget, hsrc, hdir, hdiffers]⟩

def stagingParams : Params := ⟨"/src/", "/dst", 1, 0, .file⟩

/-- A source directory next to a destination. -/
def rootWith (source destination : Dir String Bytes) : Dir String Bytes :=
  .sub "src" source (.sub "dst" destination .nil)

def nestedSource : Dir String Bytes := .sub "d" (.file "f" [120] .nil) .nil

def flatSource : Dir String Bytes := .file "f" [120] (.file "g" [] (.file "h" [121, 122] .nil))

/-- Left over from an earlier run: a copy of `g` and another `h`. -/
def leftovers : Dir String Bytes := .file "g" [] (.file "h" [122] .nil)

end ContainerHackathon.PyStager
