import ContainerHackathon.Lib.FileTree

/-!
# TreeCopy

Copies of a directory tree: the same files and directories at the same
paths, enumerated in whatever order.

* `SameTree.filenames_perm`, `SameTree.at?` — what a copy may look like;
* `exists_leaf` — a walk ends in a directory without sub-directories;
* `exists_copy` — for each such directory, in each order of its files, there
  is a copy in which the walk ends there.
-/

namespace FileTree

open Dir

variable {ν β : Type*} [DecidableEq ν] {d e : Dir ν β} {n m : ν}

/-! ## the same tree -/

/-- The content of a file; nothing for a directory. -/
def Entry.content : Entry ν β → Option β
  | .file c => some c
  | .dir _ => none

/-- Every path leads to a directory in both trees, to files of the same
content, or nowhere. -/
def SameTree (d e : Dir ν β) : Prop :=
  ∀ path, (d.at? path).map Entry.content = (e.at? path).map Entry.content

theorem SameTree.refl (d : Dir ν β) : SameTree d d := fun _ => rfl

theorem SameTree.symm (h : SameTree d e) : SameTree e d := fun path => (h path).symm

theorem SameTree.child? (h : SameTree d e) (n : ν) :
    (d.child? n).map Entry.content = (e.child? n).map Entry.content := by
  rw [← at?_singleton, ← at?_singleton]
  exact h [n]

theorem SameTree.child?_file (h : SameTree d e) {c : β} (hd : d.child? n = some (.file c)) :
    e.child? n = some (.file c) := by
  have hn := h.child? n
  rw [hd] at hn
  obtain ⟨x, hx, hc⟩ := Option.map_eq_some_iff.mp hn.symm
  cases x with
  | file b => rw [hx, Option.some.inj hc]
  | dir s => cases hc

/-- A directory of the tree is a directory of the copy, and copied. -/
theorem SameTree.at? (h : SameTree d e) {path : List ν} {s : Dir ν β}
    (hd : d.at? path = some (.dir s)) : ∃ t, e.at? path = some (.dir t) ∧ SameTree s t := by
  have hpath := h path
  rw [hd] at hpath
  obtain ⟨x, hx, hc⟩ := Option.map_eq_some_iff.mp hpath.symm
  cases x with
  | file b => cases hc
  | dir t =>
      refine ⟨t, hx, fun rest => ?_⟩
      have hrest := h (path ++ rest)
      rwa [at?_append hd, at?_append hx] at hrest

/-! ## names of files and directories -/

theorem mem_filenames_iff (hwf : d.WF) :
    n ∈ d.filenames ↔ ∃ c, d.child? n = some (.file c) := by
  induction d with
  | nil => simp [filenames, child?]
  | file m c rest ih =>
      by_cases hm : m = n
      · simp [filenames, child?, hm]
      · simp [filenames, child?, hm, Ne.symm hm, ih hwf.2]
  | sub m s rest _ ih =>
      by_cases hm : m = n
      · subst hm
        have hnot : m ∉ rest.filenames := fun hmem =>
          hwf.1 ((filenames_sublist_names rest).subset hmem)
        simp [filenames, child?, hnot]
      · simp [filenames, child?, hm, ih hwf.2.2]

omit [DecidableEq ν] in
theorem dirnames_sublist_names (d : Dir ν β) : d.dirnames.Sublist d.names := by
  induction d with
  | nil => exact .slnil
  | file m c rest ih => exact ih.cons m
  | sub m e rest _ ih => exact ih.cons_cons m

theorem mem_dirnames_iff (hwf : d.WF) :
    n ∈ d.dirnames ↔ ∃ s, d.child? n = some (.dir s) := by
  induction d with
  | nil => simp [dirnames, child?]
  | file m c rest ih =>
      by_cases hm : m = n
      · subst hm
        have hnot : m ∉ rest.dirnames := fun hmem =>
          hwf.1 ((dirnames_sublist_names rest).subset hmem)
        simp [dirnames, child?, hnot]
      · simp [dirnames, child?, hm, ih hwf.2]
  | sub m s rest _ ih =>
      by_cases hm : m = n
      · simp [dirnames, child?, hm]
      · simp [dirnames, child?, hm, Ne.symm hm, ih hwf.2.2]

omit [DecidableEq ν] in
theorem nodup_filenames (hwf : d.WF) : d.filenames.Nodup :=
  (nodup_names hwf).sublist (filenames_sublist_names d)

/-- A directory and its copy have the same files, in whatever order. -/
theorem SameTree.filenames_perm (h : SameTree d e) (hd : d.WF) (he : e.WF) :
    d.filenames.Perm e.filenames := by
  refine (List.perm_ext_iff_of_nodup (nodup_filenames hd) (nodup_filenames he)).mpr fun n => ?_
  rw [mem_filenames_iff hd, mem_filenames_iff he]
  exact exists_congr fun c => ⟨h.child?_file, h.symm.child?_file⟩

/-- A copy has sub-directories if the directory has. -/
theorem SameTree.dirnames_nil (h : SameTree d e) (hd : d.WF) (he : e.WF) (hnil : d.dirnames = []) :
    e.dirnames = [] := by
  refine List.eq_nil_iff_forall_not_mem.mpr fun n hn => ?_
  obtain ⟨t, ht⟩ := (mem_dirnames_iff he).mp hn
  rw [← at?_singleton] at ht
  obtain ⟨s, hs, -⟩ := h.symm.at? ht
  rw [at?_singleton] at hs
  have hmem := (mem_dirnames_iff hd).mpr ⟨s, hs⟩
  simp [hnil] at hmem

theorem wf_of_child? (hwf : d.WF) {s : Dir ν β} (h : d.child? n = some (.dir s)) : s.WF := by
  induction d with
  | nil => cases h
  | file m c rest ih =>
      rw [Dir.child?] at h
      split at h
      · cases h
      · exact ih hwf.2 h
  | sub m t rest _ ih =>
      rw [Dir.child?] at h
      split at h
      · cases h
        exact hwf.2.1
      · exact ih hwf.2.2 h

theorem at?_dir_cons {path : List ν} {s : Dir ν β} (h : d.at? (n :: path) = some (.dir s)) :
    ∃ t, d.child? n = some (.dir t) ∧ t.at? path = some (.dir s) := by
  rw [Dir.at?] at h
  cases hchild : d.child? n with
  | none => simp [hchild] at h
  | some x =>
      cases x with
      | file c =>
          rw [hchild] at h
          simp only at h
          split at h <;> simp at h
      | dir t => exact ⟨t, rfl, by simpa [hchild] using h⟩

theorem wf_of_at? (hwf : d.WF) {path : List ν} {s : Dir ν β} (h : d.at? path = some (.dir s)) :
    s.WF := by
  induction path generalizing d with
  | nil =>
      cases h
      exact hwf
  | cons n path ih =>
      obtain ⟨t, hchild, ht⟩ := at?_dir_cons h
      exact ih (wf_of_child? hwf hchild) ht

/-! ## where a walk ends -/

omit [DecidableEq ν] in
/-- What a walk finds does not depend on where it starts. -/
theorem map_walkBelow (d : Dir ν β) (top top' : List ν) :
    (walkBelow top d).map (fun x => x.2.2) = (walkBelow top' d).map fun x => x.2.2 := by
  induction d generalizing top top' with
  | nil => rfl
  | file m c rest ih => exact ih top top'
  | sub m s rest ihs ih =>
      simp only [walkBelow, List.map_cons, List.map_append]
      rw [ihs (top ++ [m]) (top' ++ [m]), ih top top']

omit [DecidableEq ν] in
/-- The file names of the last directory visited, with those of the top
directory if there is no other. -/
theorem lastFilenames_eq (d : Dir ν β) (top : List ν) :
    d.lastFilenames = ((walkBelow top d).map fun x => x.2.2).getLastD d.filenames := by
  rw [map_walkBelow d top [], lastFilenames, walk, List.getLast?_cons, List.getLastD_eq_getLast?,
    List.getLast?_map]
  cases (walkBelow [] d).getLast? <;> rfl

omit [DecidableEq ν] in
theorem walkBelow_eq_nil (h : d.dirnames = []) (top : List ν) : walkBelow top d = [] := by
  induction d with
  | nil => rfl
  | file m c rest ih => exact ih h
  | sub m s rest => cases h

omit [DecidableEq ν] in
theorem lastFilenames_of_leaf (h : d.dirnames = []) : d.lastFilenames = d.filenames := by
  rw [lastFilenames_eq d [], walkBelow_eq_nil h]
  rfl

theorem getLastD_append {α : Type*} (xs ys : List α) (a : α) :
    (xs ++ ys).getLastD a = ys.getLastD (xs.getLastD a) := by
  induction xs generalizing a with
  | nil => rfl
  | cons x xs ih => rw [List.cons_append, List.getLastD_cons, List.getLastD_cons, ih]

omit [DecidableEq ν] in
theorem getLastD_walkBelow_sub (m : ν) (e rest : Dir ν β) (top fs : List ν) :
    ((walkBelow top (.sub m e rest)).map fun x => x.2.2).getLastD fs =
      ((walkBelow top rest).map fun x => x.2.2).getLastD
        (((walkBelow (top ++ [m]) e).map fun x => x.2.2).getLastD e.filenames) := by
  rw [walkBelow, List.map_cons, List.map_append, List.getLastD_cons, getLastD_append]

theorem at?_file_rest {c : β} {rest : Dir ν β} (hwf : (Dir.file m c rest).WF) {path : List ν}
    {s : Dir ν β} (h : rest.at? (n :: path) = some (.dir s)) :
    (Dir.file m c rest).at? (n :: path) = some (.dir s) := by
  obtain ⟨t, hchild, ht⟩ := at?_dir_cons h
  have hne : m ≠ n := fun he => hwf.1 (he ▸ mem_names_of_child? hchild)
  simp [Dir.at?, Dir.child?, hne, hchild, ht]

theorem at?_sub_rest {e rest : Dir ν β} (hwf : (Dir.sub m e rest).WF) {path : List ν}
    {s : Dir ν β} (h : rest.at? (n :: path) = some (.dir s)) :
    (Dir.sub m e rest).at? (n :: path) = some (.dir s) := by
  obtain ⟨t, hchild, ht⟩ := at?_dir_cons h
  have hne : m ≠ n := fun he => hwf.1 (he ▸ mem_names_of_child? hchild)
  simp [Dir.at?, Dir.child?, hne, hchild, ht]

/-- Below a directory, a walk ends in a directory without sub-directories. -/
theorem exists_leaf_below (hwf : d.WF) (hne : d.dirnames ≠ []) (top : List ν) :
    ∃ n path s, d.at? (n :: path) = some (.dir s) ∧ s.dirnames = [] ∧
      ∀ fs, ((walkBelow top d).map fun x => x.2.2).getLastD fs = s.filenames := by
  induction d generalizing top with
  | nil => exact absurd rfl hne
  | file m c rest ih =>
      obtain ⟨n, path, s, hs, hleaf, hlast⟩ := ih hwf.2 hne top
      exact ⟨n, path, s, at?_file_rest hwf hs, hleaf, hlast⟩
  | sub m e rest ihe ih =>
      by_cases hrest : rest.dirnames = []
      · have hbelow : ∀ fs, ((walkBelow top (Dir.sub m e rest)).map fun x => x.2.2).getLastD fs =
            ((walkBelow (top ++ [m]) e).map fun x => x.2.2).getLastD e.filenames := by
          intro fs
          rw [getLastD_walkBelow_sub, walkBelow_eq_nil hrest]
          rfl
        by_cases he : e.dirnames = []
        · refine ⟨m, [], e, by simp [Dir.at?, Dir.child?], he, fun fs => ?_⟩
          rw [hbelow, walkBelow_eq_nil he]
          rfl
        · obtain ⟨n, path, s, hs, hleaf, hlast⟩ := ihe hwf.2.1 he (top ++ [m])
          refine ⟨m, n :: path, s, ?_, hleaf, fun fs => ?_⟩
          · rw [Dir.at?, Dir.child?, if_pos rfl]
            exact hs
          · rw [hbelow, hlast]
      · obtain ⟨n, path, s, hs, hleaf, hlast⟩ := ih hwf.2.2 hrest top
        refine ⟨n, path, s, at?_sub_rest hwf hs, hleaf, fun fs => ?_⟩
        rw [getLastD_walkBelow_sub, hlast]

/-- **A walk ends in a directory without sub-directories.** -/
theorem exists_leaf (hwf : d.WF) : ∃ path s, d.at? path = some (.dir s) ∧ s.dirnames = [] ∧
    d.lastFilenames = s.filenames := by
  by_cases hleaf : d.dirnames = []
  · exact ⟨[], d, rfl, hleaf, lastFilenames_of_leaf hleaf⟩
  · obtain ⟨n, path, s, hs, hsleaf, hlast⟩ := exists_leaf_below hwf hleaf []
    exact ⟨n :: path, s, hs, hsleaf, by rw [lastFilenames_eq d [], hlast]⟩

/-! ## copies in another order -/

/-- All entries but that named `n`. -/
def Dir.without (n : ν) : Dir ν β → Dir ν β
  | nil => nil
  | file m c rest => if m = n then without n rest else file m c (without n rest)
  | sub m s rest => if m = n then without n rest else sub m s (without n rest)

theorem names_without (d : Dir ν β) (n : ν) :
    (d.without n).names = d.names.filter fun m => m ≠ n := by
  induction d with
  | nil => rfl
  | file m c rest ih =>
      by_cases hm : m = n
      · simp [Dir.without, names, hm, ih]
      · simp [Dir.without, names, hm, ih]
  | sub m s rest _ ih =>
      by_cases hm : m = n
      · simp [Dir.without, names, hm, ih]
      · simp [Dir.without, names, hm, ih]

theorem wf_without (hwf : d.WF) (n : ν) : (d.without n).WF := by
  induction d with
  | nil => trivial
  | file m c rest ih =>
      rw [Dir.without]
      split
      · exact ih hwf.2
      · exact ⟨by simp [names_without, hwf.1], ih hwf.2⟩
  | sub m s rest _ ih =>
      rw [Dir.without]
      split
      · exact ih hwf.2.2
      · exact ⟨by simp [names_without, hwf.1], hwf.2.1, ih hwf.2.2⟩

theorem child?_without (d : Dir ν β) (h : m ≠ n) : (d.without n).child? m = d.child? m := by
  induction d with
  | nil => rfl
  | file k c rest ih =>
      by_cases hk : k = n
      · simp [Dir.without, Dir.child?, hk, h.symm, ih]
      · simp [Dir.without, Dir.child?, hk, ih]
  | sub k s rest _ ih =>
      by_cases hk : k = n
      · simp [Dir.without, Dir.child?, hk, h.symm, ih]
      · simp [Dir.without, Dir.child?, hk, ih]

theorem notMem_names_without (d : Dir ν β) (n : ν) : n ∉ (d.without n).names := by
  simp [names_without]

theorem child?_append_of_notMem (e : Dir ν β) (h : n ∉ d.names) :
    (d.append e).child? n = e.child? n := by
  induction d with
  | nil => rfl
  | file m c rest ih =>
      simp only [names, List.mem_cons, not_or] at h
      simp [append, Dir.child?, Ne.symm h.1, ih h.2]
  | sub m s rest _ ih =>
      simp only [names, List.mem_cons, not_or] at h
      simp [append, Dir.child?, Ne.symm h.1, ih h.2]

/-- Trees are the same if their entries are. -/
theorem sameTree_of_child? (h : ∀ n, d.child? n = e.child? n ∨
    ∃ s t, d.child? n = some (.dir s) ∧ e.child? n = some (.dir t) ∧ SameTree s t) :
    SameTree d e := by
  intro path
  cases path with
  | nil => rfl
  | cons n path =>
      rcases h n with heq | ⟨s, t, hs, ht, hst⟩
      · rw [Dir.at?, Dir.at?, heq]
      · rw [Dir.at?, Dir.at?, hs, ht]
        exact hst path

/-- The sub-directory `n` replaced by a copy and moved behind all other
entries. -/
theorem sameTree_moveLast {s t : Dir ν β} (hs : d.child? n = some (.dir s)) (hst : SameTree s t) :
    SameTree d ((d.without n).append (.sub n t .nil)) := by
  refine sameTree_of_child? fun m => ?_
  by_cases hm : m = n
  · refine .inr ⟨s, t, hm ▸ hs, ?_, hst⟩
    rw [hm, child?_append_of_notMem _ (notMem_names_without d n), Dir.child?, if_pos rfl]
  · refine .inl ?_
    rw [← child?_without d hm]
    by_cases hmem : m ∈ (d.without n).names
    · rw [child?_append_of_mem _ hmem]
    · rw [child?_append_of_notMem _ hmem, child?_eq_none_iff.mpr hmem, Dir.child?,
        if_neg (Ne.symm hm), Dir.child?]

theorem wf_moveLast (hwf : d.WF) {t : Dir ν β} (ht : t.WF) (n : ν) :
    ((d.without n).append (.sub n t .nil)).WF := by
  refine wf_append (wf_without hwf n) ⟨by simp [names], ht, trivial⟩ fun m hm hmn => ?_
  rw [List.mem_singleton.mp hmn] at hm
  exact notMem_names_without d n hm

omit [DecidableEq ν] in
/-- A walk ends where it ends in the last sub-directory. -/
theorem lastFilenames_moveLast (d t : Dir ν β) (n : ν) :
    (d.append (.sub n t .nil)).lastFilenames = t.lastFilenames := by
  rw [lastFilenames_eq _ [], walkBelow_append, List.map_append, getLastD_append,
    getLastD_walkBelow_sub, lastFilenames_eq t ([] ++ [n])]
  rfl

/-- **The walk of some copy ends in any given directory without
sub-directories**, with its files in any given order. -/
theorem exists_copy (hwf : d.WF) {path : List ν} {s t : Dir ν β}
    (hs : d.at? path = some (.dir s)) (ht : t.WF) (hst : SameTree s t) (hleaf : t.dirnames = []) :
    ∃ e, e.WF ∧ SameTree d e ∧ e.lastFilenames = t.filenames := by
  induction path generalizing d with
  | nil =>
      cases hs
      exact ⟨t, ht, hst, lastFilenames_of_leaf hleaf⟩
  | cons n path ih =>
      obtain ⟨u, hu, hus⟩ := at?_dir_cons hs
      obtain ⟨u', hwf', hcopy, hlast⟩ := ih (wf_of_child? hwf hu) hus
      exact ⟨_, wf_moveLast hwf hwf' n, sameTree_moveLast hu hcopy,
        (lastFilenames_moveLast _ u' n).trans hlast⟩

/-- The file `n` moved before all other entries. -/
theorem sameTree_moveFirst {c : β} (hn : d.child? n = some (.file c)) :
    SameTree d (.file n c (d.without n)) := by
  refine sameTree_of_child? fun m => .inl ?_
  by_cases hm : m = n
  · rw [hm, hn, Dir.child?, if_pos rfl]
  · rw [Dir.child?, if_neg (Ne.symm hm), child?_without d hm]

/-- In some copy the walk ends in a given directory, at a given file. -/
theorem exists_copy_head (hwf : d.WF) {path : List ν} {s : Dir ν β}
    (hs : d.at? path = some (.dir s)) (hleaf : s.dirnames = []) (hn : n ∈ s.filenames) :
    ∃ e, e.WF ∧ SameTree d e ∧ e.lastFilenames.head? = some n := by
  have hswf := wf_of_at? hwf hs
  obtain ⟨c, hc⟩ := (mem_filenames_iff hswf).mp hn
  have hsame := sameTree_moveFirst hc
  have htwf : (Dir.file n c (s.without n)).WF :=
    ⟨notMem_names_without s n, wf_without hswf n⟩
  obtain ⟨e, hwf', hcopy, hlast⟩ :=
    exists_copy hwf hs htwf hsame (hsame.dirnames_nil hswf htwf hleaf)
  exact ⟨e, hwf', hcopy, by rw [hlast]; rfl⟩

end FileTree
