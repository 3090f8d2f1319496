import Mathlib

/-!
# FileTree

Directory trees as a directory walk meets them: a directory is the sequence
of its entries in the order in which the file system enumerates them, so a
statement about every tree is also a statement about every enumeration
order.  Names and file contents are arbitrary types.

`files` lists every file with its relative path, `walk` is the top-down
walk with the names of the sub-directories and of the files of each visited
directory, and `at?` resolves a relative path.  The three views agree on
well-formed trees (`mem_files_iff`, `walk_filenames_perm`).
-/

namespace FileTree

/-- The entries of a directory, in enumeration order. -/
inductive Dir (ν : Type*) (β : Type*)
  | nil
  | file (name : ν) (content : β) (rest : Dir ν β)
  | sub (name : ν) (entries : Dir ν β) (rest : Dir ν β)
  deriving DecidableEq, Repr

/-- What a path can lead to. -/
inductive Entry (ν : Type*) (β : Type*)
  | file (content : β)
  | dir (entries : Dir ν β)
  deriving DecidableEq, Repr

variable {ν β : Type*}

namespace Dir

/-- The names in a directory. -/
def names : Dir ν β → List ν
  | nil => []
  | file n _ rest => n :: names rest
  | sub n _ rest => n :: names rest

/-- The names of the files in a directory. -/
def filenames : Dir ν β → List ν
  | nil => []
  | file n _ rest => n :: filenames rest
  | sub _ _ rest => filenames rest

/-- The names of the sub-directories in a directory. -/
def dirnames : Dir ν β → List ν
  | nil => []
  | file _ _ rest => dirnames rest
  | sub n _ rest => n :: dirnames rest

/-- No two entries of a directory, at any depth, share a name. -/
def WF : Dir ν β → Prop
  | nil => True
  | file n _ rest => n ∉ names rest ∧ WF rest
  | sub n entries rest => n ∉ names rest ∧ WF entries ∧ WF rest

/-- Every name in the tree, at any depth, satisfies `P`. -/
def Named (P : ν → Prop) : Dir ν β → Prop
  | nil => True
  | file n _ rest => P n ∧ Named P rest
  | sub n entries rest => P n ∧ Named P entries ∧ Named P rest

/-- Every file of the tree, with its path relative to the directory. -/
def files : Dir ν β → List (List ν × β)
  | nil => []
  | file n c rest => ([n], c) :: files rest
  | sub n entries rest => (files entries).map (fun x => (n :: x.1, x.2)) ++ files rest

/-- The visits of a top-down walk below the directory `top`. -/
def walkBelow : List ν → Dir ν β → List (List ν × List ν × List ν)
  | _, nil => []
  | top, file _ _ rest => walkBelow top rest
  | top, sub n entries rest =>
      (top ++ [n], dirnames entries, filenames entries) ::
        (walkBelow (top ++ [n]) entries ++ walkBelow top rest)

/-- The visits of a top-down walk: the directory itself, then everything
below it. Each visit is a path with the names of the sub-directories and of
the files there. -/
def walk (top : List ν) (d : Dir ν β) : List (List ν × List ν × List ν) :=
  (top, dirnames d, filenames d) :: walkBelow top d

/-- The names of the files in the directory that a walk visits last. -/
def lastFilenames (d : Dir ν β) : List ν :=
  match (walk [] d).getLast? with
  | none => []
  | some visit => visit.2.2

/-- The entries of `d` followed by those of `e`. -/
def append : Dir ν β → Dir ν β → Dir ν β
  | nil, e => e
  | file n c rest, e => file n c (append rest e)
  | sub n entries rest, e => sub n entries (append rest e)

/-- A directory of empty files. -/
def ofNames (c : β) : List ν → Dir ν β
  | [] => nil
  | n :: ns => file n c (ofNames c ns)

variable [DecidableEq ν]

/-- Look a name up in a directory. -/
def child? : Dir ν β → ν → Option (Entry ν β)
  | nil, _ => none
  | file n c rest, m => if n = m then some (.file c) else child? rest m
  | sub n entries rest, m => if n = m then some (.dir entries) else child? rest m

/-- Follow a relative path. -/
def at? : Dir ν β → List ν → Option (Entry ν β)
  | d, [] => some (.dir d)
  | d, n :: path =>
      match d.child? n with
      | none => none
      | some (.file c) => if path = [] then some (.file c) else none
      | some (.dir e) => at? e path

end Dir

open Dir

/-! ## names -/

theorem nodup_names {d : Dir ν β} (h : d.WF) : d.names.Nodup := by
  induction d with
  | nil => simp [names]
  | file m c rest ih => exact List.nodup_cons.mpr ⟨h.1, ih h.2⟩
  | sub m e rest _ ih => exact List.nodup_cons.mpr ⟨h.1, ih h.2.2⟩

/-! ## appending entries -/

@[simp] theorem names_append (d e : Dir ν β) : (d.append e).names = d.names ++ e.names := by
  induction d <;> simp_all [append, names]

@[simp] theorem files_append (d e : Dir ν β) : (d.append e).files = d.files ++ e.files := by
  induction d <;> simp_all [append, files]

@[simp] theorem walkBelow_append (top : List ν) (d e : Dir ν β) :
    walkBelow top (d.append e) = walkBelow top d ++ walkBelow top e := by
  induction d <;> simp_all [append, walkBelow]

theorem wf_append {d e : Dir ν β} (hd : d.WF) (he : e.WF)
    (hdisj : ∀ n ∈ d.names, n ∉ e.names) : (d.append e).WF := by
  induction d with
  | nil => exact he
  | file m c rest ih =>
      simp only [names, List.mem_cons, forall_eq_or_imp] at hdisj
      exact ⟨by simp [hd.1, hdisj.1], ih hd.2 hdisj.2⟩
  | sub m s rest _ ih =>
      simp only [names, List.mem_cons, forall_eq_or_imp] at hdisj
      exact ⟨by simp [hd.1, hdisj.1], hd.2.1, ih hd.2.2 hdisj.2⟩

theorem named_append {P : ν → Prop} {d e : Dir ν β} (hd : d.Named P) (he : e.Named P) :
    (d.append e).Named P := by
  induction d with
  | nil => exact he
  | file m c rest ih => exact ⟨hd.1, ih hd.2⟩
  | sub m s rest _ ih => exact ⟨hd.1, hd.2.1, ih hd.2.2⟩

@[simp] theorem names_ofNames (c : β) (ns : List ν) : (ofNames c ns).names = ns := by
  induction ns <;> simp_all [ofNames, names]

@[simp] theorem filenames_ofNames (c : β) (ns : List ν) : (ofNames c ns).filenames = ns := by
  induction ns <;> simp_all [ofNames, filenames]

@[simp] theorem dirnames_ofNames (c : β) (ns : List ν) : (ofNames c ns).dirnames = [] := by
  induction ns <;> simp_all [ofNames, dirnames]

theorem wf_ofNames (c : β) {ns : List ν} (h : ns.Nodup) : (ofNames c ns).WF := by
  induction ns with
  | nil => trivial
  | cons n ns ih =>
      rw [List.nodup_cons] at h
      exact ⟨by simpa using h.1, ih h.2⟩

theorem named_ofNames {P : ν → Prop} (c : β) {ns : List ν} (h : ∀ n ∈ ns, P n) :
    (ofNames c ns).Named P := by
  induction ns with
  | nil => trivial
  | cons n ns ih =>
      rw [List.forall_mem_cons] at h
      exact ⟨h.1, ih h.2⟩

/-! ## visits of a walk -/

theorem named_filenames {P : ν → Prop} {d : Dir ν β} (h : d.Named P) : ∀ n ∈ d.filenames, P n := by
  induction d with
  | nil => simp [filenames]
  | file m c rest ih => exact List.forall_mem_cons.mpr ⟨h.1, ih h.2⟩
  | sub m e rest _ ih => exact ih h.2.2

theorem filenames_sublist_names (d : Dir ν β) : d.filenames.Sublist d.names := by
  induction d with
  | nil => exact .slnil
  | file m c rest ih => exact ih.cons_cons m
  | sub m e rest _ ih => exact ih.cons m

/-- What holds of the file names of every well-formed, well-named directory
holds of every visit. -/
theorem visits_below {P : ν → Prop} {Q : List ν → Prop}
    (hQ : ∀ e : Dir ν β, e.WF → e.Named P → Q e.filenames) {d : Dir ν β} (hwf : d.WF)
    (hP : d.Named P) (top : List ν) : ∀ x ∈ walkBelow top d, Q x.2.2 := by
  induction d generalizing top with
  | nil => simp [walkBelow]
  | file m c rest ih => exact ih hwf.2 hP.2 top
  | sub m e rest ihe ih =>
      simp only [walkBelow, List.forall_mem_cons, List.forall_mem_append]
      exact ⟨hQ e hwf.2.1 hP.2.1, ihe hwf.2.1 hP.2.1 _, ih hwf.2.2 hP.2.2 _⟩

theorem lastFilenames_of_forall {P : ν → Prop} {Q : List ν → Prop}
    (hQ : ∀ e : Dir ν β, e.WF → e.Named P → Q e.filenames) {d : Dir ν β} (hwf : d.WF)
    (hP : d.Named P) : Q d.lastFilenames := by
  have hall : ∀ x ∈ walk [] d, Q x.2.2 :=
    List.forall_mem_cons.mpr ⟨hQ d hwf hP, visits_below hQ hwf hP []⟩
  rw [lastFilenames]
  cases hlast : (walk [] d).getLast? with
  | none => simp [walk] at hlast
  | some x => exact hall x (List.mem_of_getLast? hlast)

/-! ## paths of files -/

/-- A file's path starts with a name of the directory; in particular it is
not empty. -/
theorem exists_cons_of_mem_files {d : Dir ν β} {path : List ν} {c : β} (h : (path, c) ∈ d.files) :
    ∃ n rest, path = n :: rest ∧ n ∈ d.names := by
  induction d generalizing path with
  | nil => simp [files] at h
  | file m b rest ih =>
      simp only [files, List.mem_cons, Prod.mk.injEq] at h
      rcases h with ⟨rfl, -⟩ | h
      · exact ⟨m, [], rfl, List.mem_cons_self⟩
      · obtain ⟨n, p, hp, hn⟩ := ih h
        exact ⟨n, p, hp, List.mem_cons_of_mem m hn⟩
  | sub m s rest _ ih =>
      simp only [files, List.mem_append, List.mem_map, Prod.mk.injEq] at h
      rcases h with ⟨x, -, rfl, -⟩ | h
      · exact ⟨m, x.1, rfl, List.mem_cons_self⟩
      · obtain ⟨n, p, hp, hn⟩ := ih h
        exact ⟨n, p, hp, List.mem_cons_of_mem m hn⟩

theorem ne_nil_of_mem_files {d : Dir ν β} {path : List ν} {c : β} (h : (path, c) ∈ d.files) :
    path ≠ [] := by
  obtain ⟨n, rest, rfl, -⟩ := exists_cons_of_mem_files h
  exact List.cons_ne_nil n rest

/-- The path of a file is made of names of the tree. -/
theorem named_of_mem_files {P : ν → Prop} {d : Dir ν β} (hd : d.Named P) {path : List ν} {c : β}
    (h : (path, c) ∈ d.files) : ∀ n ∈ path, P n := by
  induction d generalizing path with
  | nil => simp [files] at h
  | file m b rest ih =>
      simp only [files, List.mem_cons, Prod.mk.injEq] at h
      rcases h with ⟨rfl, -⟩ | h
      · exact List.forall_mem_singleton.mpr hd.1
      · exact ih hd.2 h
  | sub m s rest ihs ih =>
      simp only [files, List.mem_append, List.mem_map, Prod.mk.injEq] at h
      rcases h with ⟨⟨path', c'⟩, hx, rfl, rfl⟩ | h
      · exact List.forall_mem_cons.mpr ⟨hd.1, ihs hd.2.1 hx⟩
      · exact ih hd.2.2 h

theorem walkBelow_filenames_perm (d : Dir ν β) (top : List ν) :
    ((d.filenames ++ (walkBelow top d).flatMap (fun x => x.2.2)).map some).Perm
      (d.files.map (fun x => x.1.getLast?)) := by
  induction d generalizing top with
  | nil => exact .refl _
  | file m c rest ih => exact (ih top).cons (some m)
  | sub m e rest ihe ih =>
      have hlast : ∀ x ∈ e.files, (m :: x.1).getLast? = x.1.getLast? := fun x hx =>
        List.getLast?_cons_of_ne_nil (ne_nil_of_mem_files hx)
      have hfiles : (Dir.files (sub m e rest)).map (fun x => x.1.getLast?) =
          e.files.map (fun x => x.1.getLast?) ++ rest.files.map (fun x => x.1.getLast?) := by
        rw [files, List.map_append, List.map_map]
        congr 1
        exact List.map_congr_left hlast
      rw [hfiles]
      refine .trans ?_ ((ihe (top ++ [m])).append (ih top))
      simp only [walkBelow, filenames, List.flatMap_cons, List.flatMap_append, ← List.map_append]
      refine List.Perm.map some ?_
      rw [← List.append_assoc, ← List.append_assoc, ← List.append_assoc]
      refine List.Perm.append_right _ ?_
      rw [List.append_assoc]
      exact List.perm_append_comm

/-- **A walk lists every file once**, under its last name only. -/
theorem walk_filenames_perm (d : Dir ν β) (top : List ν) :
    (((walk top d).flatMap (fun x => x.2.2)).map some).Perm (d.files.map (fun x => x.1.getLast?)) :=
  walkBelow_filenames_perm d top

theorem notMem_files_of_notMem_names {d : Dir ν β} {n : ν} (h : n ∉ d.names) (path : List ν)
    (c : β) : (n :: path, c) ∉ d.files := by
  intro hm
  obtain ⟨m, rest, hp, hn⟩ := exists_cons_of_mem_files hm
  rw [List.cons.injEq] at hp
  exact h (hp.1 ▸ hn)

/-! ## look-ups -/

variable [DecidableEq ν]

theorem child?_eq_none_iff {d : Dir ν β} {n : ν} : d.child? n = none ↔ n ∉ d.names := by
  induction d with
  | nil => simp [child?, names]
  | file m c rest ih =>
      by_cases h : m = n
      · simp [child?, names, h]
      · simp [child?, names, h, ih, Ne.symm h]
  | sub m e rest _ ih =>
      by_cases h : m = n
      · simp [child?, names, h]
      · simp [child?, names, h, ih, Ne.symm h]

theorem child?_append_of_mem {d : Dir ν β} (e : Dir ν β) {n : ν} (h : n ∈ d.names) :
    (d.append e).child? n = d.child? n := by
  induction d with
  | nil => simp [names] at h
  | file m c rest ih =>
      by_cases hm : m = n
      · simp [append, child?, hm]
      · have hr : n ∈ rest.names := by simpa [names, Ne.symm hm] using h
        simp [append, child?, hm, ih hr]
  | sub m s rest _ ih =>
      by_cases hm : m = n
      · simp [append, child?, hm]
      · have hr : n ∈ rest.names := by simpa [names, Ne.symm hm] using h
        simp [append, child?, hm, ih hr]

theorem mem_names_of_child? {d : Dir ν β} {n : ν} {e : Entry ν β} (h : d.child? n = some e) :
    n ∈ d.names := by
  by_contra hn
  rw [child?_eq_none_iff.mpr hn] at h
  exact absurd h (by simp)

theorem at?_singleton (d : Dir ν β) (n : ν) : d.at? [n] = d.child? n := by
  simp only [at?]
  cases h : d.child? n with
  | none => rfl
  | some e => cases e <;> simp

theorem at?_append {d e : Dir ν β} {path : List ν} (h : d.at? path = some (.dir e))
    (rest : List ν) : d.at? (path ++ rest) = e.at? rest := by
  induction path generalizing d with
  | nil =>
      simp only [at?, Option.some.injEq, Entry.dir.injEq] at h
      rw [h, List.nil_append]
  | cons n path ih =>
      simp only [at?, List.cons_append] at h ⊢
      cases he : d.child? n with
      | none => simp [he] at h
      | some x =>
          cases x with
          | file c => simp only [he] at h; split at h <;> simp at h
          | dir s =>
              simp only [he] at h ⊢
              exact ih h

/-- The way to a directory leads through directories. -/
theorem at?_dir_of_append {d e : Dir ν β} {path rest : List ν}
    (h : d.at? (path ++ rest) = some (.dir e)) : ∃ e', d.at? path = some (.dir e') := by
  induction path generalizing d with
  | nil => exact ⟨d, rfl⟩
  | cons n path ih =>
      simp only [at?, List.cons_append] at h ⊢
      cases he : d.child? n with
      | none => simp [he] at h
      | some x =>
          cases x with
          | file c => simp only [he] at h; split at h <;> simp at h
          | dir s =>
              simp only [he] at h ⊢
              exact ih h

/-- **`files` is what the paths lead to.** -/
theorem mem_files_iff {d : Dir ν β} (hwf : d.WF) (path : List ν) (c : β) :
    (path, c) ∈ d.files ↔ d.at? path = some (.file c) := by
  induction d generalizing path with
  | nil => cases path <;> simp [files, at?, child?]
  | file m b rest ih =>
      cases path with
      | nil =>
          exact ⟨fun h => absurd rfl (ne_nil_of_mem_files h), fun h => by simp [at?] at h⟩
      | cons n path =>
          by_cases hm : m = n
          · subst hm
            have hnone := notMem_files_of_notMem_names hwf.1
            cases path with
            | nil => simp [files, at?, child?, hnone, eq_comm]
            | cons a path => simp [files, at?, child?, hnone]
          · have hrest := ih hwf.2 (n :: path)
            simp only [at?] at hrest
            simp [files, at?, child?, hm, Ne.symm hm, hrest]
  | sub m s rest ihs ih =>
      cases path with
      | nil =>
          exact ⟨fun h => absurd rfl (ne_nil_of_mem_files h), fun h => by simp [at?] at h⟩
      | cons n path =>
          by_cases hm : m = n
          · subst hm
            have hnone := notMem_files_of_notMem_names hwf.1
            simp [files, at?, child?, hnone, ← ihs hwf.2.1]
          · have hrest := ih hwf.2.2 (n :: path)
            simp only [at?] at hrest
            simp [files, at?, child?, hm, hrest]

end FileTree
