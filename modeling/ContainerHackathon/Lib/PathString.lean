import ContainerHackathon.Lib.Delimited
import ContainerHackathon.Lib.FileTree

/-!
# PathString

Pathname strings and what they denote.  A pathname is split at `/`; empty
and `.` components mean nothing, `..` leaves the last directory, any other
component enters an entry.  Absolute pathnames start at the root, all
others at the working directory.  There are no symbolic links.

`resolve` computes the denoted location from the string alone; `follow`
also checks on a directory tree that every directory passed through is
there.  The lemmas say what a location becomes when a name is appended to a
pathname with and without a separating `/` (`resolve_append_name`,
`resolve_append_ne`).
-/

namespace PathString

open Delimited

/-- A location: the names on the way down from the root. -/
abbrev Location := List String

/-- A name that can stand in a directory listing. -/
def IsName (n : String) : Prop := n ≠ "" ∧ n ≠ "." ∧ n ≠ ".." ∧ '/' ∉ n.toList ∧ '\x00' ∉ n.toList

instance (n : String) : Decidable (IsName n) := inferInstanceAs (Decidable (_ ∧ _))

def isAbsolute (s : String) : Bool := s.toList.head? = some '/'

def endsWithSlash (s : String) : Bool := s.toList.getLast? = some '/'

/-- Where one component leads. -/
def enter (at_ : Location) (component : String) : Location :=
  if component = "" ∨ component = "." then at_
  else if component = ".." then at_.dropLast
  else at_ ++ [component]

/-- Where a pathname starts. -/
def start (cwd : Location) (s : String) : Location := if isAbsolute s then [] else cwd

/-- The location a pathname denotes in the working directory `cwd`. -/
def resolve (cwd : Location) (s : String) : Location :=
  (split '/' s).foldl enter (start cwd s)

/-- Python's `os.path.join`. -/
def join (a b : String) : String :=
  if isAbsolute b then b
  else if a = "" ∨ endsWithSlash a then a ++ b
  else a ++ "/" ++ b

/-! ## components -/

theorem enter_name {n : String} (h : IsName n) (loc : Location) : enter loc n = loc ++ [n] := by
  simp [enter, h.1, h.2.1, h.2.2.1]

/-- Only the name itself leads to an entry. -/
theorem eq_of_enter {q n : String} {loc : Location} (h : enter loc q = loc ++ [n]) : q = n := by
  unfold enter at h
  split at h
  · exact absurd h (by simp)
  · split at h
    · have hlen := congrArg List.length h
      simp at hlen
    · simpa using h

theorem toList_ne_nil {s : String} (h : s ≠ "") : s.toList ≠ [] := by
  simpa [String.toList_eq_nil_iff] using h

theorem isAbsolute_append {a : String} (h : a ≠ "") (b : String) :
    isAbsolute (a ++ b) = isAbsolute a := by
  have hne := toList_ne_nil h
  simp only [isAbsolute, String.toList_append]
  rw [List.head?_append_of_ne_nil _ hne]

theorem start_append {a : String} (h : a ≠ "") (b : String) (cwd : Location) :
    start cwd (a ++ b) = start cwd a := by
  simp [start, isAbsolute_append h]

theorem split_name {n : String} (h : IsName n) : split '/' n = [n] := split_of_notMem h.2.2.2.1

/-- A name denotes the entry of the working directory. -/
theorem resolve_name {n : String} (h : IsName n) (cwd : Location) : resolve cwd n = cwd ++ [n] := by
  have habs : isAbsolute n = false := by
    simp only [isAbsolute, decide_eq_false_iff_not]
    intro hhead
    exact h.2.2.2.1 (List.mem_of_mem_head? hhead)
  rw [resolve, split_name h, start, habs]
  simp [enter_name h]

theorem resolve_dot (cwd : Location) : resolve cwd "." = cwd := by
  rw [resolve, show split '/' "." = ["."] by decide, show start cwd "." = cwd from rfl]
  rfl

/-- An absolute pathname denotes the same everywhere. -/
theorem resolve_of_isAbsolute {s : String} (h : isAbsolute s) (cwd cwd' : Location) :
    resolve cwd s = resolve cwd' s := by
  simp [resolve, start, h]

/-- A pathname that ends in a slash is some string before that slash. -/
theorem exists_of_endsWithSlash {a : String} (h : endsWithSlash a) : ∃ b, a = b ++ "/" := by
  simp only [endsWithSlash, decide_eq_true_eq] at h
  obtain ⟨cs, hcs⟩ := List.getLast?_eq_some_iff.mp h
  refine ⟨String.ofList cs, ?_⟩
  rw [← String.toList_inj, hcs]
  simp

theorem ne_empty_of_endsWithSlash {a : String} (h : endsWithSlash a) : a ≠ "" := by
  intro he
  subst he
  exact absurd h (by decide)

/-! ## appending to a pathname -/

/-- Appending after an explicit slash continues from the denoted location. -/
theorem resolve_append_slash {a : String} (h : a ≠ "") (b : String) (cwd : Location) :
    resolve cwd (a ++ "/" ++ b) = (split '/' b).foldl enter (resolve cwd a) := by
  rw [resolve, show a ++ "/" ++ b = a ++ sepString '/' ++ b from rfl, split_append_cons,
    List.foldl_append, String.append_assoc, start_append h]
  rfl

/-- A trailing slash does not change the location. -/
theorem resolve_slash {a : String} (h : a ≠ "") (cwd : Location) :
    resolve cwd (a ++ "/") = resolve cwd a := by
  have happ := resolve_append_slash h "" cwd
  rw [String.append_empty] at happ
  rw [happ, show split '/' "" = [""] by decide]
  simp [enter]

/-- `a/n` is the entry `n` of `a`. -/
theorem resolve_append_slash_name {a n : String} (h : a ≠ "") (hn : IsName n) (cwd : Location) :
    resolve cwd (a ++ "/" ++ n) = resolve cwd a ++ [n] := by
  rw [resolve_append_slash h, split_name hn, List.foldl_cons, List.foldl_nil, enter_name hn]

/-- Behind a trailing slash one more component is entered. -/
theorem resolve_append_component {a q : String} (h : endsWithSlash a) (hq : '/' ∉ q.toList)
    (cwd : Location) : resolve cwd (a ++ q) = enter (resolve cwd a) q := by
  obtain ⟨b, rfl⟩ := exists_of_endsWithSlash h
  by_cases hb : b = ""
  · subst hb
    have hsplit : split '/' ("" ++ "/" ++ q) = ["", q] := by
      have := split_append_cons '/' "" q
      rw [split_of_notMem hq] at this
      exact this
    rw [resolve, hsplit, start_append (by decide)]
    rfl
  · rw [resolve_append_slash hb, split_of_notMem hq, resolve_slash hb, List.foldl_cons,
      List.foldl_nil]

/-- Behind a trailing slash a name denotes an entry. -/
theorem resolve_append_name {a n : String} (h : endsWithSlash a) (hn : IsName n)
    (cwd : Location) : resolve cwd (a ++ n) = resolve cwd a ++ [n] := by
  rw [resolve_append_component h hn.2.2.2.1, enter_name hn]

/-- The last component of a pathname that does not end in a slash. -/
theorem exists_last_component {a : String} (hne : a ≠ "") (h : endsWithSlash a = false) :
    ∃ init c, split '/' a = init ++ [c] ∧ c ≠ "" ∧
      ∀ n, '/' ∉ n.toList → split '/' (a ++ n) = init ++ [c ++ n] := by
  induction hk : a.toList.length using Nat.strong_induction_on generalizing a with
  | _ k ih =>
      by_cases hs : '/' ∈ a.toList
      · -- cut at the first slash and recurse into the rest
        obtain ⟨pre, post, hsplit⟩ := List.append_of_mem hs
        have ha : a = String.ofList pre ++ "/" ++ String.ofList post := by
          rw [← String.toList_inj, hsplit]; simp
        have hpost : String.ofList post ≠ "" := by
          intro he
          have : post = [] := by
            have := congrArg String.toList he
            simpa using this
          rw [ha, this] at h
          simp [endsWithSlash] at h
        have hend : endsWithSlash (String.ofList post) = false := by
          have hp : post ≠ [] := fun hnil => hpost (by rw [hnil])
          simp only [endsWithSlash, hsplit, String.toList_ofList] at h ⊢
          rwa [List.getLast?_append_of_ne_nil _ (by simp), List.getLast?_cons_of_ne_nil hp] at h
        have hlt : (String.ofList post).toList.length < k := by
          rw [← hk, hsplit]; simp; omega
        obtain ⟨init, c, hc, hcne, happ⟩ := ih _ hlt hpost hend rfl
        refine ⟨split '/' (String.ofList pre) ++ init, c, ?_, hcne, ?_⟩
        · rw [ha, show String.ofList pre ++ "/" ++ String.ofList post =
            String.ofList pre ++ sepString '/' ++ String.ofList post from rfl,
            split_append_cons, hc, List.append_assoc]
        · intro n hn
          rw [ha, String.append_assoc, show String.ofList pre ++ "/" ++ (String.ofList post ++ n) =
            String.ofList pre ++ sepString '/' ++ (String.ofList post ++ n) from rfl,
            split_append_cons, happ n hn, List.append_assoc]
      · refine ⟨[], a, by simp [split_of_notMem hs], hne, fun n hn => ?_⟩
        rw [split_of_notMem (by simp [hs, hn])]
        rfl

/-- **Without the separating slash** a name is glued to the last component
and the pathname denotes something else. -/
theorem resolve_append_ne {a n : String} (hne : a ≠ "") (h : endsWithSlash a = false)
    (hn : IsName n) (cwd cwd' : Location) : resolve cwd (a ++ n) ≠ resolve cwd' a ++ [n] := by
  obtain ⟨init, c, -, hc, happ⟩ := exists_last_component hne h
  have hcn : enter (init.foldl enter (start cwd a)) (c ++ n) =
      init.foldl enter (start cwd a) ++ [c ++ n] := by
    have hlen : 0 < c.toList.length := List.length_pos_of_ne_nil (toList_ne_nil hc)
    have hlen' : 0 < n.toList.length := List.length_pos_of_ne_nil (toList_ne_nil hn.1)
    have hne1 : ∀ s : String, c ++ n = s → s.toList.length = c.toList.length + n.toList.length :=
      fun s hs => by rw [← hs, String.toList_append, List.length_append]
    have h0 : c ++ n ≠ "" := fun e => by have := hne1 _ e; simp at this; omega
    have h1 : c ++ n ≠ "." := fun e => by have := hne1 _ e; simp at this; omega
    have h2 : c ++ n ≠ ".." := by
      intro e
      have hl := hne1 _ e
      have hl2 : c.toList.length = 1 ∧ n.toList.length = 1 := by simp at hl; omega
      obtain ⟨x, hx⟩ := List.length_eq_one_iff.mp hl2.1
      obtain ⟨y, hy⟩ := List.length_eq_one_iff.mp hl2.2
      have he : c.toList ++ n.toList = ['.', '.'] := by rw [← String.toList_append, e]; rfl
      rw [hx, hy] at he
      have hdot : y = '.' := by simpa using (List.cons.inj (List.cons.inj he).2).1
      exact hn.2.1 (by rw [← String.toList_inj, hy, hdot]; rfl)
    simp [enter, h0, h1, h2]
  rw [resolve, happ n hn.2.2.2.1, List.foldl_append, List.foldl_cons, List.foldl_nil,
    start_append hne, hcn]
  intro he
  have hlast := (List.append_inj' he rfl).2
  have hl := congrArg (fun l => (l.map (fun s : String => s.toList.length)).sum) hlast
  have hlen : 0 < c.toList.length := List.length_pos_of_ne_nil (toList_ne_nil hc)
  simp at hl
  exact hc hl

/-! ## pathnames on a directory tree -/

variable {β : Type*}

open FileTree

/-- Is there a directory at this location? -/
def isDirAt (root : Dir String β) (loc : Location) : Bool :=
  match root.at? loc with
  | some (.dir _) => true
  | _ => false

/-- Follow a pathname: like `resolve`, but every component is looked up in
an existing directory.  The location itself need not exist. -/
def follow (root : Dir String β) (cwd : Location) (s : String) : Option Location :=
  if s = "" then none
  else (split '/' s).foldlM
    (fun loc c => if isDirAt root loc then some (enter loc c) else none) (start cwd s)

/-- What a pathname leads to. -/
def lookup (root : Dir String β) (cwd : Location) (s : String) : Option (Entry String β) :=
  (follow root cwd s).bind root.at?

theorem foldlM_enter_eq {root : Dir String β} {cs : List String} {loc loc' : Location}
    (h : cs.foldlM (fun loc c => if isDirAt root loc then some (enter loc c) else none) loc =
      some loc') : cs.foldl enter loc = loc' := by
  induction cs generalizing loc with
  | nil => simpa using h
  | cons c cs ih =>
      rw [List.foldlM_cons] at h
      split at h
      · exact ih h
      · simp at h

/-- Following ends where resolving says. -/
theorem resolve_of_follow {root : Dir String β} {cwd loc : Location} {s : String}
    (h : follow root cwd s = some loc) : resolve cwd s = loc := by
  rw [follow] at h
  split at h
  · simp at h
  · exact foldlM_enter_eq h

/-- **Entries of a followed directory**: behind a trailing slash, a name is
looked up in the directory. -/
theorem lookup_append_name {root d : Dir String β} {cwd : Location} {a n : String}
    (hs : endsWithSlash a) (hn : IsName n) (h : lookup root cwd a = some (.dir d)) :
    lookup root cwd (a ++ n) = d.child? n := by
  obtain ⟨b, rfl⟩ := exists_of_endsWithSlash hs
  have hsplit : split '/' (b ++ "/") = split '/' b ++ [""] := by
    have := split_append_cons '/' b ""
    rwa [String.append_empty, show split '/' "" = [""] by decide] at this
  have hsplit' : split '/' (b ++ "/" ++ n) = split '/' b ++ [n] := by
    have := split_append_cons '/' b n
    rwa [split_name hn] at this
  have hne : b ++ "/" ≠ "" := ne_empty_of_endsWithSlash hs
  have hne' : b ++ "/" ++ n ≠ "" := fun e => hn.1 (by
    have := congrArg String.toList e
    rw [← String.toList_inj]
    simp at this)
  simp only [lookup, follow, if_neg hne, if_neg hne', hsplit, hsplit', start_append hne,
    List.foldlM_append, List.foldlM_cons, List.foldlM_nil] at h ⊢
  cases hf : (split '/' b).foldlM
      (fun loc c => if isDirAt root loc then some (enter loc c) else none)
      (start cwd (b ++ "/")) with
  | none => simp [hf] at h
  | some loc =>
      simp only [hf, Option.bind_eq_bind, Option.bind_some] at h ⊢
      by_cases hd : isDirAt root loc
      · simp only [if_pos hd, enter_name hn, Option.bind_some] at h ⊢
        have hd' : root.at? loc = some (.dir d) := by simpa [enter] using h
        simp only [Option.pure_def, Option.bind_some]
        rw [at?_append hd', at?_singleton]
      · simp [hd] at h

end PathString
