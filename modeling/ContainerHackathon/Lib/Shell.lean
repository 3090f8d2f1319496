import Mathlib

/-!
# Shell

How a POSIX shell divides a command line into the words of one simple
command, as an automaton that reads one character at a time: quoting,
blanks, comments and operators are modelled; as soon as the words depend on
an expansion (a parameter, a command substitution, a pattern, a tilde) the
answer is left to the environment.

A word is *plain* if the shell passes it on as it is.  `tokens_plain` says
that plain words separated by blanks are the tokens of their line, and
`plainWord_of_tokens` that no other word comes through unchanged: every
quoting character, blank and comment costs at least one character, which
`size` counts.
-/

namespace Shell

/-! ## the lexer -/

/-- A character of a word, and whether it was quoted. -/
abbrev Mark := Char × Bool

inductive Mode
  | plain
  | escape
  | single
  | double
  | doubleEscape
  | comment
  deriving DecidableEq, Repr

/-- Why a line is not one simple command with fixed words. -/
inductive Stop
  /-- a control operator, a redirection or a newline -/
  | operator
  /-- the words depend on an expansion, or are left open by the standard -/
  | expansion
  /-- a quoted string without its closing quote -/
  | unterminated
  deriving DecidableEq, Repr

structure Lexer where
  mode : Mode
  done : List (List Mark)
  word : Option (List Mark)
  deriving DecidableEq, Repr

namespace Lexer

def push (s : Lexer) (m : Mark) : Lexer := { s with word := some (s.word.getD [] ++ [m]) }

def endWord (s : Lexer) : Lexer :=
  match s.word with
  | none => s
  | some w => { s with done := s.done ++ [w], word := none }

end Lexer

def isBlank (c : Char) : Bool := c = ' ' || c = '\t'

def isOperator (c : Char) : Bool :=
  c = '\n' || c = '|' || c = '&' || c = ';' || c = '<' || c = '>' || c = '(' || c = ')'

def isQuote (c : Char) : Bool := c = '\\' || c = '\'' || c = '"'

def isSubstitution (c : Char) : Bool := c = '$' || c = '\x60'

/-- A character without a meaning of its own to the lexer. -/
def isOrdinary (c : Char) : Bool :=
  !(isBlank c || isOperator c || isQuote c || isSubstitution c)

def stepPlain (s : Lexer) (c : Char) : Except Stop Lexer :=
  if isBlank c then .ok s.endWord
  else if isOperator c then .error .operator
  else if c = '\\' then .ok { s with mode := .escape }
  else if c = '\'' then .ok { s with mode := .single, word := some (s.word.getD []) }
  else if c = '"' then .ok { s with mode := .double, word := some (s.word.getD []) }
  else if isSubstitution c then .error .expansion
  else if c = '#' ∧ s.word = none then .ok { s with mode := .comment }
  else .ok (s.push (c, false))

def step (s : Lexer) (c : Char) : Except Stop Lexer :=
  match s.mode with
  | .plain => stepPlain s c
  | .escape =>
      if c = '\n' then .ok { s with mode := .plain } -- a line continuation
      else .ok ({ s with mode := .plain }.push (c, true))
  | .single => if c = '\'' then .ok { s with mode := .plain } else .ok (s.push (c, true))
  | .double =>
      if c = '"' then .ok { s with mode := .plain }
      else if isSubstitution c then .error .expansion
      else if c = '\\' then .ok { s with mode := .doubleEscape }
      else .ok (s.push (c, true))
  | .doubleEscape =>
      if c = '\n' then .ok { s with mode := .double }
      else if isSubstitution c ∨ c = '"' ∨ c = '\\' then
        .ok ({ s with mode := .double }.push (c, true))
      else .ok (({ s with mode := .double }.push ('\\', true)).push (c, true))
  | .comment => if c = '\n' then .error .operator else .ok s

/-- Is there an unquoted `]`, before any slash? -/
def closes : List Mark → Bool
  | [] => false
  | (c, quoted) :: w => (!quoted && c = ']') || (c != '/' && closes w)

/-- Does what follows an unquoted `[` make it a bracket expression?  After
an optional `!`, the first member may be a `]`. -/
def isBracket : List Mark → Bool
  | ('!', false) :: (c, _) :: w => c != '/' && closes w
  | (c, _) :: w => c != '/' && closes w
  | [] => false

/-- Is the word a pattern for pathname expansion? -/
def isPattern : List Mark → Bool
  | [] => false
  | (c, quoted) :: w =>
      (!quoted && (c = '*' || c = '?' || (c = '[' && isBracket w))) || isPattern w

/-- Does the word undergo tilde or pathname expansion? -/
def expands (w : List Mark) : Bool := w.head? = some ('~', false) || isPattern w

/-- The words at the end of the line. -/
def finish (s : Lexer) : Except Stop (List (List Mark)) :=
  match s.mode with
  | .plain | .comment =>
      if s.endWord.done.any expands then .error .expansion else .ok s.endWord.done
  | .escape => .error .expansion
  | .single | .double | .doubleEscape => .error .unterminated

/-- The words of a line that is one simple command. -/
def tokens (line : List Char) : Except Stop (List (List Char)) :=
  (line.foldlM step ⟨.plain, [], none⟩).bind fun s =>
    (finish s).bind fun ws => .ok (ws.map (List.map Prod.fst))

/-- The arguments with which a line runs a command, the command's name
first; expansions are up to the environment. -/
def arguments (environment : String → Option (List String)) (line : String) :
    Option (List String) :=
  match tokens line.toList with
  | .ok ws => some (ws.map String.ofList)
  | .error .expansion => environment line
  | .error .operator | .error .unterminated => none

/-! ## plain words -/

/-- The marks of unquoted characters. -/
def marks (w : List Char) : List Mark := w.map (fun c => (c, false))

/-- A word that the shell passes on as it is. -/
structure PlainWord (w : List Char) : Prop where
  nonempty : w ≠ []
  ordinary : ∀ c ∈ w, isOrdinary c
  comment : w.head? ≠ some '#'
  unexpanded : expands (marks w) = false

@[simp] theorem marks_nil : marks [] = [] := rfl

@[simp] theorem marks_cons (c : Char) (w : List Char) : marks (c :: w) = (c, false) :: marks w := rfl

@[simp] theorem marks_append (v w : List Char) : marks (v ++ w) = marks v ++ marks w :=
  List.map_append

@[simp] theorem map_fst_marks (w : List Char) : (marks w).map Prod.fst = w := by
  simp [marks, Function.comp_def]

@[simp] theorem length_marks (w : List Char) : (marks w).length = w.length := by
  simp [marks]

instance (w : List Char) : Decidable (PlainWord w) :=
  decidable_of_iff (w ≠ [] ∧ w.all isOrdinary ∧ w.head? ≠ some '#' ∧ expands (marks w) = false)
    ⟨fun ⟨h1, h2, h3, h4⟩ => ⟨h1, List.all_eq_true.mp h2, h3, h4⟩,
      fun ⟨h1, h2, h3, h4⟩ => ⟨h1, List.all_eq_true.mpr h2, h3, h4⟩⟩

/-- An ordinary character is appended to the word. -/
theorem stepPlain_ordinary {s : Lexer} {c : Char} (h : isOrdinary c) (hc : s.word = none → c ≠ '#') :
    stepPlain s c = .ok (s.push (c, false)) := by
  simp only [isOrdinary, isQuote, Bool.not_or, Bool.and_eq_true, Bool.not_eq_true',
    decide_eq_false_iff_not] at h
  obtain ⟨⟨⟨hb, ho⟩, ⟨hq1, hq2⟩, hq3⟩, hs⟩ := h
  rw [stepPlain, if_neg (by simp [hb]), if_neg (by simp [ho]), if_neg hq1, if_neg hq2, if_neg hq3,
    if_neg (by simp [hs]), if_neg (fun hh => hc hh.2 hh.1)]

/-- A word in progress takes up ordinary characters. -/
theorem run_ordinary {done : List (List Mark)} {w : List Mark} {cs : List Char}
    (h : ∀ c ∈ cs, isOrdinary c) :
    cs.foldlM step ⟨.plain, done, some w⟩ = .ok ⟨.plain, done, some (w ++ marks cs)⟩ := by
  induction cs generalizing w with
  | nil => simp [marks, Pure.pure, Except.pure]
  | cons c cs ih =>
      rw [List.forall_mem_cons] at h
      have hstep : step ⟨.plain, done, some w⟩ c = .ok ⟨.plain, done, some (w ++ [(c, false)])⟩ :=
        stepPlain_ordinary h.1 (by simp)
      rw [List.foldlM_cons, hstep]
      simp only [Bind.bind, Except.bind, ih h.2]
      simp [marks]

/-- A word of ordinary characters is taken up whole. -/
theorem run_word {done : List (List Mark)} {w : List Char} (hne : w ≠ [])
    (hord : ∀ c ∈ w, isOrdinary c) (hcomment : w.head? ≠ some '#') :
    w.foldlM step ⟨.plain, done, none⟩ = .ok ⟨.plain, done, some (marks w)⟩ := by
  cases w with
  | nil => exact absurd rfl hne
  | cons c cs =>
      obtain ⟨hc, hcs⟩ := List.forall_mem_cons.mp hord
      have hstep : step ⟨.plain, done, none⟩ c = .ok ⟨.plain, done, some [(c, false)]⟩ :=
        stepPlain_ordinary hc fun _ he => hcomment (by rw [he, List.head?_cons])
      rw [List.foldlM_cons, hstep]
      exact run_ordinary hcs

theorem run_plainWord {done : List (List Mark)} {w : List Char} (h : PlainWord w) :
    w.foldlM step ⟨.plain, done, none⟩ = .ok ⟨.plain, done, some (marks w)⟩ :=
  run_word h.nonempty h.ordinary h.comment

/-- Words that are each followed by a blank. -/
def blankEnded (ws : List (List Char)) : List Char := ws.flatMap (fun w => w ++ [' '])

theorem run_blankEnded {done : List (List Mark)} {ws : List (List Char)}
    (h : ∀ w ∈ ws, PlainWord w) :
    (blankEnded ws).foldlM step ⟨.plain, done, none⟩ = .ok ⟨.plain, done ++ ws.map marks, none⟩ := by
  induction ws generalizing done with
  | nil => simp [blankEnded, Pure.pure, Except.pure]
  | cons w ws ih =>
      rw [List.forall_mem_cons] at h
      rw [blankEnded, List.flatMap_cons, List.append_assoc, List.foldlM_append,
        run_plainWord h.1]
      exact (ih h.2).trans (by simp)

/-- **Plain words are the tokens of their line.** -/
theorem tokens_plain (ws : List (List Char)) (last : List Char) (h : ∀ w ∈ ws, PlainWord w)
    (hlast : PlainWord last) : tokens (blankEnded ws ++ last) = .ok (ws ++ [last]) := by
  have hnone : (ws.map marks ++ [marks last]).any expands = false := by
    rw [List.any_eq_false]
    rw [List.forall_mem_append, List.forall_mem_map, List.forall_mem_singleton]
    exact ⟨fun w hw => by simp [(h w hw).unexpanded], by simp [hlast.unexpanded]⟩
  rw [tokens, List.foldlM_append, run_blankEnded h]
  simp only [Bind.bind, Except.bind, run_plainWord hlast, List.nil_append]
  simp only [finish, Lexer.endWord, hnone]
  simp [Function.comp_def]

/-- A second blank between two words changes nothing. -/
theorem tokens_skip_blank {ws : List (List Char)} (h : ∀ w ∈ ws, PlainWord w) (rest : List Char) :
    tokens (blankEnded ws ++ ' ' :: rest) = tokens (blankEnded ws ++ rest) := by
  rw [tokens, tokens, List.foldlM_append, List.foldlM_append, run_blankEnded h]
  rfl

/-! ## nothing else comes through -/

/-- How often `x` has been kept so far; a backslash inside double quotes is
still to be decided on. -/
def Lexer.count (x : Char) (s : Lexer) : Nat :=
  (s.done.flatten.map Prod.fst).count x + ((s.word.getD []).map Prod.fst).count x +
    if s.mode = .doubleEscape then ['\\'].count x else 0

theorem count_endWord (x : Char) (s : Lexer) : s.endWord.count x = s.count x := by
  cases hw : s.word <;> simp [Lexer.endWord, Lexer.count, hw]

theorem count_push (x : Char) (s : Lexer) (m : Mark) :
    (s.push m).count x = s.count x + [m.1].count x := by
  simp only [Lexer.push, Lexer.count, Option.getD_some, List.map_append, List.count_append,
    List.map_singleton]
  change _ + _ + (if s.mode = .doubleEscape then _ else 0) = _
  omega

/-- In plain mode a character ends the word, is kept, or is gone for good. -/
theorem stepPlain_count {s s' : Lexer} {c : Char} (hm : s.mode = .plain)
    (h : stepPlain s c = .ok s') : (isBlank c ∧ s' = s.endWord) ∨
      (isOrdinary c ∧ (s.word = none → c ≠ '#') ∧ s' = s.push (c, false)) ∨
      (¬ isBlank c ∧ ∀ x, s'.count x = s.count x) := by
  unfold stepPlain at h
  split at h
  · next hb => obtain rfl := Except.ok.inj h; exact .inl ⟨hb, rfl⟩
  · next hb =>
    split at h
    · cases h
    · next ho =>
      split at h
      · obtain rfl := Except.ok.inj h; exact .inr (.inr ⟨hb, by simp [Lexer.count, hm]⟩)
      · next hq1 =>
        split at h
        · obtain rfl := Except.ok.inj h; exact .inr (.inr ⟨hb, by simp [Lexer.count, hm]⟩)
        · next hq2 =>
          split at h
          · obtain rfl := Except.ok.inj h; exact .inr (.inr ⟨hb, by simp [Lexer.count, hm]⟩)
          · next hq3 =>
            split at h
            · cases h
            · next hs =>
              split at h
              · obtain rfl := Except.ok.inj h; exact .inr (.inr ⟨hb, by simp [Lexer.count, hm]⟩)
              · next hc =>
                obtain rfl := Except.ok.inj h
                exact .inr (.inl ⟨by simp [isOrdinary, isQuote, hb, ho, hq1, hq2, hq3, hs],
                  fun hw he => hc ⟨he, hw⟩, rfl⟩)

/-- No character is kept twice. -/
theorem step_count {s s' : Lexer} {c : Char} (h : step s c = .ok s') (x : Char) :
    s'.count x ≤ s.count x + [c].count x := by
  cases hm : s.mode with
  | plain =>
      rw [step, hm] at h
      obtain hblank | hkept | hgone := stepPlain_count hm h
      · rw [hblank.2, count_endWord]
        omega
      · rw [hkept.2.2, count_push]
      · rw [hgone.2 x]
        omega
  | escape =>
      simp only [step, hm] at h
      split at h <;> obtain rfl := Except.ok.inj h
      · simp [Lexer.count, hm]
      · rw [count_push]; simp [Lexer.count, hm]
  | single =>
      simp only [step, hm] at h
      split at h <;> obtain rfl := Except.ok.inj h
      · simp [Lexer.count, hm]
      · rw [count_push]
  | double =>
      simp only [step, hm] at h
      split at h
      · obtain rfl := Except.ok.inj h; simp [Lexer.count, hm]
      · split at h
        · cases h
        · split at h <;> obtain rfl := Except.ok.inj h
          · next hc => simp [Lexer.count, hm, hc]
          · rw [count_push]
  | doubleEscape =>
      simp only [step, hm] at h
      split at h
      · obtain rfl := Except.ok.inj h; simp [Lexer.count, hm]; omega
      · split at h <;> obtain rfl := Except.ok.inj h
        · rw [count_push]; simp [Lexer.count, hm]
        · rw [count_push, count_push]; simp [Lexer.count, hm]
  | comment =>
      simp only [step, hm] at h
      split at h
      · cases h
      · obtain rfl := Except.ok.inj h; omega

/-- A run that gets through gets through its first step. -/
theorem exists_step_of_run {s s' : Lexer} {c : Char} {cs : List Char}
    (h : (c :: cs).foldlM step s = .ok s') :
    ∃ mid, step s c = .ok mid ∧ cs.foldlM step mid = .ok s' := by
  rw [List.foldlM_cons] at h
  cases hc : step s c with
  | error e => simp [hc, Bind.bind, Except.bind] at h
  | ok mid =>
      simp only [hc, Bind.bind, Except.bind] at h
      exact ⟨mid, rfl, h⟩

theorem run_count {s s' : Lexer} {cs : List Char} (h : cs.foldlM step s = .ok s') (x : Char) :
    s'.count x ≤ s.count x + cs.count x := by
  induction cs generalizing s with
  | nil =>
      obtain rfl := Except.ok.inj h
      simp
  | cons c cs ih =>
      obtain ⟨mid, hc, h⟩ := exists_step_of_run h
      have h1 := step_count hc x
      have h2 := ih h
      rw [List.count_cons]
      rw [List.count_singleton] at h1
      omega

/-- Everything but blanks is kept. -/
def KeepsAll (s s' : Lexer) (cs : List Char) : Prop :=
  ∀ x, x ≠ ' ' → s.count x + cs.count x ≤ s'.count x

/-- Where everything but blanks is kept, the lexer stays in plain mode: a
character is a blank between words or an ordinary one. -/
theorem run_keepsAll {s s' : Lexer} {cs : List Char} (hm : s.mode = .plain)
    (h : cs.foldlM step s = .ok s') (hall : KeepsAll s s' cs) :
    (∀ c ∈ cs, c = ' ' ∨ isOrdinary c) ∧ (s.word = none → cs.head? ≠ some '#') ∧
      s'.count ' ' = s.count ' ' := by
  induction cs generalizing s with
  | nil =>
      obtain rfl := Except.ok.inj h
      simp
  | cons c cs ih =>
      obtain ⟨mid, hc, h⟩ := exists_step_of_run h
      have hrest := run_count h
      have hone : ∀ x, (c :: cs).count x = cs.count x + [c].count x := fun x => by
        rw [List.count_cons, List.count_singleton]
      rw [step, hm] at hc
      obtain ⟨hb, rfl⟩ | ⟨hord, hcomment, rfl⟩ | ⟨hb, hgone⟩ := stepPlain_count hm hc
      · -- a tab between words would be lost
        have hspace : c = ' ' := by
          by_contra hne
          have h1 := hall c hne
          have h2 := hrest c
          rw [count_endWord] at h2
          rw [hone c, List.count_singleton_self] at h1
          omega
        have hmode : s.endWord.mode = .plain := by cases hw : s.word <;> simp [Lexer.endWord, hw, hm]
        obtain ⟨h1, -, h3⟩ := ih hmode h fun x hx => by
          have := hall x hx
          rw [hone x] at this
          rw [count_endWord]
          omega
        rw [count_endWord] at h3
        refine ⟨List.forall_mem_cons.mpr ⟨.inl hspace, h1⟩, fun _ he => ?_, h3⟩
        simp [hspace] at he
      · obtain ⟨h1, -, h3⟩ := ih (s := s.push (c, false)) hm h fun x hx => by
          have := hall x hx
          rw [hone x] at this
          rw [count_push]
          dsimp only
          omega
        have hne : c ≠ ' ' := fun he => by
          rw [he] at hord
          exact absurd hord (by decide)
        have hzero : [c].count ' ' = 0 := List.count_eq_zero.mpr (by simpa [eq_comm] using hne)
        rw [count_push, hzero] at h3
        exact ⟨List.forall_mem_cons.mpr ⟨.inr hord, h1⟩, fun hw he => hcomment hw (by simpa using he),
          h3⟩
      · -- any other character is gone
        have hne : c ≠ ' ' := fun he => hb (by rw [he]; rfl)
        have h1 := hall c hne
        have h2 := hrest c
        rw [hone c, List.count_singleton_self] at h1
        rw [hgone c] at h2
        omega

/-- Words of ordinary characters that are kept as they are: none of them
starts a comment. -/
theorem heads_of_keepsAll {ws : List (List Char)} {last : List Char} {done : List (List Mark)}
    {s' : Lexer} (hne : ∀ w ∈ ws ++ [last], w ≠ [])
    (hord : ∀ w ∈ ws ++ [last], ∀ c ∈ w, isOrdinary c)
    (h : (blankEnded ws ++ last).foldlM step ⟨.plain, done, none⟩ = .ok s')
    (hall : KeepsAll ⟨.plain, done, none⟩ s' (blankEnded ws ++ last)) :
    (∀ w ∈ ws ++ [last], w.head? ≠ some '#') ∧
      s' = ⟨.plain, done ++ ws.map marks, some (marks last)⟩ := by
  induction ws generalizing done with
  | nil =>
      have hhead := (run_keepsAll rfl h hall).2.1 rfl
      simp only [blankEnded, List.flatMap_nil, List.nil_append, List.forall_mem_singleton] at *
      rw [run_word hne hord hhead] at h
      exact ⟨hhead, by simpa using (Except.ok.inj h).symm⟩
  | cons w ws ih =>
      rw [List.cons_append, List.forall_mem_cons] at hne hord
      have hline : blankEnded (w :: ws) ++ last = w ++ ' ' :: (blankEnded ws ++ last) := by
        simp [blankEnded]
      rw [hline] at h hall
      have hhead : w.head? ≠ some '#' := by
        have := (run_keepsAll rfl h hall).2.1 rfl
        rwa [List.head?_append_of_ne_nil _ hne.1] at this
      rw [List.foldlM_append, run_word hne.1 hord.1 hhead] at h
      change (' ' :: (blankEnded ws ++ last)).foldlM step ⟨.plain, done, some (marks w)⟩ = _ at h
      obtain ⟨mid, hmid, h⟩ := exists_step_of_run h
      obtain rfl : ⟨.plain, done ++ [marks w], none⟩ = mid := Except.ok.inj hmid
      obtain ⟨hheads, hs'⟩ := ih hne.2 hord.2 h fun x hx => by
        have := hall x hx
        simp only [Lexer.count, List.count_append, List.count_cons, List.map_append,
          List.flatten_append] at this ⊢
        simp at this ⊢
        omega
      rw [List.cons_append, List.forall_mem_cons]
      exact ⟨⟨hhead, hheads⟩, by simpa using hs'⟩

theorem count_of_finish {s : Lexer} {ws : List (List Mark)} (h : finish s = .ok ws) :
    (∀ x, (ws.flatten.map Prod.fst).count x = s.count x) ∧ ws = s.endWord.done ∧
      ws.any expands = false := by
  have hkeep : ∀ x, (s.endWord.done.flatten.map Prod.fst).count x =
      (s.done.flatten.map Prod.fst).count x + ((s.word.getD []).map Prod.fst).count x := by
    cases hw : s.word <;> simp [Lexer.endWord, hw]
  unfold finish at h
  split at h
  · next hm =>
    split at h
    · cases h
    · next hexp =>
      obtain rfl := Except.ok.inj h
      exact ⟨fun x => by rw [hkeep, Lexer.count, hm]; rfl, rfl, by simpa using hexp⟩
  · next hm =>
    split at h
    · cases h
    · next hexp =>
      obtain rfl := Except.ok.inj h
      exact ⟨fun x => by rw [hkeep, Lexer.count, hm]; rfl, rfl, by simpa using hexp⟩
  all_goals cases h

/-- **Only plain words come through unchanged**: the tokens of a line are
the words that were written there, each once, only if all are plain. -/
theorem plainWord_of_tokens {ws : List (List Char)} {last : List Char}
    (hne : ∀ w ∈ ws ++ [last], w ≠ [])
    (htokens : tokens (blankEnded ws ++ last) = .ok (ws ++ [last])) :
    ∀ w ∈ ws ++ [last], PlainWord w := by
  rw [tokens] at htokens
  cases hrun : (blankEnded ws ++ last).foldlM step ⟨.plain, [], none⟩ with
  | error e => simp [Except.bind, hrun] at htokens
  | ok s =>
      simp only [Except.bind, hrun] at htokens
      cases hfin : finish s with
      | error e => simp [hfin] at htokens
      | ok words =>
          simp only [hfin, Except.ok.injEq] at htokens
          obtain ⟨hcount, hdone, hexp⟩ := count_of_finish hfin
          have hkept : ∀ x, s.count x = (ws ++ [last]).flatten.count x := fun x => by
            rw [← hcount, ← htokens, List.map_flatten]
          have hline : ∀ x, x ≠ ' ' →
              (blankEnded ws ++ last).count x = (ws ++ [last]).flatten.count x := by
            intro x hx
            have hzero : [' '].count x = 0 := List.count_eq_zero.mpr (by simpa using hx)
            simp [blankEnded, List.count_append, List.flatMap_def, List.count_flatten,
              Function.comp_def, hzero]
          have hall : KeepsAll ⟨.plain, [], none⟩ s (blankEnded ws ++ last) := fun x hx => by
            rw [hkept x, ← hline x hx]
            simp [Lexer.count]
          obtain ⟨hchars, -, hblanks⟩ := run_keepsAll rfl hrun hall
          -- no blank was kept, so the words have none
          rw [hkept] at hblanks
          have hord : ∀ w ∈ ws ++ [last], ∀ c ∈ w, isOrdinary c := by
            intro w hw c hc
            have hflat : c ∈ (ws ++ [last]).flatten := List.mem_flatten.mpr ⟨w, hw, hc⟩
            have hne' : c ≠ ' ' := fun he => by
              rw [he] at hflat
              have := List.count_pos_iff.mpr hflat
              rw [hblanks] at this
              exact absurd this (by decide)
            have hmem : c ∈ blankEnded ws ++ last := by
              rw [← List.count_pos_iff, hline c hne']
              exact List.count_pos_iff.mpr hflat
            exact (hchars c hmem).resolve_left hne'
          obtain ⟨hheads, rfl⟩ := heads_of_keepsAll hne hord hrun hall
          intro w hw
          rw [hdone, List.any_eq_false] at hexp
          refine ⟨hne w hw, hord w hw, hheads w hw, ?_⟩
          have hmem : marks w ∈ (ws ++ [last]).map marks := List.mem_map_of_mem hw
          simpa using hexp (marks w) (by simpa [Lexer.endWord] using hmem)

/-- Words in every environment come out of the line itself. -/
theorem tokens_of_arguments {line : String} {ws : List String}
    (h : ∀ environment, arguments environment line = some ws) :
    tokens line.toList = .ok (ws.map String.toList) := by
  have hnone := h fun _ => none
  rw [arguments] at hnone
  cases ht : tokens line.toList with
  | error e => cases e <;> simp [ht] at hnone
  | ok words =>
      simp only [ht, Option.some.injEq] at hnone
      rw [← hnone]
      simp [Function.comp_def]

/-- The line of a command whose words are plain. -/
theorem arguments_of_tokens {line : String} {ws : List (List Char)}
    (h : tokens line.toList = .ok ws) (environment : String → Option (List String)) :
    arguments environment line = some (ws.map String.ofList) := by
  rw [arguments, h]

/-- **A command line says what was meant**, in every environment, exactly
if each word is plain. -/
theorem arguments_iff {line last : String} {ws : List String}
    (hline : line.toList = blankEnded (ws.map String.toList) ++ last.toList)
    (hne : ∀ w ∈ ws ++ [last], w ≠ "") :
    (∀ environment, arguments environment line = some (ws ++ [last])) ↔
      ∀ w ∈ ws ++ [last], PlainWord w.toList := by
  have hlist : (ws ++ [last]).map String.toList = ws.map String.toList ++ [last.toList] := by simp
  have hforall : (∀ w ∈ ws.map String.toList ++ [last.toList], PlainWord w) ↔
      ∀ w ∈ ws ++ [last], PlainWord w.toList := by
    rw [← hlist, List.forall_mem_map]
  constructor
  · intro h
    have htokens := tokens_of_arguments h
    rw [hline, hlist] at htokens
    refine hforall.mp (plainWord_of_tokens ?_ htokens)
    rw [← hlist, List.forall_mem_map]
    exact fun w hw => by simpa [String.toList_eq_nil_iff] using hne w hw
  · intro h environment
    rw [← hforall, List.forall_mem_append, List.forall_mem_singleton] at h
    have htokens := tokens_plain _ _ h.1 h.2
    rw [← hline, ← hlist] at htokens
    rw [arguments_of_tokens htokens]
    simp [Function.comp_def]

/-! ## building plain words -/

/-- A character that may stand anywhere in a word. -/
def isFree (c : Char) : Bool :=
  isOrdinary c && !(c = '*' || c = '?' || c = '[' || c = '#' || c = '~')

theorem isPattern_append {pre w : List Char} (h : ∀ c ∈ pre, isFree c) :
    isPattern (marks (pre ++ w)) = isPattern (marks w) := by
  induction pre with
  | nil => rfl
  | cons c pre ih =>
      rw [List.forall_mem_cons] at h
      have hc := h.1
      simp only [isFree, Bool.and_eq_true, Bool.not_eq_true', Bool.or_eq_false_iff,
        decide_eq_false_iff_not] at hc
      obtain ⟨-, ⟨⟨⟨h1, h2⟩, h3⟩, -⟩, -⟩ := hc
      have ih := ih h.2
      rw [marks_append] at ih
      simp [isPattern, h1, h2, h3, ih]

/-- Free characters in front of a plain word. -/
theorem PlainWord.prepend {pre w : List Char} (hpre : ∀ c ∈ pre, isFree c) (h : PlainWord w) :
    PlainWord (pre ++ w) := by
  have hord : ∀ c ∈ pre, isOrdinary c := fun c hc => by
    have := hpre c hc
    rw [isFree, Bool.and_eq_true] at this
    exact this.1
  have hexp := h.unexpanded
  simp only [expands, Bool.or_eq_false_iff] at hexp
  cases pre with
  | nil => exact h
  | cons c pre =>
      have hc := hpre c List.mem_cons_self
      simp only [isFree, Bool.and_eq_true, Bool.not_eq_true', Bool.or_eq_false_iff,
        decide_eq_false_iff_not] at hc
      refine ⟨by simp, List.forall_mem_append.mpr ⟨hord, h.ordinary⟩, by simp [hc], ?_⟩
      rw [expands, isPattern_append hpre, hexp.2]
      simp [hc]

theorem closes_append_slash (w : List Char) :
    closes (marks w ++ [('/', false)]) = closes (marks w) := by
  induction w with
  | nil => rfl
  | cons c w ih => simp [closes, ih]

theorem isBracket_append_slash (w : List Char) :
    isBracket (marks w ++ [('/', false)]) = isBracket (marks w) := by
  match w with
  | [] => rfl
  | [c] => by_cases hc : c = '!' <;> simp [isBracket, closes, hc]
  | c :: d :: w =>
      have hclose := closes_append_slash w
      have hclose' := closes_append_slash (d :: w)
      rw [marks_cons, List.cons_append] at hclose'
      by_cases hc : c = '!'
      · simp [isBracket, hc, hclose]
      · simp [isBracket, hc, hclose']

/-- A slash behind a word does not complete a pattern. -/
theorem isPattern_append_slash (w : List Char) :
    isPattern (marks w ++ [('/', false)]) = isPattern (marks w) := by
  induction w with
  | nil => rfl
  | cons c w ih => simp [isPattern, ih, isBracket_append_slash]

theorem PlainWord.append_slash {w : List Char} (h : PlainWord w) : PlainWord (w ++ ['/']) := by
  have hexp := h.unexpanded
  simp only [expands, Bool.or_eq_false_iff] at hexp
  have hhead : ∀ a : Char, (w ++ ['/']).head? = some a ↔ w.head? = some a := fun a => by
    rw [List.head?_append_of_ne_nil _ h.nonempty]
  have hslash : ∀ c ∈ ['/'], isOrdinary c := fun c hc => by
    rw [List.mem_singleton.mp hc]
    rfl
  refine ⟨by simp, List.forall_mem_append.mpr ⟨h.ordinary, hslash⟩,
    by rw [Ne, hhead]; exact h.comment, ?_⟩
  rw [marks_append, expands, show marks ['/'] = [('/', false)] from rfl, isPattern_append_slash,
    hexp.2]
  cases w with
  | nil => exact absurd rfl h.nonempty
  | cons c w => simpa using hexp.1

end Shell
