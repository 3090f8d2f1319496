import Mathlib

/-!
# Transition

Labelled transition systems with an executable step function.  A label
names who moves and how; `step a s = none` says that the move is blocked
in `s`.  Interleavings are sequences of labels, so a statement about every
interleaving is a statement about every reachable state.

Three principles carry the developments built on top:

* `Reachable.invariant` — what holds initially and survives every step
  holds in every reachable state;
* `Simulation.reachable` — what a coarser system never reaches, the finer
  one never reaches either;
* `exists_halted` — a measure that every step decreases drives every run
  to a state in which nobody can move; `exists_exhausted` says it of some of
  the moves.
-/

namespace Transition

/-- A transition system: the initial states and what each label does. -/
structure System (σ : Type*) (α : Type*) where
  init : σ → Prop
  step : α → σ → Option σ

variable {σ τ α β : Type*} {S : System σ α}

/-- The states some run of the system passes through. -/
inductive Reachable (S : System σ α) : σ → Prop
  | init {s : σ} : S.init s → Reachable S s
  | step {s s' : σ} (a : α) : Reachable S s → S.step a s = some s' → Reachable S s'

/-- One step, whoever makes it. -/
def Step (S : System σ α) (s s' : σ) : Prop := ∃ a, S.step a s = some s'

/-- Zero or more steps. -/
def Steps (S : System σ α) : σ → σ → Prop := Relation.ReflTransGen (Step S)

/-- Nobody can move. -/
def Halted (S : System σ α) (s : σ) : Prop := ∀ a, S.step a s = none

/-! ## invariants -/

/-- **Invariant rule**: an initially true, step-stable property holds in
every reachable state.  The step case may use that its source state is
itself reachable, so invariants can be proved one on top of another. -/
theorem Reachable.invariant {I : σ → Prop} (h0 : ∀ s, S.init s → I s)
    (hstep : ∀ s a s', Reachable S s → I s → S.step a s = some s' → I s') {s : σ}
    (h : Reachable S s) : I s := by
  induction h with
  | init hi => exact h0 _ hi
  | step a hr hs ih => exact hstep _ a _ hr ih hs

theorem Reachable.steps {s s' : σ} (h : Reachable S s) (hs : Steps S s s') : Reachable S s' := by
  induction hs with
  | refl => exact h
  | tail _ hst ih =>
      obtain ⟨a, ha⟩ := hst
      exact .step a ih ha

/-! ## schedules -/

/-- Run a schedule, failing at the first blocked move. -/
def run (S : System σ α) : List α → σ → Option σ
  | [], s => some s
  | a :: as, s => (S.step a s).bind (run S as)

theorem steps_of_run {as : List α} {s s' : σ} (h : run S as s = some s') : Steps S s s' := by
  induction as generalizing s with
  | nil =>
      obtain rfl : s = s' := by simpa [run] using h
      exact .refl
  | cons a as ih =>
      obtain ⟨t, ht, hrun⟩ := Option.bind_eq_some_iff.mp h
      exact .head ⟨a, ht⟩ (ih hrun)

/-- A schedule that runs through from an initial state witnesses
reachability of its last state. -/
theorem reachable_of_run (as : List α) {s s' : σ} (hi : S.init s) (h : run S as s = some s') :
    Reachable S s' :=
  (Reachable.init hi).steps (steps_of_run h)

/-- The last state of a schedule that runs through. -/
theorem reachable_getD {as : List α} {s : σ} (d : σ) (hi : S.init s) (h : (run S as s).isSome) :
    Reachable S ((run S as s).getD d) := by
  obtain ⟨s', hrun⟩ := Option.isSome_iff_exists.mp h
  rw [hrun]
  exact reachable_of_run as hi hrun

/-! ## termination -/

/-- **Progress to a halt**: when every step out of a reachable state
decreases a natural number, every reachable state can be continued to one
in which nobody can move. -/
theorem exists_halted {μ : σ → Nat}
    (hμ : ∀ s a s', Reachable S s → S.step a s = some s' → μ s' < μ s) {s : σ}
    (h : Reachable S s) : ∃ t, Steps S s t ∧ Halted S t := by
  induction hn : μ s using Nat.strong_induction_on generalizing s with
  | _ n ih =>
      by_cases hh : Halted S s
      · exact ⟨s, .refl, hh⟩
      · obtain ⟨a, ha⟩ : ∃ a, S.step a s ≠ none := by
          simpa [Halted] using hh
        obtain ⟨s', hs'⟩ := Option.ne_none_iff_exists'.mp ha
        have hlt := hμ s a s' h hs'
        obtain ⟨t, ht, hhalt⟩ := ih (μ s') (hn ▸ hlt) (.step a h hs') rfl
        exact ⟨t, .head ⟨a, hs'⟩ ht, hhalt⟩

theorem run_append (as bs : List α) (s : σ) : run S (as ++ bs) s = (run S as s).bind (run S bs) := by
  induction as generalizing s with
  | nil => rfl
  | cons a as ih =>
      rw [List.cons_append, run, run, Option.bind_assoc]
      exact congrArg _ (funext ih)

/-- **Some moves run out**: when every move of a kind keeps `I` and decreases
a natural number, such moves lead to a state in which none of them is
possible. -/
theorem exists_exhausted {I : σ → Prop} {μ : σ → Nat} (p : α → Prop)
    (hμ : ∀ s a s', I s → p a → S.step a s = some s' → I s' ∧ μ s' < μ s) {s : σ} (h : I s) :
    ∃ as t, run S as s = some t ∧ (∀ a ∈ as, p a) ∧ I t ∧ ∀ a, p a → S.step a t = none := by
  induction hn : μ s using Nat.strong_induction_on generalizing s with
  | _ n ih =>
      by_cases hstuck : ∀ a, p a → S.step a s = none
      · exact ⟨[], s, rfl, fun _ ha => absurd ha List.not_mem_nil, h, hstuck⟩
      · obtain ⟨a, ha, hmove⟩ : ∃ a, p a ∧ S.step a s ≠ none := by
          simpa using hstuck
        obtain ⟨s', hs'⟩ := Option.ne_none_iff_exists'.mp hmove
        obtain ⟨h', hlt⟩ := hμ s a s' h ha hs'
        obtain ⟨as, t, hrun, has, ht, hend⟩ := ih (μ s') (hn ▸ hlt) h' rfl
        refine ⟨a :: as, t, ?_, List.forall_mem_cons.mpr ⟨ha, has⟩, ht, hend⟩
        rw [run, hs']
        exact hrun

/-! ## simulation -/

/-- `abs` maps every step of `S`, taken from a reachable state, to a step
of `T` or to no step at all. -/
structure Simulation (S : System σ α) (T : System τ β) (abs : σ → τ) : Prop where
  init : ∀ s, S.init s → T.init (abs s)
  step : ∀ s a s', Reachable S s → S.step a s = some s' →
    abs s' = abs s ∨ ∃ b, T.step b (abs s) = some (abs s')

theorem Simulation.reachable {T : System τ β} {abs : σ → τ} (sim : Simulation S T abs) {s : σ}
    (h : Reachable S s) : Reachable T (abs s) := by
  induction h with
  | init hi => exact .init (sim.init _ hi)
  | step a hr hs ih =>
      rcases sim.step _ a _ hr hs with heq | ⟨b, hb⟩
      · rw [heq]; exact ih
      · exact .step b ih hb

end Transition
