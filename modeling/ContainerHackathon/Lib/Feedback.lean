import Mathlib

/-!
# Feedback

Predictors that run over a sequence of inputs: every step turns the state
and the next input into an output, a prediction of the kind the inputs are
of, and the next state.  A step may fail.

An extrapolating predictor takes its own last prediction for the input from
some time on.  It does what the plain predictor does on the sequence that
the predictions complete (`extrapolate_iff`); so if a prediction does not
look at the input of its own step, predictions only depend on the inputs
that were really taken (`predictions_eq`).
-/

namespace Feedback

variable {σ ι ω ε : Type*}

/-- A step: output, prediction, next state. -/
abbrev Core (σ ι ω ε : Type*) := σ → ι → Except ε (ω × ι × σ)

/-- A run over a sequence: the outputs with the predictions, and the last
state. -/
def run (core : Core σ ι ω ε) : σ → List ι → Except ε (List (ω × ι) × σ)
  | s, [] => .ok ([], s)
  | s, x :: xs => do
      let (o, p, s') ← core s x
      let (os, s'') ← run core s' xs
      return ((o, p) :: os, s'')

/-- The state of an extrapolating predictor: the state, the last prediction
and the time. -/
structure Loop (σ ι : Type*) where
  state : σ
  prediction : ι
  time : Nat

/-- The step with the last prediction in place of the input, once it is
`late`. -/
def extrapolate (core : Core σ ι ω ε) (late : Nat → Bool) : Core (Loop σ ι) ι ω ε := fun s x => do
  let (o, p, s') ← core s.state (if late s.time then s.prediction else x)
  return (o, p, ⟨s', p, s.time + 1⟩)

variable {core : Core σ ι ω ε} {late : Nat → Bool} {s s' : σ} {x : ι} {xs ys : List ι}
  {os : List (ω × ι)}

theorem run_cons_eq_ok {t : σ} : run core s (x :: xs) = .ok (os, t) ↔
    ∃ o p s' os', core s x = .ok (o, p, s') ∧ run core s' xs = .ok (os', t) ∧
      os = (o, p) :: os' := by
  rw [run]
  cases hcore : core s x with
  | error e => simp [Bind.bind, Except.bind]
  | ok r =>
      obtain ⟨o, p, s₁⟩ := r
      cases hrun : run core s₁ xs with
      | error e => simp [Bind.bind, Except.bind, hrun]
      | ok q =>
          obtain ⟨os₁, s₂⟩ := q
          simp only [Bind.bind, Except.bind, hrun, Pure.pure, Except.pure, Except.ok.injEq,
            Prod.mk.injEq]
          constructor
          · rintro ⟨rfl, rfl⟩
            exact ⟨o, p, s₁, os₁, ⟨rfl, rfl, rfl⟩, hrun, rfl⟩
          · rintro ⟨o', p', s', os', ⟨rfl, rfl, rfl⟩, hq, rfl⟩
            rw [hrun] at hq
            simpa [Prod.ext_iff] using hq

theorem length_of_run {t : σ} (h : run core s xs = .ok (os, t)) : os.length = xs.length := by
  induction xs generalizing s os with
  | nil =>
      obtain ⟨rfl, -⟩ := Prod.mk.inj (Except.ok.inj h)
      rfl
  | cons x xs ih =>
      obtain ⟨o, p, s', os', -, hrun, rfl⟩ := run_cons_eq_ok.mp h
      rw [List.length_cons, List.length_cons, ih hrun]

/-- A predictor whose states are images of another's runs as that one does. -/
theorem run_map {τ : Type*} {core' : Core τ ι ω ε} (f : σ → τ)
    (hstep : ∀ s x, core' (f s) x = (core s x).map fun r => (r.1, r.2.1, f r.2.2)) (s : σ) :
    run core' (f s) xs = (run core s xs).map fun r => (r.1, f r.2) := by
  induction xs generalizing s with
  | nil => rfl
  | cons x xs ih =>
      rw [run, run, hstep]
      cases core s x with
      | error e => rfl
      | ok r =>
          obtain ⟨o, p, s'⟩ := r
          simp only [Except.map, Bind.bind, Except.bind, ih]
          cases run core s' xs <;> rfl

theorem extrapolate_eq_ok {l l' : Loop σ ι} {o : ω} {p : ι} :
    extrapolate core late l x = .ok (o, p, l') ↔
      ∃ s', core l.state (if late l.time then l.prediction else x) = .ok (o, p, s') ∧
        l' = ⟨s', p, l.time + 1⟩ := by
  rw [extrapolate]
  cases hcore : core l.state (if late l.time then l.prediction else x) with
  | error e => simp [Bind.bind, Except.bind]
  | ok r =>
      obtain ⟨o₁, p₁, s₁⟩ := r
      simp only [Bind.bind, Except.bind, Pure.pure, Except.pure, Except.ok.injEq, Prod.mk.injEq]
      constructor
      · rintro ⟨rfl, rfl, rfl⟩
        exact ⟨s₁, ⟨rfl, rfl, rfl⟩, rfl⟩
      · rintro ⟨s', ⟨rfl, rfl, rfl⟩, rfl⟩
        exact ⟨rfl, rfl, rfl⟩

/-- The inputs taken when the predictions `ps` are made, from a loop that
holds the prediction `p` at time `t`. -/
def taken (late : Nat → Bool) : ι → Nat → List ι → List ι → List ι
  | _, _, [], _ => []
  | p, t, x :: xs, ps => (if late t then p else x) :: taken late (ps.headD p) (t + 1) xs ps.tail

theorem getElem?_taken {p : ι} {t i : Nat} {ps : List ι} (hi : i < xs.length)
    (hps : ps.length = xs.length) : (taken late p t xs ps)[i]? =
      if late (t + i) then (p :: ps)[i]? else xs[i]? := by
  induction xs generalizing p t i ps with
  | nil => cases hi
  | cons x xs ih =>
      cases ps with
      | nil => cases hps
      | cons q ps =>
          cases i with
          | zero => cases hlate : late t <;> simp [taken, hlate]
          | succ i =>
              have h := ih (p := q) (t := t + 1) (Nat.lt_of_succ_lt_succ hi) (Nat.succ.inj hps)
              rw [Nat.add_right_comm, Nat.add_assoc] at h
              simpa only [taken, List.headD_cons, List.tail_cons, List.getElem?_cons_succ] using h

theorem length_taken {p : ι} {t : Nat} {ps : List ι} : (taken late p t xs ps).length = xs.length := by
  induction xs generalizing p t ps with
  | nil => rfl
  | cons x xs ih => rw [taken, List.length_cons, List.length_cons, ih]

/-- **Closing the loop**: an extrapolating run is a plain run over the
inputs that were taken. -/
theorem extrapolate_iff {l l' : Loop σ ι} :
    run (extrapolate core late) l xs = .ok (os, l') ↔
      run core l.state (taken late l.prediction l.time xs (os.map Prod.snd)) =
          .ok (os, l'.state) ∧
        l' = ⟨l'.state, (os.map Prod.snd).getLastD l.prediction, l.time + xs.length⟩ := by
  induction xs generalizing l os with
  | nil =>
      simp only [run, taken, Except.ok.injEq, Prod.mk.injEq, List.length_nil, Nat.add_zero]
      constructor
      · rintro ⟨rfl, rfl⟩
        exact ⟨⟨rfl, rfl⟩, rfl⟩
      · rintro ⟨⟨rfl, hs⟩, hl⟩
        refine ⟨rfl, ?_⟩
        rw [hl, ← hs]
        rfl
  | cons x xs ih =>
      constructor
      · intro h
        obtain ⟨o, p, l₁, os', hstep, hrun, rfl⟩ := run_cons_eq_ok.mp h
        obtain ⟨s₁, hcore, rfl⟩ := extrapolate_eq_ok.mp hstep
        obtain ⟨hplain, hl⟩ := ih.mp hrun
        refine ⟨run_cons_eq_ok.mpr ⟨o, p, s₁, os', hcore, hplain, rfl⟩, hl.trans ?_⟩
        simp only [List.map_cons, List.getLastD_cons, List.length_cons, Loop.mk.injEq, true_and]
        omega
      · rintro ⟨hplain, hl⟩
        obtain ⟨o, p, s₁, os', hcore, hrun, rfl⟩ := run_cons_eq_ok.mp hplain
        refine run_cons_eq_ok.mpr ⟨o, p, ⟨s₁, p, l.time + 1⟩, os',
          extrapolate_eq_ok.mpr ⟨s₁, hcore, rfl⟩, ih.mpr ⟨hrun, hl.trans ?_⟩, rfl⟩
        simp only [List.map_cons, List.getLastD_cons, List.length_cons, Loop.mk.injEq, true_and]
        omega

/-- No prediction looks at the input of its own step. -/
def Ahead (core : Core σ ι ω ε) : Prop :=
  ∀ s x y o p s' o' q t', core s x = .ok (o, p, s') → core s y = .ok (o', q, t') → p = q

/-- **Predictions only depend on the inputs taken before them.** -/
theorem predictions_eq (hahead : Ahead core) {t : Nat} {l l' m m' : Loop σ ι}
    {os os' : List (ω × ι)} (hstart : l.state = m.state ∧ l.prediction = m.prediction ∧ l.time = m.time)
    (hx : run (extrapolate core late) l xs = .ok (os, l'))
    (hy : run (extrapolate core late) m ys = .ok (os', m')) (hlen : xs.length = ys.length)
    (hagree : ∀ i < t, late (l.time + i) = false → xs[i]? = ys[i]?) :
    (os.map Prod.snd)[t]? = (os'.map Prod.snd)[t]? := by
  induction t generalizing l m xs ys os os' with
  | zero =>
      cases xs with
      | nil =>
          obtain rfl : ys = [] := List.eq_nil_of_length_eq_zero hlen.symm
          rw [List.eq_nil_of_length_eq_zero (length_of_run hx),
            List.eq_nil_of_length_eq_zero (length_of_run hy)]
      | cons x xs =>
          cases ys with
          | nil => cases hlen
          | cons y ys =>
              obtain ⟨o, p, l₁, os₁, hstep, -, rfl⟩ := run_cons_eq_ok.mp hx
              obtain ⟨o', q, m₁, os₁', hstep', -, rfl⟩ := run_cons_eq_ok.mp hy
              obtain ⟨s₁, hcore, -⟩ := extrapolate_eq_ok.mp hstep
              obtain ⟨t₁, hcore', -⟩ := extrapolate_eq_ok.mp hstep'
              rw [← hstart.1] at hcore'
              simpa using hahead _ _ _ _ _ _ _ _ _ hcore hcore'
  | succ t ih =>
      cases xs with
      | nil =>
          obtain rfl : ys = [] := List.eq_nil_of_length_eq_zero hlen.symm
          rw [List.eq_nil_of_length_eq_zero (length_of_run hx),
            List.eq_nil_of_length_eq_zero (length_of_run hy)]
      | cons x xs =>
          cases ys with
          | nil => cases hlen
          | cons y ys =>
              obtain ⟨o, p, l₁, os₁, hstep, hrun, rfl⟩ := run_cons_eq_ok.mp hx
              obtain ⟨o', q, m₁, os₁', hstep', hrun', rfl⟩ := run_cons_eq_ok.mp hy
              obtain ⟨s₁, hcore, rfl⟩ := extrapolate_eq_ok.mp hstep
              obtain ⟨t₁, hcore', rfl⟩ := extrapolate_eq_ok.mp hstep'
              -- both loops take the same input
              have htaken : (if late l.time then l.prediction else x) =
                  if late m.time then m.prediction else y := by
                rw [← hstart.2.1, ← hstart.2.2]
                cases hlate : late l.time with
                | true => rfl
                | false => simpa using hagree 0 (Nat.succ_pos t) hlate
              rw [← htaken, ← hstart.1, hcore, Except.ok.injEq, Prod.mk.injEq, Prod.mk.injEq]
                at hcore'
              obtain ⟨-, hp, hs⟩ := hcore'
              refine ih ⟨hs, hp, congrArg (· + 1) hstart.2.2⟩ hrun hrun' (Nat.succ.inj hlen) ?_
              intro i hi hlate
              have h := hagree (i + 1) (Nat.succ_lt_succ hi)
              rw [← Nat.add_assoc, Nat.add_right_comm] at h
              exact h hlate

end Feedback
