import Mathlib

/-!
# Fallible

Computations that may fail, in `Except`: how one after another succeeds, all
of a list, and all of finitely many parties.
-/

namespace Fallible

variable {ε α β : Type}

theorem ok_bind (x : α) (f : α → Except ε β) : (Except.ok x >>= f) = f x := rfl

theorem bind_eq_ok {x : Except ε α} {f : α → Except ε β} {z : β} :
    (x >>= f) = .ok z ↔ ∃ y, x = .ok y ∧ f y = .ok z := by
  cases x with
  | error e => exact ⟨fun h => (nomatch h), fun ⟨_, h, _⟩ => (nomatch h)⟩
  | ok y => exact ⟨fun h => ⟨y, rfl, h⟩, fun ⟨_, h, hf⟩ => Except.ok.inj h ▸ hf⟩

/-! ## all of a list -/

theorem mapM_eq_ok_cons {f : α → Except ε β} {x : α} {xs : List α} {ys : List β} :
    (x :: xs).mapM f = .ok ys ↔
      ∃ y zs, f x = .ok y ∧ xs.mapM f = .ok zs ∧ ys = y :: zs := by
  rw [List.mapM_cons, bind_eq_ok]
  constructor
  · rintro ⟨y, hy, h⟩
    obtain ⟨zs, hzs, h⟩ := bind_eq_ok.mp h
    exact ⟨y, zs, hy, hzs, (Except.ok.inj h).symm⟩
  · rintro ⟨y, zs, hy, hzs, rfl⟩
    exact ⟨y, hy, bind_eq_ok.mpr ⟨zs, hzs, rfl⟩⟩

/-! ## all parties -/

/-- Every party's computation, the first failure if there is one. -/
def sequence : {n : Nat} → (Fin n → Except ε α) → Except ε (Fin n → α)
  | 0, _ => .ok fun i => i.elim0
  | _ + 1, f => do
      let x ← f ⟨0, Nat.succ_pos _⟩
      let xs ← sequence fun i => f i.succ
      return Fin.cons x xs

/-- **All parties succeed together** or not at all. -/
theorem sequence_eq_ok {n : Nat} {f : Fin n → Except ε α} {g : Fin n → α} :
    sequence f = .ok g ↔ ∀ i, f i = .ok (g i) := by
  induction n with
  | zero => exact iff_of_true (congrArg Except.ok (Subsingleton.elim _ _)) fun i => i.elim0
  | succ n ih =>
      rw [sequence, bind_eq_ok, Fin.forall_fin_succ]
      constructor
      · rintro ⟨x, hx, h⟩
        obtain ⟨xs, hxs, h⟩ := bind_eq_ok.mp h
        obtain rfl := Except.ok.inj h
        exact ⟨hx, ih.mp hxs⟩
      · rintro ⟨hx, hxs⟩
        refine ⟨g 0, hx, bind_eq_ok.mpr ⟨fun i => g i.succ, ih.mpr hxs, ?_⟩⟩
        exact congrArg Except.ok (Fin.cons_self_tail g)

end Fallible
