import Mathlib

/-!
# CumulativeDigest

A digest object that is never reset: after each of several strings has been
fed to it, its digest of everything fed so far is written out, and the
digests are concatenated without separators.

`fed` lists what the object had been fed each time a digest was written.
If all digests have one length and the digest function separates the
strings it was applied to, the concatenation determines the sequence of
strings (`eq_of_flatMap_fed`) — the sequence, and nothing else about where
the strings came from.

`readBlocks` is how a stream is fed: in blocks of bounded size, up to the
first empty read.
-/

namespace CumulativeDigest

variable {α β : Type*}

/-! ## reading in blocks -/

/-- At most `fuel` reads of at most `k` items each, up to the first empty
one. -/
def readBlocks (k : Nat) : Nat → List α → List (List α)
  | 0, _ => []
  | fuel + 1, xs =>
      match xs.take k with
      | [] => []
      | b :: bs => (b :: bs) :: readBlocks k fuel (xs.drop k)

theorem ne_nil_of_mem_readBlocks {k fuel : Nat} {xs b : List α} (h : b ∈ readBlocks k fuel xs) :
    b ≠ [] := by
  induction fuel generalizing xs with
  | zero => simp [readBlocks] at h
  | succ fuel ih =>
      rw [readBlocks] at h
      split at h
      · simp at h
      · rcases List.mem_cons.mp h with rfl | h
        · simp
        · exact ih h

/-- The blocks make up what was read. -/
theorem flatten_readBlocks {k fuel : Nat} (hk : 0 < k) {xs : List α} (h : xs.length ≤ fuel) :
    (readBlocks k fuel xs).flatten = xs := by
  induction fuel generalizing xs with
  | zero => simp_all [readBlocks]
  | succ fuel ih =>
      rw [readBlocks]
      split
      · next he =>
        rcases List.take_eq_nil_iff.mp he with hz | rfl
        · omega
        · rfl
      · next b bs he =>
        rw [List.flatten_cons, ih (by rw [List.length_drop]; omega), ← he, List.take_append_drop]

/-! ## the digests of the prefixes -/

/-- What the digest object has been fed after each string. -/
def fed (seen : List α) : List (List α) → List (List α)
  | [] => []
  | c :: cs => (seen ++ c) :: fed (seen ++ c) cs

/-- The growing prefixes determine the strings. -/
theorem fed_injective (seen : List α) : Function.Injective (fed seen) := by
  intro cs ds h
  induction cs generalizing seen ds with
  | nil => cases ds <;> simp_all [fed]
  | cons c cs ih =>
      cases ds with
      | nil => simp [fed] at h
      | cons d ds =>
          simp only [fed, List.cons.injEq, List.append_cancel_left_eq] at h
          obtain ⟨rfl, h⟩ := h
          rw [ih _ h]

/-- Digests of one length can be told apart in their concatenation. -/
theorem eq_of_flatMap {f : List α → List β} {k : Nat} (hk : 0 < k) (hlen : ∀ x, (f x).length = k)
    {xs ys : List (List α)} (hinj : Set.InjOn f {x | x ∈ xs ∨ x ∈ ys})
    (h : xs.flatMap f = ys.flatMap f) : xs = ys := by
  have hne : ∀ x (r : List β), f x ++ r ≠ [] := by
    intro x r he
    have := congrArg List.length he
    rw [List.length_append, hlen] at this
    simp at this
    omega
  induction xs generalizing ys with
  | nil =>
      cases ys with
      | nil => rfl
      | cons y ys => exact absurd h.symm (hne y _)
  | cons x xs ih =>
      cases ys with
      | nil => exact absurd h (hne x _)
      | cons y ys =>
          rw [List.flatMap_cons, List.flatMap_cons] at h
          obtain ⟨hxy, h⟩ := List.append_inj h (by rw [hlen, hlen])
          rw [hinj (.inl List.mem_cons_self) (.inr List.mem_cons_self) hxy,
            ih (hinj.mono fun z hz => hz.imp (List.mem_cons_of_mem x) (List.mem_cons_of_mem y)) h]

/-- **The concatenated digests determine the sequence of strings.** -/
theorem eq_of_flatMap_fed {f : List α → List β} {k : Nat} (hk : 0 < k)
    (hlen : ∀ x, (f x).length = k) {cs ds : List (List α)}
    (hinj : Set.InjOn f {x | x ∈ fed [] cs ∨ x ∈ fed [] ds})
    (h : (fed [] cs).flatMap f = (fed [] ds).flatMap f) : cs = ds :=
  fed_injective [] (eq_of_flatMap hk hlen hinj h)

end CumulativeDigest
