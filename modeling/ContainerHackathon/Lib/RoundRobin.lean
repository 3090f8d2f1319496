import Mathlib

/-!
# RoundRobin

Dealing a list to `k` seats in turn: seat `r` receives the elements at the
positions `r`, `r + k`, `r + 2k`, ….  Everything is derived from the law of
one more card, `deal_concat`: the next element goes to the seat whose
number is the length of the list so far modulo `k`.
-/

namespace RoundRobin

variable {α β : Type*} {k r : Nat}

/-- The hand of seat `r` when `xs` is dealt to `k` seats. -/
def deal (k : Nat) (xs : List α) (r : Nat) : List α :=
  (xs.zipIdx.filter (fun x => x.2 % k = r)).map Prod.fst

@[simp] theorem deal_nil (k r : Nat) : deal k ([] : List α) r = [] := rfl

/-- **One more card.** -/
theorem deal_concat (k : Nat) (xs : List α) (x : α) (r : Nat) :
    deal k (xs ++ [x]) r = deal k xs r ++ if xs.length % k = r then [x] else [] := by
  by_cases h : xs.length % k = r <;>
    simp [deal, List.zipIdx_append, List.filter_append, h]

theorem mem_of_mem_deal {xs : List α} {x : α} (h : x ∈ deal k xs r) : x ∈ xs := by
  simp only [deal, List.mem_map, List.mem_filter] at h
  obtain ⟨⟨y, i⟩, ⟨hy, -⟩, rfl⟩ := h
  exact List.fst_mem_of_mem_zipIdx hy

/-- A seat's hand is the `n`-th share rounded up or down. -/
theorem length_deal (xs : List α) (hr : r < k) :
    (deal k xs r).length = (xs.length + (k - 1 - r)) / k := by
  induction xs using List.reverseRecOn with
  | nil =>
      simp only [deal_nil, List.length_nil, Nat.zero_add]
      rw [Nat.div_eq_of_lt (by omega)]
  | append_singleton xs x ih =>
      have hk : 0 < k := by omega
      have hmod := Nat.div_add_mod xs.length k
      have hlt := Nat.mod_lt xs.length hk
      rw [deal_concat, List.length_append, ih, List.length_append, List.length_singleton,
        show xs.length + 1 + (k - 1 - r) = (xs.length + (k - 1 - r)) + 1 by omega, Nat.succ_div]
      have hdvd : k ∣ xs.length + (k - 1 - r) + 1 ↔ xs.length % k = r := by
        rw [Nat.dvd_iff_mod_eq_zero]
        constructor
        · intro h
          have hadd : (xs.length % k + (k - r)) % k = 0 := by
            rw [Nat.mod_add_mod, show xs.length + (k - r) = xs.length + (k - 1 - r) + 1 by omega]
            exact h
          by_contra hne
          rcases Nat.lt_or_gt_of_ne hne with hlt' | hgt
          · rw [Nat.mod_eq_of_lt (by omega)] at hadd; omega
          · rw [show xs.length % k + (k - r) = (xs.length % k - r) + k by omega,
              Nat.add_mod_right, Nat.mod_eq_of_lt (by omega)] at hadd
            omega
        · intro h
          rw [show xs.length + (k - 1 - r) + 1 = xs.length + (k - r) by omega,
            ← Nat.mod_add_mod, h, show r + (k - r) = k by omega, Nat.mod_self]
      simp only [hdvd]
      split <;> simp

/-- **Strides**: the `j`-th element of seat `r`'s hand stands at position
`r + j * k`. -/
theorem getElem?_deal (xs : List α) (hr : r < k) (j : Nat) :
    (deal k xs r)[j]? = xs[r + j * k]? := by
  have hk : 0 < k := by omega
  induction xs using List.reverseRecOn generalizing j with
  | nil => simp
  | append_singleton xs x ih =>
      have hlen := length_deal xs hr
      have hdm := Nat.div_add_mod xs.length k
      rw [deal_concat]
      split
      · next hmod =>
        -- the hand so far holds exactly the strides below `xs.length`
        have hq : (deal k xs r).length = xs.length / k := by
          rw [hlen]
          have hsum : xs.length + (k - 1 - r) = (k - 1) + k * (xs.length / k) := by omega
          rw [hsum, Nat.add_mul_div_left _ _ hk, Nat.div_eq_of_lt (by omega), Nat.zero_add]
        rcases Nat.lt_trichotomy j (xs.length / k) with hj | hj | hj
        · have hpos : r + j * k < xs.length := by
            have hmul : (j + 1) * k ≤ (xs.length / k) * k := Nat.mul_le_mul_right k hj
            rw [Nat.mul_comm (xs.length / k)] at hmul
            rw [Nat.add_mul, Nat.one_mul] at hmul
            omega
          rw [List.getElem?_append_left (by omega), ih, List.getElem?_append_left hpos]
        · have hpos : r + j * k = xs.length := by
            rw [hj, Nat.mul_comm]; omega
          rw [List.getElem?_append_right (by omega), hq, hj, Nat.sub_self,
            ← hj, hpos, List.getElem?_append_right (Nat.le_refl _), Nat.sub_self]
        · have hmul : (xs.length / k + 1) * k ≤ j * k := Nat.mul_le_mul_right k hj
          rw [Nat.add_mul, Nat.one_mul, Nat.mul_comm (xs.length / k)] at hmul
          rw [List.getElem?_eq_none (by simp; omega), List.getElem?_eq_none (by simp; omega)]
      · next hmod =>
        rw [List.append_nil, ih]
        rcases Nat.lt_trichotomy (r + j * k) xs.length with hp | hp | hp
        · rw [List.getElem?_append_left hp]
        · exfalso
          apply hmod
          rw [← hp, Nat.add_mul_mod_self_right, Nat.mod_eq_of_lt hr]
        · rw [List.getElem?_eq_none (by omega), List.getElem?_eq_none (by simp; omega)]

/-- A seat goes empty-handed exactly when the deal stops before it. -/
theorem deal_eq_nil_iff (xs : List α) (hr : r < k) : deal k xs r = [] ↔ xs.length ≤ r := by
  have h0 := getElem?_deal xs hr 0
  rw [Nat.zero_mul, Nat.add_zero] at h0
  constructor
  · intro h
    rw [h, List.getElem?_nil] at h0
    exact List.getElem?_eq_none_iff.mp h0.symm
  · intro h
    rw [List.getElem?_eq_none h] at h0
    exact List.eq_nil_of_length_eq_zero (Nat.le_zero.mp (List.getElem?_eq_none_iff.mp h0))

/-- Handing `x` to every seat numbered `m` hands it out once for each
occurrence of `m`. -/
theorem flatMap_ite_eq_replicate (x : β) (m : Nat) (rs : List Nat) :
    rs.flatMap (fun r => if m = r then [x] else []) = List.replicate (rs.count m) x := by
  induction rs with
  | nil => simp
  | cons r rs ih =>
      by_cases hm : m = r
      · subst hm
        rw [List.flatMap_cons, if_pos rfl, ih, List.count_cons_self, List.replicate_succ]
        rfl
      · rw [List.flatMap_cons, if_neg hm, ih, List.count_cons_of_ne (Ne.symm hm)]
        rfl

/-- **Nothing is lost or doubled**: the hands together are the list. -/
theorem flatMap_deal_perm (xs : List α) (hk : 0 < k) :
    ((List.range k).flatMap (deal k xs)).Perm xs := by
  induction xs using List.reverseRecOn with
  | nil => simp
  | append_singleton xs x ih =>
      have hone : (List.range k).flatMap (fun r => if xs.length % k = r then [x] else []) = [x] := by
        have hmem : xs.length % k ∈ List.range k := List.mem_range.mpr (Nat.mod_lt _ hk)
        rw [flatMap_ite_eq_replicate, List.count_eq_one_of_mem List.nodup_range hmem]
        rfl
      have hsplit : (List.range k).flatMap (deal k (xs ++ [x])) =
          (List.range k).flatMap
            (fun r => deal k xs r ++ if xs.length % k = r then [x] else []) :=
        List.flatMap_congr fun r _ => deal_concat k xs x r
      rw [hsplit]
      refine (List.flatMap_append_perm _ _ _).symm.trans ?_
      rw [hone]
      exact ih.append_right [x]

end RoundRobin
