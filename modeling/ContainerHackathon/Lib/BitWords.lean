import Mathlib

/-!
# BitWords

Sets of small numbers packed into 64-bit words: bit `i` is bit `i % 64` of
word `i / 64`.  Writing a bit outside the words, and a scan that does not come
to an end, are `none`.
-/

namespace BitWords

abbrev Words := List (BitVec 64)

def get (ws : Words) (i : Nat) : Bool := (ws.getD (i / 64) 0).getLsbD (i % 64)

def set (ws : Words) (i : Nat) : Option Words :=
  if i / 64 < ws.length then
    some (ws.set (i / 64) (ws.getD (i / 64) 0 ||| 1#64 <<< (i % 64)))
  else none

def setAll (ws : Words) (is : List Nat) : Option Words := is.foldlM set ws

/-- The words of all parties, combined word by word. -/
def reduce {n : Nat} (op : BitVec 64 → BitVec 64 → BitVec 64) (count : Nat)
    (buffers : Fin (n + 1) → Words) : Words :=
  (List.range count).map fun i =>
    (List.finRange n).foldl (fun w r => op w ((buffers r.succ).getD i 0))
      ((buffers ⟨0, n.succ_pos⟩).getD i 0)

/-- One more than the position of the lowest bit, `0` if there is none. -/
def ffs (w : BitVec 64) : Nat := ((List.range 64).find? w.getLsbD).elim 0 (· + 1)

/-- Take the lowest bit out until none is left. -/
def scanWord : Nat → BitVec 64 → Option (List Nat)
  | fuel, w =>
    if w = 0 then some []
    else match fuel with
      | 0 => none
      | fuel + 1 => (scanWord fuel (w &&& ~~~(1#64 <<< (ffs w - 1)))).map fun is => (ffs w - 1) :: is

def scanFrom (shift : Nat) : Words → Option (List Nat)
  | [] => some []
  | w :: ws => do
      let is ← scanWord 64 w
      let js ← scanFrom (shift + 64) ws
      return is.map (shift + ·) ++ js

/-- The positions of all bits. -/
def scan (ws : Words) : Option (List Nat) := scanFrom 0 ws

variable {ws ws' : Words} {i j : Nat} {w : BitVec 64}

/-! ## bits of words -/

theorem getLsbD_bit (hj : j < 64) : (1#64 <<< i).getLsbD j = decide (i = j) := by
  rw [BitVec.getLsbD_shiftLeft, BitVec.getLsbD_one]
  by_cases hij : i = j
  · simp [hij, hj]
  · simp only [hj, decide_true, Bool.true_and, hij, decide_false]
    rw [Bool.and_eq_false_iff]
    by_cases hlt : j < i
    · exact .inl (by simp [hlt])
    · exact .inr (by simp; omega)

theorem get_zero (count : Nat) (i : Nat) : get (List.replicate count 0) i = false := by
  rw [get, List.getD_eq_getElem?_getD, List.getElem?_replicate]
  split <;> simp

theorem get_of_set (h : set ws i = some ws') :
    ws'.length = ws.length ∧ ∀ j, get ws' j = (get ws j || decide (i = j)) := by
  rw [set] at h
  split at h
  · next hlt =>
    obtain rfl := Option.some.inj h
    refine ⟨List.length_set, fun j => ?_⟩
    by_cases hword : i / 64 = j / 64
    · have hget : (ws.set (i / 64) (ws.getD (i / 64) 0 ||| 1#64 <<< (i % 64))).getD (j / 64) 0 =
          ws.getD (j / 64) 0 ||| 1#64 <<< (i % 64) := by
        rw [← hword, List.getD_eq_getElem?_getD, List.getElem?_set_self hlt, Option.getD_some]
      rw [get, hget, BitVec.getLsbD_or, getLsbD_bit (Nat.mod_lt _ (by omega)), get]
      congr 1
      rw [decide_eq_decide]
      omega
    · have hne : i ≠ j := fun h => hword (h ▸ rfl)
      rw [get, List.getD_eq_getElem?_getD, List.getElem?_set_ne hword, ← List.getD_eq_getElem?_getD,
        decide_eq_false hne, Bool.or_false, get]
  · cases h

theorem exists_set (h : i < 64 * ws.length) : ∃ ws', set ws i = some ws' := by
  rw [set, if_pos (by omega)]
  exact ⟨_, rfl⟩

/-- **All bits are set**, and no others. -/
theorem exists_setAll (ws : Words) {is : List Nat} (h : ∀ i ∈ is, i < 64 * ws.length) :
    ∃ ws', setAll ws is = some ws' ∧ ws'.length = ws.length ∧
      ∀ j, get ws' j = (get ws j || decide (j ∈ is)) := by
  induction is generalizing ws with
  | nil => exact ⟨ws, rfl, rfl, fun j => by simp⟩
  | cons i is ih =>
      rw [List.forall_mem_cons] at h
      obtain ⟨ws₁, hset⟩ := exists_set h.1
      obtain ⟨hlength, hget⟩ := get_of_set hset
      obtain ⟨ws', hrun, hlength', hget'⟩ := ih ws₁ (by rw [hlength]; exact h.2)
      refine ⟨ws', ?_, hlength'.trans hlength, fun j => ?_⟩
      · rw [setAll, List.foldlM_cons, hset]
        exact hrun
      · rw [hget', hget, Bool.or_assoc]
        congr 1
        simp [eq_comm]

theorem get_of_length_le (h : 64 * ws.length ≤ j) : get ws j = false := by
  rw [get, List.getD_eq_getElem?_getD, List.getElem?_eq_none (by omega)]
  exact BitVec.getLsbD_zero

/-! ## the words of all parties -/

section reduce

variable {n : Nat} {buffers : Fin (n + 1) → Words} {count : Nat}

theorem length_reduce (op : BitVec 64 → BitVec 64 → BitVec 64) :
    (reduce op count buffers).length = count := by
  rw [reduce, List.length_map, List.length_range]

theorem getD_reduce (op : BitVec 64 → BitVec 64 → BitVec 64) (hi : i < count) :
    (reduce op count buffers).getD i 0 = (List.finRange n).foldl
      (fun w r => op w ((buffers r.succ).getD i 0)) ((buffers 0).getD i 0) := by
  rw [reduce, List.getD_eq_getElem?_getD, List.getElem?_map, List.getElem?_range hi]
  rfl

theorem getLsbD_foldl_and (rs : List (Fin n)) (f : Fin n → BitVec 64) (w : BitVec 64) (j : Nat) :
    (rs.foldl (fun w r => w &&& f r) w).getLsbD j = true ↔
      w.getLsbD j = true ∧ ∀ r ∈ rs, (f r).getLsbD j = true := by
  induction rs generalizing w with
  | nil => simp
  | cons r rs ih => rw [List.foldl_cons, ih, BitVec.getLsbD_and, List.forall_mem_cons,
      Bool.and_eq_true, and_assoc]

theorem getLsbD_foldl_or (rs : List (Fin n)) (f : Fin n → BitVec 64) (w : BitVec 64) (j : Nat) :
    (rs.foldl (fun w r => w ||| f r) w).getLsbD j = true ↔
      w.getLsbD j = true ∨ ∃ r ∈ rs, (f r).getLsbD j = true := by
  induction rs generalizing w with
  | nil => simp
  | cons r rs ih => rw [List.foldl_cons, ih, BitVec.getLsbD_or, List.exists_mem_cons_iff,
      Bool.or_eq_true, or_assoc]

/-- **A bitwise and has the common bits.** -/
theorem get_reduce_and (hj : j < 64 * count) :
    get (reduce (· &&& ·) count buffers) j = true ↔ ∀ r, get (buffers r) j = true := by
  rw [get, getD_reduce _ (by omega), getLsbD_foldl_and, Fin.forall_fin_succ]
  simp only [List.mem_finRange, true_implies, get]

/-- **A bitwise or has the bits of any party.** -/
theorem get_reduce_or (hj : j < 64 * count) :
    get (reduce (· ||| ·) count buffers) j = true ↔ ∃ r, get (buffers r) j = true := by
  rw [get, getD_reduce _ (by omega), getLsbD_foldl_or, Fin.exists_fin_succ]
  simp only [List.mem_finRange, true_and, get]

end reduce

/-! ## scanning -/

theorem exists_getLsbD (h : w ≠ 0) : ∃ k < 64, w.getLsbD k = true := by
  by_contra hnone
  push Not at hnone
  refine h (BitVec.eq_of_getLsbD_eq fun i hi => ?_)
  rw [Bool.eq_false_of_not_eq_true (hnone i hi), BitVec.ofNat_eq_ofNat, BitVec.getLsbD_zero]

theorem ffs_spec (h : w ≠ 0) : ∃ k < 64, ffs w = k + 1 ∧ w.getLsbD k = true ∧
    ∀ j < k, w.getLsbD j = false := by
  obtain ⟨k, hk, hbit⟩ := exists_getLsbD h
  cases hfind : (List.range 64).find? w.getLsbD with
  | none =>
      rw [List.find?_eq_none] at hfind
      exact absurd hbit (hfind k (List.mem_range.mpr hk))
  | some i =>
      obtain ⟨hi, hmem, hmin⟩ := List.find?_range_eq_some.mp hfind
      refine ⟨i, List.mem_range.mp hmem, by rw [ffs, hfind]; rfl, hi, fun j hj => ?_⟩
      simpa using hmin j hj

/-- **Taking bits out comes to an end**, since every bit is above the last. -/
theorem exists_scanWord (fuel : Nat) (h : ∀ j, j + fuel < 64 → w.getLsbD j = false) :
    ∃ is, scanWord fuel w = some is ∧ ∀ j, j ∈ is ↔ w.getLsbD j = true := by
  induction fuel generalizing w with
  | zero =>
      have hzero : w = 0 := by
        by_contra hne
        obtain ⟨k, hk, hbit⟩ := exists_getLsbD hne
        rw [h k hk] at hbit
        cases hbit
      exact ⟨[], by rw [scanWord, if_pos hzero], fun j => by simp [hzero]⟩
  | succ fuel ih =>
      by_cases hzero : w = 0
      · exact ⟨[], by rw [scanWord, if_pos hzero], fun j => by simp [hzero]⟩
      obtain ⟨k, hk, hffs, hbit, hmin⟩ := ffs_spec hzero
      have hclear : ∀ j < 64, (w &&& ~~~(1#64 <<< k)).getLsbD j =
          (w.getLsbD j && !decide (k = j)) := fun j hj => by
        rw [BitVec.getLsbD_and, BitVec.getLsbD_not, getLsbD_bit hj, decide_eq_true hj, Bool.true_and]
      have hlow : 64 ≤ k + (fuel + 1) := by
        by_contra hlt
        rw [h k (Nat.not_le.mp hlt)] at hbit
        cases hbit
      obtain ⟨is, hscan, hmem⟩ := ih (w := w &&& ~~~(1#64 <<< k)) fun j hj => by
        rw [hclear j (by omega)]
        by_cases hjk : j < k
        · rw [hmin j hjk, Bool.false_and]
        · rw [decide_eq_true (show k = j by omega), Bool.not_true, Bool.and_false]
      refine ⟨k :: is, ?_, fun j => ?_⟩
      · rw [scanWord, if_neg hzero, hffs]
        simp only [Nat.add_sub_cancel, hscan, Option.map_some]
      · rw [List.mem_cons, hmem]
        by_cases hj : j < 64
        · rw [hclear j hj]
          by_cases hjk : k = j
          · subst hjk
            simp [hbit]
          · simp [hjk, Ne.symm hjk]
        · rw [BitVec.getLsbD_of_ge _ _ (Nat.not_lt.mp hj), BitVec.getLsbD_of_ge _ _ (Nat.not_lt.mp hj)]
          simp only [Bool.false_eq_true, or_false, iff_false]
          omega

theorem exists_scanFrom (shift : Nat) (ws : Words) : ∃ is, scanFrom shift ws = some is ∧
    ∀ j, j ∈ is ↔ shift ≤ j ∧ get ws (j - shift) = true := by
  induction ws generalizing shift with
  | nil => exact ⟨[], rfl, fun j => by simp [get]⟩
  | cons w ws ih =>
      obtain ⟨is, hword, hmem⟩ := exists_scanWord 64 (w := w) fun j hj => by omega
      obtain ⟨js, hrest, hmem'⟩ := ih (shift + 64)
      refine ⟨is.map (shift + ·) ++ js, ?_, fun j => ?_⟩
      · rw [scanFrom, hword]
        simp only [Option.bind_eq_bind, Option.bind_some, hrest]
        rfl
      · rw [List.mem_append, hmem', List.mem_map]
        by_cases hj : j < shift + 64
        · rw [or_iff_left (by omega)]
          constructor
          · rintro ⟨i, hi, rfl⟩
            rw [hmem] at hi
            refine ⟨Nat.le_add_right _ _, ?_⟩
            have hlt : i < 64 := by omega
            rw [Nat.add_sub_cancel_left, get, Nat.div_eq_of_lt hlt, Nat.mod_eq_of_lt hlt]
            exact hi
          · rintro ⟨hle, hbit⟩
            have hlt : j - shift < 64 := by omega
            rw [get, Nat.div_eq_of_lt hlt, Nat.mod_eq_of_lt hlt] at hbit
            exact ⟨j - shift, (hmem _).mpr hbit, by omega⟩
        · have hnone : ¬ ∃ i ∈ is, shift + i = j := by
            rintro ⟨i, hi, rfl⟩
            rw [hmem] at hi
            rw [BitVec.getLsbD_of_ge _ _ (by omega)] at hi
            cases hi
          rw [or_iff_right hnone, get, get, show (j - shift) / 64 = (j - (shift + 64)) / 64 + 1 by omega,
            show (j - shift) % 64 = (j - (shift + 64)) % 64 by omega, List.getD_cons_succ]
          exact and_congr_left fun _ => by omega

/-- **The scan ends with the positions of all bits.** -/
theorem exists_scan (ws : Words) : ∃ is, scan ws = some is ∧ ∀ j, j ∈ is ↔ get ws j = true := by
  obtain ⟨is, hscan, hmem⟩ := exists_scanFrom 0 ws
  exact ⟨is, hscan, fun j => by rw [hmem, Nat.sub_zero, and_iff_right (Nat.zero_le j)]⟩

end BitWords
