import ContainerHackathon.Lib.Delimited
import ContainerHackathon.Lib.RoundRobin
import ContainerHackathon.PyStager.Params

/-!
# PyStager.Distributor

`load_distributor`: the items are appended in turn to the slots of a
dictionary with the keys `1 .. p-1`, joined by `;`, and every worker splits
its slot again.

`distributeLoop_eq` ties the wrapping `counter` to the item index modulo
`p - 1` and the growing strings to the hands of a round-robin deal; the
result `loadDistributor_eq` and its failure case
`loadDistributor_indexError` are read off it.  `loadDistributor_roundRobin`
says what the dictionary is in terms of indices.
-/

namespace ContainerHackathon.PyStager

open RoundRobin

/-! ## the distributor -/

/-- `transfer_dict`: `none` where the key is missing, `some none` where its
value is `None`. -/
abbrev TransferDict := Nat → Option (Option String)

/-- `dict.fromkeys(list(range(1, processor_num)))`. -/
def fromkeys (processorNum : Nat) : TransferDict :=
  fun k => if 1 ≤ k ∧ k < processorNum then some none else none

/-- The new value of a slot: the item itself, or `"{};{}".format(..)`. -/
def joinItem : Option String → String → String
  | none, item => item
  | some old, item => old ++ ";" ++ item

/-- The body of the `for Directory_counter in range(0, total)` loop, for
`todo` more rounds. -/
def distributeLoop (listItemsToProcess : List String) (processorNum : Nat) :
    (todo directoryCounter counter : Nat) → TransferDict → Except PyError TransferDict
  | 0, _, _, transferDict => .ok transferDict
  | todo + 1, directoryCounter, counter, transferDict =>
      match transferDict counter with
      | none => .error .keyError
      | some slot =>
          match listItemsToProcess[directoryCounter]? with
          | none => .error .indexError
          | some item =>
              distributeLoop listItemsToProcess processorNum todo (directoryCounter + 1)
                (if counter + 1 = processorNum then 1 else counter + 1)
                (Function.update transferDict counter (some (some (joinItem slot item))))

/-- The bound of the loop: a different counter of the scan for each level. -/
def ScanResult.total (scan : ScanResult) : LoadLevel → Nat
  | .directory => scan.totalNumDirectories
  | .file => scan.totalNumFiles

/-- `load_distributor`, without its log lines. -/
def loadDistributor (scan : ScanResult) (loadLevel : LoadLevel) (processorNum : Nat) :
    Except PyError TransferDict :=
  distributeLoop scan.listItemsToProcess processorNum (scan.total loadLevel) 0 1
    (fromkeys processorNum)

/-- `message_in.split(';')`, or no job at all when the message is `None`. -/
def jobList : Option String → List String
  | none => []
  | some messageIn => Delimited.split ';' messageIn

/-! ## the round-robin law -/

/-- A slot that holds the given items. -/
def slotOf : List String → Option String
  | [] => none
  | items@(_ :: _) => some (";".intercalate items)

/-- The items dealt to the worker of rank `w`. -/
def itemsOf (processorNum : Nat) (items : List String) (w : Nat) : List String :=
  deal (processorNum - 1) items (w - 1)

/-- The dictionary after all of `items` has been distributed. -/
def dealt (processorNum : Nat) (items : List String) : TransferDict :=
  fun k => if 1 ≤ k ∧ k < processorNum then some (slotOf (itemsOf processorNum items k)) else none

@[simp] theorem slotOf_eq_none_iff (items : List String) : slotOf items = none ↔ items = [] := by
  cases items <;> simp [slotOf]

/-- Appending an item to a slot's items is what `joinItem` does to the slot. -/
theorem slotOf_concat (items : List String) (item : String) :
    slotOf (items ++ [item]) = some (joinItem (slotOf items) item) := by
  cases items with
  | nil => simp [slotOf, joinItem, String.intercalate_singleton]
  | cons x xs =>
      have happ : ";".intercalate ((x :: xs) ++ [item]) =
          ";".intercalate (x :: xs) ++ ";" ++ ";".intercalate [item] :=
        String.intercalate_append_of_ne_nil (by simp) (by simp)
      rw [String.intercalate_singleton] at happ
      simpa [slotOf, joinItem] using happ

theorem dealt_nil (processorNum : Nat) : dealt processorNum [] = fromkeys processorNum := by
  funext k
  simp [dealt, fromkeys, itemsOf, slotOf]

/-- One more item changes the slot whose turn it is, and no other. -/
theorem dealt_concat {p : Nat} (hp : 2 ≤ p) (items : List String) (item : String) :
    dealt p (items ++ [item]) = Function.update (dealt p items) (items.length % (p - 1) + 1)
      (some (some (joinItem (slotOf (itemsOf p items (items.length % (p - 1) + 1))) item))) := by
  have hlt : items.length % (p - 1) < p - 1 := Nat.mod_lt _ (by omega)
  funext k
  by_cases hk : k = items.length % (p - 1) + 1
  · subst hk
    rw [Function.update_self, dealt, if_pos (by omega), itemsOf, deal_concat, Nat.add_sub_cancel,
      if_pos rfl, slotOf_concat, itemsOf, Nat.add_sub_cancel]
  · rw [Function.update_of_ne hk]
    by_cases hin : 1 ≤ k ∧ k < p
    · simp only [dealt, if_pos hin, itemsOf, deal_concat]
      rw [if_neg (by omega), List.append_nil]
    · simp only [dealt, if_neg hin]

/-- The wrapping counter is the index modulo `p - 1`, counted from 1. -/
theorem wrap_counter {p : Nat} (hp : 2 ≤ p) (i : Nat) :
    (if i % (p - 1) + 1 + 1 = p then 1 else i % (p - 1) + 1 + 1) = (i + 1) % (p - 1) + 1 := by
  have hlt : i % (p - 1) < p - 1 := Nat.mod_lt _ (by omega)
  rw [← Nat.mod_add_mod]
  by_cases h : i % (p - 1) + 1 + 1 = p
  · have hlast : i % (p - 1) + 1 = p - 1 := by omega
    rw [if_pos h, hlast, Nat.mod_self]
  · have hmod : (i % (p - 1) + 1) % (p - 1) = i % (p - 1) + 1 := Nat.mod_eq_of_lt (by omega)
    rw [if_neg h, hmod]

/-- **Loop invariant.**  Before the round for index `i` the counter is
`i % (p-1) + 1` and the dictionary holds the first `i` items dealt round;
the loop gets through exactly when no index passes the end of the list. -/
theorem distributeLoop_eq {p : Nat} (hp : 2 ≤ p) (items : List String) (todo i : Nat)
    (hi : i ≤ items.length) :
    distributeLoop items p todo i (i % (p - 1) + 1) (dealt p (items.take i)) =
      if i + todo ≤ items.length then .ok (dealt p (items.take (i + todo)))
      else .error .indexError := by
  have hlt : ∀ i, i % (p - 1) < p - 1 := fun i => Nat.mod_lt _ (by omega)
  induction todo generalizing i with
  | zero => simp [distributeLoop, hi]
  | succ todo ih =>
      have hslot : dealt p (items.take i) (i % (p - 1) + 1) =
          some (slotOf (itemsOf p (items.take i) (i % (p - 1) + 1))) := by
        have := hlt i
        rw [dealt, if_pos (by omega)]
      simp only [distributeLoop, hslot, wrap_counter hp]
      by_cases hlen : i < items.length
      · have htake : (items.take i).length = i := List.length_take_of_le hi
        have hnext := dealt_concat hp (items.take i) items[i]
        rw [htake] at hnext
        rw [List.getElem?_eq_getElem hlen]
        simp only []
        rw [← hnext, ← List.take_succ_eq_append_getElem hlen, ih (i + 1) (by omega)]
        simp only [show i + 1 + todo = i + (todo + 1) by omega]
      · have hover : ¬ i + (todo + 1) ≤ items.length := by omega
        rw [List.getElem?_eq_none (by omega), if_neg hover]

/-- **`load_distributor`** deals as many items as it is told to, and raises
`IndexError` when it is told of more than there are. -/
theorem loadDistributor_eq_ite {scan : ScanResult} {level : LoadLevel} {p : Nat} (hp : 2 ≤ p) :
    loadDistributor scan level p =
      if scan.total level ≤ scan.listItemsToProcess.length then
        .ok (dealt p (scan.listItemsToProcess.take (scan.total level)))
      else .error .indexError := by
  have h := distributeLoop_eq hp scan.listItemsToProcess (scan.total level) 0 (Nat.zero_le _)
  rw [List.take_zero, dealt_nil, Nat.zero_mod, Nat.zero_add, Nat.zero_add] at h
  exact h

/-- With the right total the whole list is dealt. -/
theorem loadDistributor_eq {scan : ScanResult} {level : LoadLevel} {p : Nat} (hp : 2 ≤ p)
    (htotal : scan.total level = scan.listItemsToProcess.length) :
    loadDistributor scan level p = .ok (dealt p scan.listItemsToProcess) := by
  rw [loadDistributor_eq_ite hp, htotal, if_pos (Nat.le_refl _), List.take_length]

theorem loadDistributor_indexError {scan : ScanResult} {level : LoadLevel} {p : Nat} (hp : 2 ≤ p)
    (htotal : scan.listItemsToProcess.length < scan.total level) :
    loadDistributor scan level p = .error .indexError := by
  rw [loadDistributor_eq_ite hp, if_neg (by omega)]

/-! ## the law in terms of indices -/

/-- What the slots hold when all items are distributed: the keys are the
ranks of the workers, and the items of the worker of rank `w` are those at
the indices `w-1`, `w-1 + (p-1)`, `w-1 + 2(p-1)`, …. -/
structure RoundRobinLaw (p : Nat) (items : List String) (transferDict : TransferDict)
    (hand : Nat → List String) : Prop where
  keys : ∀ k, transferDict k ≠ none ↔ 1 ≤ k ∧ k < p
  idle : ∀ w, 1 ≤ w → w < p → (transferDict w = some none ↔ items.length < w)
  joined : ∀ w, 1 ≤ w → w < p → w ≤ items.length →
    transferDict w = some (some (";".intercalate (hand w)))
  stride : ∀ w, 1 ≤ w → w < p → ∀ j, (hand w)[j]? = items[w - 1 + j * (p - 1)]?
  assigned : ∀ i, i < items.length → ∃! w, (1 ≤ w ∧ w < p) ∧ ∃ j, i = w - 1 + j * (p - 1)
  balanced : ∀ w v, 1 ≤ w → w < p → 1 ≤ v → v < p → (hand w).length ≤ (hand v).length + 1

/-- The worker of rank `w` is idle exactly when there are fewer than `w` items. -/
theorem itemsOf_eq_nil_iff {p w : Nat} (items : List String) (h1 : 1 ≤ w) (hw : w < p) :
    itemsOf p items w = [] ↔ items.length < w := by
  rw [itemsOf, deal_eq_nil_iff items (by omega)]
  omega

theorem dealt_of_key {p w : Nat} (items : List String) (h1 : 1 ≤ w) (hw : w < p) :
    dealt p items w = some (slotOf (itemsOf p items w)) := if_pos ⟨h1, hw⟩

theorem slotOf_of_ne_nil {items : List String} (h : items ≠ []) :
    slotOf items = some (";".intercalate items) := by
  cases items with
  | nil => exact absurd rfl h
  | cons x xs => rfl

/-- The rank whose turn it is at index `i` is the only one with `i` in its
stride. -/
theorem existsUnique_rank {p : Nat} (hp : 2 ≤ p) (i : Nat) :
    ∃! w, (1 ≤ w ∧ w < p) ∧ ∃ j, i = w - 1 + j * (p - 1) := by
  have hlt : i % (p - 1) < p - 1 := Nat.mod_lt _ (by omega)
  refine ⟨i % (p - 1) + 1, ⟨by omega, i / (p - 1), ?_⟩, ?_⟩
  · rw [Nat.add_sub_cancel, Nat.mul_comm, Nat.mod_add_div]
  · intro w hw
    obtain ⟨⟨h1, hwp⟩, j, hj⟩ := hw
    have hmod : i % (p - 1) = w - 1 := by
      rw [hj, Nat.add_mul_mod_self_right, Nat.mod_eq_of_lt (by omega)]
    omega

/-- Two hands differ in size by at most one. -/
theorem length_itemsOf_le_succ {p w v : Nat} (items : List String) (h1 : 1 ≤ w) (hw : w < p)
    (hv : v < p) : (itemsOf p items w).length ≤ (itemsOf p items v).length + 1 := by
  have hk : 0 < p - 1 := by omega
  rw [itemsOf, itemsOf, length_deal items (by omega), length_deal items (by omega),
    ← Nat.add_div_right _ hk]
  exact Nat.div_le_div_right (by omega)

theorem dealt_roundRobinLaw {p : Nat} (hp : 2 ≤ p) (items : List String) :
    RoundRobinLaw p items (dealt p items) (itemsOf p items) where
  keys k := by simp [dealt]
  idle w h1 hw := by
    rw [dealt_of_key items h1 hw, Option.some.injEq, slotOf_eq_none_iff,
      itemsOf_eq_nil_iff items h1 hw]
  joined w h1 hw hlen := by
    have hne : itemsOf p items w ≠ [] := fun hnil => by
      have := (itemsOf_eq_nil_iff items h1 hw).mp hnil
      omega
    rw [dealt_of_key items h1 hw, slotOf_of_ne_nil hne]
  stride w h1 hw j := getElem?_deal items (by omega) j
  assigned i _ := existsUnique_rank hp i
  balanced w v h1 hw _ hv := length_itemsOf_le_succ items h1 hw hv

/-- **The round-robin law** of `load_distributor`, at either load level. -/
theorem loadDistributor_roundRobin {scan : ScanResult} {level : LoadLevel} {p : Nat} (hp : 2 ≤ p)
    (htotal : scan.total level = scan.listItemsToProcess.length) :
    ∃ transferDict, loadDistributor scan level p = .ok transferDict ∧
      RoundRobinLaw p scan.listItemsToProcess transferDict (itemsOf p scan.listItemsToProcess) :=
  ⟨_, loadDistributor_eq hp htotal, dealt_roundRobinLaw hp _⟩

theorem loadDistributor_roundRobin_three : ∃ transferDict,
    loadDistributor ⟨[], ["a", "b", "c"], 0, 0, 3⟩ .directory 3 = .ok transferDict ∧
      RoundRobinLaw 3 ["a", "b", "c"] transferDict (itemsOf 3 ["a", "b", "c"]) :=
  loadDistributor_roundRobin (by decide) rfl

/-! ## what the workers make of it -/

theorem mem_of_mem_itemsOf {p w : Nat} {items : List String} {item : String}
    (h : item ∈ itemsOf p items w) : item ∈ items := mem_of_mem_deal h

/-- The jobs a worker reads out of its slot are the pieces of its items. -/
theorem jobList_slotOf (items : List String) :
    jobList (slotOf items) = items.flatMap (Delimited.split ';') := by
  cases items with
  | nil => rfl
  | cons x xs => exact Delimited.split_intercalate_flatMap ';' (by simp)

/-- The jobs of all workers, rank by rank. -/
def allJobs (processorNum : Nat) (transferDict : TransferDict) : List String :=
  (List.range (processorNum - 1)).flatMap (fun r => jobList ((transferDict (r + 1)).getD none))

theorem allJobs_dealt (p : Nat) (items : List String) :
    allJobs p (dealt p items) =
      (List.range (p - 1)).flatMap (fun r => (deal (p - 1) items r).flatMap (Delimited.split ';')) := by
  refine List.flatMap_congr fun r hr => ?_
  have hlt : r < p - 1 := List.mem_range.mp hr
  rw [dealt, if_pos (by omega), Option.getD_some, jobList_slotOf, itemsOf, Nat.add_sub_cancel]

/-- All jobs together are the pieces of the items. -/
theorem allJobs_dealt_perm {p : Nat} (hp : 2 ≤ p) (items : List String) :
    (allJobs p (dealt p items)).Perm (items.flatMap (Delimited.split ';')) := by
  rw [allJobs_dealt, ← List.flatMap_assoc]
  exact (flatMap_deal_perm items (by omega)).flatMap_right _

end ContainerHackathon.PyStager
