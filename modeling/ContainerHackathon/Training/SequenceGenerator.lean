import ContainerHackathon.Training.ProcessNetCDF
import ContainerHackathon.Training.SequenceStarts

/-!
# Training.SequenceGenerator

`SequenceGenerator`: its constructor, `next`, `create_all` and what one
epoch of batches amounts to.

`create_all` stacks the sequence of every start.  `next` fills the rows it
has indices for in a zero batch of `batch_size` rows, and the last slice of
an epoch may have fewer indices; so an epoch adds rows of zeros unless the
batch size divides the number of sequences (`epoch_iff`).  The starts of a
constructed generator in the mode `all` are those of the sequences of one
source in a few cases only (`allStarts_iff`).

Floating point is left to the field functions of `Floats`.
-/

namespace ContainerHackathon.Training

open Windows

/-! ## images -/

/-- `im_shape`.  `preprocess` assigns the indices 0, 1 and 2 of the last
axis, which have to exist. -/
structure Shape where
  rows : Nat
  cols : Nat
  channels : Nat
  three_le : 3 ≤ channels

abbrev Image (α : Type*) (shape : Shape) : Type _ :=
  Fin shape.rows → Fin shape.cols → Fin shape.channels → α

/-- The numbers in the arrays: zero, the normalisation
`(x - 235.2…) / (321.4… - 235.2…)` and the conversion to `float32`. -/
structure Floats (α : Type*) where
  zero : α
  normalize : α → α
  astypeFloat32 : α → α

/-- A row of a batch, or of all sequences: images one after the other. -/
abbrev Row (α : Type*) (shape : Shape) : Type _ := List (Image α shape)

variable {α σ : Type*} {shape : Shape}

/-- `preprocess`: two channels normalised, one as it is, no others. -/
def preprocess (fl : Floats α) (X : Row α shape) : Row α shape :=
  X.map fun image row col channel => fl.astypeFloat32 <|
    if channel.val = 0 ∨ channel.val = 1 then fl.normalize (image row col channel)
    else if channel.val = 2 then image row col channel
    else fl.zero

def zeroRow (fl : Floats α) (shape : Shape) (nt : Nat) : Row α shape :=
  List.replicate nt fun _ _ _ => fl.zero

/-! ## the constructor -/

inductive SequenceStartMode
  | all
  | unique
  deriving DecidableEq, Repr

inductive OutputMode
  | error
  | prediction
  deriving DecidableEq, Repr

/-- `np.random.permutation`, of which only this is known. -/
structure Shuffle where
  permutation : List Nat → List Nat
  perm : ∀ starts, (permutation starts).Perm starts

/-- The attributes of a generator; every sequence lies inside the data. -/
structure SequenceGenerator (α : Type*) (shape : Shape) where
  X : List (Image α shape)
  nt : Nat
  batchSize : Nat
  outputMode : OutputMode
  possibleStarts : List Nat
  fits : ∀ s ∈ possibleStarts, s + nt ≤ X.length

/-- `N_sequences`, which is also the `n` of the iterator. -/
def SequenceGenerator.nSequences (gen : SequenceGenerator α shape) : Nat :=
  gen.possibleStarts.length

/-- The starts before shuffling; `none` if the loop does not end. -/
def chooseStarts [DecidableEq σ] (mode : SequenceStartMode) (sources : List σ)
    (numImages nt : Nat) : Option (Except PyError (List Nat)) :=
  match mode with
  | .all => some (.ok (allStarts numImages nt))
  | .unique => uniqueLoop sources numImages nt (numImages + 1) ⟨0, []⟩

/-- `if shuffle`. -/
def shuffleStarts : Option Shuffle → List Nat → List Nat
  | none, starts => starts
  | some shuffle, starts => shuffle.permutation starts

/-- Select a subset of the sequences if there are more than `N_seq`. -/
def selectStarts : Option Int → List Nat → List Nat
  | none, starts => starts
  | some nSeq, starts =>
      if nSeq < starts.length then Python.slice starts 0 nSeq else starts

theorem uniqueLoop_fits [DecidableEq σ] {sources : List σ} {numImages nt fuel : Nat}
    {loop : UniqueLoop} {starts : List Nat}
    (h : uniqueLoop sources numImages nt fuel loop = some (.ok starts))
    (hfits : ∀ s ∈ loop.possibleStarts, s + nt ≤ numImages) : ∀ s ∈ starts, s + nt ≤ numImages := by
  induction fuel generalizing loop with
  | zero => simp [uniqueLoop] at h
  | succ fuel ih =>
      rw [uniqueLoop] at h
      split at h
      · next hcond =>
        split at h
        · split at h
          · refine ih h fun s hs => ?_
            cases List.mem_append.mp hs with
            | inl hs => exact hfits s hs
            | inr hs =>
                rw [List.mem_singleton.mp hs]
                omega
          · exact ih h hfits
        · simp at h
      · obtain rfl : loop.possibleStarts = starts := by simpa using h
        exact hfits

theorem chooseStarts_fits [DecidableEq σ] {mode : SequenceStartMode} {sources : List σ}
    {numImages nt : Nat} {starts : List Nat}
    (h : chooseStarts mode sources numImages nt = some (.ok starts)) :
    ∀ s ∈ starts, s + nt ≤ numImages := by
  cases mode with
  | all =>
      obtain rfl : allStarts numImages nt = starts := by simpa [chooseStarts] using h
      intro s hs
      rw [allStarts, List.mem_range] at hs
      omega
  | unique => exact uniqueLoop_fits h (by simp)

theorem mem_of_mem_shuffleStarts {shuffle : Option Shuffle} {starts : List Nat} {s : Nat}
    (h : s ∈ shuffleStarts shuffle starts) : s ∈ starts := by
  cases shuffle with
  | none => exact h
  | some shuffle => exact (shuffle.perm starts).mem_iff.mp h

theorem mem_of_mem_selectStarts {nSeq : Option Int} {starts : List Nat} {s : Nat}
    (h : s ∈ selectStarts nSeq starts) : s ∈ starts := by
  cases nSeq with
  | none => exact h
  | some nSeq =>
      rw [selectStarts] at h
      split at h
      · exact List.mem_of_mem_take (List.mem_of_mem_drop h)
      · exact h

/-- `SequenceGenerator.__init__`.  `self.X[0].shape` needs an image. -/
def SequenceGenerator.init [DecidableEq σ] (data : DataSet (Image α shape) σ) (nt batchSize : Nat)
    (shuffle : Option Shuffle) (outputMode : OutputMode) (mode : SequenceStartMode)
    (nSeq : Option Int) : Option (Except PyError (SequenceGenerator α shape)) :=
  if data.X = [] then some (.error .indexError)
  else
    match h : chooseStarts mode data.sources data.X.length nt with
    | none => none
    | some (.error e) => some (.error e)
    | some (.ok starts) => some (.ok
        { X := data.X
          nt := nt
          batchSize := batchSize
          outputMode := outputMode
          possibleStarts := selectStarts nSeq (shuffleStarts shuffle starts)
          fits := fun s hs =>
            chooseStarts_fits h s (mem_of_mem_shuffleStarts (mem_of_mem_selectStarts hs)) })

/-! ## batches -/

/-- Assigning a row of another length fails, unless numpy can repeat one
image. -/
def broadcastTo (nt : Nat) (row : Row α shape) : Except PyError (Row α shape) :=
  if row.length = nt then .ok row
  else
    match row with
    | [image] => .ok (List.replicate nt image)
    | _ => .error .valueError

/-- `rows[i] = self.preprocess(self.X[idx:idx+self.nt])`. -/
def assignRow (fl : Floats α) (gen : SequenceGenerator α shape) (i idx : Nat)
    (rows : List (Row α shape)) : Except PyError (List (Row α shape)) :=
  if i < rows.length then
    (broadcastTo gen.nt (preprocess fl (Python.slice gen.X idx ((idx + gen.nt : Nat) : Int)))).map
      fun row => rows.set i row
  else .error .indexError

/-- `for i, idx in enumerate(..)`, from `i` on; `start` is what the body
makes of `idx` first. -/
def fillRows (fl : Floats α) (gen : SequenceGenerator α shape) (start : Nat → Except PyError Nat) :
    Nat → List Nat → List (Row α shape) → Except PyError (List (Row α shape))
  | _, [], rows => .ok rows
  | i, idx :: rest, rows =>
      (start idx).bind fun idx =>
        (assignRow fl gen i idx rows).bind fun rows => fillRows fl gen start (i + 1) rest rows

/-- `idx = self.possible_starts[idx]`. -/
def lookUpStart (gen : SequenceGenerator α shape) (idx : Nat) : Except PyError Nat :=
  match gen.possibleStarts[idx]? with
  | none => .error .indexError
  | some start => .ok start

/-- `batch_y`: zeros for the errors, or the batch itself. -/
inductive Target (α : Type*) (shape : Shape)
  | zeros (n : Nat)
  | batch (rows : List (Row α shape))

/-- `next`, with the indices that the iterator yields. -/
def next (fl : Floats α) (gen : SequenceGenerator α shape) (indexArray : List Nat) :
    Except PyError (List (Row α shape) × Target α shape) :=
  -- `(self.batch_index * self.batch_size) % self.n`
  if gen.nSequences = 0 then .error .zeroDivisionError
  else
    (fillRows fl gen (lookUpStart gen) 0 indexArray
      (List.replicate gen.batchSize (zeroRow fl shape gen.nt))).map fun batchX =>
        (batchX, match gen.outputMode with
          | .error => .zeros gen.batchSize
          | .prediction => .batch batchX)

def createAll (fl : Floats α) (gen : SequenceGenerator α shape) :
    Except PyError (List (Row α shape)) :=
  fillRows fl gen .ok 0 gen.possibleStarts
    (List.replicate gen.nSequences (zeroRow fl shape gen.nt))

/-- What the iterator yields in one epoch: the consecutive slices of length
`batch_size` of a permutation of the indices, the last one maybe shorter. -/
def indexArrays (gen : SequenceGenerator α shape) (permutation : List Nat) : List (List Nat) :=
  (List.range ((gen.nSequences + gen.batchSize - 1) / gen.batchSize)).map fun j =>
    Python.slice permutation ((j * gen.batchSize : Nat) : Int)
      (((j + 1) * gen.batchSize : Nat) : Int)

/-- The rows of all batches of one epoch. -/
def epochRows (fl : Floats α) (gen : SequenceGenerator α shape) (permutation : List Nat) :
    Except PyError (List (Row α shape)) :=
  ((indexArrays gen permutation).mapM fun indexArray =>
    (next fl gen indexArray).map Prod.fst).map List.flatten

/-! ## what the rows are -/

/-- The sequence that starts at `s`, preprocessed. -/
def sequenceRow (fl : Floats α) (gen : SequenceGenerator α shape) (s : Nat) : Row α shape :=
  preprocess fl (Python.slice gen.X s ((s + gen.nt : Nat) : Int))

/-- The starts at the given indices, in their order. -/
def startsAt (gen : SequenceGenerator α shape) (indexArray : List Nat) : List Nat :=
  indexArray.filterMap fun idx => gen.possibleStarts[idx]?

variable {fl : Floats α} {gen : SequenceGenerator α shape}

theorem assignRow_of_fits {i s : Nat} {rows : List (Row α shape)} (hi : i < rows.length)
    (hs : s + gen.nt ≤ gen.X.length) :
    assignRow fl gen i s rows = .ok (rows.set i (sequenceRow fl gen s)) := by
  have hlen : (sequenceRow fl gen s).length = gen.nt := by
    rw [sequenceRow, preprocess, List.length_map, Python.length_slice_add hs]
  have hrow : broadcastTo gen.nt (sequenceRow fl gen s) = .ok (sequenceRow fl gen s) := by
    unfold broadcastTo
    rw [if_pos hlen]
  rw [assignRow, if_pos hi, ← sequenceRow, hrow]
  rfl

variable (fl) in
/-- **Loop invariant**: behind the rows that are done, the rows of zeros are
replaced one by one. -/
theorem fillRows_eq {start : Nat → Except PyError Nat} {idxs starts : List Nat}
    (hstarts : idxs.map start = starts.map .ok) (hfits : ∀ s ∈ starts, s + gen.nt ≤ gen.X.length)
    (zero : Row α shape) (done : List (Row α shape)) {m : Nat} (hm : starts.length ≤ m) :
    fillRows fl gen start done.length idxs (done ++ List.replicate m zero) =
      .ok (done ++ starts.map (sequenceRow fl gen) ++
        List.replicate (m - starts.length) zero) := by
  induction idxs generalizing starts done m with
  | nil =>
      obtain rfl : starts = [] := by simpa using hstarts.symm
      simp [fillRows]
  | cons idx idxs ih =>
      cases starts with
      | nil => simp at hstarts
      | cons s starts =>
          rw [List.map_cons, List.map_cons, List.cons.injEq] at hstarts
          rw [List.forall_mem_cons] at hfits
          obtain ⟨k, rfl⟩ : ∃ k, m = k + 1 := ⟨m - 1, by simp at hm; omega⟩
          have hi : done.length < (done ++ List.replicate (k + 1) zero).length := by simp
          have hset : (done ++ List.replicate (k + 1) zero).set done.length (sequenceRow fl gen s) =
              (done ++ [sequenceRow fl gen s]) ++ List.replicate k zero := by
            rw [List.replicate_succ, List.set_append_right _ _ (Nat.le_refl _), Nat.sub_self,
              List.set_cons_zero, List.append_assoc, List.singleton_append]
          have hrest := ih hstarts.2 hfits.2 (done ++ [sequenceRow fl gen s]) (m := k)
            (by simpa using hm)
          rw [List.length_append, List.length_singleton] at hrest
          rw [fillRows, hstarts.1, Except.bind, assignRow_of_fits hi hfits.1, hset]
          refine hrest.trans ?_
          simp

/-- `create_all`: one row for each start. -/
theorem createAll_eq : createAll fl gen = .ok (gen.possibleStarts.map (sequenceRow fl gen)) := by
  have hself : gen.possibleStarts.map Except.ok =
      gen.possibleStarts.map (Except.ok : Nat → Except PyError Nat) := rfl
  have h := fillRows_eq fl hself gen.fits (zeroRow fl shape gen.nt) [] (Nat.le_refl _)
  rw [createAll, SequenceGenerator.nSequences]
  refine h.trans ?_
  simp

/-! ## one epoch -/

theorem length_startsAt {indexArray : List Nat} (h : ∀ idx ∈ indexArray, idx < gen.nSequences) :
    (startsAt gen indexArray).length = indexArray.length ∧
      indexArray.map (lookUpStart gen) = (startsAt gen indexArray).map .ok := by
  induction indexArray with
  | nil => simp [startsAt]
  | cons idx indexArray ih =>
      rw [List.forall_mem_cons] at h
      obtain ⟨hlen, hmap⟩ := ih h.2
      obtain ⟨s, hsome⟩ : ∃ s, gen.possibleStarts[idx]? = some s :=
        ⟨_, List.getElem?_eq_getElem h.1⟩
      have hcons : startsAt gen (idx :: indexArray) = s :: startsAt gen indexArray := by
        rw [startsAt, List.filterMap_cons, hsome]
        rfl
      rw [hcons, List.map_cons, List.map_cons, hmap, List.length_cons, List.length_cons, hlen,
        lookUpStart, hsome]
      exact ⟨rfl, rfl⟩

theorem startsAt_mem {indexArray : List Nat} {s : Nat} (h : s ∈ startsAt gen indexArray) :
    s ∈ gen.possibleStarts := by
  obtain ⟨idx, -, hs⟩ := List.mem_filterMap.mp h
  exact List.mem_of_getElem? hs

/-- **`next`** fills in one row for each index and leaves the rest of the
batch as it was allocated. -/
theorem next_eq {indexArray : List Nat} (hpos : 0 < gen.nSequences)
    (hidx : ∀ idx ∈ indexArray, idx < gen.nSequences) (hlen : indexArray.length ≤ gen.batchSize) :
    (next fl gen indexArray).map Prod.fst =
      .ok ((startsAt gen indexArray).map (sequenceRow fl gen) ++
        List.replicate (gen.batchSize - indexArray.length) (zeroRow fl shape gen.nt)) := by
  obtain ⟨hstarts, hmap⟩ := length_startsAt hidx
  have hfill := fillRows_eq fl hmap (fun s hs => gen.fits s (startsAt_mem hs))
    (zeroRow fl shape gen.nt) [] (hstarts ▸ hlen)
  rw [List.nil_append, List.length_nil, hstarts] at hfill
  rw [next, if_neg (by omega), hfill]
  rfl

variable {permutation : List Nat}

/-- The arrays of an epoch hold the indices in their order, none of them
more than a batch. -/
theorem flatten_indexArrays (hb : 1 ≤ gen.batchSize)
    (hperm : permutation.Perm (List.range gen.nSequences)) :
    (indexArrays gen permutation).flatten = permutation ∧
      ∀ indexArray ∈ indexArrays gen permutation,
        (∀ idx ∈ indexArray, idx < gen.nSequences) ∧ indexArray.length ≤ gen.batchSize := by
  have hlen : permutation.length = gen.nSequences := by simpa using hperm.length_eq
  refine ⟨?_, fun indexArray hmem => ?_⟩
  · rw [indexArrays, ← List.flatMap_def, Python.flatMap_slice, List.take_of_length_le]
    have hceil := Nat.div_add_mod (gen.nSequences + gen.batchSize - 1) gen.batchSize
    have hmod := Nat.mod_lt (gen.nSequences + gen.batchSize - 1) hb
    rw [Nat.mul_comm, hlen]
    omega
  · rw [indexArrays, List.mem_map] at hmem
    obtain ⟨j, -, rfl⟩ := hmem
    constructor
    · intro idx hidx
      exact List.mem_range.mp (hperm.mem_iff.mp (List.mem_of_mem_take (List.mem_of_mem_drop hidx)))
    · rw [Python.length_slice, Nat.succ_mul]
      omega

theorem mapM_eq_ok {β γ ε : Type*} {f : β → Except ε γ} {g : β → γ} {l : List β}
    (h : ∀ x ∈ l, f x = .ok (g x)) : l.mapM f = .ok (l.map g) := by
  induction l with
  | nil => rfl
  | cons x l ih =>
      rw [List.forall_mem_cons] at h
      rw [List.mapM_cons, h.1, ih h.2]
      rfl

/-- The rows of an epoch, batch by batch. -/
theorem epochRows_eq (hb : 1 ≤ gen.batchSize)
    (hperm : permutation.Perm (List.range gen.nSequences)) :
    epochRows fl gen permutation = .ok ((indexArrays gen permutation).flatMap fun indexArray =>
      (startsAt gen indexArray).map (sequenceRow fl gen) ++
        List.replicate (gen.batchSize - indexArray.length) (zeroRow fl shape gen.nt)) := by
  have hpos : ∀ indexArray ∈ indexArrays gen permutation, 0 < gen.nSequences := by
    intro indexArray hmem
    rw [indexArrays, List.mem_map] at hmem
    obtain ⟨j, hj, -⟩ := hmem
    by_contra hzero
    rw [List.mem_range, Nat.div_eq_of_lt (by omega)] at hj
    exact Nat.not_lt_zero j hj
  have harrays := (flatten_indexArrays hb hperm).2
  rw [epochRows, mapM_eq_ok fun indexArray hmem => next_eq (hpos indexArray hmem)
    (harrays indexArray hmem).1 (harrays indexArray hmem).2]
  rfl

variable (fl) in
/-- Every batch has `batch_size` rows, whatever it was filled with. -/
theorem length_epoch (hb : 1 ≤ gen.batchSize)
    (hperm : permutation.Perm (List.range gen.nSequences)) :
    ((indexArrays gen permutation).flatMap fun indexArray =>
      (startsAt gen indexArray).map (sequenceRow fl gen) ++
        List.replicate (gen.batchSize - indexArray.length) (zeroRow fl shape gen.nt)).length =
      (gen.nSequences + gen.batchSize - 1) / gen.batchSize * gen.batchSize := by
  have hrows : ∀ indexArray ∈ indexArrays gen permutation,
      ((startsAt gen indexArray).map (sequenceRow fl gen) ++ List.replicate
        (gen.batchSize - indexArray.length) (zeroRow fl shape gen.nt)).length = gen.batchSize := by
    intro indexArray hmem
    obtain ⟨hidx, hlen⟩ := (flatten_indexArrays hb hperm).2 indexArray hmem
    rw [List.length_append, List.length_map, (length_startsAt hidx).1, List.length_replicate]
    omega
  rw [List.length_flatMap, List.map_congr_left hrows, List.map_const', List.sum_replicate,
    smul_eq_mul, indexArrays, List.length_map, List.length_range]

/-- When the batch size divides the number of sequences, every array fills
its batch. -/
theorem length_of_mem_indexArrays (hb : 1 ≤ gen.batchSize)
    (hperm : permutation.Perm (List.range gen.nSequences)) (hdvd : gen.batchSize ∣ gen.nSequences)
    {indexArray : List Nat} (hmem : indexArray ∈ indexArrays gen permutation) :
    indexArray.length = gen.batchSize := by
  obtain ⟨k, hk⟩ := hdvd
  have hlen : permutation.length = gen.nSequences := by simpa using hperm.length_eq
  have hceil : (gen.nSequences + gen.batchSize - 1) / gen.batchSize = k := by
    rw [hk, Nat.add_sub_assoc hb, Nat.mul_add_div hb, Nat.div_eq_of_lt (by omega), Nat.add_zero]
  rw [indexArrays, hceil, List.mem_map] at hmem
  obtain ⟨j, hj, rfl⟩ := hmem
  have hle : (j + 1) * gen.batchSize ≤ gen.nSequences := by
    rw [hk, Nat.mul_comm]
    exact Nat.mul_le_mul_left _ (List.mem_range.mp hj)
  rw [Python.length_slice, hlen, Nat.min_eq_left hle, Nat.succ_mul, Nat.add_sub_cancel_left]

theorem startsAt_perm (hperm : permutation.Perm (List.range gen.nSequences)) :
    (startsAt gen permutation).Perm gen.possibleStarts := by
  have htake : ∀ n, startsAt gen (List.range n) = gen.possibleStarts.take n := by
    intro n
    induction n with
    | zero => rfl
    | succ n ih =>
        have hone : startsAt gen [n] = gen.possibleStarts[n]?.toList := by
          cases hn : gen.possibleStarts[n]? <;> simp [startsAt, hn]
        rw [List.range_succ, List.take_add_one, ← ih, ← hone]
        exact List.filterMap_append
  have hrange : startsAt gen (List.range gen.nSequences) = gen.possibleStarts := by
    rw [htake, SequenceGenerator.nSequences, List.take_length]
  exact hrange ▸ hperm.filterMap _

/-- The rows of an epoch are those of the permuted starts, one each and no
others, exactly if the batch size divides their number. -/
theorem epochRows_iff (hb : 1 ≤ gen.batchSize)
    (hperm : permutation.Perm (List.range gen.nSequences)) :
    (∃ rows all, epochRows fl gen permutation = .ok rows ∧ createAll fl gen = .ok all ∧
      rows = (startsAt gen permutation).map (sequenceRow fl gen) ∧ rows.Perm all) ↔
      gen.batchSize ∣ gen.nSequences := by
  have hlen : (startsAt gen permutation).length = gen.nSequences := (startsAt_perm hperm).length_eq
  constructor
  · intro h
    obtain ⟨rows, all, hrows, -, heq, -⟩ := h
    rw [epochRows_eq hb hperm] at hrows
    have hcount := length_epoch fl hb hperm
    rw [Except.ok.inj hrows, heq, List.length_map, hlen] at hcount
    exact ⟨_, hcount.trans (Nat.mul_comm _ _)⟩
  · intro hdvd
    refine ⟨_, _, epochRows_eq hb hperm, createAll_eq, ?_⟩
    have hrows : ((indexArrays gen permutation).flatMap fun indexArray =>
        (startsAt gen indexArray).map (sequenceRow fl gen) ++
          List.replicate (gen.batchSize - indexArray.length) (zeroRow fl shape gen.nt)) =
        (startsAt gen permutation).map (sequenceRow fl gen) := by
      have hfull : ∀ indexArray ∈ indexArrays gen permutation,
          (startsAt gen indexArray).map (sequenceRow fl gen) ++
            List.replicate (gen.batchSize - indexArray.length) (zeroRow fl shape gen.nt) =
          (startsAt gen indexArray).map (sequenceRow fl gen) := by
        intro indexArray hmem
        rw [length_of_mem_indexArrays hb hperm hdvd hmem, Nat.sub_self, List.replicate_zero,
          List.append_nil]
      rw [List.flatMap_congr hfull, ← List.map_flatMap]
      congr 1
      conv_rhs => rw [← (flatten_indexArrays hb hperm).1]
      simp only [startsAt, List.filterMap_flatten, List.flatMap_def]
      rfl
    rw [hrows]
    exact ⟨rfl, (startsAt_perm hperm).map _⟩

/-! ## constructed generators -/

variable [DecidableEq σ] {data : DataSet (Image α shape) σ} {nt batchSize : Nat}
  {shuffle : Option Shuffle} {outputMode : OutputMode} {mode : SequenceStartMode}
  {nSeq : Option Int}

/-- What the constructor keeps of its arguments. -/
theorem init_eq_ok (h : SequenceGenerator.init data nt batchSize shuffle outputMode mode nSeq =
    some (.ok gen)) : data.X ≠ [] ∧ gen.batchSize = batchSize ∧ ∃ starts,
      chooseStarts mode data.sources data.X.length nt = some (.ok starts) ∧
        gen.possibleStarts = selectStarts nSeq (shuffleStarts shuffle starts) := by
  unfold SequenceGenerator.init at h
  split at h
  · simp at h
  · next hne =>
    split at h
    · simp at h
    · simp at h
    · next starts hstarts =>
      obtain rfl := Except.ok.inj (Option.some.inj h)
      exact ⟨hne, rfl, starts, hstarts, rfl⟩

/-- The constructor needs an image and a sequence length. -/
theorem exists_init (hX : data.X ≠ []) (hnt : 1 ≤ nt) (batchSize : Nat) (shuffle : Option Shuffle)
    (outputMode : OutputMode) (mode : SequenceStartMode) (nSeq : Option Int) :
    ∃ gen, SequenceGenerator.init data nt batchSize shuffle outputMode mode nSeq =
      some (.ok gen) := by
  obtain ⟨starts, hstarts⟩ : ∃ starts,
      chooseStarts mode data.sources data.X.length nt = some (.ok starts) := by
    cases mode with
    | all => exact ⟨_, rfl⟩
    | unique =>
        obtain ⟨starts, hloop, -⟩ := uniqueLoop_ends data.sources hnt
        rw [data.length_sources] at hloop
        exact ⟨starts, hloop _ (Nat.lt_succ_self _)⟩
  unfold SequenceGenerator.init
  rw [if_neg hX]
  split
  · next h => simp [hstarts] at h
  · next h => simp [hstarts] at h
  · exact ⟨_, rfl⟩

/-- **One epoch** of a generator, whatever its data, modes and shuffles:
its batches hold the sequences of the permuted starts, one row each and no
other rows, exactly if the batch size divides the number of sequences. -/
theorem epoch_iff (hgen : SequenceGenerator.init data nt batchSize shuffle outputMode mode nSeq =
      some (.ok gen)) (hb : 1 ≤ batchSize) (fl : Floats α) (permutation : List Nat)
    (hperm : permutation.Perm (List.range gen.nSequences)) :
    (∃ rows all, epochRows fl gen permutation = .ok rows ∧ createAll fl gen = .ok all ∧
      rows = (startsAt gen permutation).map (sequenceRow fl gen) ∧ rows.Perm all) ↔
      batchSize ∣ gen.nSequences := by
  obtain ⟨-, hsize, -⟩ := init_eq_ok hgen
  rw [← hsize]
  exact epochRows_iff (hsize ▸ hb) hperm

/-- One pixel with three channels. -/
def pixel : Shape := ⟨1, 1, 3, Nat.le_refl 3⟩

/-- The normalisation in exact numbers. -/
def exactFloats : Floats ℚ where
  zero := 0
  normalize x := (x - 235.2141571044922) / (321.46630859375 - 235.2141571044922)
  astypeFloat32 x := x

/-- Images of one source, at 240 K, 241 K and so on. -/
def warming (n : Nat) : DataSet (Image ℚ pixel) String where
  X := (List.range n).map fun i _ _ channel => if channel.val = 2 then 0 else 240 + i
  sources := List.replicate n "./testData2"
  length_sources := by simp

theorem epoch_iff_even : ∃ gen,
    SequenceGenerator.init (warming 3) 1 2 none .error .all none = some (.ok gen) ∧
    ∃ rows all, epochRows exactFloats gen [1, 0] = .ok rows ∧ createAll exactFloats gen = .ok all ∧
      rows = (startsAt gen [1, 0]).map (sequenceRow exactFloats gen) ∧ rows.Perm all := by
  obtain ⟨gen, hgen⟩ : ∃ gen,
      SequenceGenerator.init (warming 3) 1 2 none .error .all none = some (.ok gen) := ⟨_, rfl⟩
  obtain ⟨-, -, starts, hstarts, hpossible⟩ := init_eq_ok hgen
  obtain rfl : [0, 1] = starts := Except.ok.inj (Option.some.inj hstarts)
  have hn : gen.nSequences = 2 := congrArg List.length hpossible
  exact ⟨gen, hgen, (epoch_iff hgen (by decide) exactFloats [1, 0] (by rw [hn]; decide)).mpr
    ⟨1, by rw [hn]⟩⟩

/-- Three sequences in batches of two: the fourth row is made of zeros. -/
theorem partialBatch_padded : ∃ gen,
    SequenceGenerator.init (warming 4) 1 2 none .error .all none = some (.ok gen) ∧
    ∃ rows all, epochRows exactFloats gen [0, 1, 2] = .ok rows ∧ createAll exactFloats gen = .ok all ∧
      rows.length = 4 ∧ all.length = 3 ∧ rows[3]? = some [fun _ _ _ => 0] :=
  ⟨_, rfl, _, _, rfl, rfl, rfl, rfl, rfl⟩

/-! ## the starts of a constructed generator -/

/-- Without shuffling and truncation the starts are those that were chosen. -/
theorem possibleStarts_of_init
    (h : SequenceGenerator.init data nt batchSize none outputMode mode none = some (.ok gen)) :
    chooseStarts mode data.sources data.X.length nt = some (.ok gen.possibleStarts) := by
  obtain ⟨-, -, starts, hstarts, hpossible⟩ := init_eq_ok h
  rw [hpossible]
  exact hstarts

/-- What the mode `unique` chooses are sequences of one source. -/
theorem mem_of_unique (hblocks : InBlocks data.sources) (hnt : 1 ≤ nt) {starts chosen : List Nat}
    (hall : AllSequences data.sources nt starts)
    (h : chooseStarts .unique data.sources data.X.length nt = some (.ok chosen)) :
    ∀ s ∈ chosen, s ∈ starts := by
  obtain ⟨ts, hts, hgreedy⟩ := uniqueLoop_ends data.sources hnt
  have hsel := uniqueSelection_of_greedy hnt hgreedy
  have hloop := hts (data.sources.length + 1) (Nat.lt_succ_self _)
  rw [chooseStarts, ← data.length_sources, hloop] at h
  obtain rfl : ts = chosen := Except.ok.inj (Option.some.inj h)
  exact fun s hs => (hall.mem_iff s).mpr ⟨hsel.inside s hs, hsel.oneLabel hblocks s hs⟩

/-- **The mode `all`** lets a generator be constructed, with the increasing
list of all sequences of one source and with every start of the mode
`unique`, exactly if there is an image and either no sequence at all or a
last sequence that straddles two sources and is the only one that does. -/
theorem allStarts_iff (hblocks : InBlocks data.sources) (hnt : 1 ≤ nt) :
    (∃ gen, SequenceGenerator.init data nt batchSize none outputMode .all none = some (.ok gen) ∧
      AllSequences data.sources nt gen.possibleStarts ∧
      ∀ unique, SequenceGenerator.init data nt batchSize none outputMode .unique none =
        some (.ok unique) → ∀ s ∈ unique.possibleStarts, s ∈ gen.possibleStarts) ↔
      data.X ≠ [] ∧ (data.X.length < nt ∨ LastStraddles data.sources nt) := by
  rw [← data.length_sources, ← allStarts_allSequences_iff hblocks hnt, data.length_sources]
  constructor
  · intro hconstructed
    obtain ⟨gen, hgen, hall, -⟩ := hconstructed
    obtain ⟨hX, -⟩ := init_eq_ok hgen
    have hstarts : allStarts data.X.length nt = gen.possibleStarts := by
      simpa [chooseStarts] using possibleStarts_of_init hgen
    rw [← hstarts] at hall
    exact ⟨hX, hall⟩
  · intro hcond
    obtain ⟨hX, hall⟩ := hcond
    obtain ⟨gen, hgen⟩ := exists_init hX hnt batchSize none outputMode .all none
    have hstarts : allStarts data.X.length nt = gen.possibleStarts := by
      simpa [chooseStarts] using possibleStarts_of_init hgen
    rw [hstarts] at hall
    exact ⟨gen, hgen, hall, fun unique hunique =>
      mem_of_unique hblocks hnt hall (possibleStarts_of_init hunique)⟩

/-- The data sets of `process_netCDF.py` have one source, so the mode `all`
always misses the last sequence. -/
theorem allStarts_processData {euStack : String → Option (Image α shape)} {dataDir : String}
    {recordings : List String} {data : DataSet (Image α shape) String}
    (h : processData euStack dataDir recordings = some data) (hnt : 1 ≤ nt) :
    AllSequences data.sources nt (allStarts data.sources.length nt) ↔ recordings.length < nt := by
  obtain ⟨hlen, hsources⟩ := processData_spec h
  have hlabel : ∀ i < data.sources.length, data.sources[i]? = some dataDir := by
    intro i hi
    rw [data.length_sources] at hi
    rw [hsources, List.getElem?_replicate, if_pos hi]
  have hblocks : InBlocks data.sources := fun i j l hij hjl hl _ => by
    rw [hlabel i (by omega), hlabel j (by omega)]
  rw [allStarts_allSequences_iff hblocks hnt, data.length_sources, hlen]
  refine or_iff_left fun hstraddles => ?_
  obtain ⟨hne, -⟩ := hstraddles
  rw [data.length_sources] at hne
  by_cases hX : data.X.length = 0
  · rw [hX] at hne
    exact hne (congrArg _ (by omega))
  · refine hne ?_
    rw [← data.length_sources] at hX ⊢
    rw [hlabel _ (by omega), hlabel _ (by omega)]

/-- Images with the given sources, all alike. -/
def labelled (sources : List String) : DataSet (Image ℚ pixel) String where
  X := sources.map fun _ _ _ _ => 240
  sources := sources
  length_sources := (List.length_map ..).symm

theorem inBlocks_of_three (a b c : String) (h : a = c → b = a) : InBlocks [a, b, c] := by
  intro i j l hij hjl hl hends
  simp only [List.length_cons, List.length_nil] at hl
  interval_cases l <;> interval_cases j <;> interval_cases i <;> simp_all

/-- Two images of one source before one of another: the first two make the
only sequence. -/
theorem allStarts_iff_straddling : ∃ gen,
    SequenceGenerator.init (labelled ["a", "a", "b"]) 2 4 none .error .all none = some (.ok gen) ∧
    gen.possibleStarts = [0] ∧ AllSequences ["a", "a", "b"] 2 gen.possibleStarts := by
  have hfront : ∀ i, i + 1 < 3 → ["a", "a", "b"][i]? = ["a", "a", "b"][0]? := by
    intro i hi
    obtain rfl | rfl : i = 0 ∨ i = 1 := by omega
    · rfl
    · rfl
  have hblocks : InBlocks (labelled ["a", "a", "b"]).sources :=
    inBlocks_of_three "a" "a" "b" (by decide)
  have hiff := @allStarts_iff ℚ String pixel _ _ 2 4 .error hblocks (by decide)
  obtain ⟨gen, hgen, hall, -⟩ := hiff.mpr ⟨by simp [labelled], .inr ⟨by decide, .inr hfront⟩⟩
  refine ⟨gen, hgen, ?_, hall⟩
  simpa [chooseStarts, allStarts, labelled, eq_comm] using possibleStarts_of_init hgen

/-- One image of a source before two of another: the mode `all` starts at
the first, the mode `unique` at the second. -/
theorem straddling_chosen : InBlocks ["a", "b", "b"] ∧ ∃ gen unique,
    SequenceGenerator.init (labelled ["a", "b", "b"]) 2 4 none .error .all none = some (.ok gen) ∧
    SequenceGenerator.init (labelled ["a", "b", "b"]) 2 4 none .error .unique none =
      some (.ok unique) ∧
    gen.possibleStarts = [0] ∧ unique.possibleStarts = [1] ∧
    ¬ AllSequences ["a", "b", "b"] 2 gen.possibleStarts := by
  have hX : (labelled ["a", "b", "b"]).X ≠ [] := by simp [labelled]
  have hnt : 1 ≤ 2 := by decide
  obtain ⟨gen, hgen⟩ := exists_init hX hnt 4 none .error .all none
  obtain ⟨unique, hunique⟩ := exists_init hX hnt 4 none .error .unique none
  have hall : gen.possibleStarts = [0] :=
    (Except.ok.inj (Option.some.inj (possibleStarts_of_init hgen))).symm
  have hchosen : unique.possibleStarts = [1] := by
    have hloop : chooseStarts .unique ["a", "b", "b"] 3 2 = some (.ok [1]) := by decide
    have h := possibleStarts_of_init hunique
    exact (Except.ok.inj (Option.some.inj (hloop.symm.trans h))).symm
  refine ⟨inBlocks_of_three "a" "b" "b" (by decide), gen, unique, hgen, hunique, hall, hchosen,
    fun h => ?_⟩
  have hmem := (h.mem_iff 0).mp (by rw [hall]; decide)
  exact absurd (hmem.2 1 (by decide)) (by decide)

end ContainerHackathon.Training
