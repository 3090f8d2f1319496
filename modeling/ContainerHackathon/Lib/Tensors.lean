import Mathlib

/-!
# Tensors

Images with channels, as the layers of a convolutional network pass them on:
an extent and the number at each position.  Positions outside the extent
mean nothing.

Elementwise operations broadcast an axis of size one; `concatenate` joins
along the channels and wants the other axes to agree.
-/

namespace Tensors

/-- The sizes of the axes. -/
structure Extent where
  rows : Nat
  cols : Nat
  channels : Nat
  deriving DecidableEq, Repr

structure Tensor (α : Type) where
  extent : Extent
  get : Nat → Nat → Nat → α

/-- Why an operation has no result. -/
inductive ShapeError
  | broadcast
  | concatenate
  | nothingToConcatenate
  deriving DecidableEq, Repr

variable {α β γ : Type} {x y : Tensor α} {xs : List (Tensor α)}

def Tensor.map (f : α → β) (x : Tensor α) : Tensor β := ⟨x.extent, fun i j k => f (x.get i j k)⟩

/-- The tensor with one number everywhere. -/
def Tensor.fill (extent : Extent) (a : α) : Tensor α := ⟨extent, fun _ _ _ => a⟩

@[simp] theorem extent_map (f : α → β) (x : Tensor α) : (x.map f).extent = x.extent := rfl

@[simp] theorem extent_fill (extent : Extent) (a : α) : (Tensor.fill extent a).extent = extent := rfl

/-! ## elementwise operations -/

/-- The size of an axis when operands of sizes `m` and `n` are combined. -/
def broadcastAxis (m n : Nat) : Except ShapeError Nat :=
  if m = n then .ok m else if m = 1 then .ok n else if n = 1 then .ok m else .error .broadcast

/-- Where the operand of size `m` is read for position `i`. -/
def broadcastIndex (m n i : Nat) : Nat := if m = n then i else if m = 1 then 0 else i

def zipWith (f : α → β → γ) (x : Tensor α) (y : Tensor β) : Except ShapeError (Tensor γ) := do
  let rows ← broadcastAxis x.extent.rows y.extent.rows
  let cols ← broadcastAxis x.extent.cols y.extent.cols
  let channels ← broadcastAxis x.extent.channels y.extent.channels
  return ⟨⟨rows, cols, channels⟩, fun i j k => f
    (x.get (broadcastIndex x.extent.rows y.extent.rows i)
      (broadcastIndex x.extent.cols y.extent.cols j)
      (broadcastIndex x.extent.channels y.extent.channels k))
    (y.get (broadcastIndex y.extent.rows x.extent.rows i)
      (broadcastIndex y.extent.cols x.extent.cols j)
      (broadcastIndex y.extent.channels x.extent.channels k))⟩

theorem broadcastAxis_self (n : Nat) : broadcastAxis n n = .ok n := if_pos rfl

theorem broadcastIndex_self (n i : Nat) : broadcastIndex n n i = i := if_pos rfl

/-- Tensors of one extent are combined position by position. -/
theorem zipWith_of_extent {x : Tensor α} {y : Tensor β} (f : α → β → γ)
    (h : x.extent = y.extent) :
    zipWith f x y = .ok ⟨x.extent, fun i j k => f (x.get i j k) (y.get i j k)⟩ := by
  simp only [zipWith, ← h, broadcastAxis_self, broadcastIndex_self]
  rfl

/-! ## joining channels -/

def join (x y : Tensor α) : Except ShapeError (Tensor α) :=
  if x.extent.rows = y.extent.rows ∧ x.extent.cols = y.extent.cols then
    .ok ⟨{ x.extent with channels := x.extent.channels + y.extent.channels }, fun i j k =>
      if k < x.extent.channels then x.get i j k else y.get i j (k - x.extent.channels)⟩
  else .error .concatenate

/-- Join along the channels, in the order of the list. -/
def concatenate : List (Tensor α) → Except ShapeError (Tensor α)
  | [] => .error .nothingToConcatenate
  | x :: xs => xs.foldlM join x

theorem concatenate_pair (x y : Tensor α) : concatenate [x, y] = join x y := by
  simp only [concatenate, List.foldlM_cons, List.foldlM_nil]
  cases join x y <;> rfl

theorem concatenate_triple (x y z : Tensor α) :
    concatenate [x, y, z] = (join x y).bind fun xy => join xy z := by
  simp only [concatenate, List.foldlM_cons, List.foldlM_nil]
  cases join x y with
  | error e => rfl
  | ok xy => cases h : join xy z <;> simp [Bind.bind, Except.bind, h, Pure.pure, Except.pure]

/-- The channels add up. -/
theorem extent_of_join {z : Tensor α} (h : join x y = .ok z) :
    z.extent = { x.extent with channels := x.extent.channels + y.extent.channels } := by
  rw [join] at h
  split at h
  · rw [← Except.ok.inj h]
  · cases h

/-- Images of one size can be joined, and no others. -/
theorem exists_join_iff : (∃ z, join x y = .ok z) ↔
    x.extent.rows = y.extent.rows ∧ x.extent.cols = y.extent.cols := by
  rw [join]
  split
  · next h => exact ⟨fun _ => h, fun _ => ⟨_, rfl⟩⟩
  · next h => exact iff_of_false (fun ⟨_, hz⟩ => by cases hz) h

end Tensors
