import ContainerHackathon.Training.PredNet.Extrapolation

/-!
# Training.PredNet.Loss

What `kitti_train` minimises.

The network returns the mean errors of its layers at every time, and two
dense layers that are not trained weight them: by layer, of which only the
lowest counts, and by time, of which the first does not count.  With the
default error activation the result is half of the mean absolute error of
the predictions after the first (`sampleLoss_eq`).

The numbers are those of an ordered field; no operation rounds.
-/

namespace ContainerHackathon.Training.PredNet

open Tensors

variable {α : Type} [Field α] [LinearOrder α] {net : PredNet} {k : Kernels α} {image : Extent}

/-! ## the layers after the network -/

/-- `error_activation='relu'` and `K.mean`. -/
def withRelu (k : Kernels α) : Kernels α :=
  { k with errorActivation := fun x => max x 0, mean := fun xs => xs.sum / xs.length }

/-- `Dense(1)`. -/
def dense (weights : List α) (bias : α) (xs : List α) : α :=
  (List.zipWith (· * ·) xs weights).sum + bias

def layerLossWeights (α : Type) [Field α] : List α := [1, 0, 0, 0]

/-- `time_loss_weights`; `none` is the error of `1. / 0` or of assigning to
the first of no weights. -/
def timeLossWeights (α : Type) [Field α] (nt : Nat) : Option (List α) :=
  if nt ≤ 1 then none
  else some ((List.replicate nt (1 / ((nt : α) - 1))).set 0 0)

/-- The loss of a sample whose layers have these errors at each time: the
absolute difference of `final_errors` and the target, which is zero. -/
def sampleLoss (nt : Nat) (errors : List (List α)) : Option α :=
  (timeLossWeights α nt).map fun weights =>
    |dense weights 0 (errors.map (dense (layerLossWeights α) 0)) - 0|

/-! ## the error of a prediction -/

/-- The mean absolute difference. -/
def absError (x y : Tensor α) : α :=
  (∑ i ∈ Finset.range x.extent.rows, ∑ j ∈ Finset.range x.extent.cols,
    ∑ c ∈ Finset.range x.extent.channels, |x.get i j c - y.get i j c|) /
      (x.extent.rows * x.extent.cols * x.extent.channels : Nat)

section sum

omit [LinearOrder α]

theorem sum_map_range (n : Nat) (f : Nat → α) :
    ((List.range n).map f).sum = ∑ i ∈ Finset.range n, f i := by
  induction n with
  | zero => rfl
  | succ n ih => rw [List.range_succ, List.map_append, List.sum_append, ih, List.map_singleton,
      List.sum_singleton, Finset.sum_range_succ]

theorem sum_flatMap_range (n : Nat) (f : Nat → List α) :
    ((List.range n).flatMap f).sum = ∑ i ∈ Finset.range n, (f i).sum := by
  induction n with
  | zero => rfl
  | succ n ih => rw [List.range_succ, List.flatMap_append, List.sum_append, ih,
      List.flatMap_singleton, Finset.sum_range_succ]

/-- In which order the axes are flattened does not matter for the sum. -/
theorem sum_flatten (net : PredNet) (x : Tensor α) : (flatten net x).sum =
    ∑ i ∈ Finset.range x.extent.rows, ∑ j ∈ Finset.range x.extent.cols,
      ∑ c ∈ Finset.range x.extent.channels, x.get i j c := by
  rw [flatten]
  split
  · simp only [sum_flatMap_range, sum_map_range]
    rw [Finset.sum_comm]
    exact Finset.sum_congr rfl fun i _ => Finset.sum_comm
  · simp only [sum_flatMap_range, sum_map_range]

end sum

variable [IsStrictOrderedRing α]

/-- **The mean of the error units** is half of the mean absolute difference:
one of the two rectified differences is zero, and the other the absolute one. -/
theorem mean_errorUnits {p a e : Tensor α} (hextent : p.extent = a.extent)
    (h : errorUnits (withRelu k) p a = .ok e) :
    (withRelu k).mean (flatten net e) = absError p a / 2 := by
  rw [errorUnits, zipWith_of_extent _ hextent, zipWith_of_extent _ hextent.symm] at h
  have h : shapeError (join (Tensor.map (withRelu k).errorActivation
        ⟨p.extent, fun i j c => p.get i j c - a.get i j c⟩)
      (Tensor.map (withRelu k).errorActivation
        ⟨a.extent, fun i j c => a.get i j c - p.get i j c⟩)) = .ok e := by
    rw [← concatenate_pair]
    exact h
  rw [join, if_pos (by rw [extent_map, extent_map, hextent]; exact ⟨rfl, rfl⟩)] at h
  obtain rfl := Except.ok.inj h
  rw [withRelu]
  simp only [sum_flatten, length_flatten, Tensor.map, hextent]
  have hchannels : ∀ i j, (∑ c ∈ Finset.range (a.extent.channels + a.extent.channels),
      if c < a.extent.channels then max (p.get i j c - a.get i j c) 0
      else max (a.get i j (c - a.extent.channels) - p.get i j (c - a.extent.channels)) 0) =
      ∑ c ∈ Finset.range a.extent.channels, |p.get i j c - a.get i j c| := by
    intro i j
    rw [Finset.sum_range_add, ← Finset.sum_add_distrib]
    refine Finset.sum_congr rfl fun c hc => ?_
    rw [if_pos (Finset.mem_range.mp hc), if_neg (by omega), Nat.add_sub_cancel_left,
      ← neg_sub (p.get i j c) (a.get i j c), max_zero_add_max_neg_zero_eq_abs_self]
  simp only [hchannels, absError, hextent]
  rw [div_div]
  congr 1
  push_cast
  ring

/-! ## the loss -/

/-- The errors that a step returns: the lowest layer comes first. -/
theorem errors_of_step {states states' : States α} {a p : Tensor α} {o : Output α}
    (hmode : net.outputMode = "error") (hextrap : net.extrapStartTime = none)
    (hs : Fits net image states) (hchannels : image.channels = net.stackSize 0)
    (ha : a.extent = image) (h : step net (withRelu k) states a = .ok (o, p, states')) :
    Fits net image states' ∧ ∃ errors, o = .vector (absError p a / 2 :: errors) ∧
      errors.length + 1 = net.nbLayers := by
  obtain ⟨hprediction, hfits⟩ : p.extent = image ∧ Fits net image states' := by
    rcases step_spec (k := withRelu k) hs hchannels ha with ⟨-, r, hr, hspec⟩ | ⟨-, e, he⟩
    · obtain rfl := Except.ok.inj (h.symm.trans hr)
      exact ⟨hspec.prediction, hspec.states⟩
    · rw [h] at he
      cases he
  have hlayer : net.outputLayer = none := if_neg (not_mem_layerOutputModes (by rw [hmode]; decide))
  obtain ⟨n, hn⟩ : ∃ n, net.nbLayers = n + 1 := ⟨_, net.length_aFiltSizes.symm⟩
  rw [step, hextrap] at h
  obtain ⟨down, up, -, hup, hp, ho, -⟩ := stepActual_eq_ok h
  rw [hn] at hup
  obtain ⟨p', e, -, hp', he, hhead, hlength⟩ := feedforward_eq_ok hup
  obtain rfl := Option.some.inj (hp.symm.trans hp')
  refine ⟨hfits, ?_⟩
  obtain ⟨es, hes⟩ := List.head?_eq_some_iff.mp hhead
  rw [stepOutput, hlayer] at ho
  have ho : Output.vector (up.e.map fun e => (withRelu k).mean (flatten net e)) = o := by
    simpa [hmode] using ho
  refine ⟨es.map fun e => (withRelu k).mean (flatten net e), ?_, ?_⟩
  · rw [← ho, hes, List.map_cons, mean_errorUnits (hprediction.trans ha.symm) he]
  · rw [List.length_map, hn, ← hlength, hes, List.length_cons]

/-- The errors that a run returns. -/
theorem errors_of_run {states states' : States α} {frames : List (Tensor α)}
    {os : List (Output α × Tensor α)} (hmode : net.outputMode = "error")
    (hextrap : net.extrapStartTime = none) (hs : Fits net image states)
    (hchannels : image.channels = net.stackSize 0) (hframes : ∀ x ∈ frames, x.extent = image)
    (h : Feedback.run (step net (withRelu k)) states frames = .ok (os, states')) :
    ∃ errors : List (List α), os.map Prod.fst = errors.map Output.vector ∧
      (∀ xs ∈ errors, xs.length = net.nbLayers) ∧
      errors.map (fun xs => xs.headD 0) =
        List.zipWith (fun p x => absError p x / 2) (os.map Prod.snd) frames := by
  induction frames generalizing states os with
  | nil =>
      obtain ⟨rfl, -⟩ := Prod.mk.inj (Except.ok.inj h)
      exact ⟨[], rfl, fun _ h => absurd h List.not_mem_nil, rfl⟩
  | cons x frames ih =>
      rw [List.forall_mem_cons] at hframes
      obtain ⟨o, p, s', os', hstep, hrun, rfl⟩ := Feedback.run_cons_eq_ok.mp h
      obtain ⟨hfits, es, rfl, hlength⟩ := errors_of_step hmode hextrap hs hchannels hframes.1 hstep
      obtain ⟨errors, hout, hlengths, hheads⟩ := ih hfits hframes.2 hrun
      refine ⟨(absError p x / 2 :: es) :: errors, ?_, ?_, ?_⟩
      · rw [List.map_cons, List.map_cons, hout]
      · exact List.forall_mem_cons.mpr ⟨hlength, hlengths⟩
      · rw [List.map_cons, List.map_cons, List.zipWith_cons_cons, hheads]
        rfl

omit [LinearOrder α] [IsStrictOrderedRing α] in
/-- Of four layers only the lowest counts. -/
theorem dense_layerLossWeights {xs : List α} (h : xs.length = 4) :
    dense (layerLossWeights α) 0 xs = xs.headD 0 := by
  match xs, h with
  | [a, b, c, d], _ => simp [dense, layerLossWeights]

omit [LinearOrder α] [IsStrictOrderedRing α] in
theorem sum_zipWith_replicate (xs : List α) (w : α) :
    (List.zipWith (· * ·) xs (List.replicate xs.length w)).sum = xs.sum * w := by
  induction xs with
  | nil => simp
  | cons x xs ih =>
      rw [List.length_cons, List.replicate_succ, List.zipWith_cons_cons, List.sum_cons, ih,
        List.sum_cons, add_mul]

omit [LinearOrder α] [IsStrictOrderedRing α] in
/-- All times but the first count the same. -/
theorem dense_timeLossWeights {xs : List α} (h : 1 < xs.length) :
    ∃ weights, timeLossWeights α xs.length = some weights ∧
      dense weights 0 xs = xs.tail.sum / ((xs.length : α) - 1) := by
  refine ⟨_, if_neg (Nat.not_le.mpr h), ?_⟩
  cases xs with
  | nil => cases h
  | cons x xs =>
      rw [dense, List.length_cons, List.replicate_succ, List.set_cons_zero, List.zipWith_cons_cons,
        List.tail_cons, List.sum_cons, sum_zipWith_replicate, mul_zero, zero_add, add_zero,
        mul_one_div]

theorem absError_nonneg (x y : Tensor α) : 0 ≤ absError x y := by
  rw [absError]
  refine div_nonneg ?_ (Nat.cast_nonneg _)
  exact Finset.sum_nonneg fun i _ => Finset.sum_nonneg fun j _ =>
    Finset.sum_nonneg fun c _ => abs_nonneg _

/-- **The loss is half of the mean absolute error** of all predictions but
the first. -/
theorem sampleLoss_eq {frames : List (Tensor α)} {os : List (Output α × Tensor α)} {s : States α}
    (hmode : net.outputMode = "error") (hextrap : net.extrapStartTime = none)
    (hfour : net.nbLayers = 4) (hchannels : image.channels = net.stackSize 0)
    (hframes : ∀ x ∈ frames, x.extent = image) (hnt : 1 < frames.length)
    (h : call net (withRelu k) image frames = .ok (os, s)) :
    ∃ errors : List (List α), os.map Prod.fst = errors.map Output.vector ∧
      sampleLoss frames.length errors = some
        ((List.zipWith absError (os.map Prod.snd) frames).tail.sum /
          ((frames.length : α) - 1) / 2) := by
  obtain ⟨errors, hout, hlengths, hheads⟩ := errors_of_run hmode hextrap
    (fits_getInitialState net image) hchannels hframes h
  refine ⟨errors, hout, ?_⟩
  have hlayers : errors.map (dense (layerLossWeights α) 0) = errors.map fun xs => xs.headD 0 :=
    List.map_congr_left fun xs hxs => dense_layerLossWeights ((hlengths xs hxs).trans hfour)
  have hhalf : List.zipWith (fun p x => absError p x / 2) (os.map Prod.snd) frames =
      (List.zipWith absError (os.map Prod.snd) frames).map (· * (1 / 2)) := by
    rw [List.map_zipWith]
    simp only [mul_one_div]
  obtain ⟨absErrors, habs⟩ : ∃ xs, xs = List.zipWith absError (os.map Prod.snd) frames := ⟨_, rfl⟩
  have hlength : (absErrors.map (· * (1 / 2))).length = frames.length := by
    rw [habs, List.length_map, List.length_zipWith, List.length_map, Feedback.length_of_run h,
      Nat.min_self]
  have hnonneg : 0 ≤ absErrors.tail.sum := by
    refine List.sum_nonneg fun x hx => ?_
    rw [habs] at hx
    obtain ⟨i, hi, rfl⟩ := List.mem_iff_getElem.mp (List.mem_of_mem_tail hx)
    rw [List.getElem_zipWith]
    exact absError_nonneg _ _
  obtain ⟨weights, hweights, hdense⟩ := dense_timeLossWeights (hlength ▸ hnt)
  rw [hlength] at hweights hdense
  rw [sampleLoss, hweights, Option.map_some, hlayers, hheads, hhalf, ← habs, hdense,
    ← List.map_tail, List.sum_map_mul_right, List.map_id', sub_zero, abs_of_nonneg]
  · congr 1
    ring
  · have hlast : (0 : α) ≤ (frames.length : α) - 1 := by
      rw [sub_nonneg]
      exact_mod_cast hnt.le
    positivity

/-! ## the network of `kitti_train` -/

def kittiPredNet : PredNet where
  stackSizes := [3, 48, 96, 192]
  rStackSizes := [3, 48, 96, 192]
  aFiltSizes := [3, 3, 3]
  ahatFiltSizes := [3, 3, 3, 3]
  rFiltSizes := [3, 3, 3, 3]
  outputMode := "error"
  extrapStartTime := none
  dataFormat := "channels_first"
  returnSequences := true
  length_rStackSizes := rfl
  length_aFiltSizes := rfl
  length_ahatFiltSizes := rfl
  length_rFiltSizes := rfl
  outputMode_mem := List.mem_append_left _ (by decide)
  dataFormat_mem := by decide

/-- Ten frames of one grey, for a network whose weights are all zero. -/
theorem sampleLoss_eq_kitti : ∃ os s, call kittiPredNet
      (withRelu ⟨fun _ _ _ _ _ _ => (0 : ℚ), id, id, 1, List.sum⟩) ⟨128, 160, 3⟩
      (List.replicate 10 (Tensor.fill ⟨128, 160, 3⟩ (1 / 2))) = .ok (os, s) ∧
    ∃ errors : List (List ℚ), os.map Prod.fst = errors.map Output.vector ∧
      sampleLoss 10 errors = some
        ((List.zipWith absError (os.map Prod.snd)
          (List.replicate 10 (Tensor.fill ⟨128, 160, 3⟩ (1 / 2)))).tail.sum / (((10 : Nat) : ℚ) - 1) / 2) := by
  have hframes : ∀ x ∈ List.replicate 10 (Tensor.fill ⟨128, 160, 3⟩ (1 / 2 : ℚ)),
      x.extent = ⟨128, 160, 3⟩ := fun x hx => by rw [List.eq_of_mem_replicate hx, extent_fill]
  have hruns : Runs kittiPredNet ⟨128, 160, 3⟩ :=
    runs_iff.mpr ⟨by decide, by decide, .inl (by decide)⟩
  obtain ⟨os, s, h, -⟩ := exists_call (k := withRelu ⟨fun _ _ _ _ _ _ => (0 : ℚ), id, id, 1, List.sum⟩)
    rfl hruns hframes
  exact ⟨os, s, h, sampleLoss_eq rfl rfl rfl rfl hframes (by decide) h⟩

end ContainerHackathon.Training.PredNet
