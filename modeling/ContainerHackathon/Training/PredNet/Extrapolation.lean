import ContainerHackathon.Training.PredNet.Shapes

/-!
# Training.PredNet.Extrapolation

A `PredNet` with an `extrap_start_time`.

From that time on a step reads its own last prediction instead of the frame,
so the layer does what it would do without extrapolation on frames that end
in its predictions (`call_iff_plain`).  A prediction is made on the way down,
before the frame is looked at; hence it depends on earlier frames only, and
on none from `extrap_start_time` on (`predictions_of_agree`).
-/

namespace ContainerHackathon.Training.PredNet

open Tensors Fallible

variable {α : Type} {net : PredNet} {k : Kernels α} {image : Extent}

/-! ## the frame is not looked at before it is predicted -/

/-- The prediction of the frame from the representations. -/
def predictFrame [Min α] (net : PredNet) (k : Kernels α) (rs : List (Tensor α)) :
    Except NetError (Tensor α) := do
  let conv ← callConv net k .ahat 0 (← item rs 0)
  return conv.map (min · k.pixelMax)

section ahead

variable [Sub α] [Min α] [Max α] {rs : List (Tensor α)}

/-- The error units of a layer from its prediction and its target. -/
def errorUnits (k : Kernels α) (ahat a : Tensor α) : Except NetError (Tensor α) := do
  let up ← shapeError (zipWith (· - ·) ahat a)
  let down ← shapeError (zipWith (· - ·) a ahat)
  shapeError (concatenate [up.map k.errorActivation, down.map k.errorActivation])

/-- The lowest layer makes the prediction and the first error. -/
theorem feedLayer_zero {a : Tensor α} {acc : Feedforward α}
    (h : feedLayer net k rs ⟨a, [], none, none⟩ 0 = .ok acc) : ∃ p e,
      predictFrame net k rs = .ok p ∧ acc.framePrediction = some p ∧
        errorUnits k p a = .ok e ∧ acc.e = [e] := by
  rw [feedLayer] at h
  obtain ⟨r, hr, h⟩ := bind_eq_ok.mp h
  obtain ⟨conv, hconv, h⟩ := bind_eq_ok.mp h
  obtain ⟨up, hup, h⟩ := bind_eq_ok.mp h
  obtain ⟨down, hdown, h⟩ := bind_eq_ok.mp h
  obtain ⟨e, he, h⟩ := bind_eq_ok.mp h
  obtain ⟨target, -, h⟩ := bind_eq_ok.mp h
  obtain rfl := Except.ok.inj h
  exact ⟨_, e, bind_eq_ok.mpr ⟨r, hr, bind_eq_ok.mpr ⟨conv, hconv, rfl⟩⟩, rfl,
    bind_eq_ok.mpr ⟨up, hup, bind_eq_ok.mpr ⟨down, hdown, he⟩⟩, rfl⟩

/-- The other layers keep the prediction and add to the errors. -/
theorem feedLayer_succ {acc acc' : Feedforward α} {l : Nat}
    (h : feedLayer net k rs acc (l + 1) = .ok acc') :
    acc'.framePrediction = acc.framePrediction ∧ ∃ e, acc'.e = acc.e ++ [e] := by
  rw [feedLayer] at h
  obtain ⟨r, -, h⟩ := bind_eq_ok.mp h
  obtain ⟨conv, -, h⟩ := bind_eq_ok.mp h
  obtain ⟨up, -, h⟩ := bind_eq_ok.mp h
  obtain ⟨down, -, h⟩ := bind_eq_ok.mp h
  obtain ⟨e, -, h⟩ := bind_eq_ok.mp h
  obtain ⟨target, -, h⟩ := bind_eq_ok.mp h
  obtain rfl := Except.ok.inj h
  exact ⟨rfl, e, rfl⟩

/-- The way up keeps the prediction that the representations give, and its
error. -/
theorem feedforward_eq_ok {a : Tensor α} {n : Nat} {acc : Feedforward α}
    (h : (List.range (n + 1)).foldlM (feedLayer net k rs) ⟨a, [], none, none⟩ = .ok acc) :
    ∃ p e, predictFrame net k rs = .ok p ∧ acc.framePrediction = some p ∧
      errorUnits k p a = .ok e ∧ acc.e.head? = some e ∧ acc.e.length = n + 1 := by
  induction n generalizing acc with
  | zero =>
      obtain ⟨acc', hfeed, hacc⟩ := bind_eq_ok.mp h
      obtain rfl := Except.ok.inj hacc
      obtain ⟨p, e, hp, hframe, he, herrors⟩ := feedLayer_zero hfeed
      exact ⟨p, e, hp, hframe, he, by rw [herrors, List.head?_cons], by rw [herrors]; rfl⟩
  | succ n ih =>
      rw [List.range_succ, List.foldlM_append] at h
      obtain ⟨acc', hacc', h⟩ := bind_eq_ok.mp h
      obtain ⟨acc'', hfeed, hacc⟩ := bind_eq_ok.mp h
      obtain rfl := Except.ok.inj hacc
      obtain ⟨p, e, hp, hframe, he, herrors, hlength⟩ := ih hacc'
      obtain ⟨hkeep, e', hadd⟩ := feedLayer_succ hfeed
      refine ⟨p, e, hp, hkeep.trans hframe, he, ?_, ?_⟩
      · rw [hadd, List.head?_append, herrors]
        rfl
      · rw [hadd, List.length_append, hlength, List.length_singleton]

variable [Add α] [Mul α]

/-- What a step that succeeds has computed. -/
theorem stepActual_eq_ok {states states' : States α} {a p : Tensor α} {o : Output α}
    (h : stepActual net k states a = .ok (o, p, states')) : ∃ down up,
      (List.range net.nbLayers).foldrM (updateUnit net k states) ⟨[], [], none⟩ = .ok down ∧
      (List.range net.nbLayers).foldlM (feedLayer net k down.r) ⟨a, [], none, none⟩ = .ok up ∧
      up.framePrediction = some p ∧ stepOutput net k p up = .ok o ∧
      states' = { states with r := down.r, c := down.c, e := up.e } := by
  obtain ⟨down, hdown, h⟩ := bind_eq_ok.mp h
  obtain ⟨up, hup, h⟩ := bind_eq_ok.mp h
  obtain ⟨p', hp, h⟩ := bind_eq_ok.mp h
  obtain ⟨o', ho, h⟩ := bind_eq_ok.mp h
  obtain ⟨rfl, hrest⟩ := Prod.mk.inj (Except.ok.inj h)
  obtain ⟨rfl, rfl⟩ := Prod.mk.inj hrest
  refine ⟨down, up, hdown, hup, ?_, ho, rfl⟩
  cases hframe : up.framePrediction with
  | none =>
      rw [hframe] at hp
      cases hp
  | some p =>
      rw [hframe] at hp
      rw [Except.ok.inj hp]

/-- A step predicts without looking at the frame. -/
theorem ahead_stepActual (net : PredNet) (k : Kernels α) : Feedback.Ahead (stepActual net k) := by
  intro s x y o p s' o' q t' hx hy
  obtain ⟨n, hn⟩ : ∃ n, net.nbLayers = n + 1 := ⟨_, net.length_aFiltSizes.symm⟩
  obtain ⟨down, up, hdown, hup, hp, -⟩ := stepActual_eq_ok hx
  obtain ⟨down', up', hdown', hup', hq, -⟩ := stepActual_eq_ok hy
  obtain rfl := Except.ok.inj (hdown.symm.trans hdown')
  rw [hn] at hup hup'
  obtain ⟨p', -, hp', hframe, -⟩ := feedforward_eq_ok hup
  obtain ⟨q', -, hq', hframe', -⟩ := feedforward_eq_ok hup'
  obtain rfl := Except.ok.inj (hp'.symm.trans hq')
  exact Option.some.inj (hp.symm.trans (hframe.trans (hframe'.symm.trans hq)))

/-- In prediction mode the outputs are the predictions. -/
theorem output_of_stepActual {states states' : States α} {a p : Tensor α} {o : Output α}
    (hmode : net.outputMode = "prediction")
    (h : stepActual net k states a = .ok (o, p, states')) : o = .image p := by
  obtain ⟨down, up, -, -, -, ho, -⟩ := stepActual_eq_ok h
  have hlayer : net.outputLayer = none :=
    if_neg (not_mem_layerOutputModes (by rw [hmode]; decide))
  rw [stepOutput, hlayer] at ho
  simpa [hmode, eq_comm] using ho

end ahead

/-! ## `extrap_start_time` as a feedback -/

section extrapolation

variable [Add α] [Mul α] [Sub α] [Min α] [Max α]

/-- The time is past `extrap_start_time`. -/
def late (net : PredNet) (t : Nat) : Bool :=
  match net.extrapStartTime with
  | none => false
  | some start => start ≤ (t : Int)

/-- The states that a step is given: the last prediction and the time are
among them when extrapolating. -/
def toStates (net : PredNet) (l : Feedback.Loop (States α) (Tensor α)) : States α :=
  { l.state with extrap := net.extrapStartTime.map fun _ => (l.prediction, (l.time : Int)) }

/-- Nothing but the choice of the frame looks at the last prediction. -/
theorem stepActual_extrap (states : States α) (extrap : Option (Tensor α × Int)) (a : Tensor α) :
    stepActual net k { states with extrap := extrap } a =
      (stepActual net k states a).map fun r => (r.1, r.2.1, { r.2.2 with extrap := extrap }) := by
  have hunit : updateUnit net k { states with extrap := extrap } = updateUnit net k states := rfl
  rw [stepActual, stepActual, hunit]
  cases (List.range net.nbLayers).foldrM (updateUnit net k states) ⟨[], [], none⟩ with
  | error e => rfl
  | ok down =>
      rw [ok_bind, ok_bind]
      cases (List.range net.nbLayers).foldlM (feedLayer net k down.r) ⟨a, [], none, none⟩ with
      | error e => rfl
      | ok up =>
          rw [ok_bind, ok_bind]
          cases bound "frame_prediction" up.framePrediction with
          | error e => rfl
          | ok p =>
              rw [ok_bind, ok_bind]
              cases stepOutput net k p up <;> rfl

/-- **`step` is the step without extrapolation, fed back.** -/
theorem step_toStates (l : Feedback.Loop (States α) (Tensor α)) (a : Tensor α) :
    step net k (toStates net l) a =
      (Feedback.extrapolate (stepActual net k) (late net) l a).map fun r =>
        (r.1, r.2.1, toStates net r.2.2) := by
  rw [step, Feedback.extrapolate, late, toStates]
  cases hstart : net.extrapStartTime with
  | none =>
      simp only [Option.map_none, Bool.false_eq_true, if_false, stepActual_extrap]
      cases stepActual net k l.state a with
      | error e => rfl
      | ok r => simp [Except.map, Bind.bind, Except.bind, Pure.pure, Except.pure, toStates, hstart]
  | some start =>
      simp only [Option.map_some, decide_eq_true_eq, stepActual_extrap]
      cases stepActual net k l.state (if start ≤ (l.time : Int) then l.prediction else a) with
      | error e => rfl
      | ok r => simp [Except.map, Bind.bind, Except.bind, Pure.pure, Except.pure, toStates, hstart]

theorem outputs_of_run {frames : List (Tensor α)} {os : List (Output α × Tensor α)}
    {l l' : Feedback.Loop (States α) (Tensor α)}
    (hmode : net.outputMode = "prediction")
    (h : Feedback.run (Feedback.extrapolate (stepActual net k) (late net)) l frames = .ok (os, l')) :
    os.map Prod.fst = os.map fun o => .image o.2 := by
  induction frames generalizing l os with
  | nil =>
      obtain ⟨rfl, -⟩ := Prod.mk.inj (Except.ok.inj h)
      rfl
  | cons x frames ih =>
      obtain ⟨o, p, l₁, os', hstep, hrun, rfl⟩ := Feedback.run_cons_eq_ok.mp h
      obtain ⟨s, hactual, -⟩ := Feedback.extrapolate_eq_ok.mp hstep
      rw [List.map_cons, List.map_cons, ih hrun, output_of_stepActual hmode hactual]

/-- `extrap_start_time=None`. -/
def plain (net : PredNet) : PredNet := { net with extrapStartTime := none }

variable [Zero α] {frames : List (Tensor α)} {os : List (Output α × Tensor α)}

/-- The prediction that is there before the first. -/
def zeroFrame (α : Type) [Zero α] (net : PredNet) (image : Extent) : Tensor α :=
  Tensor.fill (downscale image 0 (net.stackSize 0)) 0

/-- The loop at the start of a sequence. -/
def initialLoop (α : Type) [Zero α] (net : PredNet) (image : Extent) :
    Feedback.Loop (States α) (Tensor α) :=
  ⟨getInitialState (plain net) image, zeroFrame α net image, 0⟩

theorem call_eq_map (net : PredNet) (k : Kernels α) (image : Extent) (frames : List (Tensor α)) :
    call net k image frames =
      (Feedback.run (Feedback.extrapolate (stepActual net k) (late net)) (initialLoop α net image)
        frames).map fun r => (r.1, toStates net r.2) := by
  exact Feedback.run_map (toStates net) step_toStates (initialLoop α net image)

theorem call_eq_ok {s : States α} : call net k image frames = .ok (os, s) ↔
    ∃ l, Feedback.run (Feedback.extrapolate (stepActual net k) (late net)) (initialLoop α net image)
      frames = .ok (os, l) ∧ s = toStates net l := by
  rw [call_eq_map]
  cases Feedback.run (Feedback.extrapolate (stepActual net k) (late net)) (initialLoop α net image)
    frames with
  | error e => simp [Except.map]
  | ok r =>
      obtain ⟨os', l⟩ := r
      simp only [Except.map, Except.ok.injEq, Prod.mk.injEq]
      exact ⟨fun ⟨hos, hs⟩ => ⟨l, ⟨hos, rfl⟩, hs.symm⟩, fun ⟨_, ⟨hos, hl⟩, hs⟩ => ⟨hos, by rw [hl, hs]⟩⟩

/-- **Extrapolation is plain prediction** on frames that from
`extrap_start_time` on are the predictions of the step before. -/
theorem call_iff_plain {s : States α} : call net k image frames = .ok (os, s) ↔
    os.length = frames.length ∧ ∃ actual s', actual.length = frames.length ∧
      (∀ i < frames.length, actual[i]? =
        if late net i then (zeroFrame α net image :: os.map Prod.snd)[i]? else frames[i]?) ∧
      call (plain net) k image actual = .ok (os, s') ∧
      s = toStates net ⟨s', (os.map Prod.snd).getLastD (zeroFrame α net image), frames.length⟩ := by
  rw [call_eq_ok]
  constructor
  · rintro ⟨l, hrun, rfl⟩
    have hlength := Feedback.length_of_run hrun
    obtain ⟨hplain, hl⟩ := Feedback.extrapolate_iff.mp hrun
    refine ⟨hlength, _, l.state, Feedback.length_taken, fun i hi => ?_, hplain, ?_⟩
    · rw [Feedback.getElem?_taken hi (by rw [List.length_map, hlength])]
      simp only [initialLoop, Nat.zero_add]
    · rw [hl]
      simp only [initialLoop, Nat.zero_add]
  · rintro ⟨hlength, actual, s', hactual, hget, hplain, rfl⟩
    have htaken : actual = Feedback.taken (late net) (zeroFrame α net image) 0 frames
        (os.map Prod.snd) := by
      refine List.ext_getElem? fun i => ?_
      by_cases hi : i < frames.length
      · rw [hget i hi, Feedback.getElem?_taken hi (by rw [List.length_map, hlength]), Nat.zero_add]
      · rw [List.getElem?_eq_none (by omega),
          List.getElem?_eq_none (by rw [Feedback.length_taken]; omega)]
    refine ⟨⟨s', _, frames.length⟩, Feedback.extrapolate_iff.mpr ⟨?_, ?_⟩, rfl⟩
    · rw [htaken] at hplain
      exact hplain
    · simp only [initialLoop, Nat.zero_add]

/-- **No prediction depends on its own frame, on later frames or on frames
from `extrap_start_time` on.** -/
theorem predictions_of_agree {frames' : List (Tensor α)} {os' : List (Output α × Tensor α)}
    {s s' : States α} {t : Nat} (h : call net k image frames = .ok (os, s))
    (h' : call net k image frames' = .ok (os', s')) (hlength : frames.length = frames'.length)
    (hagree : ∀ i < t, late net i = false → frames[i]? = frames'[i]?) :
    (os.map Prod.snd)[t]? = (os'.map Prod.snd)[t]? ∧
      (net.outputMode = "prediction" → (os.map Prod.fst)[t]? = (os'.map Prod.fst)[t]?) := by
  obtain ⟨l, hrun, -⟩ := call_eq_ok.mp h
  obtain ⟨l', hrun', -⟩ := call_eq_ok.mp h'
  have hpredictions : (os.map Prod.snd)[t]? = (os'.map Prod.snd)[t]? := by
    refine Feedback.predictions_eq (ahead_stepActual net k) ⟨rfl, rfl, rfl⟩ hrun hrun' hlength ?_
    simpa [initialLoop] using hagree
  refine ⟨hpredictions, fun hmode => ?_⟩
  have himage := congrArg (Option.map Output.image) hpredictions
  rw [outputs_of_run hmode hrun, outputs_of_run hmode hrun']
  simpa only [List.getElem?_map, Option.map_map, Function.comp_def] using himage

/-- Past the first frame only predictions count. -/
theorem predictions_of_agree_sample : ∃ os s os' s',
    call sample sampleKernels ⟨2, 4, 1⟩
        [Tensor.fill ⟨2, 4, 1⟩ 5, Tensor.fill ⟨2, 4, 1⟩ 6, Tensor.fill ⟨2, 4, 1⟩ 7] = .ok (os, s) ∧
      call sample sampleKernels ⟨2, 4, 1⟩
        [Tensor.fill ⟨2, 4, 1⟩ 5, Tensor.fill ⟨2, 4, 1⟩ 0, Tensor.fill ⟨2, 4, 1⟩ 1] = .ok (os', s') ∧
      (os.map Prod.snd)[2]? = (os'.map Prod.snd)[2]? := by
  have hruns : Runs sample ⟨2, 4, 1⟩ := runs_iff.mpr (by decide)
  have hframes : ∀ a b : ℤ, ∀ x ∈ [Tensor.fill ⟨2, 4, 1⟩ 5, Tensor.fill ⟨2, 4, 1⟩ a,
      Tensor.fill ⟨2, 4, 1⟩ b], x.extent = ⟨2, 4, 1⟩ := by simp
  obtain ⟨os, s, h, -⟩ := exists_call (k := sampleKernels) rfl hruns (hframes 6 7)
  obtain ⟨os', s', h', -⟩ := exists_call (k := sampleKernels) rfl hruns (hframes 0 1)
  refine ⟨os, s, os', s', h, h', (predictions_of_agree h h' rfl fun i hi hlate => ?_).1⟩
  interval_cases i
  · rfl
  · cases hlate

end extrapolation

end ContainerHackathon.Training.PredNet
