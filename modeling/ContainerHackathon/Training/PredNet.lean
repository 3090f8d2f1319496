import ContainerHackathon.Lib.Fallible
import ContainerHackathon.Lib.Feedback
import ContainerHackathon.Lib.Tensors

/-!
# Training.PredNet

`PredNet`, the recurrent layer: its constructor, `build`,
`compute_output_shape`, `get_initial_state` and `step`.

A step runs down the stack once and up once.  The way down updates the
representations `r` and the cells `c`, every layer with the representation
above it scaled up; the way up compares the target `a` of a layer with the
prediction `ahat` made from `r`, and the error `e` makes the target of the
next layer.

All samples of a batch are treated alike, so a tensor is the image of one
sample.  The data format says in which order shapes list the axes.  The
numbers, and what a convolution computes from them, are parameters.
-/

namespace ContainerHackathon.Training

open Tensors

/-- What the constructor or a step raises. -/
inductive NetError
  | assertion (message : String)
  | shape (error : ShapeError)
  /-- A convolution is called on a number of channels it was not built for. -/
  | channels
  | index
  | unboundLocal (name : String)
  deriving DecidableEq, Repr

def shapeError {α : Type} : Except ShapeError α → Except NetError α :=
  Except.mapError NetError.shape

/-! ## `__init__` -/

structure PredNetArguments where
  stackSizes : List Nat
  rStackSizes : List Nat
  aFiltSizes : List Nat
  ahatFiltSizes : List Nat
  rFiltSizes : List Nat
  outputMode : String
  extrapStartTime : Option Int
  dataFormat : String
  returnSequences : Bool
  deriving DecidableEq, Repr

def PredNetArguments.nbLayers (args : PredNetArguments) : Nat := args.stackSizes.length

def defaultOutputModes : List String := ["prediction", "error", "all"]

/-- The unit types that a layer can output. -/
def layerTypes : List String := ["R", "E", "A", "Ahat"]

def layerOutputModes (nbLayers : Nat) : List String :=
  (List.range nbLayers).flatMap fun n => layerTypes.map (· ++ toString n)

/-- `output_mode[:-1]` and `int(output_mode[-1])`. -/
def splitMode (outputMode : String) : String × Nat :=
  (String.ofList outputMode.toList.dropLast,
    (outputMode.toList.getLastD '0').toNat - '0'.toNat)

/-- The arguments that pass the assertions. -/
structure PredNet extends PredNetArguments where
  length_rStackSizes : rStackSizes.length = stackSizes.length
  length_aFiltSizes : aFiltSizes.length + 1 = stackSizes.length
  length_ahatFiltSizes : ahatFiltSizes.length = stackSizes.length
  length_rFiltSizes : rFiltSizes.length = stackSizes.length
  outputMode_mem : outputMode ∈ defaultOutputModes ++ layerOutputModes stackSizes.length
  dataFormat_mem : dataFormat ∈ ["channels_last", "channels_first"]

namespace PredNet

/-- `__init__`. -/
def init (args : PredNetArguments) : Except NetError PredNet :=
  if hR : args.rStackSizes.length = args.nbLayers then
    if hA : args.aFiltSizes.length + 1 = args.nbLayers then
      if hAhat : args.ahatFiltSizes.length = args.nbLayers then
        if hRFilt : args.rFiltSizes.length = args.nbLayers then
          if hmode : args.outputMode ∈ defaultOutputModes ++ layerOutputModes args.nbLayers then
            if hformat : args.dataFormat ∈ ["channels_last", "channels_first"] then
              .ok ⟨args, hR, hA, hAhat, hRFilt, hmode, hformat⟩
            else .error (.assertion "data_format must be in {channels_last, channels_first}")
          else .error (.assertion ("Invalid output_mode: " ++ args.outputMode))
        else .error (.assertion "len(R_filt_sizes) must equal len(stack_sizes)")
      else .error (.assertion "len(Ahat_filt_sizes) must equal len(stack_sizes)")
    else .error (.assertion "len(A_filt_sizes) must equal len(stack_sizes) - 1")
  else .error (.assertion "len(R_stack_sizes) must equal len(stack_sizes)")

/-- `output_layer_type` and `output_layer_num`. -/
def outputLayer (net : PredNet) : Option (String × Nat) :=
  if net.outputMode ∈ layerOutputModes net.nbLayers then some (splitMode net.outputMode) else none

def channelsFirst (net : PredNet) : Bool := net.dataFormat = "channels_first"

/-- `stack_sizes[l]`, for a layer that exists. -/
def stackSize (net : PredNet) (l : Nat) : Nat := net.stackSizes.getD l 0

/-- `R_stack_sizes[l]`, for a layer that exists. -/
def rStackSize (net : PredNet) (l : Nat) : Nat := net.rStackSizes.getD l 0

/-! ## `build` -/

/-- The gates of the LSTM units and the two other convolutions. -/
inductive Gate
  | i
  | f
  | c
  | o
  | a
  | ahat
  deriving DecidableEq, Repr

structure Conv where
  filters : Nat
  /-- The number of channels it is built for. -/
  inChannels : Nat
  deriving DecidableEq, Repr

/-- How many convolutions of a kind there are: none makes a target above the
last layer. -/
def nbConvLayers (net : PredNet) : Gate → Nat
  | .a => net.nbLayers - 1
  | _ => net.nbLayers

def filters (net : PredNet) (gate : Gate) (l : Nat) : Nat :=
  match gate with
  | .a => net.stackSize (l + 1)
  | .ahat => net.stackSize l
  | _ => net.rStackSize l

/-- `nb_channels` in `build`. -/
def nbChannels (net : PredNet) (gate : Gate) (l : Nat) : Nat :=
  match gate with
  | .ahat => net.rStackSize l
  | .a => 2 * net.stackSize l
  | _ => net.stackSize l * 2 + net.rStackSize l +
      if l < net.nbLayers - 1 then net.rStackSize (l + 1) else 0

/-- `conv_layers`. -/
def convLayers (net : PredNet) (gate : Gate) : List Conv :=
  (List.range (net.nbConvLayers gate)).map fun l => ⟨net.filters gate l, net.nbChannels gate l⟩

/-! ## the numbers -/

/-- The parts of a layer that depend on its weights and on the activation
functions; a convolution is followed by its activation. -/
structure Kernels (α : Type) where
  convolve : Gate → Nat → Tensor α → Nat → Nat → Nat → α
  errorActivation : α → α
  lstmActivation : α → α
  pixelMax : α
  mean : List α → α

variable {α : Type}

/-- A `same` convolution, which keeps the size of the image. -/
def callConv (net : PredNet) (k : Kernels α) (gate : Gate) (l : Nat) (x : Tensor α) :
    Except NetError (Tensor α) :=
  match (net.convLayers gate)[l]? with
  | none => .error .index
  | some conv =>
      if x.extent.channels = conv.inChannels then
        .ok ⟨{ x.extent with channels := conv.filters }, k.convolve gate l x⟩
      else .error .channels

/-- `UpSampling2D`: every row and column twice. -/
def upsample (x : Tensor α) : Tensor α :=
  ⟨{ x.extent with rows := 2 * x.extent.rows, cols := 2 * x.extent.cols },
    fun i j c => x.get (i / 2) (j / 2) c⟩

/-- `MaxPooling2D`: the maximum of four, without an odd last row or column. -/
def pool [Max α] (x : Tensor α) : Tensor α :=
  ⟨{ x.extent with rows := x.extent.rows / 2, cols := x.extent.cols / 2 },
    fun i j c => max (max (x.get (2 * i) (2 * j) c) (x.get (2 * i) (2 * j + 1) c))
      (max (x.get (2 * i + 1) (2 * j) c) (x.get (2 * i + 1) (2 * j + 1) c))⟩

/-- `K.batch_flatten` of one sample. -/
def flatten (net : PredNet) (x : Tensor α) : List α :=
  if net.channelsFirst then
    (List.range x.extent.channels).flatMap fun c =>
      (List.range x.extent.rows).flatMap fun i => (List.range x.extent.cols).map fun j => x.get i j c
  else
    (List.range x.extent.rows).flatMap fun i =>
      (List.range x.extent.cols).flatMap fun j =>
        (List.range x.extent.channels).map fun c => x.get i j c

/-! ## states and outputs -/

/-- The recurrent states of the layers; when extrapolating, also the previous
frame prediction and the time. -/
structure States (α : Type) where
  r : List (Tensor α)
  c : List (Tensor α)
  e : List (Tensor α)
  extrap : Option (Tensor α × Int)

/-- The size of layer `l` over an image. -/
def downscale (image : Extent) (l channels : Nat) : Extent :=
  ⟨image.rows / 2 ^ l, image.cols / 2 ^ l, channels⟩

/-- `get_initial_state`: zeros, at the time 0. -/
def getInitialState [Zero α] (net : PredNet) (image : Extent) : States α :=
  let zeros (l channels : Nat) := Tensor.fill (downscale image l channels) (0 : α)
  { r := (List.range net.nbLayers).map fun l => zeros l (net.rStackSize l)
    c := (List.range net.nbLayers).map fun l => zeros l (net.rStackSize l)
    e := (List.range net.nbLayers).map fun l => zeros l (2 * net.stackSize l)
    extrap := net.extrapStartTime.map fun _ => (zeros 0 (net.stackSize 0), 0) }

/-- What a step returns: an image, or a vector. -/
inductive Output (α : Type)
  | image (x : Tensor α)
  | vector (xs : List α)

/-- The axes of an image in the order of the data format. -/
def imageShape {β : Type} (net : PredNet) (rows cols channels : β) : List β :=
  if net.channelsFirst then [channels, rows, cols] else [rows, cols, channels]

def Output.shape (net : PredNet) : Output α → List ℚ
  | .image x => net.imageShape (x.extent.rows : ℚ) x.extent.cols x.extent.channels
  | .vector xs => [(xs.length : ℚ)]

/-- `compute_output_shape`, after the sample axis: `/` is the division that
does not round. -/
def computeOutputShape (net : PredNet) (timesteps : Nat) (image : Extent) : List ℚ :=
  let outShape : List ℚ :=
    if net.outputMode = "prediction" then
      net.imageShape (image.rows : ℚ) image.cols image.channels
    else if net.outputMode = "error" then [(net.nbLayers : ℚ)]
    else if net.outputMode = "all" then
      [((image.rows * image.cols * image.channels + net.nbLayers : Nat) : ℚ)]
    else
      match net.outputLayer with
      | none => []
      | some (type, num) =>
          let stackSize := if type = "R" then net.rStackSize num else net.stackSize num
          let stackMult := if type = "E" then 2 else 1
          net.imageShape ((image.rows : ℚ) / 2 ^ num) ((image.cols : ℚ) / 2 ^ num)
            ((stackMult * stackSize : Nat) : ℚ)
  if net.returnSequences then (timesteps : ℚ) :: outShape else outShape

/-! ## `step` -/

/-- `xs[l]`. -/
def item {β : Type} (xs : List β) (l : Nat) : Except NetError β :=
  match xs[l]? with
  | none => .error .index
  | some x => .ok x

/-- `c`, `r` and `r_up` on the way down. -/
structure UpdateR (α : Type) where
  r : List (Tensor α)
  c : List (Tensor α)
  rUp : Option (Tensor α)

/-- `if l < self.nb_layers - 1: inputs.append(r_up)`. -/
def unitInputs (net : PredNet) (states : States α) (l : Nat) (acc : UpdateR α) :
    Except NetError (List (Tensor α)) := do
  let r ← item states.r l
  let e ← item states.e l
  if l < net.nbLayers - 1 then
    match acc.rUp with
    | none => throw (.unboundLocal "r_up")
    | some rUp => return [r, e, rUp]
  else return [r, e]

/-- The LSTM of layer `l`. -/
def updateUnit [Add α] [Mul α] (net : PredNet) (k : Kernels α) (states : States α) (l : Nat)
    (acc : UpdateR α) : Except NetError (UpdateR α) := do
  let inputs ← shapeError (concatenate (← unitInputs net states l acc))
  let i ← callConv net k .i l inputs
  let f ← callConv net k .f l inputs
  let o ← callConv net k .o l inputs
  let kept ← shapeError (zipWith (· * ·) f (← item states.c l))
  let added ← shapeError (zipWith (· * ·) i (← callConv net k .c l inputs))
  let c ← shapeError (zipWith (· + ·) kept added)
  let r ← shapeError (zipWith (· * ·) o (c.map k.lstmActivation))
  return ⟨r :: acc.r, c :: acc.c, if 0 < l then some (upsample r) else acc.rUp⟩

/-- `e`, the target of the next layer, and what is kept for the output on
the way up. -/
structure Feedforward (α : Type) where
  a : Tensor α
  e : List (Tensor α)
  framePrediction : Option (Tensor α)
  output : Option (Tensor α)

/-- `if self.output_layer_num == l`. -/
def layerOutput (net : PredNet) (l : Nat) (a ahat r e : Tensor α) (output : Option (Tensor α)) :
    Option (Tensor α) :=
  match net.outputLayer with
  | none => output
  | some (type, num) =>
      if num = l then
        if type = "A" then some a
        else if type = "Ahat" then some ahat
        else if type = "R" then some r
        else if type = "E" then some e
        else output
      else output

/-- The target of the next layer, if there is one. -/
def nextTarget [Max α] (net : PredNet) (k : Kernels α) (l : Nat) (a e : Tensor α) :
    Except NetError (Tensor α) :=
  if l < net.nbLayers - 1 then pool <$> callConv net k .a l e else .ok a

/-- The errors of layer `l`, from the target `acc.a`. -/
def feedLayer [Sub α] [Min α] [Max α] (net : PredNet) (k : Kernels α) (rs : List (Tensor α))
    (acc : Feedforward α) (l : Nat) : Except NetError (Feedforward α) := do
  let r ← item rs l
  let conv ← callConv net k .ahat l r
  let ahat := if l = 0 then conv.map (min · k.pixelMax) else conv
  let up ← shapeError (zipWith (· - ·) ahat acc.a)
  let down ← shapeError (zipWith (· - ·) acc.a ahat)
  let e ← shapeError (concatenate [up.map k.errorActivation, down.map k.errorActivation])
  let target ← nextTarget net k l acc.a e
  return {
    a := target
    e := acc.e ++ [e]
    framePrediction := if l = 0 then some ahat else acc.framePrediction
    output := layerOutput net l acc.a ahat r e acc.output }

/-- The value of a local variable that may not have been assigned. -/
def bound {β : Type} (name : String) : Option β → Except NetError β
  | none => .error (.unboundLocal name)
  | some x => .ok x

/-- What is returned: the units of the layer that was asked for, the frame
prediction or the mean errors. -/
def stepOutput (net : PredNet) (k : Kernels α) (framePrediction : Tensor α)
    (acc : Feedforward α) : Except NetError (Output α) :=
  if net.outputLayer.isNone then
    let allError := acc.e.map fun e => k.mean (flatten net e)
    if net.outputMode = "prediction" then .ok (.image framePrediction)
    else if net.outputMode = "error" then .ok (.vector allError)
    else .ok (.vector (flatten net framePrediction ++ allError))
  else Output.image <$> bound "output" acc.output

/-- `step` after the choice of the actual frame: output, frame prediction and
the states of the layers. -/
def stepActual [Add α] [Mul α] [Sub α] [Min α] [Max α] (net : PredNet) (k : Kernels α)
    (states : States α) (a : Tensor α) : Except NetError (Output α × Tensor α × States α) := do
  let down ← (List.range net.nbLayers).foldrM (updateUnit net k states) ⟨[], [], none⟩
  let up ← (List.range net.nbLayers).foldlM (feedLayer net k down.r) ⟨a, [], none, none⟩
  let framePrediction ← bound "frame_prediction" up.framePrediction
  let output ← stepOutput net k framePrediction up
  return (output, framePrediction, { states with r := down.r, c := down.c, e := up.e })

/-- `step`: past `extrap_start_time` the previous prediction is the actual
frame. -/
def step [Add α] [Mul α] [Sub α] [Min α] [Max α] (net : PredNet) (k : Kernels α)
    (states : States α) (a : Tensor α) : Except NetError (Output α × Tensor α × States α) :=
  match net.extrapStartTime with
  | none => stepActual net k states a
  | some start =>
      match states.extrap with
      | none => .error .index
      | some (previous, t) => do
          let (output, framePrediction, states) ←
            stepActual net k states (if start ≤ t then previous else a)
          return (output, framePrediction, { states with extrap := some (framePrediction, t + 1) })

/-- The layer over a sequence of frames: all outputs with the predictions of
the frames, and the last states. -/
def call [Zero α] [Add α] [Mul α] [Sub α] [Min α] [Max α] (net : PredNet) (k : Kernels α)
    (image : Extent) (frames : List (Tensor α)) :
    Except NetError (List (Output α × Tensor α) × States α) :=
  Feedback.run (step net k) (getInitialState net image) frames

/-! ## a network of two layers -/

/-- It extrapolates from the second frame on. -/
def sample : PredNet where
  stackSizes := [1, 2]
  rStackSizes := [1, 2]
  aFiltSizes := [3]
  ahatFiltSizes := [3, 3]
  rFiltSizes := [3, 3]
  outputMode := "prediction"
  extrapStartTime := some 1
  dataFormat := "channels_last"
  returnSequences := true
  length_rStackSizes := rfl
  length_aFiltSizes := rfl
  length_ahatFiltSizes := rfl
  length_rFiltSizes := rfl
  outputMode_mem := by decide
  dataFormat_mem := by decide

/-- Convolutions with the kernel that reads the first channel. -/
def sampleKernels : Kernels ℤ where
  convolve := fun _ _ x i j _ => x.get i j 0
  errorActivation := fun x => max x 0
  lstmActivation := id
  pixelMax := 1
  mean := List.sum

end PredNet

end ContainerHackathon.Training
