import ContainerHackathon.Training.PredNet

/-!
# Training.PredNet.Shapes

Which images a `PredNet` can be run on, and the shapes it returns.

Layer `l` works on images of size `rows / 2 ^ l`, rounded down.  The way down
the stack doubles the size of a layer and joins it with the layer below, so
every size but the last has to be even; on the way up nothing can go wrong.
-/

namespace ContainerHackathon.Training.PredNet

open Tensors Fallible

variable {α : Type} {net : PredNet} {k : Kernels α} {image : Extent}

/-! ## sizes that can be halved -/

/-- The size of layer `l` is even in both directions. -/
def Halves (image : Extent) (l : Nat) : Prop :=
  2 * (image.rows / 2 ^ (l + 1)) = image.rows / 2 ^ l ∧
    2 * (image.cols / 2 ^ (l + 1)) = image.cols / 2 ^ l

theorem two_mul_div_iff (m l : Nat) : 2 * (m / 2 ^ (l + 1)) = m / 2 ^ l ↔ 2 ∣ m / 2 ^ l := by
  rw [pow_succ, ← Nat.div_div_eq_div_mul]
  omega

theorem two_pow_dvd_iff (m n : Nat) : 2 ^ n ∣ m ↔ ∀ l < n, 2 ∣ m / 2 ^ l := by
  induction n with
  | zero => simp
  | succ n ih =>
      constructor
      · intro h l hl
        rw [Nat.dvd_div_iff_mul_dvd ((pow_dvd_pow 2 (by omega)).trans h), ← pow_succ]
        exact (pow_dvd_pow 2 (by omega)).trans h
      · intro h
        have hn : 2 ^ n ∣ m := ih.mpr fun l hl => h l (by omega)
        rw [pow_succ, ← Nat.dvd_div_iff_mul_dvd hn]
        exact h n (Nat.lt_succ_self n)

theorem forall_halves_iff (image : Extent) (n : Nat) :
    (∀ l, l + 1 < n → Halves image l) ↔ 2 ^ (n - 1) ∣ image.rows ∧ 2 ^ (n - 1) ∣ image.cols := by
  rw [two_pow_dvd_iff, two_pow_dvd_iff, ← forall₂_and]
  simp only [Halves, two_mul_div_iff, Nat.lt_sub_iff_add_lt]

/-! ## states of a size -/

/-- The states that a layer over `image` keeps. -/
structure Fits (net : PredNet) (image : Extent) (states : States α) : Prop where
  r : states.r.map Tensor.extent =
    (List.range net.nbLayers).map fun l => downscale image l (net.rStackSize l)
  c : states.c.map Tensor.extent =
    (List.range net.nbLayers).map fun l => downscale image l (net.rStackSize l)
  e : states.e.map Tensor.extent =
    (List.range net.nbLayers).map fun l => downscale image l (2 * net.stackSize l)
  extrap : states.extrap.map (fun x => x.1.extent) =
    net.extrapStartTime.map fun _ => downscale image 0 (net.stackSize 0)

theorem fits_getInitialState [Zero α] (net : PredNet) (image : Extent) :
    Fits net image (getInitialState net image : States α) where
  r := by simp [getInitialState, Function.comp_def]
  c := by simp [getInitialState, Function.comp_def]
  e := by simp [getInitialState, Function.comp_def]
  extrap := by simp [getInitialState, Function.comp_def]

/-- A list of tensors with the sizes of the layers has one at each. -/
theorem exists_item {xs : List (Tensor α)} {n l : Nat} {size : Nat → Extent}
    (h : xs.map Tensor.extent = (List.range n).map size) (hl : l < n) :
    ∃ x, item xs l = .ok x ∧ x.extent = size l := by
  have hget : (xs.map Tensor.extent)[l]? = some (size l) := by
    rw [h, List.getElem?_map, List.getElem?_range hl, Option.map_some]
  rw [List.getElem?_map, Option.map_eq_some_iff] at hget
  obtain ⟨x, hx, hextent⟩ := hget
  exact ⟨x, by rw [item, hx], hextent⟩

/-! ## operations on sizes -/

theorem exists_callConv (k : Kernels α) (gate : Gate) {l : Nat} {x : Tensor α}
    (hl : l < net.nbConvLayers gate) (hx : x.extent.channels = net.nbChannels gate l) :
    ∃ y, callConv net k gate l x = .ok y ∧
      y.extent = { x.extent with channels := net.filters gate l } := by
  have hconv : (net.convLayers gate)[l]? = some ⟨net.filters gate l, net.nbChannels gate l⟩ := by
    rw [convLayers, List.getElem?_map, List.getElem?_range hl, Option.map_some]
  refine ⟨⟨_, k.convolve gate l x⟩, ?_, rfl⟩
  rw [callConv, hconv]
  exact if_pos hx

theorem exists_zipWith (f : α → α → α) {x y : Tensor α} (h : x.extent = y.extent) :
    ∃ z, shapeError (zipWith f x y) = .ok z ∧ z.extent = x.extent :=
  ⟨⟨x.extent, fun i j c => f (x.get i j c) (y.get i j c)⟩, by
    rw [zipWith_of_extent f h]
    rfl, rfl⟩

/-- The inputs of a layer join if the size is half the size of the layer
below. -/
theorem exists_inputs {states : States α} {acc : UpdateR α} {l : Nat} (hs : Fits net image states)
    (hl : l < net.nbLayers) (hup : l + 1 < net.nbLayers → ∃ rUp, acc.rUp = some rUp ∧
      rUp.extent = ⟨2 * (image.rows / 2 ^ (l + 1)), 2 * (image.cols / 2 ^ (l + 1)),
        net.rStackSize (l + 1)⟩) (hhalves : l + 1 < net.nbLayers → Halves image l) :
    ∃ xs x, unitInputs net states l acc = .ok xs ∧ shapeError (concatenate xs) = .ok x ∧
      x.extent = downscale image l (net.nbChannels .i l) := by
  obtain ⟨r, hr, hrx⟩ := exists_item hs.r hl
  obtain ⟨e, he, hex⟩ := exists_item hs.e hl
  have hrow : r.extent.rows = e.extent.rows := by rw [hrx, hex]; rfl
  have hcol : r.extent.cols = e.extent.cols := by rw [hrx, hex]; rfl
  obtain ⟨re, hre⟩ := exists_join_iff.mpr ⟨hrow, hcol⟩
  have hrex := extent_of_join hre
  rw [hrx, hex] at hrex
  by_cases hlast : l < net.nbLayers - 1
  · obtain ⟨rUp, hrUp, hrUpx⟩ := hup (by omega)
    have heven := hhalves (by omega)
    obtain ⟨x, hx⟩ : ∃ x, join re rUp = .ok x := by
      rw [exists_join_iff, hrex, hrUpx]
      exact ⟨heven.1.symm, heven.2.symm⟩
    refine ⟨[r, e, rUp], x, ?_, ?_, ?_⟩
    · simp [unitInputs, hr, he, hlast, hrUp, Bind.bind, Except.bind, Pure.pure, Except.pure]
    · rw [concatenate_triple, hre, Except.bind, hx]
      rfl
    · rw [extent_of_join hx, hrex, hrUpx]
      simp only [downscale, nbChannels, if_pos hlast, Extent.mk.injEq, true_and]
      omega
  · refine ⟨[r, e], re, ?_, ?_, ?_⟩
    · simp [unitInputs, hr, he, hlast, Bind.bind, Except.bind, Pure.pure, Except.pure]
    · rw [concatenate_pair, hre]
      rfl
    · rw [hrex]
      simp only [downscale, nbChannels, if_neg hlast, Extent.mk.injEq, true_and]
      omega

/-- Sizes that are not twice the size above do not join. -/
theorem unitInputs_error {states : States α} {acc : UpdateR α} {l : Nat} {rUp : Tensor α}
    (hs : Fits net image states) (hl : l + 1 < net.nbLayers) (hacc : acc.rUp = some rUp)
    (hup : rUp.extent = ⟨2 * (image.rows / 2 ^ (l + 1)), 2 * (image.cols / 2 ^ (l + 1)),
      net.rStackSize (l + 1)⟩) (hodd : ¬ Halves image l) :
    ∃ xs, unitInputs net states l acc = .ok xs ∧
      shapeError (concatenate xs) = .error (.shape .concatenate) := by
  obtain ⟨r, hr, hrx⟩ := exists_item hs.r (by omega : l < net.nbLayers)
  obtain ⟨e, he, hex⟩ := exists_item hs.e (by omega : l < net.nbLayers)
  have hrow : r.extent.rows = e.extent.rows := by rw [hrx, hex]; rfl
  have hcol : r.extent.cols = e.extent.cols := by rw [hrx, hex]; rfl
  obtain ⟨re, hre⟩ := exists_join_iff.mpr ⟨hrow, hcol⟩
  have hrex := extent_of_join hre
  rw [hrx, hex] at hrex
  have hlast : l < net.nbLayers - 1 := by omega
  refine ⟨[r, e, rUp], ?_, ?_⟩
  · simp [unitInputs, hr, he, hlast, hacc, Bind.bind, Except.bind, Pure.pure, Except.pure]
  · rw [concatenate_triple, hre, Except.bind, join, if_neg]
    · rfl
    · rw [hrex, hup]
      exact fun h => hodd ⟨h.1.symm, h.2.symm⟩

/-! ## the way down -/

/-- What the layers from `l` on have passed down. -/
structure Down (net : PredNet) (image : Extent) (l : Nat) (acc : UpdateR α) : Prop where
  r : acc.r.map Tensor.extent =
    (List.range' l (net.nbLayers - l)).map fun l => downscale image l (net.rStackSize l)
  c : acc.c.map Tensor.extent =
    (List.range' l (net.nbLayers - l)).map fun l => downscale image l (net.rStackSize l)
  rUp : 0 < l → l < net.nbLayers → ∃ rUp, acc.rUp = some rUp ∧
    rUp.extent = ⟨2 * (image.rows / 2 ^ l), 2 * (image.cols / 2 ^ l), net.rStackSize l⟩

theorem down_start : Down net image net.nbLayers (⟨[], [], none⟩ : UpdateR α) where
  r := by simp
  c := by simp
  rUp := fun _ h => absurd h (Nat.lt_irrefl _)

theorem range'_layers {l : Nat} (hl : l < net.nbLayers) : List.range' l (net.nbLayers - l) =
    l :: List.range' (l + 1) (net.nbLayers - (l + 1)) := by
  rw [show net.nbLayers - l = net.nbLayers - (l + 1) + 1 by omega, List.range'_succ]

section down

variable [Add α] [Mul α] {states : States α} {acc : UpdateR α} {l : Nat}

theorem updateUnit_ok (hs : Fits net image states) (hl : l < net.nbLayers)
    (hacc : Down net image (l + 1) acc) (hhalves : l + 1 < net.nbLayers → Halves image l) :
    ∃ acc', updateUnit net k states l acc = .ok acc' ∧ Down net image l acc' := by
  obtain ⟨xs, x, hxs, hx, hxx⟩ := exists_inputs hs hl (hacc.rUp (Nat.succ_pos l)) hhalves
  -- every gate sees the joined inputs and has the size of the cell
  have hchannels : x.extent.channels = net.nbChannels .i l := by rw [hxx]; rfl
  have hsize : { x.extent with channels := net.rStackSize l } =
      downscale image l (net.rStackSize l) := by rw [hxx]; rfl
  obtain ⟨i, hi, hix⟩ := exists_callConv k .i hl hchannels
  obtain ⟨f, hf, hfx⟩ := exists_callConv k .f hl hchannels
  obtain ⟨o, ho, hox⟩ := exists_callConv k .o hl hchannels
  obtain ⟨g, hg, hgx⟩ := exists_callConv k .c hl hchannels
  obtain ⟨cell, hcell, hcellx⟩ := exists_item hs.c hl
  obtain ⟨kept, hkept, hkeptx⟩ := exists_zipWith (· * ·) (hfx.trans (hsize.trans hcellx.symm))
  obtain ⟨added, hadded, haddedx⟩ := exists_zipWith (· * ·) (hix.trans hgx.symm)
  have hkeptx := hkeptx.trans (hfx.trans hsize)
  obtain ⟨c, hc, hcx⟩ := exists_zipWith (· + ·)
    (hkeptx.trans (haddedx.trans (hix.trans hsize)).symm)
  have hcx := hcx.trans hkeptx
  obtain ⟨r, hr, hrx⟩ := exists_zipWith (· * ·) (y := c.map k.lstmActivation)
    ((hox.trans hsize).trans hcx.symm)
  have hrx := hrx.trans (hox.trans hsize)
  refine ⟨⟨r :: acc.r, c :: acc.c, if 0 < l then some (upsample r) else acc.rUp⟩, ?_, ?_, ?_, ?_⟩
  · simp only [updateUnit, hxs, hx, hi, hf, ho, hg, hcell, hkept, hadded, hc, hr, ok_bind]
    rfl
  · rw [range'_layers hl, List.map_cons, List.map_cons, hrx, hacc.r]
  · rw [range'_layers hl, List.map_cons, List.map_cons, hcx, hacc.c]
  · intro hpos _
    refine ⟨upsample r, if_pos hpos, ?_⟩
    rw [upsample, hrx]
    rfl

theorem updateUnit_error (hs : Fits net image states) (hl : l + 1 < net.nbLayers)
    (hacc : Down net image (l + 1) acc) (hodd : ¬ Halves image l) :
    updateUnit net k states l acc = .error (.shape .concatenate) := by
  obtain ⟨rUp, hrUp, hrUpx⟩ := hacc.rUp (Nat.succ_pos l) hl
  obtain ⟨xs, hxs, hx⟩ := unitInputs_error hs hl hrUp hrUpx hodd
  simp only [updateUnit, hxs, hx, Bind.bind, Except.bind]

/-- The way down to layer `l`. -/
def downTo (net : PredNet) (k : Kernels α) (states : States α) (l : Nat) :
    Except NetError (UpdateR α) :=
  (List.range' l (net.nbLayers - l)).foldrM (updateUnit net k states) ⟨[], [], none⟩

theorem downTo_eq (hl : l < net.nbLayers) : downTo net k states l =
    (downTo net k states (l + 1)).bind (updateUnit net k states l) := by
  rw [downTo, range'_layers hl, List.foldrM_cons]
  rfl

/-- **The way down succeeds** if all sizes on it but the last can be halved,
and fails where the highest of them cannot. -/
theorem downTo_spec (hs : Fits net image states) (hl : l ≤ net.nbLayers) :
    ((∀ m, l ≤ m → m + 1 < net.nbLayers → Halves image m) ∧
      ∃ acc, downTo net k states l = .ok acc ∧ Down net image l acc) ∨
    ((¬ ∀ m, l ≤ m → m + 1 < net.nbLayers → Halves image m) ∧
      downTo net k states l = .error (.shape .concatenate)) := by
  induction hl using Nat.decreasingInduction with
  | self =>
      refine .inl ⟨fun m _ _ => by omega, _, ?_, down_start⟩
      rw [downTo, Nat.sub_self]
      rfl
  | of_succ l hl ih =>
      rw [downTo_eq hl]
      rcases ih with ⟨habove, acc, hacc, hdown⟩ | ⟨habove, hacc⟩
      · by_cases hhalves : l + 1 < net.nbLayers → Halves image l
        · obtain ⟨acc', hacc', hdown'⟩ := updateUnit_ok (k := k) hs hl hdown hhalves
          refine .inl ⟨fun m hm hlast => ?_, acc', by rw [hacc]; exact hacc', hdown'⟩
          rcases Nat.eq_or_lt_of_le hm with rfl | hm
          · exact hhalves hlast
          · exact habove m hm hlast
        · obtain ⟨hlast, hodd⟩ := Classical.not_imp.mp hhalves
          refine .inr ⟨fun h => hodd (h l (Nat.le_refl l) hlast), ?_⟩
          rw [hacc]
          exact updateUnit_error hs hlast hdown hodd
      · exact .inr ⟨fun h => habove fun m hm => h m (by omega), by rw [hacc]; rfl⟩

end down

/-! ## the way up -/

/-- The size of the units of a type in layer `num`. -/
def layerExtent (net : PredNet) (image : Extent) (type : String) (num : Nat) : Extent :=
  downscale image num ((if type = "E" then 2 else 1) *
    if type = "R" then net.rStackSize num else net.stackSize num)

/-- The size of the output that the layers below `n` have chosen. -/
def outputExtent (net : PredNet) (image : Extent) (n : Nat) : Option Extent :=
  match net.outputLayer with
  | none => none
  | some (type, num) =>
      if type ∈ layerTypes ∧ num < n then some (layerExtent net image type num) else none

theorem extent_layerOutput {l : Nat} {a ahat r e : Tensor α} {output : Option (Tensor α)}
    (ha : a.extent = downscale image l (net.stackSize l))
    (hahat : ahat.extent = downscale image l (net.stackSize l))
    (hr : r.extent = downscale image l (net.rStackSize l))
    (he : e.extent = downscale image l (2 * net.stackSize l))
    (houtput : output.map Tensor.extent = outputExtent net image l) :
    (layerOutput net l a ahat r e output).map Tensor.extent = outputExtent net image (l + 1) := by
  unfold layerOutput outputExtent at *
  cases hlayer : net.outputLayer with
  | none => simpa only [hlayer] using houtput
  | some layer =>
      obtain ⟨type, num⟩ := layer
      simp only [hlayer] at houtput ⊢
      by_cases hnum : num = l
      · subst hnum
        rw [if_neg (by omega)] at houtput
        simp only [if_pos, Nat.lt_succ_self, and_true, layerTypes, List.mem_cons,
          List.not_mem_nil, or_false]
        by_cases hA : type = "A"
        · simp [hA, ha, layerExtent]
        · by_cases hAhat : type = "Ahat"
          · simp [hAhat, hahat, layerExtent]
          · by_cases hR : type = "R"
            · simp [hR, hr, layerExtent]
            · by_cases hE : type = "E"
              · simp [hE, he, layerExtent]
              · simpa [hA, hAhat, hR, hE] using houtput
      · rw [if_neg hnum, houtput]
        simp only [show num < l + 1 ↔ num < l by omega]

/-- What the layers below `n` have passed up. -/
structure Up (net : PredNet) (image : Extent) (n : Nat) (acc : Feedforward α) : Prop where
  a : n < net.nbLayers → acc.a.extent = downscale image n (net.stackSize n)
  e : acc.e.map Tensor.extent =
    (List.range n).map fun l => downscale image l (2 * net.stackSize l)
  framePrediction : 0 < n → ∃ p, acc.framePrediction = some p ∧
    p.extent = downscale image 0 (net.stackSize 0)
  output : acc.output.map Tensor.extent = outputExtent net image n

theorem up_start {a : Tensor α} (ha : a.extent = downscale image 0 (net.stackSize 0)) :
    Up net image 0 ⟨a, [], none, none⟩ where
  a := fun _ => ha
  e := rfl
  framePrediction := fun h => absurd h (Nat.lt_irrefl 0)
  output := by
    rw [outputExtent]
    split
    · rfl
    · rw [if_neg (fun h => Nat.not_lt_zero _ h.2)]
      rfl

theorem feedLayer_ok [Sub α] [Min α] [Max α] {rs : List (Tensor α)} {acc : Feedforward α}
    {l : Nat} (hrs : rs.map Tensor.extent =
      (List.range net.nbLayers).map fun l => downscale image l (net.rStackSize l))
    (hl : l < net.nbLayers) (hacc : Up net image l acc) :
    ∃ acc', feedLayer net k rs acc l = .ok acc' ∧ Up net image (l + 1) acc' := by
  obtain ⟨r, hr, hrx⟩ := exists_item hrs hl
  obtain ⟨conv, hconv, hconvx⟩ := exists_callConv k .ahat hl
    (show r.extent.channels = net.nbChannels .ahat l by rw [hrx]; rfl)
  have hconvx : conv.extent = downscale image l (net.stackSize l) := by
    rw [hconvx, hrx]
    rfl
  obtain ⟨ahat, hahat⟩ : ∃ ahat, ahat = if l = 0 then conv.map (min · k.pixelMax) else conv :=
    ⟨_, rfl⟩
  have hahatx : ahat.extent = downscale image l (net.stackSize l) := by
    rw [hahat]
    split <;> exact hconvx
  have hax := hacc.a hl
  obtain ⟨up, hup, hupx⟩ := exists_zipWith (· - ·) (hahatx.trans hax.symm)
  obtain ⟨down, hdown, hdownx⟩ := exists_zipWith (· - ·) (hax.trans hahatx.symm)
  have hupx := hupx.trans hahatx
  have hdownx := hdownx.trans hax
  obtain ⟨e, he⟩ := exists_join_iff.mpr (show
    (up.map k.errorActivation).extent.rows = (down.map k.errorActivation).extent.rows ∧
      (up.map k.errorActivation).extent.cols = (down.map k.errorActivation).extent.cols by
    rw [extent_map, extent_map, hupx, hdownx]
    exact ⟨rfl, rfl⟩)
  have hex : e.extent = downscale image l (2 * net.stackSize l) := by
    rw [extent_of_join he, extent_map, extent_map, hupx, hdownx]
    simp only [downscale, Extent.mk.injEq, true_and]
    omega
  have he : shapeError (concatenate [up.map k.errorActivation, down.map k.errorActivation]) =
      .ok e := by
    rw [concatenate_pair, he]
    rfl
  -- the target of the next layer, or the last one
  obtain ⟨target, htarget, htargetx⟩ : ∃ target, nextTarget net k l acc.a e = .ok target ∧
      (l + 1 < net.nbLayers → target.extent = downscale image (l + 1) (net.stackSize (l + 1))) := by
    rw [nextTarget]
    by_cases hlast : l < net.nbLayers - 1
    · obtain ⟨conv, hconv, hconvx⟩ := exists_callConv k .a hlast
        (show e.extent.channels = net.nbChannels .a l by rw [hex]; rfl)
      refine ⟨pool conv, by rw [if_pos hlast, hconv]; rfl, fun _ => ?_⟩
      rw [pool, hconvx, hex]
      simp only [downscale, filters, Nat.div_div_eq_div_mul, pow_succ]
    · exact ⟨acc.a, if_neg hlast, fun h => by omega⟩
  refine ⟨⟨target, acc.e ++ [e], if l = 0 then some ahat else acc.framePrediction,
    layerOutput net l acc.a ahat r e acc.output⟩, ?_, htargetx, ?_, ?_, ?_⟩
  · simp only [feedLayer, hr, hconv, ← hahat, hup, hdown, he, htarget, ok_bind]
    rfl
  · rw [List.map_append, hacc.e, List.range_succ, List.map_append, List.map_singleton,
      List.map_singleton, hex]
  · intro _
    cases l with
    | zero => exact ⟨ahat, rfl, hahatx⟩
    | succ l => exact hacc.framePrediction (Nat.succ_pos l)
  · exact extent_layerOutput hax hahatx hrx hex hacc.output

theorem exists_feedforward [Sub α] [Min α] [Max α] {rs : List (Tensor α)} {a : Tensor α} {n : Nat}
    (hrs : rs.map Tensor.extent =
      (List.range net.nbLayers).map fun l => downscale image l (net.rStackSize l))
    (ha : a.extent = downscale image 0 (net.stackSize 0)) (hn : n ≤ net.nbLayers) :
    ∃ acc, (List.range n).foldlM (feedLayer net k rs) ⟨a, [], none, none⟩ = .ok acc ∧
      Up net image n acc := by
  induction n with
  | zero => exact ⟨_, rfl, up_start ha⟩
  | succ n ih =>
      obtain ⟨acc, hacc, hup⟩ := ih (Nat.le_of_succ_le hn)
      obtain ⟨acc', hacc', hup'⟩ := feedLayer_ok (k := k) hrs hn hup
      refine ⟨acc', ?_, hup'⟩
      rw [List.range_succ, List.foldlM_append, hacc, ok_bind, List.foldlM_cons, hacc']
      rfl

/-! ## output modes -/

theorem toList_toString (n : Nat) : (toString n).toList =
    if n < 10 then [Nat.digitChar n] else (toString (n / 10)).toList ++ [Nat.digitChar (n % 10)] := by
  rw [Nat.toString_eq_repr, Nat.toString_eq_repr, Nat.repr, Nat.repr, String.toList_ofList,
    String.toList_ofList, Nat.toDigits_eq_if (by decide)]

theorem splitMode_append (type : String) (n : Nat) : splitMode (type ++ toString n) =
    if n < 10 then (type, n) else (type ++ toString (n / 10), n % 10) := by
  have hdigit : ∀ d < 10, (Nat.digitChar d).toNat - '0'.toNat = d := by decide
  rw [splitMode, String.toList_append, toList_toString]
  split
  · next hn =>
    rw [List.dropLast_concat, List.getLastD_concat, hdigit n hn, String.ofList_toList]
  · next hn =>
    rw [← List.append_assoc, List.dropLast_concat, List.getLastD_concat,
      hdigit _ (Nat.mod_lt n (by decide)), ← String.toList_append, String.ofList_toList]

/-- The layer that was asked for is one that `step` recognises. -/
def Readable (net : PredNet) : Prop :=
  ∀ type num, net.outputLayer = some (type, num) → type ∈ layerTypes

theorem mem_layerOutputModes {mode : String} {n : Nat} : mode ∈ layerOutputModes n ↔
    ∃ l < n, ∃ type ∈ layerTypes, mode = type ++ toString l := by
  simp only [layerOutputModes, List.mem_flatMap, List.mem_range, List.mem_map, eq_comm]

theorem not_mem_layerOutputModes {mode : String} {n : Nat} (h : mode ∈ defaultOutputModes) :
    mode ∉ layerOutputModes n := by
  rw [mem_layerOutputModes]
  rintro ⟨l, -, type, htype, rfl⟩
  simp only [defaultOutputModes, List.mem_cons, List.not_mem_nil, or_false, String.ext_iff,
    String.toList_append] at h
  simp only [layerTypes, List.mem_cons, List.not_mem_nil, or_false] at htype
  rcases htype with rfl | rfl | rfl | rfl <;> simp at h

/-- Either the default modes apply, or a layer was asked for. -/
theorem outputMode_cases (net : PredNet) :
    (net.outputMode ∈ defaultOutputModes ∧ net.outputLayer = none) ∨
    (∃ l < net.nbLayers, ∃ type ∈ layerTypes, net.outputMode = type ++ toString l ∧
      net.outputMode ∉ defaultOutputModes ∧ net.outputLayer =
        some (if l < 10 then (type, l) else (type ++ toString (l / 10), l % 10))) := by
  cases List.mem_append.mp net.outputMode_mem with
  | inl h => exact .inl ⟨h, if_neg (not_mem_layerOutputModes h)⟩
  | inr h =>
      obtain ⟨l, hl, type, htype, hmode⟩ := mem_layerOutputModes.mp h
      refine .inr ⟨l, hl, type, htype, hmode, fun h' => not_mem_layerOutputModes h' h, ?_⟩
      rw [outputLayer, if_pos (by exact h), hmode, splitMode_append]

/-- No unit type ends in a digit. -/
theorem append_toString_not_mem (type : String) (n : Nat) : type ++ toString n ∉ layerTypes := by
  have hdigit : ∀ d < 10, Nat.digitChar d ∉ layerTypes.map fun type => type.toList.getLastD '0' := by
    decide
  intro h
  have hlast : (type ++ toString n).toList.getLastD '0' = Nat.digitChar (n % 10) := by
    rw [String.toList_append, toList_toString]
    split
    · next hn => rw [List.getLastD_concat, Nat.mod_eq_of_lt hn]
    · rw [← List.append_assoc, List.getLastD_concat]
  exact hdigit _ (Nat.mod_lt n (by decide)) (List.mem_map.mpr ⟨_, h, hlast⟩)

/-- `step` recognises the layers with one digit. -/
theorem readable_iff (net : PredNet) : Readable net ↔ net.outputMode ∈ defaultOutputModes ∨
    ∃ l < 10, ∃ type ∈ layerTypes, net.outputMode = type ++ toString l := by
  rcases outputMode_cases net with ⟨hmode, hlayer⟩ | ⟨l, -, type, htype, hmode, hdefault, hlayer⟩
  · exact iff_of_true (fun type num h => by rw [hlayer] at h; cases h) (.inl hmode)
  · by_cases hl : l < 10
    · rw [if_pos hl] at hlayer
      refine iff_of_true (fun type' num h => ?_) (.inr ⟨l, hl, type, htype, hmode⟩)
      rw [hlayer, Option.some.injEq, Prod.mk.injEq] at h
      exact h.1 ▸ htype
    · rw [if_neg hl] at hlayer
      refine iff_of_false (fun h => append_toString_not_mem _ _ (h _ _ hlayer)) ?_
      rintro (h | ⟨l', hl', type', htype', hmode'⟩)
      · exact hdefault h
      -- the two spellings of the mode are split in the same way
      · have hsplit := congrArg splitMode (hmode.symm.trans hmode')
        rw [splitMode_append, if_neg hl, splitMode_append, if_pos hl', Prod.mk.injEq] at hsplit
        exact append_toString_not_mem _ _ (hsplit.1 ▸ htype')

/-! ## a step -/

theorem length_flatten (net : PredNet) (x : Tensor α) : (flatten net x).length =
    x.extent.rows * x.extent.cols * x.extent.channels := by
  rw [flatten]
  split
  · simp only [List.length_flatMap, List.length_map, List.length_range, List.map_const',
      List.sum_replicate, smul_eq_mul]
    ring
  · simp only [List.length_flatMap, List.length_map, List.length_range, List.map_const',
      List.sum_replicate, smul_eq_mul]
    ring

theorem nbLayers_pos (net : PredNet) : 0 < net.nbLayers :=
  Nat.lt_of_lt_of_eq (Nat.succ_pos _) net.length_aFiltSizes

/-- The image can be halved for every layer, and the output is known. -/
def Runs (net : PredNet) (image : Extent) : Prop :=
  (∀ l, l + 1 < net.nbLayers → Halves image l) ∧ Readable net

theorem cast_div_two_pow {m n l : Nat} (hm : 2 ^ n ∣ m) (hl : l ≤ n) :
    ((m / 2 ^ l : Nat) : ℚ) = (m : ℚ) / 2 ^ l := by
  rw [Nat.cast_div ((pow_dvd_pow 2 hl).trans hm) (by positivity), Nat.cast_pow, Nat.cast_ofNat]

/-- The shape of the output of one step. -/
def Shaped (net : PredNet) (image : Extent) (o : Output α) : Prop :=
  ∀ nt, computeOutputShape net nt image =
    if net.returnSequences then (nt : ℚ) :: o.shape net else o.shape net

theorem stepOutput_spec {acc : Feedforward α} {p : Tensor α}
    (hhalves : ∀ l, l + 1 < net.nbLayers → Halves image l)
    (hacc : Up net image net.nbLayers acc) (hp : p.extent = image) :
    (Readable net ∧ ∃ o, stepOutput net k p acc = .ok o ∧ Shaped net image o) ∨
      (¬ Readable net ∧ stepOutput net k p acc = .error (.unboundLocal "output")) := by
  have hlength : acc.e.length = net.nbLayers := by
    simpa using congrArg List.length hacc.e
  rcases outputMode_cases net with ⟨hmode, hlayer⟩ | ⟨l, hl, type, htype, hmode, hdefault, hlayer⟩
  · refine .inl ⟨fun type num h => (by rw [hlayer] at h; cases h), ?_⟩
    rw [stepOutput, hlayer]
    simp only [defaultOutputModes, List.mem_cons, List.not_mem_nil, or_false] at hmode
    rcases hmode with hmode | hmode | hmode
    · exact ⟨.image p, by simp [hmode],
        fun nt => by simp [computeOutputShape, hmode, Output.shape, hp]⟩
    · exact ⟨.vector (acc.e.map fun e => k.mean (flatten net e)), by simp [hmode],
        fun nt => by simp [computeOutputShape, hmode, Output.shape, hlength]⟩
    · exact ⟨.vector (flatten net p ++ acc.e.map fun e => k.mean (flatten net e)), by simp [hmode],
        fun nt => by simp [computeOutputShape, hmode, Output.shape, hlength, length_flatten, hp]⟩
  · simp only [defaultOutputModes, List.mem_cons, List.not_mem_nil, or_false, not_or] at hdefault
    have houtput := hacc.output
    rw [outputExtent, hlayer] at houtput
    rw [stepOutput, hlayer]
    by_cases hdigit : l < 10
    · refine .inl ⟨(readable_iff net).mpr (.inr ⟨l, hdigit, type, htype, hmode⟩), ?_⟩
      simp only [if_pos hdigit, htype, hl, and_self, if_true, Option.map_eq_some_iff] at houtput
      obtain ⟨x, hx, hxx⟩ := houtput
      refine ⟨.image x, by simp [hx, bound], fun nt => ?_⟩
      -- the divisions of `compute_output_shape` leave no rest
      obtain ⟨hrows, hcols⟩ := (forall_halves_iff image net.nbLayers).mp hhalves
      have hrows := cast_div_two_pow hrows (Nat.le_sub_one_of_lt hl)
      have hcols := cast_div_two_pow hcols (Nat.le_sub_one_of_lt hl)
      rw [computeOutputShape, if_neg hdefault.1, if_neg hdefault.2.1, if_neg hdefault.2.2, hlayer]
      simp only [if_pos hdigit, Output.shape, hxx, layerExtent, downscale, hrows, hcols]
    · refine .inr ⟨fun h => append_toString_not_mem _ _ (h _ _ (by rw [hlayer, if_neg hdigit])), ?_⟩
      simp only [if_neg hdigit, append_toString_not_mem, false_and, if_false,
        Option.map_eq_none_iff] at houtput
      simp [houtput, bound]

section step

variable [Add α] [Mul α] [Sub α] [Min α] [Max α] {states : States α} {a : Tensor α}

/-- A step on an image that fits ends with one, or it raises. -/
structure Stepped (net : PredNet) (image : Extent) (r : Output α × Tensor α × States α) : Prop where
  output : Shaped net image r.1
  prediction : r.2.1.extent = image
  states : Fits net image r.2.2

theorem stepActual_spec (hs : Fits net image states) (hchannels : image.channels = net.stackSize 0)
    (ha : a.extent = image) :
    (Runs net image ∧ ∃ r, stepActual net k states a = .ok r ∧ Stepped net image r) ∨
      (¬ Runs net image ∧ ∃ e, stepActual net k states a = .error e) := by
  have himage : image = downscale image 0 (net.stackSize 0) := by
    rw [downscale, ← hchannels, pow_zero, Nat.div_one, Nat.div_one]
  have hdownTo : (List.range net.nbLayers).foldrM (updateUnit net k states) ⟨[], [], none⟩ =
      downTo net k states 0 := by rw [downTo, Nat.sub_zero, List.range_eq_range']
  rw [stepActual, hdownTo]
  rcases downTo_spec (k := k) hs (Nat.zero_le _) with ⟨hhalves, down, hdown, hspec⟩ | ⟨hhalves, hdown⟩
  · have hr := hspec.r
    have hc := hspec.c
    rw [Nat.sub_zero, ← List.range_eq_range'] at hr hc
    obtain ⟨up, hup, hspec⟩ := exists_feedforward (k := k) hr (ha.trans himage) (Nat.le_refl _)
    obtain ⟨p, hp, hpx⟩ := hspec.framePrediction (nbLayers_pos net)
    have hpx := hpx.trans himage.symm
    rw [hdown, ok_bind, hup, ok_bind, hp]
    have hhalves : ∀ l, l + 1 < net.nbLayers → Halves image l := fun l => hhalves l (Nat.zero_le l)
    rcases stepOutput_spec (k := k) hhalves hspec hpx with
      ⟨hread, o, ho, hshape⟩ | ⟨hread, ho⟩
    · refine .inl ⟨⟨hhalves, hread⟩, (o, p, { states with r := down.r, c := down.c, e := up.e }), ?_,
        hshape, hpx, hr, hc, hspec.e, hs.extrap⟩
      rw [bound, ok_bind, ho]
      rfl
    · exact .inr ⟨fun h => hread h.2, _, by rw [bound, ok_bind, ho]; rfl⟩
  · exact .inr ⟨fun h => hhalves fun m _ => h.1 m, _, by rw [hdown]; rfl⟩

theorem step_spec (hs : Fits net image states) (hchannels : image.channels = net.stackSize 0)
    (ha : a.extent = image) :
    (Runs net image ∧ ∃ r, step net k states a = .ok r ∧ Stepped net image r) ∨
      (¬ Runs net image ∧ ∃ e, step net k states a = .error e) := by
  rw [step]
  cases hstart : net.extrapStartTime with
  | none => exact stepActual_spec hs hchannels ha
  | some start =>
      have hextrap := hs.extrap
      rw [hstart, Option.map_some, Option.map_eq_some_iff] at hextrap
      obtain ⟨⟨previous, t⟩, hprevious, hpx⟩ := hextrap
      have hpx : previous.extent = image := by
        rw [hpx, downscale, ← hchannels, pow_zero, Nat.div_one, Nat.div_one]
      have hactual : (if start ≤ t then previous else a).extent = image := by
        split
        · exact hpx
        · exact ha
      simp only [hprevious]
      rcases stepActual_spec (k := k) hs hchannels hactual with
        ⟨hruns, ⟨o, p, s⟩, hstep, hspec⟩ | ⟨hruns, e, hstep⟩
      · refine .inl ⟨hruns, (o, p, { s with extrap := some (p, t + 1) }), by rw [hstep]; rfl,
          hspec.output, hspec.prediction, hspec.states.r, hspec.states.c, hspec.states.e, ?_⟩
        rw [hstart, Option.map_some, Option.map_some, hspec.prediction, downscale, ← hchannels,
          pow_zero, Nat.div_one, Nat.div_one]
      · exact .inr ⟨hruns, e, by rw [hstep]; rfl⟩

/-! ## a sequence of frames -/

theorem run_spec (hs : Fits net image states) (hchannels : image.channels = net.stackSize 0)
    (hruns : Runs net image) {frames : List (Tensor α)} (hframes : ∀ x ∈ frames, x.extent = image) :
    ∃ os states', Feedback.run (step net k) states frames = .ok (os, states') ∧
      Fits net image states' ∧ ∀ o ∈ os, Shaped net image o.1 ∧ o.2.extent = image := by
  induction frames generalizing states with
  | nil => exact ⟨[], states, rfl, hs, fun o ho => absurd ho List.not_mem_nil⟩
  | cons x frames ih =>
      rw [List.forall_mem_cons] at hframes
      rcases step_spec (k := k) hs hchannels hframes.1 with
        ⟨-, ⟨o, p, s⟩, hstep, hspec⟩ | ⟨hnot, -⟩
      · obtain ⟨os, s', hrun, hfits, hos⟩ := ih hspec.states hframes.2
        exact ⟨(o, p) :: os, s', Feedback.run_cons_eq_ok.mpr ⟨o, p, s, os, hstep, hrun, rfl⟩, hfits,
          List.forall_mem_cons.mpr ⟨⟨hspec.output, hspec.prediction⟩, hos⟩⟩
      · exact absurd hruns hnot

variable [Zero α] {frames : List (Tensor α)} {os : List (Output α × Tensor α)} {s : States α}

theorem exists_call (hchannels : image.channels = net.stackSize 0) (hruns : Runs net image)
    (hframes : ∀ x ∈ frames, x.extent = image) :
    ∃ os s, call net k image frames = .ok (os, s) ∧
      Fits net image s ∧ ∀ o ∈ os, Shaped net image o.1 ∧ o.2.extent = image :=
  run_spec (fits_getInitialState net image) hchannels hruns hframes

theorem runs_of_call (hchannels : image.channels = net.stackSize 0)
    (hframes : ∀ x ∈ frames, x.extent = image) (hne : frames ≠ [])
    (h : call net k image frames = .ok (os, s)) : Runs net image := by
  obtain ⟨x, frames, rfl⟩ := List.exists_cons_of_ne_nil hne
  obtain ⟨o, p, s', os', hstep, -⟩ := Feedback.run_cons_eq_ok.mp h
  rcases step_spec (k := k) (fits_getInitialState net image) hchannels
    (hframes x List.mem_cons_self) with ⟨hruns, -⟩ | ⟨-, e, he⟩
  · exact hruns
  · rw [he] at hstep
    cases hstep

theorem runs_iff : Runs net image ↔
    2 ^ (net.nbLayers - 1) ∣ image.rows ∧ 2 ^ (net.nbLayers - 1) ∣ image.cols ∧
      (net.outputMode ∈ defaultOutputModes ∨
        ∃ l < 10, ∃ type ∈ layerTypes, net.outputMode = type ++ toString l) := by
  rw [Runs, forall_halves_iff, readable_iff, and_assoc]

/-- **The layer runs on an image** whose sides `2 ^ (nb_layers - 1)` divides,
with a default output mode or a layer of one digit, and on no other. -/
theorem call_iff (hchannels : image.channels = net.stackSize 0)
    (hframes : ∀ x ∈ frames, x.extent = image) (hne : frames ≠ []) :
    (∃ r, call net k image frames = .ok r) ↔
      2 ^ (net.nbLayers - 1) ∣ image.rows ∧ 2 ^ (net.nbLayers - 1) ∣ image.cols ∧
        (net.outputMode ∈ defaultOutputModes ∨
          ∃ l < 10, ∃ type ∈ layerTypes, net.outputMode = type ++ toString l) := by
  rw [← runs_iff]
  constructor
  · rintro ⟨⟨os, s⟩, h⟩
    exact runs_of_call hchannels hframes hne h
  · intro hruns
    obtain ⟨os, s, h, -⟩ := exists_call hchannels hruns hframes
    exact ⟨_, h⟩

/-- Two frames with an even number of rows, and one with an odd number. -/
theorem call_iff_sample :
    (∃ r, call sample sampleKernels ⟨2, 4, 1⟩
      [Tensor.fill ⟨2, 4, 1⟩ 5, Tensor.fill ⟨2, 4, 1⟩ 6] = .ok r) ∧
    ¬ ∃ r, call sample sampleKernels ⟨3, 4, 1⟩ [Tensor.fill ⟨3, 4, 1⟩ 5] = .ok r := by
  rw [call_iff rfl (by simp) (by simp), call_iff rfl (by simp) (by simp)]
  decide

/-- **Every output has the shape of `compute_output_shape`**, and every
prediction the shape of a frame. -/
theorem shape_of_call (hchannels : image.channels = net.stackSize 0)
    (hframes : ∀ x ∈ frames, x.extent = image) (h : call net k image frames = .ok (os, s)) :
    os.length = frames.length ∧ Fits net image s ∧
      ∀ o ∈ os, o.2.extent = image ∧ computeOutputShape net frames.length image =
        if net.returnSequences then (frames.length : ℚ) :: o.1.shape net else o.1.shape net := by
  refine ⟨Feedback.length_of_run h, ?_⟩
  cases frames with
  | nil =>
      obtain ⟨rfl, rfl⟩ := Prod.mk.inj (Except.ok.inj h)
      exact ⟨fits_getInitialState net image, fun o ho => absurd ho List.not_mem_nil⟩
  | cons x frames =>
      have hruns := runs_of_call hchannels hframes (List.cons_ne_nil x frames) h
      obtain ⟨os', s', hrun, hfits, hos⟩ := exists_call (k := k) hchannels hruns hframes
      obtain ⟨rfl, rfl⟩ := Prod.mk.inj (Except.ok.inj (h.symm.trans hrun))
      exact ⟨hfits, fun o ho => ⟨(hos o ho).2, (hos o ho).1 _⟩⟩

theorem shape_of_call_sample : ∃ os s, call sample sampleKernels ⟨2, 4, 1⟩
      [Tensor.fill ⟨2, 4, 1⟩ 5, Tensor.fill ⟨2, 4, 1⟩ 6] = .ok (os, s) ∧ os.length = 2 ∧
    ∀ o ∈ os, o.2.extent = ⟨2, 4, 1⟩ := by
  have hframes : ∀ x ∈ [Tensor.fill ⟨2, 4, 1⟩ 5, Tensor.fill ⟨2, 4, 1⟩ (6 : ℤ)],
      x.extent = ⟨2, 4, 1⟩ := by simp
  have hruns : Runs sample ⟨2, 4, 1⟩ := runs_iff.mpr (by decide)
  obtain ⟨os, s, h, -⟩ := exists_call (k := sampleKernels) rfl hruns hframes
  have hshape := shape_of_call rfl hframes h
  exact ⟨os, s, h, hshape.1, fun o ho => (hshape.2.2 o ho).1⟩

end step

end ContainerHackathon.Training.PredNet
