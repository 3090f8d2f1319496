import ContainerHackathon.Horovod.Message
import ContainerHackathon.Lib.Fallible

/-!
# Horovod.Fusion

`FuseResponses`: reductions and gathers of one kind are fused as long as they
fit the fusion buffer.  Responses that do not fit are skipped, and come first
afterwards.

Ranks fuse on their own, each from the tensors in its own table; they do the
same because only types and shapes are looked at (`fuseResponses_congr`).
-/

namespace ContainerHackathon.Horovod

open Fallible

/-- How the tensors of a rank are looked up. -/
abbrev Lookup := String → Except Failure TensorInfo

/-- `TotalByteSizeOfAllgatherOutput`. -/
def totalByteSizeOfAllgatherOutput (tensorSizes : List Nat) (t : TensorInfo) : Nat :=
  tensorSizes.sum * t.shape.tail.prod * t.dtype.typeSize

/-- What differs between reductions and gathers: whether a response can be
fused with the first one, and how many bytes it adds. -/
structure FusionRule where
  fits : Response → TensorInfo → Bool
  size : Response → TensorInfo → Nat
  fuse : Response → Response → Response

/-- The name of a response that is not fused. -/
def singleName (response : Response) : Except Failure String :=
  match response.tensorNames with
  | [name] => .ok name
  | _ => .error .assertion

/-- The inner loop: the fused response, and the responses that are left. -/
def lookAhead (threshold : Nat) (rule : FusionRule) (lookup : Lookup) :
    Response → Nat → List Response → Nat → List Response → Except Failure (Response × List Response)
  | response, _, skipped, _, [] => .ok (response, skipped)
  | response, size, skipped, skippedSize, new :: rest => do
      let name ← singleName new
      let t ← lookup name
      let newSize := rule.size new t
      if rule.fits new t && size + newSize ≤ threshold then
        -- These tensors will fuse together well.
        lookAhead threshold rule lookup (rule.fuse response new) (size + newSize) skipped
          skippedSize rest
      else if size + (skippedSize + newSize) ≤ threshold then
        -- Skip response and look ahead for more to fuse.
        lookAhead threshold rule lookup response size (skipped ++ [new]) (skippedSize + newSize) rest
      else .ok (response, skipped ++ new :: rest)

/-- The rule for `ALLREDUCE` and `ADASUM`, with the tensor of the first
response if there is one. -/
def reduceRule (response : Response) (own : Option TensorInfo) : FusionRule where
  fits := fun new t => own.any fun o => decide (response.responseType = new.responseType ∧
    response.devices = new.devices ∧ o.dtype = t.dtype)
  size := fun _ t => t.size
  fuse := fun r new => { r with tensorNames := r.tensorNames ++ new.tensorNames }

/-- The rule for `ALLGATHER`. -/
def gatherRule (response : Response) (own : TensorInfo) : FusionRule where
  fits := fun new t => decide (response.responseType = new.responseType ∧
    response.devices = new.devices ∧ own.dtype = t.dtype)
  size := fun new t => totalByteSizeOfAllgatherOutput new.tensorSizes t
  fuse := fun r new => { r with
    tensorNames := r.tensorNames ++ new.tensorNames
    tensorSizes := r.tensorSizes ++ new.tensorSizes }

/-- The body of the outer loop: the next response of the list, and what is
left. -/
def fuseNext (threshold : Nat) (lookup : Lookup) (response : Response) (rest : List Response) :
    Except Failure (Response × List Response) := do
  let name ← singleName response
  match response.responseType with
  | .allreduce | .adasum =>
      let own := (lookup name).toOption
      lookAhead threshold (reduceRule response own) lookup response
        (own.elim 0 TensorInfo.size) [] 0 rest
  | .allgather => do
      let own ← lookup name
      lookAhead threshold (gatherRule response own) lookup response
        (totalByteSizeOfAllgatherOutput response.tensorSizes own) [] 0 rest
  | .broadcast | .error => return (response, rest)

/-- The outer loop, as often as there are responses. -/
def fuseLoop (threshold : Nat) (lookup : Lookup) :
    Nat → List Response → Except Failure (List Response)
  | _, [] => .ok []
  | 0, _ :: _ => .error .undefined
  | fuel + 1, response :: rest => do
      let (fused, left) ← fuseNext threshold lookup response rest
      let more ← fuseLoop threshold lookup fuel left
      return fused :: more

/-- `FuseResponses`. -/
def fuseResponses (threshold : Nat) (lookup : Lookup) (responses : List Response) :
    Except Failure (List Response) :=
  fuseLoop threshold lookup responses.length responses

/-! ## the inner loop -/

/-- A response for a single tensor that is in the table. -/
def Known (lookup : Lookup) (r : Response) : Prop :=
  ∃ name t, r.tensorNames = [name] ∧ lookup name = .ok t

/-- A tensor with the operation that is done with it. -/
abbrev Tag := String × ResponseType × List Int

def tags (r : Response) : List Tag := r.tensorNames.map fun name => (name, r.responseType, r.devices)

/-- What a rule has to keep: only responses of one kind are fused. -/
structure FusionRule.Lawful (rule : FusionRule) (type : ResponseType) (devices : List Int) : Prop where
  of_fits : ∀ new t, rule.fits new t = true → new.responseType = type ∧ new.devices = devices
  names : ∀ r new, (rule.fuse r new).tensorNames = r.tensorNames ++ new.tensorNames
  type : ∀ r new, (rule.fuse r new).responseType = r.responseType
  devices : ∀ r new, (rule.fuse r new).devices = r.devices

theorem lawful_reduceRule (response : Response) (own : Option TensorInfo) :
    (reduceRule response own).Lawful response.responseType response.devices where
  of_fits := fun new t h => by
    simp only [reduceRule, Option.any_eq_true, decide_eq_true_eq] at h
    obtain ⟨o, -, htype, hdevices, -⟩ := h
    exact ⟨htype.symm, hdevices.symm⟩
  names := fun _ _ => rfl
  type := fun _ _ => rfl
  devices := fun _ _ => rfl

theorem lawful_gatherRule (response : Response) (own : TensorInfo) :
    (gatherRule response own).Lawful response.responseType response.devices where
  of_fits := fun new t h => by
    obtain ⟨htype, hdevices, -⟩ := of_decide_eq_true h
    exact ⟨htype.symm, hdevices.symm⟩
  names := fun _ _ => rfl
  type := fun _ _ => rfl
  devices := fun _ _ => rfl

variable {threshold : Nat} {rule : FusionRule} {lookup lookup' : Lookup} {response : Response}

theorem Known.singleName {r : Response} (h : Known lookup r) :
    ∃ name t, Horovod.singleName r = .ok name ∧ lookup name = .ok t ∧ r.tensorNames = [name] := by
  obtain ⟨name, t, hname, ht⟩ := h
  exact ⟨name, t, by rw [Horovod.singleName, hname], ht, hname⟩

/-- **The inner loop loses nothing**: the fused response and those that are
left do the same with the same tensors. -/
theorem exists_lookAhead (threshold : Nat) {type : ResponseType} {devices : List Int} (hrule : rule.Lawful type devices)
    {rest : List Response} (hrest : ∀ r ∈ rest, Known lookup r)
    (htype : response.responseType = type) (hdevices : response.devices = devices)
    (skipped : List Response) (size skippedSize : Nat) :
    ∃ fused left, lookAhead threshold rule lookup response size skipped skippedSize rest =
        .ok (fused, left) ∧
      (tags fused ++ left.flatMap tags).Perm (tags response ++ (skipped ++ rest).flatMap tags) ∧
      left.Sublist (skipped ++ rest) ∧ response.tensorNames <+: fused.tensorNames ∧
      fused.responseType = type ∧ fused.devices = devices := by
  induction rest generalizing response size skipped skippedSize with
  | nil =>
      rw [List.append_nil]
      exact ⟨response, skipped, rfl, .refl _, .refl _, List.prefix_refl _, htype, hdevices⟩
  | cons new rest ih =>
      rw [List.forall_mem_cons] at hrest
      obtain ⟨name, t, hsingle, ht, hname⟩ := hrest.1.singleName
      rw [lookAhead, hsingle, ok_bind, ht, ok_bind]
      simp only
      split
      · next hfits =>
        rw [Bool.and_eq_true] at hfits
        obtain ⟨hnewType, hnewDevices⟩ := hrule.of_fits new t hfits.1
        obtain ⟨fused, left, hrun, hperm, hsub, hprefix, hresult⟩ := ih hrest.2
          (show (rule.fuse response new).responseType = type by rw [hrule.type, htype])
          (show (rule.fuse response new).devices = devices by rw [hrule.devices, hdevices])
          skipped (size + rule.size new t) skippedSize
        refine ⟨fused, left, hrun, hperm.trans ?_, hsub.trans ?_, ?_, hresult⟩
        · have htags : tags (rule.fuse response new) = tags response ++ tags new := by
            rw [tags, tags, tags, hrule.names, hrule.type, hrule.devices, List.map_append, hnewType,
              hnewDevices, htype, hdevices]
          rw [htags, List.flatMap_append, List.flatMap_append, List.flatMap_cons, List.append_assoc]
          exact List.perm_append_comm_assoc _ _ _ |>.append_left _
        · exact (List.Sublist.refl skipped).append (List.sublist_cons_self new rest)
        · rw [hrule.names] at hprefix
          exact (List.prefix_append _ _).trans hprefix
      · split
        · obtain ⟨fused, left, hrun, hperm, hsub, hresult⟩ := ih hrest.2 htype hdevices
            (skipped ++ [new]) size (skippedSize + rule.size new t)
          rw [List.append_assoc, List.singleton_append] at hperm hsub
          exact ⟨fused, left, hrun, hperm, hsub, hresult⟩
        · exact ⟨response, skipped ++ new :: rest, rfl, .refl _, .refl _, List.prefix_refl _, htype,
            hdevices⟩

theorem lookAhead_congr {rest skipped : List Response} {size skippedSize : Nat}
    (h : ∀ r ∈ rest, ∀ name, r.tensorNames = [name] → lookup name = lookup' name) :
    lookAhead threshold rule lookup response size skipped skippedSize rest =
      lookAhead threshold rule lookup' response size skipped skippedSize rest := by
  induction rest generalizing response size skipped skippedSize with
  | nil => rfl
  | cons new rest ih =>
      rw [List.forall_mem_cons] at h
      rw [lookAhead, lookAhead]
      cases hsingle : singleName new with
      | error e => rfl
      | ok name =>
          have hname : new.tensorNames = [name] := by
            rw [singleName] at hsingle
            split at hsingle
            · next heq => rw [heq, Except.ok.inj hsingle]
            · cases hsingle
          simp only [ok_bind, h.1 name hname, ih h.2]

/-! ## fusing -/

theorem exists_fuseNext (threshold : Nat) {rest : List Response} (hresponse : Known lookup response)
    (hrest : ∀ r ∈ rest, Known lookup r) : ∃ fused left,
      fuseNext threshold lookup response rest = .ok (fused, left) ∧
      (tags fused ++ left.flatMap tags).Perm (tags response ++ rest.flatMap tags) ∧
      left.Sublist rest ∧ fused.tensorNames ≠ [] ∧ fused.responseType = response.responseType := by
  obtain ⟨name, t, hsingle, ht, hname⟩ := hresponse.singleName
  rw [fuseNext, hsingle, ok_bind]
  have hne : ∀ fused : Response, response.tensorNames <+: fused.tensorNames →
      fused.tensorNames ≠ [] := fun fused hprefix h => by
    rw [h, List.prefix_nil, hname] at hprefix
    cases hprefix
  have hreduce := exists_lookAhead threshold
    (lawful_reduceRule response (lookup name).toOption) hrest rfl rfl []
    ((lookup name).toOption.elim 0 TensorInfo.size) 0
  have hgather := exists_lookAhead threshold (lawful_gatherRule response t) hrest
    rfl rfl [] (totalByteSizeOfAllgatherOutput response.tensorSizes t) 0
  cases htype : response.responseType with
  | allreduce | adasum =>
      obtain ⟨fused, left, hrun, hperm, hsub, hprefix, hfused, -⟩ := hreduce
      exact ⟨fused, left, hrun, hperm, hsub, hne fused hprefix, hfused.trans htype⟩
  | allgather =>
      obtain ⟨fused, left, hrun, hperm, hsub, hprefix, hfused, -⟩ := hgather
      exact ⟨fused, left, by rw [ht]; exact hrun, hperm, hsub, hne fused hprefix,
        hfused.trans htype⟩
  | broadcast | error =>
      exact ⟨response, rest, rfl, .refl _, .refl _, hne response (List.prefix_refl _), htype⟩

theorem exists_fuseLoop {responses : List Response} (h : ∀ r ∈ responses, Known lookup r)
    {fuel : Nat} (hfuel : responses.length ≤ fuel) : ∃ out,
      fuseLoop threshold lookup fuel responses = .ok out ∧
      (out.flatMap tags).Perm (responses.flatMap tags) ∧ ∀ r ∈ out, r.tensorNames ≠ [] := by
  induction fuel generalizing responses with
  | zero =>
      obtain rfl := List.eq_nil_of_length_eq_zero (Nat.le_zero.mp hfuel)
      exact ⟨[], rfl, .refl _, fun r hr => absurd hr List.not_mem_nil⟩
  | succ fuel ih =>
      cases responses with
      | nil => exact ⟨[], rfl, .refl _, fun r hr => absurd hr List.not_mem_nil⟩
      | cons response rest =>
          rw [List.forall_mem_cons] at h
          obtain ⟨fused, left, hnext, hperm, hsub, hne, -⟩ := exists_fuseNext threshold h.1 h.2
          obtain ⟨more, hmore, hrest, hmoreNe⟩ := ih (fun r hr => h.2 r (hsub.mem hr))
            (hsub.length_le.trans (Nat.le_of_succ_le_succ hfuel))
          refine ⟨fused :: more, ?_, ?_, List.forall_mem_cons.mpr ⟨hne, hmoreNe⟩⟩
          · simp only [fuseLoop, hnext, ok_bind, hmore]
            rfl
          · rw [List.flatMap_cons, List.flatMap_cons]
            exact (hrest.append_left _).trans hperm

/-- **Fusion neither loses nor repeats a tensor**, and keeps what is done with
it. -/
theorem exists_fuseResponses (threshold : Nat) {responses : List Response} (h : ∀ r ∈ responses, Known lookup r) :
    ∃ out, fuseResponses threshold lookup responses = .ok out ∧
      (out.flatMap tags).Perm (responses.flatMap tags) ∧ ∀ r ∈ out, r.tensorNames ≠ [] :=
  exists_fuseLoop h (Nat.le_refl _)

/-- **Ranks that look up the same tensors fuse the same way.** -/
theorem fuseResponses_congr {responses : List Response} (h : ∀ r ∈ responses, Known lookup r)
    (hsame : ∀ r ∈ responses, ∀ name, r.tensorNames = [name] → lookup name = lookup' name) :
    fuseResponses threshold lookup responses = fuseResponses threshold lookup' responses := by
  have hloop : ∀ fuel (responses : List Response), (∀ r ∈ responses, Known lookup r) →
      (∀ r ∈ responses, ∀ name, r.tensorNames = [name] → lookup name = lookup' name) →
      fuseLoop threshold lookup fuel responses = fuseLoop threshold lookup' fuel responses := by
    intro fuel
    induction fuel with
    | zero => intro responses _ _; cases responses <;> rfl
    | succ fuel ih =>
        intro responses h hsame
        cases responses with
        | nil => rfl
        | cons response rest =>
            rw [List.forall_mem_cons] at h hsame
            have hnext : fuseNext threshold lookup response rest =
                fuseNext threshold lookup' response rest := by
              obtain ⟨name, t, hsingle, -, hname⟩ := h.1.singleName
              simp only [fuseNext, hsingle, ok_bind, hsame.1 name hname, lookAhead_congr hsame.2]
            obtain ⟨fused, left, hrun, -, hsub, -⟩ := exists_fuseNext threshold h.1 h.2
            rw [fuseLoop, fuseLoop, ← hnext, hrun]
            simp only [ok_bind, ih left (fun r hr => h.2 r (hsub.mem hr))
              (fun r hr => hsame.2 r (hsub.mem hr))]
  exact hloop _ responses h hsame

/-! ## the fusion buffer -/

/-- What holds of the first response and its size, and is kept by fusing
another that fits, holds of the fused response. -/
theorem lookAhead_invariant {I : Response → Nat → Prop} {rest skipped left : List Response}
    {fused : Response} {size skippedSize : Nat}
    (hstep : ∀ r size new name t, new ∈ rest → new.tensorNames = [name] → lookup name = .ok t →
      rule.fits new t = true → size + rule.size new t ≤ threshold → I r size →
      I (rule.fuse r new) (size + rule.size new t)) (h0 : I response size)
    (h : lookAhead threshold rule lookup response size skipped skippedSize rest =
      .ok (fused, left)) : ∃ size', I fused size' := by
  induction rest generalizing response size skipped skippedSize with
  | nil =>
      obtain ⟨rfl, -⟩ := Prod.mk.inj (Except.ok.inj h)
      exact ⟨size, h0⟩
  | cons new rest ih =>
      rw [lookAhead] at h
      obtain ⟨name, hsingle, h⟩ := bind_eq_ok.mp h
      obtain ⟨t, ht, h⟩ := bind_eq_ok.mp h
      have hname : new.tensorNames = [name] := by
        rw [singleName] at hsingle
        split at hsingle
        · next heq => rw [heq, Except.ok.inj hsingle]
        · cases hsingle
      have hstep' := fun r size n name t hn => hstep r size n name t (List.mem_cons_of_mem new hn)
      simp only at h
      split at h
      · next hfits =>
        rw [Bool.and_eq_true, decide_eq_true_eq] at hfits
        exact ih hstep' (hstep _ _ new name t List.mem_cons_self hname ht hfits.1 hfits.2 h0) h
      · split at h
        · exact ih hstep' h0 h
        · obtain ⟨rfl, -⟩ := Prod.mk.inj (Except.ok.inj h)
          exact ⟨size, h0⟩

/-- `size()` of a tensor in the table. -/
def sizeOf (lookup : Lookup) (name : String) : Nat := (lookup name).toOption.elim 0 TensorInfo.size

/-- A reduction of one tensor, or of several of one type that fit into the
buffer. -/
def Buffered (threshold : Nat) (lookup : Lookup) (r : Response) : Prop :=
  r.tensorNames.length = 1 ∨
    (r.tensorNames.map (sizeOf lookup)).sum ≤ threshold ∧
      ∃ dtype, ∀ name ∈ r.tensorNames, ∃ t, lookup name = .ok t ∧ t.dtype = dtype

theorem buffered_of_fuseNext {rest left : List Response} {fused : Response}
    (hresponse : Known lookup response) (hreduces : response.responseType.reduces = true)
    (h : fuseNext threshold lookup response rest = .ok (fused, left)) :
    Buffered threshold lookup fused := by
  obtain ⟨name, t, hsingle, ht, hname⟩ := hresponse.singleName
  have h : lookAhead threshold (reduceRule response (some t)) lookup response (sizeOf lookup name) []
      0 rest = .ok (fused, left) := by
    rw [fuseNext, hsingle, ok_bind, ht] at h
    rw [sizeOf, ht]
    cases htype : response.responseType <;> rw [htype] at h hreduces <;> first | exact h | cases hreduces
  have hI := lookAhead_invariant
    (I := fun r size => size = (r.tensorNames.map (sizeOf lookup)).sum ∧
      (r.tensorNames.length = 1 ∨ size ≤ threshold) ∧
      ∀ name ∈ r.tensorNames, ∃ t', lookup name = .ok t' ∧ t'.dtype = t.dtype) ?_ ?_ h
  · obtain ⟨size, rfl, hfits, hdtype⟩ := hI
    exact hfits.imp_right fun hle => ⟨hle, t.dtype, hdtype⟩
  · rintro r size new newName t' - hnewName ht' hfits hle ⟨hsize, -, hdtype⟩
    simp only [reduceRule, Option.any_some, decide_eq_true_eq] at hfits
    refine ⟨?_, .inr hle, ?_⟩
    · simp only [reduceRule, hnewName, List.map_append, List.sum_append, List.map_singleton,
        List.sum_singleton, hsize, sizeOf, ht']
      rfl
    · simp only [reduceRule, hnewName, List.mem_append, List.mem_singleton]
      rintro n (hn | rfl)
      · exact hdtype n hn
      · exact ⟨t', ht', hfits.2.2.symm⟩
  · refine ⟨by rw [hname, List.map_singleton, List.sum_singleton], .inl (by rw [hname]; rfl), ?_⟩
    rw [hname]
    intro n hn
    obtain rfl := List.mem_singleton.mp hn
    exact ⟨t, ht, rfl⟩

/-- **Fused reductions fit into the buffer.** -/
theorem buffered_of_fuseLoop {responses out : List Response} {fuel : Nat}
    (h : ∀ r ∈ responses, Known lookup r)
    (hrun : fuseLoop threshold lookup fuel responses = .ok out) :
    ∀ r ∈ out, r.responseType.reduces = true → Buffered threshold lookup r := by
  induction fuel generalizing responses out with
  | zero =>
      cases responses with
      | nil =>
          obtain rfl := Except.ok.inj hrun
          exact fun r hr => absurd hr List.not_mem_nil
      | cons response rest => cases hrun
  | succ fuel ih =>
      cases responses with
      | nil =>
          obtain rfl := Except.ok.inj hrun
          exact fun r hr => absurd hr List.not_mem_nil
      | cons response rest =>
          rw [List.forall_mem_cons] at h
          obtain ⟨fused, left, hnext, -, hsub, -, htype⟩ := exists_fuseNext threshold h.1 h.2
          rw [fuseLoop, hnext, ok_bind] at hrun
          obtain ⟨more, hmore, hrun⟩ := bind_eq_ok.mp hrun
          obtain rfl := Except.ok.inj hrun
          refine List.forall_mem_cons.mpr ⟨fun hreduces => ?_, ?_⟩
          · exact buffered_of_fuseNext h.1 (htype ▸ hreduces) hnext
          · exact ih (fun r hr => h.2 r (hsub.mem hr)) hmore

/-- **`FuseResponses`**: no tensor is lost, repeated or treated otherwise,
and every fused reduction has one type and fits into the buffer. -/
theorem fuseResponses_correct {responses : List Response} (h : ∀ r ∈ responses, Known lookup r) :
    ∃ out, fuseResponses threshold lookup responses = .ok out ∧
      (out.flatMap tags).Perm (responses.flatMap tags) ∧
      ∀ r ∈ out, r.responseType.reduces = true → Buffered threshold lookup r := by
  obtain ⟨out, hrun, hperm, -⟩ := exists_fuseResponses threshold h
  exact ⟨out, hrun, hperm, buffered_of_fuseLoop h hrun⟩

/-- Two gradients of twelve bytes. -/
def sampleReductions : List Response :=
  [⟨.allreduce, ["a"], "", [-1, -1], []⟩, ⟨.allreduce, ["b"], "", [-1, -1], []⟩]

theorem fuseResponses_sampleReductions : ∃ out,
    fuseResponses 64 (fun _ => .ok ⟨.float32, [3]⟩) sampleReductions = .ok out ∧
      (out.flatMap tags).Perm (sampleReductions.flatMap tags) ∧
      ∀ r ∈ out, r.responseType.reduces = true →
        Buffered 64 (fun _ => .ok ⟨.float32, [3]⟩) r :=
  fuseResponses_correct fun r hr => by
    rcases List.mem_pair.mp hr with rfl | rfl
    · exact ⟨"a", ⟨.float32, [3]⟩, rfl, rfl⟩
    · exact ⟨"b", ⟨.float32, [3]⟩, rfl, rfl⟩

end ContainerHackathon.Horovod
