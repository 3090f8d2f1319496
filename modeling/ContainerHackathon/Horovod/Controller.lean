import ContainerHackathon.Horovod.Fusion
import ContainerHackathon.Horovod.ResponseCache
import ContainerHackathon.Lib.Transition

/-!
# Horovod.Controller

`ComputeResponseList`, the coordination of one cycle, and the ranks around
it.

A rank enqueues tensors at any time: into its table, and as requests into its
message queue.  Its background thread takes the requests out, computes with
all others what every rank can do, and performs it.  The computation is one
step for all ranks, because it consists of collective operations; everything
else is done by the ranks on their own, in any order.

A request that matches a cached response is only a bit.  Bits are combined by
a bitwise and; if all requests of all ranks are bits, every rank finds the
responses in its own cache.  Otherwise the other requests go to rank zero,
which knows the tensors that all ranks have asked for.

The runs are those in which no rank joins or shuts down, the cache is switched
on (`capacity_pos`), and nothing is tuned while the ranks run.  So
`joined_size` is zero, and the branches for joined ranks, for the shutdown
(`FinalizeTensorQueue`) and for a new capacity (`set_capacity`) do not occur;
the timeline is left out.  Which cached tensors have waited too long is left
open.
-/

namespace ContainerHackathon.Horovod

open Fallible

/-! ## `ConstructResponse` -/

/-- `DebugString` of a shape. -/
def debugString (shape : List Nat) : String :=
  "[" ++ ", ".intercalate (shape.map toString) ++ "]"

/-- What the first of the requests that differs says. -/
def firstMismatch (requests : List Request) (mismatch : Request → Option String) : Option String :=
  requests.tail.findSome? mismatch

def cpuDeviceId : Int := -1

section construct

variable (first : Request) (requests : List Request)

def typeMismatch : Option String :=
  firstMismatch requests fun r =>
    if first.params.tensor.dtype = r.params.tensor.dtype then none
    else some ("Mismatched data types: One rank had type " ++ first.params.tensor.dtype.name ++
      ", but another rank had type " ++ r.params.tensor.dtype.name ++ ".")

def operationMismatch : Option String :=
  firstMismatch requests fun r =>
    if first.requestType = r.requestType then none
    else some ("Mismatched operations: One rank did an " ++ first.requestType.name ++
      ", but another rank did an " ++ r.requestType.name ++ ".")

def shapeMismatch : Option String :=
  firstMismatch requests fun r =>
    if first.params.tensor.shape = r.params.tensor.shape then none
    else some ("Mismatched " ++ first.requestType.name ++
      " tensor shapes: One rank sent a tensor of shape " ++ debugString first.params.tensor.shape ++
      ", but another rank sent a tensor of shape " ++ debugString r.params.tensor.shape ++ ".")

/-- All but the first dimension of a gathered tensor are the same. -/
def gatherMismatch : Option String :=
  firstMismatch requests fun r =>
    let shape := first.params.tensor.shape
    let other := r.params.tensor.shape
    if shape.length ≠ other.length then
      some ("Mismatched " ++ first.requestType.name ++
        " tensor shapes: One rank sent a tensor of rank " ++ toString shape.length ++
        ", but another rank sent a tensor of rank " ++ toString other.length ++ ".")
    else
      ((List.range' 1 (shape.length - 1)).find? fun dim => shape[dim]? ≠ other[dim]?).map fun dim =>
        "Mismatched " ++ first.requestType.name ++
          " tensor shapes: One rank sent a tensor with dimension " ++ toString dim ++
          " equal to " ++ toString (shape.getD dim 0) ++
          ", but another rank sent a tensor with dimension " ++ toString dim ++
          " equal to " ++ toString (other.getD dim 0) ++ "."

def rootMismatch : Option String :=
  firstMismatch requests fun r =>
    if first.rootRank = r.rootRank then none
    else some ("Mismatched " ++ first.requestType.name ++
      " root ranks: One rank specified root rank " ++ toString first.rootRank ++
      ", but another rank specified root rank " ++ toString r.rootRank ++ ".")

def deviceName (device : Int) : String := if device = cpuDeviceId then "CPU" else "GPU"

def deviceMismatch : Option String :=
  firstMismatch requests fun r =>
    if (first.params.device = cpuDeviceId) = (r.params.device = cpuDeviceId) then none
    else some ("Mismatched " ++ first.requestType.name ++
      " CPU/GPU device selection: One rank specified device " ++ deviceName first.params.device ++
      ", but another rank specified device " ++ deviceName r.params.device ++ ".")

/-- The message for a gathered tensor without dimensions follows the one that
is already there. -/
def scalarGather (error : Option String) : Option String :=
  if first.params.tensor.shape = [] then
    some (error.getD "" ++ "Rank zero tried to " ++ first.requestType.name ++ " a rank-zero tensor.")
  else error

/-- The checks of `ConstructResponse`, each made only if none before failed. -/
def checkRequests : Option String :=
  let error := (typeMismatch first requests).or (operationMismatch first requests)
  let error := match first.requestType with
    | .allreduce | .adasum => error.or (shapeMismatch first requests)
    | .broadcast =>
        (error.or (shapeMismatch first requests)).or (rootMismatch first requests)
    | .allgather =>
        (scalarGather first error).or (gatherMismatch first requests)
  error.or (deviceMismatch first requests)

end construct

/-- Write the number of a request at the index of its rank. -/
def writeAt {β : Type} (value : Request → β) (xs : List β) (r : Request) : Except Failure (List β) :=
  if r.requestRank < xs.length then .ok (xs.set r.requestRank (value r)) else .error .undefined

/-- One number for each request. -/
def writeByRank {β : Type} (zero : β) (value : Request → β) (requests : List Request) :
    Except Failure (List β) :=
  requests.foldlM (writeAt value) (List.replicate requests.length zero)

/-- `ConstructResponse`, from the requests that are recorded under a name; no
rank has joined.  The first dimensions are written up to the first request
that does not match; only the response of matching ones has them. -/
def constructResponse (name : String) (requests : List Request) : Except Failure Response :=
  match requests with
  | [] => .error .assertion
  | first :: _ => do
      let devices ← writeByRank 0 (·.params.device) requests
      match checkRequests first requests with
      | some message => return {
          responseType := .error, tensorNames := [name], errorMessage := message
          devices := devices, tensorSizes := [] }
      | none => do
          let tensorSizes ← if first.requestType = .allgather then
              writeByRank 0 (fun r => r.params.tensor.shape.headD 0) requests
            else .ok []
          return {
            responseType := first.requestType.response, tensorNames := [name], errorMessage := ""
            devices := devices, tensorSizes := tensorSizes }

/-! ## `message_table_` -/

/-- The requests that rank zero has recorded under a name; no requests, no
entry. -/
abbrev MessageTable := String → List Request

/-- `IncrementTensorCount`: whether all ranks have asked now.  The count is
compared with `size_ - joined_size`, and no rank has joined. -/
def incrementTensorCount (size : Nat) (table : MessageTable) (msg : Request) : MessageTable × Bool :=
  let messages := table msg.tensorName ++ [msg]
  (Function.update table msg.tensorName messages, messages.length = size)

/-- Record requests; the names that become ready. -/
def addMessages (size : Nat) (table : MessageTable) :
    List Request → MessageTable × List String
  | [] => (table, [])
  | msg :: msgs =>
      let (table, reduce) := incrementTensorCount size table msg
      let (table, ready) := addMessages size table msgs
      (table, if reduce then msg.tensorName :: ready else ready)

/-- The responses of the tensors that are ready, which are then forgotten. -/
def constructResponses (table : MessageTable) :
    List String → Except Failure (List Response × MessageTable)
  | [] => .ok ([], table)
  | name :: names => do
      let response ← constructResponse name (table name)
      let (responses, table) ← constructResponses (Function.update table name []) names
      return (response :: responses, table)

/-! ## `CacheCoordinator` -/

structure CacheCoordinator where
  cacheHits : Finset Nat
  invalidBits : Finset Nat
  uncachedInQueue : Bool

/-- Keep track of cache hits. -/
def recordMessage (c : ResponseCache) (acc : CacheCoordinator) (msg : Request) :
    Except Failure CacheCoordinator := do
  match ← c.cached msg.tensorName msg.params with
  | .hit => do
      let bit ← c.peekCacheBit msg.tensorName
      return { acc with cacheHits := insert bit acc.cacheHits }
  | .invalid => do
      let bit ← c.peekCacheBit msg.tensorName
      return { acc with invalidBits := insert bit acc.invalidBits, uncachedInQueue := true }
  | .miss => return { acc with uncachedInQueue := true }

/-- `InvalidateStalledCachedTensors`, of the cached tensors in the queue. -/
def invalidateStalled (c : ResponseCache) (stalled : Request → Bool) (acc : CacheCoordinator)
    (msg : Request) : Except Failure CacheCoordinator := do
  match ← c.cached msg.tensorName msg.params with
  | .hit =>
      if stalled msg then do
        let bit ← c.peekCacheBit msg.tensorName
        return { acc with invalidBits := insert bit acc.invalidBits, uncachedInQueue := true }
      else return acc
  | _ => return acc

def recordMessages (c : ResponseCache) (stalled : Request → Bool) (messages : List Request) :
    Except Failure CacheCoordinator := do
  let acc ← messages.foldlM (recordMessage c) ⟨∅, ∅, false⟩
  messages.foldlM (invalidateStalled c stalled) acc

/-- `sync`: the hits of all ranks that are invalid on none, by a bitwise and;
what is invalid on some, by a bitwise or. -/
def sync {n : Nat} (coordinators : Fin (n + 1) → CacheCoordinator) : CacheCoordinator where
  cacheHits := ((coordinators 0).cacheHits \ (coordinators 0).invalidBits).filter fun bit =>
    ∀ r, bit ∈ (coordinators r).cacheHits \ (coordinators r).invalidBits
  invalidBits := Finset.univ.biUnion fun r => (coordinators r).invalidBits
  uncachedInQueue := decide (∃ r, (coordinators r).uncachedInQueue = true)

/-- Erase the invalid entries. -/
def eraseInvalid (bits : Finset Nat) (c : ResponseCache) : Except Failure ResponseCache :=
  (bits.sort (· ≤ ·)).foldlM ResponseCache.eraseResponse c

/-- What becomes of the requests: those that are tried again in the next
cycle and those that are sent to rank zero. -/
def sortMessage (c : ResponseCache) (hits : Finset Nat) (acc : List Request × List Request)
    (msg : Request) : Except Failure (List Request × List Request) := do
  match ← c.cached msg.tensorName msg.params with
  | .hit => do
      let bit ← c.peekCacheBit msg.tensorName
      if bit ∈ hits then return acc else return (acc.1 ++ [msg], acc.2)
  | _ => return (acc.1, acc.2 ++ [msg])

/-! ## the responses of a cycle -/

/-- The cached responses, least recently used first, which are then the most
recently used ones. -/
def getResponses (c : ResponseCache) : List Nat → Except Failure (List Response × ResponseCache)
  | [] => .ok ([], c)
  | bit :: bits => do
      let (response, c) ← c.getResponse bit
      let (responses, c) ← getResponses c bits
      return (response :: responses, c)

/-- The responses that the cache supports: reductions that all ranks take part
in. -/
def supported (size : Nat) (response : Response) : Bool :=
  response.responseType.reduces && response.devices.length == size

/-- Add supported responses to the cache. -/
def putResponses (size : Nat) (table : List TensorTableEntry) (responses : List Response)
    (c : ResponseCache) : Except Failure ResponseCache :=
  responses.foldlM (fun c response =>
    if supported size response then c.put response table else .ok c) c

structure Config where
  /-- `cache_capacity_`. -/
  capacity : Nat
  /-- `TensorFusionThresholdBytes()`. -/
  threshold : Nat
  capacity_pos : 0 < capacity

/-! ## the ranks -/

inductive Phase
  /-- The requests of this cycle are taken out of the queue. -/
  | polled (messages : List Request)
  /-- The responses that are still to be performed. -/
  | performing (responses : List Response)

structure Worker where
  tensorTable : List TensorTableEntry
  messageQueue : List Request
  phase : Phase
  cache : ResponseCache
  /-- The names of the tensors that were accepted. -/
  enqueued : List String
  /-- The responses that were performed, with the tensors they were for. -/
  performed : List (Response × List TensorTableEntry)

structure State (n : Nat) where
  workers : Fin (n + 1) → Worker
  messageTable : MessageTable

/-- `message_queue_tmp`. -/
def Worker.messages (w : Worker) : List Request :=
  match w.phase with
  | .polled messages => messages
  | .performing _ => []

def Worker.isPolled (w : Worker) : Bool :=
  match w.phase with
  | .polled _ => true
  | .performing _ => false

/-- The responses that are still to be performed. -/
def Worker.responses (w : Worker) : List Response :=
  match w.phase with
  | .polled _ => []
  | .performing responses => responses

variable {n : Nat}

/-- A rank after the computation. -/
def Worker.compute (w : Worker) (again : List Request) (cache : ResponseCache)
    (responses : List Response) : Worker :=
  { w with
    messageQueue := w.messageQueue ++ again
    cache := cache
    phase := .performing responses }

/-- All requests have responses in the cache: every rank finds them alone. -/
def fastPath (cfg : Config) (hits : Finset Nat) (table : List TensorTableEntry) (c : ResponseCache) :
    Except Failure (List Response × ResponseCache) := do
  let (responses, c) ← getResponses c (hits.sort (· ≤ ·))
  let fused ← fuseResponses cfg.threshold (tensorInfo table) responses
  return (fused, ← c.updateCacheBits)

/-- Rank zero finds the responses, from the requests that were sent to it. -/
def coordinate (cfg : Config) (hits : Finset Nat) (table : List TensorTableEntry)
    (c : ResponseCache) (messageTable : MessageTable) (sent : Fin (n + 1) → List Request) :
    Except Failure (List Response × MessageTable) := do
  let (messageTable, ready) :=
    addMessages (n + 1) messageTable ((List.finRange (n + 1)).flatMap sent)
  let cachedResponses ← (hits.sort (· ≤ ·)).mapM c.peekResponse
  let (responses, messageTable) ← constructResponses messageTable ready
  let fused ← fuseResponses cfg.threshold (tensorInfo table) (cachedResponses ++ responses)
  return (fused, messageTable)

/-- `ComputeResponseList`, of all ranks. -/
def computeResponseList (cfg : Config) (stalled : Fin (n + 1) → Request → Bool) (s : State n) :
    Except Failure (State n) := do
  let coordinators ← sequence fun r =>
    recordMessages (s.workers r).cache (stalled r) (s.workers r).messages
  let coordinator := sync coordinators
  let caches ← sequence fun r => eraseInvalid coordinator.invalidBits (s.workers r).cache
  let sorted ← sequence fun r =>
    (s.workers r).messages.foldlM (sortMessage (caches r) coordinator.cacheHits) ([], [])
  if coordinator.uncachedInQueue then do
    let (fused, messageTable) ← coordinate cfg coordinator.cacheHits (s.workers 0).tensorTable
      (caches 0) s.messageTable fun r => (sorted r).2
    let caches ← sequence fun r => do
      let c ← putResponses (n + 1) (s.workers r).tensorTable fused (caches r)
      c.updateCacheBits
    return {
      workers := fun r => (s.workers r).compute (sorted r).1 (caches r) fused
      messageTable := messageTable }
  else if coordinator.cacheHits = ∅ then
    return { s with workers := fun r => (s.workers r).compute (sorted r).1 (caches r) [] }
  else do
    let results ← sequence fun r =>
      fastPath cfg coordinator.cacheHits (s.workers r).tensorTable (caches r)
    return { s with
      workers := fun r => (s.workers r).compute (sorted r).1 (results r).2 (results r).1 }

/-! ## the system -/

/-- `GetTensorEntriesFromResponse`: the entries are taken out of the table. -/
def getTensorEntries (table : List TensorTableEntry) :
    List String → Except Failure (List TensorTableEntry × List TensorTableEntry)
  | [] => .ok ([], table)
  | name :: names =>
      match Keyed.lookup TensorTableEntry.tensorName name table with
      | none => .error .assertion
      | some e => do
          let (es, table) ← getTensorEntries (Keyed.without TensorTableEntry.tensorName name table) names
          return (e :: es, table)

/-- Enqueue a tensor: `AddToTensorQueue` refuses a name that is in the table. -/
def Worker.enqueue (w : Worker) (rank : Nat) (type : RequestType) (params : TensorParams)
    (rootRank : Int) (name : String) : Worker :=
  if name ∈ w.tensorTable.map TensorTableEntry.tensorName then w
  else { w with
    tensorTable := w.tensorTable ++ [⟨name, params⟩]
    messageQueue := w.messageQueue ++ [⟨rank, type, params, rootRank, name⟩]
    enqueued := w.enqueued ++ [name] }

/-- `PopMessagesFromQueue`, at the start of a cycle. -/
def Worker.poll (w : Worker) : Option Worker :=
  match w.phase with
  | .performing [] => some { w with phase := .polled w.messageQueue, messageQueue := [] }
  | _ => none

/-- A rank after a response was performed. -/
def Worker.finish (w : Worker) (response : Response) (responses : List Response)
    (entries table : List TensorTableEntry) : Worker :=
  { w with
    tensorTable := table
    phase := .performing responses
    performed := w.performed ++ [(response, entries)] }

/-- `PerformOperation` of the next response, if there is one. -/
def Worker.perform (w : Worker) : Option (Except Failure Worker) :=
  match w.phase with
  | .performing (response :: responses) => some do
      let (entries, table) ← getTensorEntries w.tensorTable response.tensorNames
      return w.finish response responses entries table
  | _ => none

inductive Action (n : Nat)
  | enqueue (rank : Fin (n + 1)) (type : RequestType) (params : TensorParams) (rootRank : Int)
      (name : String)
  | poll (rank : Fin (n + 1))
  | compute (stalled : Fin (n + 1) → Request → Bool)
  | perform (rank : Fin (n + 1))

def State.set (s : State n) (rank : Fin (n + 1)) (w : Worker) : State n :=
  { s with workers := Function.update s.workers rank w }

@[simp]
theorem State.workers_set (s : State n) (rank : Fin (n + 1)) (w : Worker) :
    (s.set rank w).workers rank = w := Function.update_self _ _ _

theorem State.workers_set_of_ne (s : State n) {rank r : Fin (n + 1)} (w : Worker) (h : r ≠ rank) :
    (s.set rank w).workers r = s.workers r := Function.update_of_ne h _ _

/-- What an action does: `none` if it is not possible, a failure if the
process ends. -/
def State.act (cfg : Config) (s : State n) : Action n → Option (Except Failure (State n))
  | .enqueue rank type params rootRank name =>
      some (.ok (s.set rank ((s.workers rank).enqueue rank type params rootRank name)))
  | .poll rank => (s.workers rank).poll.map fun w => .ok (s.set rank w)
  | .compute stalled =>
      if ∀ r, (s.workers r).isPolled = true then some (computeResponseList cfg stalled s) else none
  | .perform rank => (s.workers rank).perform.map fun w => w.map (s.set rank)

def Worker.start (cfg : Config) : Worker :=
  ⟨[], [], .performing [], ResponseCache.empty cfg.capacity, [], []⟩

/-- The ranks, in any order. -/
def system (cfg : Config) (n : Nat) : Transition.System (State n) (Action n) where
  init := fun s => s = ⟨fun _ => Worker.start cfg, fun _ => []⟩
  step := fun a s => (s.act cfg a).bind Except.toOption

end ContainerHackathon.Horovod
