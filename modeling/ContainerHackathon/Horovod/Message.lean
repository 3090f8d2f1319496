import ContainerHackathon.Lib.Keyed

/-!
# Horovod.Message

The messages of the coordinator protocol: requests, which the ranks send to
rank zero, and responses, which every rank performs.  `JOIN` is not among
them: in the runs that are modelled no rank leaves before the others.
-/

namespace ContainerHackathon.Horovod

inductive DataType
  | uint8
  | int8
  | uint16
  | int16
  | int32
  | int64
  | float16
  | float32
  | float64
  | bool
  | byte
  deriving DecidableEq, Repr

/-- `DataType_Name`. -/
def DataType.name : DataType → String
  | .uint8 => "uint8"
  | .int8 => "int8"
  | .uint16 => "uint16"
  | .int16 => "int16"
  | .int32 => "int32"
  | .int64 => "int64"
  | .float16 => "float16"
  | .float32 => "float32"
  | .float64 => "float64"
  | .bool => "bool"
  | .byte => "<unknown>"

/-- `GetTypeSize`, in bytes. -/
def DataType.typeSize : DataType → Nat
  | .uint8 | .int8 | .bool | .byte => 1
  | .uint16 | .int16 | .float16 => 2
  | .int32 | .float32 => 4
  | .int64 | .float64 => 8

inductive RequestType
  | allreduce
  | allgather
  | broadcast
  | adasum
  deriving DecidableEq, Repr

/-- `RequestType_Name`. -/
def RequestType.name : RequestType → String
  | .allreduce => "ALLREDUCE"
  | .allgather => "ALLGATHER"
  | .broadcast => "BROADCAST"
  | .adasum => "ADASUM"

/-- A tensor, but for its numbers. -/
structure TensorInfo where
  dtype : DataType
  shape : List Nat
  deriving DecidableEq, Repr

/-- `size()`, in bytes. -/
def TensorInfo.size (t : TensorInfo) : Nat := t.shape.prod * t.dtype.typeSize

/-- What a cached response is compared by. -/
structure TensorParams where
  tensor : TensorInfo
  device : Int
  deriving DecidableEq, Repr

structure Request where
  requestRank : Nat
  requestType : RequestType
  params : TensorParams
  rootRank : Int
  tensorName : String
  deriving DecidableEq, Repr

/-- A tensor that waits in the table of its rank. -/
structure TensorTableEntry where
  tensorName : String
  params : TensorParams
  deriving DecidableEq, Repr

inductive ResponseType
  | allreduce
  | allgather
  | broadcast
  | adasum
  | error
  deriving DecidableEq, Repr

def RequestType.response : RequestType → ResponseType
  | .allreduce => .allreduce
  | .allgather => .allgather
  | .broadcast => .broadcast
  | .adasum => .adasum

structure Response where
  responseType : ResponseType
  tensorNames : List String
  errorMessage : String
  devices : List Int
  tensorSizes : List Nat
  deriving DecidableEq, Repr

/-- What ends the process. -/
inductive Failure
  /-- An exception of `.at`. -/
  | outOfRange
  /-- A write or a read outside a vector, or through `end()`. -/
  | undefined
  | logicError (message : String)
  | assertion
  deriving DecidableEq, Repr

/-- `GetTensorEntry`: the entry of a tensor in the table of its rank. -/
def getTensorEntry (table : List TensorTableEntry) (name : String) :
    Except Failure TensorTableEntry :=
  (Keyed.lookup TensorTableEntry.tensorName name table).elim (.error .outOfRange) .ok

def tensorInfo (table : List TensorTableEntry) (name : String) : Except Failure TensorInfo :=
  (getTensorEntry table name).map (·.params.tensor)

/-- The responses that the cache keeps. -/
def ResponseType.reduces : ResponseType → Bool
  | .allreduce | .adasum => true
  | _ => false

end ContainerHackathon.Horovod
