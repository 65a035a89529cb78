import Mathlib.Data.List.Basic

namespace MapReduce

/-- The width of Go's `int`. -/
inductive IntSize
  | w32 | w64
  deriving DecidableEq

def IntSize.bits : IntSize → Nat
  | .w32 => 32
  | .w64 => 64

/-- What a sum leaves in an `int`. -/
def IntSize.wrap : IntSize → Int → Int
  | .w32,x => x.toInt32.toInt
  | .w64,x => x.toInt64.toInt

/-- `WorkerStatus` of `types.go`; `unset` is Go's zero value, the empty string. -/
inductive WorkerStatus
  | unset | stateIdle | stateConnected | statusError | stateRetrying
  deriving DecidableEq

/-- `TaskStatus`; only `waiting`, `pending` and `done` occur on a task. -/
inductive TaskStatus
  | unset | waiting | pending | done | invalid
  deriving DecidableEq

/-- `TaskType` is a string in the source and an RPC argument may carry any
string: `unset` is the empty one and `other` every one but the two constants. -/
inductive TaskType
  | unset | mapTask | reduceTask | other (name : String)
  deriving DecidableEq

inductive CoordinatorPhase
  | unset | mapPhase | reducePhase | finishedPhase
  deriving DecidableEq

/-- The coordinator's record of a registered worker. `LastSeen` is written
with the wall clock and never read, so it is left out. -/
structure WorkerType where
  workerId : String := ""
  status : WorkerStatus := .unset
  address : String := ""
  port : String := ""
  heartBeatChecks : Int := 0
  deriving DecidableEq

/-- A task. The owner is a copy of the worker's record; a task that was never
handed out carries the zero record. -/
structure Job where
  taskId : String
  filePath : String := ""
  status : TaskStatus
  worker : WorkerType := {}
  nReduce : Int := 0
  partition : Int := 0
  deriving DecidableEq

structure WorkerRegistrationArgs where
  workerID : String
  rpcAddr : String
  port : String
  deriving DecidableEq

structure WorkerRegistrationReply where
  registrationStatus : Bool := false
  deriving DecidableEq

structure WorkerTaskRequestArgs where
  workerID : String
  rpcAddr : String
  port : String
  deriving DecidableEq

/-- The reply starts as Go's zero value and a handler fills some of it. -/
structure WorkerTaskRequestReply where
  taskId : String := ""
  type : TaskType := .unset
  status : TaskStatus := .unset
  filePath : String := ""
  taskAvailable : Bool := false
  nReduce : Int := 0
  phase : CoordinatorPhase := .unset
  partition : Int := 0
  deriving DecidableEq

/-- `IntermediatePartition` is never set and never read. -/
structure WorkerTaskUpdateArgs where
  workerID : String
  taskId : String
  type : TaskType
  status : TaskStatus
  deriving DecidableEq

structure WorkerTaskUpdateReply where
  status : TaskStatus := .unset
  message : String := ""
  phase : CoordinatorPhase := .unset
  deriving DecidableEq

end MapReduce
