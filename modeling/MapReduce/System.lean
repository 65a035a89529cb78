import Mathlib
import MapReduce.Coordinator
import MapReduce.Worker

namespace MapReduce
open Files

/-- `Workers`: what a worker process is known by. -/
structure Workers where
  id : String
  rpcAddr : String
  port : String

/-- A job's plugin and input, and the processes that work on it. Each process has an
order of its own in which its sort leaves equal keys. -/
structure Setup where
  go : Platform
  mapf : Mapf
  reducef : Reducef
  input : String → Option Bytes
  worker : Nat → Workers
  sort : Nat → KeySort

/-- A request of a worker that waits for its answer. -/
inductive Request
  | register
  | fetch
  | update (result : WorkerTaskRequestReply)

/-- The arguments that `WorkerRegistrationRequest`, `WorkerFetchTasks` and
`DoWorkerTaskUpdate` send. -/
def Request.call (worker : Workers) : Request → Call
  | .register => .registerWorker ⟨worker.id,worker.rpcAddr,worker.port⟩
  | .fetch => .taskRequestByWorker ⟨worker.id,worker.rpcAddr,worker.port⟩
  | .update result => .taskUpdateByWorker ⟨worker.id,result.taskId,result.type,.done⟩

/-- An open file and the place of the next write. -/
structure Handle where
  name : String
  offset : Nat

/-- Where a worker process stands. A process that stopped for good may leave a request
behind that the coordinator has not handled. -/
inductive Pc
  | offline
  | register
  | waiting (request : Request)
  | registerReply (reply : WorkerRegistrationReply)
  | fetch
  | fetchReply (result : WorkerTaskRequestReply)
  | mapRead (result : WorkerTaskRequestReply)
  | mapNext (result : WorkerTaskRequestReply) (partitions : Partition) (partitionID : Nat)
  | mapWrite (result : WorkerTaskRequestReply) (partitions : Partition) (partitionID : Nat)
      (file : Handle) (pairs : List KeyValue)
  | reduceGlob (result : WorkerTaskRequestReply)
  | reduceRead (result : WorkerTaskRequestReply) (files : List String)
      (intermediate : List KeyValue)
  | reduceWrite (result : WorkerTaskRequestReply) (file : Handle) (records : List KeyValue)
  | update (result : WorkerTaskRequestReply)
  | updateReply (result : WorkerTaskRequestReply) (reply : WorkerTaskUpdateReply)
  | stopped
  | dead (request : Option Request)

/-- `closing` holds the output files whose deferred `Close` has not run: it runs beside
the goroutine that reports the task. -/
structure Process where
  pc : Pc := .offline
  closing : List Handle := []

inductive FileOp
  | create (name : String)
  | write (name : String) (offset : Nat) (data : Bytes)

def FileOp.name : FileOp → String
  | .create name => name
  | .write name _ _ => name

def FileOp.apply (fs : FileSystem) : FileOp → FileSystem
  | .create name => fs.create name
  | .write name offset data => fs.write 0 name offset data

/-- What a step of a process does: where it goes, and what it does to the files. -/
structure Effect where
  pc : Pc
  op : Option FileOp := none
  closing : List Handle := []

def Effect.apply (fs : FileSystem) (effect : Effect) : FileSystem :=
  effect.op.elim fs (FileOp.apply fs)

/-- The next step of process `p` itself. `WorkerFetchTasks` looks at the phase of the reply
and at nothing else of it. -/
def next (env : Setup) (p : Nat) (fs : FileSystem) : Pc → Option Effect
  | .offline => some { pc := .register }
  | .register => some { pc := .waiting .register }
  | .registerReply _ => some { pc := .fetch }
  | .fetch => some { pc := .waiting .fetch }
  | .fetchReply result =>
    some { pc := if result.phase = .mapPhase then .mapRead result
      else if result.phase = .reducePhase then .reduceGlob result else .stopped }
  | .mapRead result =>
    match env.input result.filePath with
    | none => some { pc := .dead none }
    | some content =>
      let kva := env.mapf result.filePath content
      if result.nReduce = 0 ∧ kva ≠ [] then some { pc := .dead none }
      else some { pc := .mapNext result (partitionPairs env.go result.nReduce kva) 0 }
  | .mapNext result partitions partitionID =>
    let name := intermediateName result.taskId partitionID
    if (partitionID : Int) < result.nReduce then
      some { pc := .mapWrite result partitions partitionID ⟨name,0⟩ (partitions partitionID),
             op := some (.create name) }
    else some { pc := .update result }
  | .mapWrite result partitions partitionID _ [] =>
    some { pc := .mapNext result partitions (partitionID + 1) }
  | .mapWrite result partitions partitionID file (kv :: pairs) =>
    let data := env.go.json.encode kv
    some { pc := .mapWrite result partitions partitionID ⟨file.name,file.offset + data.length⟩ pairs,
           op := some (.write file.name file.offset data) }
  | .reduceGlob result =>
    some { pc := .reduceRead result (glob fs (globPattern result.partition)) [] }
  | .reduceRead result (name :: files) intermediate =>
    match fs.read name with
    | none => some { pc := .dead none }
    | some s => some { pc := .reduceRead result files (intermediate ++ decodeFile env.go.json s) }
  | .reduceRead result [] intermediate =>
    let name := outputName result.partition
    some { pc := .reduceWrite result ⟨name,0⟩
             (reduceRecords env.reducef ((env.sort p).sort intermediate)),
           op := some (.create name) }
  | .reduceWrite result file (record :: records) =>
    let data := formatRecord record
    some { pc := .reduceWrite result ⟨file.name,file.offset + data.length⟩ records,
           op := some (.write file.name file.offset data) }
  | .reduceWrite result file [] => some { pc := .update result, closing := [file] }
  | .update result => some { pc := .waiting (.update result) }
  | .updateReply _ reply =>
    some { pc := if reply.phase ≠ .finishedPhase then .fetch else .stopped }
  | .waiting _ | .stopped | .dead _ => none

/-- Where the answer to a request takes the process that waits for it. -/
def Request.answered : Request → Answer → Pc
  | .register,.registered reply => .registerReply reply
  | .fetch,.requested reply => .fetchReply reply
  | .update result,.updated reply => .updateReply result reply
  | request,_ => .waiting request

def Pc.request : Pc → Option Request
  | .waiting request => some request
  | .dead request => request
  | _ => none

/-- The coordinator, the worker processes and the files under `mr-data`. -/
structure System where
  coord : Coordinator
  procs : Nat → Process
  fs : FileSystem

/-- A step: of a process, of the coordinator for the request of a process, the deferred
`Close` of a process, or a process stopping for good. -/
inductive Action
  | advance (p : Nat)
  | serve (p : Nat)
  | close (p : Nat)
  | crash (p : Nat)

namespace System

def start (files : List String) (nReduce : Int) (fs : FileSystem) : System :=
  ⟨makeCoordinator files nReduce,fun _ => {},fs⟩

def setProc (s : System) (p : Nat) (process : Process) : System :=
  { s with procs := Function.update s.procs p process }

def pc (s : System) (p : Nat) : Pc := (s.procs p).pc

/-- What a step does to the files: it creates, which truncates, or it writes. -/
def fileOp (env : Setup) (s : System) : Action → Option FileOp
  | .advance p => (next env p s.fs (s.pc p)).bind Effect.op
  | _ => none

def advanced (s : System) (p : Nat) (effect : Effect) : System :=
  { s.setProc p ⟨effect.pc,(s.procs p).closing ++ effect.closing⟩ with
    fs := Effect.apply s.fs effect }

/-- The coordinator handles the request of process `p`. The answer is lost on a process
that has stopped for good. -/
def served (env : Setup) (s : System) (p : Nat) (request : Request) : System :=
  let (coord,answer) := s.coord.handle (request.call (env.worker p))
  let pc := match s.pc p with
    | .dead _ => .dead none
    | _ => request.answered answer
  { s.setProc p { s.procs p with pc := pc } with coord := coord }

/-- The coordinator handles a request as one step. The two task handlers hold the mutex all
along; `RegisterWorker` appends to the workers without it, and two appends at the same time, of
which one can be lost, are not among the runs. -/
def step (env : Setup) (s : System) : Action → Option System
  | .advance p => (next env p s.fs (s.pc p)).map (s.advanced p)
  | .serve p => (s.pc p).request.map (s.served env p)
  | .close p =>
    match (s.procs p).closing with
    | [] => none
    | _ :: handles => some (s.setProc p { s.procs p with closing := handles })
  | .crash p =>
    match s.pc p with
    | .dead _ => none
    | pc => some (s.setProc p { pc := .dead pc.request })

end System

end MapReduce
