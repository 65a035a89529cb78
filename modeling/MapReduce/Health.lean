import MapReduce.Coordinator

namespace MapReduce

structure PingReply where
  pingStatus : Bool := false
  deriving DecidableEq

/-- How a probe of a worker ends: `rpc.Dial` fails, `client.Call` fails, or `Ping` answers. -/
inductive Outcome
  | dialFailure
  | callFailure
  | success (result : PingReply)
  deriving DecidableEq

/-- What `WorkerSync` makes of the record it indexes. A failed dial leaves the counter
alone, an answer counts as much as a failed call, and what it says is only printed. -/
def WorkerType.probed (int : IntSize) (worker : WorkerType) : Outcome → WorkerType
  | .dialFailure => { worker with status := .stateRetrying }
  | .callFailure =>
    if worker.heartBeatChecks = 3 then { worker with status := .statusError }
    else
      { worker with
        heartBeatChecks := int.wrap (worker.heartBeatChecks + 1), status := .stateRetrying }
  | .success _ =>
    { worker with
      heartBeatChecks := int.wrap (worker.heartBeatChecks + 1), status := .stateConnected }

/-- The arguments of a `WorkerSync` goroutine. -/
structure Probe where
  workerId : String
  port : String
  workerIdx : Nat
  deriving DecidableEq

namespace Coordinator

def done (c : Coordinator) : CoordinatorPhase := c.phase

def activeWorkers (c : Coordinator) : Nat :=
  c.workers.countP (fun worker => worker.status == .stateConnected)

/-- `WorkerSync` from the moment its dial or its call has ended; `none` is the panic of
an index out of range. The write after a failed dial does not hold the mutex and is
taken as one step like the others. -/
def workerSync (int : IntSize) (c : Coordinator) (workerIdx : Nat) (outcome : Outcome) :
    Option Coordinator :=
  c.workers[workerIdx]?.map fun worker =>
    { c with workers := c.workers.set workerIdx (worker.probed int outcome) }

/-- The goroutines that a round of `Healthcheck` starts, one for each worker of its copy. -/
def snapshot (c : Coordinator) : List Probe :=
  c.workers.mapIdx fun idx worker => ⟨worker.workerId,worker.port,idx⟩

end Coordinator

/-- Where the loop of `Healthcheck` stands: before a tick, between the look at the phase
and the copy of the workers, or returned. -/
inductive HealthcheckPc
  | ticker | copying | returned
  deriving DecidableEq

/-- The coordinator with its health checks: the probes are the goroutines in flight. -/
structure Monitor where
  coordinator : Coordinator
  healthcheck : HealthcheckPc := .ticker
  probes : List Probe := []
  deriving DecidableEq

namespace Monitor

inductive Event
  | call (call : Call)
  | tick
  | snapshot
  | workerSync (probe : Nat) (outcome : Outcome)
  deriving DecidableEq

/-- What is left of a run without its health checks. -/
def Event.call? : Event → Option Call
  | .call request => some request
  | _ => none

def start (files : List String) (nReduce : Int) : Monitor :=
  { coordinator := makeCoordinator files nReduce }

/-- Calls arrive at any time, `Healthcheck` takes its two steps in turn, and any probe
in flight may be the next to end. Each of these is one step, also where the source holds no
lock: the append of `RegisterWorker` and the write of `WorkerSync` after a failed dial. Two
appends at the same time, of which one can be lost, are not among the runs. -/
def next (int : IntSize) (m : Monitor) : Event → Option Monitor
  | .call call => some { m with coordinator := (m.coordinator.handle call).1 }
  | .tick =>
    if m.healthcheck = .ticker then
      some { m with healthcheck :=
        if m.coordinator.done = .finishedPhase then .returned else .copying }
    else none
  | .snapshot =>
    if m.healthcheck = .copying then
      some { m with healthcheck := .ticker, probes := m.probes ++ m.coordinator.snapshot }
    else none
  | .workerSync i outcome => do
    let probe ← m.probes[i]?
    let coordinator ← m.coordinator.workerSync int probe.workerIdx outcome
    return { m with coordinator := coordinator, probes := m.probes.eraseIdx i }

/-- The answers that an event gives to workers. -/
def replies (m : Monitor) : Event → List Answer
  | .call call => [(m.coordinator.handle call).2]
  | _ => []

/-- The outcomes that an event records for the worker at `idx`. -/
def outcomes (idx : Nat) (m : Monitor) : Event → List Outcome
  | .workerSync i outcome => if m.probes[i]?.map Probe.workerIdx = some idx then [outcome] else []
  | _ => []

end Monitor

end MapReduce
