import MapReduce.Health
import MapReduce.System
import MapReduce.Library.Format

namespace MapReduce
open Format

structure PingArgs where
  workerId : String

/-- `Ping`: whether the process that answers is the one that was asked for. -/
def Workers.ping (worker : Workers) (args : PingArgs) : PingReply :=
  { pingStatus := args.workerId == worker.id }

/-- `Worker` once it has its listener: the id from the clock, and the port as a text. -/
def Workers.listening (ip : String) (port : Nat) (unixMicro : Int) : Workers where
  id := sprintf [.text "worker-",.verb .decimal] [.int unixMicro]
  rpcAddr := ip
  port := sprintf [.verb .decimal] [.int port]

/-- A process that accepts connections on a TCP port. -/
structure Listener where
  port : Nat
  worker : Workers

/-- `rpc.Dial("tcp", address)`: only the decimal port of a live listener gets through. -/
def dial (listeners : List Listener) (address : String) : Option Workers :=
  (listeners.find? (fun l => "localhost:" ++ toString l.port == address)).map Listener.worker

/-- `fmt.Sprintf("localhost:%d", port)` of `WorkerSync`, where the port is a string. -/
def workerAddress (port : String) : String :=
  sprintf [.text "localhost:",.verb .decimal] [.string port]

/-- How far the `WorkerSync` of a probe has got: not dialled yet, refused, or connected. -/
inductive Line
  | idle
  | refused
  | connected (peer : Workers)

/-- How a probe can end from there. A connection is lost when its process goes away. -/
def Line.outcome (workerId : String) (lost : Bool) : Line → Option Outcome
  | .idle => none
  | .refused => some .dialFailure
  | .connected peer => some (if lost then .callFailure else .success (peer.ping ⟨workerId⟩))

/-- The coordinator with its health checks and the machine they go over. Each probe in
flight has a line. -/
structure Network where
  monitor : Monitor
  listeners : List Listener := []
  lines : List Line := []

namespace Network

inductive Event
  | listen (listener : Listener)
  | close (i : Nat)
  | call (call : Call)
  | tick
  | snapshot
  | dial (i : Nat)
  | workerSync (i : Nat) (lost : Bool)

def start (files : List String) (nReduce : Int) : Network :=
  { monitor := Monitor.start files nReduce }

/-- The probe that an event brings to its end, and how. -/
def ended (n : Network) : Event → Option (Probe × Outcome)
  | .workerSync i lost => do
    let probe ← n.monitor.probes[i]?
    let outcome ← n.lines[i]?.bind (Line.outcome probe.workerId lost)
    return (probe,outcome)
  | _ => none

def monitored (int : IntSize) (n : Network) (event : Monitor.Event) : Option Network :=
  (n.monitor.next int event).map fun monitor => { n with monitor := monitor }

/-- Processes come and go, on ports that are free; a port may be used again. Calls come at
any time, and between the dial of a probe and its end everything else may happen. -/
def next (int : IntSize) (n : Network) : Event → Option Network
  | .listen listener =>
    if n.listeners.any (fun l => l.port == listener.port) then none
    else some { n with listeners := n.listeners ++ [listener] }
  | .close i =>
    if i < n.listeners.length then some { n with listeners := n.listeners.eraseIdx i } else none
  | .call call => n.monitored int (.call call)
  | .tick => n.monitored int .tick
  | .snapshot => do
    let n' ← n.monitored int .snapshot
    return { n' with lines := n.lines ++ n.monitor.coordinator.snapshot.map fun _ => .idle }
  | .dial i =>
    match n.monitor.probes[i]?,n.lines[i]? with
    | some probe,some .idle =>
      let line := (dial n.listeners (workerAddress probe.port)).elim .refused .connected
      some { n with lines := n.lines.set i line }
    | _,_ => none
  | .workerSync i lost => do
    let (_,outcome) ← n.ended (.workerSync i lost)
    let n' ← n.monitored int (.workerSync i outcome)
    return { n' with lines := n.lines.eraseIdx i }

end Network

end MapReduce
