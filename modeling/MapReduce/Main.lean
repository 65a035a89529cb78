import MapReduce.Health

namespace MapReduce

/-- Where `main` of `mrcoordinator` stands once it has its coordinator: before the call of
`Done`, in the loop with the phase that the call gave, or returned. -/
inductive MainPc
  | calling
  | looping (currentPhase : CoordinatorPhase)
  | returned
  deriving DecidableEq

/-- The process of `mrcoordinator`: its main goroutine beside the coordinator's own. -/
structure Main where
  monitor : Monitor
  pc : MainPc := .calling
  deriving DecidableEq

namespace Main

inductive Event
  | coordinator (event : Monitor.Event)
  | done
  | poll
  deriving DecidableEq

def start (files : List String) (nReduce : Int) : Main :=
  { monitor := Monitor.start files nReduce }

def phase (m : Main) : CoordinatorPhase := m.monitor.coordinator.phase

/-- The coordinator serves before and between the steps of `main`. A poll is one look at the
condition of the loop; a round prints the number of active workers and sleeps, and calls
`Done` no more. When `main` returns, the process ends. -/
def next (int : IntSize) (m : Main) : Event → Option Main
  | .coordinator event =>
    if m.pc = .returned then none
    else (m.monitor.next int event).map fun monitor => { m with monitor := monitor }
  | .done =>
    if m.pc = .calling then some { m with pc := .looping m.monitor.coordinator.done } else none
  | .poll =>
    match m.pc with
    | .looping currentPhase =>
      if currentPhase ≠ .finishedPhase then some m else some { m with pc := .returned }
    | _ => none

end Main

end MapReduce
