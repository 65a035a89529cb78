import Mathlib
import MapReduce.Porcupine.Checker

namespace MapReduce.Porcupine

inductive EventKind
  | callEvent | returnEvent
  deriving DecidableEq

structure Event (ι ο : Type) where
  clientId : Int
  kind : EventKind
  value : Value ι ο
  id : Int

/-- A model as it is given; `none` is nil. -/
structure Model (ι ο σ : Type) where
  partition : Option (List (Operation ι ο) → List (List (Operation ι ο)))
  partitionEvent : Option (List (Event ι ο) → List (List (Event ι ο)))
  init : σ
  step : σ → ι → ο → Bool × σ
  equal : Option (σ → σ → Bool)

/-- A model without nil functions. -/
structure FilledModel (ι ο σ : Type) extends Object ι ο σ where
  partition : List (Operation ι ο) → List (List (Operation ι ο))
  partitionEvent : List (Event ι ο) → List (List (Event ι ο))

inductive CheckResult
  | unknown | ok | illegal
  deriving DecidableEq

section
variable {ι ο σ : Type}

def noPartition (history : List (Operation ι ο)) : List (List (Operation ι ο)) := [history]

def noPartitionEvent (history : List (Event ι ο)) : List (List (Event ι ο)) := [history]

def shallowEqual [DecidableEq σ] (state1 state2 : σ) : Bool := state1 = state2

def fillDefault [DecidableEq σ] (model : Model ι ο σ) : FilledModel ι ο σ where
  init := model.init
  step := model.step
  equal := model.equal.getD shallowEqual
  partition := model.partition.getD noPartition
  partitionEvent := model.partitionEvent.getD noPartitionEvent

/-- The loop of `renumber`, with its map and its counter. -/
def renumberFrom (m : Int → Option Int) (id : Int) : List (Event ι ο) → List (Event ι ο)
  | [] => []
  | v :: events =>
    match m v.id with
    | some r => { v with id := r } :: renumberFrom m id events
    | none => { v with id } :: renumberFrom (Function.update m v.id (some id)) (id + 1) events

def renumber (events : List (Event ι ο)) : List (Event ι ο) := renumberFrom (fun _ => none) 0 events

/-- The loop of `convertEntries` from index `i` on, which serves as the time. -/
def convertFrom (i : Nat) : List (Event ι ο) → List (Entry ι ο)
  | [] => []
  | elem :: events =>
    ⟨if elem.kind = .returnEvent then .returnEntry else .callEntry,elem.value,elem.id,i,
      elem.clientId⟩ :: convertFrom (i + 1) events

def convertEntries (events : List (Event ι ο)) : List (Entry ι ο) := convertFrom 0 events

end

/-- A goroutine of `checkParallel`: in `checkSingle`, back from it, or done. -/
inductive Goroutine (ι ο σ : Type)
  | running (s : Search ι ο σ)
  | returned (verdict : Verdict)
  | sent

/-- Where `checkParallel` is: in its loop, where it waits for the other goroutines, or past
that. A panic of a goroutine ends the program. -/
inductive ParallelPc
  | loop | drain | finished | crashed
  deriving DecidableEq

/-- The variables of `checkParallel`; `results` is what the channel holds. -/
structure Parallel (ι ο σ : Type) where
  goroutines : List (Goroutine ι ο σ)
  longest : List (List (Option (List Int)))
  results : List Bool
  kill : Bool
  ok : Bool
  timedOut : Bool
  count : Nat
  pc : ParallelPc

/-- What may happen next: a round of a goroutine, the end of one, or one of the two cases of
the `select`. -/
inductive ParallelAction
  | round (i : Nat)
  | send (i : Nat)
  | receive
  | timeout

namespace Parallel
variable {ι ο σ : Type} (object : Object ι ο σ) (computeInfo timeout : Bool)

def start (history : List (List (Entry ι ο))) : Parallel ι ο σ where
  goroutines := history.map (fun subhistory => .running (Search.start object subhistory))
  longest := history.map (fun _ => [])
  results := []
  kill := false
  ok := true
  timedOut := false
  count := 0
  pc := .loop

/-- After the loop the results that are left are only waited for when `longest` is read. -/
def leave (s : Parallel ι ο σ) : Parallel ι ο σ :=
  { s with pc := if computeInfo && s.count < s.goroutines.length then .drain else .finished }

/-- A result that the loop receives. -/
def receive (s : Parallel ι ο σ) (result : Bool) (results : List Bool) : Parallel ι ο σ :=
  let s := { s with results, count := s.count + 1, ok := s.ok && result }
  if !s.ok && !computeInfo then leave computeInfo { s with kill := true }
  else if s.goroutines.length ≤ s.count then leave computeInfo s
  else s

/-- `timeout` says that one was given. The buffer has room for all results. -/
def next (s : Parallel ι ο σ) : ParallelAction → Option (Parallel ι ο σ)
  | .round i =>
    match s.pc,s.goroutines[i]? with
    | .crashed,_ => none
    | _,some (.running g) =>
      match g.round object computeInfo s.kill with
      | none => some { s with pc := .crashed }
      | some (.inl g) => some { s with goroutines := s.goroutines.set i (.running g) }
      | some (.inr verdict) => some { s with goroutines := s.goroutines.set i (.returned verdict) }
    | _,_ => none
  | .send i =>
    match s.pc,s.goroutines[i]? with
    | .crashed,_ => none
    | _,some (.returned verdict) => some { s with
        goroutines := s.goroutines.set i .sent
        longest := s.longest.set i verdict.longest
        results := s.results ++ [verdict.ok] }
    | _,_ => none
  | .receive =>
    match s.pc,s.results with
    | .loop,result :: results => some (s.receive computeInfo result results)
    | .drain,_ :: results => some (leave computeInfo { s with results, count := s.count + 1 })
    | _,_ => none
  | .timeout =>
    match s.pc with
    | .loop =>
      if timeout then some (leave computeInfo { s with timedOut := true, kill := true }) else none
    | _ => none

def result (s : Parallel ι ο σ) : CheckResult :=
  if !s.ok then .illegal else if s.timedOut then .unknown else .ok

end Parallel

section
variable {ι ο σ : Type}

/-- The histories that `checkOperations` has checked. -/
def operationParts (sort : TimeSort ι ο) (model : FilledModel ι ο σ)
    (history : List (Operation ι ο)) : List (List (Entry ι ο)) :=
  (model.partition history).map (makeEntries sort)

def checkOperations (sort : TimeSort ι ο) (model : FilledModel ι ο σ)
    (history : List (Operation ι ο)) : Parallel ι ο σ :=
  Parallel.start model.toObject (operationParts sort model history)

/-- The histories that `checkEvents` has checked. -/
def eventParts (model : FilledModel ι ο σ) (history : List (Event ι ο)) :
    List (List (Entry ι ο)) :=
  (model.partitionEvent history).map (fun subhistory => convertEntries (renumber subhistory))

def checkEvents (model : FilledModel ι ο σ) (history : List (Event ι ο)) : Parallel ι ο σ :=
  Parallel.start model.toObject (eventParts model history)

end

end MapReduce.Porcupine
