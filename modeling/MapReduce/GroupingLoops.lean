import MapReduce.Sequential
import MapReduce.Library.Loops

namespace MapReduce
open Loops

/-- What the outer loop of a grouping keeps: its index, and the calls of `reducef` and the
records printed so far. -/
structure Emitted where
  i : Nat := 0
  calls : List (Bytes × List Bytes) := []
  records : List KeyValue := []
  deriving DecidableEq

/-- The end of a round: `reducef` is called, its result is printed, and `i` becomes `j`. -/
def Emitted.emit (reducef : Reducef) (s : Emitted) (key : Bytes) (values : List Bytes) (j : Nat) :
    Emitted :=
  ⟨j,s.calls ++ [(key,values)],s.records ++ [⟨key,reducef key values⟩]⟩

section
variable (intermediate : List KeyValue)

/-- `j < len(intermediate) && intermediate[j].Key == intermediate[i].Key`. -/
def sameKey (i j : Nat) : Bool :=
  j < intermediate.length &&
    intermediate[j]?.map KeyValue.key == intermediate[i]?.map KeyValue.key

/-- `values = append(values, intermediate[j].Value)` and `j++`; an index out of range is a
panic. -/
def appendValue (s : Nat × List Bytes) : Option (Nat × List Bytes) :=
  intermediate[s.1]?.map fun kv => (s.1 + 1,s.2 ++ [kv.value])

variable (reducef : Reducef) (fuel : Nat)

/-- A round of `ReducerTask`: the values start with the first one and grow with `j`. -/
def reducerRound (s : Emitted) : Option Emitted := do
  let first ← intermediate[s.i]?
  let (j,values) ← loop (fun v => sameKey intermediate s.i v.1) (appendValue intermediate) fuel
    (s.i + 1,[first.value])
  return s.emit reducef first.key values j

/-- A round of `mrsequential`: the end of the run first, then the values from `i` up to it. -/
def sequentialRound (s : Emitted) : Option Emitted := do
  let j ← loop (sameKey intermediate s.i) (fun j => some (j + 1)) fuel (s.i + 1)
  let (_,values) ← loop (fun v => decide (v.1 < j)) (appendValue intermediate) fuel (s.i,[])
  let first ← intermediate[s.i]?
  return s.emit reducef first.key values j

/-- The grouping loop of `ReducerTask` with the indices of the source. -/
def reducerGrouping : Option Emitted :=
  loop (fun s => decide (s.i < intermediate.length)) (reducerRound intermediate reducef fuel) fuel {}

/-- The grouping loop of `mrsequential` with the indices of the source. -/
def sequentialGrouping : Option Emitted :=
  loop (fun s => decide (s.i < intermediate.length)) (sequentialRound intermediate reducef fuel)
    fuel {}

end

end MapReduce
