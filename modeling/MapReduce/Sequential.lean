import Mathlib
import MapReduce.Worker

namespace MapReduce

/-- The loop over the input files. Call `i` of the plugin's `Map` is `mapf i`: the order of
the pairs it returns may differ from call to call. -/
def mapInputs (mapf : Nat → Mapf) (input : String → Option Bytes) (intermediate : List KeyValue)
    (i : Nat) : List String → Except String (List KeyValue)
  | [] => .ok intermediate
  | filename :: files =>
    match input filename with
    | none => .error ("cannot open " ++ filename)
    | some content =>
      mapInputs mapf input (intermediate ++ mapf i filename content) (i + 1) files

/-- How far `j` runs past `i` while the key stays the same. -/
def sameKeys (key : Bytes) : List KeyValue → Nat
  | [] => 0
  | kv :: rest => if kv.key = key then sameKeys key rest + 1 else 0

/-- The grouping loop of `mrsequential`, which first finds the end of the run and then
goes over it again for the values. -/
def sequentialLoop (reducef : Reducef) : Nat → List KeyValue → List KeyValue
  | 0,_ => []
  | _,[] => []
  | steps + 1,kv :: rest =>
    let j := sameKeys kv.key rest + 1
    let values := ((kv :: rest).take j).map KeyValue.value
    ⟨kv.key,reducef kv.key values⟩ :: sequentialLoop reducef steps ((kv :: rest).drop j)

def sequentialRecords (reducef : Reducef) (intermediate : List KeyValue) : List KeyValue :=
  sequentialLoop reducef intermediate.length intermediate

/-- `mrsequential`: the contents of its `mr-out-0`. -/
def mrsequential (mapf : Nat → Mapf) (reducef : Reducef) (sort : KeySort)
    (input : String → Option Bytes) (files : List String) : Except String Bytes := do
  if files = [] then .error "Usage: mrsequential xxx.so inputfiles..."
  else
    let intermediate ← mapInputs mapf input [] 0 files
    return (sequentialRecords reducef (sort.sort intermediate)).flatMap formatRecord

end MapReduce
