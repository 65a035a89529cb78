import Mathlib
import MapReduce.Plugins
import MapReduce.Porcupine.Parallel

namespace MapReduce.Porcupine

/-- `op` is 0 for get, 1 for put, and append otherwise. -/
structure KvInput where
  op : UInt8
  key : Bytes
  value : Bytes

structure KvOutput where
  value : Bytes

/-- The operations of each key, in the order of the keys. `order` is the one in which the
loop over the map finds them. -/
def kvPartition (order : MapOrder) (history : List (Operation KvInput KvOutput)) :
    List (List (Operation KvInput KvOutput)) :=
  let m := fun key => history.filter (fun v => v.input.key = key)
  let keys := order.order (history.map (fun v => v.input.key)).dedup
  (sortStrings keys).map m

/-- The value of one key. -/
def kvStep (st : Bytes) (inp : KvInput) (out : KvOutput) : Bool × Bytes :=
  if inp.op = 0 then (out.value = st,st)
  else if inp.op = 1 then (true,inp.value)
  else (true,st ++ inp.value)

def kvModel (order : MapOrder) : Model KvInput KvOutput Bytes where
  partition := some (kvPartition order)
  partitionEvent := none
  init := []
  step := kvStep
  equal := none

end MapReduce.Porcupine
