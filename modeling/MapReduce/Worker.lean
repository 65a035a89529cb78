import Mathlib
import MapReduce.Types
import MapReduce.Library.Store
import MapReduce.Library.Utf8
import MapReduce.Library.Wildcard

namespace MapReduce
open Files

/-- Go strings are byte strings, compared byte by byte. -/
structure KeyValue where
  key : Bytes
  value : Bytes
  deriving DecidableEq

/-- The conversion of a `uint32` to `int`, which wraps where `int` is no wider. -/
def IntSize.ofUInt32 : IntSize → UInt32 → Int
  | .w32,x => x.toInt32.toInt
  | .w64,x => x.toNat

/-- What `Decoder.Decode` finds at the front of a stream. -/
inductive Decoded
  | value (kv : KeyValue) (rest : Bytes)
  | eof
  | failed

def KeyValue.repair (kv : KeyValue) : KeyValue := ⟨Utf8.repair kv.key,Utf8.repair kv.value⟩

/-- What the source relies on in `encoding/json`: `Encode` writes the object and a
newline, strings lose what is not UTF-8, and `Decode` takes one object off the stream. -/
structure Json where
  marshal : KeyValue → Bytes
  decode : Bytes → Decoded
  decode_marshal : ∀ kv rest, decode (marshal kv ++ 0x0A :: rest) = .value kv.repair (0x0A :: rest)
  decode_newline : ∀ rest, decode (0x0A :: rest) = decode rest
  decode_nil : decode [] = .eof
  decode_shorter : ∀ s kv rest, decode s = .value kv rest → rest.length < s.length

def Json.encode (json : Json) (kv : KeyValue) : Bytes := json.marshal kv ++ [0x0A]

/-- What the source takes from outside: the width of `int`, the hash and the codec. -/
structure Platform where
  int : IntSize
  sum32 : Bytes → UInt32
  json : Json

/-- `sort.Sort(ByKey(..))` gives some sorted rearrangement. -/
structure KeySort where
  sort : List KeyValue → List KeyValue
  perm : ∀ l, (sort l).Perm l
  sorted : ∀ l, (sort l).Pairwise (fun a b => a.key ≤ b.key)

abbrev Mapf := String → Bytes → List KeyValue

abbrev Reducef := Bytes → List Bytes → Bytes

/-- The files under `mr-data`, by their path. -/
abbrev FileSystem := Store String UInt8

def ihash (go : Platform) (key : Bytes) : Int :=
  go.int.ofUInt32 (go.sum32 key &&& 0x7fffffff)

/-- Go's map from partition numbers to pairs, in which a missing number has none. -/
abbrev Partition := Int → List KeyValue

/-- Go's `%` takes the sign of the dividend. -/
def partitionValue (go : Platform) (nReduce : Int) (kv : KeyValue) : Int :=
  (ihash go kv.key).tmod nReduce

def addPair (go : Platform) (nReduce : Int) (partitions : Partition) (kv : KeyValue) : Partition :=
  Function.update partitions (partitionValue go nReduce kv)
    (partitions (partitionValue go nReduce kv) ++ [kv])

def partitionPairs (go : Platform) (nReduce : Int) (intermediate : List KeyValue) : Partition :=
  intermediate.foldl (addPair go nReduce) (fun _ => [])

def intermediateName (taskId : String) (partitionID : Nat) : String :=
  "mr-data/intermediate/mr-" ++ taskId ++ "-" ++ toString partitionID

/-- One write for each record through a handle that stands at `off`. -/
def writeRecords (fs : FileSystem) (name : String) (off : Nat) : List Bytes → FileSystem
  | [] => fs
  | record :: records =>
    writeRecords (fs.write 0 name off record) name (off + record.length) records

/-- `os.Create` and the writes through its handle. -/
def writeFile (fs : FileSystem) (name : String) (records : List Bytes) : FileSystem :=
  writeRecords (fs.create name) name 0 records

def writePartitions (go : Platform) (taskId : String) (partitions : Partition)
    (fs : FileSystem) (count : Nat) : FileSystem :=
  (List.range count).foldl (fun fs partitionID =>
    writeFile fs (intermediateName taskId partitionID)
      ((partitions partitionID).map go.json.encode)) fs

/-- `MapperTask` up to its report. An error is a `log.Fatalf` or a panic. -/
def mapperTask (go : Platform) (mapf : Mapf) (input : String → Option Bytes)
    (result : WorkerTaskRequestReply) (fs : FileSystem) : Except String FileSystem :=
  match input result.filePath with
  | none => .error ("cannot open " ++ result.filePath)
  | some content =>
    let kva := mapf result.filePath content
    if result.nReduce = 0 ∧ kva ≠ [] then .error "integer divide by zero"
    else .ok (writePartitions go result.taskId (partitionPairs go result.nReduce kva) fs
      result.nReduce.toNat)

/-- `filepath.Glob`: the paths that match, in order; `*` stops at a slash. -/
def glob (fs : FileSystem) (pattern : String) : List String :=
  (fs.names.filter (fun name => Wildcard.accepts '*' '/' pattern.toList name.toList)).insertionSort
    (· ≤ ·)

def globPattern (partition : Int) : String :=
  "mr-data/intermediate/mr-task-*-" ++ toString partition

def outputName (partition : Int) : String := "mr-data/output/mr-out-" ++ toString partition

/-- The loop of `Decode` calls, which ends at the first error, whatever it is. A value takes
at least one byte, so that a step for every byte is enough. -/
def decodeLoop (json : Json) : Nat → Bytes → List KeyValue
  | 0,_ => []
  | steps + 1,s =>
    match json.decode s with
    | .value kv rest => kv :: decodeLoop json steps rest
    | .eof | .failed => []

def decodeFile (json : Json) (s : Bytes) : List KeyValue := decodeLoop json s.length s

def readFiles (json : Json) (fs : FileSystem) (intermediate : List KeyValue) :
    List String → Except String (List KeyValue)
  | [] => .ok intermediate
  | filename :: files =>
    match fs.read filename with
    | none => .error ("cannot open intermediate file " ++ filename)
    | some s => readFiles json fs (intermediate ++ decodeFile json s) files

/-- The inner loop of `ReducerTask`: the values of one key, and the pairs after them. -/
def collect (key : Bytes) (values : List Bytes) : List KeyValue → List Bytes × List KeyValue
  | [] => (values,[])
  | kv :: rest =>
    if kv.key = key then collect key (values ++ [kv.value]) rest else (values,kv :: rest)

/-- The outer loop of `ReducerTask`, with the key and the result of each record. -/
def reduceLoop (reducef : Reducef) : Nat → List KeyValue → List KeyValue
  | 0,_ => []
  | _,[] => []
  | steps + 1,kv :: rest =>
    let (values,rest) := collect kv.key [kv.value] rest
    ⟨kv.key,reducef kv.key values⟩ :: reduceLoop reducef steps rest

def reduceRecords (reducef : Reducef) (intermediate : List KeyValue) : List KeyValue :=
  reduceLoop reducef intermediate.length intermediate

/-- `fmt.Fprintf(file, "%v %v\n", ..)`. -/
def formatRecord (record : KeyValue) : Bytes := record.key ++ 0x20 :: record.value ++ [0x0A]

/-- `ReducerTask` up to its report. -/
def reducerTask (go : Platform) (sort : KeySort) (reducef : Reducef)
    (result : WorkerTaskRequestReply) (fs : FileSystem) : Except String FileSystem := do
  let intermediate ← readFiles go.json fs [] (glob fs (globPattern result.partition))
  return writeFile fs (outputName result.partition)
    ((reduceRecords reducef (sort.sort intermediate)).map formatRecord)

end MapReduce
