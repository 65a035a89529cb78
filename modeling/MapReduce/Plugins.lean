import Mathlib
import MapReduce.Worker
import MapReduce.Library.Runes

namespace MapReduce
open Utf8

/-- What the plugins take from the `unicode` package. The replacement character, as which a
loop over a string reads a byte that is not UTF-8, is no letter. -/
structure Unicode where
  isLetter : Nat → Bool
  replacement : isLetter 0xFFFD = false

/-- `strconv.Itoa` of a length. -/
def itoa (n : Nat) : Bytes := encode (toString n)

/-- `sort.Strings`. -/
def sortStrings (values : List Bytes) : List Bytes := values.insertionSort (· ≤ ·)

/-- `strings.FieldsFunc` with the separator that `wc` and `indexer` use. -/
def words (unicode : Unicode) (contents : Bytes) : List Bytes :=
  fieldsFunc (fun r => !unicode.isLetter r) contents

namespace Wc

def map (unicode : Unicode) : Mapf := fun _ contents =>
  (words unicode contents).map (fun w => ⟨w,encode "1"⟩)

def reduce : Reducef := fun _ values => itoa values.length

end Wc

/-- The order in which a loop over a Go map visits its keys. -/
structure MapOrder where
  order : List Bytes → List Bytes
  perm : ∀ keys, (order keys).Perm keys

/-- The map is visited in the order in which its keys came. -/
def insertionOrder : MapOrder := ⟨id,fun _ => List.Perm.refl _⟩

namespace Indexer

def map (unicode : Unicode) (m : MapOrder) : Mapf := fun document value =>
  (m.order (words unicode value).dedup).map (fun w => ⟨w,encode document⟩)

/-- `fmt.Sprintf("%d %s", len(values), strings.Join(values, ","))`. -/
def reduce : Reducef := fun _ values =>
  let values := sortStrings values
  itoa values.length ++ 0x20 :: (encode ",").intercalate values

end Indexer

namespace EarlyExit

def map : Mapf := fun filename _ => [⟨encode filename,encode "1"⟩]

/-- It sleeps for some keys, which changes nothing of the result. -/
def reduce : Reducef := fun _ values => itoa values.length

end EarlyExit

namespace Crash

/-- That of `crash.go` and of `nocrash.go`. In `maybeCrash` a worker that runs the former may
stop for good or wait, and neither shows in what is returned. -/
def map : Mapf := fun filename contents =>
  [⟨encode "a",encode filename⟩,⟨encode "b",itoa (encode filename).length⟩,
    ⟨encode "c",itoa contents.length⟩,⟨encode "d",encode "xyzzy"⟩]

def reduce : Reducef := fun _ values => (encode " ").intercalate (sortStrings values)

end Crash

end MapReduce
