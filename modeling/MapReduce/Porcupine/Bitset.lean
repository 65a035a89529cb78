import Mathlib

namespace MapReduce.Porcupine

/-- Bit `i` is bit `i % 64` of word `i / 64`. -/
abbrev Bitset := List UInt64

def newBitset (bits : Nat) : Bitset :=
  let extra := if bits % 64 ≠ 0 then 1 else 0
  List.replicate (bits / 64 + extra) 0

def bitsetIndex (pos : Nat) : Nat × Nat := (pos / 64,pos % 64)

namespace Bitset

/-- `none` is the panic of an index out of range, here and below. -/
def set (b : Bitset) (pos : Nat) : Option Bitset := do
  let (major,minor) := bitsetIndex pos
  let word ← b[major]?
  some (List.set b major (word ||| (1 : UInt64) <<< minor.toUInt64))

def clear (b : Bitset) (pos : Nat) : Option Bitset := do
  let (major,minor) := bitsetIndex pos
  let word ← b[major]?
  some (List.set b major (word &&& ~~~((1 : UInt64) <<< minor.toUInt64)))

def get (b : Bitset) (pos : Nat) : Option Bool := do
  let (major,minor) := bitsetIndex pos
  let word ← b[major]?
  some (word &&& (1 : UInt64) <<< minor.toUInt64 != 0)

/-- The number of bits that are set, by `bits.OnesCount64`. -/
def popcnt (b : Bitset) : Nat := (b.map (fun v => v.toBitVec.cpop.toNat)).sum

def hash (b : Bitset) : UInt64 := b.foldl (· ^^^ ·) (popcnt b).toUInt64

def equals (b b2 : Bitset) : Bool :=
  if b.length ≠ b2.length then false else (b.zip b2).all (fun v => v.1 == v.2)

end Bitset

end MapReduce.Porcupine
