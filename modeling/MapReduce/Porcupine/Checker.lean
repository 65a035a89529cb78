import Mathlib
import MapReduce.Library.Links
import MapReduce.Porcupine.Bitset

namespace MapReduce.Porcupine

structure Operation (ι ο : Type) where
  clientId : Int
  input : ι
  call : Int
  output : ο
  ret : Int

/-- What the checker uses of a `Model` in which no function is nil. -/
structure Object (ι ο σ : Type) where
  init : σ
  step : σ → ι → ο → Bool × σ
  equal : σ → σ → Bool

inductive EntryKind
  | callEntry | returnEntry
  deriving DecidableEq

/-- The value of a call is an input, that of a return an output. -/
inductive Value (ι ο : Type)
  | input (i : ι)
  | output (o : ο)

structure Entry (ι ο : Type) where
  kind : EntryKind
  value : Value ι ο
  id : Int
  time : Int
  clientId : Int

/-- A `node` without its links; `matching` is nil for a return, and `value` for the head. -/
structure Node (ι ο : Type) where
  value : Option (Value ι ο)
  matching : Option Nat
  id : Int

section
variable {ι ο σ : Type}

/-- `byTime.Less`: calls go before returns of the same time. -/
def Entry.less (a b : Entry ι ο) : Bool :=
  if a.time ≠ b.time then a.time < b.time
  else a.kind = .callEntry && b.kind = .returnEntry

/-- `sort.Sort(byTime(..))` gives some rearrangement without an inversion. -/
structure TimeSort (ι ο : Type) where
  sort : List (Entry ι ο) → List (Entry ι ο)
  perm : ∀ l, (sort l).Perm l
  sorted : ∀ l, (sort l).Pairwise (fun a b => b.less a = false)

/-- The two entries of each operation, with ids from `id` on. -/
def operationEntries : Nat → List (Operation ι ο) → List (Entry ι ο)
  | _,[] => []
  | id,elem :: history =>
    ⟨.callEntry,.input elem.input,id,elem.call,elem.clientId⟩ ::
      ⟨.returnEntry,.output elem.output,id,elem.ret,elem.clientId⟩ ::
      operationEntries (id + 1) history

def makeEntries (sort : TimeSort ι ο) (history : List (Operation ι ο)) : List (Entry ι ο) :=
  sort.sort (operationEntries 0 history)

def insertBefore (l : Links Nat) (n : Nat) : Option Nat → Links Nat
  | none => l
  | some mark =>
    let beforeMark := l.prev mark
    let l := (l.setPrev mark (some n)).setNext n (some mark)
    match beforeMark with
    | none => l
    | some before => (l.setPrev n (some before)).setNext before (some n)

/-- The list in the making: the nodes by address, their links, the first node, and the
return nodes by id. -/
structure Linking (ι ο : Type) where
  nodes : List (Node ι ο)
  links : Links Nat
  root : Option Nat
  matching : Int → Option Nat

def Linking.start : Linking ι ο := ⟨[],⟨fun _ => none,fun _ => none⟩,none,fun _ => none⟩

/-- One round of `makeLinkedEntries`: a new node goes before the root. -/
def Linking.add (elem : Entry ι ο) (s : Linking ι ο) : Linking ι ο :=
  let entry := s.nodes.length
  let links := insertBefore s.links entry s.root
  match elem.kind with
  | .returnEntry =>
    ⟨s.nodes ++ [⟨some elem.value,none,elem.id⟩],links,some entry,
      Function.update s.matching elem.id (some entry)⟩
  | .callEntry =>
    ⟨s.nodes ++ [⟨some elem.value,s.matching elem.id,elem.id⟩],links,some entry,s.matching⟩

/-- The loop goes from the last entry to the first. -/
def makeLinkedEntries (entries : List (Entry ι ο)) : Linking ι ο :=
  entries.foldr Linking.add Linking.start

/-- The nodes from `n` on, at most `fuel` of them. -/
def length (l : Links Nat) : Nat → Option Nat → Nat
  | 0,_ => 0
  | _,none => 0
  | fuel + 1,some n => length l fuel (l.next n) + 1

structure CacheEntry (σ : Type) where
  linearized : Bitset
  state : σ

def cacheContains (object : Object ι ο σ) (cache : UInt64 → List (CacheEntry σ))
    (entry : CacheEntry σ) : Bool :=
  (cache entry.linearized.hash).any (fun elem =>
    entry.linearized.equals elem.linearized && object.equal entry.state elem.state)

structure CallsEntry (σ : Type) where
  entry : Nat
  state : σ

/-- `none` is a nil dereference. -/
def lift (nodes : List (Node ι ο)) (l : Links Nat) (entry : Nat) : Option (Links Nat) := do
  let before ← l.prev entry
  let l := l.setNext before (l.next entry)
  let after ← l.next entry
  let l := l.setPrev after (l.prev entry)
  let node ← nodes[entry]?
  let matching ← node.matching
  l.unlink matching

def unlift (nodes : List (Node ι ο)) (l : Links Nat) (entry : Nat) : Option (Links Nat) := do
  let node ← nodes[entry]?
  let matching ← node.matching
  let l ← l.relink matching
  let before ← l.prev entry
  let l := l.setNext before (some entry)
  let after ← l.next entry
  some (l.setPrev after (some entry))

end

/-- The variables of `checkSingle`. The sequences in `longest` are shared by pointers there
and never written again. -/
structure Search (ι ο σ : Type) where
  nodes : List (Node ι ο)
  links : Links Nat
  headEntry : Nat
  entry : Option Nat
  state : σ
  linearized : Bitset
  cache : UInt64 → List (CacheEntry σ)
  calls : List (CallsEntry σ)
  longest : List (Option (List Int))

/-- What `checkSingle` returns. -/
structure Verdict where
  ok : Bool
  longest : List (Option (List Int))

namespace Search
variable {ι ο σ : Type} (object : Object ι ο σ)

/-- The statements before the loop. -/
def start (history : List (Entry ι ο)) : Search ι ο σ :=
  let list := makeLinkedEntries history
  let n := length list.links list.nodes.length list.root / 2
  let headEntry := list.nodes.length
  { nodes := list.nodes ++ [⟨none,none,-1⟩]
    links := insertBefore list.links headEntry list.root
    headEntry
    entry := list.root
    state := object.init
    linearized := newBitset n
    cache := fun _ => []
    calls := []
    longest := List.replicate n none }

/-- The ids of the calls in the order of the stack. -/
def seq (s : Search ι ο σ) : Option (List Int) :=
  s.calls.mapM (fun v => (s.nodes[v.entry]?).map Node.id)

/-- `model.Step` on the values of two nodes; its type assertions fail on other ones. -/
def stepNodes (state : σ) (entry matching : Node ι ο) : Option (Bool × σ) :=
  match entry.value,matching.value with
  | some (.input i),some (.output o) => some (object.step state i o)
  | _,_ => none

/-- `longest[id] = &seq`, where there is none yet or a shorter one. -/
def recordLongest (seq : List Int) (longest : List (Option (List Int))) (id : Int) :
    Option (List (Option (List Int))) := do
  let pos ← id.toNat?
  let old ← longest[pos]?
  some (if old.all (fun best => best.length < seq.length) then longest.set pos (some seq)
    else longest)

def updateLongest (s : Search ι ο σ) : Option (List (Option (List Int))) := do
  let seq ← s.seq
  seq.foldlM (recordLongest seq) s.longest

/-- The branch of a call. -/
def tryCall (s : Search ι ο σ) (entry : Nat) (node matching : Node ι ο) :
    Option (Search ι ο σ) := do
  let (ok,newState) ← stepNodes object s.state node matching
  if ok then
    let pos ← node.id.toNat?
    let newLinearized ← s.linearized.set pos
    let newCacheEntry : CacheEntry σ := ⟨newLinearized,newState⟩
    if cacheContains object s.cache newCacheEntry then
      some { s with entry := s.links.next entry }
    else
      let hash := newLinearized.hash
      let linearized ← s.linearized.set pos
      let links ← lift s.nodes s.links entry
      some { s with
        cache := Function.update s.cache hash (s.cache hash ++ [newCacheEntry])
        calls := s.calls ++ [⟨entry,s.state⟩]
        state := newState
        linearized
        links
        entry := links.next s.headEntry }
  else
    some { s with entry := s.links.next entry }

/-- The branch of a return, with a call on the stack to take back. -/
def backtrack (computePartial : Bool) (s : Search ι ο σ) (callsTop : CallsEntry σ) :
    Option (Search ι ο σ) := do
  let longest ← if computePartial then s.updateLongest else some s.longest
  let top ← s.nodes[callsTop.entry]?
  let pos ← top.id.toNat?
  let linearized ← s.linearized.clear pos
  let links ← unlift s.nodes s.links callsTop.entry
  some { s with
    longest
    state := callsTop.state
    linearized
    calls := s.calls.dropLast
    links
    entry := links.next callsTop.entry }

/-- One round of the loop: it goes on or returns. `kill` is what the round reads; `none` is a
panic. -/
def round (computePartial kill : Bool) (s : Search ι ο σ) :
    Option (Search ι ο σ ⊕ Verdict) := do
  match s.links.next s.headEntry with
  | none =>
    let seq ← s.seq
    some (.inr ⟨true,s.longest.map (fun _ => some seq)⟩)
  | some _ =>
    if kill then some (.inr ⟨false,s.longest⟩)
    else
      let entry ← s.entry
      let node ← s.nodes[entry]?
      match node.matching with
      | some matching =>
        let matching ← s.nodes[matching]?
        (tryCall object s entry node matching).map .inl
      | none =>
        match s.calls.getLast? with
        | none => some (.inr ⟨false,s.longest⟩)
        | some callsTop => (backtrack computePartial s callsTop).map .inl

/-- At most `fuel` rounds, where `kill k` is what round `k` reads. -/
def rounds (computePartial : Bool) (kill : Nat → Bool) : Nat → Nat → Search ι ο σ → Option Verdict
  | 0,_,_ => none
  | fuel + 1,k,s =>
    match round object computePartial (kill k) s with
    | none => none
    | some (.inr verdict) => some verdict
    | some (.inl t) => rounds computePartial kill fuel (k + 1) t

end Search

def checkSingle {ι ο σ : Type} (object : Object ι ο σ) (history : List (Entry ι ο))
    (computePartial : Bool) (kill : Nat → Bool) (fuel : Nat) : Option Verdict :=
  Search.rounds object computePartial kill fuel 0 (Search.start object history)

end MapReduce.Porcupine
