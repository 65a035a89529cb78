import Mathlib
import MapReduce.Worker
import MapReduce.Library.JsonText

namespace MapReduce
open JsonText

def ascii (s : String) : Bytes := s.toList.map (fun c => c.toNat.toUInt8)

/-- `json.Marshal` of a pair. -/
def marshalPair (kv : KeyValue) : Bytes :=
  ascii "\x7b\"Key\":\"" ++ (literal kv.key ++ (ascii ",\"Value\":\"" ++ (literal kv.value ++
    ascii "\x7d")))

def expect (text s : Bytes) : Option Bytes :=
  if text.isPrefixOf s then some (s.drop text.length) else none

/-- Reads an object with the two fields in the order in which `Encode` writes them. -/
def parsePair (s : Bytes) : Option (KeyValue × Bytes) := do
  let s ← expect (ascii "\x7b\"Key\":\"") s
  let (key,s) ← unquote s
  let s ← expect (ascii ",\"Value\":\"") s
  let (value,s) ← unquote s
  let s ← expect (ascii "\x7d") s
  return (⟨key,value⟩,s)

def isSpace (b : UInt8) : Bool := b == 0x20 || b == 0x0A || b == 0x0D || b == 0x09

def decodePair (s : Bytes) : Decoded :=
  match s.dropWhile isSpace with
  | [] => .eof
  | a :: rest =>
    match parsePair (a :: rest) with
    | some (kv,after) => .value kv after
    | none => .failed

theorem expect_append (text s : Bytes) : expect text (text ++ s) = some s := by
  simp [expect]

theorem expect_length (h : expect text s = some rest) : rest.length ≤ s.length := by
  unfold expect at h
  split at h
  · cases h
    simp
  · cases h

theorem parsePair_marshal (kv : KeyValue) (rest : Bytes) :
    parsePair (marshalPair kv ++ rest) = some (kv.repair,rest) := by
  simp only [parsePair,marshalPair,List.append_assoc,expect_append,unquote_literal,
    Option.bind_eq_bind,Option.bind_some,Option.pure_def]
  rfl

theorem parsePair_length (h : parsePair s = some (kv,rest)) : rest.length < s.length := by
  simp only [parsePair,Option.bind_eq_bind,Option.bind_eq_some_iff,Option.pure_def,
    Option.some.injEq,Prod.mk.injEq,Prod.exists] at h
  obtain ⟨s₁,h₁,k,s₂,h₂,s₃,h₃,v,s₄,h₄,s₅,h₅,_,rfl⟩ := h
  have := expect_length h₁
  have := unquote_length h₂
  have := expect_length h₃
  have := unquote_length h₄
  have := expect_length h₅
  omega

theorem decodePair_length (h : decodePair s = .value kv rest) : rest.length < s.length := by
  unfold decodePair at h
  have hd := (List.dropWhile_suffix isSpace (l := s)).length_le
  split at h
  · cases h
  · rename_i a t ht
    split at h
    · rename_i kv' after hp
      cases h
      have := parsePair_length hp
      rw [ht] at hd
      omega
    · cases h

/-- `encoding/json` on a stream of pairs that `Encode` wrote. -/
def encodingJson : Json where
  marshal := marshalPair
  decode := decodePair
  decode_marshal kv rest := by
    have hd : (marshalPair kv ++ 0x0A :: rest).dropWhile isSpace =
        marshalPair kv ++ 0x0A :: rest := rfl
    unfold decodePair
    rw [hd]
    have hp := parsePair_marshal kv (0x0A :: rest)
    cases hm : marshalPair kv ++ 0x0A :: rest with
    | nil => simp at hm
    | cons a t =>
      rw [hm] at hp
      simp only [hp]
  decode_newline rest := rfl
  decode_nil := rfl
  decode_shorter s kv rest h := decodePair_length h

/-- `New32a` of `hash/fnv`. -/
def fnv32a (key : Bytes) : UInt32 :=
  key.foldl (fun h b => (h ^^^ b.toUInt32) * 16777619) 2166136261

def goPlatform : Platform := ⟨.w64,fnv32a,encodingJson⟩

/-- A plugin for concrete runs: it counts how often each byte occurs. -/
def countMapf : Mapf := fun _ content => content.map (fun b => ⟨[b],ascii "1"⟩)

def countReducef : Reducef := fun _ values => ascii (toString values.length)

end MapReduce
