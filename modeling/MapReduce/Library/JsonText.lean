import Mathlib
import MapReduce.Library.Utf8

namespace JsonText

open Utf8

def hexDigit (n : Nat) : UInt8 :=
  if n < 10 then (0x30 + n).toUInt8 else (0x57 + n).toUInt8

def hexValue (d : UInt8) : Option Nat :=
  if 0x30 ≤ d ∧ d ≤ 0x39 then some (d.toNat - 0x30)
  else if 0x61 ≤ d ∧ d ≤ 0x66 then some (d.toNat - 0x57)
  else if 0x41 ≤ d ∧ d ≤ 0x46 then some (d.toNat - 0x37)
  else none

def unicodeEscape (code : Nat) : Bytes :=
  [0x5C,0x75,hexDigit (code / 4096 % 16),hexDigit (code / 256 % 16),hexDigit (code / 16 % 16),
    hexDigit (code % 16)]

/-- A character of the basic plane in bytes. -/
def ofCode (code : Nat) : Bytes :=
  if code < 0x80 then [code.toUInt8]
  else if code < 0x800 then [(0xC0 + code / 64).toUInt8,(0x80 + code % 64).toUInt8]
  else [(0xE0 + code / 4096).toUInt8,(0x80 + code / 64 % 64).toUInt8,(0x80 + code % 64).toUInt8]

def shortEscape (b : UInt8) : Option UInt8 :=
  if b = 0x22 ∨ b = 0x5C then some b
  else if b = 0x0A then some 0x6E
  else if b = 0x0D then some 0x72
  else if b = 0x09 then some 0x74
  else none

def shortValue (e : UInt8) : Option UInt8 :=
  if e = 0x22 ∨ e = 0x5C ∨ e = 0x2F then some e
  else if e = 0x6E then some 0x0A
  else if e = 0x72 then some 0x0D
  else if e = 0x74 then some 0x09
  else if e = 0x62 then some 0x08
  else if e = 0x66 then some 0x0C
  else none

/-- Control characters, quotes and backslashes are escaped, and so are the three
characters that mean something in HTML. -/
def escapeAscii (b : UInt8) : Bytes :=
  match shortEscape b with
  | some e => [0x5C,e]
  | none =>
    if b < 0x20 ∨ b = 0x3C ∨ b = 0x3E ∨ b = 0x26 then unicodeEscape b.toNat else [b]

/-- The two line separators are escaped, and a byte outside a character is written as the
replacement character. -/
def escape : Chunk → Bytes
  | .char bytes =>
    if bytes = [0xE2,0x80,0xA8] then unicodeEscape 0x2028
    else if bytes = [0xE2,0x80,0xA9] then unicodeEscape 0x2029
    else bytes.flatMap fun b => if b < 0x80 then escapeAscii b else [b]
  | .bad _ => unicodeEscape 0xFFFD

/-- The characters of a string literal and its closing quote. -/
def literal (s : Bytes) : Bytes := (chunks s).flatMap escape ++ [0x22]

def hexCode (a b c d : UInt8) : Option Nat := do
  return 4096 * (← hexValue a) + 256 * (← hexValue b) + 16 * (← hexValue c) + (← hexValue d)

/-- Reads a string literal up to its closing quote: the string and what follows it. An
escaped half of a surrogate pair, which the writer above never produces, is refused. -/
def unquote : Bytes → Option (Bytes × Bytes)
  | 0x22 :: rest => some ([],rest)
  | 0x5C :: 0x75 :: a :: b :: c :: d :: rest => do
    let code ← hexCode a b c d
    guard (code < 0xD800 ∨ 0xE000 ≤ code)
    let (s,after) ← unquote rest
    return (ofCode code ++ s,after)
  | 0x5C :: e :: rest => do
    let b ← shortValue e
    let (s,after) ← unquote rest
    return (b :: s,after)
  | b :: rest =>
    if b < 0x20 then none
    else do
      let (s,after) ← unquote rest
      return (b :: s,after)
  | [] => none

theorem hexValue_hexDigit : ∀ n < 16, hexValue (hexDigit n) = some n := by decide

theorem unquote_unicode (h : code < 0xD800 ∨ 0xE000 ≤ code) (hc : code < 65536) (rest : Bytes) :
    unquote (unicodeEscape code ++ rest) =
      (unquote rest).map fun p => (ofCode code ++ p.1,p.2) := by
  have hcode : hexCode (hexDigit (code / 4096 % 16)) (hexDigit (code / 256 % 16))
      (hexDigit (code / 16 % 16)) (hexDigit (code % 16)) = some code := by
    simp only [hexCode,hexValue_hexDigit _ (Nat.mod_lt _ (by decide : 0 < 16)),Option.bind_eq_bind,
      Option.bind_some,Option.pure_def,Option.some.injEq]
    omega
  simp only [unicodeEscape,List.cons_append,List.nil_append]
  rw [unquote]
  simp only [hcode,guard,h,if_true,Option.bind_eq_bind,Option.bind_some,Option.pure_def]
  cases unquote rest <;> rfl

theorem shortEscape_value : ∀ b e, shortEscape b = some e → shortValue e = some b ∧ e ≠ 0x75 := by
  intro b e h
  simp only [shortEscape] at h
  split_ifs at h with h1 h2 h3 h4
  · cases h
    rcases h1 with rfl | rfl <;> exact ⟨by decide,by decide⟩
  all_goals
    cases h
    subst b
    exact ⟨by decide,by decide⟩

theorem unquote_short (h : shortValue e = some b) (he : e ≠ 0x75) (rest : Bytes) :
    unquote (0x5C :: e :: rest) = (unquote rest).map fun p => (b :: p.1,p.2) := by
  rw [unquote]
  · simp only [h,Option.bind_eq_bind,Option.bind_some,Option.pure_def]
    cases unquote rest <;> rfl
  · intro _ _ _ _ _ h0
    exact absurd h0 he

theorem unquote_plain (hq : b ≠ 0x22) (hs : b ≠ 0x5C) (hc : ¬b < 0x20) (rest : Bytes) :
    unquote (b :: rest) = (unquote rest).map fun p => (b :: p.1,p.2) := by
  rw [unquote]
  · simp only [hc,if_false,Option.bind_eq_bind,Option.pure_def]
    cases unquote rest <;> rfl
  · exact hq
  · intro _ _ _ _ _ h0
    exact absurd h0 hs
  · intro _ _ h0
    exact absurd h0 hs

theorem ofCode_ascii {b : UInt8} (h : b < 0x80) : ofCode b.toNat = [b] := by
  have hb : b.toNat < 128 := by simpa [UInt8.lt_iff_toNat_lt] using h
  simp [ofCode,hb]

theorem unquote_ascii (h : b < 0x80) (rest : Bytes) :
    unquote (escapeAscii b ++ rest) = (unquote rest).map fun p => (b :: p.1,p.2) := by
  have hb : b.toNat < 128 := by simpa [UInt8.lt_iff_toNat_lt] using h
  rw [escapeAscii]
  cases hs : shortEscape b with
  | some e =>
    obtain ⟨hv,he⟩ := shortEscape_value b e hs
    exact unquote_short hv he rest
  | none =>
    by_cases hu : b < 0x20 ∨ b = 0x3C ∨ b = 0x3E ∨ b = 0x26
    · simp only [hu,if_true]
      rw [unquote_unicode (.inl (by omega)) (by omega),ofCode_ascii h]
      rfl
    · simp only [hu,if_false,List.cons_append,List.nil_append]
      refine unquote_plain ?_ ?_ (fun hc => hu (.inl hc)) rest
      all_goals
        intro heq
        subst heq
        simp [shortEscape] at hs

theorem unquote_high (s : Bytes) (h : ∀ b ∈ s, 0x80 ≤ b) (rest : Bytes) :
    unquote (s ++ rest) = (unquote rest).map fun p => (s ++ p.1,p.2) := by
  induction s with
  | nil => simp
  | cons b s ih =>
    have hb := h b List.mem_cons_self
    rw [List.cons_append,unquote_plain,ih fun x hx => h x (List.mem_cons_of_mem _ hx)]
    · cases unquote rest <;> rfl
    · intro he
      subst he
      exact absurd hb (by decide)
    · intro he
      subst he
      exact absurd hb (by decide)
    · exact not_lt.mpr (le_trans (by decide) hb)

theorem unquote_escape (c : Chunk) (h : c.Formed) (rest : Bytes) :
    unquote (escape c ++ rest) = (unquote rest).map fun p => (c.repaired ++ p.1,p.2) := by
  cases c with
  | bad b => exact unquote_unicode (.inr (by decide)) (by decide) rest
  | char bytes =>
    simp only [escape,Chunk.repaired]
    split_ifs with h1 h2
    · subst h1
      exact unquote_unicode (.inl (by decide)) (by decide) rest
    · subst h2
      exact unquote_unicode (.inl (by decide)) (by decide) rest
    · rcases h with ⟨b,rfl,hb⟩ | hh
      · simpa [hb] using unquote_ascii hb rest
      · have hf : (bytes.flatMap fun b => if b < 0x80 then escapeAscii b else [b]) = bytes := by
          calc _ = bytes.flatMap fun b => [b] :=
                List.flatMap_congr fun b hb => if_neg (not_lt.mpr (hh b hb))
            _ = bytes := List.flatMap_singleton' bytes
        rw [hf]
        exact unquote_high bytes hh rest

theorem unquote_chunks (cs : List Chunk) (h : ∀ c ∈ cs, c.Formed) (rest : Bytes) :
    unquote (cs.flatMap escape ++ rest) =
      (unquote rest).map fun p => (cs.flatMap Chunk.repaired ++ p.1,p.2) := by
  induction cs with
  | nil => simp
  | cons c cs ih =>
    rw [List.flatMap_cons,List.append_assoc,unquote_escape c (h c List.mem_cons_self),
      ih fun x hx => h x (List.mem_cons_of_mem _ hx)]
    cases unquote rest <;> simp

/-- Reading back a written string gives the string with its bad bytes replaced. -/
theorem unquote_literal (s rest : Bytes) : unquote (literal s ++ rest) = some (repair s,rest) := by
  rw [literal,List.append_assoc,unquote_chunks (chunks s) (scan_formed _ s)]
  simp [unquote,repair]

example : unquote (literal [0x61,0x22,0xC3,0xA9,0xFF,0x0A] ++ [0x7D]) =
    some ([0x61,0x22,0xC3,0xA9,0xEF,0xBF,0xBD,0x0A],[0x7D]) := by decide

theorem unquote_length (h : unquote s = some (t,rest)) : rest.length < s.length := by
  fun_induction unquote s generalizing t with
  | case1 rest' =>
    cases h
    simp
  | case2 a b c d rest' ih =>
    simp only [Option.bind_eq_bind,Option.bind_eq_some_iff,Prod.exists,Option.pure_def,
      Option.some.injEq,Prod.mk.injEq] at h
    obtain ⟨_,_,_,_,_,_,hu,_,rfl⟩ := h
    have := ih hu
    simp only [List.length_cons]
    omega
  | case3 e rest' _ ih =>
    simp only [Option.bind_eq_bind,Option.bind_eq_some_iff,Prod.exists,Option.pure_def,
      Option.some.injEq,Prod.mk.injEq] at h
    obtain ⟨_,_,_,_,hu,_,rfl⟩ := h
    have := ih hu
    simp only [List.length_cons]
    omega
  | case4 => cases h
  | case5 b rest' _ _ _ _ ih =>
    simp only [Option.bind_eq_bind,Option.bind_eq_some_iff,Prod.exists,Option.pure_def,
      Option.some.injEq,Prod.mk.injEq] at h
    obtain ⟨_,_,hu,_,rfl⟩ := h
    have := ih hu
    simp only [List.length_cons]
    omega
  | case6 => cases h

end JsonText
