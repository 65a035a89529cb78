import Mathlib

abbrev Bytes := List UInt8

instance byteOrder : LinearOrder UInt8 where
  le_refl := UInt8.le_refl
  le_trans _ _ _ := UInt8.le_trans
  le_antisymm _ _ := UInt8.le_antisymm
  le_total := UInt8.le_total
  lt_iff_le_not_ge a b := by simp [UInt8.lt_iff_toNat_lt,UInt8.le_iff_toNat_le]; omega
  toDecidableLE := inferInstance

namespace Utf8

def isTail (b : UInt8) : Bool := 0x80 ≤ b && b ≤ 0xBF

def lead2 (a : UInt8) : Bool := 0xC2 ≤ a && a ≤ 0xDF

def lead3 (a b : UInt8) : Bool :=
  (a == 0xE0 && 0xA0 ≤ b && b ≤ 0xBF) || (0xE1 ≤ a && a ≤ 0xEC && isTail b) ||
  (a == 0xED && 0x80 ≤ b && b ≤ 0x9F) || (0xEE ≤ a && a ≤ 0xEF && isTail b)

def lead4 (a b : UInt8) : Bool :=
  (a == 0xF0 && 0x90 ≤ b && b ≤ 0xBF) || (0xF1 ≤ a && a ≤ 0xF3 && isTail b) ||
  (a == 0xF4 && 0x80 ≤ b && b ≤ 0x8F)

/-- The length of the character that a text starts with; `0` where none starts. A
missing byte reads as `0`, which continues no character. -/
def charLength (s : Bytes) : Nat :=
  let a := s.getD 0 0
  let b := s.getD 1 0
  let c := s.getD 2 0
  let d := s.getD 3 0
  if s = [] then 0
  else if a < 0x80 then 1
  else if lead2 a && isTail b then 2
  else if lead3 a b && isTail c then 3
  else if lead4 a b && isTail c && isTail d then 4
  else 0

/-- A text falls into characters and bytes that belong to none. -/
inductive Chunk
  | char (bytes : Bytes)
  | bad (byte : UInt8)
  deriving DecidableEq

def scan : Nat → Bytes → List Chunk
  | 0,_ => []
  | _,[] => []
  | n + 1,a :: s =>
    if charLength (a :: s) = 0 then .bad a :: scan n s
    else .char ((a :: s).take (charLength (a :: s))) :: scan n ((a :: s).drop (charLength (a :: s)))

def chunks (s : Bytes) : List Chunk := scan s.length s

def Chunk.raw : Chunk → Bytes
  | .char bytes => bytes
  | .bad byte => [byte]

/-- The replacement character stands for every byte outside a character. -/
def Chunk.repaired : Chunk → Bytes
  | .char bytes => bytes
  | .bad _ => [0xEF,0xBF,0xBD]

def Chunk.isChar : Chunk → Bool
  | .char _ => true
  | .bad _ => false

def repair (s : Bytes) : Bytes := (chunks s).flatMap Chunk.repaired

def isValid (s : Bytes) : Bool := (chunks s).all Chunk.isChar

theorem scan_raw (n : Nat) (s : Bytes) (h : s.length ≤ n) : (scan n s).flatMap Chunk.raw = s := by
  induction n generalizing s with
  | zero => simpa [scan] using h
  | succ n ih =>
    cases s with
    | nil => simp [scan]
    | cons a s =>
      rw [scan]
      split
      · have := ih s (by simpa using h)
        simp [Chunk.raw,this]
      · rename_i hc
        have hl : ((a :: s).drop (charLength (a :: s))).length ≤ n := by
          simp only [List.length_drop,List.length_cons] at h ⊢
          omega
        simp only [List.flatMap_cons,Chunk.raw,ih _ hl,List.take_append_drop]

theorem repair_valid (h : isValid s = true) : repair s = s := by
  have hr : ∀ c ∈ chunks s, c.repaired = c.raw := by
    intro c hc
    cases c with
    | char bytes => rfl
    | bad b => exact absurd (List.all_eq_true.mp h _ hc) (by simp [Chunk.isChar])
  calc repair s = (chunks s).flatMap Chunk.raw := List.flatMap_congr hr
    _ = s := scan_raw _ s (Nat.le_refl _)

/-- Every replaced byte makes a text two bytes longer. -/
theorem repaired_length (cs : List Chunk) : (cs.flatMap Chunk.repaired).length =
    (cs.flatMap Chunk.raw).length + 2 * cs.countP (fun c => !c.isChar) := by
  induction cs with
  | nil => rfl
  | cons c cs ih =>
    simp only [List.flatMap_cons,List.length_append,List.countP_cons,ih]
    cases c <;> simp [Chunk.repaired,Chunk.raw,Chunk.isChar] <;> omega

/-- Only what is UTF-8 already is left as it is. -/
theorem repair_fixed : repair s = s ↔ isValid s = true := by
  refine ⟨?_,repair_valid⟩
  intro h
  have hl := repaired_length (chunks s)
  have hraw : (chunks s).flatMap Chunk.raw = s := scan_raw _ s (Nat.le_refl _)
  have hrep : (chunks s).flatMap Chunk.repaired = s := h
  rw [hraw,hrep] at hl
  have hnone : (chunks s).countP (fun c => !c.isChar) = 0 := by omega
  refine List.all_eq_true.mpr (fun c hc => ?_)
  simpa using List.countP_eq_zero.mp hnone c hc

/-- What the scan takes for a character is an ASCII byte or has no ASCII byte. -/
def Chunk.Formed : Chunk → Prop
  | .char bytes => (∃ b, bytes = [b] ∧ b < 0x80) ∨ ∀ b ∈ bytes, 0x80 ≤ b
  | .bad _ => True

theorem tail_high (h : isTail b = true) : 0x80 ≤ b := by
  simp only [isTail,Bool.and_eq_true,decide_eq_true_eq] at h
  exact h.1

theorem lead3_high (h : lead3 a b = true) : 0x80 ≤ b := by
  simp only [lead3,Bool.or_eq_true,Bool.and_eq_true,decide_eq_true_eq] at h
  rcases h with ((⟨⟨_,h⟩,_⟩ | ⟨_,h⟩) | ⟨⟨_,h⟩,_⟩) | ⟨_,h⟩
  · exact le_trans (by decide) h
  · exact tail_high h
  · exact h
  · exact tail_high h

theorem lead4_high (h : lead4 a b = true) : 0x80 ≤ b := by
  simp only [lead4,Bool.or_eq_true,Bool.and_eq_true,decide_eq_true_eq] at h
  rcases h with (⟨⟨_,h⟩,_⟩ | ⟨_,h⟩) | ⟨⟨_,h⟩,_⟩
  · exact le_trans (by decide) h
  · exact tail_high h
  · exact h

theorem take_high {s : Bytes} (h : ∀ i < k, 0x80 ≤ s.getD i 0) : ∀ b ∈ s.take k, 0x80 ≤ b := by
  intro b hb
  obtain ⟨i,hi,rfl⟩ := List.mem_iff_getElem.mp hb
  have hi' : i < k ∧ i < s.length := by simpa using hi
  have := h i hi'.1
  rwa [List.getD_eq_getElem _ _ hi'.2,← List.getElem_take] at this

theorem take_formed (a : UInt8) (s : Bytes) :
    (Chunk.char ((a :: s).take (charLength (a :: s)))).Formed := by
  by_cases ha : a < 0x80
  · exact .inl ⟨a,by simp [charLength,ha],ha⟩
  · have hhigh : 0x80 ≤ a := not_lt.mp ha
    refine .inr (take_high fun i hi => ?_)
    simp only [charLength,List.getD_cons_zero,List.getD_cons_succ,reduceCtorEq,↓reduceIte,ha] at hi
    split at hi
    · rename_i h2
      simp only [Bool.and_eq_true] at h2
      rcases i with _ | _ | i
      · exact hhigh
      · exact tail_high h2.2
      · omega
    · split at hi
      · rename_i h3
        simp only [Bool.and_eq_true] at h3
        rcases i with _ | _ | _ | i
        · exact hhigh
        · exact lead3_high h3.1
        · exact tail_high h3.2
        · omega
      · split at hi
        · rename_i h4
          simp only [Bool.and_eq_true] at h4
          rcases i with _ | _ | _ | _ | i
          · exact hhigh
          · exact lead4_high h4.1.1
          · exact tail_high h4.1.2
          · exact tail_high h4.2
          · omega
        · omega

theorem scan_formed (n : Nat) (s : Bytes) : ∀ c ∈ scan n s, c.Formed := by
  induction n generalizing s with
  | zero => simp [scan]
  | succ n ih =>
    cases s with
    | nil => simp [scan]
    | cons a s =>
      rw [scan]
      split
      · intro c hc
        rcases List.mem_cons.mp hc with rfl | hc
        · trivial
        · exact ih _ c hc
      · intro c hc
        rcases List.mem_cons.mp hc with rfl | hc
        · exact take_formed a s
        · exact ih _ c hc

end Utf8
