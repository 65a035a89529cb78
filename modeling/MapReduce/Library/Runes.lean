import Mathlib
import MapReduce.Library.Utf8

namespace Utf8

/-- The maximal runs of elements that separate nothing. -/
def fields {α : Type} (sep : α → Bool) (l : List α) : List (List α) :=
  (l.splitOnP sep).filter (fun w => !w.isEmpty)

section
variable {α : Type} {sep : α → Bool}

/-- A separator parts a text into two that are split on their own. -/
theorem fields_append (sep : α → Bool) (h : sep a = true) (l m : List α) :
    fields sep (l ++ a :: m) = fields sep l ++ fields sep m := by
  rw [fields,List.splitOnP_append_cons _ _ h,List.filter_append]
  rfl

theorem splitOnP_clean (l : List α) : ∀ w ∈ l.splitOnP sep, ∀ x ∈ w, x ∈ l ∧ sep x = false := by
  induction l with
  | nil =>
    intro w hw x hx
    simp at hw
    subst hw
    cases hx
  | cons a l ih =>
    intro w hw x hx
    rw [List.splitOnP_cons_eq_if_modifyHead] at hw
    split at hw
    · rcases List.mem_cons.mp hw with rfl | hw
      · cases hx
      · exact (ih w hw x hx).imp_left (List.mem_cons_of_mem a)
    · rename_i ha
      cases hl : l.splitOnP sep with
      | nil => exact absurd hl (List.splitOnP_ne_nil sep l)
      | cons v vs =>
        rw [hl,List.modifyHead_cons] at hw
        rw [hl] at ih
        rcases List.mem_cons.mp hw with rfl | hw
        · rcases List.mem_cons.mp hx with rfl | hx
          · exact ⟨List.mem_cons_self,by simpa using ha⟩
          · exact (ih v List.mem_cons_self x hx).imp_left (List.mem_cons_of_mem a)
        · exact (ih w (List.mem_cons_of_mem v hw) x hx).imp_left (List.mem_cons_of_mem a)

theorem mem_fields {w : List α} (h : w ∈ fields sep l) : ∀ x ∈ w, x ∈ l ∧ sep x = false :=
  splitOnP_clean l w (List.mem_filter.mp h).1

end

/-- The code point that a character encodes. -/
def runeOf : Bytes → Nat
  | [a] => a.toNat
  | [a,b] => a.toNat % 32 * 64 + b.toNat % 64
  | [a,b,c] => (a.toNat % 16 * 64 + b.toNat % 64) * 64 + c.toNat % 64
  | [a,b,c,d] => ((a.toNat % 8 * 64 + b.toNat % 64) * 64 + c.toNat % 64) * 64 + d.toNat % 64
  | _ => 0xFFFD

/-- What a loop over a text sees of a chunk: a byte outside a character reads as the
replacement character. -/
def Chunk.rune : Chunk → Nat
  | .char bytes => runeOf bytes
  | .bad _ => 0xFFFD

/-- A text split around its separators. -/
def fieldsFunc (sep : Nat → Bool) (s : Bytes) : List Bytes :=
  (fields (fun c : Chunk => sep c.rune) (chunks s)).map (List.flatMap Chunk.raw)

theorem low_tail (h : x < 0x80) : isTail x = false := by
  rw [Bool.eq_false_iff]
  exact fun ht => absurd (tail_high ht) (not_le.mpr h)

theorem low_lead3 (a : UInt8) (h : x < 0x80) : lead3 a x = false := by
  rw [Bool.eq_false_iff]
  exact fun ht => absurd (lead3_high ht) (not_le.mpr h)

theorem low_lead4 (a : UInt8) (h : x < 0x80) : lead4 a x = false := by
  rw [Bool.eq_false_iff]
  exact fun ht => absurd (lead4_high ht) (not_le.mpr h)

/-- An ASCII byte ends every character that could have begun before it. -/
theorem charLength_low {s : Bytes} (h : x < 0x80) (hs : s ≠ []) (rest : Bytes) :
    charLength (s ++ x :: rest) = charLength s := by
  have h0 : (0 : UInt8) < 0x80 := by decide
  rcases s with _ | ⟨a,_ | ⟨b,_ | ⟨c,_ | ⟨d,s⟩⟩⟩⟩
  · exact absurd rfl hs
  · simp [charLength,low_tail h,low_tail h0,low_lead3 a h,low_lead3 a h0,low_lead4 a h,
      low_lead4 a h0]
  · simp [charLength,low_tail h,low_tail h0]
  · simp [charLength,low_tail h,low_tail h0]
  · simp [charLength]

/-- The bytes are one character, whatever follows them. -/
def IsChar (c : Bytes) : Prop := c ≠ [] ∧ ∀ rest, charLength (c ++ rest) = c.length

/-- The five ways in which a text can begin. -/
inductive Begins : Bytes → Nat → Prop
  | ascii (ha : a < 0x80) : Begins (a :: s) 1
  | two (ha : ¬ a < 0x80) (hb : (lead2 a && isTail b) = true) : Begins (a :: b :: s) 2
  | three (ha : ¬ a < 0x80) (hb : ¬ (lead2 a && isTail b) = true)
      (hc : (lead3 a b && isTail c) = true) : Begins (a :: b :: c :: s) 3
  | four (ha : ¬ a < 0x80) (hb : ¬ (lead2 a && isTail b) = true)
      (hc : ¬ (lead3 a b && isTail c) = true) (hd : (lead4 a b && isTail c && isTail d) = true) :
      Begins (a :: b :: c :: d :: s) 4
  | none : Begins s 0

theorem tail_inside {s : Bytes} (h : isTail (s.getD i 0) = true) : i < s.length := by
  by_contra hi
  rw [List.getD_eq_default _ _ (not_lt.mp hi)] at h
  cases h

theorem charLength_begins (s : Bytes) : Begins s (charLength s) := by
  unfold charLength
  dsimp only
  split_ifs with hs ha hb hc hd
  · exact .none
  · cases s with
    | nil => exact absurd rfl hs
    | cons a s => exact .ascii ha
  · have hi := tail_inside (Bool.and_eq_true_iff.mp hb).2
    rcases s with _ | ⟨a,_ | ⟨b,s⟩⟩ <;> simp at hi
    exact .two ha hb
  · have hi := tail_inside (Bool.and_eq_true_iff.mp hc).2
    rcases s with _ | ⟨a,_ | ⟨b,_ | ⟨c,s⟩⟩⟩ <;> simp at hi
    exact .three ha hb hc
  · have hi := tail_inside (Bool.and_eq_true_iff.mp hd).2
    rcases s with _ | ⟨a,_ | ⟨b,_ | ⟨c,_ | ⟨d,s⟩⟩⟩⟩ <;> simp at hi
    exact .four ha hb hc hd
  · exact .none

theorem Begins.isChar (h : Begins s n) (hn : n ≠ 0) : IsChar (s.take n) := by
  cases h with
  | ascii ha => exact ⟨by simp,fun rest => by simp [charLength,ha]⟩
  | two ha hb => exact ⟨by simp,fun rest => by simp [charLength,ha,hb]⟩
  | three ha hb hc => exact ⟨by simp,fun rest => by simp [charLength,ha,hb,hc]⟩
  | four ha hb hc hd => exact ⟨by simp,fun rest => by simp [charLength,ha,hb,hc,hd]⟩
  | none => exact absurd rfl hn

theorem scan_enough (n : Nat) (s : Bytes) (h : s.length ≤ n) : scan n s = chunks s := by
  have hall : ∀ n m s, s.length ≤ n → s.length ≤ m → scan n s = scan m s := by
    intro n
    induction n with
    | zero =>
      intro m s hn _
      rw [List.length_eq_zero_iff.mp (Nat.le_zero.mp hn)]
      cases m <;> rfl
    | succ n ih =>
      intro m s hn hm
      cases s with
      | nil => cases m <;> rfl
      | cons a s =>
        cases m with
        | zero => simp at hm
        | succ m =>
          have hn : s.length ≤ n := by simpa using hn
          have hm : s.length ≤ m := by simpa using hm
          rw [scan,scan]
          split
          · rw [ih m s hn hm]
          · rename_i hc
            have hd : ((a :: s).drop (charLength (a :: s))).length ≤ s.length := by
              simp only [List.length_drop,List.length_cons]
              omega
            rw [ih m _ (hd.trans hn) (hd.trans hm)]
  exact hall n s.length s h (Nat.le_refl _)

theorem chunks_char (h : IsChar c) (rest : Bytes) :
    chunks (c ++ rest) = .char c :: chunks rest := by
  cases c with
  | nil => exact absurd rfl h.1
  | cons a c =>
    have hlen := h.2 rest
    rw [chunks,List.cons_append,List.length_cons,scan,← List.cons_append,hlen,if_neg (by simp),
      List.take_left,List.drop_left]
    rw [scan_enough]
    simp

theorem chunks_bad (h : charLength (a :: s) = 0) : chunks (a :: s) = .bad a :: chunks s := by
  rw [chunks,List.length_cons,scan,if_pos h]
  rfl

/-- A text is empty, or begins with a character, or begins with a byte that belongs to none. -/
theorem chunks_induction {motive : Bytes → Prop} (nil : motive [])
    (char : ∀ c rest, IsChar c → motive rest → motive (c ++ rest))
    (bad : ∀ a rest, charLength (a :: rest) = 0 → motive rest → motive (a :: rest))
    (s : Bytes) : motive s := by
  generalize hn : s.length = n
  induction n using Nat.strongRecOn generalizing s with
  | ind n ih =>
    cases s with
    | nil => exact nil
    | cons a s =>
      by_cases hc : charLength (a :: s) = 0
      · exact bad a s hc (ih s.length (by simp [← hn]) s rfl)
      · rw [← List.take_append_drop (charLength (a :: s)) (a :: s)]
        refine char _ _ ((charLength_begins (a :: s)).isChar hc) (ih _ ?_ _ rfl)
        simp only [List.length_drop,List.length_cons] at hn ⊢
        omega

theorem mem_chunks (s : Bytes) : ∀ c, Chunk.char c ∈ chunks s → IsChar c := by
  induction s using chunks_induction with
  | nil => exact fun c hc => by cases hc
  | char c rest hchar ih =>
    intro d hd
    rw [chunks_char hchar] at hd
    rcases List.mem_cons.mp hd with he | hd
    · cases he
      exact hchar
    · exact ih d hd
  | bad a rest hbad ih =>
    intro d hd
    rw [chunks_bad hbad] at hd
    rcases List.mem_cons.mp hd with he | hd
    · cases he
    · exact ih d hd

theorem chunks_chars (cs : List Chunk) (h : ∀ c ∈ cs, ∃ bytes, c = .char bytes ∧ IsChar bytes) :
    chunks (cs.flatMap Chunk.raw) = cs := by
  induction cs with
  | nil => rfl
  | cons c cs ih =>
    obtain ⟨bytes,rfl,hchar⟩ := h c List.mem_cons_self
    rw [List.flatMap_cons,Chunk.raw,chunks_char hchar,
      ih (fun d hd => h d (List.mem_cons_of_mem _ hd))]

theorem isValid_chars (cs : List Chunk) (h : ∀ c ∈ cs, ∃ bytes, c = .char bytes ∧ IsChar bytes) :
    isValid (cs.flatMap Chunk.raw) = true := by
  rw [isValid,chunks_chars cs h,List.all_eq_true]
  intro c hc
  obtain ⟨bytes,rfl,_⟩ := h c hc
  rfl

/-- Where the replacement character separates, the words of any text are proper text. -/
theorem fieldsFunc_valid (hsep : sep 0xFFFD = true) (hw : w ∈ fieldsFunc sep s) :
    isValid w = true := by
  obtain ⟨cs,hcs,rfl⟩ := List.mem_map.mp hw
  refine isValid_chars cs (fun c hc => ?_)
  obtain ⟨hmem,hn⟩ := mem_fields hcs c hc
  cases c with
  | char bytes => exact ⟨bytes,rfl,mem_chunks s bytes hmem⟩
  | bad a =>
    rw [Chunk.rune,hsep] at hn
    cases hn

theorem low_isChar (h : x < 0x80) : IsChar [x] :=
  ⟨List.cons_ne_nil _ _,fun rest => by simp [charLength,h]⟩

/-- A text may be cut before an ASCII byte. -/
theorem chunks_append_low (h : x < 0x80) (s rest : Bytes) :
    chunks (s ++ x :: rest) = chunks s ++ .char [x] :: chunks rest := by
  induction s using chunks_induction with
  | nil => exact chunks_char (low_isChar h) rest
  | char c s hchar ih => rw [List.append_assoc,chunks_char hchar,chunks_char hchar,ih]; rfl
  | bad a s hbad ih =>
    have hbad' : charLength (a :: (s ++ x :: rest)) = 0 := by
      rw [← List.cons_append,charLength_low h (List.cons_ne_nil a s),hbad]
    rw [List.cons_append,chunks_bad hbad',chunks_bad hbad,ih]
    rfl

theorem fieldsFunc_append (h : x < 0x80) (hsep : sep x.toNat = true) (s rest : Bytes) :
    fieldsFunc sep (s ++ x :: rest) = fieldsFunc sep s ++ fieldsFunc sep rest := by
  rw [fieldsFunc,chunks_append_low h,
    fields_append (fun c : Chunk => sep c.rune) (a := Chunk.char [x]) hsep,List.map_append]
  rfl

/-- Texts that are joined by an ASCII separator keep their words. -/
theorem fieldsFunc_intercalate (h : x < 0x80) (hsep : sep x.toNat = true) (texts : List Bytes) :
    fieldsFunc sep ([x].intercalate texts) = texts.flatMap (fieldsFunc sep) := by
  induction texts with
  | nil => rfl
  | cons s texts ih =>
    cases texts with
    | nil => simp
    | cons t texts =>
      rw [List.intercalate_cons_cons,List.append_assoc,List.singleton_append,
        fieldsFunc_append h hsep,ih]
      rfl

/-- The bytes of a code point. -/
def encodeRune (n : Nat) : Bytes :=
  if n < 0x80 then [n.toUInt8]
  else if n < 0x800 then [(0xC0 + n / 64).toUInt8,(0x80 + n % 64).toUInt8]
  else if n < 0x10000 then
    [(0xE0 + n / 4096).toUInt8,(0x80 + n / 64 % 64).toUInt8,(0x80 + n % 64).toUInt8]
  else [(0xF0 + n / 262144).toUInt8,(0x80 + n / 4096 % 64).toUInt8,(0x80 + n / 64 % 64).toUInt8,
    (0x80 + n % 64).toUInt8]

/-- The bytes of a text. -/
def encode (s : String) : Bytes := s.toList.flatMap (fun c => encodeRune c.toNat)

theorem byte_toNat (h : n < 256) : n.toUInt8.toNat = n := by
  simp [Nat.toUInt8,Nat.mod_eq_of_lt h]

theorem byte_low (h : n < 256) : n.toUInt8 < 0x80 ↔ n < 0x80 := by
  rw [UInt8.lt_iff_toNat_lt,byte_toNat h]
  exact Iff.rfl

theorem byte_tail (hl : 0x80 ≤ n) (hh : n ≤ 0xBF) : isTail n.toUInt8 = true := by
  simp only [isTail,Bool.and_eq_true,decide_eq_true_eq,UInt8.le_iff_toNat_le,
    byte_toNat (show n < 256 by omega)]
  exact ⟨hl,hh⟩

theorem byte_lead2 (h : 0xC2 ≤ n ∧ n ≤ 0xDF) : lead2 n.toUInt8 = true := by
  simp only [lead2,Bool.and_eq_true,decide_eq_true_eq,UInt8.le_iff_toNat_le,
    byte_toNat (show n < 256 by omega)]
  exact h

theorem byte_not_lead2 (h : 0xDF < n) (hn : n < 256) : lead2 n.toUInt8 = false := by
  simp only [lead2,Bool.and_eq_false_iff,decide_eq_false_iff_not,UInt8.le_iff_toNat_le,
    byte_toNat hn]
  exact Or.inr (not_le.mpr h)

theorem byte_lead3 (hn : n < 256) (hm : m < 256) : lead3 n.toUInt8 m.toUInt8 = true ↔
    (n = 0xE0 ∧ 0xA0 ≤ m ∧ m ≤ 0xBF) ∨ (0xE1 ≤ n ∧ n ≤ 0xEC ∧ 0x80 ≤ m ∧ m ≤ 0xBF) ∨
      (n = 0xED ∧ 0x80 ≤ m ∧ m ≤ 0x9F) ∨ (0xEE ≤ n ∧ n ≤ 0xEF ∧ 0x80 ≤ m ∧ m ≤ 0xBF) := by
  simp [lead3,isTail,UInt8.le_iff_toNat_le,← UInt8.toNat_inj,byte_toNat hn,byte_toNat hm,
    and_assoc,or_assoc]

theorem byte_lead4 (hn : n < 256) (hm : m < 256) : lead4 n.toUInt8 m.toUInt8 = true ↔
    (n = 0xF0 ∧ 0x90 ≤ m ∧ m ≤ 0xBF) ∨ (0xF1 ≤ n ∧ n ≤ 0xF3 ∧ 0x80 ≤ m ∧ m ≤ 0xBF) ∨
      (n = 0xF4 ∧ 0x80 ≤ m ∧ m ≤ 0x8F) := by
  simp [lead4,isTail,UInt8.le_iff_toNat_le,← UInt8.toNat_inj,byte_toNat hn,byte_toNat hm,
    and_assoc,or_assoc]

/-- Every code point outside the surrogates is encoded as one character. -/
theorem encodeRune_isChar (h : n < 0xD800 ∨ (0xDFFF < n ∧ n < 0x110000)) :
    IsChar (encodeRune n) := by
  have htail : ∀ m, isTail (0x80 + m % 64).toUInt8 = true := fun m => byte_tail (by omega) (by omega)
  unfold encodeRune
  split_ifs with h1 h2 h3
  · exact low_isChar ((byte_low (by omega)).mpr h1)
  · refine Begins.isChar (Begins.two (s := []) ?_ ?_) (by decide)
    · rw [byte_low (by omega)]
      omega
    · rw [byte_lead2 (by omega),htail n]
      rfl
  · refine Begins.isChar (Begins.three (s := []) ?_ ?_ ?_) (by decide)
    · rw [byte_low (by omega)]
      omega
    · rw [byte_not_lead2 (by omega) (by omega)]
      exact Bool.false_ne_true
    · rw [htail n,Bool.and_true,byte_lead3 (by omega) (by omega)]
      omega
  · refine Begins.isChar (Begins.four (s := []) ?_ ?_ ?_ ?_) (by decide)
    · rw [byte_low (by omega)]
      omega
    · rw [byte_not_lead2 (by omega) (by omega)]
      exact Bool.false_ne_true
    · rw [Bool.and_eq_true_iff,byte_lead3 (by omega) (by omega)]
      omega
    · rw [htail n,htail (n / 64),Bool.and_true,Bool.and_true,byte_lead4 (by omega) (by omega)]
      omega

theorem encode_valid (s : String) : isValid (encode s) = true := by
  have he : encode s = (s.toList.map (fun c => Chunk.char (encodeRune c.toNat))).flatMap Chunk.raw := by
    rw [encode,List.flatMap_map]
    rfl
  rw [he]
  refine isValid_chars _ (fun c hc => ?_)
  obtain ⟨d,_,rfl⟩ := List.mem_map.mp hc
  exact ⟨_,rfl,encodeRune_isChar d.valid⟩

end Utf8
