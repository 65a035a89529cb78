import Mathlib
import MapReduce.Porcupine.Bitset

namespace MapReduce.Proofs
open MapReduce.Porcupine

/-- The bitset for numbers below `n` holds those of the list. -/
structure HasBits (n : Nat) (b : Bitset) (ids : List Int) : Prop where
  size : b.length = (newBitset n).length
  bits : ∀ i, i / 64 < b.length → b.get i = some (decide ((i : Int) ∈ ids))

theorem newBitset_covers (h : i < n) : i / 64 < (newBitset n).length := by
  rw [newBitset,List.length_replicate]
  split <;> omega

theorem mask_bits (h : k < 64) :
    ((1 : UInt64) <<< k.toUInt64).toBitVec = BitVec.twoPow 64 k := by
  have hk : (k.toUInt64.toBitVec % 64).toNat = k := by
    have : (k.toUInt64.toBitVec % 64#64).toNat = k := by
      simp [UInt64.toNat_toBitVec]
      omega
    exact this
  rw [UInt64.toBitVec_shiftLeft,BitVec.shiftLeft_eq',hk]
  rfl

theorem test_bit (w : UInt64) (h : k < 64) :
    (w &&& (1 : UInt64) <<< k.toUInt64 != 0) = w.toBitVec.getLsbD k := by
  have hand : (w &&& (1 : UInt64) <<< k.toUInt64).toBitVec =
      if w.toBitVec.getLsbD k = true then BitVec.twoPow 64 k else 0#64 := by
    rw [UInt64.toBitVec_and,mask_bits h,BitVec.and_twoPow]
  cases hb : w.toBitVec.getLsbD k with
  | false =>
    rw [hb,if_neg (by simp)] at hand
    have hz : w &&& (1 : UInt64) <<< k.toUInt64 = 0 := UInt64.eq_of_toBitVec_eq hand
    simp [hz]
  | true =>
    rw [hb,if_pos rfl] at hand
    have hne : w &&& (1 : UInt64) <<< k.toUInt64 ≠ 0 := by
      intro hz
      rw [hz] at hand
      have hbit := congrArg (fun v : BitVec 64 => v.getLsbD k) hand
      simp [h] at hbit
    simp [hne]

theorem get_word {b : Bitset} {w : UInt64} (h : b[i / 64]? = some w) :
    b.get i = some (w.toBitVec.getLsbD (i % 64)) := by
  simp only [Bitset.get,bitsetIndex,h,Option.bind_eq_bind,Option.bind_some,
    test_bit w (Nat.mod_lt i (by decide))]

theorem set_bit (w : UInt64) (h : k < 64) (j : Nat) :
    (w ||| (1 : UInt64) <<< k.toUInt64).toBitVec.getLsbD j = (w.toBitVec.getLsbD j || decide (k = j)) := by
  rw [UInt64.toBitVec_or,mask_bits h,BitVec.getLsbD_or,BitVec.getLsbD_twoPow]
  simp [h]

theorem clear_bit (w : UInt64) (h : k < 64) (hj : j < 64) :
    (w &&& ~~~((1 : UInt64) <<< k.toUInt64)).toBitVec.getLsbD j =
      (w.toBitVec.getLsbD j && decide (k ≠ j)) := by
  rw [UInt64.toBitVec_and,UInt64.toBitVec_not,mask_bits h,BitVec.getLsbD_and,BitVec.getLsbD_not,
    BitVec.getLsbD_twoPow]
  simp [h,hj]

/-- A bitset with one word replaced, when the bits of that word are as they should be. -/
theorem HasBits.replace {b : Bitset} {ids ids' : List Int} {w' : UInt64} (hb : HasBits n b ids)
    (hm : m < b.length) (hword : ∀ i, i / 64 = m →
      w'.toBitVec.getLsbD (i % 64) = decide ((i : Int) ∈ ids'))
    (hrest : ∀ i, i / 64 ≠ m → ((i : Int) ∈ ids' ↔ (i : Int) ∈ ids)) :
    HasBits n (List.set b m w') ids' where
  size := by rw [List.length_set,hb.size]
  bits i hi := by
    rw [List.length_set] at hi
    by_cases he : i / 64 = m
    · have hw : (List.set b m w')[i / 64]? = some w' := by
        rw [he]
        exact List.getElem?_set_self hm
      rw [get_word hw,hword i he]
    · have hw : (List.set b m w')[i / 64]? = b[i / 64]? := List.getElem?_set_ne (Ne.symm he)
      have hold := hb.bits i hi
      rw [get_word (List.getElem?_eq_getElem hi)] at hold
      rw [get_word (hw.trans (List.getElem?_eq_getElem hi)),hold]
      simp only [hrest i he]

theorem hasBits_new (n : Nat) : HasBits n (newBitset n) [] where
  size := rfl
  bits i hi := by
    have hw : (newBitset n)[i / 64]? = some 0 := by
      rw [newBitset] at hi ⊢
      rw [List.length_replicate] at hi
      exact List.getElem?_replicate_of_lt hi
    rw [get_word hw]
    simp

theorem HasBits.set {b : Bitset} {ids : List Int} {i : Nat} (hb : HasBits n b ids) (hi : i < n) :
    ∃ b', b.set i = some b' ∧ HasBits n b' (ids ++ [(i : Int)]) := by
  have hm : i / 64 < b.length := by
    rw [hb.size]
    exact newBitset_covers hi
  have hk : i % 64 < 64 := Nat.mod_lt i (by decide)
  have hset : b.set i = some (List.set b (i / 64) (b[i / 64] ||| (1 : UInt64) <<< (i % 64).toUInt64)) := by
    simp only [Bitset.set,bitsetIndex,List.getElem?_eq_getElem hm,Option.bind_eq_bind,
      Option.bind_some]
  refine ⟨_,hset,hb.replace hm (fun j hj => ?_) (fun j hj => ?_)⟩
  · have hold := hb.bits j (by omega)
    rw [get_word (List.getElem?_eq_getElem (by omega)),Option.some.injEq] at hold
    simp only [hj] at hold
    have hsame : i % 64 = j % 64 ↔ (j : Int) = i := by omega
    rw [set_bit _ hk,hold]
    simp [hsame]
  · have hne : (j : Int) ≠ i := by omega
    simp [hne]

theorem HasBits.clear {b : Bitset} {ids : List Int} {i : Nat}
    (hb : HasBits n b (ids ++ [(i : Int)])) (hi : i < n) (hnot : (i : Int) ∉ ids) :
    ∃ b', b.clear i = some b' ∧ HasBits n b' ids := by
  have hm : i / 64 < b.length := by
    rw [hb.size]
    exact newBitset_covers hi
  have hk : i % 64 < 64 := Nat.mod_lt i (by decide)
  have hclear : b.clear i =
      some (List.set b (i / 64) (b[i / 64] &&& ~~~((1 : UInt64) <<< (i % 64).toUInt64))) := by
    simp only [Bitset.clear,bitsetIndex,List.getElem?_eq_getElem hm,Option.bind_eq_bind,
      Option.bind_some]
  refine ⟨_,hclear,hb.replace hm (fun j hj => ?_) (fun j hj => ?_)⟩
  · have hold := hb.bits j (by omega)
    rw [get_word (List.getElem?_eq_getElem (by omega)),Option.some.injEq] at hold
    simp only [hj] at hold
    rw [clear_bit _ hk (Nat.mod_lt j (by decide)),hold]
    by_cases he : (j : Int) = i
    · have hs : i % 64 = j % 64 := by omega
      simp [hs,he,hnot]
    · have hs : i % 64 ≠ j % 64 := by omega
      simp [hs,he]
  · have hne : (j : Int) ≠ i := by omega
    simp [hne]

/-- Bitsets are equal when they hold the same numbers. -/
theorem HasBits.eq_iff {b b' : Bitset} {ids ids' : List Int} (hb : HasBits n b ids)
    (hb' : HasBits n b' ids') (hin : ∀ i ∈ ids, ∃ k < n, i = (k : Nat))
    (hin' : ∀ i ∈ ids', ∃ k < n, i = (k : Nat)) : b = b' ↔ ∀ i, i ∈ ids ↔ i ∈ ids' := by
  have hbits : ∀ k < n, ∀ {c : Bitset} {l : List Int}, HasBits n c l →
      c.get k = some (decide ((k : Int) ∈ l)) := fun k hk c l hc => hc.bits k (by
    rw [hc.size]
    exact newBitset_covers hk)
  constructor
  · rintro rfl i
    have hsame : ∀ k < n, ((k : Int) ∈ ids ↔ (k : Int) ∈ ids') := by
      intro k hk
      have h := (hbits k hk hb).symm.trans (hbits k hk hb')
      simpa using h
    constructor
    · intro hi
      obtain ⟨k,hk,rfl⟩ := hin i hi
      exact (hsame k hk).mp hi
    · intro hi
      obtain ⟨k,hk,rfl⟩ := hin' i hi
      exact (hsame k hk).mpr hi
  · intro hsame
    have hlen : b.length = b'.length := hb.size.trans hb'.size.symm
    refine List.ext_getElem hlen (fun m hm hm' => UInt64.eq_of_toBitVec_eq ?_)
    refine BitVec.eq_of_getLsbD_eq (fun k hk => ?_)
    have hdiv : (64 * m + k) / 64 = m := by omega
    have hmod : (64 * m + k) % 64 = k := by omega
    have h := hb.bits (64 * m + k) (by omega)
    have h' := hb'.bits (64 * m + k) (by omega)
    rw [get_word (w := b[m]) (by rw [hdiv]; exact List.getElem?_eq_getElem hm),hmod] at h
    rw [get_word (w := b'[m]) (by rw [hdiv]; exact List.getElem?_eq_getElem hm'),hmod] at h'
    rw [Option.some.inj h,Option.some.inj h']
    simp only [hsame]

theorem equals_iff {b b' : Bitset} : b.equals b' = true ↔ b = b' := by
  rw [Bitset.equals]
  by_cases hlen : b.length = b'.length
  · rw [if_neg (by simpa using hlen)]
    induction b generalizing b' with
    | nil => simp [List.eq_nil_of_length_eq_zero hlen.symm]
    | cons w b ih =>
      cases b' with
      | nil => simp at hlen
      | cons w' b' => simp [ih (by simpa using hlen)]
  · rw [if_pos hlen]
    constructor
    · intro h
      cases h
    · intro h
      exact absurd (congrArg List.length h) hlen

end MapReduce.Proofs
