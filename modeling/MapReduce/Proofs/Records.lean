import Mathlib
import MapReduce.Sequential
import MapReduce.Library.Grouping

namespace MapReduce.Proofs
open Grouping

/-- The record that a group of equal keys is reduced to. -/
def groupRecord (reducef : Reducef) (group : Bytes × List KeyValue) : KeyValue :=
  ⟨group.1,reducef group.1 (group.2.map KeyValue.value)⟩

/-- The values that a list of pairs holds for a key. -/
def valuesOf (l : List KeyValue) (key : Bytes) : List Bytes :=
  (l.filter (fun kv => kv.key = key)).map KeyValue.value

theorem collect_spec (key : Bytes) (values : List Bytes) (l : List KeyValue) :
    collect key values l = (values ++ (l.takeWhile (fun kv => kv.key = key)).map KeyValue.value,
      l.dropWhile (fun kv => kv.key = key)) := by
  induction l generalizing values with
  | nil => simp [collect]
  | cons kv l ih =>
    by_cases hk : kv.key = key
    · simp [collect,hk,ih]
    · simp [collect,hk]

theorem sameKeys_take (key : Bytes) (l : List KeyValue) :
    l.take (sameKeys key l) = l.takeWhile (fun kv => kv.key = key) ∧
      l.drop (sameKeys key l) = l.dropWhile (fun kv => kv.key = key) := by
  induction l with
  | nil => simp
  | cons kv l ih =>
    by_cases hk : kv.key = key
    · simp [sameKeys,hk,ih]
    · simp [sameKeys,hk]

theorem rest_shorter {l : List KeyValue} (h : (kv :: l).length ≤ steps + 1) :
    (l.dropWhile (fun b => b.key = kv.key)).length ≤ steps := by
  have := (List.dropWhile_suffix (fun b : KeyValue => b.key = kv.key) (l := l)).length_le
  simp only [List.length_cons] at h
  omega

theorem reduceLoop_spec (reducef : Reducef) (steps : Nat) (l : List KeyValue)
    (h : l.length ≤ steps) :
    reduceLoop reducef steps l = (groups KeyValue.key l).map (groupRecord reducef) := by
  induction steps generalizing l with
  | zero =>
    rw [List.length_eq_zero_iff.mp (Nat.le_zero.mp h)]
    rfl
  | succ steps ih =>
    cases l with
    | nil => rfl
    | cons kv l =>
      simp only [reduceLoop,collect_spec,groups_cons,List.map_cons,ih _ (rest_shorter h)]
      simp [groupRecord]

theorem sequentialLoop_spec (reducef : Reducef) (steps : Nat) (l : List KeyValue)
    (h : l.length ≤ steps) :
    sequentialLoop reducef steps l = (groups KeyValue.key l).map (groupRecord reducef) := by
  induction steps generalizing l with
  | zero =>
    rw [List.length_eq_zero_iff.mp (Nat.le_zero.mp h)]
    rfl
  | succ steps ih =>
    cases l with
    | nil => rfl
    | cons kv l =>
      simp only [sequentialLoop,List.take_succ_cons,List.drop_succ_cons,sameKeys_take,groups_cons,
        List.map_cons,ih _ (rest_shorter h)]
      simp [groupRecord]

theorem reduceRecords_groups (reducef : Reducef) (l : List KeyValue) :
    reduceRecords reducef l = (groups KeyValue.key l).map (groupRecord reducef) :=
  reduceLoop_spec reducef _ l (Nat.le_refl _)

/-- The two grouping loops are one function. -/
theorem sequentialRecords_eq (reducef : Reducef) (l : List KeyValue) :
    sequentialRecords reducef l = reduceRecords reducef l := by
  rw [reduceRecords_groups]
  exact sequentialLoop_spec reducef _ l (Nat.le_refl _)

def Sorted (l : List KeyValue) : Prop := l.Pairwise (fun a b => a.key ≤ b.key)

/-- The result of `reducef` does not depend on the order of the values. -/
def OrderInsensitive (reducef : Reducef) : Prop :=
  ∀ key values values', values.Perm values' → reducef key values = reducef key values'

section
variable {reducef : Reducef} {l l' : List KeyValue}

theorem records_increasing (hs : Sorted l) :
    (reduceRecords reducef l).Pairwise (fun a b => a.key < b.key) := by
  rw [reduceRecords_groups,List.pairwise_map]
  exact groups_increasing KeyValue.key hs

theorem mem_records (hs : Sorted l) (r : KeyValue) :
    r ∈ reduceRecords reducef l ↔
      r.key ∈ l.map KeyValue.key ∧ r.value = reducef r.key (valuesOf l r.key) := by
  rw [reduceRecords_groups,← mem_groups_key KeyValue.key]
  constructor
  · intro hr
    obtain ⟨g,hg,rfl⟩ := List.mem_map.mp hr
    refine ⟨List.mem_map.mpr ⟨g,hg,rfl⟩,?_⟩
    exact congrArg (fun pairs => reducef g.1 (pairs.map KeyValue.value))
      (groups_filter KeyValue.key hs hg)
  · intro hx
    obtain ⟨hk,hv⟩ := hx
    obtain ⟨g,hg,he⟩ := List.mem_map.mp hk
    refine List.mem_map.mpr ⟨g,hg,?_⟩
    have hf := groups_filter KeyValue.key hs hg
    obtain ⟨k,v⟩ := r
    simp only at he hv
    simp only [groupRecord,hf,he,hv,valuesOf]

theorem records_nodup (hs : Sorted l) : ((reduceRecords reducef l).map KeyValue.key).Nodup :=
  List.pairwise_map.mpr ((records_increasing hs).imp (fun h => ne_of_lt h))

theorem valuesOf_perm (hp : l.Perm l') (key : Bytes) : (valuesOf l key).Perm (valuesOf l' key) :=
  (hp.filter _).map _

/-- Sorted lists of the same pairs are reduced to the same records. -/
theorem records_unique (hr : OrderInsensitive reducef) (hs : Sorted l) (hs' : Sorted l')
    (hp : l.Perm l') : reduceRecords reducef l = reduceRecords reducef l' := by
  have hmem : (reduceRecords reducef l).Perm (reduceRecords reducef l') := by
    apply (List.perm_ext_iff_of_nodup (records_nodup hs).of_map (records_nodup hs').of_map).mpr
    intro r
    rw [mem_records hs,mem_records hs',hr _ _ _ (valuesOf_perm hp r.key),
      (hp.map KeyValue.key).mem_iff]
  exact hmem.eq_of_pairwise (fun a b _ _ hab hba => absurd hab (lt_asymm hba))
    (records_increasing hs) (records_increasing hs')

end

def keySort : KeySort where
  sort l := l.insertionSort (fun a b => a.key ≤ b.key)
  perm l := List.perm_insertionSort _ l
  sorted l := by
    have : IsTrans KeyValue (fun a b => a.key ≤ b.key) := ⟨fun _ _ _ => le_trans⟩
    have : Std.Total (fun a b : KeyValue => a.key ≤ b.key) := ⟨fun a b => le_total a.key b.key⟩
    exact List.pairwise_insertionSort _ l

/-- The records of a collection of pairs, in whatever order these come. -/
def keyRecords (reducef : Reducef) (l : List KeyValue) : List KeyValue :=
  reduceRecords reducef (keySort.sort l)

theorem keyRecords_sort {reducef : Reducef} (ho : OrderInsensitive reducef) (sort : KeySort)
    (hp : l.Perm l') : reduceRecords reducef (sort.sort l) = keyRecords reducef l' :=
  records_unique ho (sort.sorted l) (keySort.sorted l')
    ((sort.perm l).trans (hp.trans (keySort.perm l').symm))

theorem mem_keyRecords {reducef : Reducef} (ho : OrderInsensitive reducef) (l : List KeyValue)
    (r : KeyValue) : r ∈ keyRecords reducef l ↔
      r.key ∈ l.map KeyValue.key ∧ r.value = reducef r.key (valuesOf l r.key) := by
  rw [keyRecords,mem_records (keySort.sorted l),((keySort.perm l).map KeyValue.key).mem_iff,
    ho _ _ _ (valuesOf_perm (keySort.perm l) r.key)]

theorem keyRecords_nodup (reducef : Reducef) (l : List KeyValue) :
    ((keyRecords reducef l).map KeyValue.key).Nodup :=
  records_nodup (keySort.sorted l)

end MapReduce.Proofs
