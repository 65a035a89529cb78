import Mathlib
import MapReduce.Library.Grouping
import MapReduce.Library.Linearization

namespace Linearization
open List

section
variable {β τ σ : Type} [LinearOrder τ] (call ret : β → τ) (step : σ → β → Option σ)

/-- The operations of a history, each from its call to its return, can be put in an order
that keeps one after those that returned before its call, and that the object accepts. -/
def Linearizable (s : σ) (history : List β) : Prop :=
  Orderable step (fun a b => ret a < call b) history s

/-- A time for each operation of a sequence: the latest call up to it. -/
def pointsFrom : τ → List β → List (β × τ)
  | _,[] => []
  | t,b :: l => (b,max t (call b)) :: pointsFrom (max t (call b)) l

def points : List β → List (β × τ)
  | [] => []
  | b :: l => pointsFrom call (call b) (b :: l)

/-- One object for each key. -/
def stepAt {κ : Type} [DecidableEq κ] (key : β → κ) (f : κ → σ) (b : β) : Option (κ → σ) :=
  (step (f (key b)) b).map (Function.update f (key b))

end

variable {β τ σ κ : Type} [LinearOrder τ] [DecidableEq κ] {call ret : β → τ}
  {step : σ → β → Option σ} {key : β → κ}

theorem pointsFrom_fst (t : τ) (l : List β) : (pointsFrom call t l).map Prod.fst = l := by
  induction l generalizing t with
  | nil => rfl
  | cons b l ih => rw [pointsFrom,List.map_cons,ih]

theorem points_fst (l : List β) : (points call l).map Prod.fst = l := by
  cases l with
  | nil => rfl
  | cons b l => exact pointsFrom_fst _ _

theorem pointsFrom_sorted (t : τ) (l : List β) :
    (pointsFrom call t l).Pairwise (fun x y => x.2 ≤ y.2) ∧ ∀ x ∈ pointsFrom call t l, t ≤ x.2 := by
  induction l generalizing t with
  | nil => exact ⟨.nil,by simp [pointsFrom]⟩
  | cons b l ih =>
    obtain ⟨hs,hle⟩ := ih (max t (call b))
    refine ⟨List.pairwise_cons.mpr ⟨hle,hs⟩,fun x hx => ?_⟩
    rcases List.mem_cons.mp hx with rfl | hx
    · exact le_max_left ..
    · exact (le_max_left ..).trans (hle x hx)

/-- In an order that no return contradicts each point lies between call and return. -/
theorem pointsFrom_inside {t : τ} {l : List β} (hl : l.Pairwise (fun a b => ¬ ret b < call a))
    (hb : ∀ b ∈ l, call b ≤ ret b) (ht : ∀ b ∈ l, t ≤ ret b) :
    ∀ x ∈ pointsFrom call t l, call x.1 ≤ x.2 ∧ x.2 ≤ ret x.1 := by
  induction l generalizing t with
  | nil => simp [pointsFrom]
  | cons b l ih =>
    obtain ⟨hfirst,hl⟩ := List.pairwise_cons.mp hl
    intro x hx
    rcases List.mem_cons.mp hx with rfl | hx
    · exact ⟨le_max_right ..,max_le (ht b List.mem_cons_self) (hb b List.mem_cons_self)⟩
    · refine ih hl (fun c hc => hb c (List.mem_cons_of_mem _ hc)) (fun c hc => ?_) x hx
      exact max_le (ht c (List.mem_cons_of_mem _ hc)) (not_lt.mp (hfirst c hc))

theorem points_inside {l : List β} (hl : l.Pairwise (fun a b => ¬ ret b < call a))
    (hb : ∀ b ∈ l, call b ≤ ret b) : ∀ x ∈ points call l, call x.1 ≤ x.2 ∧ x.2 ≤ ret x.1 := by
  cases l with
  | nil => simp [points]
  | cons a l =>
    refine pointsFrom_inside hl hb (fun b hin => ?_)
    rcases List.mem_cons.mp hin with rfl | hin
    · exact hb b List.mem_cons_self
    · exact not_lt.mp ((List.pairwise_cons.mp hl).1 b hin)

theorem points_sorted (l : List β) : (points call l).Pairwise (fun x y => x.2 ≤ y.2) := by
  cases l with
  | nil => exact .nil
  | cons b l => exact (pointsFrom_sorted _ _).1

/-- A sequence is accepted by all objects together when each accepts its part. -/
theorem stepAt_accepts (f : κ → σ) (seq : List β) :
    (seq.foldlM (stepAt step key) f).isSome = true ↔
      ∀ k, ((seq.filter (fun b => key b = k)).foldlM step (f k)).isSome = true := by
  induction seq generalizing f with
  | nil => simp
  | cons b seq ih =>
    rw [List.foldlM_cons]
    cases hs : step (f (key b)) b with
    | none =>
      simp only [stepAt,hs,Option.map_none]
      refine ⟨fun h => (by cases h),fun h => ?_⟩
      have hk := h (key b)
      simp [hs] at hk
    | some s =>
      simp only [stepAt,hs,Option.map_some]
      refine (ih _).trans (forall_congr' (fun k => ?_))
      by_cases hk : key b = k
      · subst hk
        simp [hs]
      · simp [hk,Function.update_of_ne (Ne.symm hk)]

/-- The orders of the parts, merged by their points. -/
theorem merge_points {keys : List κ} {seqs : κ → List β} {history : List β}
    (hk : keys.Nodup) (hin : ∀ b ∈ history, key b ∈ keys)
    (hp : ∀ k, (seqs k).Perm (history.filter (fun b => key b = k)))
    (ho : ∀ k, (seqs k).Pairwise (fun a b => ¬ ret b < call a))
    (hb : ∀ b ∈ history, call b ≤ ret b) :
    ∃ seq : List β, seq.Perm history ∧ seq.Pairwise (fun a b => ¬ ret b < call a) ∧
      ∀ k, seq.filter (fun b => key b = k) = seqs k := by
  set all := keys.flatMap (fun k => points call (seqs k)) with hall
  set merged := all.mergeSort (fun x y => decide (x.2 ≤ y.2)) with hm
  have hmem : ∀ k, ∀ b ∈ seqs k, b ∈ history ∧ key b = k := by
    intro k b hb
    simpa using (hp k).mem_iff.mp hb
  have hfst : all.map Prod.fst = keys.flatMap seqs := by
    simp only [hall,List.map_flatMap,points_fst]
  have hperm : (merged.map Prod.fst).Perm history := by
    refine ((List.mergeSort_perm ..).map _).trans ?_
    rw [hfst]
    exact (List.Perm.flatMap_left keys (fun k _ => hp k)).trans
      (Grouping.buckets_perm keys hk key history hin)
  have hsorted : merged.Pairwise (fun x y => x.2 ≤ y.2) := by
    have hle : merged.Pairwise (fun x y => decide (x.2 ≤ y.2) = true) :=
      List.pairwise_mergeSort (fun a b c hab hbc => by simp_all; exact hab.trans hbc)
        (fun a b => by simp [le_total]) all
    simpa using hle
  have hinside : ∀ x ∈ merged, call x.1 ≤ x.2 ∧ x.2 ≤ ret x.1 := by
    intro x hx
    obtain ⟨k,_,hx⟩ := List.mem_flatMap.mp ((List.mergeSort_perm ..).mem_iff.mp hx)
    exact points_inside (ho k) (fun b hb' => hb b (hmem k b hb').1) x hx
  refine ⟨merged.map Prod.fst,hperm,?_,fun k => ?_⟩
  · refine List.pairwise_map.mpr (hsorted.imp_of_mem (fun {x y} hx hy hle => not_lt.mpr ?_))
    exact ((hinside x hx).1.trans hle).trans (hinside y hy).2
  · have hsub : seqs k <+ merged.map Prod.fst := by
      by_cases hin' : k ∈ keys
      · have hpart : points call (seqs k) <+ merged := by
          refine List.sublist_mergeSort (fun a b c hab hbc => by simp_all; exact hab.trans hbc)
            (fun a b => by simp [le_total]) (by simpa using points_sorted (seqs k)) ?_
          exact List.sublist_flatten_of_mem (List.mem_map_of_mem hin')
        simpa [points_fst] using hpart.map Prod.fst
      · have hnil : seqs k = [] := by
          refine List.eq_nil_iff_forall_not_mem.mpr (fun b hb' => hin' ?_)
          obtain ⟨hb1,rfl⟩ := hmem k b hb'
          exact hin b hb1
        rw [hnil]
        exact List.nil_sublist _
    have hself : (seqs k).filter (fun b => key b = k) = seqs k :=
      List.filter_eq_self.mpr (fun b hb' => by simpa using (hmem k b hb').2)
    have hfilter := hsub.filter (fun b => decide (key b = k))
    rw [hself] at hfilter
    refine (hfilter.eq_of_length ?_).symm
    exact ((hp k).trans (hperm.filter _).symm).length_eq

/-- Locality: a history is linearizable for all objects together exactly when the part of
each object is for that object. -/
theorem linearizable_parts (f : κ → σ) {history : List β} (hb : ∀ b ∈ history, call b ≤ ret b) :
    Linearizable call ret (stepAt step key) f history ↔
      ∀ k, Linearizable call ret step (f k) (history.filter (fun b => key b = k)) := by
  constructor
  · rintro ⟨seq,hp,ho,ha⟩ k
    exact ⟨_,hp.filter _,ho.filter _,(stepAt_accepts f seq).mp ha k⟩
  · intro h
    choose seqs hp ho ha using h
    obtain ⟨seq,hperm,horder,hparts⟩ := merge_points (List.nodup_dedup (history.map key))
      (fun b hin => List.mem_dedup.mpr (List.mem_map_of_mem hin)) hp ho hb
    refine ⟨seq,hperm,horder,(stepAt_accepts f seq).mpr (fun k => ?_)⟩
    rw [hparts k]
    exact ha k

end Linearization
