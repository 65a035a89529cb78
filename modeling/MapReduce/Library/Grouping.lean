import Mathlib

namespace Grouping

section
variable {α κ : Type} [DecidableEq κ] (key : α → κ)

/-- The maximal runs of equal keys, each with its key. -/
def groups : List α → List (κ × List α)
  | [] => []
  | a :: l =>
    match groups l with
    | [] => [(key a,[a])]
    | (k,run) :: rest =>
      if key a = k then (k,a :: run) :: rest else (key a,[a]) :: (k,run) :: rest

theorem groups_flatten (l : List α) : (groups key l).flatMap Prod.snd = l := by
  induction l with
  | nil => rfl
  | cons a l ih =>
    rw [groups]
    split
    · rename_i he
      simp only [he,List.flatMap_nil] at ih
      simp [← ih]
    · rename_i k run rest he
      simp only [he,List.flatMap_cons] at ih
      split <;> simp [← ih]

theorem groups_run (l : List α) : ∀ g ∈ groups key l, ∀ a ∈ g.2, key a = g.1 := by
  induction l with
  | nil => simp [groups]
  | cons a l ih =>
    rw [groups]
    split
    · simp
    · rename_i k run rest he
      rw [he] at ih
      have hrun := ih _ List.mem_cons_self
      split
      · rename_i hk
        intro g hg b hb
        rcases List.mem_cons.mp hg with rfl | hg
        · rcases List.mem_cons.mp hb with rfl | hb
          · exact hk
          · exact hrun b hb
        · exact ih g (List.mem_cons_of_mem _ hg) b hb
      · intro g hg b hb
        rcases List.mem_cons.mp hg with rfl | hg
        · rw [List.mem_singleton.mp hb]
        · exact ih g hg b hb

/-- The first group carries the key of the first element. -/
theorem groups_head (he : groups key l = (k,run) :: rest) : ∃ b t, l = b :: t ∧ key b = k := by
  cases l with
  | nil => simp [groups] at he
  | cons b t =>
    refine ⟨b,t,rfl,?_⟩
    rw [groups] at he
    split at he
    · cases he
      rfl
    · split at he
      · rename_i hk
        cases he
        exact hk
      · cases he
        rfl

/-- One group is a run taken off the front. -/
theorem groups_cons (a : α) (l : List α) :
    groups key (a :: l) = (key a,a :: l.takeWhile (fun b => key b = key a)) ::
      groups key (l.dropWhile (fun b => key b = key a)) := by
  induction l generalizing a with
  | nil => simp [groups]
  | cons b l ih =>
    rw [groups,ih b]
    by_cases hk : key a = key b
    · simp [hk]
    · have hk' : ¬ key b = key a := fun h => hk h.symm
      simp only [hk,↓reduceIte,List.takeWhile_cons,hk',decide_false,List.dropWhile_cons,
        Bool.false_eq_true]
      rw [ih b]

theorem mem_groups_key (l : List α) (k : κ) :
    k ∈ (groups key l).map Prod.fst ↔ k ∈ l.map key := by
  have hne : ∀ g ∈ groups key l, g.2 ≠ [] := by
    induction l with
    | nil => simp [groups]
    | cons a l ih =>
      rw [groups]
      split
      · simp
      · rename_i k run rest he
        rw [he] at ih
        split
        · intro g hg
          rcases List.mem_cons.mp hg with rfl | hg
          · simp
          · exact ih g (List.mem_cons_of_mem _ hg)
        · intro g hg
          rcases List.mem_cons.mp hg with rfl | hg
          · simp
          · exact ih g hg
  constructor
  · intro hk
    obtain ⟨g,hg,rfl⟩ := List.mem_map.mp hk
    obtain ⟨a,ha⟩ := List.exists_mem_of_ne_nil _ (hne g hg)
    refine List.mem_map.mpr ⟨a,?_,groups_run key l g hg a ha⟩
    rw [← groups_flatten key l]
    exact List.mem_flatMap.mpr ⟨g,hg,ha⟩
  · intro hk
    obtain ⟨a,ha,rfl⟩ := List.mem_map.mp hk
    rw [← groups_flatten key l] at ha
    obtain ⟨g,hg,ha⟩ := List.mem_flatMap.mp ha
    exact List.mem_map.mpr ⟨g,hg,(groups_run key l g hg a ha).symm⟩

/-- Where no key has two runs, a run is all there is of its key. -/
theorem filter_runs (gs : List (κ × List α)) (hd : gs.Pairwise (fun g g' => g.1 ≠ g'.1))
    (hr : ∀ g ∈ gs, ∀ a ∈ g.2, key a = g.1) (hg : g ∈ gs) :
    (gs.flatMap Prod.snd).filter (fun a => key a = g.1) = g.2 := by
  induction gs with
  | nil => simp at hg
  | cons h gs ih =>
    obtain ⟨hd,hd'⟩ := List.pairwise_cons.mp hd
    have hr' : ∀ g ∈ gs, ∀ a ∈ g.2, key a = g.1 := fun g hg => hr g (List.mem_cons_of_mem _ hg)
    simp only [List.flatMap_cons,List.filter_append]
    rcases List.mem_cons.mp hg with rfl | hg
    · have hself : g.2.filter (fun a => key a = g.1) = g.2 := by
        apply List.filter_eq_self.mpr
        intro a ha
        simpa using hr g List.mem_cons_self a ha
      have hrest : (gs.flatMap Prod.snd).filter (fun a => key a = g.1) = [] := by
        apply List.filter_eq_nil_iff.mpr
        intro a ha
        obtain ⟨g',hg',ha⟩ := List.mem_flatMap.mp ha
        have := hd g' hg'
        simp [hr' g' hg' a ha,Ne.symm this]
      rw [hself,hrest,List.append_nil]
    · have hother : h.2.filter (fun a => key a = g.1) = [] := by
        apply List.filter_eq_nil_iff.mpr
        intro a ha
        simp [hr h List.mem_cons_self a ha,hd g hg]
      rw [hother,List.nil_append,ih hd' hr' hg]

end

section
variable {α κ : Type} [LinearOrder κ] [DecidableEq κ] (key : α → κ)

/-- On a list in key order the groups come in strictly increasing key order. -/
theorem groups_increasing (hs : l.Pairwise (fun a b => key a ≤ key b)) :
    (groups key l).Pairwise (fun g g' => g.1 < g'.1) := by
  induction l with
  | nil => exact .nil
  | cons a l ih =>
    obtain ⟨ha,hs⟩ := List.pairwise_cons.mp hs
    have ih := ih hs
    rw [groups]
    split
    · simp
    · rename_i k run rest he
      rw [he] at ih
      split
      · exact List.pairwise_cons.mpr ⟨(List.pairwise_cons.mp ih).1,(List.pairwise_cons.mp ih).2⟩
      · rename_i hk
        obtain ⟨b,t,hl,hb⟩ := groups_head key he
        have hlt : key a < k := by
          apply lt_of_le_of_ne _ hk
          rw [← hb]
          exact ha b (by rw [hl]; exact List.mem_cons_self)
        refine List.pairwise_cons.mpr ⟨?_,ih⟩
        intro g hg
        rcases List.mem_cons.mp hg with rfl | hg
        · exact hlt
        · exact lt_trans hlt ((List.pairwise_cons.mp ih).1 g hg)

/-- On a list in key order each group holds all elements of its key. -/
theorem groups_filter (hs : l.Pairwise (fun a b => key a ≤ key b)) (hg : g ∈ groups key l) :
    g.2 = l.filter (fun a => key a = g.1) := by
  have hd : (groups key l).Pairwise (fun g g' => g.1 ≠ g'.1) :=
    (groups_increasing key hs).imp (fun h => ne_of_lt h)
  conv_rhs => rw [← groups_flatten key l]
  exact (filter_runs key _ hd (groups_run key l) hg).symm

end

section
variable {α ι : Type} [DecidableEq ι]

theorem single_bucket (is : List ι) (hd : is.Nodup) (a : α) (hi : i ∈ is) :
    is.flatMap (fun j => if i = j then [a] else []) = [a] := by
  induction is with
  | nil => cases hi
  | cons j is ih =>
    obtain ⟨hj,hd⟩ := List.nodup_cons.mp hd
    rw [List.flatMap_cons]
    by_cases he : i = j
    · have hnil : is.flatMap (fun j => if i = j then [a] else []) = [] := by
        apply List.flatMap_eq_nil_iff.mpr
        intro k hk
        rw [if_neg (fun hik => hj (by rw [← he,hik]; exact hk))]
      rw [if_pos he,hnil,List.append_nil]
    · rw [if_neg he,List.nil_append]
      exact ih hd ((List.mem_cons.mp hi).resolve_left he)

/-- Sorting a list into buckets neither loses nor repeats anything. -/
theorem buckets_perm (is : List ι) (hd : is.Nodup) (f : α → ι) (l : List α)
    (h : ∀ a ∈ l, f a ∈ is) : (is.flatMap (fun i => l.filter (fun a => f a = i))).Perm l := by
  induction l with
  | nil => simp
  | cons a l ih =>
    have hs : ∀ i, (a :: l).filter (fun b => f b = i) =
        (if f a = i then [a] else []) ++ l.filter (fun b => f b = i) := by
      intro i
      by_cases hi : f a = i <;> simp [hi]
    simp only [hs]
    refine (List.flatMap_append_perm is _ _).symm.trans ?_
    rw [single_bucket is hd a (h a List.mem_cons_self)]
    exact (ih (fun b hb => h b (List.mem_cons_of_mem _ hb))).cons a

end

end Grouping
