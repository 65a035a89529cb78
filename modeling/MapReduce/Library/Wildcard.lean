import Mathlib

namespace Wildcard

section
variable {α : Type} [DecidableEq α]

/-- Some rest of the text accepts, with no separator skipped before it. -/
def skip (sep : α) (rest : List α → Bool) : List α → Bool
  | [] => rest []
  | c :: s => rest (c :: s) || (c != sep && skip sep rest s)

/-- A pattern of literal characters and of `star`, which stands for any run of
characters other than `sep`. -/
def accepts (star sep : α) : List α → List α → Bool
  | [],s => s.isEmpty
  | p :: ps,s =>
    if p = star then skip sep (accepts star sep ps) s
    else s.head? == some p && accepts star sep ps s.tail

theorem skip_iff (sep : α) (rest : List α → Bool) (s : List α) :
    skip sep rest s = true ↔ ∃ u v, s = u ++ v ∧ sep ∉ u ∧ rest v = true := by
  induction s with
  | nil => simp [skip]
  | cons c s ih =>
    simp only [skip,Bool.or_eq_true,Bool.and_eq_true,bne_iff_ne,ne_eq,ih]
    constructor
    · intro hor
      rcases hor with h | ⟨hc,u,v,rfl,hu,hv⟩
      · exact ⟨[],c :: s,rfl,by simp,h⟩
      · exact ⟨c :: u,v,rfl,by simp [hu,Ne.symm hc],hv⟩
    · intro hx
      obtain ⟨u,v,he,hu,hv⟩ := hx
      cases u with
      | nil => exact Or.inl (he ▸ hv)
      | cons d u =>
        obtain ⟨rfl,rfl⟩ := List.cons.inj he
        simp only [List.mem_cons,not_or] at hu
        exact Or.inr ⟨Ne.symm hu.1,u,v,rfl,hu.2,hv⟩

theorem accepts_literal (star sep : α) (lit ps s : List α) (hl : star ∉ lit) :
    accepts star sep (lit ++ ps) s = true ↔ ∃ v, s = lit ++ v ∧ accepts star sep ps v = true := by
  induction lit generalizing s with
  | nil => simp
  | cons p lit ih =>
    simp only [List.mem_cons,not_or] at hl
    rw [List.cons_append,accepts,if_neg (Ne.symm hl.1)]
    cases s with
    | nil => simp
    | cons c s =>
      simp only [List.head?_cons,List.tail_cons,Bool.and_eq_true,beq_iff_eq,Option.some.injEq,
        ih s hl.2,List.cons_append,List.cons.injEq]
      constructor
      · intro hx
        obtain ⟨rfl,v,rfl,hv⟩ := hx
        exact ⟨v,⟨rfl,rfl⟩,hv⟩
      · intro hx
        obtain ⟨v,⟨rfl,rfl⟩,hv⟩ := hx
        exact ⟨rfl,v,rfl,hv⟩

/-- A pattern with one star between two literals. -/
theorem accepts_one_star (star sep : α) (pre post s : List α) (hpre : star ∉ pre)
    (hpost : star ∉ post) :
    accepts star sep (pre ++ star :: post) s = true ↔ ∃ u, s = pre ++ u ++ post ∧ sep ∉ u := by
  rw [accepts_literal star sep pre _ s hpre]
  constructor
  · intro hex
    obtain ⟨v,rfl,hv⟩ := hex
    rw [accepts,if_pos rfl,skip_iff] at hv
    obtain ⟨u,w,rfl,hu,hw⟩ := hv
    rw [← List.append_nil post,accepts_literal star sep post [] w hpost] at hw
    obtain ⟨x,rfl,hx⟩ := hw
    rw [accepts,List.isEmpty_iff] at hx
    exact ⟨u,by simp [hx],hu⟩
  · intro hex
    obtain ⟨u,rfl,hu⟩ := hex
    refine ⟨u ++ post,by simp,?_⟩
    rw [accepts,if_pos rfl,skip_iff]
    refine ⟨u,post,rfl,hu,?_⟩
    rw [← List.append_nil post,accepts_literal star sep post [] _ hpost]
    exact ⟨[],rfl,rfl⟩

end

/-- The last separator of a text splits it in one way only. -/
theorem split_last {α : Type} {sep : α} {a b x y : List α} (hx : sep ∉ x) (hy : sep ∉ y)
    (h : a ++ sep :: x = b ++ sep :: y) : a = b ∧ x = y := by
  rcases List.append_eq_append_iff.mp h with ⟨u,rfl,hu⟩ | ⟨u,rfl,hu⟩
  · cases u with
    | nil => simpa using hu
    | cons c u =>
      obtain ⟨rfl,rfl⟩ := List.cons.inj hu
      exact absurd (List.mem_append_right u List.mem_cons_self) hx
  · cases u with
    | nil => simpa using hu.symm
    | cons c u =>
      obtain ⟨rfl,rfl⟩ := List.cons.inj hu
      exact absurd (List.mem_append_right u List.mem_cons_self) hy

end Wildcard
