import Mathlib

/-- The two link fields of all nodes of a doubly linked list; `none` is nil. -/
structure Links (α : Type) where
  next : α → Option α
  prev : α → Option α

namespace Links
variable {α : Type} [DecidableEq α]

/-- `a.next = n`. -/
def setNext (l : Links α) (a : α) (n : Option α) : Links α :=
  { l with next := Function.update l.next a n }

/-- `a.prev = p`. -/
def setPrev (l : Links α) (a : α) (p : Option α) : Links α :=
  { l with prev := Function.update l.prev a p }

/-- Takes `a` out of its list. Its own links stay, and `none` is a nil dereference. -/
def unlink (l : Links α) (a : α) : Option (Links α) := do
  let p ← l.prev a
  let l := l.setNext p (l.next a)
  match l.next a with
  | none => some l
  | some n => some (l.setPrev n (l.prev a))

/-- Puts `a` back where its own links say. -/
def relink (l : Links α) (a : α) : Option (Links α) := do
  let p ← l.prev a
  let l := l.setNext p (some a)
  match l.next a with
  | none => some l
  | some n => some (l.setPrev n (some a))

/-- The links go through the list in both directions. -/
structure Threads (l : Links α) (xs : List α) : Prop where
  nodup : xs.Nodup
  next : ∀ ys a zs, xs = ys ++ a :: zs → l.next a = zs.head?
  prev : ∀ ys a zs, xs = ys ++ a :: zs → l.prev a = ys.getLast?

/-- A list that is split at two places. -/
theorem split_again {α : Type} {ys zs us vs : List α} {p b : α}
    (h : ys ++ p :: zs = us ++ b :: vs) :
    (∃ ws, ys = us ++ b :: ws ∧ vs = ws ++ p :: zs) ∨ (ys = us ∧ p = b ∧ zs = vs) ∨
      ∃ ws, zs = ws ++ b :: vs ∧ us = ys ++ p :: ws := by
  rcases List.append_eq_append_iff.mp h with ⟨ws,hu,hb⟩ | ⟨ws,hy,hp⟩
  · cases ws with
    | nil =>
      cases hb
      exact .inr (.inl ⟨by simpa using hu.symm,rfl,rfl⟩)
    | cons w ws =>
      cases hb
      exact .inr (.inr ⟨ws,rfl,hu⟩)
  · cases ws with
    | nil =>
      cases hp
      exact .inr (.inl ⟨by simpa using hy,rfl,rfl⟩)
    | cons w ws =>
      cases hp
      exact .inl ⟨ws,hy,rfl⟩

variable {l : Links α} {xs ys zs : List α} {a p : α}

/-- The links around a node that is taken out. -/
def bypass (l : Links α) (p : α) (zs : List α) : Links α where
  next := Function.update l.next p zs.head?
  prev := match zs.head? with
    | none => l.prev
    | some n => Function.update l.prev n (some p)

theorem bypass_next (h : a ≠ p) : (bypass l p zs).next a = l.next a := Function.update_of_ne h ..

theorem bypass_prev (h : a ∉ zs) : (bypass l p zs).prev a = l.prev a := by
  cases zs with
  | nil => rfl
  | cons n zs =>
    have hn : a ≠ n := fun he => h (by simp [he])
    exact Function.update_of_ne hn ..

theorem Threads.unlink_eq (h : Threads l (ys ++ p :: a :: zs)) :
    unlink l a = some (bypass l p zs) := by
  have hn : l.next a = zs.head? := h.next (ys ++ [p]) _ _ (by simp)
  have hp : l.prev a = some p := by
    rw [h.prev (ys ++ [p]) a zs (by simp)]
    simp
  have hne : a ≠ p := by
    have := h.nodup
    grind
  cases hz : zs.head? with
  | none => simp [unlink,bypass,hp,setNext,Function.update_of_ne hne,hn,hz]
  | some n => simp [unlink,bypass,hp,setNext,setPrev,Function.update_of_ne hne,hn,hz]

/-- Without the node the links go through the rest. -/
theorem Threads.bypass (h : Threads l (ys ++ p :: a :: zs)) :
    Threads (bypass l p zs) (ys ++ p :: zs) where
  nodup := by
    have := h.nodup
    grind
  next := by
    intro us b vs hs
    have hd := h.nodup
    rcases split_again hs with ⟨ws,rfl,rfl⟩ | ⟨rfl,rfl,rfl⟩ | ⟨ws,rfl,rfl⟩
    · have hb : b ≠ p := by grind
      rw [bypass_next hb,h.next us _ (ws ++ p :: a :: zs) (by simp)]
      cases ws <;> rfl
    · exact Function.update_self ..
    · have hb : b ≠ p := by grind
      rw [bypass_next hb,h.next (ys ++ p :: a :: ws) _ vs (by simp)]
  prev := by
    intro us b vs hs
    have hd := h.nodup
    rcases split_again hs with ⟨ws,rfl,rfl⟩ | ⟨rfl,rfl,rfl⟩ | ⟨ws,rfl,rfl⟩
    · have hb : b ∉ zs := by grind
      rw [bypass_prev hb,h.prev us b (ws ++ p :: a :: zs) (by simp)]
    · have hb : p ∉ zs := by grind
      rw [bypass_prev hb,h.prev ys p (a :: zs) rfl]
    · cases ws with
      | nil =>
        rw [List.getLast?_concat]
        exact Function.update_self ..
      | cons n ws =>
        have hb : b ≠ n := by grind
        have hold := h.prev (ys ++ p :: a :: n :: ws) b vs (by simp)
        simp only [Links.bypass,List.cons_append,List.head?_cons,Function.update_of_ne hb,hold]
        simp

/-- Putting the node back undoes taking it out. -/
theorem Threads.relink_bypass (h : Threads l (ys ++ p :: a :: zs)) :
    relink (Links.bypass l p zs) a = some l := by
  have hd := h.nodup
  have hne : a ≠ p := by grind
  have hz : a ∉ zs := by grind
  have hp : l.next p = some a := h.next ys _ (a :: zs) rfl
  have hback : l.prev a = some p := by
    rw [h.prev (ys ++ [p]) a zs (by simp)]
    simp
  have hn : l.next a = zs.head? := h.next (ys ++ [p]) _ _ (by simp)
  have hnext : Function.update l.next p (some a) = l.next := Function.update_eq_self_iff.mpr hp.symm
  cases zs with
  | nil => simp [relink,Links.bypass,hback,setNext,Function.update_of_ne hne,hn,hnext]
  | cons n zs =>
    have han : a ≠ n := by grind
    have hnp : l.prev n = some a := by
      rw [h.prev (ys ++ [p,a]) n zs (by simp)]
      simp
    have hprev : Function.update l.prev n (some a) = l.prev :=
      Function.update_eq_self_iff.mpr hnp.symm
    simp [relink,Links.bypass,hback,setNext,setPrev,Function.update_of_ne hne,
      Function.update_of_ne han,hn,hnext,hprev]

/-- A node that is not the first can be taken out and put back. Its own links stay. -/
theorem Threads.unlink (h : Threads l (xs ++ a :: zs)) (hx : xs ≠ []) :
    ∃ l', unlink l a = some l' ∧ Threads l' (xs ++ zs) ∧ relink l' a = some l ∧
      l'.next a = l.next a ∧ l'.prev a = l.prev a := by
  obtain ⟨ys,p,rfl⟩ := List.eq_nil_or_concat xs |>.resolve_left hx
  rw [List.concat_eq_append,List.append_assoc] at h
  have hd := h.nodup
  have hp : a ≠ p := by grind
  have hz : a ∉ zs := by grind
  refine ⟨_,h.unlink_eq,?_,h.relink_bypass,bypass_next hp,bypass_prev hz⟩
  rw [List.concat_eq_append,List.append_assoc]
  exact h.bypass

/-- A node with empty links goes in front. -/
theorem Threads.push (h : Threads l xs) (hn : a ∉ xs) (hnext : l.next a = none)
    (hprev : l.prev a = none) :
    Threads (match xs.head? with
      | none => l
      | some m => (l.setPrev m (some a)).setNext a (some m)) (a :: xs) := by
  cases xs with
  | nil =>
    refine ⟨List.nodup_singleton a,?_,?_⟩ <;>
    · intro ys b zs hs
      obtain ⟨rfl,rfl,rfl⟩ : ys = [] ∧ b = a ∧ zs = [] := by
        cases ys with
        | nil =>
          cases hs
          exact ⟨rfl,rfl,rfl⟩
        | cons y ys => simp at hs
      assumption
  | cons m xs =>
    have hne : a ≠ m := fun he => hn (by simp [he])
    refine ⟨List.nodup_cons.mpr ⟨hn,h.nodup⟩,?_,?_⟩
    · intro ys b zs hs
      cases ys with
      | nil =>
        cases hs
        exact Function.update_self ..
      | cons y ys =>
        have hrest : m :: xs = ys ++ b :: zs := (List.cons.inj hs).2
        have hb : b ≠ a := fun he => hn (by rw [hrest,he]; simp)
        rw [← h.next _ _ _ hrest]
        exact Function.update_of_ne hb ..
    · intro ys b zs hs
      cases ys with
      | nil =>
        cases hs
        exact (Function.update_of_ne hne ..).trans hprev
      | cons y ys =>
        obtain ⟨rfl,hrest⟩ : a = y ∧ m :: xs = ys ++ b :: zs := List.cons.inj hs
        cases ys with
        | nil =>
          cases hrest
          exact Function.update_self ..
        | cons z ys =>
          have hd := h.nodup
          have hb : b ≠ m := by
            obtain ⟨rfl,rfl⟩ : m = z ∧ xs = ys ++ b :: zs := List.cons.inj hrest
            rintro rfl
            simp at hd
          rw [List.getLast?_cons_cons,← h.prev _ _ _ hrest]
          exact Function.update_of_ne hb ..

end Links
