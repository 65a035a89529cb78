import Mathlib
import MapReduce.Library.DepthFirst

namespace Linearization
open List

/-- The two ends of an operation in a history. -/
inductive Mark (α : Type)
  | call (a : α)
  | ret (a : α)
  deriving DecidableEq

def Mark.op {α : Type} : Mark α → α
  | .call a => a
  | .ret a => a

@[simp] theorem Mark.op_call {α : Type} (a : α) : (Mark.call a).op = a := rfl

@[simp] theorem Mark.op_ret {α : Type} (a : α) : (Mark.ret a).op = a := rfl

section
variable {α σ : Type}

/-- The operations of a history, in the order of their calls. -/
def ops : List (Mark α) → List α
  | [] => []
  | .call a :: h => a :: ops h
  | .ret _ :: h => ops h

def returns : List (Mark α) → List α
  | [] => []
  | .call _ :: h => returns h
  | .ret a :: h => a :: returns h

/-- The operations that are called before anything returns. -/
def minimal : List (Mark α) → List α
  | .call a :: h => a :: minimal h
  | _ => []

/-- What is left of a history without some of its operations. -/
def without [DecidableEq α] (h : List (Mark α)) (done : List α) : List (Mark α) :=
  h.filter (fun m => m.op ∉ done)

/-- Every operation is called once and returns once, after its call. -/
structure WellFormed (h : List (Mark α)) : Prop where
  nodup : h.Nodup
  paired : ∀ m ∈ h, [.call m.op,.ret m.op] <+ h

/-- `seq` is an order of all operations that no return and later call contradict, and that
the object accepts from `s` on. -/
structure Linearizes (step : σ → α → Option σ) (h : List (Mark α)) (s : σ) (seq : List α) :
    Prop where
  perm : seq.Perm (ops h)
  order : seq.Pairwise (fun a b => ¬ [.ret b,.call a] <+ h)
  accepted : (seq.foldlM step s).isSome = true

/-- `seq` is how an order of the operations may begin, from `s` to `t`: with an operation
there are all those in it that returned before its call. -/
structure Begins (step : σ → α → Option σ) (h : List (Mark α)) (s : σ) (seq : List α) (t : σ) :
    Prop where
  nodup : seq.Nodup
  inside : ∀ a ∈ seq, .call a ∈ h
  order : seq.Pairwise (fun a b => ¬ [.ret b,.call a] <+ h)
  closed : ∀ a ∈ seq, ∀ b, [.ret b,.call a] <+ h → b ∈ seq
  result : seq.foldlM step s = some t

/-- The history can be finished from `s` on. -/
def Completes (step : σ → α → Option σ) (h : List (Mark α)) (s : σ) : Prop :=
  ∃ seq, Linearizes step h s seq

/-- The operations can be put in an order that the object accepts, and in which none comes
after one that it is `before`. -/
def Orderable (step : σ → α → Option σ) (before : α → α → Prop) (l : List α) (s : σ) : Prop :=
  ∃ seq : List α, seq.Perm l ∧ seq.Pairwise (fun a b => ¬ before b a) ∧
    (seq.foldlM step s).isSome = true

def Mark.map {β : Type} (f : α → β) : Mark α → Mark β
  | .call a => .call (f a)
  | .ret a => .ret (f a)

end

section
variable {α : Type} {h : List (Mark α)} {a : α}

theorem mem_ops : a ∈ ops h ↔ .call a ∈ h := by
  fun_induction ops h <;> simp_all

theorem WellFormed.called (hw : WellFormed h) {m : Mark α} (hm : m ∈ h) : .call m.op ∈ h :=
  (hw.paired m hm).subset List.mem_cons_self

theorem WellFormed.ops_nodup (hw : WellFormed h) : (ops h).Nodup := by
  have hn := hw.nodup
  clear hw
  induction h with
  | nil => exact List.nodup_nil
  | cons m h ih =>
    have hh := List.nodup_cons.mp hn
    cases m with
    | call c => exact List.nodup_cons.mpr ⟨fun hc => hh.1 (mem_ops.mp hc),ih hh.2⟩
    | ret c => exact ih hh.2

theorem mem_returns : a ∈ returns h ↔ .ret a ∈ h := by
  fun_induction returns h <;> simp_all

theorem WellFormed.returns_nodup (hw : WellFormed h) : (returns h).Nodup := by
  have hn := hw.nodup
  clear hw
  induction h with
  | nil => exact List.nodup_nil
  | cons m h ih =>
    have hh := List.nodup_cons.mp hn
    cases m with
    | call c => exact ih hh.2
    | ret c => exact List.nodup_cons.mpr ⟨fun hc => hh.1 (mem_returns.mp hc),ih hh.2⟩

/-- Each operation has two marks. -/
theorem WellFormed.length (hw : WellFormed h) : h.length = 2 * (ops h).length := by
  have hall : ∀ h : List (Mark α), h.length = (ops h).length + (returns h).length := by
    intro h
    induction h with
    | nil => rfl
    | cons m h ih => cases m <;> simp [ops,returns,ih] <;> omega
  have hperm : (ops h).Perm (returns h) := by
    refine (List.perm_ext_iff_of_nodup hw.ops_nodup hw.returns_nodup).mpr (fun a => ?_)
    rw [mem_ops,mem_returns]
    constructor
    · exact fun ha => (hw.paired _ ha).subset (List.mem_cons_of_mem _ List.mem_cons_self)
    · exact fun ha => hw.called ha
  have := hall h
  have := hperm.length_eq
  omega

/-- Of two different marks one comes first. -/
theorem not_both_orders {β : Type} {l : List β} {x y : β} (hn : l.Nodup) (hxy : [x,y] <+ l) :
    ¬ [y,x] <+ l := by
  induction l with
  | nil => simp at hxy
  | cons z l ih =>
    intro hyx
    have hz : z ∉ l := (List.nodup_cons.mp hn).1
    rcases List.sublist_cons_iff.mp hxy with hxy' | ⟨r,he,hr⟩
    · rcases List.sublist_cons_iff.mp hyx with hyx' | ⟨r,he,_⟩
      · exact ih (List.nodup_cons.mp hn).2 hxy' hyx'
      · cases he
        exact hz (hxy'.subset (List.mem_cons_of_mem _ List.mem_cons_self))
    · cases he
      rcases List.sublist_cons_iff.mp hyx with hyx' | ⟨r,he,_⟩
      · exact hz (hyx'.subset (List.mem_cons_of_mem _ List.mem_cons_self))
      · cases he
        exact hz (hr.subset List.mem_cons_self)

theorem one_order {β : Type} {l : List β} {x y : β} (hx : x ∈ l) (hy : y ∈ l) (hne : x ≠ y) :
    [x,y] <+ l ∨ [y,x] <+ l := by
  induction l with
  | nil => cases hx
  | cons z l ih =>
    rcases List.mem_cons.mp hx with rfl | hx'
    · rcases List.mem_cons.mp hy with rfl | hy'
      · exact absurd rfl hne
      · exact .inl (List.Sublist.cons_cons _ (List.singleton_sublist.mpr hy'))
    · rcases List.mem_cons.mp hy with rfl | hy'
      · exact .inr (List.Sublist.cons_cons _ (List.singleton_sublist.mpr hx'))
      · exact (ih hx' hy').imp (.cons z) (.cons z)

/-- The minimal operations are those that no return comes before. -/
theorem mem_minimal (hn : h.Nodup) :
    a ∈ minimal h ↔ .call a ∈ h ∧ ∀ b, ¬ [.ret b,.call a] <+ h := by
  induction h with
  | nil => simp [minimal]
  | cons m h ih =>
    have hm : m ∉ h := (List.nodup_cons.mp hn).1
    cases m with
    | ret c =>
      constructor
      · intro hin
        cases hin
      · rintro ⟨hc,hno⟩
        refine absurd (List.Sublist.cons_cons _ (List.singleton_sublist.mpr ?_)) (hno c)
        simpa using hc
    | call c =>
      rw [minimal,List.mem_cons,ih (List.nodup_cons.mp hn).2]
      constructor
      · rintro (rfl | ⟨hc,hno⟩)
        · refine ⟨List.mem_cons_self,fun b hsub => hm ?_⟩
          rcases List.sublist_cons_iff.mp hsub with hsub | ⟨r,he,_⟩
          · exact hsub.subset (List.mem_cons_of_mem _ List.mem_cons_self)
          · cases he
        · refine ⟨List.mem_cons_of_mem _ hc,fun b hsub => ?_⟩
          rcases List.sublist_cons_iff.mp hsub with hsub | ⟨r,he,_⟩
          · exact hno b hsub
          · cases he
      · rintro ⟨hc,hno⟩
        rcases List.mem_cons.mp hc with he | hc
        · exact .inl (by simpa using he)
        · exact .inr ⟨hc,fun b hsub => hno b (.cons _ hsub)⟩

theorem minimal_length (h : List (Mark α)) : (minimal h).length ≤ h.length := by
  fun_induction minimal h <;> simp_all

theorem minimal_called (ha : a ∈ minimal h) : .call a ∈ h := by
  fun_induction minimal h <;> simp_all
  tauto

end

/-- Whatever the first state accepts the second one accepts, and they stay so. -/
def Simulates {α σ : Type} (step : σ → α → Option σ) (equal : σ → σ → Prop) : Prop :=
  ∀ s t, equal s t → ∀ a s', step s a = some s' → ∃ t', step t a = some t' ∧ equal s' t'

section
variable {α σ : Type} {step : σ → α → Option σ} {h : List (Mark α)} {s t : σ} {seq : List α}

theorem begins_nil : Begins step h s [] t ↔ s = t := by
  constructor
  · intro hb
    simpa using hb.result
  · rintro rfl
    exact ⟨List.nodup_nil,by simp,.nil,by simp,rfl⟩

theorem Simulates.begins {equal : σ → σ → Prop}
    (hsim : Simulates step equal) (he : equal s t) {s' : σ}
    (hb : Begins step h s seq s') : ∃ t', Begins step h t seq t' := by
  have hrun : ∀ (seq : List α) {s t : σ}, equal s t → seq.foldlM step s = some s' →
      ∃ t', seq.foldlM step t = some t' := by
    intro seq
    induction seq with
    | nil => exact fun _ _ => ⟨_,rfl⟩
    | cons a seq ih =>
      intro s t he hr
      obtain ⟨u,hu,hr⟩ := Option.bind_eq_some_iff.mp hr
      obtain ⟨v,hv,huv⟩ := hsim s t he a u hu
      obtain ⟨t',ht'⟩ := ih huv hr
      exact ⟨t',by rw [List.foldlM_cons,hv]; exact ht'⟩
  obtain ⟨t',ht'⟩ := hrun seq he hb.result
  exact ⟨t',hb.nodup,hb.inside,hb.order,hb.closed,ht'⟩

end

section
variable {α β σ : Type} {step : σ → α → Option σ} {step' : σ → β → Option σ} {s : σ}
  {before : α → α → Prop} {before' : β → β → Prop} {f : α → β} {l : List α} {l' : List β}

theorem completes_iff {h : List (Mark α)} : Completes step h s ↔
    Orderable step (fun a b => [.ret a,.call b] <+ h) (ops h) s :=
  ⟨fun ⟨seq,hl⟩ => ⟨seq,hl.perm,hl.order,hl.accepted⟩,
    fun ⟨seq,hp,ho,ha⟩ => ⟨seq,hp,ho,ha⟩⟩

theorem orderable_nil : Orderable step before [] s := ⟨[],.refl _,.nil,rfl⟩

theorem foldlM_renamed {seq : List α} (hs : ∀ a ∈ seq, ∀ s, step' s (f a) = step s a) :
    (seq.map f).foldlM step' s = seq.foldlM step s := by
  induction seq generalizing s with
  | nil => rfl
  | cons a seq ih =>
    rw [List.map_cons,List.foldlM_cons,List.foldlM_cons,hs a List.mem_cons_self]
    exact bind_congr (fun _ => ih (fun b hb => hs b (List.mem_cons_of_mem _ hb)))

/-- Other names for the operations, that keep what is known of their order, make no
difference. -/
theorem orderable_renamed (hl : (l.map f).Perm l')
    (hb : ∀ a ∈ l, ∀ b ∈ l, (before a b ↔ before' (f a) (f b)))
    (hs : ∀ a ∈ l, ∀ s, step' s (f a) = step s a) :
    Orderable step before l s ↔ Orderable step' before' l' s := by
  have hsame : ∀ seq : List α, seq.Perm l →
      (seq.Pairwise (fun a b => ¬ before b a) ↔
        (seq.map f).Pairwise (fun a b => ¬ before' b a)) ∧
      (seq.map f).foldlM step' s = seq.foldlM step s := by
    intro seq hp
    refine ⟨?_,foldlM_renamed (fun a ha => hs a (hp.subset ha))⟩
    rw [List.pairwise_map]
    exact List.Pairwise.iff_of_mem (fun {a b} ha hb' =>
      not_congr (hb b (hp.subset hb') a (hp.subset ha)))
  constructor
  · rintro ⟨seq,hp,ho,ha⟩
    obtain ⟨horder,hfold⟩ := hsame seq hp
    exact ⟨seq.map f,(hp.map f).trans hl,horder.mp ho,by rw [hfold,ha]⟩
  · rintro ⟨seq',hp,ho,ha⟩
    have hmap : List.Forall₂ (fun b a => b = f a) (l.map f) l :=
      List.forall₂_map_right_iff.mp (by rw [List.forall₂_eq_eq_eq])
    obtain ⟨seq,hseq,hp'⟩ := List.perm_comp_forall₂ (hp.trans hl.symm) hmap
    obtain rfl : seq' = seq.map f := by
      rw [← List.forall₂_eq_eq_eq]
      exact List.forall₂_map_right_iff.mpr hseq
    obtain ⟨horder,hfold⟩ := hsame seq hp'
    exact ⟨seq,hp',horder.mpr ho,by rw [← hfold,ha]⟩

theorem ops_map (h : List (Mark α)) : ops (h.map (Mark.map f)) = (ops h).map f := by
  induction h with
  | nil => rfl
  | cons m h ih =>
    cases m with
    | call a => simp [ops,Mark.map,ih]
    | ret a => simp [ops,Mark.map,ih]

variable {h : List (Mark α)}

theorem Mark.op_map (m : Mark α) : (m.map f).op = f m.op := by
  cases m <;> rfl

theorem map_mark_inj (hf : Set.InjOn f {a | ∃ m ∈ h, m.op = a}) :
    ∀ x ∈ h, ∀ y ∈ h, x.map f = y.map f → x = y := by
  intro x hx y hy he
  have hop : f x.op = f y.op := (x.op_map.symm.trans (congrArg Mark.op he)).trans y.op_map
  have hop : x.op = y.op := hf ⟨x,hx,rfl⟩ ⟨y,hy,rfl⟩ hop
  cases x <;> cases y <;> simp_all [Mark.map]

theorem pair_map (hf : Set.InjOn f {a | ∃ m ∈ h, m.op = a}) {x y : Mark α} (hx : x ∈ h)
    (hy : y ∈ h) : [x.map f,y.map f] <+ h.map (Mark.map f) ↔ [x,y] <+ h := by
  refine ⟨fun hs => ?_,fun hs => hs.map (Mark.map f)⟩
  obtain ⟨l,hl,he⟩ := List.sublist_map_iff.mp hs
  obtain ⟨x',l,rfl,hx',he⟩ := List.map_eq_cons_iff.mp he.symm
  obtain ⟨y',l,rfl,hy',he⟩ := List.map_eq_cons_iff.mp he
  obtain rfl := List.map_eq_nil_iff.mp he
  have hmem : x' ∈ h ∧ y' ∈ h := by simpa using hl.subset
  rw [← map_mark_inj hf x' hmem.1 x hx hx',← map_mark_inj hf y' hmem.2 y hy hy']
  exact hl

theorem WellFormed.map (hw : WellFormed h) (hf : Set.InjOn f {a | ∃ m ∈ h, m.op = a}) :
    WellFormed (h.map (Mark.map f)) where
  nodup := hw.nodup.map_on (map_mark_inj hf)
  paired m hm := by
    obtain ⟨m,hin,rfl⟩ := List.mem_map.mp hm
    rw [Mark.op_map]
    exact (hw.paired m hin).map (Mark.map f)

/-- A history with its operations renamed can be finished as before. -/
theorem completes_map (hw : WellFormed h) (hf : Set.InjOn f {a | ∃ m ∈ h, m.op = a})
    (hs : ∀ a ∈ ops h, ∀ s, step' s (f a) = step s a) :
    Completes step' (h.map (Mark.map f)) s ↔ Completes step h s := by
  rw [completes_iff,completes_iff,ops_map]
  refine (orderable_renamed (List.Perm.refl _) (fun a ha b hb => ?_) hs).symm
  have hret := (hw.paired _ (mem_ops.mp ha)).subset (List.mem_cons_of_mem _ List.mem_cons_self)
  exact (pair_map hf hret (mem_ops.mp hb)).symm

end

variable {α σ : Type} [DecidableEq α] {step : σ → α → Option σ} {h : List (Mark α)} {s t : σ}
  {a b : α} {seq done : List α}

theorem mem_without {m : Mark α} : m ∈ without h done ↔ m ∈ h ∧ m.op ∉ done := by
  simp [without]

theorem without_nil : without h [] = h := by simp [without]

theorem without_append {done' : List α} :
    without (without h done) done' = without h (done ++ done') := by
  simp only [without,List.filter_filter,List.mem_append,not_or,Bool.decide_and,Bool.and_comm]

theorem without_congr {done' : List α} (hd : ∀ a, a ∈ done ↔ a ∈ done') :
    without h done = without h done' := by
  simp only [without,hd]

theorem WellFormed.without (hw : WellFormed h) (done : List α) : WellFormed (without h done) where
  nodup := hw.nodup.filter _
  paired m hm := by
    obtain ⟨hm,hnot⟩ := mem_without.mp hm
    have hsub := (hw.paired m hm).filter (fun m => decide (m.op ∉ done))
    simpa [Linearization.without,hnot] using hsub

theorem before_without : [Mark.ret b,.call a] <+ without h done ↔
    [Mark.ret b,.call a] <+ h ∧ b ∉ done ∧ a ∉ done := by
  constructor
  · intro hsub
    have hb := (mem_without.mp (hsub.subset List.mem_cons_self)).2
    have ha := (mem_without.mp (hsub.subset (List.mem_cons_of_mem _ List.mem_cons_self))).2
    exact ⟨hsub.trans List.filter_sublist,hb,ha⟩
  · rintro ⟨hsub,hb,ha⟩
    have hf := hsub.filter (fun m => decide (m.op ∉ done))
    simpa [without,hb,ha] using hf

/-- An order begins with a minimal operation and goes on with the rest of the history. -/
theorem begins_cons (hw : WellFormed h) : Begins step h s (a :: seq) t ↔
    a ∈ minimal h ∧ ∃ u, step s a = some u ∧ Begins step (without h [a]) u seq t := by
  constructor
  · intro hb
    have ha := hb.inside a List.mem_cons_self
    obtain ⟨hnot,hnodup⟩ := List.nodup_cons.mp hb.nodup
    obtain ⟨hfirst,horder⟩ := List.pairwise_cons.mp hb.order
    have hmin : ∀ b, ¬ [.ret b,.call a] <+ h := by
      intro b hsub
      rcases List.mem_cons.mp (hb.closed a List.mem_cons_self b hsub) with rfl | hin
      · exact not_both_orders hw.nodup (hw.paired _ ha) hsub
      · exact hfirst b hin hsub
    obtain ⟨u,hu,hres⟩ := Option.bind_eq_some_iff.mp hb.result
    refine ⟨(mem_minimal hw.nodup).mpr ⟨ha,hmin⟩,u,hu,hnodup,?_,?_,?_,hres⟩
    · intro b hin
      refine mem_without.mpr ⟨hb.inside b (List.mem_cons_of_mem _ hin),fun he => hnot ?_⟩
      rw [← List.mem_singleton.mp he]
      exact hin
    · exact horder.imp (fun hno hsub => hno (before_without.mp hsub).1)
    · intro c hc b hsub
      obtain ⟨hsub,hne,_⟩ := before_without.mp hsub
      rcases List.mem_cons.mp (hb.closed c (List.mem_cons_of_mem _ hc) b hsub) with rfl | hin
      · exact absurd List.mem_cons_self hne
      · exact hin
  · rintro ⟨hmin,u,hu,hb⟩
    obtain ⟨ha,hfirst⟩ := (mem_minimal hw.nodup).mp hmin
    have hrest : ∀ b ∈ seq, .call b ∈ h ∧ b ∉ [a] := fun b hin => mem_without.mp (hb.inside b hin)
    refine ⟨List.nodup_cons.mpr ⟨fun hin => (hrest a hin).2 List.mem_cons_self,hb.nodup⟩,?_,?_,?_,?_⟩
    · intro b hin
      rcases List.mem_cons.mp hin with rfl | hin
      · exact ha
      · exact (hrest b hin).1
    · refine List.pairwise_cons.mpr ⟨fun b _ => hfirst b,?_⟩
      refine hb.order.imp_of_mem (fun {b c} hin hin' hno hsub => hno ?_)
      exact before_without.mpr ⟨hsub,(hrest c hin').2,(hrest b hin).2⟩
    · intro c hc b hsub
      rcases List.mem_cons.mp hc with rfl | hc
      · exact absurd hsub (hfirst b)
      · by_cases he : b ∈ [a]
        · rw [List.mem_singleton.mp he]
          exact List.mem_cons_self
        · exact List.mem_cons_of_mem _ (hb.closed c hc b (before_without.mpr ⟨hsub,he,(hrest c hc).2⟩))
    · rw [List.foldlM_cons,hu]
      exact hb.result

theorem begins_append (hw : WellFormed h) {seq' : List α} : Begins step h s (seq ++ seq') t ↔
    ∃ u, Begins step h s seq u ∧ Begins step (without h seq) u seq' t := by
  induction seq generalizing h s with
  | nil => simp [begins_nil,without_nil]
  | cons a seq ih =>
    have hrest : ∀ {u}, Begins step (without h [a]) u (seq ++ seq') t ↔
        ∃ v, Begins step (without h [a]) u seq v ∧ Begins step (without h (a :: seq)) v seq' t := by
      intro u
      rw [ih (hw.without [a]),without_append]
      rfl
    simp only [List.cons_append,begins_cons hw,hrest]
    constructor
    · rintro ⟨hm,u,hu,v,hv,hb⟩
      exact ⟨v,⟨hm,u,hu,hv⟩,hb⟩
    · rintro ⟨v,⟨hm,u,hu,hv⟩,hb⟩
      exact ⟨hm,u,hu,v,hv,hb⟩

/-- An order of all operations is a beginning that leaves nothing. -/
theorem linearizes_iff (hw : WellFormed h) :
    Linearizes step h s seq ↔ ∃ t, Begins step h s seq t ∧ without h seq = [] := by
  constructor
  · intro hl
    have hall : ∀ m ∈ h, m.op ∈ seq := fun m hm => hl.perm.mem_iff.mpr (mem_ops.mpr (hw.called hm))
    obtain ⟨t,ht⟩ := Option.isSome_iff_exists.mp hl.accepted
    refine ⟨t,⟨hl.perm.nodup_iff.mpr hw.ops_nodup,?_,hl.order,?_,ht⟩,?_⟩
    · exact fun a ha => mem_ops.mp (hl.perm.mem_iff.mp ha)
    · exact fun a _ b hsub => hall (.ret b) (hsub.subset List.mem_cons_self)
    · exact List.filter_eq_nil_iff.mpr (fun m hm => by simpa using hall m hm)
  · rintro ⟨t,hb,hnone⟩
    refine ⟨(List.perm_ext_iff_of_nodup hb.nodup hw.ops_nodup).mpr (fun a => ?_),hb.order,?_⟩
    · refine ⟨fun ha => mem_ops.mpr (hb.inside a ha),fun ha => ?_⟩
      by_contra hno
      have hleft : .call a ∈ without h seq := mem_without.mpr ⟨mem_ops.mp ha,hno⟩
      rw [hnone] at hleft
      cases hleft
    · rw [hb.result]
      rfl

/-! A search over configurations: the operations that are in order so far, and the state. -/

section
variable (step : σ → α → Option σ) (h : List (Mark α))

def candidates (x : List α × σ) : List α := minimal (without h x.1)

def extend (x : List α × σ) (a : α) : Option (List α × σ) :=
  (step x.2 a).map (fun t => (x.1 ++ [a],t))

/-- The same operations in any order, and states of which one may stand for the other. -/
def Alike (equal : σ → σ → Prop) (x y : List α × σ) : Prop := x.1.Perm y.1 ∧ equal x.2 y.2

/-- The number of marks that are left. -/
def left (x : List α × σ) : Nat := (without h x.1).length

/-- No order of the operations that are left can be found. -/
def Dead (x : List α × σ) : Prop := ¬ Completes step (without h x.1) x.2

/-- No beginning that goes on from here is longer than what `best` has for the operations
in it. -/
def Bounded (best : α → Nat) (x : List α × σ) : Prop :=
  ∀ seq t, Begins step (without h x.1) x.2 seq t →
    ∀ a ∈ x.1 ++ seq, (x.1 ++ seq).length ≤ best a

end

variable {equal : σ → σ → Prop} {x y z : List α × σ} {best : α → Nat}

theorem candidates_length (x : List α × σ) : (candidates h x).length ≤ h.length :=
  (minimal_length _).trans (List.length_filter_le ..)

theorem search_graded : DepthFirst.Graded (candidates h) (extend step) (Alike equal) (left h) where
  down := by
    intro x a y ha hy
    obtain ⟨t,_,rfl⟩ := Option.map_eq_some_iff.mp hy
    rw [left,left,← without_append]
    exact List.length_filter_lt_length_iff_exists.mpr ⟨.call a,minimal_called ha,by simp⟩
  level := by
    intro y z hyz
    rw [left,left,without_congr (fun a => hyz.1.mem_iff)]

theorem Dead.alike (hw : WellFormed h) (hsim : Simulates step equal) (hyz : Alike equal y z)
    (hz : Dead step h z) : Dead step h y := by
  rintro ⟨seq,hseq⟩
  obtain ⟨t,hb,hnone⟩ := (linearizes_iff (hw.without _)).mp hseq
  rw [without_congr (fun a => hyz.1.mem_iff)] at hb hnone
  obtain ⟨t',hb'⟩ := hsim.begins hyz.2 hb
  exact hz ⟨seq,(linearizes_iff (hw.without _)).mpr ⟨t',hb',hnone⟩⟩

theorem Bounded.alike (hsim : Simulates step equal) (hyz : Alike equal y z)
    (hz : Bounded step h best z) : Bounded step h best y := by
  intro seq t hb a ha
  rw [without_congr (fun a => hyz.1.mem_iff)] at hb
  obtain ⟨t',hb'⟩ := hsim.begins hyz.2 hb
  have hp : (y.1 ++ seq).Perm (z.1 ++ seq) := hyz.1.append_right seq
  rw [hp.length_eq]
  exact hz seq t' hb' a (hp.mem_iff.mp ha)

/-- From a configuration an order begins with one of its candidates. -/
theorem begins_extend (hw : WellFormed h) (hb : Begins step (without h x.1) x.2 (a :: seq) t) :
    a ∈ candidates h x ∧ ∃ y, extend step x a = some y ∧ y.1 = x.1 ++ [a] ∧
      Begins step (without h y.1) y.2 seq t := by
  obtain ⟨ha,u,hu,hb⟩ := (begins_cons (hw.without _)).mp hb
  rw [without_append] at hb
  exact ⟨ha,(x.1 ++ [a],u),by rw [extend,hu]; rfl,rfl,hb⟩

theorem dead_settles (hw : WellFormed h) (hne : without h x.1 ≠ [])
    (hall : ∀ a ∈ candidates h x, ∀ y, extend step x a = some y → Dead step h y) :
    Dead step h x := by
  rintro ⟨seq,hseq⟩
  obtain ⟨t,hb,hnone⟩ := (linearizes_iff (hw.without _)).mp hseq
  cases seq with
  | nil =>
    rw [without_nil] at hnone
    exact hne hnone
  | cons a seq =>
    obtain ⟨ha,y,hy,hy',hb⟩ := begins_extend hw hb
    refine hall a ha y hy ⟨seq,(linearizes_iff (hw.without _)).mpr ⟨t,hb,?_⟩⟩
    rw [hy',without_append,List.append_assoc]
    rw [without_append] at hnone
    exact hnone

theorem bounded_settles (hw : WellFormed h) (hown : ∀ a ∈ x.1, x.1.length ≤ best a)
    (hall : ∀ a ∈ candidates h x, ∀ y, extend step x a = some y → Bounded step h best y) :
    Bounded step h best x := by
  intro seq t hb a ha
  cases seq with
  | nil =>
    rw [List.append_nil] at ha ⊢
    exact hown a ha
  | cons b seq =>
    obtain ⟨hin,y,hy,hy',hb⟩ := begins_extend hw hb
    have he : x.1 ++ b :: seq = y.1 ++ seq := by rw [hy']; simp
    rw [he] at ha ⊢
    exact hall b hin y hy seq t hb a ha

theorem Bounded.mono {best' : α → Nat} (hle : ∀ a, best a ≤ best' a)
    (hx : Bounded step h best x) : Bounded step h best' x :=
  fun seq t hb a ha => (hx seq t hb a ha).trans (hle a)

/-- What is on the stack of a search begins an order. -/
theorem stacked_begins (hw : WellFormed h) {todo : List α} {fs : List ((List α × σ) × List α)}
    (hs : DepthFirst.Stacked (candidates h) (extend step) ([],s) ((x,todo) :: fs)) :
    Begins step h s x.1 x.2 := by
  generalize hall : (x,todo) :: fs = all at hs
  induction hs generalizing x todo fs with
  | root =>
    cases hall
    exact begins_nil.mpr rfl
  | push hc hy _ ih =>
    cases hall
    obtain ⟨u,hu,rfl⟩ := Option.map_eq_some_iff.mp hy
    exact (begins_append hw).mpr ⟨_,ih rfl,(begins_cons (hw.without _)).mpr
      ⟨hc,u,hu,begins_nil.mpr rfl⟩⟩

end Linearization
