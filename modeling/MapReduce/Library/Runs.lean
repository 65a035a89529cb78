import Mathlib.Data.List.Basic
import Mathlib.Data.List.Induction

namespace Runs

section
variable {σ α ε : Type} (next : σ → α → Option σ)

/-- The state after a list of actions; `none` once an action is not enabled. -/
def run : σ → List α → Option σ
  | s, [] => some s
  | s, a :: as => (next s a).bind fun t => run t as

/-- What the actions of a run emit, in order. -/
def trace (emit : σ → α → List ε) : σ → List α → List ε
  | _, [] => []
  | s, a :: as => emit s a ++ ((next s a).map fun t => trace emit t as).getD []

/-- Every action of the run meets `ok` in the state it is taken from. -/
def Obeys (ok : σ → α → Prop) : σ → List α → Prop
  | _, [] => True
  | s, a :: as => ok s a ∧ ∀ t, next s a = some t → Obeys ok t as

end

variable {σ α ε : Type} {next : σ → α → Option σ} {ok : σ → α → Prop}

instance decidableObeys {next : σ → α → Option σ} {ok : σ → α → Prop} [∀ s a, Decidable (ok s a)] :
    (s : σ) → (as : List α) → Decidable (Obeys next ok s as)
  | _, [] => isTrue trivial
  | s, a :: as =>
    match h : next s a with
    | none => decidable_of_iff (ok s a) (by simp [Obeys,h])
    | some t =>
      have : Decidable (Obeys next ok t as) := decidableObeys t as
      decidable_of_iff (ok s a ∧ Obeys next ok t as) (by simp [Obeys,h])

theorem run_cons : run next s (a :: as) = some u ↔
    ∃ t, next s a = some t ∧ run next t as = some u := by
  simp [run,Option.bind_eq_some_iff]

theorem run_append {as bs : List α} :
    run next s (as ++ bs) = (run next s as).bind (fun t => run next t bs) := by
  induction as generalizing s with
  | nil => rfl
  | cons a as ih =>
    rw [List.cons_append,run,run,Option.bind_assoc]
    congr 1
    funext t
    exact ih

theorem run_concat {as : List α} (hr : run next s as = some t) (hn : next t a = some u) :
    run next s (as ++ [a]) = some u := by
  rw [run_append,hr,Option.bind_some,run,hn]
  rfl

theorem obeys_true (s : σ) (as : List α) : Obeys next (fun _ _ => True) s as := by
  induction as generalizing s with
  | nil => trivial
  | cons a as ih => exact ⟨trivial,fun t _ => ih t⟩

/-- The invariant rule, with the emitted history as part of the invariant. -/
theorem invariant_trace (emit : σ → α → List ε) (inv : List ε → σ → Prop)
    (step : ∀ es s a t, inv es s → ok s a → next s a = some t → inv (es ++ emit s a) t)
    (es : List ε) (hr : run next s as = some t) (ho : Obeys next ok s as) (hs : inv es s) :
    inv (es ++ trace next emit s as) t := by
  induction as generalizing s es with
  | nil =>
    cases hr
    simpa [trace] using hs
  | cons a as ih =>
    obtain ⟨u,hu,hr⟩ := run_cons.mp hr
    have h := ih (es ++ emit s a) hr (ho.2 u hu) (step es s a u hs ho.1 hu)
    simpa [trace,hu] using h

theorem invariant (inv : σ → Prop)
    (step : ∀ s a t, inv s → ok s a → next s a = some t → inv t)
    (hr : run next s as = some t) (ho : Obeys next ok s as) (hs : inv s) : inv t :=
  invariant_trace (fun _ _ => ([] : List Unit)) (fun _ s => inv s) (fun _ => step) [] hr ho hs

/-- A measure that every step makes smaller bounds a run. -/
theorem run_bounded (inv : σ → Prop) (measure : σ → Nat)
    (step : ∀ s a t, inv s → next s a = some t → inv t ∧ measure t < measure s)
    (hr : run next s as = some t) (hs : inv s) : as.length + measure t ≤ measure s := by
  induction as generalizing s with
  | nil =>
    cases hr
    simp
  | cons a as ih =>
    obtain ⟨u,hu,hr⟩ := run_cons.mp hr
    obtain ⟨hinv,hlt⟩ := step s a u hs hu
    have hle := ih hr hinv
    rw [List.length_cons]
    omega

/-- With such a measure a goal is reached, if nothing but the goal is in the way of a step. -/
theorem run_reaches (inv goal : σ → Prop) (measure : σ → Nat)
    (step : ∀ s a t, inv s → next s a = some t → inv t ∧ measure t < measure s)
    (progress : ∀ s, inv s → ¬ goal s → ∃ a t, next s a = some t) (hs : inv s) :
    ∃ as t, run next s as = some t ∧ goal t := by
  induction hm : measure s using Nat.strongRecOn generalizing s with
  | _ m ih =>
    by_cases hg : goal s
    · exact ⟨[],s,rfl,hg⟩
    · obtain ⟨a,t,ht⟩ := progress s hs hg
      obtain ⟨hinv,hlt⟩ := step s a t hs ht
      obtain ⟨as,u,hr,hu⟩ := ih (measure t) (by omega) hinv rfl
      exact ⟨a :: as,u,run_cons.mpr ⟨t,ht,hr⟩,hu⟩

/-- Conditions that agree in the states of a run are obeyed alike. -/
theorem obeys_congr {ok' : σ → α → Prop} (inv : σ → Prop)
    (step : ∀ s a t, inv s → next s a = some t → inv t)
    (agree : ∀ s a t, inv s → next s a = some t → (ok s a ↔ ok' s a))
    (hr : run next s as = some u) (hs : inv s) : Obeys next ok s as ↔ Obeys next ok' s as := by
  induction as generalizing s with
  | nil => exact Iff.rfl
  | cons a as ih =>
    obtain ⟨t,ht,hr⟩ := run_cons.mp hr
    simp only [Obeys,ht,Option.some.injEq,forall_eq']
    exact and_congr (agree s a t hs ht) (ih hr (step s a t hs ht))

theorem obeys_last (h : Obeys next ok s (as ++ [a])) (hr : run next s as = some t) : ok t a := by
  induction as generalizing s with
  | nil =>
    cases hr
    exact h.1
  | cons b as ih =>
    obtain ⟨u,hu,hr⟩ := run_cons.mp hr
    exact ih (h.2 u hu) hr

theorem obeys_concat (h : Obeys next ok s as) (hr : run next s as = some t) (ha : ok t a) :
    Obeys next ok s (as ++ [a]) := by
  induction as generalizing s with
  | nil =>
    cases hr
    exact ⟨ha,fun _ _ => trivial⟩
  | cons b as ih =>
    obtain ⟨u,hu,hr⟩ := run_cons.mp hr
    refine ⟨h.1,fun v hv => ?_⟩
    rw [hu] at hv
    cases hv
    exact ih (h.2 u hu) hr

/-- Induction on a run from its end, with the run up to each state at hand. -/
theorem run_induction (inv : List α → σ → Prop) (start : inv [] s)
    (step : ∀ as t a u, run next s as = some t → inv as t → next t a = some u → inv (as ++ [a]) u)
    (hr : run next s as = some t) : inv as t := by
  induction as using List.reverseRecOn generalizing t with
  | nil =>
    cases hr
    exact start
  | append_singleton as a ih =>
    rw [run_append,Option.bind_eq_some_iff] at hr
    obtain ⟨u,hu,hr⟩ := hr
    obtain ⟨v,hv,hr⟩ := run_cons.mp hr
    cases hr
    exact step as u a _ hu (ih hu) hv

/-- Action `i` of a run is `a`, and the run is in state `u` before it. -/
def Happens (next : σ → α → Option σ) (s : σ) (as : List α) (i : Nat) (u : σ) (a : α) : Prop :=
  run next s (as.take i) = some u ∧ as[i]? = some a

theorem Happens.lt (h : Happens next s as i u a) : i < as.length :=
  (List.getElem?_eq_some_iff.mp h.2).1

theorem Happens.concat (h : Happens next s as i u a) : Happens next s (as ++ [b]) i u a := by
  refine ⟨?_,?_⟩
  · rw [List.take_append_of_le_length (Nat.le_of_lt h.lt)]
    exact h.1
  · rw [List.getElem?_append_left h.lt]
    exact h.2

theorem happens_last (hr : run next s as = some t) : Happens next s (as ++ [a]) as.length t a := by
  refine ⟨?_,List.getElem?_concat_length⟩
  rw [List.take_append_of_le_length (Nat.le_refl _),List.take_length]
  exact hr

/-- `p` holds at place `i` of a history and at no other. -/
def OnlyAt (p : ε → Prop) (es : List ε) (i : Nat) : Prop :=
  ∀ j, (∃ e, es[j]? = some e ∧ p e) ↔ j = i

theorem concat_get {es : List ε} {j : Nat} : (es ++ [e])[j]? = some d ↔
    es[j]? = some d ∨ (j = es.length ∧ d = e) := by
  rcases Nat.lt_trichotomy j es.length with hj | hj | hj
  · simp [List.getElem?_append_left hj,Nat.ne_of_lt hj]
  · subst hj
    simp [eq_comm]
  · have hs : (es ++ [e])[j]? = none := List.getElem?_eq_none (by simp; omega)
    simp [hs,List.getElem?_eq_none (Nat.le_of_lt hj),Nat.ne_of_gt hj]

theorem OnlyAt.concat {p : ε → Prop} (h : OnlyAt p es i) (hn : ¬ p e) : OnlyAt p (es ++ [e]) i := by
  intro j
  rw [← h j]
  constructor
  · intro hx
    obtain ⟨d,hd,hp⟩ := hx
    rcases concat_get.mp hd with hd | ⟨_,rfl⟩
    · exact ⟨d,hd,hp⟩
    · exact absurd hp hn
  · intro hx
    obtain ⟨d,hd,hp⟩ := hx
    exact ⟨d,concat_get.mpr (Or.inl hd),hp⟩

theorem onlyAt_last {p : ε → Prop} (hn : ∀ d ∈ es, ¬ p d) (hp : p e) :
    OnlyAt p (es ++ [e]) es.length := by
  intro j
  constructor
  · intro hx
    obtain ⟨d,hd,hp⟩ := hx
    rcases concat_get.mp hd with hd | ⟨hj,_⟩
    · exact absurd hp (hn d (List.mem_of_getElem? hd))
    · exact hj
  · intro hj
    exact ⟨e,concat_get.mpr (Or.inr ⟨hj,rfl⟩),hp⟩

end Runs
