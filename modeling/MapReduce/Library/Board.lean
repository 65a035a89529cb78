import Mathlib.Data.List.Basic
import Mathlib.Data.List.Count

namespace Dispatch

/-- A task that was handed out, with its holder. -/
structure Entry (ω : Type) where
  owner : ω
  done : Bool

/-- Tasks `0 .. first + second - 1` are handed out in order, one entry each, and
those from `first` on only when all earlier ones are done. -/
structure Board (ω : Type) (first second : Nat) where
  entries : List (Entry ω)
  bounded : entries.length ≤ first + second
  barrier : first < entries.length → ∀ k < first, ∀ e, entries[k]? = some e → e.done = true

namespace Board
variable {ω : Type} {first second : Nat}

def blank : Board ω first second := ⟨[],by simp,by simp⟩

def issued (b : Board ω first second) : Nat := b.entries.length

def Pending (b : Board ω first second) (k : Nat) : Prop :=
  ∃ e, b.entries[k]? = some e ∧ e.done = false

def Finished (b : Board ω first second) (k : Nat) : Prop :=
  ∃ e, b.entries[k]? = some e ∧ e.done = true

def FirstDone (b : Board ω first second) : Prop := ∀ k < first, b.Finished k

def Complete (b : Board ω first second) : Prop := ∀ k < first + second, b.Finished k

/-- Another task may be handed out. -/
def Ready (b : Board ω first second) : Prop :=
  b.issued < first ∨ (b.FirstDone ∧ b.issued < first + second)

theorem pending_lt {b : Board ω first second} (h : b.Pending k) : k < b.issued := by
  obtain ⟨e,he,_⟩ := h
  exact (List.getElem?_eq_some_iff.mp he).1

theorem finished_lt {b : Board ω first second} (h : b.Finished k) : k < b.issued := by
  obtain ⟨e,he,_⟩ := h
  exact (List.getElem?_eq_some_iff.mp he).1

theorem pending_or_finished {b : Board ω first second} (h : k < b.issued) :
    b.Pending k ∨ b.Finished k := by
  have he : b.entries[k]? = some b.entries[k] := List.getElem?_eq_getElem h
  cases hd : (b.entries[k]).done with
  | false => exact Or.inl ⟨_,he,hd⟩
  | true => exact Or.inr ⟨_,he,hd⟩

theorem not_finished_of_pending {b : Board ω first second} (hp : b.Pending k) :
    ¬ b.Finished k := by
  intro hx
  obtain ⟨e,he,hd⟩ := hx
  obtain ⟨e',he',hd'⟩ := hp
  rw [he] at he'
  cases he'
  rw [hd] at hd'
  contradiction

theorem complete_firstDone {b : Board ω first second} (h : b.Complete) : b.FirstDone :=
  fun k hk => h k (by omega)

theorem ready_lt {b : Board ω first second} (h : b.Ready) : b.issued < first + second := by
  rcases h with h | h
  · omega
  · exact h.2

theorem complete_not_ready {b : Board ω first second} (h : b.Complete) : ¬ b.Ready :=
  fun hr => Nat.lt_irrefl _ (finished_lt (h b.issued (ready_lt hr)))

theorem firstDone_issued {b : Board ω first second} (h : b.FirstDone) : first ≤ b.issued := by
  cases first with
  | zero => exact Nat.zero_le _
  | succ n => exact finished_lt (h n (Nat.lt_succ_self n))

theorem barrier_firstDone {b : Board ω first second} (h : first < b.issued) : b.FirstDone := by
  intro k hk
  rcases pending_or_finished (b := b) (k := k) (by omega) with ⟨e,he,hd⟩ | hf
  · have := b.barrier h k hk e he
    rw [hd] at this
    contradiction
  · exact hf

/-- What is pending while nothing more can be handed out lies in the open stage. -/
theorem stuck_first {b : Board ω first second} (hr : ¬ b.Ready) (hf : ¬ b.FirstDone) :
    ∃ k < first, b.Pending k := by
  by_contra hn
  apply hf
  intro k hk
  have hi : first ≤ b.issued := by
    by_contra hlt
    exact hr (Or.inl (by omega))
  rcases pending_or_finished (b := b) (k := k) (by omega) with hp | hd
  · exact absurd ⟨k,hk,hp⟩ hn
  · exact hd

/-- A board that can hand out nothing and is not complete waits for a holder. -/
theorem stuck_pending {b : Board ω first second} (hr : ¬ b.Ready) (hc : ¬ b.Complete) :
    ∃ k, b.Pending k := by
  by_cases hf : b.FirstDone
  · by_contra hn
    apply hc
    intro k hk
    have hi : first + second ≤ b.issued := by
      by_contra hlt
      exact hr (Or.inr ⟨hf,by omega⟩)
    rcases pending_or_finished (b := b) (k := k) (by omega) with hp | hd
    · exact absurd ⟨k,hp⟩ hn
    · exact hd
  · obtain ⟨k,_,hp⟩ := stuck_first hr hf
    exact ⟨k,hp⟩

def grant (b : Board ω first second) (w : ω) (h : b.Ready) : Board ω first second where
  entries := b.entries ++ [⟨w,false⟩]
  bounded := by
    have : b.issued < first + second := by
      rcases h with h | h
      · omega
      · exact h.2
    simp only [List.length_append,List.length_singleton]
    exact this
  barrier := by
    intro hl k hk e he
    have hi : first ≤ b.issued := by
      simp only [List.length_append,List.length_singleton] at hl
      exact Nat.le_of_lt_succ hl
    have hd : b.FirstDone := by
      rcases h with h | h
      · omega
      · exact h.1
    obtain ⟨e',he',hd'⟩ := hd k hk
    rw [List.getElem?_append_left (by exact Nat.lt_of_lt_of_le hk hi)] at he
    rw [he] at he'
    cases he'
    exact hd'

def finish (b : Board ω first second) (k : Nat) : Board ω first second where
  entries := b.entries.modify k (fun e => { e with done := true })
  bounded := by simpa using b.bounded
  barrier := by
    intro hl j hj e he
    rw [List.length_modify] at hl
    rw [List.getElem?_modify] at he
    obtain ⟨d,hd,rfl⟩ := Option.map_eq_some_iff.mp he
    split
    · rfl
    · exact b.barrier hl j hj d hd

@[simp] theorem grant_issued (b : Board ω first second) (w : ω) (h : b.Ready) :
    (b.grant w h).issued = b.issued + 1 := by simp [grant,issued]

@[simp] theorem finish_issued (b : Board ω first second) (k : Nat) :
    (b.finish k).issued = b.issued := by simp [finish,issued]

theorem grant_get (b : Board ω first second) (w : ω) (h : b.Ready) (j : Nat) :
    (b.grant w h).entries[j]? = if j = b.issued then some ⟨w,false⟩ else b.entries[j]? := by
  simp only [grant,issued,List.getElem?_append]
  rcases Nat.lt_trichotomy j b.entries.length with hj | hj | hj
  · simp [hj,Nat.ne_of_lt hj]
  · simp [hj]
  · have hs : j - b.entries.length ≠ 0 := by omega
    simp [Nat.not_lt_of_lt hj,Nat.ne_of_gt hj,hs]

theorem finish_get (b : Board ω first second) (k j : Nat) :
    (b.finish k).entries[j]? =
      b.entries[j]?.map (fun e => if k = j then { e with done := true } else e) := by
  simp only [finish,List.getElem?_modify]
  cases b.entries[j]? <;> simp

theorem grant_pending (b : Board ω first second) (w : ω) (h : b.Ready) :
    (b.grant w h).Pending j ↔ j = b.issued ∨ b.Pending j := by
  by_cases hj : j = b.issued
  · simp [Pending,grant_get,hj]
  · simp [Pending,grant_get,hj]

theorem grant_finished (b : Board ω first second) (w : ω) (h : b.Ready) :
    (b.grant w h).Finished j ↔ b.Finished j := by
  by_cases hj : j = b.issued
  · subst hj
    have hn : ¬ b.Finished b.issued := fun hf => Nat.lt_irrefl _ (finished_lt hf)
    simp only [hn,iff_false]
    intro hx
    obtain ⟨e,he,hd⟩ := hx
    rw [grant_get,if_pos rfl] at he
    cases he
    contradiction
  · simp [Finished,grant_get,hj]

theorem finish_pending (b : Board ω first second) (k : Nat) :
    (b.finish k).Pending j ↔ b.Pending j ∧ j ≠ k := by
  simp only [Pending,finish_get,Option.map_eq_some_iff]
  constructor
  · intro hx
    obtain ⟨e,⟨d,hd,rfl⟩,he⟩ := hx
    split at he
    · contradiction
    · exact ⟨⟨d,hd,he⟩,fun hj => by simp_all⟩
  · intro hx
    obtain ⟨⟨d,hd,he⟩,hj⟩ := hx
    exact ⟨d,⟨d,hd,by simp [Ne.symm hj]⟩,he⟩

theorem finish_finished (b : Board ω first second) (hk : k < b.issued) :
    (b.finish k).Finished j ↔ b.Finished j ∨ j = k := by
  simp only [Finished,finish_get,Option.map_eq_some_iff]
  constructor
  · intro hx
    obtain ⟨e,⟨d,hd,rfl⟩,he⟩ := hx
    by_cases hj : k = j
    · exact Or.inr hj.symm
    · simp only [hj,↓reduceIte] at he
      exact Or.inl ⟨d,hd,he⟩
  · intro hor
    rcases hor with ⟨d,hd,he⟩ | rfl
    · refine ⟨_,⟨d,hd,rfl⟩,?_⟩
      split
      · rfl
      · exact he
    · exact ⟨_,⟨b.entries[j],List.getElem?_eq_getElem hk,rfl⟩,by simp⟩

/-- What can happen to a board in one step. -/
inductive Moves (b : Board ω first second) : Board ω first second → Prop
  | stay : Moves b b
  | grant (w : ω) (h : b.Ready) : Moves b (b.grant w h)
  | finish (h : b.Pending k) : Moves b (b.finish k)

theorem Moves.finished {b b' : Board ω first second} (h : b.Moves b') (hf : b.Finished j) :
    b'.Finished j := by
  cases h with
  | stay => exact hf
  | grant w h => exact (grant_finished b w h).mpr hf
  | finish h => exact (finish_finished b (pending_lt h)).mpr (Or.inl hf)

theorem Moves.firstDone {b b' : Board ω first second} (h : b.Moves b') (hf : b.FirstDone) :
    b'.FirstDone :=
  fun k hk => h.finished (hf k hk)

theorem Moves.complete {b b' : Board ω first second} (h : b.Moves b') (hc : b.Complete) :
    b'.Complete :=
  fun k hk => h.finished (hc k hk)

/-- Work left: every task is still to be handed out once and to be finished once. -/
def work (b : Board ω first second) : Nat :=
  (first + second - b.issued) + (first + second - b.entries.countP Entry.done)

theorem countP_finish (es : List (Entry ω)) (k : Nat) (e : Entry ω) (he : es[k]? = some e)
    (hd : e.done = false) :
    (es.modify k (fun e => { e with done := true })).countP Entry.done =
      es.countP Entry.done + 1 := by
  induction es generalizing k with
  | nil => simp at he
  | cons x xs ih =>
    cases k with
    | zero =>
      simp only [List.getElem?_cons_zero,Option.some.injEq] at he
      subst he
      simp [hd]
    | succ k =>
      simp only [List.getElem?_cons_succ] at he
      simp only [List.modify_succ_cons,List.countP_cons,ih k he]
      omega

theorem work_grant (b : Board ω first second) (w : ω) (h : b.Ready) :
    (b.grant w h).work < b.work := by
  have hb : b.issued < first + second := by
    have := (b.grant w h).bounded
    simp only [grant,List.length_append,List.length_singleton] at this
    exact this
  have hc : (b.grant w h).entries.countP Entry.done = b.entries.countP Entry.done := by
    simp [grant]
  simp only [work,grant_issued,hc]
  omega

theorem work_finish {b : Board ω first second} (h : b.Pending k) :
    (b.finish k).work < b.work := by
  obtain ⟨e,he,hd⟩ := h
  have hc : (b.finish k).entries.countP Entry.done = b.entries.countP Entry.done + 1 :=
    countP_finish b.entries k e he hd
  have hl : (b.finish k).entries.countP Entry.done ≤ first + second :=
    Nat.le_trans List.countP_le_length (b.finish k).bounded
  simp only [work,finish_issued]
  omega

theorem Moves.work {b b' : Board ω first second} (h : b.Moves b') : b' = b ∨ b'.work < b.work := by
  cases h with
  | stay => exact Or.inl rfl
  | grant w h => exact Or.inr (work_grant b w h)
  | finish h => exact Or.inr (work_finish h)

/-- Completion is reached from every board by handing out and finishing. -/
theorem toward_complete {motive : Board ω first second → Prop}
    (complete : ∀ b, b.Complete → motive b)
    (grant : ∀ b (h : b.Ready), (∀ w, motive (b.grant w h)) → motive b)
    (finish : ∀ b k, b.Pending k → motive (b.finish k) → motive b)
    (b : Board ω first second) : motive b := by
  by_cases hr : b.Ready
  · exact grant b hr (fun w => toward_complete complete grant finish (b.grant w hr))
  · by_cases hc : b.Complete
    · exact complete b hc
    · obtain ⟨k,hk⟩ := stuck_pending hr hc
      exact finish b k hk (toward_complete complete grant finish (b.finish k))
termination_by b.work
decreasing_by
  · exact work_grant b w hr
  · exact work_finish hk

/-- `b'` is `b` with the tasks that are out and in `p` done. -/
def Marked (b : Board ω first second) (p : Nat → Prop) (b' : Board ω first second) : Prop :=
  b'.issued = b.issued ∧ ∀ (k : Nat) e, b.entries[k]? = some e →
    ∃ e', b'.entries[k]? = some e' ∧ e'.owner = e.owner ∧ (e'.done = true ↔ e.done = true ∨ p k)

theorem marked_stay {b : Board ω first second} (h : ∀ k, p k → ¬ b.Pending k) : b.Marked p b := by
  refine ⟨rfl,fun k e he => ⟨e,he,rfl,?_⟩⟩
  constructor
  · exact Or.inl
  · intro hor
    rcases hor with hd | hp
    · exact hd
    · by_contra hd
      exact h k hp ⟨e,he,by simpa using hd⟩

theorem marked_finish {b : Board ω first second} (h : ∀ k, p k ↔ k = j) :
    b.Marked p (b.finish j) := by
  refine ⟨finish_issued b j,?_⟩
  intro k e he
  refine ⟨_,by rw [finish_get,he,Option.map_some],?_⟩
  by_cases hk : j = k
  · subst hk
    simp [h]
  · simp [h,hk,Ne.symm hk]

theorem Marked.trans {b b₁ b₂ : Board ω first second} (h : b.Marked p b₁) (h' : b₁.Marked q b₂) :
    b.Marked (fun k => p k ∨ q k) b₂ := by
  refine ⟨h'.1.trans h.1,?_⟩
  intro k e he
  obtain ⟨e₁,he₁,ho₁,hd₁⟩ := h.2 k e he
  obtain ⟨e₂,he₂,ho₂,hd₂⟩ := h'.2 k e₁ he₁
  exact ⟨e₂,he₂,ho₂.trans ho₁,by rw [hd₂,hd₁,or_assoc]⟩

theorem Marked.unique {b b₁ b₂ : Board ω first second} (h₁ : b.Marked p b₁) (h₂ : b.Marked p b₂) :
    b₁ = b₂ := by
  have he : b₁.entries = b₂.entries := by
    apply List.ext_getElem?
    intro k
    cases hk : b.entries[k]? with
    | none =>
      have hl : b.issued ≤ k := List.getElem?_eq_none_iff.mp hk
      rw [List.getElem?_eq_none (by rw [← h₁.1] at hl; exact hl),
        List.getElem?_eq_none (by rw [← h₂.1] at hl; exact hl)]
    | some e =>
      obtain ⟨⟨o₁,d₁⟩,he₁,ho₁,hd₁⟩ := h₁.2 k e hk
      obtain ⟨⟨o₂,d₂⟩,he₂,ho₂,hd₂⟩ := h₂.2 k e hk
      have hd : d₁ = d₂ := Bool.eq_iff_iff.mpr (hd₁.trans hd₂.symm)
      rw [he₁,he₂,hd]
      cases ho₁
      cases ho₂
      rfl
  cases b₁
  cases b₂
  cases he
  rfl

end Board

end Dispatch
