import Mathlib.Order.WellFounded
import MapReduce.Library.Endless

namespace Runs
variable {σ α τ β : Type} {next : σ → α → Option σ} {rest : σ → Prop} {s : σ}

/-- Step `n` of the run is an action and not a pause. -/
def Endless.Takes (r : Endless next rest s) (n : Nat) : Prop :=
  next (r.states n) (r.acts n) = some (r.states (n + 1))

/-- Every state of a run is reached by a finite one, and by one that obeys a condition if
every action of the run does. -/
theorem Endless.reaches_obeying {ok : σ → α → Prop} (r : Endless next rest s)
    (hok : ∀ n, r.Takes n → ok (r.states n) (r.acts n)) (n : Nat) :
    ∃ as, run next s as = some (r.states n) ∧ Obeys next ok s as := by
  induction n with
  | zero => exact ⟨[],by rw [r.start]; rfl,trivial⟩
  | succ n ih =>
    obtain ⟨as,has,hobeys⟩ := ih
    rcases r.step_cases n with h | h
    · exact ⟨as ++ [r.acts n],run_concat has h,obeys_concat hobeys has (hok n h)⟩
    · exact ⟨as,by rw [h,has],hobeys⟩

/-- Weak fairness: one of the actions `mine` is taken after every time from which on they
stay enabled. -/
def Endless.WeaklyFair (r : Endless next rest s) (enabled : σ → Prop) (mine : α → Prop) : Prop :=
  ∀ n, (∀ k, n ≤ k → enabled (r.states k)) → ∃ k, n ≤ k ∧ mine (r.acts k) ∧ r.Takes k

/-- A run that pauses at its end is fair to whom nothing is left there. -/
theorem halting_fair {t : σ} {a : α} {as : List α} {enabled : σ → Prop} {mine : α → Prop}
    (hr : run next s as = some t) (hn : ¬ enabled t) :
    (halting as a hr).WeaklyFair enabled mine := by
  intro n h
  have hlast := h (max n as.length) (by omega)
  rw [halting_states hr (by omega)] at hlast
  exact absurd hlast hn

/-- One step while a helper is at work: it gets closer when it acts, and no other step
takes it back. -/
def Endless.Helps [LT β] (r : Endless next rest s) (mine : α → Prop) (rank : Nat → β) (n : Nat) :
    Prop :=
  rank (n + 1) < rank n ∨ (rank (n + 1) = rank n ∧ ¬ (mine (r.acts n) ∧ r.Takes n))

section
variable {enabled : σ → Prop} {mine : α → Prop} {p q : Nat → Prop} (r : Endless next rest s)

/-- What holds and is kept for as long as the goal is not reached is kept for ever where
the goal never is. -/
theorem Endless.holds_until (step : ∀ n, p n → q (n + 1) ∨ p (n + 1))
    (hq : ∀ m, n ≤ m → ¬ q m) (hn : p n) (h : n ≤ m) : p m := by
  induction h with
  | refl => exact hn
  | step hm ih =>
    rename_i m
    rcases step m ih with h | h
    · exact absurd h (hq _ (Nat.le_succ_of_le hm))
    · exact h

/-- Without the goal the rank never rises between two times. -/
theorem Endless.rank_le [Preorder β] {rank : Nat → β} (hp : ∀ m, n ≤ m → r.Helps mine rank m)
    (h : n ≤ m) : rank m ≤ rank n := by
  induction h with
  | refl => exact le_refl _
  | step hm ih =>
    rcases hp _ hm with h | ⟨h,_⟩
    · exact h.le.trans ih
    · exact h.le.trans ih

/-- The rule for a fair helper: while `p` holds the helper is enabled, each of its steps
lowers the rank or reaches the goal, and every other step keeps the rank or reaches it. -/
theorem Endless.leads_to [Preorder β] [WellFoundedLT β] (fair : r.WeaklyFair enabled mine)
    (rank : Nat → β) (ready : ∀ n, p n → enabled (r.states n))
    (step : ∀ n, p n → q (n + 1) ∨ (p (n + 1) ∧ r.Helps mine rank n)) (hn : p n) :
    ∃ m, n ≤ m ∧ q m := by
  by_contra hno
  have hq : ∀ m, n ≤ m → ¬ q m := fun m hm h => hno ⟨m,hm,h⟩
  have hkeep : ∀ m, n ≤ m → p m := fun m hm =>
    holds_until (fun k hk => (step k hk).imp_right And.left) hq hn hm
  have hhelp : ∀ m, n ≤ m → r.Helps mine rank m := by
    intro m hm
    rcases step m (hkeep m hm) with h | h
    · exact absurd h (hq _ (Nat.le_succ_of_le hm))
    · exact h.2
  -- by induction on the rank no time after `n` has it
  have hnone : ∀ v m, n ≤ m → rank m = v → False := by
    intro v
    induction v using WellFoundedLT.induction with
    | ind v ih =>
      intro m hm hv
      obtain ⟨k,hk,hmine,htake⟩ := fair m (fun k hk => ready k (hkeep k (hm.trans hk)))
      have hlt : rank (k + 1) < rank k := by
        rcases hhelp k (hm.trans hk) with h | ⟨_,h⟩
        · exact h
        · exact absurd ⟨hmine,htake⟩ h
      have hle : rank k ≤ rank m := r.rank_le (fun j hj => hhelp j (hm.trans hj)) hk
      exact ih _ (hv ▸ hlt.trans_le hle) (k + 1) (by omega) rfl
  exact hnone _ n (Nat.le_refl n) rfl

/-- A simulation of the steps gives an abstract state for every time of a run. -/
theorem Endless.simulated {R : τ → σ → Prop} {T : τ → σ → α → τ → σ → Prop} {b : τ} (start : R b s)
    (step : ∀ n b, R b (r.states n) → r.Takes n →
      ∃ b', T b (r.states n) (r.acts n) b' (r.states (n + 1)) ∧ R b' (r.states (n + 1))) :
    ∃ bs : Nat → τ, (∀ n, R (bs n) (r.states n)) ∧
      ∀ n, (r.Takes n ∧ T (bs n) (r.states n) (r.acts n) (bs (n + 1)) (r.states (n + 1))) ∨
        (¬ r.Takes n ∧ r.states (n + 1) = r.states n ∧ bs (n + 1) = bs n) := by
  have hstep : ∀ n (b : { b // R b (r.states n) }), ∃ b' : { b // R b (r.states (n + 1)) },
      (r.Takes n ∧ T b.1 (r.states n) (r.acts n) b'.1 (r.states (n + 1))) ∨
        (¬ r.Takes n ∧ r.states (n + 1) = r.states n ∧ b'.1 = b.1) := by
    intro n b
    by_cases ht : r.Takes n
    · obtain ⟨b',hT,hR⟩ := step n b.1 b.2 ht
      exact ⟨⟨b',hR⟩,Or.inl ⟨ht,hT⟩⟩
    · have he : r.states (n + 1) = r.states n := (r.step_cases n).resolve_left ht
      exact ⟨⟨b.1,by rw [he]; exact b.2⟩,Or.inr ⟨ht,he,rfl⟩⟩
  choose f hf using hstep
  have hstart : R b (r.states 0) := by rw [r.start]; exact start
  let bs : (n : Nat) → { b // R b (r.states n) } := fun n => Nat.rec ⟨b,hstart⟩ f n
  exact ⟨fun n => (bs n).1,fun n => (bs n).2,fun n => hf n (bs n)⟩

end

end Runs
