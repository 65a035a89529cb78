import Mathlib.Logic.Basic

namespace Loops

section
variable {σ : Type} (guard : σ → Bool) (body : σ → Option σ)

/-- `for guard { body }` for at most `fuel` rounds: `none` when the body fails, or when the
loop would go on. -/
def loop : Nat → σ → Option σ
  | 0,s => if guard s then none else some s
  | fuel + 1,s => if guard s then (body s).bind (loop fuel) else some s

end

variable {σ : Type} {guard : σ → Bool} {body : σ → Option σ}

theorem loop_exit (hg : guard s = false) (fuel : Nat) : loop guard body fuel s = some s := by
  cases fuel <;> simp [loop,hg]

theorem loop_round (hg : guard s = true) (hb : body s = some t) (fuel : Nat) :
    loop guard body (fuel + 1) s = loop guard body fuel t := by
  simp [loop,hg,hb]

/-- The rule of total correctness: the body keeps the invariant and lowers the measure, so
that the loop ends, without a failure, where the invariant holds and the guard does not. -/
theorem total (inv : σ → Prop) (measure : σ → Nat)
    (round : ∀ s, inv s → guard s = true → ∃ t, body s = some t ∧ inv t ∧ measure t < measure s)
    (hs : inv s) (hf : measure s ≤ n) :
    ∃ t, loop guard body n s = some t ∧ inv t ∧ guard t = false := by
  induction n generalizing s with
  | zero =>
    cases hg : guard s with
    | false => exact ⟨s,loop_exit hg 0,hs,hg⟩
    | true =>
      obtain ⟨t,_,_,hm⟩ := round s hs hg
      omega
  | succ n ih =>
    cases hg : guard s with
    | false => exact ⟨s,loop_exit hg _,hs,hg⟩
    | true =>
      obtain ⟨t,hb,ht,hm⟩ := round s hs hg
      rw [loop_round hg hb]
      exact ih ht (by omega)

end Loops
