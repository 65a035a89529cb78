import MapReduce.Library.Runs

namespace Runs
variable {σ α : Type}

/-- A run through all times of a system that may come to rest: where it has, nothing
changes any more and the actions say nothing. -/
structure Endless (next : σ → α → Option σ) (rest : σ → Prop) (s : σ) where
  states : Nat → σ
  acts : Nat → α
  start : states 0 = s
  step : ∀ n, next (states n) (acts n) = some (states (n + 1)) ∨
    (rest (states n) ∧ states (n + 1) = states n)

variable {next : σ → α → Option σ} {rest : σ → Prop} {s t : σ} {a : α} {as : List α}

theorem Endless.step_cases (r : Endless next rest s) (n : Nat) :
    next (r.states n) (r.acts n) = some (r.states (n + 1)) ∨ r.states (n + 1) = r.states n :=
  (r.step n).imp_right And.right

theorem Endless.reaches (r : Endless next rest s) (n : Nat) :
    ∃ as, run next s as = some (r.states n) := by
  induction n with
  | zero => exact ⟨[],by rw [r.start]; rfl⟩
  | succ n ih =>
    obtain ⟨as,has⟩ := ih
    rcases r.step_cases n with h | h
    · exact ⟨as ++ [r.acts n],run_concat has h⟩
    · exact ⟨as,by rw [h,has]⟩

/-- What holds at one time and is kept by every step holds at all later ones. -/
theorem Endless.persists (r : Endless next rest s) (p : σ → Prop)
    (keep : ∀ n, p (r.states n) → next (r.states n) (r.acts n) = some (r.states (n + 1)) →
      p (r.states (n + 1)))
    (hk : p (r.states k)) (h : k ≤ n) : p (r.states n) := by
  induction h with
  | refl => exact hk
  | step _ ih =>
    rename_i n _
    rcases r.step_cases n with h | h
    · exact keep n ih h
    · rwa [Nat.succ_eq_add_one,h]

theorem run_take (hr : run next s as = some t) (n : Nat) :
    ∃ u, run next s (as.take n) = some u ∧ run next u (as.drop n) = some t := by
  rw [← List.take_append_drop n as,run_append,Option.bind_eq_some_iff] at hr
  exact hr

/-- Step `n` of a finite run, with its last state for what comes after it. -/
theorem walk_next (hr : run next s as = some t) (hn : n < as.length) :
    next ((run next s (as.take n)).getD t) as[n] =
      some ((run next s (as.take (n + 1))).getD t) := by
  obtain ⟨u,hu,hd⟩ := run_take hr n
  rw [List.drop_eq_getElem_cons hn] at hd
  obtain ⟨v,hv,_⟩ := run_cons.mp hd
  have hs : run next s (as.take (n + 1)) = some v := by
    rw [List.take_add_one,List.getElem?_eq_getElem hn,Option.toList_some]
    exact run_concat hu hv
  rw [hu,hs]
  exact hv

theorem walk_end (hr : run next s as = some t) (hn : as.length ≤ n) :
    (run next s (as.take n)).getD t = t := by
  rw [List.take_of_length_le hn,hr,Option.getD_some]

/-- Step `n` of a finite run that goes on with an action that changes nothing. -/
theorem lasso_next (hr : run next s as = some t) (ha : next t a = some t) (n : Nat) :
    next ((run next s (as.take n)).getD t) (as[n]?.getD a) =
      some ((run next s (as.take (n + 1))).getD t) := by
  rcases Nat.lt_or_ge n as.length with hn | hn
  · rw [List.getElem?_eq_getElem hn]
    exact walk_next hr hn
  · rw [walk_end hr hn,walk_end hr (by omega),List.getElem?_eq_none hn]
    exact ha

/-- A finite run whose last state an action leads back to goes on with it for ever. -/
def lasso (as : List α) (a : α) (hr : run next s as = some t) (ha : next t a = some t) :
    Endless next rest s where
  states n := (run next s (as.take n)).getD t
  acts n := as[n]?.getD a
  start := rfl
  step n := Or.inl (lasso_next hr ha n)

theorem lasso_states (hr : run next s as = some t) (ha : next t a = some t)
    (h : as.length ≤ n) : (lasso as a hr ha : Endless next rest s).states n = t := by
  simp only [lasso,List.take_of_length_le h,hr,Option.getD_some]

theorem lasso_acts (hr : run next s as = some t) (ha : next t a = some t)
    (h : as.length ≤ n) : (lasso as a hr ha : Endless next rest s).acts n = a := by
  simp only [lasso,List.getElem?_eq_none h,Option.getD_none]

/-- Step `n` of a finite run that pauses for ever at its end. -/
theorem halting_next (hr : run next s as = some t) (n : Nat) :
    next ((run next s (as.take n)).getD t) (as[n]?.getD a) =
        some ((run next s (as.take (n + 1))).getD t) ∨
      (True ∧ (run next s (as.take (n + 1))).getD t = (run next s (as.take n)).getD t) := by
  rcases Nat.lt_or_ge n as.length with hn | hn
  · rw [List.getElem?_eq_getElem hn]
    exact Or.inl (walk_next hr hn)
  · rw [walk_end hr hn,walk_end hr (by omega)]
    exact Or.inr ⟨trivial,rfl⟩

/-- A finite run that pauses for ever at its end. -/
def halting (as : List α) (a : α) (hr : run next s as = some t) :
    Endless next (fun _ => True) s where
  states n := (run next s (as.take n)).getD t
  acts n := as[n]?.getD a
  start := rfl
  step := halting_next hr

theorem halting_states (hr : run next s as = some t) (h : as.length ≤ n) :
    (halting as a hr).states n = t :=
  walk_end hr h

theorem halting_acts (hr : run next s as = some t) (n : Nat) :
    (halting as a hr).acts n ∈ a :: as := by
  rcases Nat.lt_or_ge n as.length with hn | hn
  · simp [halting,List.getElem?_eq_getElem hn]
  · simp [halting,List.getElem?_eq_none hn]

end Runs
