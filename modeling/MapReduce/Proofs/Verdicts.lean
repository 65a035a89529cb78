import Mathlib
import MapReduce.Library.Runs
import MapReduce.Porcupine.Parallel
import MapReduce.Proofs.Checking

namespace MapReduce.Proofs
open MapReduce.Porcupine Runs

section
variable {ι ο σ : Type} (object : Object ι ο σ) (computeInfo timeout : Bool)

/-- The steps of `checkParallel` and its goroutines. -/
inductive ParallelStep (s : Parallel ι ο σ) : ParallelAction → Parallel ι ο σ → Prop
  | searched : s.goroutines[i]? = some (.running g) →
      g.round object computeInfo s.kill = some (.inl g') →
      ParallelStep s (.round i) { s with goroutines := s.goroutines.set i (.running g') }
  | returned : s.goroutines[i]? = some (.running g) →
      g.round object computeInfo s.kill = some (.inr v) →
      ParallelStep s (.round i) { s with goroutines := s.goroutines.set i (.returned v) }
  | panicked : s.goroutines[i]? = some (.running g) →
      g.round object computeInfo s.kill = none → ParallelStep s (.round i) { s with pc := .crashed }
  | sent : s.goroutines[i]? = some (.returned v) → ParallelStep s (.send i) { s with
      goroutines := s.goroutines.set i .sent
      longest := s.longest.set i v.longest
      results := s.results ++ [v.ok] }
  | received : s.pc = .loop → s.results = r :: results →
      ParallelStep s .receive (s.receive computeInfo r results)
  | drained : s.pc = .drain → s.results = r :: results →
      ParallelStep s .receive (.leave computeInfo { s with results, count := s.count + 1 })
  | timedOut : s.pc = .loop → timeout = true →
      ParallelStep s .timeout (.leave computeInfo { s with timedOut := true, kill := true })

/-- What the verdict of a goroutine says. -/
structure Judged (part : List (Entry ι ο)) (kill : Bool) (v : Verdict) : Prop where
  accepts : v.ok = true → LinearizableHistory object part
  refutes : v.ok = false → kill = true ∨ ¬ LinearizableHistory object part
  exact : computeInfo = true → kill = true ∨ Exact object part v.longest

/-- The results so far: `recv` were received and `pend` are in the channel, each with the
goroutine that it is from. -/
structure Gathered (parts : List (List (Entry ι ο))) (s : Parallel ι ο σ)
    (recv pend : List (Nat × Verdict)) : Prop where
  size : s.goroutines.length = parts.length
  running : ∀ (i : Nat) g part, s.goroutines[i]? = some (.running g) → parts[i]? = some part →
    ∃ d done rest, Searching object part computeInfo g d done rest
  returned : ∀ (i : Nat) v part, s.goroutines[i]? = some (.returned v) → parts[i]? = some part →
    Judged object computeInfo part s.kill v
  sent : ∀ i : Nat, s.goroutines[i]? = some .sent ↔ i ∈ (recv ++ pend).map Prod.fst
  nodup : ((recv ++ pend).map Prod.fst).Nodup
  judged : ∀ x ∈ recv ++ pend, ∀ part, parts[x.1]? = some part →
    Judged object computeInfo part s.kill x.2
  places : s.longest.length = parts.length
  noted : ∀ x ∈ recv ++ pend, s.longest[x.1]? = some x.2.longest
  count : recv.length = s.count
  results : pend.map (fun x => x.2.ok) = s.results
  illegal : s.ok = false → ∃ part ∈ parts, ¬ LinearizableHistory object part
  timed : s.timedOut = true → timeout = true

/-- The rounds that a search has left at most. -/
noncomputable def roundsLeft (part : List (Entry ι ο)) (g : Search ι ο σ) : Nat :=
  sInf { n | ∃ d done rest, Searching object part computeInfo g d done rest ∧
    searchWork part d.frames = n }

/-- What a goroutine has left to do. -/
noncomputable def Goroutine.cost (part : List (Entry ι ο)) : Goroutine ι ο σ → Nat
  | .running g => roundsLeft object computeInfo part g + 1
  | .returned _ => 1
  | .sent => 0

/-- The steps that `checkParallel` and its goroutines have left at most. -/
noncomputable def stepsLeft (parts : List (List (Entry ι ο))) (s : Parallel ι ο σ) : Nat :=
  2 * ∑ i ∈ Finset.range parts.length,
    ((s.goroutines[i]?).map (Goroutine.cost object computeInfo (parts[i]?.getD []))).getD 0 +
    s.results.length + if s.pc = .loop then 1 else 0

/-- The state of `checkParallel` between two steps. -/
structure Gathering (parts : List (List (Entry ι ο))) (s : Parallel ι ο σ)
    (recv pend : List (Nat × Verdict)) : Prop
    extends Gathered object computeInfo timeout parts s recv pend where
  loop : s.pc = .loop → s.kill = false ∧ s.ok = recv.all (fun x => x.2.ok) ∧
    (parts = [] ∨ s.count < parts.length)
  drain : s.pc = .drain → s.count < parts.length
  accepted : s.pc ≠ .loop → s.ok = true →
    s.timedOut = true ∨ ∀ part ∈ parts, LinearizableHistory object part
  alive : s.pc ≠ .crashed
  killed : s.kill = true → computeInfo = false ∨ s.timedOut = true
  drained : s.pc = .finished → computeInfo = true → parts.length ≤ s.count

/-- Every run from `s` on, whatever the order in which the goroutines get their turns and
whenever the time runs out, decides about `p`: no goroutine panics, the run has an end and is
not stuck before the result, and the result says nothing that is not so. -/
def Decides (s : Parallel ι ο σ) (p : Prop) : Prop :=
  ∃ bound, ∀ actions t, run (Parallel.next object computeInfo timeout) s actions = some t →
    actions.length ≤ bound ∧ t.pc ≠ .crashed ∧
    (t.pc ≠ .finished → ∃ a u, t.next object computeInfo timeout a = some u) ∧
    (t.pc = .finished → (t.result = .ok → p) ∧ (t.result = .illegal → ¬ p) ∧
      (t.result = .unknown → timeout = true))

end

variable {ι ο σ : Type} {object : Object ι ο σ} {computeInfo timeout : Bool}
  {s t : Parallel ι ο σ} {parts : List (List (Entry ι ο))} {recv pend : List (Nat × Verdict)}

theorem parallel_step {a : ParallelAction} (h : s.next object computeInfo timeout a = some t) :
    ParallelStep object computeInfo timeout s a t := by
  cases a with
  | round i =>
    simp only [Parallel.next] at h
    split at h
    · cases h
    · split at h
      · cases h
        exact .panicked ‹_› ‹_›
      · cases h
        exact .searched ‹_› ‹_›
      · cases h
        exact .returned ‹_› ‹_›
    · cases h
  | send i =>
    simp only [Parallel.next] at h
    split at h
    · cases h
    · cases h
      exact .sent ‹_›
    · cases h
  | receive =>
    simp only [Parallel.next] at h
    split at h
    · cases h
      exact .received ‹_› ‹_›
    · cases h
      exact .drained ‹_› ‹_›
    · cases h
  | timeout =>
    simp only [Parallel.next] at h
    split at h
    · split at h
      · cases h
        exact .timedOut ‹_› ‹_›
      · cases h
    · cases h

theorem Judged.mono {part : List (Entry ι ο)} {kill : Bool} {v : Verdict}
    (h : Judged object computeInfo part kill v) : Judged object computeInfo part true v :=
  ⟨h.accepts,fun _ => .inl rfl,fun _ => .inl rfl⟩

/-- One round of a goroutine, whatever it reads of the kill flag. -/
theorem Searching.judged {entries : List (Entry ι ο)} {g : Search ι ο σ}
    {d : DepthFirst.Search (List Int × σ) Int} {done : List Int} {rest : List (Nat × Entry ι ο)}
    (hc : Complete entries) (hr : object.Respects)
    (h : Searching object entries computeInfo g d done rest) (kill : Bool) :
    (∃ g' d' done' rest', g.round object computeInfo kill = some (.inl g') ∧
      Searching object entries computeInfo g' d' done' rest' ∧
      searchWork entries d'.frames < searchWork entries d.frames) ∨
    ∃ v, g.round object computeInfo kill = some (.inr v) ∧
      Judged object computeInfo entries kill v := by
  by_cases hnil : remaining entries done = []
  · have hseq := h.finds hc hnil
    refine .inr ⟨_,h.mirrors.finished hc hnil kill,fun _ => ⟨done,hseq⟩,fun hf => (by cases hf),
      fun _ => .inr ?_⟩
    rw [List.map_const',h.mirrors.longest]
    exact exact_of_order hc hseq
  · cases kill with
    | true => exact .inr ⟨_,h.mirrors.killed hnil,fun hf => (by cases hf),fun _ => .inl rfl,
        fun _ => .inl rfl⟩
    | false =>
      rcases h.round hc hr hnil with ⟨g',d',done',rest',hround,hmove,h'⟩ | ⟨hround,hset⟩
      · exact .inl ⟨g',d',done',rest',hround,h',h.less hmove⟩
      · refine .inr ⟨_,hround,fun hf => (by cases hf),fun _ => .inr (settled_refutes hset),?_⟩
        rintro rfl
        exact .inr (exact_of_settled hset h.recorded h.mirrors.longest)

theorem Gathered.part (h : Gathered object computeInfo timeout parts s recv pend) {i : Nat}
    {g : Goroutine ι ο σ} (hg : s.goroutines[i]? = some g) : ∃ part, parts[i]? = some part := by
  have hlt := (List.getElem?_eq_some_iff.mp hg).1
  rw [h.size] at hlt
  exact ⟨_,List.getElem?_eq_getElem hlt⟩

/-- A goroutine goes on, or is back from its search. -/
theorem Gathered.goes {i : Nat} {old new : Goroutine ι ο σ}
    (h : Gathered object computeInfo timeout parts s recv pend)
    (hold : s.goroutines[i]? = some old) (hn : old ≠ .sent) (hn' : new ≠ .sent)
    (hrun : ∀ g part, new = .running g → parts[i]? = some part →
      ∃ d done rest, Searching object part computeInfo g d done rest)
    (hret : ∀ v part, new = .returned v → parts[i]? = some part →
      Judged object computeInfo part s.kill v) :
    Gathered object computeInfo timeout parts { s with goroutines := s.goroutines.set i new }
      recv pend := by
  have hlt := (List.getElem?_eq_some_iff.mp hold).1
  have hcases : ∀ {j : Nat} {g}, (s.goroutines.set i new)[j]? = some g →
      j = i ∧ g = new ∨ s.goroutines[j]? = some g := by
    intro j g hj
    by_cases he : i = j
    · subst he
      rw [List.getElem?_set_self hlt] at hj
      exact .inl ⟨rfl,(Option.some.inj hj).symm⟩
    · rw [List.getElem?_set_ne he] at hj
      exact .inr hj
  refine ⟨by rw [List.length_set,h.size],?_,?_,?_,h.nodup,h.judged,h.places,h.noted,
    h.count,h.results,h.illegal,h.timed⟩
  · intro j g part hj hp
    rcases hcases hj with ⟨rfl,he⟩ | hj
    · exact hrun g part he.symm hp
    · exact h.running j g part hj hp
  · intro j v part hj hp
    rcases hcases hj with ⟨rfl,he⟩ | hj
    · exact hret v part he.symm hp
    · exact h.returned j v part hj hp
  · intro j
    rw [← h.sent j]
    by_cases he : i = j
    · subst he
      rw [List.getElem?_set_self hlt,hold]
      simp [hn,hn']
    · rw [List.getElem?_set_ne he]

/-- A goroutine puts its result into the channel. -/
theorem Gathered.sends {i : Nat} {v : Verdict}
    (h : Gathered object computeInfo timeout parts s recv pend)
    (hg : s.goroutines[i]? = some (.returned v)) :
    Gathered object computeInfo timeout parts { s with
      goroutines := s.goroutines.set i .sent
      longest := s.longest.set i v.longest
      results := s.results ++ [v.ok] } recv (pend ++ [(i,v)]) := by
  have hlt := (List.getElem?_eq_some_iff.mp hg).1
  have hnew : i ∉ (recv ++ pend).map Prod.fst := by
    intro hin
    rw [← h.sent i,hg] at hin
    cases hin
  have hother : ∀ {j : Nat} {g}, (s.goroutines.set i .sent)[j]? = some g → g ≠ .sent →
      s.goroutines[j]? = some g := by
    intro j g hj hne
    by_cases he : i = j
    · subst he
      rw [List.getElem?_set_self hlt] at hj
      exact absurd (Option.some.inj hj).symm hne
    · rwa [List.getElem?_set_ne he] at hj
  refine ⟨by rw [List.length_set,h.size],?_,?_,?_,?_,?_,by rw [List.length_set,h.places],?_,h.count,
    by simp [h.results],h.illegal,h.timed⟩
  · exact fun j g part hj hp => h.running j g part (hother hj (by simp)) hp
  · exact fun j w part hj hp => h.returned j w part (hother hj (by simp)) hp
  · intro j
    rw [← List.append_assoc,List.map_append,List.mem_append,← h.sent j]
    by_cases he : i = j
    · subst he
      simp [List.getElem?_set_self hlt]
    · simp [List.getElem?_set_ne he,Ne.symm he]
  · rw [← List.append_assoc,List.map_append]
    refine List.nodup_append.mpr ⟨h.nodup,by simp,?_⟩
    intro x hx y hy hxy
    have hi : y = i := by simpa using hy
    exact hnew (by rw [← hi,← hxy]; exact hx)
  · intro x hx part hp
    rw [← List.append_assoc] at hx
    rcases List.mem_append.mp hx with hx | hx
    · exact h.judged x hx part hp
    · rw [List.mem_singleton.mp hx] at hp ⊢
      exact h.returned i v part hg hp
  · intro x hx
    rw [← List.append_assoc] at hx
    rcases List.mem_append.mp hx with hx | hx
    · have hne : i ≠ x.1 := fun he => hnew (he ▸ List.mem_map_of_mem hx)
      rw [List.getElem?_set_ne hne]
      exact h.noted x hx
    · rw [List.mem_singleton.mp hx]
      refine List.getElem?_set_self ?_
      rw [h.places,← h.size]
      exact hlt

/-- All results are in once as many have been received as there are goroutines. -/
theorem Gathered.all_received (h : Gathered object computeInfo timeout parts s recv pend)
    (hall : parts.length ≤ recv.length) {i : Nat} {part : List (Entry ι ο)}
    (hi : parts[i]? = some part) : ∃ v, (i,v) ∈ recv := by
  have hsub : recv.map Prod.fst ⊆ List.range parts.length := by
    intro j hj
    have hsent := (h.sent j).mpr (by rw [List.map_append]; exact List.mem_append_left _ hj)
    rw [List.mem_range,← h.size]
    exact (List.getElem?_eq_some_iff.mp hsent).1
  have hn : (recv.map Prod.fst).Nodup := by
    have := h.nodup
    rw [List.map_append] at this
    exact (List.nodup_append.mp this).1
  have hperm := (hn.subperm hsub).perm_of_length_le (by simpa using hall)
  have hin : i ∈ recv.map Prod.fst :=
    hperm.mem_iff.mpr (List.mem_range.mpr (List.getElem?_eq_some_iff.mp hi).1)
  obtain ⟨x,hx,rfl⟩ := List.mem_map.mp hin
  exact ⟨x.2,hx⟩

theorem Gathered.all_judged (h : Gathered object computeInfo timeout parts s recv pend)
    (hall : parts.length ≤ recv.length) (hok : recv.all (fun x => x.2.ok) = true) :
    ∀ part ∈ parts, LinearizableHistory object part := by
  intro part hpart
  obtain ⟨i,hi⟩ := List.mem_iff_getElem?.mp hpart
  obtain ⟨v,hv⟩ := h.all_received hall hi
  exact (h.judged _ (List.mem_append_left _ hv) part hi).accepts (List.all_eq_true.mp hok _ hv)

theorem Gathered.kills (h : Gathered object computeInfo timeout parts s recv pend) :
    Gathered object computeInfo timeout parts { s with kill := true } recv pend :=
  ⟨h.size,h.running,fun i v part hg hp => (h.returned i v part hg hp).mono,h.sent,h.nodup,
    fun x hx part hp => (h.judged x hx part hp).mono,h.places,h.noted,h.count,h.results,h.illegal,
    h.timed⟩

theorem Gathered.leaves (h : Gathered object computeInfo timeout parts s recv pend) :
    Gathered object computeInfo timeout parts (s.leave computeInfo) recv pend :=
  ⟨h.size,h.running,h.returned,h.sent,h.nodup,h.judged,h.places,h.noted,h.count,h.results,h.illegal,
    h.timed⟩

/-- Where `checkParallel` is when it has left its loop. -/
theorem leave_pc (computeInfo : Bool) (s : Parallel ι ο σ) :
    (s.leave computeInfo).pc = .drain ∧ s.count < s.goroutines.length ∨
      (s.leave computeInfo).pc = .finished ∧
        (computeInfo = true → s.goroutines.length ≤ s.count) := by
  rw [Parallel.leave]
  by_cases hc : (computeInfo && decide (s.count < s.goroutines.length)) = true
  · refine .inl ⟨if_pos hc,?_⟩
    simpa using (Bool.and_eq_true_iff.mp hc).2
  · refine .inr ⟨if_neg hc,?_⟩
    simpa using hc

/-- Past the loop only a verdict that is justified can be given. -/
theorem Gathered.left (h : Gathered object computeInfo timeout parts s recv pend)
    (hacc : s.ok = true → s.timedOut = true ∨ ∀ part ∈ parts, LinearizableHistory object part)
    (hkill : s.kill = true → computeInfo = false ∨ s.timedOut = true) :
    Gathering object computeInfo timeout parts (s.leave computeInfo) recv pend := by
  refine ⟨h.leaves,fun hp => ?_,fun hp => ?_,fun _ => hacc,fun hp => ?_,hkill,fun hp hi => ?_⟩
  · rcases leave_pc computeInfo s with ⟨he,_⟩ | ⟨he,_⟩ <;> rw [he] at hp <;> cases hp
  · rcases leave_pc computeInfo s with ⟨_,hlt⟩ | ⟨he,_⟩
    · rw [← h.size]
      exact hlt
    · rw [he] at hp
      cases hp
  · rcases leave_pc computeInfo s with ⟨he,_⟩ | ⟨he,_⟩ <;> rw [he] at hp <;> cases hp
  · rcases leave_pc computeInfo s with ⟨he,_⟩ | ⟨_,hall⟩
    · rw [he] at hp
      cases hp
    · rw [← h.size]
      exact hall hi

/-- A result is taken out of the channel. -/
theorem Gathered.receives {r ok : Bool} {results : List Bool}
    (h : Gathered object computeInfo timeout parts s recv pend) (hres : s.results = r :: results)
    (hok : ok = false → ∃ part ∈ parts, ¬ LinearizableHistory object part) :
    ∃ x pend', x.2.ok = r ∧ pend = x :: pend' ∧ Gathered object computeInfo timeout parts
      { s with results, count := s.count + 1, ok } (recv ++ [x]) pend' := by
  cases pend with
  | nil =>
    have := h.results
    rw [hres] at this
    cases this
  | cons x pend =>
    have hr := h.results
    rw [hres,List.map_cons] at hr
    obtain ⟨hx,hrest⟩ := List.cons.inj hr
    have happ : (recv ++ [x]) ++ pend = recv ++ x :: pend := by simp
    refine ⟨x,pend,hx,rfl,h.size,h.running,h.returned,?_,?_,?_,h.places,?_,?_,hrest,hok,h.timed⟩
    · rw [happ]
      exact h.sent
    · rw [happ]
      exact h.nodup
    · rw [happ]
      exact h.judged
    · rw [happ]
      exact h.noted
    · simp [h.count]

/-- What a round of a goroutine can do: it never panics. -/
theorem Gathered.round (hc : ∀ part ∈ parts, Complete part) (hr : object.Respects)
    (h : Gathered object computeInfo timeout parts s recv pend) {i : Nat} {g : Search ι ο σ}
    (hg : s.goroutines[i]? = some (.running g)) : ∃ part, parts[i]? = some part ∧
      ((∃ g' d done rest, g.round object computeInfo s.kill = some (.inl g') ∧
        Searching object part computeInfo g' d done rest) ∨
      ∃ v, g.round object computeInfo s.kill = some (.inr v) ∧
        Judged object computeInfo part s.kill v) := by
  obtain ⟨part,hp⟩ := h.part hg
  obtain ⟨d,done,rest,hsearch⟩ := h.running i g part hg hp
  refine ⟨part,hp,?_⟩
  rcases hsearch.judged (hc part (List.mem_of_getElem? hp)) hr s.kill with
    ⟨g',d',done',rest',hround,hsearch',_⟩ | hv
  · exact .inl ⟨g',d',done',rest',hround,hsearch'⟩
  · exact .inr hv

/-- The loop receives a result. While it runs nobody was killed, so that a false one is a
refutation; with the last one it has heard of all. -/
theorem Gathering.receives {r : Bool} {results : List Bool}
    (h : Gathering object computeInfo timeout parts s recv pend) (hpc : s.pc = .loop)
    (hres : s.results = r :: results) : ∃ recv' pend',
      Gathering object computeInfo timeout parts (s.receive computeInfo r results) recv' pend' := by
  obtain ⟨hkill,hall,hcount⟩ := h.loop hpc
  have hbad : (s.ok && r) = false → ∃ part ∈ parts, ¬ LinearizableHistory object part := by
    intro hok
    cases hs : s.ok with
    | false => exact h.illegal hs
    | true =>
      obtain ⟨x,pend',hx,rfl,_⟩ := h.toGathered.receives hres h.illegal
      obtain ⟨part,hp⟩ := h.part ((h.sent x.1).mpr (List.mem_map_of_mem (by simp)))
      rw [hs,Bool.true_and] at hok
      have hj := (h.judged x (by simp) part hp).refutes (hx.trans hok)
      rw [hkill] at hj
      exact ⟨part,List.mem_of_getElem? hp,hj.resolve_left (by simp)⟩
  obtain ⟨x,pend',hx,_,hg⟩ := h.toGathered.receives hres hbad
  have hrecv : (s.ok && r) = (recv ++ [x]).all (fun x => x.2.ok) := by
    rw [hall,List.all_append,← hx]
    simp
  simp only [Parallel.receive]
  split
  · rename_i hstop
    rw [Bool.and_eq_true,Bool.not_eq_true',Bool.not_eq_true'] at hstop
    refine ⟨_,_,hg.kills.left (fun hok => ?_) (fun _ => .inl hstop.2)⟩
    rw [hstop.1] at hok
    cases hok
  · split
    · rename_i hlast
      refine ⟨_,_,hg.left (fun hok => .inr (hg.all_judged ?_ (hrecv ▸ hok))) h.killed⟩
      rw [hg.count,← h.size]
      exact hlast
    · rename_i hmore
      refine ⟨_,_,hg,fun _ => ⟨hkill,hrecv,.inr ?_⟩,fun hp => ?_,fun hp => absurd hpc hp,h.alive,
        h.killed,fun hp => ?_⟩
      · rw [← h.size]
        exact Nat.lt_of_not_le hmore
      · rw [hpc] at hp
        cases hp
      · rw [hpc] at hp
        cases hp

/-- Every step keeps the invariant, whatever the order of the goroutines. -/
theorem Gathering.step {a : ParallelAction} (hc : ∀ part ∈ parts, Complete part)
    (hr : object.Respects) (h : Gathering object computeInfo timeout parts s recv pend)
    (hs : ParallelStep object computeInfo timeout s a t) :
    ∃ recv' pend', Gathering object computeInfo timeout parts t recv' pend' := by
  cases hs with
  | searched hg hround =>
    obtain ⟨part,hp,⟨g',d,done,rest,hround',hsearch⟩ | ⟨v,hround',_⟩⟩ := h.round hc hr hg <;>
      rw [hround] at hround' <;> cases hround'
    refine ⟨recv,pend,h.goes hg (by simp) (by simp) ?_ (by simp),h.loop,h.drain,h.accepted,h.alive,
      h.killed,h.drained⟩
    rintro _ part' ⟨⟩ hp'
    rw [hp] at hp'
    cases hp'
    exact ⟨d,done,rest,hsearch⟩
  | returned hg hround =>
    obtain ⟨part,hp,⟨g',d,done,rest,hround',_⟩ | ⟨v,hround',hj⟩⟩ := h.round hc hr hg <;>
      rw [hround] at hround' <;> cases hround'
    refine ⟨recv,pend,h.goes hg (by simp) (by simp) (by simp) ?_,h.loop,h.drain,h.accepted,h.alive,
      h.killed,h.drained⟩
    rintro _ part' ⟨⟩ hp'
    rw [hp] at hp'
    cases hp'
    exact hj
  | panicked hg hround =>
    obtain ⟨part,_,⟨g',d,done,rest,hround',_⟩ | ⟨v,hround',_⟩⟩ := h.round hc hr hg <;>
      rw [hround] at hround' <;> cases hround'
  | sent hg => exact ⟨_,_,h.sends hg,h.loop,h.drain,h.accepted,h.alive,
      h.killed,h.drained⟩
  | received hpc hres => exact h.receives hpc hres
  | drained hpc hres =>
    obtain ⟨x,pend',_,_,hg⟩ := h.toGathered.receives hres h.illegal
    exact ⟨_,_,hg.left (h.accepted (by rw [hpc]; simp)) h.killed⟩
  | timedOut hpc htime =>
    have hk := h.kills
    have hg : Gathered object computeInfo timeout parts { s with timedOut := true, kill := true }
        recv pend := ⟨hk.size,hk.running,hk.returned,hk.sent,hk.nodup,hk.judged,hk.places,
      hk.noted,hk.count,hk.results,hk.illegal,fun _ => htime⟩
    exact ⟨_,_,hg.left (fun _ => .inl rfl) (fun _ => .inr rfl)⟩

theorem start_gathering (object : Object ι ο σ) (parts : List (List (Entry ι ο))) :
    Gathering object computeInfo timeout parts (Parallel.start object parts) [] [] := by
  have hget : ∀ {i : Nat} {g}, (Parallel.start object parts).goroutines[i]? = some g →
      ∃ part, parts[i]? = some part ∧ g = .running (Search.start object part) := by
    intro i g hg
    obtain ⟨part,hp,he⟩ := Option.map_eq_some_iff.mp ((List.getElem?_map ..).symm.trans hg)
    exact ⟨part,hp,he.symm⟩
  refine ⟨⟨List.length_map _,?_,?_,?_,List.nodup_nil,by simp,List.length_map _,by simp,rfl,rfl,
    fun h => (by cases h),fun h => (by cases h)⟩,fun _ => ⟨rfl,rfl,?_⟩,fun h => (by cases h),
    fun h => absurd rfl h,fun h => (by cases h),fun h => (by cases h),fun h => (by cases h)⟩
  · intro i g part hg hp
    obtain ⟨part',hp',he⟩ := hget hg
    rw [hp] at hp'
    cases hp'
    cases he
    exact ⟨_,_,_,start_searching object part⟩
  · intro i v part hg _
    obtain ⟨_,_,he⟩ := hget hg
    cases he
  · intro i
    refine ⟨fun hg => ?_,fun h => (by cases h)⟩
    obtain ⟨_,_,he⟩ := hget hg
    cases he
  · cases parts with
    | nil => exact .inl rfl
    | cons p parts => exact .inr (by simp [Parallel.start])

theorem reached_gathering (hc : ∀ part ∈ parts, Complete part) (hr : object.Respects)
    {actions : List ParallelAction}
    (hrun : run (Parallel.next object computeInfo timeout) (Parallel.start object parts) actions =
      some s) : ∃ recv pend, Gathering object computeInfo timeout parts s recv pend := by
  refine invariant (fun s => ∃ recv pend, Gathering object computeInfo timeout parts s recv pend)
    ?_ hrun (obeys_true _ _) ⟨[],[],start_gathering object parts⟩
  rintro s a t ⟨recv,pend,h⟩ _ hn
  exact h.step hc hr (parallel_step hn)

theorem roundsLeft_pos {part : List (Entry ι ο)} {g : Search ι ο σ}
    {d : DepthFirst.Search (List Int × σ) Int} {done : List Int} {rest : List (Nat × Entry ι ο)}
    (h : Searching object part computeInfo g d done rest) :
    0 < roundsLeft object computeInfo part g := by
  obtain ⟨d',done',rest',h',he⟩ := Nat.sInf_mem (s := { n | ∃ d done rest,
    Searching object part computeInfo g d done rest ∧ searchWork part d.frames = n }) ⟨_,d,done,rest,h,rfl⟩
  obtain ⟨fs,_,hframes⟩ := h'.mirrors.stack
  rw [roundsLeft,← he,hframes,searchWork,DepthFirst.work,List.map_cons,List.sum_cons]
  omega

theorem roundsLeft_less {part : List (Entry ι ο)} {g g' : Search ι ο σ} {kill : Bool}
    {d : DepthFirst.Search (List Int × σ) Int} {done : List Int} {rest : List (Nat × Entry ι ο)}
    (hc : Complete part) (hr : object.Respects)
    (h : Searching object part computeInfo g d done rest)
    (hround : g.round object computeInfo kill = some (.inl g')) :
    roundsLeft object computeInfo part g' < roundsLeft object computeInfo part g := by
  obtain ⟨d1,done1,rest1,h1,he⟩ := Nat.sInf_mem (s := { n | ∃ d done rest,
    Searching object part computeInfo g d done rest ∧ searchWork part d.frames = n }) ⟨_,d,done,rest,h,rfl⟩
  rcases h1.judged hc hr kill with ⟨g1,d2,done2,rest2,hround',h2,hlt⟩ | ⟨v,hround',_⟩
  · rw [hround] at hround'
    cases hround'
    calc roundsLeft object computeInfo part g' ≤ searchWork part d2.frames :=
          Nat.sInf_le ⟨d2,done2,rest2,h2,rfl⟩
      _ < searchWork part d1.frames := hlt
      _ = roundsLeft object computeInfo part g := he
  · rw [hround] at hround'
    cases hround'

/-- One goroutine gets on and the others stay. -/
theorem cost_set {i : Nat} {old : Goroutine ι ο σ} (new : Goroutine ι ο σ)
    {part : List (Entry ι ο)} (hold : s.goroutines[i]? = some old) (hp : parts[i]? = some part)
    (hlt : Goroutine.cost object computeInfo part new < Goroutine.cost object computeInfo part old) :
    ∑ j ∈ Finset.range parts.length, (((s.goroutines.set i new)[j]?).map
        (Goroutine.cost object computeInfo (parts[j]?.getD []))).getD 0 <
      ∑ j ∈ Finset.range parts.length, ((s.goroutines[j]?).map
        (Goroutine.cost object computeInfo (parts[j]?.getD []))).getD 0 := by
  have hi := (List.getElem?_eq_some_iff.mp hold).1
  refine Finset.sum_lt_sum (fun j _ => ?_) ⟨i,?_,?_⟩
  · by_cases he : i = j
    · subst he
      rw [List.getElem?_set_self hi,hold,hp]
      exact hlt.le
    · rw [List.getElem?_set_ne he]
  · exact Finset.mem_range.mpr (List.getElem?_eq_some_iff.mp hp).1
  · rw [List.getElem?_set_self hi,hold,hp]
    exact hlt

theorem stepsLeft_leave {n : Nat} (h : 2 * ∑ i ∈ Finset.range parts.length,
    ((s.goroutines[i]?).map (Goroutine.cost object computeInfo (parts[i]?.getD []))).getD 0 +
    s.results.length < n) : stepsLeft object computeInfo parts (s.leave computeInfo) < n := by
  have hpc : (s.leave computeInfo).pc ≠ .loop := by
    rcases leave_pc computeInfo s with ⟨he,_⟩ | ⟨he,_⟩ <;> rw [he] <;> simp
  rw [stepsLeft,if_neg hpc]
  exact h

/-- Every step leaves fewer to be done. -/
theorem Gathering.less {a : ParallelAction} (hc : ∀ part ∈ parts, Complete part)
    (hr : object.Respects) (h : Gathering object computeInfo timeout parts s recv pend)
    (hs : ParallelStep object computeInfo timeout s a t) :
    stepsLeft object computeInfo parts t < stepsLeft object computeInfo parts s := by
  cases hs with
  | searched hg hround =>
    obtain ⟨part,hp⟩ := h.part hg
    obtain ⟨d,done,rest,hsearch⟩ := h.running _ _ part hg hp
    have hlt := roundsLeft_less (hc part (List.mem_of_getElem? hp)) hr hsearch hround
    have hsum := cost_set (.running _) hg hp (Nat.add_lt_add_right hlt 1)
    simp only [stepsLeft]
    omega
  | @returned i v g hg hround =>
    obtain ⟨part,hp⟩ := h.part hg
    obtain ⟨d,done,rest,hsearch⟩ := h.running _ _ part hg hp
    have hpos := roundsLeft_pos hsearch
    have hsum := cost_set (.returned v) hg hp (Nat.lt_add_of_pos_left hpos)
    simp only [stepsLeft]
    omega
  | panicked hg hround =>
    obtain ⟨part,_,⟨g',d,done,rest,hround',_⟩ | ⟨v,hround',_⟩⟩ := h.round hc hr hg <;>
      rw [hround] at hround' <;> cases hround'
  | @sent i v hg =>
    obtain ⟨part,hp⟩ := h.part hg
    have hone : Goroutine.cost object computeInfo part .sent <
        Goroutine.cost object computeInfo part (.returned v) := Nat.zero_lt_one
    have hsum := cost_set .sent hg hp hone
    simp only [stepsLeft,List.length_append,List.length_singleton]
    omega
  | received hpc hres =>
    simp only [Parallel.receive]
    split
    · refine stepsLeft_leave ?_
      simp only [stepsLeft,hres,List.length_cons]
      omega
    · split
      · refine stepsLeft_leave ?_
        simp only [stepsLeft,hres,List.length_cons]
        omega
      · simp only [stepsLeft,hres,List.length_cons]
        omega
  | drained hpc hres =>
    refine stepsLeft_leave ?_
    simp only [stepsLeft,hres,List.length_cons]
    omega
  | timedOut hpc _ =>
    refine stepsLeft_leave ?_
    simp only [stepsLeft,if_pos hpc]
    omega

theorem gathering_step (hc : ∀ part ∈ parts, Complete part) (hr : object.Respects)
    (s : Parallel ι ο σ) (a : ParallelAction) (t : Parallel ι ο σ)
    (h : ∃ recv pend, Gathering object computeInfo timeout parts s recv pend)
    (hn : s.next object computeInfo timeout a = some t) :
    (∃ recv pend, Gathering object computeInfo timeout parts t recv pend) ∧
      stepsLeft object computeInfo parts t < stepsLeft object computeInfo parts s := by
  obtain ⟨recv,pend,h⟩ := h
  exact ⟨h.step hc hr (parallel_step hn),h.less hc hr (parallel_step hn)⟩

/-- Somebody can go on until `checkParallel` is through. -/
theorem Gathering.enabled (hc : ∀ part ∈ parts, Complete part) (hr : object.Respects)
    (hne : parts ≠ []) (h : Gathering object computeInfo timeout parts s recv pend)
    (hpc : s.pc ≠ .finished) : ∃ a t, s.next object computeInfo timeout a = some t := by
  by_cases hidle : ∀ i < parts.length, s.goroutines[i]? = some .sent
  · -- all results were sent, and not all were received
    have hlen : parts.length ≤ recv.length + pend.length := by
      have hsub : List.range parts.length ⊆ (recv ++ pend).map Prod.fst :=
        fun i hi => (h.sent i).mp (hidle i (List.mem_range.mp hi))
      simpa using List.Nodup.length_le_of_subset List.nodup_range hsub
    have hcount : s.pc = .loop ∨ s.pc = .drain → s.count < parts.length := by
      rintro (hp | hp)
      · exact (h.loop hp).2.2.resolve_left hne
      · exact h.drain hp
    have hresults : s.pc = .loop ∨ s.pc = .drain → ∃ r results, s.results = r :: results := by
      intro hp
      have hlt := hcount hp
      have hc' := h.count
      rw [← h.results]
      cases pend with
      | nil =>
        simp at hlen
        omega
      | cons x pend => exact ⟨_,_,rfl⟩
    cases hp : s.pc with
    | loop =>
      obtain ⟨r,results,hres⟩ := hresults (.inl hp)
      refine ⟨.receive,Option.isSome_iff_exists.mp ?_⟩
      simp only [Parallel.next,hp,hres,Option.isSome_some]
    | drain =>
      obtain ⟨r,results,hres⟩ := hresults (.inr hp)
      refine ⟨.receive,Option.isSome_iff_exists.mp ?_⟩
      simp only [Parallel.next,hp,hres,Option.isSome_some]
    | finished => exact absurd hp hpc
    | crashed => exact absurd hp h.alive
  · simp only [not_forall] at hidle
    obtain ⟨i,hi,hsent⟩ := hidle
    have hi' : i < s.goroutines.length := by rw [h.size]; exact hi
    cases hg : s.goroutines[i] with
    | sent => exact absurd (by rw [List.getElem?_eq_getElem hi',hg]) hsent
    | returned v =>
      have hget : s.goroutines[i]? = some (.returned v) := by rw [List.getElem?_eq_getElem hi',hg]
      refine ⟨.send i,Option.isSome_iff_exists.mp ?_⟩
      cases hp : s.pc with
      | crashed => exact absurd hp h.alive
      | _ => simp only [Parallel.next,hp,hget,Option.isSome_some]
    | running g =>
      have hget : s.goroutines[i]? = some (.running g) := by rw [List.getElem?_eq_getElem hi',hg]
      obtain ⟨part,_,⟨g',d,done,rest,hround,_⟩ | ⟨v,hround,_⟩⟩ := h.round hc hr hget
      all_goals
        refine ⟨.round i,Option.isSome_iff_exists.mp ?_⟩
        cases hp : s.pc with
        | crashed => exact absurd hp h.alive
        | _ => simp only [Parallel.next,hp,hget,hround,Option.isSome_some]

/-- A result that says something says what is so. -/
theorem Gathering.verdict (h : Gathering object computeInfo timeout parts s recv pend)
    (hpc : s.pc = .finished) :
    (s.result = .ok → ∀ part ∈ parts, LinearizableHistory object part) ∧
    (s.result = .illegal → ¬ ∀ part ∈ parts, LinearizableHistory object part) ∧
    (s.result = .unknown → timeout = true) := by
  have hacc := h.accepted (by rw [hpc]; simp)
  have hbad : s.ok = false → ¬ ∀ part ∈ parts, LinearizableHistory object part := by
    simpa using h.illegal
  have htime := h.timed
  rw [Parallel.result]
  cases hok : s.ok with
  | false => exact ⟨fun h => (by cases h),fun _ => hbad hok,fun h => (by cases h)⟩
  | true =>
    cases ht : s.timedOut with
    | true => exact ⟨fun h => (by cases h),fun h => (by cases h),fun _ => htime ht⟩
    | false => exact ⟨fun _ => (hacc hok).resolve_left (by simp [ht]),fun h => (by cases h),fun h => (by cases h)⟩

/-- `checkParallel` decides whether all parts are linearizable. -/
theorem checkParallel_decides (object : Object ι ο σ) (hr : object.Respects)
    {parts : List (List (Entry ι ο))} (hc : ∀ part ∈ parts, Complete part) (hne : parts ≠ [])
    (computeInfo timeout : Bool) : Decides object computeInfo timeout (Parallel.start object parts)
      (∀ part ∈ parts, LinearizableHistory object part) := by
  refine ⟨stepsLeft object computeInfo parts (Parallel.start object parts),fun actions s hrun => ?_⟩
  obtain ⟨recv,pend,h⟩ := reached_gathering hc hr hrun
  have hbound := run_bounded _ _ (gathering_step hc hr) hrun ⟨_,_,start_gathering object parts⟩
  exact ⟨by omega,h.alive,h.enabled hc hr hne,h.verdict⟩

theorem Decides.congr {p q : Prop} (h : Decides object computeInfo timeout s p) (hpq : p ↔ q) :
    Decides object computeInfo timeout s q := by
  rwa [propext hpq] at h

/-- It comes to a result unless there is nothing to check and no time to run out: then it
waits for ever for the first result. -/
theorem checkParallel_returns (object : Object ι ο σ) (hr : object.Respects)
    {parts : List (List (Entry ι ο))} (hc : ∀ part ∈ parts, Complete part)
    (computeInfo timeout : Bool) :
    (∃ actions s, run (Parallel.next object computeInfo timeout) (Parallel.start object parts)
      actions = some s ∧ s.pc = .finished) ↔ parts ≠ [] ∨ timeout = true := by
  constructor
  · rintro ⟨actions,s,hrun,hs⟩
    by_contra hneg
    obtain ⟨rfl,rfl⟩ : parts = [] ∧ timeout = false := by simpa using hneg
    cases actions with
    | nil =>
      cases hrun
      cases hs
    | cons a actions =>
      obtain ⟨t,ht,_⟩ := run_cons.mp hrun
      cases a with
      | _ => simp [Parallel.next,Parallel.start] at ht
  · intro h
    by_cases hne : parts = []
    · subst hne
      obtain rfl : timeout = true := h.resolve_left (not_not.mpr rfl)
      refine ⟨[.timeout],_,rfl,?_⟩
      simp [Parallel.leave,Parallel.start]
    · refine run_reaches _ _ _ (gathering_step hc hr) ?_ ⟨_,_,start_gathering object parts⟩
      rintro s ⟨recv,pend,hs⟩ hpc
      exact hs.enabled hc hr hne hpc

/-- With `computeInfo`, and unless the time runs out, a run ends with the longest beginnings of
orders for all operations of all parts, even when the history is not linearizable. -/
theorem checkParallel_longest (object : Object ι ο σ) (hr : object.Respects)
    {parts : List (List (Entry ι ο))} (hc : ∀ part ∈ parts, Complete part) (timeout : Bool)
    {actions : List ParallelAction} {s : Parallel ι ο σ}
    (hrun : run (Parallel.next object true timeout) (Parallel.start object parts) actions = some s)
    (hfin : s.pc = .finished) (htime : s.timedOut = false) {i : Nat} {part : List (Entry ι ο)}
    (hi : parts[i]? = some part) : ∃ l, s.longest[i]? = some l ∧ Exact object part l := by
  obtain ⟨recv,pend,h⟩ := reached_gathering hc hr hrun
  have hall := h.drained hfin rfl
  rw [← h.count] at hall
  obtain ⟨v,hv⟩ := h.all_received hall hi
  have hin := List.mem_append_left pend hv
  refine ⟨v.longest,h.noted _ hin,((h.judged _ hin part hi).exact rfl).resolve_left (fun hk => ?_)⟩
  rcases h.killed hk with hfalse | htrue
  · cases hfalse
  · rw [htime] at htrue
    cases htrue

theorem writeRead_run : ∃ s, run (Parallel.next register true false)
    (Parallel.start register [writeRead]) [.round 0,.round 0,.round 0,.send 0,.receive] = some s ∧
      s.pc = .finished ∧ s.timedOut = false ∧ s.longest = [[some [0,1],some [0,1]]] :=
  ⟨_,rfl,rfl,rfl,rfl⟩

theorem checkParallel_longest_writeRead :
    Exact register writeRead [some [0,1],some [0,1]] := by
  obtain ⟨s,hrun,hfin,htime,hl⟩ := writeRead_run
  obtain ⟨l,hget,hexact⟩ := checkParallel_longest register register_respects
    (fun part hp => List.mem_singleton.mp hp ▸ writeRead_complete) false hrun hfin htime
    (List.getElem?_cons_zero ..)
  rw [hl] at hget
  cases hget
  exact hexact

end MapReduce.Proofs
