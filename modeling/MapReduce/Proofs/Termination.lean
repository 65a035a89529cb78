import Mathlib
import MapReduce.Library.Fairness
import MapReduce.Proofs.Helpful

namespace MapReduce
open Runs

/-- No process is killed in the run, and every process that has something to do, or a
request under way, gets its turn. -/
structure FairRun (env : Setup) (r : Endless (System.step env) rest s) : Prop where
  unkilled : ∀ n p, r.Takes n → r.acts n ≠ .crash p
  turn : ∀ p, r.WeaklyFair (fun s => (s.pc p).running = true) (Action.drives p)

namespace Proofs
open Dispatch

variable {files : List String} {nReduce : Int} {b b' : Schedule files nReduce} {env : Setup}
variable {s t : System}

/-- What holds in every state of a run in which no process is killed. -/
structure Lively (env : Setup) (b : Schedule files nReduce) (s : System) : Prop where
  sound : Sound env b s
  alive : Alive env b s
  reading : ∀ p, Reading env s.fs (s.pc p)

/-- Every input file can be read, there is a partition, and every worker has an id. -/
structure Executable (env : Setup) (files : List String) (nReduce : Int) : Prop where
  partitions : 1 ≤ nReduce
  readable : ∀ f ∈ files, (env.input f).isSome = true
  named : ∀ p, (env.worker p).id ≠ ""

theorem Lively.safe (h : Lively env b s) (hx : Executable env files nReduce)
    (ha : ∀ p, a ≠ .crash p) : s.crashes env a = false := by
  cases a with
  | advance p =>
    cases he : next env p s.fs (s.pc p) with
    | none => simp [System.crashes,he]
    | some e =>
      have hd := h.sound.survives hx.partitions hx.readable (h.reading p) he
      simp only [System.crashes,he,Option.any_some]
  | crash p => exact absurd rfl (ha p)
  | serve _ | close _ => rfl

theorem Lively.step (h : Lively env b s) (hx : Executable env files nReduce)
    (ha : ∀ p, a ≠ .crash p) (hs : s.step env a = some t) :
    ∃ b' : Schedule files nReduce, Stepped env b s a b' t ∧ Lively env b' t := by
  obtain ⟨b',hst,hsound⟩ := h.sound.step hs
  exact ⟨b',hst,hsound,h.alive.step h.sound.custody hx.named hst (h.safe hx ha),
    hst.reading h.sound h.reading⟩

theorem start_lively (env : Setup) (nReduce : Int) (hf : files ≠ []) (fs : FileSystem) :
    Lively env (Board.blank : Schedule files nReduce) (System.start files nReduce fs) :=
  ⟨start_sound env nReduce hf fs,start_alive env nReduce fs,fun _ => trivial⟩

/-- Until the job is finished, once a process has started, some process is helpful. -/
theorem Lively.helper (h : Lively env b s) (hx : Executable env files nReduce)
    (ho : s.pc o ≠ .offline) (hp : s.coord.phase ≠ .finishedPhase) :
    ∃ p, s.pc p ≠ .offline ∧ Helpful b (s.pc p) := by
  have hr := h.sound.custody.refines
  have hpos := hx.partitions
  by_cases hready : b.Ready
  · by_cases hph : s.coord.phase = .reducePhase
    · obtain ⟨p,hj,hl⟩ := h.alive.going hph
      refine ⟨p,fun he => ?_,Or.inr ⟨hready,hl,h.alive.noDead p⟩⟩
      rw [he] at hj
      exact hj
    · refine ⟨o,ho,Or.inr ⟨hready,fun hl => ?_,h.alive.noDead o⟩⟩
      refine h.alive.excused o hl (fun hd => ?_) hready
      have hm := (not_congr hr.mapping).mpr (not_not.mpr hd)
      cases hphase : s.coord.phase with
      | unset => exact hr.known hphase
      | mapPhase => exact hm hphase
      | reducePhase => exact hph hphase
      | finishedPhase => exact hp hphase
  · have hc : ¬ b.Complete := fun hc => hp (hr.finished.mpr ⟨hc,by omega⟩)
    obtain ⟨k,hk⟩ := Board.stuck_pending hready hc
    obtain ⟨e,he,_⟩ := id hk
    obtain ⟨g,hg⟩ := entry_planned he
    obtain ⟨p,ht⟩ := h.alive.held k g hk hg
    refine ⟨p,fun he => ?_,Or.inl ⟨g,ht,plan_available hg⟩⟩
    rw [he] at ht
    cases ht

theorem Stepped.started (hs : Stepped env b s a b' t) (ho : s.pc p ≠ .offline) :
    t.pc p ≠ .offline := by
  cases hs with
  | advance hn =>
    rw [advanced_pc]
    split
    · have ha := advances hn
      generalize s.pc _ = pc at ha
      cases ha <;> exact fun he => by cases he
    · exact ho
  | serve _ _ hs =>
    rw [afterServe_pc]
    split
    · cases hs <;> exact fun he => by cases he
    · exact ho
  | serveDead _ _ _ =>
    rw [afterServe_pc]
    split
    · exact fun he => by cases he
    · exact ho
  | close _ =>
    rw [close_pc]
    exact ho
  | crash _ =>
    rw [setProc_pc]
    split
    · exact fun he => by cases he
    · exact ho

/-- A run with the board at every time. -/
structure Charted (env : Setup) (r : Endless (System.step env) rest s)
    (bs : Nat → Schedule files nReduce) : Prop where
  lively : ∀ n, Lively env (bs n) (r.states n)
  step : ∀ n, (r.Takes n ∧ Stepped env (bs n) (r.states n) (r.acts n) (bs (n + 1)) (r.states (n + 1))) ∨
    (¬ r.Takes n ∧ r.states (n + 1) = r.states n ∧ bs (n + 1) = bs n)

theorem fair_charted {fs : FileSystem} (hf : files ≠ [])
    (hx : Executable env files nReduce)
    {r : Endless (System.step env) rest (System.start files nReduce fs)} (hr : FairRun env r) :
    ∃ bs : Nat → Schedule files nReduce, Charted env r bs := by
  obtain ⟨bs,hl,hs⟩ := r.simulated (T := Stepped env) (start_lively env nReduce hf fs)
    (fun n b hb ht => hb.step hx (fun p => hr.unkilled n p ht) ht)
  exact ⟨bs,hl,hs⟩

section
variable {r : Endless (System.step env) rest s} {bs : Nat → Schedule files nReduce}

theorem Charted.moves (h : Charted env r bs) (n : Nat) : (bs n).Moves (bs (n + 1)) := by
  rcases h.step n with ⟨_,hs⟩ | ⟨_,_,hb⟩
  · exact hs.moves
  · rw [hb]
    exact .stay

theorem Charted.finished (h : Charted env r bs) (hn : (r.states n).coord.phase = .finishedPhase)
    (hm : n ≤ m) : (r.states m).coord.phase = .finishedPhase := by
  induction hm with
  | refl => exact hn
  | step _ ih =>
    exact finished_moves (h.lively _).sound.custody.refines (h.lively _).sound.custody.refines
      (h.moves _) ih

/-- One step of the run while process `p` is helpful. -/
theorem Charted.helps (h : Charted env r bs) (hx : Executable env files nReduce)
    (hr : FairRun env r) (ho : (r.states n).pc p ≠ .offline)
    (hh : Helpful (bs n) ((r.states n).pc p)) : (bs (n + 1)).work < (bs n).work ∨
      ((bs (n + 1) = bs n ∧ (r.states (n + 1)).pc p ≠ .offline ∧
        Helpful (bs n) ((r.states (n + 1)).pc p)) ∧
        r.Helps (Action.drives p) (fun k => ((r.states k).pc p).distance) n) := by
  rcases h.step n with ⟨ht,hs⟩ | ⟨ht,he,hb⟩
  · rcases hs.helps (h.lively n).sound.custody (hx.named p) (hr.unkilled n p ht)
      ((h.lively n).alive.noDead p) ((h.lively (n + 1)).alive.noDead p) hh with hw | ⟨hb,hh',hd⟩
    · exact Or.inl hw
    · refine Or.inr ⟨⟨hb,hs.started ho,hh'⟩,hd.imp_right (fun hx => ⟨?_,fun hx' => hx.2 hx'.1⟩)⟩
      simp only [hx.1]
  · refine Or.inr ⟨⟨hb,by rwa [he],by rwa [he]⟩,Or.inr ⟨?_,fun hx => ht hx.2⟩⟩
    simp only [he]

/-- Until the job is finished, work is taken off the board again and again. -/
theorem Charted.work_falls (h : Charted env r bs) (hx : Executable env files nReduce)
    (hr : FairRun env r) (ho : (r.states n).pc o ≠ .offline)
    (hp : (r.states n).coord.phase ≠ .finishedPhase) : ∃ m, n ≤ m ∧ (bs m).work < (bs n).work := by
  obtain ⟨p,hpo,hh⟩ := (h.lively n).helper hx ho hp
  refine r.leads_to (hr.turn p) (fun k => ((r.states k).pc p).distance)
    (p := fun k => bs k = bs n ∧ (r.states k).pc p ≠ .offline ∧ Helpful (bs k) ((r.states k).pc p))
    (fun k hk => hk.2.2.running hk.2.1 ((h.lively k).alive.noDead p)) (fun k hk => ?_)
    ⟨rfl,hpo,hh⟩
  obtain ⟨hb,hko,hkh⟩ := hk
  rcases h.helps hx hr hko hkh with hw | ⟨⟨hb',ho',hh'⟩,hhelps⟩
  · exact Or.inl (hb ▸ hw)
  · exact Or.inr ⟨⟨hb'.trans hb,ho',by rw [hb']; exact hh'⟩,hhelps⟩

theorem Charted.started (h : Charted env r bs) (ho : (r.states n).pc p ≠ .offline) (hm : n ≤ m) :
    (r.states m).pc p ≠ .offline := by
  induction hm with
  | refl => exact ho
  | step _ ih =>
    rcases h.step _ with ⟨_,hs⟩ | ⟨_,he,_⟩
    · exact hs.started ih
    · rwa [Nat.succ_eq_add_one,he]

/-- The work left is finite, so the job is finished at some time. -/
theorem Charted.finishes (h : Charted env r bs) (hx : Executable env files nReduce)
    (hr : FairRun env r) (ho : (r.states n).pc o ≠ .offline) :
    ∃ m, n ≤ m ∧ (r.states m).coord.phase = .finishedPhase := by
  generalize hw : (bs n).work = w
  induction w using Nat.strongRecOn generalizing n with
  | ind w ih =>
    by_cases hp : (r.states n).coord.phase = .finishedPhase
    · exact ⟨n,Nat.le_refl n,hp⟩
    · obtain ⟨m,hm,hlt⟩ := h.work_falls hx hr ho hp
      obtain ⟨k,hk,hf⟩ := ih _ (hw ▸ hlt) (h.started ho hm) rfl
      exact ⟨k,hm.trans hk,hf⟩

end

/-- Every fair run in which a worker starts and nobody is killed finishes the job. -/
theorem fair_runs_finish (env : Setup) {files : List String} {nReduce : Int} (hf : files ≠ [])
    (hx : Executable env files nReduce) (fs : FileSystem) {rest : System → Prop}
    (r : Endless (System.step env) rest (System.start files nReduce fs)) (hr : FairRun env r)
    {n o : Nat} (ho : (r.states n).pc o ≠ .offline) :
    ∃ m, ∀ k, m ≤ k → (r.states k).coord.phase = .finishedPhase := by
  obtain ⟨bs,h⟩ := fair_charted hf hx hr
  obtain ⟨m,_,hm⟩ := h.finishes hx hr ho
  exact ⟨m,fun k hk => h.finished hm hk⟩

theorem countSetup_executable : Executable countSetup ["pg.txt"] 1 where
  partitions := by decide
  readable f hf := by
    rw [List.mem_singleton.mp hf]
    rfl
  named p he := by
    have := congrArg String.toList he
    simp [countSetup] at this

theorem alone_others {fs : FileSystem} {actions : List Action}
    (hr : run (System.step env) (System.start files nReduce fs) actions = some t)
    (ha : ∀ a ∈ actions, a.process = 0) (p : Nat) : t.procs (p + 1) = {} := by
  refine run_other hr (fun a hm => ?_)
  rw [ha a hm]
  exact (Nat.succ_ne_zero p).symm

/-- A run of worker 0 alone that ends when it has left and closed its files. -/
structure Solo (actions : List Action) (t : System) : Prop where
  alone : ∀ a ∈ actions, a.process = 0
  alive : .crash 0 ∉ actions
  left : (t.pc 0).left = true
  closed : (t.procs 0).closing = []

section
variable {fs : FileSystem} {actions : List Action}
  (hr : run (System.step env) (System.start files nReduce fs) actions = some t)
include hr

theorem Solo.fair (h : Solo actions t) : FairRun env (halting actions (.advance 0) hr) where
  unkilled n p _ he := by
    have ha := halting_acts (a := .advance 0) hr n
    rw [he] at ha
    rcases List.mem_cons.mp ha with ha | ha
    · cases ha
    · have hp : p = 0 := h.alone _ ha
      subst hp
      exact h.alive ha
  turn p := by
    refine halting_fair hr (fun hrun => ?_)
    cases p with
    | zero =>
      have hleft := h.left
      cases hpc : t.pc 0 with
      | stopped =>
        rw [hpc] at hrun
        cases hrun
      | _ =>
        rw [hpc] at hleft
        cases hleft
    | succ p =>
      unfold System.pc at hrun
      rw [alone_others hr h.alone p] at hrun
      cases hrun

theorem Solo.closes (h : Solo actions t) (p : Nat) :
    (halting actions (.advance 0) hr).WeaklyFair (fun s => (s.procs p).closing ≠ [])
      (fun a => a = .close p) := by
  refine halting_fair hr (fun hne => hne ?_)
  cases p with
  | zero => exact h.closed
  | succ p => rw [alone_others hr h.alone p]

theorem Solo.starts (h : Solo actions t) :
    ((halting actions (.advance 0) hr).states actions.length).pc 0 ≠ .offline := by
  rw [halting_states hr (Nat.le_refl _)]
  intro he
  have hleft := h.left
  rw [he] at hleft
  cases hleft

end

theorem solo_of_run {s : Option System} {actions : List Action}
    (hr : s.map (fun s => ((s.pc 0).left,(s.procs 0).closing.isEmpty)) = some (true,true))
    (ha : ∀ a ∈ actions, a.process = 0) (hx : .crash 0 ∉ actions) :
    ∃ t, s = some t ∧ Solo actions t := by
  obtain ⟨t,ht,hp⟩ := Option.map_eq_some_iff.mp hr
  exact ⟨t,ht,ha,hx,(Prod.mk.inj hp).1,List.isEmpty_iff.mp (Prod.mk.inj hp).2⟩

theorem countRun_solo : ∃ s, countRun quietRun = some s ∧ Solo quietRun s :=
  solo_of_run (by decide +kernel) (by decide) (by simp [quietRun,soloRun,joins,works,reports])

/-- One worker does the job of one file and one partition and leaves. -/
theorem fair_runs_finish_solo :
    ∃ (r : Endless (System.step countSetup) (fun _ => True)
        (System.start ["pg.txt"] 1 Files.Store.empty)) (m : Nat),
      FairRun countSetup r ∧ ∀ k, m ≤ k → (r.states k).coord.phase = .finishedPhase := by
  obtain ⟨s,hs,hsolo⟩ := countRun_solo
  obtain ⟨m,hm⟩ := fair_runs_finish countSetup (by decide) countSetup_executable _ _
    (hsolo.fair hs) (hsolo.starts hs)
  exact ⟨_,m,hsolo.fair hs,hm⟩

end Proofs

end MapReduce
