import Mathlib
import MapReduce.Main
import MapReduce.Library.Endless
import MapReduce.Proofs.Deliveries

namespace MapReduce

/-- A run of the coordinator's process in which `main` goes on polling until it returns. -/
structure MainRun (int : IntSize) (files : List String) (nReduce : Int) extends
    Runs.Endless (Main.next int) (fun m => m.pc = .returned) (Main.start files nReduce) where
  polls : ∀ n, ∃ k, n ≤ k ∧ (acts k = .poll ∨ (states k).pc = .returned)

namespace MainRun
variable {int : IntSize} {files : List String} {nReduce : Int}

/-- `main` makes its call of `Done` at time `n`. -/
def DoneAt (r : MainRun int files nReduce) (n : Nat) : Prop :=
  (r.states n).pc = .calling ∧ r.acts n = .done

/-- At some poll the job is over, and it stays so. -/
def Finishes (r : MainRun int files nReduce) : Prop :=
  ∃ n, r.acts n = .poll ∧ ∀ k, n ≤ k → (r.states k).phase = .finishedPhase

/-- The loop is left only at a poll that the finished phase comes before, and it is left
when the job is over. -/
def ExitsInTime (r : MainRun int files nReduce) : Prop :=
  (∀ n, (r.states n).pc ≠ .returned → (r.states (n + 1)).pc = .returned →
    r.acts n = .poll ∧ (r.states n).phase = .finishedPhase) ∧
  (r.Finishes → ∃ n, (r.states n).pc = .returned)

end MainRun

/-- The phase that `main` goes by. -/
def MainPc.read : MainPc → Option CoordinatorPhase
  | .calling => none
  | .looping currentPhase => some currentPhase
  | .returned => some .finishedPhase

namespace Proofs

/-- What an event does to the process. -/
inductive Polled (int : IntSize) (m : Main) : Main.Event → Main → Prop
  | served (hp : m.pc ≠ .returned) (h : m.monitor.next int event = some monitor) :
      Polled int m (.coordinator event) { m with monitor := monitor }
  | called (hp : m.pc = .calling) : Polled int m .done { m with pc := .looping m.phase }
  | slept (hp : m.pc = .looping currentPhase) (hc : currentPhase ≠ .finishedPhase) :
      Polled int m .poll m
  | left (hp : m.pc = .looping .finishedPhase) : Polled int m .poll { m with pc := .returned }

theorem next_polled {m m' : Main} (h : m.next int event = some m') : Polled int m event m' := by
  cases event with
  | coordinator event =>
    simp only [Main.next] at h
    split at h
    · cases h
    · rename_i hp
      obtain ⟨monitor,hm,rfl⟩ := Option.map_eq_some_iff.mp h
      exact .served hp hm
  | done =>
    simp only [Main.next] at h
    split at h
    · rename_i hp
      cases h
      exact .called hp
    · cases h
  | poll =>
    simp only [Main.next] at h
    split at h
    · rename_i currentPhase hp
      split at h
      · rename_i hc
        cases h
        exact .slept hp hc
      · rename_i hc
        cases h
        rw [not_not.mp hc] at hp
        exact .left hp
    · cases h

section
variable {int : IntSize} {files : List String} {nReduce : Int} {m m' : Monitor}

theorem Monitored.finished (h : Monitored int m event m')
    (hr : Reachable files nReduce m.coordinator) (hp : m.coordinator.phase = .finishedPhase) :
    m'.coordinator.phase = .finishedPhase := by
  cases h with
  | ticked _ | copied | synced _ _ => exact hp
  | called =>
    by_cases hf : files = []
    · subst hf
      rw [(reach_empty hr).2.2] at hp
      cases hp
    · obtain ⟨b,hb⟩ := reach_refines hf hr
      obtain ⟨b',hh,hb',_⟩ := handle_spec hb _
      exact finished_moves hb hb' hh.moves hp

end

section
variable {int : IntSize} {files : List String} {nReduce : Int} {m m' : Main}

theorem Polled.finished (h : Polled int m event m')
    (hr : Reachable files nReduce m.monitor.coordinator) (hp : m.phase = .finishedPhase) :
    m'.phase = .finishedPhase := by
  cases h with
  | called _ | slept _ _ | left _ => exact hp
  | served _ hm => exact (next_monitored hm).finished hr hp

/-- `main` gets to know a phase from its call of `Done` and from nothing else. -/
theorem Polled.read (h : Polled int m event m') (hp : m'.pc.read = some p) :
    m.pc.read = some p ∨ (event = .done ∧ m.pc = .calling ∧ m.phase = p) := by
  cases h with
  | served _ _ | slept _ _ => exact Or.inl hp
  | called hc => exact Or.inr ⟨rfl,hc,Option.some.inj hp⟩
  | left hl =>
    rw [hl]
    exact Or.inl hp

theorem Polled.knows (h : Polled int m event m') (hp : m.pc.read = some p) :
    m'.pc.read = some p := by
  cases h with
  | served _ _ | slept _ _ => exact hp
  | called hc =>
    rw [hc] at hp
    cases hp
  | left hl =>
    rw [hl] at hp
    exact hp

/-- Only a poll that goes by the finished phase leaves the loop. -/
theorem Polled.exits (h : Polled int m event m') (hn : m.pc ≠ .returned) (hr : m'.pc = .returned) :
    event = .poll ∧ m.pc.read = some .finishedPhase := by
  cases h with
  | served _ _ | slept _ _ => exact absurd hr hn
  | called hc => cases hr
  | left hl => exact ⟨rfl,by rw [hl]; rfl⟩

variable (r : MainRun int files nReduce)

/-- What the coordinator of the process does is a run of its own. -/
theorem main_reachable (n : Nat) : Reachable files nReduce (r.states n).monitor.coordinator := by
  obtain ⟨as,hr⟩ := r.reaches n
  have hrun : ∃ events, Runs.run (Monitor.next int) (Monitor.start files nReduce) events =
      some (r.states n).monitor := by
    refine Runs.invariant (fun m => ∃ events,
      Runs.run (Monitor.next int) (Monitor.start files nReduce) events = some m.monitor) ?_ hr
      (Runs.obeys_true _ _) ⟨[],rfl⟩
    intro m event m' hm _ h
    obtain ⟨events,he⟩ := hm
    cases next_polled h with
    | called _ | slept _ _ | left _ => exact ⟨events,he⟩
    | served hp hs =>
      rename_i event monitor
      exact ⟨events ++ [event],Runs.run_concat he hs⟩
  obtain ⟨events,he⟩ := hrun
  exact ⟨int,events,_,he,rfl⟩

theorem finished_persists (hk : (r.states k).phase = .finishedPhase) (h : k ≤ n) :
    (r.states n).phase = .finishedPhase :=
  r.persists (fun m => m.phase = .finishedPhase)
    (fun n hp hs => (next_polled hs).finished (main_reachable r n) hp) hk h

theorem read_done (h : (r.states n).pc.read = some p) :
    ∃ k, k < n ∧ r.DoneAt k ∧ (r.states k).phase = p := by
  induction n with
  | zero =>
    rw [r.start] at h
    cases h
  | succ n ih =>
    have hearlier : (r.states n).pc.read = some p →
        ∃ k, k < n + 1 ∧ r.DoneAt k ∧ (r.states k).phase = p := by
      intro hr
      obtain ⟨k,hk,hd⟩ := ih hr
      exact ⟨k,Nat.lt_succ_of_lt hk,hd⟩
    rcases r.step_cases n with hs | hs
    · rcases (next_polled hs).read h with hr | ⟨ha,hp,hr⟩
      · exact hearlier hr
      · exact ⟨n,Nat.lt_succ_self n,⟨hp,ha⟩,hr⟩
    · rw [hs] at h
      exact hearlier h

/-- A call of `Done` that finds the job over is followed by the end of the loop. -/
theorem done_returns (hd : r.DoneAt k) (hk : (r.states k).phase = .finishedPhase) :
    ∃ n, (r.states n).pc = .returned := by
  obtain ⟨hp,ha⟩ := hd
  have hcalled : (r.states (k + 1)).pc.read = some .finishedPhase := by
    rcases r.step k with hs | ⟨hr,_⟩
    · rw [ha,Main.next,if_pos hp] at hs
      rw [← Option.some.inj hs]
      exact congrArg some hk
    · rw [hp] at hr
      cases hr
  obtain ⟨n,hn,hpoll⟩ := r.polls (k + 1)
  have hread : (r.states n).pc.read = some .finishedPhase :=
    r.persists (fun m => m.pc.read = some .finishedPhase)
      (fun n hp hs => (next_polled hs).knows hp) hcalled hn
  rcases hpoll with hpoll | hpoll
  · cases hpc : (r.states n).pc with
    | calling =>
      rw [hpc] at hread
      cases hread
    | returned => exact ⟨n,hpc⟩
    | looping currentPhase =>
      rw [hpc] at hread
      obtain rfl := Option.some.inj hread
      refine ⟨n + 1,?_⟩
      rcases r.step n with hs | ⟨hr,_⟩
      · simp only [hpoll,Main.next,hpc,ne_eq,not_true_eq_false,↓reduceIte,Option.some.injEq] at hs
        rw [← hs]
      · rw [hpc] at hr
        cases hr
  · exact ⟨n,hpoll⟩

/-- The loop of `main` ends when the job is over exactly where the job was over before it:
`main` asks for the phase once, before its first poll. -/
theorem loop_exits_iff (r : MainRun int files nReduce) :
    r.ExitsInTime ↔
      (r.Finishes → ∃ n, r.DoneAt n ∧ (r.states n).phase = .finishedPhase) := by
  constructor
  · intro h hf
    obtain ⟨n,hn⟩ := h.2 hf
    obtain ⟨k,_,hd⟩ := read_done r (n := n) (p := .finishedPhase) (by rw [hn]; rfl)
    exact ⟨k,hd⟩
  · intro h
    refine ⟨?_,?_⟩
    · intro n hn hret
      rcases r.step_cases n with hs | hs
      · obtain ⟨hpoll,hread⟩ := (next_polled hs).exits hn hret
        obtain ⟨k,hk,_,hp⟩ := read_done r hread
        exact ⟨hpoll,finished_persists r hp (Nat.le_of_lt hk)⟩
      · rw [hs] at hret
        exact absurd hret hn
    · intro hf
      obtain ⟨k,hd,hk⟩ := h hf
      exact done_returns r hd hk

end

/-- One worker does a job of one file and two partitions. -/
def jobEvents : List Main.Event :=
  [.registerWorker ⟨"worker-1","localhost","3001"⟩,
    .taskRequestByWorker ⟨"worker-1","localhost","3001"⟩,
    .taskUpdateByWorker ⟨"worker-1","task-0",.mapTask,.done⟩,
    .taskRequestByWorker ⟨"worker-1","localhost","3001"⟩,
    .taskUpdateByWorker ⟨"worker-1","task-0",.reduceTask,.done⟩,
    .taskRequestByWorker ⟨"worker-1","localhost","3001"⟩,
    .taskUpdateByWorker ⟨"worker-1","task-1",.reduceTask,.done⟩].map
      (fun call => .coordinator (.call call))

example : (Runs.run (Main.next .w64) (Main.start ["pg.txt"] 2)
    (jobEvents ++ [.done,.poll])).map Main.pc = some .returned := by decide

/-- `main` asks for the phase before the job is done, as it does when it has just made the
coordinator. -/
def finishedJob : Main :=
  (Runs.run (Main.next .w64) (Main.start ["pg.txt"] 2) (.done :: jobEvents)).get (by decide)

theorem finishedJob_run :
    Runs.run (Main.next .w64) (Main.start ["pg.txt"] 2) (.done :: jobEvents) = some finishedJob :=
  (Option.some_get _).symm

theorem finishedJob_poll : finishedJob.next .w64 .poll = some finishedJob := by decide

def pollingRun : MainRun .w64 ["pg.txt"] 2 where
  toEndless := Runs.lasso (.done :: jobEvents) .poll finishedJob_run finishedJob_poll
  polls n := ⟨n + 8,Nat.le_add_right n 8,
    Or.inl (Runs.lasso_acts finishedJob_run finishedJob_poll (Nat.le_add_left 8 n))⟩

/-- The job is over, and `main` goes on polling for ever. -/
theorem main_polls_forever : pollingRun.Finishes ∧ ¬ pollingRun.ExitsInTime := by
  have hlate : ∀ n, 8 ≤ n → pollingRun.states n = finishedJob :=
    fun n hn => Runs.lasso_states finishedJob_run finishedJob_poll hn
  have hover : pollingRun.Finishes := by
    refine ⟨8,Runs.lasso_acts finishedJob_run finishedJob_poll (Nat.le_refl 8),?_⟩
    intro k hk
    rw [hlate k hk]
    decide
  refine ⟨hover,?_⟩
  intro h
  obtain ⟨n,hn⟩ := h.2 hover
  have hread : (pollingRun.states (n + 8)).pc.read = some .finishedPhase :=
    pollingRun.persists (fun m => m.pc.read = some .finishedPhase)
      (fun _ hp hs => (next_polled hs).knows hp) (by rw [hn]; rfl) (Nat.le_add_right n 8)
  rw [hlate (n + 8) (Nat.le_add_left 8 n)] at hread
  exact absurd hread (by decide)

end Proofs

end MapReduce
