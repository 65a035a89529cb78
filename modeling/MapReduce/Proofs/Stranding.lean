import Mathlib
import MapReduce.Proofs.Termination

namespace MapReduce
open Runs

/-- Some continuation of the run brings the job to its end. -/
def System.finishable (env : Setup) (s : System) : Prop :=
  ∃ more t, run (System.step env) s more = some t ∧ t.coord.phase = .finishedPhase

/-- Every task that is out is with some process, or its report is under way. -/
def System.covered (s : System) : Prop :=
  (∀ job ∈ s.coord.mapTasks, job.status = .pending → ∃ p, s.holds .mapTask job.taskId p) ∧
  ∀ job ∈ s.coord.reduceTasks, job.status = .pending → ∃ p, s.holds .reduceTask job.taskId p

namespace Proofs
open Dispatch

variable {files : List String} {nReduce : Int} {b b' : Schedule files nReduce} {env : Setup}
variable {s t : System}

/-- `System.covered` by the tasks of the plan. -/
def Held (b : Schedule files nReduce) (s : System) : Prop :=
  ∀ k g, b.Pending k → (plan files nReduce)[k]? = some g → ∃ p, (s.pc p).task = some g

theorem holds_task {k : Nat} (hc : Custody env b s) (hg : (plan files nReduce)[k]? = some g) :
    s.holds g.type g.taskId p ↔ (s.pc p).task = some g := by
  constructor
  · intro hx
    obtain ⟨r,hr,ht,hid⟩ := hx
    rcases (hc.fair p).held hr with ⟨k',hk'⟩ | hn
    · have hkk := plan_inj hk'.1 hg ht hid
      subst hkk
      rw [hr,← hk'.1,hg]
    · rw [hn.unnamed] at hid
      rcases plan_cases hg with ⟨f,_,rfl⟩ | ⟨j,_,_,rfl⟩
      all_goals exact absurd hid.symm (taskName_ne_empty _)
  · exact fun ht => ⟨g,ht,rfl,rfl⟩

theorem covered_held (hc : Custody env b s) : s.covered ↔ Held b s := by
  constructor
  · intro hx k g hk hg
    obtain ⟨e,he,hd⟩ := hk
    rcases plan_cases hg with ⟨f,hf,rfl⟩ | ⟨j,rfl,hj,rfl⟩
    · have hjob := map_get hc.refines k
      rw [hf,Option.map_some] at hjob
      obtain ⟨p,hp⟩ := hx.1 _ (List.mem_of_getElem? hjob) (by simp [he,Job.issue,hd])
      rw [issue_taskId] at hp
      exact ⟨p,(holds_task hc hg).mp hp⟩
    · have hph : s.coord.phase ≠ .mapPhase := by
        intro hph
        refine hc.refines.mapping.mp hph (Board.barrier_firstDone ?_)
        have := (List.getElem?_eq_some_iff.mp he).1
        unfold Board.issued
        omega
      have hjob := reduce_get hc.refines hph j
      rw [if_pos hj] at hjob
      obtain ⟨p,hp⟩ := hx.2 _ (List.mem_of_getElem? hjob) (by simp [he,Job.issue,hd])
      rw [issue_taskId] at hp
      exact ⟨p,(holds_task hc hg).mp hp⟩
  · intro hx
    refine ⟨?_,?_⟩
    · intro job hj hp
      obtain ⟨i,f,hf,rfl⟩ := maps_job hc.refines.maps hj
      obtain ⟨e,he,hd,_⟩ := pending_entry rfl hp
      obtain ⟨p,ht⟩ := hx i _ ⟨e,he,hd⟩ (plan_map hf)
      rw [issue_taskId]
      exact ⟨p,(holds_task hc (plan_map hf)).mpr ht⟩
    · intro job hj hp
      obtain ⟨i,hi⟩ := List.mem_iff_getElem?.mp hj
      have hph : s.coord.phase ≠ .mapPhase := by
        intro hph
        simp [hc.refines.reduces,hph] at hj
      rw [reduce_get hc.refines hph i] at hi
      split at hi
      · cases hi
        obtain ⟨e,he,hd,_⟩ := pending_entry rfl hp
        obtain ⟨p,ht⟩ := hx _ _ ⟨e,he,hd⟩ (plan_reduce ‹_›)
        rw [issue_taskId]
        exact ⟨p,(holds_task hc (plan_reduce ‹_›)).mpr ht⟩
      · cases hi

/-- After a request is handled every task that is out is held, if a process that is sent a
task gets it. -/
theorem Served.held (hs : Served b s.coord (env.worker p) q b' c' a) (h : Held b s)
    (hc : Custody env b s) (hid : (env.worker p).id ≠ "") (hq : (s.pc p).request = some q)
    (hgot : ∀ g, (q.answered a).task = some g → pc.task = some g) :
    Held b' (afterServe s p pc c') := by
  intro k g hk hg
  have hkeep : b.Pending k → (s.pc p).task ≠ some g →
      ∃ o, ((afterServe s p pc c').pc o).task = some g := by
    intro hk hne
    obtain ⟨o,ho⟩ := h k g hk hg
    refine ⟨o,?_⟩
    rw [afterServe_pc,if_neg]
    · exact ho
    · intro he
      subst he
      exact hne ho
  -- A report by its holder would have been accepted and have changed the board.
  have hsame : b'.work = b.work → (s.pc p).task ≠ some g := by
    intro hw ht
    have := hs.reported hc hid hq ht (plan_available hg)
    omega
  cases hs with
  | registered _ _ _ | unknown _ | idle _ | rejected _ _ => exact hkeep hk (hsame rfl)
  | granted _ _ hr _ _ hplan =>
    rcases (Board.grant_pending b _ hr).mp hk with rfl | hk
    · refine ⟨p,?_⟩
      rw [afterServe_pc,if_pos rfl]
      refine hgot g ?_
      exact congrArg some (Option.some.inj (hplan.symm.trans hg))
    · refine hkeep hk (fun ht => ?_)
      cases request_task hq ht
  | accepted hr _ _ =>
    obtain ⟨hk,hne⟩ := (Board.finish_pending b _).mp hk
    refine hkeep hk (fun ht => hne ?_)
    cases request_task hq ht
    exact plan_inj hg (reports_held (hc.fair p) hq hr).2 rfl rfl

/-- Some process has not started yet, now and after every step. -/
theorem step_spare (hs : s.step env a = some t) (h : ∃ bound, ∀ p, bound ≤ p → s.pc p = .offline) :
    ∃ bound, ∀ p, bound ≤ p → t.pc p = .offline := by
  obtain ⟨bound,hb⟩ := h
  refine ⟨max bound (a.process + 1),fun p hp => ?_⟩
  have hproc := step_other hs (p := p) (by omega)
  unfold System.pc
  rw [hproc]
  exact hb p (by omega)

/-- What a state has from which the job can be brought to its end. -/
structure Recoverable (env : Setup) (b : Schedule files nReduce) (s : System) : Prop where
  sound : Sound env b s
  reading : ∀ p, Reading env s.fs (s.pc p)
  held : Held b s
  spare : ∃ bound, ∀ p, bound ≤ p → s.pc p = .offline

theorem Recoverable.step (h : Recoverable env b s) (hs : s.step env a = some t)
    (hheld : ∀ b' : Schedule files nReduce, Stepped env b s a b' t → Held b' t) :
    ∃ b' : Schedule files nReduce, Stepped env b s a b' t ∧ Recoverable env b' t := by
  obtain ⟨b',hst,hsound⟩ := h.sound.step hs
  exact ⟨b',hst,hsound,hst.reading h.sound h.reading,hheld b' hst,step_spare hs h.spare⟩

theorem Held.advance (h : Held b s) (hn : next env p s.fs (s.pc p) = some e)
    (hd : ∀ q, e.pc ≠ .dead q) : Held b (s.advanced p e) := by
  intro k g hk hg
  obtain ⟨o,ho⟩ := h k g hk hg
  refine ⟨o,?_⟩
  rw [advanced_pc]
  split
  · rename_i he
    subst he
    refine (advances hn).task_next ho ?_ hd
    rcases plan_cases hg with ⟨f,_,rfl⟩ | ⟨j,_,_,rfl⟩
    · exact Or.inl rfl
    · exact Or.inr rfl
  · exact ho

theorem next_total (env : Setup) (p : Nat) (fs : FileSystem) {pc : Pc} (hw : pc.request = none)
    (hs : pc ≠ .stopped) (hd : ∀ q, pc ≠ .dead q) : ∃ e, next env p fs pc = some e := by
  cases pc with
  | stopped => exact absurd rfl hs
  | dead q => exact absurd rfl (hd q)
  | waiting q => cases hw
  | mapRead r =>
    simp only [next]
    split
    · exact ⟨_,rfl⟩
    · split <;> exact ⟨_,rfl⟩
  | mapNext r parts q =>
    simp only [next]
    split <;> exact ⟨_,rfl⟩
  | mapWrite r parts q file pairs => cases pairs <;> exact ⟨_,rfl⟩
  | reduceRead r names acc =>
    cases names with
    | nil => exact ⟨_,rfl⟩
    | cons name names =>
      simp only [next]
      split <;> exact ⟨_,rfl⟩
  | reduceWrite r file records => cases records <;> exact ⟨_,rfl⟩
  | _ => exact ⟨_,rfl⟩

theorem helpful_not_stopped (h : Helpful b pc) : pc ≠ .stopped := by
  intro he
  subst he
  rcases h with ⟨g,hg,_⟩ | ⟨_,hl,_⟩
  · cases hg
  · exact hl trivial

/-- A process that is alive can take a step of its own or be answered, and lives on. -/
theorem Recoverable.turn (h : Recoverable env b s) (hx : Executable env files nReduce)
    (hs : s.pc p ≠ .stopped) (hd : ∀ q, s.pc p ≠ .dead q) :
    ∃ a t, Action.drives p a ∧ s.step env a = some t ∧ ∀ q, t.pc p ≠ .dead q := by
  cases hq : (s.pc p).request with
  | none =>
    obtain ⟨e,he⟩ := next_total env p s.fs hq hs hd
    refine ⟨.advance p,s.advanced p e,Or.inl rfl,by rw [System.step,he]; rfl,?_⟩
    rw [advanced_pc,if_pos rfl]
    exact h.sound.survives hx.partitions hx.readable (h.reading p) he
  | some q =>
    refine ⟨.serve p,s.served env p q,Or.inr rfl,by rw [System.step,hq]; rfl,?_⟩
    obtain ⟨b',hst,_⟩ := h.sound.step (a := .serve p) (t := s.served env p q)
      (by rw [System.step,hq]; rfl)
    generalize s.served env p q = t at hst ⊢
    cases hst with
    | serve _ _ hs =>
      rw [afterServe_pc,if_pos rfl]
      cases hs <;> exact fun _ he => by cases he
    | serveDead hq _ _ => exact absurd hq (hd _)

theorem Stepped.held (hst : Stepped env b s a b' t) (h : Held b s) (hc : Custody env b s)
    (hid : (env.worker p).id ≠ "") (ha : a.drives p) (hd : ∀ q, s.pc p ≠ .dead q)
    (hd' : ∀ q, t.pc p ≠ .dead q) : Held b' t := by
  cases hst with
  | advance hn =>
    rcases ha with he | he <;> cases he
    rw [advanced_pc,if_pos rfl] at hd'
    exact h.advance hn hd'
  | serve hq _ hs =>
    rcases ha with he | he <;> cases he
    exact hs.held h hc hid (by rw [hq]; rfl) (fun g hg => hg)
  | serveDead hq _ _ =>
    rcases ha with he | he <;> cases he
    exact absurd hq (hd _)
  | close _ | crash _ => rcases ha with he | he <;> cases he

/-- A helpful process that is alive can take work off the board all by itself. -/
theorem Recoverable.drive (h : Recoverable env b s) (hx : Executable env files nReduce)
    (hh : Helpful b (s.pc p)) (hd : ∀ q, s.pc p ≠ .dead q) :
    ∃ more t, ∃ b' : Schedule files nReduce, run (System.step env) s more = some t ∧
      Recoverable env b' t ∧ b'.work < b.work := by
  generalize hv : (s.pc p).distance = v
  induction v using WellFoundedLT.induction generalizing s with
  | ind v ih =>
    obtain ⟨a,t,ha,hs,hd'⟩ := h.turn hx (helpful_not_stopped hh) hd
    obtain ⟨b',hst,h'⟩ := h.step hs
      (fun b' hst => hst.held h.held h.sound.custody (hx.named p) ha hd hd')
    have hne : a ≠ .crash p := by rcases ha with rfl | rfl <;> exact fun he => by cases he
    rcases hst.helps h.sound.custody (hx.named p) hne hd hd' hh with hw | ⟨rfl,hh',hlt | ⟨_,hn⟩⟩
    · exact ⟨[a],t,b',by rw [run,hs]; rfl,h',hw⟩
    · obtain ⟨more,u,b'',hrun,hu,hw⟩ := ih _ (hv ▸ hlt) h' hh' hd' rfl
      exact ⟨a :: more,u,b'',run_cons.mpr ⟨t,hs,hrun⟩,hu,hw⟩
    · exact absurd ha hn

/-- The report that a process left behind when it died is accepted like any other. -/
theorem Stepped.buried (hst : Stepped env b s (.serve p) b' t) (h : Held b s)
    (hc : Custody env b s) (hid : (env.worker p).id ≠ "") (hd : s.pc p = .dead r)
    (ht : (s.pc p).task = some g) (hg : g.taskAvailable = true) :
    Held b' t ∧ b'.work < b.work := by
  cases hst with
  | serve hq _ _ =>
    rw [hd] at hq
    cases hq
  | serveDead hq _ hs =>
    have hreq := congrArg Pc.request hq
    refine ⟨hs.held h hc hid hreq (fun g' hg' => ?_),hs.reported hc hid hreq ht hg⟩
    cases request_task hreq ht
    cases hs <;> cases hg'

theorem dead_request {pc : Pc} (hd : pc = .dead r) (ht : pc.task = some g) :
    pc.request = some (.update g) := by
  subst hd
  rcases r with _ | _ | _ | r
  · cases ht
  · cases ht
  · cases ht
  · cases ht
    rfl

/-- Every task that is out gets done, with the processes that are there. -/
theorem Recoverable.settle (h : Recoverable env b s) (hx : Executable env files nReduce)
    (hk : b.Pending k) : ∃ more t, ∃ b' : Schedule files nReduce,
      run (System.step env) s more = some t ∧ Recoverable env b' t ∧ b'.work < b.work := by
  obtain ⟨e,he,_⟩ := id hk
  obtain ⟨g,hg⟩ := entry_planned he
  obtain ⟨p,ht⟩ := h.held k g hk hg
  by_cases hd : ∃ r, s.pc p = .dead r
  · obtain ⟨r,hr⟩ := hd
    obtain ⟨t,hs⟩ : ∃ t, s.step env (.serve p) = some t :=
      ⟨_,by rw [System.step,dead_request hr ht]; rfl⟩
    have hburied : ∀ b' : Schedule files nReduce, Stepped env b s (.serve p) b' t →
        Held b' t ∧ b'.work < b.work := fun b' hst =>
      hst.buried h.held h.sound.custody (hx.named p) hr ht (plan_available hg)
    obtain ⟨b',hst,h'⟩ := h.step hs (fun b' hst => (hburied b' hst).1)
    exact ⟨[.serve p],t,b',by rw [run,hs]; rfl,h',(hburied b' hst).2⟩
  · exact h.drive hx (p := p) (Or.inl ⟨g,ht,plan_available hg⟩) (fun r hr => hd ⟨r,hr⟩)

/-- A process that has not started can take the next task. -/
theorem Recoverable.enlist (h : Recoverable env b s) (hx : Executable env files nReduce)
    (hr : b.Ready) : ∃ more t, ∃ b' : Schedule files nReduce,
      run (System.step env) s more = some t ∧ Recoverable env b' t ∧ b'.work < b.work := by
  obtain ⟨bound,hb⟩ := h.spare
  have hoff : s.pc bound = .offline := hb bound (Nat.le_refl _)
  refine h.drive hx (p := bound) (Or.inr ⟨hr,?_,?_⟩) ?_
  · rw [hoff]
    exact id
  · rw [hoff]
    exact fun _ he => by cases he
  · rw [hoff]
    exact fun _ he => by cases he

theorem Recoverable.finishable (h : Recoverable env b s) (hx : Executable env files nReduce) :
    s.finishable env := by
  generalize hw : b.work = w
  induction w using Nat.strongRecOn generalizing b s with
  | ind w ih =>
    have hon : (∃ more t, ∃ b' : Schedule files nReduce, run (System.step env) s more = some t ∧
        Recoverable env b' t ∧ b'.work < b.work) → s.finishable env := by
      intro hex
      obtain ⟨more,t,b',hrun,h',hlt⟩ := hex
      obtain ⟨more',u,hrun',hf⟩ := ih _ (hw ▸ hlt) h' rfl
      exact ⟨more ++ more',u,by rw [run_append,hrun]; exact hrun',hf⟩
    by_cases hr : b.Ready
    · exact hon (h.enlist hx hr)
    · by_cases hc : b.Complete
      · have hpos := hx.partitions
        exact ⟨[],s,rfl,h.sound.custody.refines.finished.mpr ⟨hc,by omega⟩⟩
      · obtain ⟨k,hk⟩ := Board.stuck_pending hr hc
        exact hon (h.settle hx hk)

/-- The task is out and nobody has it. -/
structure Stranded (b : Schedule files nReduce) (s : System) (k : Nat) : Prop where
  pending : b.Pending k
  nobody : ∀ g, (plan files nReduce)[k]? = some g → ∀ p, (s.pc p).task ≠ some g

theorem Served.stranded (hs : Served b s.coord (env.worker p) q b' c' a) (hc : Custody env b s)
    (hq : (s.pc p).request = some q) (h : Stranded b s k)
    (hpc : ∀ g, g.taskAvailable = true → pc.task = some g → (q.answered a).task = some g) :
    Stranded b' (afterServe s p pc c') k where
  pending := by
    cases hs with
    | registered _ _ _ | unknown _ | idle _ | rejected _ _ => exact h.pending
    | granted _ _ hr _ _ _ => exact (Board.grant_pending b _ hr).mpr (Or.inr h.pending)
    | accepted hr _ _ =>
      refine (Board.finish_pending b _).mpr ⟨h.pending,fun he => ?_⟩
      subst he
      obtain ⟨ht,hplan⟩ := reports_held (hc.fair p) hq hr
      exact h.nobody _ hplan p ht
  nobody g hg o ho := by
    rw [afterServe_pc] at ho
    split at ho
    · have hav := plan_available hg
      have ht := hpc g hav ho
      cases hs with
      | granted _ _ _ _ _ hplan =>
        cases ht
        have := plan_inj hg hplan rfl rfl
        have := Board.pending_lt h.pending
        omega
      | unknown _ | idle _ =>
        cases ht
        cases hav
      | registered _ _ _ | rejected _ _ | accepted _ _ _ => cases ht
    · exact h.nobody g hg o ho

/-- No step brings back a task that nobody has. -/
theorem Stepped.stranded (hst : Stepped env b s a b' t) (hc : Custody env b s)
    (h : Stranded b s k) : Stranded b' t k := by
  cases hst with
  | advance hn =>
    refine ⟨h.pending,fun g hg o ho => ?_⟩
    rw [advanced_pc] at ho
    split at ho
    · exact h.nobody g hg _ ((advances hn).task ho)
    · exact h.nobody g hg o ho
  | serve hq _ hs => exact hs.stranded hc (by rw [hq]; rfl) h (fun _ _ ht => ht)
  | serveDead hq _ hs => exact hs.stranded hc (by rw [hq]; rfl) h (fun _ _ ht => by cases ht)
  | close _ =>
    refine ⟨h.pending,fun g hg o => ?_⟩
    rw [close_pc]
    exact h.nobody g hg o
  | crash _ =>
    refine ⟨h.pending,fun g hg o ho => ?_⟩
    rw [setProc_pc] at ho
    split at ho
    · exact h.nobody g hg _ (crash_task ho)
    · exact h.nobody g hg o ho

theorem Stranded.unfinished (h : Stranded b s k) (hs : Sound env b s)
    (hr : run (System.step env) s more = some t) : t.coord.phase ≠ .finishedPhase := by
  have hinv : ∃ b : Schedule files nReduce, Sound env b t ∧ Stranded b t k := by
    refine invariant (fun t => ∃ b : Schedule files nReduce, Sound env b t ∧ Stranded b t k)
      (fun s a t hx _ hs => ?_) hr (obeys_true _ _) ⟨b,hs,h⟩
    obtain ⟨b,hb,h⟩ := hx
    obtain ⟨b',hst,hb'⟩ := hb.step hs
    exact ⟨b',hb',hst.stranded hb.custody h⟩
  obtain ⟨b,hb,h⟩ := hinv
  intro hp
  have hlt : k < files.length + nReduce.toNat :=
    Nat.lt_of_lt_of_le (Board.pending_lt h.pending) b.bounded
  exact Board.not_finished_of_pending h.pending ((hb.custody.refines.finished.mp hp).1 k hlt)

theorem reached_recoverable {fs : FileSystem} (hf : files ≠ [])
    (hr : run (System.step env) (System.start files nReduce fs) actions = some s) :
    ∃ b : Schedule files nReduce, Sound env b s ∧ (∀ p, Reading env s.fs (s.pc p)) ∧
      ∃ bound, ∀ p, bound ≤ p → s.pc p = .offline := by
  refine invariant (fun s => ∃ b : Schedule files nReduce, Sound env b s ∧
    (∀ p, Reading env s.fs (s.pc p)) ∧ ∃ bound, ∀ p, bound ≤ p → s.pc p = .offline)
    (fun s a t hx _ hs => ?_) hr (obeys_true _ _)
    ⟨_,start_sound env nReduce hf fs,fun _ => trivial,0,fun _ _ => rfl⟩
  obtain ⟨b,hb,hread,hspare⟩ := hx
  obtain ⟨b',hst,hb'⟩ := hb.step hs
  exact ⟨b',hb',hst.reading hb hread,step_spare hs hspare⟩

/-- Whatever workers have crashed and wherever: the job can be brought to its end exactly
when no task is out that nobody has any more. The coordinator hands out no task twice. -/
theorem finishable_iff_covered (env : Setup) {files : List String} {nReduce : Int}
    (hf : files ≠ []) (hx : Executable env files nReduce) (fs : FileSystem)
    {actions : List Action} {s : System}
    (hr : run (System.step env) (System.start files nReduce fs) actions = some s) :
    s.finishable env ↔ s.covered := by
  obtain ⟨b,hb,hread,hspare⟩ := reached_recoverable hf hr
  rw [covered_held hb.custody]
  constructor
  · intro hfin k g hk hg
    by_contra hno
    obtain ⟨more,t,hrun,hp⟩ := hfin
    refine Stranded.unfinished ⟨hk,fun g' hg' p ht => hno ⟨p,?_⟩⟩ hb hrun hp
    rw [ht,← hg',hg]
  · exact fun hheld => Recoverable.finishable ⟨hb,hread,hheld,hspare⟩ hx

/-- The only worker gets the map task and crashes before its report: no other worker can
bring the job to its end. -/
theorem finishable_iff_covered_crash :
    ∃ s, countRun (joins 0 ++ [.serve 0,.crash 0]) = some s ∧ ¬ s.finishable countSetup := by
  have hrun : (countRun (joins 0 ++ [.serve 0,.crash 0])).map (fun s =>
      ((s.pc 0).task.isNone,s.coord.mapTasks.map Job.status)) = some (true,[.pending]) := by
    decide +kernel
  obtain ⟨s,hs,hp⟩ := Option.map_eq_some_iff.mp hrun
  obtain ⟨hnone,hstatus⟩ := Prod.mk.inj hp
  refine ⟨s,hs,fun hfin => ?_⟩
  have hcov := (finishable_iff_covered countSetup (by decide) countSetup_executable _ hs).mp hfin
  obtain ⟨job,hj,hpend⟩ := List.mem_map.mp (hstatus ▸ List.mem_singleton_self _)
  obtain ⟨p,r,ht,_⟩ := hcov.1 job hj hpend
  cases p with
  | zero =>
    rw [ht] at hnone
    cases hnone
  | succ p =>
    unfold System.pc at ht
    rw [alone_others hs (by decide) p] at ht
    cases ht

end Proofs

end MapReduce
