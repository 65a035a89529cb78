import Mathlib
import MapReduce.Proofs.Leaving

namespace MapReduce

/-- The worker has registered and is fetching, executing or reporting, or has a request or
a reply under way. -/
def Pc.active : Pc → Bool
  | .offline | .register | .waiting .register | .stopped | .dead _ => false
  | _ => true

/-- A process that will ask for a task again. -/
def Pc.going (pc : Pc) : Prop := pc.joined ∧ ¬ pc.leaving

/-- The grant of the task is under way to process `p`, or `p` executes it, or the report
of it is under way from `p`. -/
def System.holds (s : System) (type : TaskType) (taskId : String) (p : Nat) : Prop :=
  ∃ result, (s.pc p).task = some result ∧ result.type = type ∧ result.taskId = taskId

namespace Proofs
open Dispatch

variable {files : List String} {nReduce : Int} {b b' : Schedule files nReduce} {env : Setup}
variable {s t : System}

theorem Advances.task_next (ha : Advances env p fs pc e) (ht : pc.task = some g)
    (hp : g.phase = .mapPhase ∨ g.phase = .reducePhase) (hd : ∀ q, e.pc ≠ .dead q) :
    e.pc.task = some g := by
  cases ha with
  | leave hm hr =>
    cases ht
    exact (hp.elim hm hr).elim
  | mapFatal => exact absurd rfl (hd none)
  | readFatal _ => exact absurd rfl (hd none)
  | start | register | registered | fetch | again _ | finish _ => cases ht
  | _ => exact ht

theorem Advances.going (ha : Advances env p fs pc e) (hf : Fair b wid pc) (hg : pc.going)
    (hd : ∀ q, e.pc ≠ .dead q) : e.pc.going := by
  refine ⟨?_,fun hl => hg.2 (ha.leaving hf hl)⟩
  cases ha with
  | start | register => exact hg.1.elim
  | mapFatal => exact absurd rfl (hd none)
  | readFatal _ => exact absurd rfl (hd none)
  | _ => trivial

theorem Advances.joined_next (ha : Advances env p fs pc e) (hj : pc.joined)
    (hd : ∀ q, e.pc ≠ .dead q) : e.pc.joined := by
  cases ha with
  | start | register => exact hj.elim
  | mapFatal => exact absurd rfl (hd none)
  | readFatal _ => exact absurd rfl (hd none)
  | _ => trivial

theorem Served.joined (hs : Served b c w q b' c' a) : (q.answered a).joined := by
  cases hs <;> trivial

/-- Nobody is dead; a worker that registered is still there; a worker that leaves in the
map phase leaves no task waiting; every task that is out is in somebody's hands; in the
reduce phase somebody will ask again. -/
structure Alive (env : Setup) (b : Schedule files nReduce) (s : System) : Prop where
  noDead : ∀ p q, s.pc p ≠ .dead q
  present : s.coord.workers ≠ [] → ∃ p, (s.pc p).joined
  excused : ∀ p, (s.pc p).leaving → ¬ b.FirstDone → ¬ b.Ready
  held : ∀ k g, b.Pending k → (plan files nReduce)[k]? = some g → ∃ p, (s.pc p).task = some g
  going : s.coord.phase = .reducePhase → ∃ p, (s.pc p).going

theorem Moves.notReady (hm : b.Moves b') (hr : ¬ b.Ready) (hd : ¬ b'.FirstDone) : ¬ b'.Ready := by
  cases hm with
  | stay => exact hr
  | grant w h => exact absurd h hr
  | finish h =>
    intro hor
    rcases hor with hlt | ⟨hf,_⟩
    · rw [Board.finish_issued] at hlt
      exact hr (Or.inl hlt)
    · exact hd hf

theorem Alive.excused_step (h : Alive env b s) (hc : Custody env b s)
    (hs : Stepped env b s a b' t) (p : Nat) (hl : (t.pc p).leaving) (hd : ¬ b'.FirstDone) :
    ¬ b'.Ready := by
  rcases hs.leaving hc hl with hold | ⟨_,_,hr,_,rfl⟩
  · refine Moves.notReady hs.moves (h.excused p hold (fun hf => hd (hs.moves.firstDone hf))) hd
  · exact hr

/-- What a process that does not die keeps through a step of its own. -/
theorem Alive.advance (h : Alive env b s) (hc : Custody env b s)
    (hn : next env p s.fs (s.pc p) = some e) (hd : ∀ q, e.pc ≠ .dead q) :
    Alive env b (s.advanced p e) where
  noDead o q := by
    rw [advanced_pc]
    split
    · exact hd q
    · exact h.noDead o q
  present hw := by
    obtain ⟨o,ho⟩ := h.present hw
    refine ⟨o,?_⟩
    rw [advanced_pc]
    split
    · rename_i he
      subst he
      exact (advances hn).joined_next ho hd
    · exact ho
  excused o := h.excused_step hc (.advance hn) o
  held k g hk hg := by
    obtain ⟨o,ho⟩ := h.held k g hk hg
    refine ⟨o,?_⟩
    rw [advanced_pc]
    split
    · rename_i he
      subst he
      refine (advances hn).task_next ho ?_ hd
      rcases plan_cases hg with ⟨f,_,rfl⟩ | ⟨j,_,_,rfl⟩
      · exact Or.inl rfl
      · exact Or.inr rfl
    · exact ho
  going hp := by
    obtain ⟨o,ho⟩ := h.going hp
    refine ⟨o,?_⟩
    rw [advanced_pc]
    split
    · rename_i he
      subst he
      exact (advances hn).going (hc.fair o) ho hd
    · exact ho

/-- Every pending task is in somebody's hands also after a request is handled: a grant
goes to the process that asked, and a report is accepted from the process that holds. -/
theorem Alive.held_serve (h : Alive env b s) (hc : Custody env b s)
    (hid : (env.worker p).id ≠ "") (hq : s.pc p = .waiting q)
    (hs : Served b s.coord (env.worker p) q b' c' a) (hk : b'.Pending k)
    (hg : (plan files nReduce)[k]? = some g) :
    ∃ o, ((afterServe s p (q.answered a) c').pc o).task = some g := by
  have hother : ∀ o, (s.pc o).task = some g → o ≠ p →
      ∃ o, ((afterServe s p (q.answered a) c').pc o).task = some g := by
    intro o ho hne
    refine ⟨o,?_⟩
    rw [afterServe_pc,if_neg hne]
    exact ho
  cases hs with
  | registered _ _ _ | unknown _ | idle _ =>
    obtain ⟨o,ho⟩ := h.held k g hk hg
    refine hother o ho ?_
    intro heq
    subst heq
    rw [hq] at ho
    cases ho
  | granted hv hid' hr _ _ hplan =>
    rcases (Board.grant_pending b _ hr).mp hk with rfl | hk
    · refine ⟨p,?_⟩
      rw [afterServe_pc,if_pos rfl]
      exact congrArg some (Option.some.inj (hplan.symm.trans hg))
    · obtain ⟨o,ho⟩ := h.held k g hk hg
      refine hother o ho ?_
      intro heq
      subst heq
      rw [hq] at ho
      cases ho
  | rejected hn _ =>
    obtain ⟨o,ho⟩ := h.held k g hk hg
    refine hother o ho ?_
    intro heq
    subst heq
    obtain ⟨k',hk'⟩ := (hc.fair o).granted ho (plan_available hg)
    rw [hq] at ho
    cases ho
    obtain ⟨hplan,e,he,hd,how⟩ := hk'
    exact hn k' ⟨hid,⟨e,he,hd,how⟩,g,hplan,rfl,rfl⟩
  | accepted hk' _ _ =>
    obtain ⟨hk,hne⟩ := (Board.finish_pending b _).mp hk
    obtain ⟨o,ho⟩ := h.held k g hk hg
    refine hother o ho ?_
    intro heq
    subst heq
    obtain ⟨ht,hplan⟩ := reports_held (hc.fair o) (by rw [hq]; rfl) hk'
    have he := Option.some.inj (ho.symm.trans ht)
    subst he
    exact hne (plan_inj hg hplan rfl rfl)

theorem Served.phase (hs : Served b c w q b' c' a) :
    c'.phase = c.phase ∨ ∃ r reply, q = .update r ∧ a = .updated reply := by
  cases hs with
  | registered _ _ hp | granted _ _ _ _ hp _ => exact Or.inl hp
  | unknown _ | idle _ | rejected _ _ => exact Or.inl rfl
  | accepted _ _ _ => exact Or.inr ⟨_,_,rfl,rfl⟩

theorem Alive.serve (h : Alive env b s) (hc : Custody env b s)
    (hid : (env.worker p).id ≠ "") (hq : s.pc p = .waiting q)
    (hh : s.coord.handle (q.call (env.worker p)) = (c',a))
    (hs : Served b s.coord (env.worker p) q b' c' a) :
    Alive env b' (afterServe s p (q.answered a) c') where
  noDead o q' := by
    rw [afterServe_pc]
    split
    · intro he
      have := hs.joined
      rw [he] at this
      exact this
    · exact h.noDead o q'
  present _ := ⟨p,by rw [afterServe_pc,if_pos rfl]; exact hs.joined⟩
  excused o := h.excused_step hc (.serve hq hh hs) o
  held k g hk hg := h.held_serve hc hid hq hs hk hg
  going hp := by
    rcases hs.phase with hph | ⟨r,reply,rfl,rfl⟩
    · have hred : s.coord.phase = .reducePhase := hph.symm.trans hp
      obtain ⟨o,ho⟩ := h.going hred
      refine ⟨o,?_⟩
      rw [afterServe_pc]
      split
      · rename_i he
        subst he
        refine ⟨hs.joined,fun hl => ?_⟩
        exact (hs.leaving hl (fun he => hc.known o (by rw [hq,he]; trivial))).2.2.1 hred
      · exact ho
    · exact ⟨p,by rw [afterServe_pc,if_pos rfl]; exact ⟨trivial,id⟩⟩

theorem Alive.step (h : Alive env b s) (hc : Custody env b s) (hid : ∀ p, (env.worker p).id ≠ "")
    (hs : Stepped env b s a b' t) (hok : s.crashes env a = false) : Alive env b' t := by
  cases hs with
  | advance hn =>
    refine h.advance hc hn (fun q he => ?_)
    simp only [System.crashes,hn,Option.any_some,he] at hok
    cases hok
  | serve hq hh hs => exact h.serve hc (hid _) hq hh hs
  | serveDead hq _ _ => exact absurd hq (h.noDead _ _)
  | close _ =>
    exact ⟨fun o q => by rw [close_pc]; exact h.noDead o q,
      fun hw => by simpa only [close_pc] using h.present hw,
      fun o => by rw [close_pc]; exact h.excused o,
      fun k g hk hg => by simpa only [close_pc] using h.held k g hk hg,
      fun hp => by simpa only [close_pc] using h.going hp⟩
  | crash _ => cases hok

theorem start_alive (env : Setup) (nReduce : Int) (fs : FileSystem) :
    Alive env (Board.blank : Schedule files nReduce) (System.start files nReduce fs) where
  noDead _ _ h := by cases h
  present hw := absurd rfl hw
  excused _ hl := hl.elim
  held k _ hk := by
    obtain ⟨e,he,_⟩ := hk
    simp [Board.blank] at he
  going hp := by cases hp

theorem task_active {pc : Pc} (ht : pc.task = some g) (hd : ∀ q, pc ≠ .dead q) :
    pc.active = true := by
  cases pc with
  | waiting q => cases q <;> first | rfl | cases ht
  | dead q => exact absurd rfl (hd q)
  | _ => first | rfl | cases ht

theorem joined_active {pc : Pc} (hj : pc.joined) (hl : ¬ pc.leaving) : pc.active = true := by
  cases pc with
  | waiting q => cases q <;> first | rfl | exact hj.elim
  | stopped => exact absurd trivial hl
  | _ => first | rfl | exact hj.elim

/-- As long as the job is not finished, some worker is active once one has registered. -/
theorem Alive.somebody (h : Alive env b s) (hr : Refines b s.coord) (hw : s.coord.workers ≠ [])
    (hp : s.coord.phase ≠ .finishedPhase) : ∃ p, (s.pc p).active = true := by
  cases hph : s.coord.phase with
  | unset => exact absurd hph hr.known
  | finishedPhase => exact absurd hph hp
  | reducePhase =>
    obtain ⟨p,hj,hl⟩ := h.going hph
    exact ⟨p,joined_active hj hl⟩
  | mapPhase =>
    obtain ⟨p,hj⟩ := h.present hw
    by_cases hl : (s.pc p).leaving
    · have hnf := hr.mapping.mp hph
      obtain ⟨k,_,hk⟩ := Board.stuck_first (h.excused p hl hnf) hnf
      obtain ⟨e,he,_⟩ := id hk
      obtain ⟨g,hg⟩ := entry_planned he
      obtain ⟨o,ho⟩ := h.held k g hk hg
      exact ⟨o,task_active ho (h.noDead o)⟩
    · exact ⟨p,joined_active hj hl⟩

/-- A pending task of the plan is held by exactly one process. -/
theorem Alive.one_holder (h : Alive env b s) (hc : Custody env b s) (hk : b.Pending k)
    (hg : (plan files nReduce)[k]? = some g) : ∃! p, s.holds g.type g.taskId p := by
  obtain ⟨p,hp⟩ := h.held k g hk hg
  refine ⟨p,⟨g,hp,rfl,rfl⟩,?_⟩
  intro q hx
  obtain ⟨r,hr,ht,hid⟩ := hx
  have ha : r.taskAvailable = true := by
    rcases (hc.fair q).held hr with ⟨k',hk'⟩ | hn
    · exact plan_available hk'.1
    · rw [hn.unnamed] at hid
      rcases plan_cases hg with ⟨f,_,rfl⟩ | ⟨j,_,_,rfl⟩
      all_goals exact absurd hid.symm (taskName_ne_empty _)
  obtain ⟨k',hk'⟩ := (hc.fair q).granted hr ha
  have hkk := plan_inj hk'.1 hg ht hid
  subst hkk
  have he := Option.some.inj (hk'.1.symm.trans hg)
  subst he
  exact hc.unique q p r ha hr hp

/-- A run without crashes of workers that have an id. -/
theorem reached_alive (hf : files ≠ []) (hid : ∀ p, (env.worker p).id ≠ "")
    (hr : Runs.run (System.step env) (System.start files nReduce fs) actions = some s)
    (ho : Runs.Obeys (System.step env) (fun s a => s.crashes env a = false)
      (System.start files nReduce fs) actions) :
    ∃ b : Schedule files nReduce, Sound env b s ∧ Alive env b s := by
  refine Runs.invariant (fun s => ∃ b : Schedule files nReduce, Sound env b s ∧ Alive env b s)
    ?_ hr ho ⟨_,start_sound env nReduce hf fs,start_alive env nReduce fs⟩
  intro s a t hx hok hs
  obtain ⟨b,h,hl⟩ := hx
  obtain ⟨b',hb,h'⟩ := h.step hs
  exact ⟨b',h',hl.step h.custody hid hb hok⟩

/-- The job is never abandoned: once a worker has registered, and until the job is
finished, some worker is active, and each pending task is in the hands of exactly one. -/
theorem never_abandoned (env : Setup) {files : List String} {nReduce : Int} (hf : files ≠ [])
    (hid : ∀ p, (env.worker p).id ≠ "") (fs : FileSystem) {actions : List Action} {s : System}
    (hr : Runs.run (System.step env) (System.start files nReduce fs) actions = some s)
    (ho : Runs.Obeys (System.step env) (fun s a => s.crashes env a = false)
      (System.start files nReduce fs) actions) :
    (s.coord.workers ≠ [] → s.coord.phase ≠ .finishedPhase → ∃ p, (s.pc p).active = true) ∧
    (∀ job ∈ s.coord.mapTasks, job.status = .pending → ∃! p, s.holds .mapTask job.taskId p) ∧
    ∀ job ∈ s.coord.reduceTasks, job.status = .pending → ∃! p, s.holds .reduceTask job.taskId p := by
  obtain ⟨b,h,hl⟩ := reached_alive hf hid hr ho
  have hc := h.custody
  refine ⟨hl.somebody hc.refines,?_,?_⟩
  · intro job hj hp
    obtain ⟨i,f,hf,rfl⟩ := maps_job hc.refines.maps hj
    obtain ⟨e,he,hd,_⟩ := pending_entry rfl hp
    rw [issue_taskId]
    exact hl.one_holder hc ⟨e,he,hd⟩ (plan_map hf)
  · intro job hj hp
    obtain ⟨i,hi⟩ := List.mem_iff_getElem?.mp hj
    have hph : s.coord.phase ≠ .mapPhase := by
      intro hph
      simp [hc.refines.reduces,hph] at hj
    rw [reduce_get hc.refines hph i] at hi
    split at hi
    · cases hi
      obtain ⟨e,he,hd,_⟩ := pending_entry rfl hp
      rw [issue_taskId]
      exact hl.one_holder hc ⟨e,he,hd⟩ (plan_reduce ‹_›)
    · cases hi

/-- Two workers, of which the second has left: the first still holds the map task. -/
theorem never_abandoned_two_workers :
    ∃ s, countRun lateRun = some s ∧ (s.pc 1).left = true ∧ ∃ p, (s.pc p).active = true := by
  have hrun : (countRun lateRun).map
      (fun s => ((s.pc 1).left,s.coord.workers.isEmpty,s.coord.phase)) =
        some (true,false,.mapPhase) := by decide +kernel
  obtain ⟨s,hs,hp⟩ := Option.map_eq_some_iff.mp hrun
  simp only [Prod.mk.injEq] at hp
  have hid : ∀ p, (countSetup.worker p).id ≠ "" := by
    intro p he
    have := congrArg String.toList he
    simp [countSetup] at this
  refine ⟨s,hs,hp.1,(never_abandoned countSetup (by decide) hid _ hs (by decide +kernel)).1 ?_ ?_⟩
  · intro he
    simp [he] at hp
  · simp [hp.2.2]

end Proofs

end MapReduce
