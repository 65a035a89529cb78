import Mathlib
import MapReduce.Proofs.Steps

namespace MapReduce

/-- The reply that a process acts on, from the moment it is sent until the coordinator
has handled the report. -/
def Pc.task : Pc → Option WorkerTaskRequestReply
  | .fetchReply result | .mapRead result | .mapNext result _ _ | .mapWrite result _ _ _ _
  | .reduceGlob result | .reduceRead result _ _ | .reduceWrite result _ _ | .update result
  | .waiting (.update result) | .dead (some (.update result)) => some result
  | _ => none

/-- The registration has been handled. -/
def Pc.joined : Pc → Prop
  | .offline | .register | .waiting .register | .dead _ => False
  | _ => True

namespace Proofs
open Dispatch Files

variable {files : List String} {nReduce : Int}

/-- Task `k` of the plan is out under the id `wid`, and `result` is the reply that said so. -/
def Granted (b : Schedule files nReduce) (wid : String) (result : WorkerTaskRequestReply)
    (k : Nat) : Prop :=
  (plan files nReduce)[k]? = some result ∧
    ∃ e, b.entries[k]? = some e ∧ e.done = false ∧ e.owner.workerId = wid

/-- The reply to a request in the reduce phase that finds nothing waiting. -/
def idleReduce : WorkerTaskRequestReply := { phase := .reducePhase }

/-- A reply that hands out nothing. -/
def Idle (b : Schedule files nReduce) (result : WorkerTaskRequestReply) : Prop :=
  result = {} ∨ (result = idleReduce ∧ b.FirstDone) ∨
    (result = { phase := .finishedPhase } ∧ b.Complete)

/-- What the board says of a process at each place. A mapper holds a task; a reducer holds
one or was sent off with nothing, and either way the map tasks are done. -/
def Fair (b : Schedule files nReduce) (wid : String) : Pc → Prop
  | .fetchReply result => (∃ k, Granted b wid result k) ∨ Idle b result
  | .mapRead result | .mapNext result _ _ =>
      (∃ k, Granted b wid result k) ∧ result.phase = .mapPhase
  | .mapWrite result _ partitionID file _ =>
      ((∃ k, Granted b wid result k) ∧ result.phase = .mapPhase) ∧
      file.name = intermediateName result.taskId partitionID
  | .reduceGlob result | .reduceRead result _ _ =>
      b.FirstDone ∧ ((∃ k, Granted b wid result k) ∨ result = idleReduce) ∧
        result.phase = .reducePhase
  | .reduceWrite result file _ =>
      (b.FirstDone ∧ ((∃ k, Granted b wid result k) ∨ result = idleReduce) ∧
        result.phase = .reducePhase) ∧ file.name = outputName result.partition
  | .update result | .waiting (.update result) | .dead (some (.update result)) =>
      (∃ k, Granted b wid result k) ∨ result = idleReduce
  | .updateReply _ reply => reply.phase ≠ .finishedPhase
  | _ => True

variable {b b' : Schedule files nReduce} {env : Setup} {s t : System} {c c' : Coordinator}

/-- What has to be known of the board for a process to stay fair. -/
theorem Fair.mono (h : Fair b wid pc)
    (hg : ∀ g k, pc.task = some g → Granted b wid g k → Granted b' wid g k)
    (hm : b.Moves b') : Fair b' wid pc := by
  have hgr : ∀ g, pc.task = some g → (∃ k, Granted b wid g k) → ∃ k, Granted b' wid g k :=
    fun g ht ⟨k,hk⟩ => ⟨k,hg g k ht hk⟩
  cases pc with
  | fetchReply r =>
    rcases h with h | h | ⟨h,hf⟩ | ⟨h,hc⟩
    · exact Or.inl (hgr r rfl h)
    · exact Or.inr (Or.inl h)
    · exact Or.inr (Or.inr (Or.inl ⟨h,hm.firstDone hf⟩))
    · exact Or.inr (Or.inr (Or.inr ⟨h,hm.complete hc⟩))
  | mapRead r => exact ⟨hgr r rfl h.1,h.2⟩
  | mapNext r _ _ => exact ⟨hgr r rfl h.1,h.2⟩
  | mapWrite r _ _ _ _ => exact ⟨⟨hgr r rfl h.1.1,h.1.2⟩,h.2⟩
  | reduceGlob r => exact ⟨hm.firstDone h.1,h.2.1.imp_left (hgr r rfl),h.2.2⟩
  | reduceRead r _ _ => exact ⟨hm.firstDone h.1,h.2.1.imp_left (hgr r rfl),h.2.2⟩
  | reduceWrite r _ _ =>
    exact ⟨⟨hm.firstDone h.1.1,h.1.2.1.imp_left (hgr r rfl),h.1.2.2⟩,h.2⟩
  | update r => exact h.imp_left (hgr r rfl)
  | waiting q =>
    cases q with
    | update r => exact h.imp_left (hgr r rfl)
    | register | fetch => trivial
  | dead q =>
    rcases q with _ | _ | _ | r
    · trivial
    · trivial
    · trivial
    · exact h.imp_left (hgr r rfl)
  | updateReply _ _ => exact h
  | offline | register | registerReply _ | fetch | stopped => trivial

/-- Every task that is out is in the hands of at most one process, and every process acts
on what the coordinator said to it. -/
structure Custody (env : Setup) (b : Schedule files nReduce) (s : System) : Prop where
  refines : Refines b s.coord
  fair : ∀ p, Fair b (env.worker p).id (s.pc p)
  unique : ∀ p q g, g.taskAvailable = true → (s.pc p).task = some g → (s.pc q).task = some g → p = q
  known : ∀ p, (s.pc p).joined → ∃ w ∈ s.coord.workers, w.workerId = (env.worker p).id
  closing : ∀ p, (s.procs p).closing ≠ [] → b.FirstDone

theorem Advances.task (h : Advances env p fs pc e) (ht : e.pc.task = some g) :
    pc.task = some g := by
  cases h <;> first | exact ht | cases ht

/-- A process that stops for good leaves the report of its task behind, if it was sent. -/
theorem crash_task {pc : Pc} (h : (Pc.dead pc.request).task = some g) : pc.task = some g := by
  cases pc with
  | waiting q =>
    cases q with
    | update r => exact h
    | register | fetch => cases h
  | dead q => exact h
  | _ => cases h

theorem Fair.crash (h : Fair b wid pc) : Fair b wid (.dead pc.request) := by
  cases pc with
  | waiting q =>
    cases q with
    | update r => exact h
    | register | fetch => trivial
  | dead q => exact h
  | _ => trivial

theorem Advances.joined (h : Advances env p fs pc e) (hj : e.pc.joined) : pc.joined := by
  cases h <;> first | exact hj | trivial

theorem Granted.lt (h : Granted b wid r k) : k < b.issued := by
  obtain ⟨_,e,he,_⟩ := h
  exact (List.getElem?_eq_some_iff.mp he).1

theorem Granted.pending (h : Granted b wid r k) : b.Pending k := by
  obtain ⟨_,e,he,hd,_⟩ := h
  exact ⟨e,he,hd⟩

/-- A task of the map phase stands in the first stage of the board, one of the reduce
phase in the second. -/
theorem Granted.stage (h : Granted b wid r k) :
    (r.phase = .mapPhase ∧ ∃ f, files[k]? = some f ∧ r = mapGrant nReduce k f) ∨
    (r.phase = .reducePhase ∧ ∃ j, k = files.length + j ∧ j < nReduce.toNat ∧ r = reduceGrant j) := by
  rcases plan_cases h.1 with ⟨f,hf,rfl⟩ | ⟨j,hk,hj,rfl⟩
  · exact Or.inl ⟨rfl,f,hf,rfl⟩
  · exact Or.inr ⟨rfl,j,hk,hj,rfl⟩

theorem Granted.firstDone (h : Granted b wid r k) (hp : r.phase = .reducePhase) : b.FirstDone := by
  rcases h.stage with ⟨hm,_⟩ | ⟨_,j,hk,_,_⟩
  · rw [hp] at hm
    cases hm
  · exact Board.barrier_firstDone (by have := h.lt; omega)

theorem Idle.phase (h : Idle b r) : r.phase ≠ .mapPhase := by
  rcases h with rfl | ⟨rfl,_⟩ | ⟨rfl,_⟩ <;> simp [idleReduce]

theorem Idle.reduce (h : Idle b r) (hp : r.phase = .reducePhase) : r = idleReduce ∧ b.FirstDone := by
  rcases h with rfl | h | ⟨rfl,_⟩
  · cases hp
  · exact h
  · cases hp

/-- The reply names no task. -/
structure Ungranted (r : WorkerTaskRequestReply) : Prop where
  unnamed : r.taskId = ""
  unavailable : r.taskAvailable = false
  phase : r.phase ≠ .mapPhase

theorem idleReduce_ungranted : Ungranted idleReduce := ⟨rfl,rfl,by simp [idleReduce]⟩

theorem Idle.ungranted (h : Idle b r) : Ungranted r := by
  refine ⟨?_,?_,h.phase⟩ <;> rcases h with rfl | ⟨rfl,_⟩ | ⟨rfl,_⟩ <;> rfl

/-- A process acts on a grant of the coordinator, or on a reply that hands out nothing. -/
theorem Fair.held (h : Fair b wid pc) (ht : pc.task = some g) :
    (∃ k, Granted b wid g k) ∨ Ungranted g := by
  have hidle : ∀ r, r = idleReduce → Ungranted r := by
    intro r he
    subst he
    exact idleReduce_ungranted
  cases pc with
  | fetchReply r =>
    cases ht
    exact h.imp_right Idle.ungranted
  | mapRead r | mapNext r _ _ =>
    cases ht
    exact Or.inl h.1
  | mapWrite r _ _ _ _ =>
    cases ht
    exact Or.inl h.1.1
  | reduceGlob r | reduceRead r _ _ =>
    cases ht
    exact h.2.1.imp_right (hidle g)
  | reduceWrite r _ _ =>
    cases ht
    exact h.1.2.1.imp_right (hidle g)
  | update r =>
    cases ht
    exact Or.imp_right (hidle g) h
  | waiting q =>
    cases q with
    | update r =>
      cases ht
      exact Or.imp_right (hidle g) h
    | register | fetch => cases ht
  | dead q =>
    rcases q with _ | _ | _ | r
    · cases ht
    · cases ht
    · cases ht
    · cases ht
      exact Or.imp_right (hidle g) h
  | updateReply _ _ | offline | register | registerReply _ | fetch | stopped => cases ht

theorem Fair.granted (h : Fair b wid pc) (ht : pc.task = some g) (ha : g.taskAvailable = true) :
    ∃ k, Granted b wid g k := by
  rcases h.held ht with hg | hn
  · exact hg
  · rw [hn.unavailable] at ha
    cases ha

theorem Advances.fair (ha : Advances env p fs pc e) (h : Fair b wid pc) : Fair b wid e.pc := by
  cases ha with
  | toMap hp =>
    rcases h with h | h
    · exact ⟨h,hp⟩
    · exact absurd hp h.phase
  | toReduce hp =>
    rcases h with ⟨k,hk⟩ | h
    · exact ⟨hk.firstDone hp,Or.inl ⟨k,hk⟩,hp⟩
    · obtain ⟨hr,hf⟩ := h.reduce hp
      exact ⟨hf,Or.inr hr,hp⟩
  | mapped _ => exact h
  | mapCreate _ => exact ⟨h,rfl⟩
  | mapDone _ => exact Or.inl h.1
  | mapClose => exact h.1
  | mapWrite => exact h
  | glob | read _ => exact h
  | reduceCreate => exact ⟨h,rfl⟩
  | reduceWrite => exact h
  | reduceDone => exact h.1.2.1
  | report => exact h
  | start | register | registered | fetch | leave _ _ | mapFatal | readFatal _ | again _
  | finish _ => trivial

theorem Granted.grant (h : Granted b wid r k) (v : WorkerType) (hr : b.Ready) :
    Granted (b.grant v hr) wid r k := by
  obtain ⟨e,he,hd⟩ := h.2
  have hlt := h.lt
  refine ⟨h.1,e,?_,hd⟩
  rw [Board.grant_get,if_neg (by omega)]
  exact he

theorem Granted.finish (h : Granted b wid r k) (hne : k ≠ j) : Granted (b.finish j) wid r k := by
  obtain ⟨e,he,hd⟩ := h.2
  refine ⟨h.1,e,?_,hd⟩
  rw [Board.finish_get,he]
  simp [Ne.symm hne]

/-- A report that is accepted is that of the task its process holds. -/
theorem reports_held (hf : Fair b wid pc) (hpc : pc.request = some (.update r))
    (hk : Reports b ⟨wid',r.taskId,r.type,.done⟩ k) :
    pc.task = some r ∧ (plan files nReduce)[k]? = some r := by
  obtain ⟨_,_,g,hg,ht,hid⟩ := hk
  have hfair : pc.task = some r ∧ ((∃ k, Granted b wid r k) ∨ r = idleReduce) := by
    cases pc with
    | waiting q =>
      cases hpc
      exact ⟨rfl,hf⟩
    | dead q =>
      cases hpc
      exact ⟨rfl,hf⟩
    | _ => cases hpc
  refine ⟨hfair.1,?_⟩
  rcases hfair.2 with ⟨k',hk'⟩ | rfl
  · rw [plan_inj hg hk'.1 ht hid]
    exact hk'.1
  · rcases plan_cases hg with ⟨f,_,rfl⟩ | ⟨j,_,_,rfl⟩
    all_goals exact absurd hid (taskName_ne_empty _)

/-- The processes that wait for no answer of this request stay fair. -/
theorem Served.fair_other (h : Custody env b s) (hq : (s.pc p).request = some q)
    (hs : Served b s.coord (env.worker p) q b' c' a) (hne : o ≠ p) :
    Fair b' (env.worker o).id (s.pc o) := by
  refine (h.fair o).mono ?_ hs.moves
  intro g k ht hg
  cases hs with
  | registered _ _ _ | unknown _ | idle _ | rejected _ _ => exact hg
  | granted _ _ hr _ _ _ => exact hg.grant _ hr
  | accepted hk _ _ =>
    obtain ⟨hp,hr⟩ := reports_held (h.fair p) hq hk
    refine hg.finish ?_
    intro heq
    subst heq
    have he := hg.1.symm.trans hr
    cases he
    exact hne (h.unique o p g (plan_available hr) ht hp)

/-- The reply to a request holds a task that nobody held before, or none. -/
theorem Served.fair_self (hr : Refines b c) (hs : Served b c w q b' c' a) :
    Fair b' w.id (q.answered a) := by
  cases hs with
  | registered _ _ _ => trivial
  | unknown _ => exact Or.inr (Or.inl rfl)
  | granted hv hid hr _ _ hg =>
    refine Or.inl ⟨b.issued,hg,⟨_,false⟩,?_,rfl,hid⟩
    rw [Board.grant_get,if_pos rfl]
  | idle hn =>
    refine Or.inr ?_
    cases hp : c.phase with
    | unset => exact absurd hp hr.known
    | mapPhase => exact Or.inl rfl
    | reducePhase =>
      exact Or.inr (Or.inl ⟨rfl,(phase_firstDone hr).mp (by simp [hp])⟩)
    | finishedPhase => exact Or.inr (Or.inr ⟨rfl,(hr.finished.mp hp).1⟩)
  | rejected _ hp =>
    intro he
    rw [hp] at he
    cases he
  | accepted hk _ hp =>
    intro he
    rw [hp] at he
    have hpend := hk.pending
    have hb := b.bounded
    have hlt : _ < files.length + nReduce.toNat := Nat.lt_of_lt_of_le (Board.pending_lt hpend) hb
    exact Board.not_finished_of_pending hpend ((hr.finished.mp he).1 _ hlt)

theorem Served.fresh (h : Custody env b s) (hs : Served b s.coord (env.worker p) q b' c' a)
    (ha : g.taskAvailable = true) (ht : (q.answered a).task = some g) (o : Nat) :
    (s.pc o).task ≠ some g := by
  intro ho
  cases hs with
  | granted _ _ _ _ _ hg =>
    cases ht
    obtain ⟨k,hk⟩ := (h.fair o).granted ho ha
    have := plan_inj hk.1 hg rfl rfl
    have := hk.lt
    omega
  | idle _ =>
    cases ht
    cases ha
  | unknown _ =>
    cases ht
    cases ha
  | registered _ _ _ | rejected _ _ | accepted _ _ _ => cases ht

theorem Served.known (hs : Served b c w q b' c' a)
    (h : (Pc.waiting q).joined → ∃ v ∈ c.workers, v.workerId = w.id) :
    ∃ v ∈ c'.workers, v.workerId = w.id := by
  cases hs with
  | registered hw hid _ => exact ⟨_,by rw [hw]; exact List.mem_append_right _ List.mem_cons_self,hid⟩
  | unknown _ | idle _ | rejected _ _ => exact h trivial
  | granted _ _ _ hw _ _ | accepted _ hw _ =>
    rw [hw]
    exact h trivial

theorem Custody.serve (h : Custody env b s) (hq : (s.pc p).request = some q)
    (hs : Served b s.coord (env.worker p) q b' c' a) (hr : Refines b' c')
    (hpc : Fair b' (env.worker p).id pc)
    (ht : ∀ g, g.taskAvailable = true → pc.task = some g → ∀ o, (s.pc o).task ≠ some g)
    (hj : pc.joined → ∃ w ∈ c'.workers, w.workerId = (env.worker p).id) :
    Custody env b' (afterServe s p pc c') where
  refines := hr
  fair o := by
    rw [afterServe_pc]
    by_cases ho : o = p
    · subst ho
      rw [if_pos rfl]
      exact hpc
    · rw [if_neg ho]
      exact hs.fair_other h hq ho
  unique o o' g ha ho ho' := by
    rw [afterServe_pc] at ho ho'
    by_cases hp : o = p <;> by_cases hp' : o' = p
    · rw [hp,hp']
    · rw [if_pos hp] at ho
      rw [if_neg hp'] at ho'
      exact absurd ho' (ht g ha ho o')
    · rw [if_neg hp] at ho
      rw [if_pos hp'] at ho'
      exact absurd ho (ht g ha ho' o)
    · rw [if_neg hp] at ho
      rw [if_neg hp'] at ho'
      exact h.unique o o' g ha ho ho'
  known o ho := by
    rw [afterServe_pc] at ho
    by_cases hp : o = p
    · subst hp
      rw [if_pos rfl] at ho
      exact hj ho
    · rw [if_neg hp] at ho
      obtain ⟨w,hw,hid⟩ := h.known o ho
      exact ⟨w,hs.workers hw,hid⟩
  closing o ho := by
    refine hs.moves.firstDone (h.closing o ?_)
    intro he
    apply ho
    by_cases hp : o = p
    · subst hp
      simpa [afterServe,System.setProc] using he
    · simpa [afterServe,System.setProc,hp] using he

theorem Custody.set (h : Custody env b s) (hpc : Fair b (env.worker p).id process.pc)
    (ht : ∀ g, process.pc.task = some g → (s.pc p).task = some g)
    (hj : process.pc.joined → (s.pc p).joined) (hc : process.closing ≠ [] → b.FirstDone) :
    Custody env b (s.setProc p process) where
  refines := h.refines
  fair o := by
    rw [setProc_pc]
    by_cases ho : o = p
    · subst ho
      rw [if_pos rfl]
      exact hpc
    · rw [if_neg ho]
      exact h.fair o
  unique o o' g ha ho ho' := by
    have hold : ∀ x, ((s.setProc p process).pc x).task = some g → (s.pc x).task = some g := by
      intro x hx
      rw [setProc_pc] at hx
      by_cases hp : x = p
      · subst hp
        rw [if_pos rfl] at hx
        exact ht g hx
      · rwa [if_neg hp] at hx
    exact h.unique o o' g ha (hold o ho) (hold o' ho')
  known o ho := by
    rw [setProc_pc] at ho
    by_cases hp : o = p
    · subst hp
      rw [if_pos rfl] at ho
      exact h.known o (hj ho)
    · rw [if_neg hp] at ho
      exact h.known o ho
  closing o ho := by
    by_cases hp : o = p
    · subst hp
      exact hc (by simpa [System.setProc] using ho)
    · exact h.closing o (by simpa [System.setProc,hp] using ho)

theorem Custody.fs (h : Custody env b s) (fs : FileSystem) : Custody env b { s with fs := fs } :=
  ⟨h.refines,h.fair,h.unique,h.known,h.closing⟩

theorem Advances.closing (ha : Advances env p fs pc e) (h : Fair b wid pc) (hc : e.closing ≠ []) :
    b.FirstDone := by
  cases ha with
  | reduceDone => exact h.1.1
  | _ => exact absurd rfl hc

theorem Stepped.custody (hs : Stepped env b s a b' t) (h : Custody env b s)
    (hr : Refines b' t.coord) : Custody env b' t := by
  cases hs with
  | advance hn =>
    rename_i p e
    have ha := advances hn
    refine Custody.fs (Custody.set h (ha.fair (h.fair p)) (fun g => ha.task) ha.joined ?_) _
    intro hc
    by_cases he : (s.procs p).closing = []
    · exact ha.closing (h.fair p) (by simpa [he] using hc)
    · exact h.closing p he
  | serve hq _ hs =>
    refine h.serve (by rw [hq]; rfl) hs hr (hs.fair_self h.refines)
      (fun g ha ht o => hs.fresh h ha ht o) (fun _ => hs.known (fun hj => ?_))
    exact h.known _ (by rw [hq]; exact hj)
  | serveDead hq _ hs =>
    exact h.serve (by rw [hq]; rfl) hs hr trivial (fun g _ ht => by cases ht) False.elim
  | close hc =>
    rename_i p file handles
    refine h.set (h.fair p) (fun g hg => hg) id (fun _ => h.closing p ?_)
    rw [hc]
    exact List.cons_ne_nil _ _
  | crash _ =>
    exact h.set (h.fair _).crash (fun g => crash_task) False.elim (fun hc => absurd rfl hc)

theorem start_custody (env : Setup) (nReduce : Int) (hf : files ≠ []) (fs : FileSystem) :
    Custody env (Board.blank : Schedule files nReduce) (System.start files nReduce fs) where
  refines := initial_refines nReduce hf
  fair _ := trivial
  unique _ _ _ _ h := by cases h
  known _ h := h.elim
  closing _ h := absurd rfl h

end Proofs

end MapReduce
