import Mathlib
import MapReduce.Proofs.Calls

namespace MapReduce

/-- The call hands a task to a worker that registered with the empty id. Nobody can
report such a task: `TaskUpdateByWorker` turns the empty worker id away. -/
def Coordinator.strands (c : Coordinator) : Call → Prop
  | .taskRequestByWorker args =>
    args.workerID = "" ∧ (∃ w ∈ c.workers, w.workerId = "") ∧
      ((c.phase = .mapPhase ∧ ∃ job ∈ c.mapTasks, job.status = .waiting) ∨
        (c.phase = .reducePhase ∧ ∃ job ∈ c.reduceTasks, job.status = .waiting))
  | _ => False

instance decidableStrands (c : Coordinator) (call : Call) : Decidable (c.strands call) :=
  match call with
  | .registerWorker _ | .taskUpdateByWorker _ => inferInstanceAs (Decidable False)
  | .taskRequestByWorker args =>
    inferInstanceAs (Decidable (args.workerID = "" ∧ (∃ w ∈ c.workers, w.workerId = "") ∧
      ((c.phase = .mapPhase ∧ ∃ job ∈ c.mapTasks, job.status = .waiting) ∨
        (c.phase = .reducePhase ∧ ∃ job ∈ c.reduceTasks, job.status = .waiting))))

/-- The report of a task by its recorded owner. -/
def ownerReport (job : Job) (t : TaskType) : WorkerTaskUpdateArgs :=
  { workerID := job.worker.workerId, taskId := job.taskId, type := t, status := .done }

/-- The job can still be finished, and every pending task by its owner's report. -/
def Coordinator.Recoverable (c : Coordinator) : Prop :=
  (∃ more : List Call, (c.serve more).phase = .finishedPhase) ∧
  (∀ (i : Nat) (job : Job), c.mapTasks[i]? = some job → job.status = .pending →
    ∃ job' : Job, (c.taskUpdateByWorker (ownerReport job .mapTask)).1.mapTasks[i]? = some job' ∧
      job'.status = .done) ∧
  (∀ (i : Nat) (job : Job), c.reduceTasks[i]? = some job → job.status = .pending →
    ∃ job' : Job, (c.taskUpdateByWorker (ownerReport job .reduceTask)).1.reduceTasks[i]? = some job' ∧
      job'.status = .done)

namespace Proofs
open Dispatch

theorem serve_append (c : Coordinator) (calls more : List Call) :
    c.serve (calls ++ more) = (c.serve calls).serve more := by
  induction calls generalizing c with
  | nil => rfl
  | cons call calls ih => exact ih _

section
variable {files : List String} {nReduce : Int} {b b' : Schedule files nReduce}
variable {c : Coordinator}

/-- Every task that is out is out to somebody who can report it. -/
def Owned (b : Schedule files nReduce) : Prop :=
  ∀ (k : Nat) (e : Entry WorkerType), b.entries[k]? = some e → e.done = false →
    e.owner.workerId ≠ ""

/-- Some task is out to the empty id. -/
def Orphaned (b : Schedule files nReduce) : Prop :=
  ∃ (k : Nat) (e : Entry WorkerType), b.entries[k]? = some e ∧ e.done = false ∧ e.owner.workerId = ""

/-- A task may be handed out exactly when one of the current phase waits. -/
theorem ready_waiting (h : Refines b c) : b.Ready ↔
    (c.phase = .mapPhase ∧ ∃ job ∈ c.mapTasks, job.status = .waiting) ∨
      (c.phase = .reducePhase ∧ ∃ job ∈ c.reduceTasks, job.status = .waiting) := by
  constructor
  · intro hr
    by_cases hp : c.phase = .mapPhase
    · have hi := (ready_map h hp).mp hr
      have hj := map_get h b.issued
      rw [List.getElem?_eq_getElem hi,entry_none.mpr (Nat.le_refl _)] at hj
      exact Or.inl ⟨hp,_,List.mem_of_getElem? hj,rfl⟩
    · have hi := (ready_reduce h hp).mp hr
      have hle := Board.firstDone_issued ((phase_firstDone h).mp hp)
      have hj := reduce_get h hp (b.issued - files.length)
      rw [if_pos (by omega),entry_none.mpr (by omega)] at hj
      have hnc : ¬ b.Complete := fun hc => absurd (Board.finished_lt (hc _ hi)) (Nat.lt_irrefl _)
      have hred := phase_reduce h hp (fun hfin => hnc (h.finished.mp hfin).1)
      exact Or.inr ⟨hred,_,List.mem_of_getElem? hj,rfl⟩
  · intro hor
    rcases hor with ⟨hp,job,hj,hw⟩ | ⟨hp,job,hj,hw⟩
    · obtain ⟨i,f,hf,rfl⟩ := maps_job h.maps hj
      have hi := entry_none.mp ((issue_waiting rfl).mp hw)
      exact (ready_map h hp).mpr (Nat.lt_of_le_of_lt hi (List.getElem?_eq_some_iff.mp hf).1)
    · have hne : c.phase ≠ .mapPhase := by simp [hp]
      obtain ⟨i,hi⟩ := List.mem_iff_getElem?.mp hj
      rw [reduce_get h hne i] at hi
      split at hi
      · cases hi
        have hi := entry_none.mp ((issue_waiting rfl).mp hw)
        exact (ready_reduce h hne).mpr (by omega)
      · cases hi

theorem Handled.owned (hs : Handled b c call b') (h : Refines b c) (hn : ¬ c.strands call)
    (ho : Owned b) : Owned b' := by
  cases hs with
  | registered | refused _ | rejected _ => exact ho
  | granted hw hid hr =>
    intro k e he hd hempty
    rw [Board.grant_get] at he
    split at he
    · cases he
      exact hn ⟨hid.symm.trans hempty,⟨_,hw,hempty⟩,(ready_waiting h).mp hr⟩
    · exact ho k e he hd hempty
  | accepted hk =>
    intro k e he hd
    rw [Board.finish_get] at he
    obtain ⟨d,hd',rfl⟩ := Option.map_eq_some_iff.mp he
    split at hd
    · contradiction
    · rename_i hne
      rw [if_neg hne]
      exact ho k d hd' hd

theorem Handled.orphaned (hs : Handled b c call b') (ho : Orphaned b) : Orphaned b' := by
  obtain ⟨k,e,he,hd,hempty⟩ := ho
  cases hs with
  | registered | refused _ | rejected _ => exact ⟨k,e,he,hd,hempty⟩
  | granted hw hid hr =>
    refine ⟨k,e,?_,hd,hempty⟩
    have hk := Board.pending_lt ⟨e,he,hd⟩
    rw [Board.grant_get,if_neg (by omega)]
    exact he
  | accepted hr =>
    rename_i args k'
    refine ⟨k,e,?_,hd,hempty⟩
    have hne : k' ≠ k := by
      intro heq
      subst heq
      obtain ⟨hid,⟨e',he',_,how⟩,_⟩ := hr
      rw [he] at he'
      cases he'
      exact hid (how.symm.trans hempty)
    rw [Board.finish_get,he]
    simp [hne]

theorem Handled.strands (hs : Handled b c call b') (h : Refines b c) (hst : c.strands call) :
    Orphaned b' := by
  cases hs with
  | registered | rejected _ | accepted _ => exact hst.elim
  | refused hn =>
    obtain ⟨hid,⟨w,hw,hempty⟩,hwait⟩ := hst
    exact absurd (hempty.trans hid.symm) (hn ((ready_waiting h).mpr hwait) w hw)
  | granted hw hid hr =>
    obtain ⟨hempty,_⟩ := hst
    exact ⟨b.issued,⟨_,false⟩,by rw [Board.grant_get,if_pos rfl],rfl,hid.trans hempty⟩

theorem serve_owned (h : Refines b c) (ho : Owned b)
    (hn : ∀ pre call post, calls = pre ++ call :: post → ¬ (c.serve pre).strands call) :
    ∃ b' : Schedule files nReduce, Refines b' (c.serve calls) ∧ Owned b' := by
  induction calls generalizing b c with
  | nil => exact ⟨b,h,ho⟩
  | cons call calls ih =>
    obtain ⟨b₁,hs,h₁,_⟩ := handle_spec h call
    have ho₁ := hs.owned h (hn [] call calls rfl) ho
    exact ih h₁ ho₁ (fun pre call' post he => hn (call :: pre) call' post (by rw [he]; rfl))

theorem serve_orphaned (h : Refines b c) (ho : Orphaned b) (calls : List Call) :
    ∃ b' : Schedule files nReduce, Refines b' (c.serve calls) ∧ Orphaned b' := by
  induction calls generalizing b c with
  | nil => exact ⟨b,h,ho⟩
  | cons call calls ih =>
    obtain ⟨b₁,hs,h₁,_⟩ := handle_spec h call
    exact ih h₁ (hs.orphaned ho)

theorem orphaned_unfinished (h : Refines b c) (ho : Orphaned b) : c.phase ≠ .finishedPhase := by
  obtain ⟨k,e,he,hd,_⟩ := ho
  intro hp
  have hk := Board.pending_lt ⟨e,he,hd⟩
  have hb := b.bounded
  exact Board.not_finished_of_pending ⟨e,he,hd⟩
    ((h.finished.mp hp).1 k (Nat.lt_of_lt_of_le hk hb))

/-- A task that was handed out stands in the plan. -/
theorem entry_planned {k : Nat} (he : b.entries[k]? = some e) :
    ∃ g, (plan files nReduce)[k]? = some g := by
  have hk : k < b.issued := (List.getElem?_eq_some_iff.mp he).1
  have hb : b.issued ≤ files.length + nReduce.toNat := b.bounded
  exact ⟨_,List.getElem?_eq_getElem (by rw [plan_length]; omega)⟩

theorem report_finishes (h : Refines b c) (hr : Reports b args k) :
    Refines (b.finish k) (c.taskUpdateByWorker args).1 := by
  have hs := update_spec h args
  generalize (c.taskUpdateByWorker args).1 = c' at hs ⊢
  generalize (c.taskUpdateByWorker args).2 = reply at hs
  cases hs with
  | kept hn _ _ => exact absurd hr (hn k)
  | finished hr' hc _ _ _ =>
    obtain ⟨_,_,g,hg,ht,hid⟩ := hr
    obtain ⟨_,_,g',hg',ht',hid'⟩ := hr'
    have hk := plan_inj hg hg' (ht.trans ht'.symm) (hid.trans hid'.symm)
    rw [hk]
    exact hc

theorem request_grants (args : WorkerTaskRequestArgs) (h : Refines b c) (hr : b.Ready)
    (hw : w ∈ c.workers) (hid : w.workerId = args.workerID) :
    ∃ w', w'.workerId = args.workerID ∧ Refines (b.grant w' hr) (c.taskRequestByWorker args).1 := by
  have hs := request_spec h args
  generalize (c.taskRequestByWorker args).1 = c' at hs ⊢
  generalize (c.taskRequestByWorker args).2 = reply at hs
  cases hs with
  | unknown hn => exact absurd hid (hn w hw)
  | granted _ hid' _ hc _ _ _ => exact ⟨_,hid',hc⟩
  | idle _ _ hn => exact absurd hr hn

/-- From a state in which every pending task can be reported, one worker alone can
take the job to its end. -/
theorem owned_recovers (hn : 1 ≤ nReduce) (b : Schedule files nReduce) :
    ∀ c, Refines b c → Owned b → ∃ more : List Call, (c.serve more).phase = .finishedPhase := by
  induction b using Board.toward_complete with
  | complete b hc =>
    intro c h _
    exact ⟨[],h.finished.mpr ⟨hc,by omega⟩⟩
  | grant b hr ih =>
    intro c h ho
    have h₁ := register_refines h ⟨"worker","",""⟩
    obtain ⟨w,hid,hc⟩ := request_grants ⟨"worker","",""⟩ h₁ hr
      (List.mem_append_right _ List.mem_cons_self) rfl
    have how : Owned (b.grant w hr) := by
      intro k e he hd
      rw [Board.grant_get] at he
      split at he
      · cases he
        rw [hid]
        decide
      · exact ho k e he hd
    obtain ⟨more,hm⟩ := ih w _ hc how
    exact ⟨.registerWorker ⟨"worker","",""⟩ :: .taskRequestByWorker ⟨"worker","",""⟩ :: more,hm⟩
  | finish b k hk ih =>
    intro c h ho
    obtain ⟨e,he,hd⟩ := hk
    obtain ⟨g,hg⟩ := entry_planned he
    let args : WorkerTaskUpdateArgs :=
      { workerID := e.owner.workerId, taskId := g.taskId, type := g.type, status := .done }
    have hr : Reports b args k := ⟨ho k e he hd,⟨e,he,hd,rfl⟩,g,hg,rfl,rfl⟩
    have how : Owned (b.finish k) :=
      (Handled.accepted hr).owned h (by simp [Coordinator.strands]) ho
    obtain ⟨more,hm⟩ := ih _ (report_finishes h hr) how
    exact ⟨.taskUpdateByWorker args :: more,hm⟩

theorem pending_entry {job : Job} (hw : job.status = .waiting)
    (hp : (job.issue e).status = .pending) :
    ∃ d, e = some d ∧ d.done = false ∧ (job.issue e).worker = d.owner := by
  cases e with
  | none => simp [Job.issue,hw] at hp
  | some d => exact ⟨d,rfl,by simpa [Job.issue] using hp,rfl⟩

theorem owned_maps {i : Nat} (h : Refines b c) (ho : Owned b) (hj : c.mapTasks[i]? = some job)
    (hp : job.status = .pending) :
    ∃ job' : Job, (c.taskUpdateByWorker (ownerReport job .mapTask)).1.mapTasks[i]? = some job' ∧
      job'.status = .done := by
  rw [map_get h i] at hj
  obtain ⟨f,hf,rfl⟩ := Option.map_eq_some_iff.mp hj
  obtain ⟨e,he,hd,hw⟩ := pending_entry rfl hp
  have hr : Reports b (ownerReport ((mapJob nReduce i f).issue b.entries[i]?) .mapTask) i := by
    refine ⟨?_,⟨e,he,hd,by rw [ownerReport,hw]⟩,_,plan_map hf,rfl,?_⟩
    · rw [ownerReport,hw]
      exact ho i e he hd
    · rw [ownerReport,issue_taskId]
      rfl
  have h' := report_finishes h hr
  rw [map_get h' i,hf]
  refine ⟨_,rfl,(issue_done rfl).mpr ?_⟩
  exact (Board.finish_finished b (Board.pending_lt ⟨e,he,hd⟩)).mpr (Or.inr rfl)

theorem owned_reduces {i : Nat} (h : Refines b c) (ho : Owned b) (hj : c.reduceTasks[i]? = some job)
    (hp : job.status = .pending) :
    ∃ job' : Job,
      (c.taskUpdateByWorker (ownerReport job .reduceTask)).1.reduceTasks[i]? = some job' ∧
      job'.status = .done := by
  have hph : c.phase ≠ .mapPhase := by
    intro hph
    simp [h.reduces,hph] at hj
  rw [reduce_get h hph i] at hj
  split at hj
  · rename_i hi
    cases hj
    obtain ⟨e,he,hd,hw⟩ := pending_entry rfl hp
    have hr : Reports b (ownerReport ((reduceJob i).issue b.entries[files.length + i]?)
        .reduceTask) (files.length + i) := by
      refine ⟨?_,⟨e,he,hd,by rw [ownerReport,hw]⟩,_,plan_reduce hi,rfl,?_⟩
      · rw [ownerReport,hw]
        exact ho _ e he hd
      · rw [ownerReport,issue_taskId]
        rfl
    have h' := report_finishes h hr
    have hlt := Board.pending_lt ⟨e,he,hd⟩
    have hph' := (phase_firstDone h').mpr
      ((Board.Moves.finish ⟨e,he,hd⟩).firstDone ((phase_firstDone h).mp hph))
    rw [reduce_get h' hph' i,if_pos hi]
    refine ⟨_,rfl,(issue_done rfl).mpr ?_⟩
    exact (Board.finish_finished b hlt).mpr (Or.inr rfl)
  · cases hj

end

/-- A run leaves the coordinator able to finish exactly when no call of it handed a
task to the empty worker id. -/
theorem recoverable_iff {files : List String} {nReduce : Int} (hf : files ≠ [])
    (hn : 1 ≤ nReduce) (calls : List Call) :
    ((makeCoordinator files nReduce).serve calls).Recoverable ↔
      ∀ pre call post, calls = pre ++ call :: post →
        ¬ ((makeCoordinator files nReduce).serve pre).strands call := by
  constructor
  · intro hx pre call post he hst
    obtain ⟨⟨more,hm⟩,_⟩ := hx
    obtain ⟨b,h⟩ := served_refines nReduce hf pre
    obtain ⟨b₁,hs,h₁,_⟩ := handle_spec h call
    obtain ⟨b₂,h₂,ho⟩ := serve_orphaned h₁ (hs.strands h hst) (post ++ more)
    apply orphaned_unfinished h₂ ho
    rw [← hm,he,serve_append,serve_append]
    rfl
  · intro hst
    have hinit : Owned (Board.blank : Schedule files nReduce) := by
      intro k e he
      simp [Board.blank] at he
    obtain ⟨b,h,ho⟩ := serve_owned (initial_refines nReduce hf) hinit hst
    exact ⟨owned_recovers hn b _ h ho,fun i job hj hp => owned_maps h ho hj hp,
      fun i job hj hp => owned_reduces h ho hj hp⟩

/-- The calls of the usual start leave the job finishable. -/
theorem recoverable_named_worker :
    ((makeCoordinator ["pg.txt"] 1).serve [.registerWorker ⟨"worker-1","",""⟩,
      .taskRequestByWorker ⟨"worker-1","",""⟩]).Recoverable := by
  refine (recoverable_iff (by decide) (by decide) _).mpr ?_
  intro pre call post he
  rcases pre with _ | ⟨first,_ | ⟨second,pre⟩⟩
  · obtain ⟨rfl,_⟩ := List.cons.inj he
    decide
  · obtain ⟨rfl,htail⟩ := List.cons.inj he
    obtain ⟨rfl,_⟩ := List.cons.inj htail
    decide
  · simp at he

/-- One registration and one request with the empty id, and no continuation finishes. -/
theorem empty_id_wedges :
    ¬ ∃ more : List Call, (((makeCoordinator ["pg.txt"] 1).serve
      [.registerWorker ⟨"","",""⟩,.taskRequestByWorker ⟨"","",""⟩]).serve more).phase =
        .finishedPhase := by
  intro hx
  obtain ⟨more,hm⟩ := hx
  have h := @initial_refines ["pg.txt"] 1 (by decide)
  have h₁ := register_refines h ⟨"","",""⟩
  obtain ⟨b,hs,h₂,_⟩ := handle_spec h₁ (.taskRequestByWorker ⟨"","",""⟩)
  have ho : Orphaned b := hs.strands h₁ (by decide)
  obtain ⟨b',h',ho'⟩ := serve_orphaned h₂ ho more
  exact orphaned_unfinished h' ho' hm

end Proofs

end MapReduce
