import Mathlib
import MapReduce.Proofs.Schedule

namespace MapReduce.Proofs
open Dispatch

variable {files : List String} {nReduce : Int} {b : Schedule files nReduce} {c : Coordinator}

/-- The report names task `k`, which is pending with the reporter as its owner. -/
def Reports (b : Schedule files nReduce) (args : WorkerTaskUpdateArgs) (k : Nat) : Prop :=
  args.workerID ≠ "" ∧
  (∃ e, b.entries[k]? = some e ∧ e.done = false ∧ e.owner.workerId = args.workerID) ∧
  ∃ g, (plan files nReduce)[k]? = some g ∧ g.type = args.type ∧ g.taskId = args.taskId

def accepted : String := "Task update received successfully"

/-- How `TaskUpdateByWorker` treats a report: a pending task of its owner is done
from now on, and anything else leaves the coordinator as it was. -/
inductive Updated (b : Schedule files nReduce) (c : Coordinator) (args : WorkerTaskUpdateArgs) :
    Coordinator → WorkerTaskUpdateReply → Prop
  | kept (hn : ∀ k, ¬ Reports b args k) (hp : reply.phase = .unset)
      (hm : reply.message ≠ accepted) : Updated b c args c reply
  | finished (hk : Reports b args k) (hc : Refines (b.finish k) c') (hs : c'.workers = c.workers)
      (hp : reply.phase = c.phase) (hm : reply.message = accepted) : Updated b c args c' reply

/-- The list that a report of type `t` is looked up in, with the place in the plan
of its first task. -/
structure Listed (b : Schedule files nReduce) (t : TaskType) (jobs : List Job) (off : Nat) :
    Prop where
  jobAt : ∀ i job, jobs[i]? = some job → ∃ base : Job, job = base.issue b.entries[off + i]? ∧
    base.taskId = taskName i ∧ base.worker = {} ∧ base.status = .waiting
  planned : ∀ i < jobs.length, ∃ g, (plan files nReduce)[off + i]? = some g ∧ g.type = t ∧
    g.taskId = taskName i
  covers : ∀ k g, (plan files nReduce)[k]? = some g → g.type = t → k < b.issued →
    ∃ i < jobs.length, k = off + i

theorem map_listed (h : Refines b c) : Listed b .mapTask c.mapTasks 0 where
  jobAt := by
    intro i job hj
    rw [map_get h i] at hj
    obtain ⟨f,_,rfl⟩ := Option.map_eq_some_iff.mp hj
    exact ⟨mapJob nReduce i f,by simp,rfl,rfl,rfl⟩
  planned := by
    intro i hi
    rw [map_length h] at hi
    exact ⟨_,by simpa using plan_map (List.getElem?_eq_getElem hi),rfl,rfl⟩
  covers := by
    intro k g hg ht _
    rcases plan_cases hg with ⟨f,hf,_⟩ | ⟨j,_,_,rfl⟩
    · exact ⟨k,by rw [map_length h]; exact (List.getElem?_eq_some_iff.mp hf).1,by simp⟩
    · cases ht

theorem reduce_listed (h : Refines b c) : Listed b .reduceTask c.reduceTasks files.length where
  jobAt := by
    intro i job hj
    by_cases hp : c.phase = .mapPhase
    · simp [h.reduces,hp] at hj
    · rw [reduce_get h hp i] at hj
      split at hj
      · cases hj
        exact ⟨reduceJob i,rfl,rfl,rfl,rfl⟩
      · cases hj
  planned := by
    intro i hi
    by_cases hp : c.phase = .mapPhase
    · simp [h.reduces,hp] at hi
    · rw [reduce_length h hp] at hi
      exact ⟨_,plan_reduce hi,rfl,rfl⟩
  covers := by
    intro k g hg ht hk
    rcases plan_cases hg with ⟨f,_,rfl⟩ | ⟨j,rfl,hj,_⟩
    · cases ht
    · have hp : c.phase ≠ .mapPhase := by
        intro hp
        exact h.mapping.mp hp (Board.barrier_firstDone (by omega))
      exact ⟨j,by rw [reduce_length h hp]; exact hj,rfl⟩

/-- A report can only concern the place that its id names in the list of its type. -/
theorem not_reports (hl : Listed b args.type jobs off) (hi : i < jobs.length)
    (hn : taskName i = args.taskId)
    (hno : ∀ e, b.entries[off + i]? = some e → e.done = false →
      e.owner.workerId ≠ args.workerID) : ∀ k, ¬ Reports b args k := by
  intro k hx
  obtain ⟨_,⟨e,he,hd,ho⟩,g,hg,ht,hid⟩ := hx
  obtain ⟨g',hg',ht',hid'⟩ := hl.planned i hi
  have hk : k = off + i :=
    plan_inj hg hg' (ht.trans ht'.symm) (hid.trans (hn.symm.trans hid'.symm))
  subst hk
  exact hno e he hd ho

/-- A report of an id that the list of its type does not have concerns nothing. -/
theorem not_reports_missing (hl : Listed b args.type jobs off)
    (hn : ∀ job ∈ jobs, job.taskId ≠ args.taskId) : ∀ k, ¬ Reports b args k := by
  intro k hx
  obtain ⟨_,⟨e,he,_⟩,g,hg,ht,hid⟩ := hx
  obtain ⟨i,hi,rfl⟩ := hl.covers k g hg ht (List.getElem?_eq_some_iff.mp he).1
  obtain ⟨g',hg',_,hname⟩ := hl.planned i hi
  obtain ⟨base,hb,hbn,_⟩ := hl.jobAt i jobs[i] (List.getElem?_eq_getElem hi)
  rw [hg] at hg'
  cases hg'
  apply hn jobs[i] (List.getElem_mem hi)
  rw [hb,issue_taskId,hbn,← hname,hid]

theorem notFound_ne_accepted : "Task not found" ≠ accepted := by decide

theorem completed_ne_accepted : "Task already completed" ≠ accepted := by decide

theorem assigned_ne_accepted (wid : String) : "Task not assigned to worker " ++ wid ≠ accepted := by
  intro h
  have := congrArg String.toList h
  simp [accepted] at this

theorem report_spec {store : List Job → Coordinator} (hl : Listed b args.type jobs off)
    (hid : args.workerID ≠ "")
    (hf : ∀ i (hi : i < jobs.length), Reports b args (off + i) →
      Refines (b.finish (off + i)) ((store (jobs.set i
        { jobs[i] with status := .done })).taskTransitionManager args.type) ∧
      ((store (jobs.set i { jobs[i] with status := .done })).taskTransitionManager
        args.type).workers = c.workers) :
    Updated b c args (c.reportJob args jobs store).1 (c.reportJob args jobs store).2 := by
  unfold Coordinator.reportJob
  cases hs : jobs.findFinIdx? (fun job => job.taskId == args.taskId) with
  | none =>
    have hnone := List.findFinIdx?_eq_none_iff.mp hs
    refine .kept (not_reports_missing hl ?_) rfl notFound_ne_accepted
    exact fun job hj he => hnone job hj (beq_iff_eq.mpr he)
  | some i =>
    obtain ⟨i,hi⟩ := i
    have hp := (List.findFinIdx?_eq_some_iff.mp hs).1
    simp only [Fin.getElem_fin] at hp ⊢
    obtain ⟨base,hb,hbn,hbw,hbs⟩ := hl.jobAt i jobs[i] (List.getElem?_eq_getElem hi)
    have hname : taskName i = args.taskId := by
      rw [← hbn]
      simpa [hb] using hp
    cases he : b.entries[off + i]? with
    | none =>
      -- an unassigned task carries the zero record, whose empty id no reporter has
      have hw : jobs[i].worker.workerId = "" := by rw [hb,he]; simp [Job.issue,hbw]
      rw [if_pos (by rw [hw]; exact Ne.symm hid)]
      refine .kept (not_reports hl hi hname ?_) rfl (assigned_ne_accepted _)
      intro e he'
      rw [he] at he'
      cases he'
    | some e =>
      have hw : jobs[i].worker.workerId = e.owner.workerId := by rw [hb,he]; rfl
      have hd : jobs[i].status = .done ↔ e.done = true := by
        rw [hb,he,issue_done hbs]
        simp
      split
      · rename_i hne
        refine .kept (not_reports hl hi hname ?_) rfl (assigned_ne_accepted _)
        intro e' he' _
        rw [he] at he'
        cases he'
        exact hw ▸ hne
      · rename_i ho
        split
        · rename_i hdone
          refine .kept (not_reports hl hi hname ?_) rfl completed_ne_accepted
          intro e' he' hopen
          rw [he] at he'
          cases he'
          rw [hd.mp hdone] at hopen
          contradiction
        · rename_i hdone
          obtain ⟨g,hg,ht,hgid⟩ := hl.planned i hi
          have hopen : e.done = false := by simpa [hd] using hdone
          have hr : Reports b args (off + i) :=
            ⟨hid,⟨e,he,hopen,hw ▸ not_not.mp ho⟩,g,hg,ht,hgid.trans hname⟩
          obtain ⟨hc,hworkers⟩ := hf i hi hr
          exact .finished hr hc hworkers rfl rfl

theorem finish_maps (h : Refines b c) (hi : i < c.mapTasks.length) (hk : b.Pending i) :
    c.mapTasks.set i { c.mapTasks[i] with status := .done } =
      files.mapIdx (fun j f => (mapJob nReduce j f).issue (b.finish i).entries[j]?) := by
  obtain ⟨e,he,_⟩ := hk
  apply List.ext_getElem?
  intro j
  have hjob := map_get h i
  rw [List.getElem?_eq_getElem hi,he] at hjob
  rw [List.getElem?_set,List.getElem?_mapIdx,Board.finish_get]
  by_cases hj : i = j
  · subst hj
    obtain ⟨f,hf,heq⟩ := Option.map_eq_some_iff.mp hjob.symm
    simp only [if_pos hi,hf,he,Option.map_some,↓reduceIte,← heq,issue_reported]
  · rw [if_neg hj,map_get h j]
    simp [hj]

theorem finish_reduces (h : Refines b c) (hp : c.phase ≠ .mapPhase)
    (hj : j < c.reduceTasks.length) (hk : b.Pending (files.length + j)) :
    c.reduceTasks.set j { c.reduceTasks[j] with status := .done } =
      (List.range nReduce.toNat).map (fun i =>
        (reduceJob i).issue (b.finish (files.length + j)).entries[files.length + i]?) := by
  obtain ⟨e,he,_⟩ := hk
  have hlen := reduce_length h hp
  apply List.ext_getElem?
  intro i
  have hjob := reduce_get h hp j
  rw [List.getElem?_eq_getElem hj,if_pos (by omega),he] at hjob
  rw [List.getElem?_set,range_get,Board.finish_get]
  by_cases hi : j = i
  · subst hi
    rw [if_pos rfl,if_pos hj,if_pos (by omega),Option.some.inj hjob,he,Option.map_some,
      if_pos rfl,issue_reported]
  · have hne : files.length + j ≠ files.length + i := by omega
    rw [if_neg hi,reduce_get h hp i]
    simp [hi]

/-- The transition's scan finds a task that is not done exactly in the first stage. -/
theorem open_maps {jobs : List Job}
    (hm : jobs = files.mapIdx (fun i f => (mapJob nReduce i f).issue b.entries[i]?)) :
    jobs.any (fun task => task.status == .pending || task.status == .waiting) = true ↔
      ¬ b.FirstDone := by
  rw [← maps_done hm,List.any_eq_true]
  simp only [Bool.or_eq_true,beq_iff_eq,not_forall,exists_prop]
  constructor
  · intro hx
    obtain ⟨job,hj,hs⟩ := hx
    obtain ⟨i,f,_,rfl⟩ := maps_job hm hj
    exact ⟨_,hj,(issue_open rfl).mp hs⟩
  · intro hx
    obtain ⟨job,hj,hs⟩ := hx
    obtain ⟨i,f,_,rfl⟩ := maps_job hm hj
    exact ⟨_,hj,(issue_open rfl).mpr hs⟩

theorem counted_reduces {jobs : List Job}
    (hm : jobs = (List.range nReduce.toNat).map (fun i =>
      (reduceJob i).issue b.entries[files.length + i]?)) (hf : b.FirstDone) :
    (jobs.countP (fun task => task.status == .done) == jobs.length) = true ↔ b.Complete := by
  rw [beq_iff_eq,List.countP_eq_length,← reduces_done hm hf]
  simp only [beq_iff_eq]

theorem finish_map (h : Refines b c) (hi : i < c.mapTasks.length) (hk : b.Pending i) :
    Refines (b.finish i) (({ c with mapTasks := (c.mapTasks.set i
      { c.mapTasks[i] with status := .done }) } : Coordinator).taskTransitionManager .mapTask) := by
  have hn : ¬ b.FirstDone := by
    intro hf
    exact Board.not_finished_of_pending hk (hf i (by rw [← map_length h]; exact hi))
  have hp : c.phase = .mapPhase := h.mapping.mpr hn
  have hle : b.issued ≤ files.length := by
    by_contra hlt
    exact hn (Board.barrier_firstDone (by omega))
  have hm := finish_maps h hi hk
  have hopen := open_maps hm
  unfold Coordinator.taskTransitionManager
  dsimp only
  split
  · rename_i hd
    have hf : (b.finish i).FirstDone := by
      rw [Bool.not_eq_true',← Bool.not_eq_true,hopen,not_not] at hd
      exact hd
    refine ⟨h.tasks,hm,?_,by simp [hf],?_,by simp⟩
    · rw [if_neg (by simp),h.reduces,if_pos hp,List.nil_append,h.tasks]
      apply List.map_congr_left
      intro j _
      have hnone : (b.finish i).entries[files.length + j]? = none :=
        entry_none.mpr (by rw [Board.finish_issued]; omega)
      rw [hnone]
      rfl
    · simp only [reduceCtorEq,false_iff,not_and]
      intro hc hr
      have := Board.finished_lt (hc files.length (by omega))
      rw [Board.finish_issued] at this
      omega
  · rename_i hd
    have hf : ¬ (b.finish i).FirstDone := by
      rw [Bool.not_eq_true',Bool.not_eq_false] at hd
      exact hopen.mp hd
    refine ⟨h.tasks,hm,by simp [h.reduces,hp],by simp [hp,hf],?_,h.known⟩
    simp only [hp,reduceCtorEq,false_iff,not_and]
    exact fun hc => absurd (Board.complete_firstDone hc) hf

theorem finish_reduce (h : Refines b c) (hp : c.phase ≠ .mapPhase)
    (hj : j < c.reduceTasks.length) (hk : b.Pending (files.length + j)) :
    Refines (b.finish (files.length + j)) (({ c with reduceTasks := (c.reduceTasks.set j
      { c.reduceTasks[j] with status := .done }) } :
        Coordinator).taskTransitionManager .reduceTask) := by
  have hlen := reduce_length h hp
  have hlt := Board.pending_lt hk
  have hf : (b.finish (files.length + j)).FirstDone := by
    have hb := (phase_firstDone h).mp hp
    exact fun k hk' => (Board.finish_finished b hlt).mpr (Or.inl (hb k hk'))
  have hm : c.mapTasks = files.mapIdx (fun i f =>
      (mapJob nReduce i f).issue (b.finish (files.length + j)).entries[i]?) := by
    apply List.ext_getElem?
    intro i
    rw [map_get h i,List.getElem?_mapIdx,Board.finish_get]
    rcases Nat.lt_or_ge i files.length with hi | hi
    · have hne : files.length + j ≠ i := by omega
      simp [hne]
    · simp [List.getElem?_eq_none hi]
  have hred := finish_reduces h hp hj hk
  have hcount := counted_reduces hred hf
  unfold Coordinator.taskTransitionManager
  dsimp only
  split
  · rename_i hc
    have hc := hcount.mp hc
    exact ⟨h.tasks,hm,by simpa using hred,by simp [hf],by simp [hc]; omega,by simp⟩
  · rename_i hc
    have hc : ¬ (b.finish (files.length + j)).Complete := fun h => hc (hcount.mpr h)
    have hb : ¬ b.Complete := by
      intro hb
      exact Board.not_finished_of_pending hk (hb _ (by omega))
    have hfin : c.phase ≠ .finishedPhase := fun hfin => hb (h.finished.mp hfin).1
    exact ⟨h.tasks,hm,by rw [if_neg hp]; exact hred,by simp [hp,hf],by simp [hfin,hc],h.known⟩

theorem transition_workers (c : Coordinator) (t : TaskType) :
    (c.taskTransitionManager t).workers = c.workers := by
  unfold Coordinator.taskTransitionManager
  cases t <;> dsimp only <;> split <;> rfl

theorem update_spec (h : Refines b c) (args : WorkerTaskUpdateArgs) :
    Updated b c args (c.taskUpdateByWorker args).1 (c.taskUpdateByWorker args).2 := by
  unfold Coordinator.taskUpdateByWorker
  split
  · rename_i hid
    refine .kept ?_ rfl (by simp [accepted])
    intro k hx
    obtain ⟨_,_,g,hg,_,he⟩ := hx
    rcases plan_cases hg with ⟨f,_,rfl⟩ | ⟨j,_,_,rfl⟩
    all_goals exact taskName_ne_empty _ (he.trans hid)
  · split
    · rename_i hw
      exact .kept (fun k hr => hr.1 hw) rfl (by simp [accepted])
    · rename_i hw
      cases ht : args.type with
      | mapTask =>
        have hl := ht ▸ map_listed h
        refine report_spec hl hw ?_
        intro i hi hr
        rw [ht,transition_workers]
        obtain ⟨_,⟨e,he,hd,_⟩,_⟩ := hr
        rw [Nat.zero_add] at he ⊢
        exact ⟨finish_map h hi ⟨e,he,hd⟩,rfl⟩
      | reduceTask =>
        have hl := ht ▸ reduce_listed h
        refine report_spec hl hw ?_
        intro j hj hr
        rw [ht,transition_workers]
        obtain ⟨_,⟨e,he,hd,_⟩,_⟩ := hr
        have hp : c.phase ≠ .mapPhase := by
          intro hp
          simp [h.reduces,hp] at hj
        exact ⟨finish_reduce h hp hj ⟨e,he,hd⟩,rfl⟩
      | unset | other name =>
        refine .kept ?_ rfl (by simp [accepted])
        intro k hx
        obtain ⟨_,_,g,hg,he,_⟩ := hx
        rw [ht] at he
        rcases plan_cases hg with ⟨f,_,rfl⟩ | ⟨j,_,_,rfl⟩
        all_goals cases he

end MapReduce.Proofs
