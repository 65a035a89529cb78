import Mathlib
import MapReduce.Proofs.Histories
import MapReduce.Proofs.Monitoring

namespace MapReduce

/-- A state that calls and health checks lead the coordinator to. -/
def Reachable (files : List String) (nReduce : Int) (c : Coordinator) : Prop :=
  ∃ int events m, Runs.run (Monitor.next int) (Monitor.start files nReduce) events = some m ∧
    m.coordinator = c

/-- The report is of task `i` of its type, which is pending and the reporter's own. -/
def Coordinator.Completable (c : Coordinator) (args : WorkerTaskUpdateArgs) (i : Nat) (job : Job) :
    Prop :=
  (c.jobs args.type)[i]? = some job ∧ job.taskId = args.taskId ∧ job.status = .pending ∧
    job.worker.workerId = args.workerID ∧ args.workerID ≠ ""

/-- Every task but the one at `i` is done. -/
def LastOpen (jobs : List Job) (i : Nat) : Prop :=
  ∀ (j : Nat) (job : Job), jobs[j]? = some job → job.status ≠ .done → j = i

namespace Proofs
open Dispatch

section
variable {files : List String} {nReduce : Int} {b b' : Schedule files nReduce} {c c' : Coordinator}

theorem reach_invariant (inv : Coordinator → Prop) (hr : Reachable files nReduce c)
    (start : inv (makeCoordinator files nReduce))
    (handle : ∀ c call, inv c → inv (c.handle call).1)
    (probe : ∀ c workers, inv c → inv { c with workers := workers }) : inv c := by
  obtain ⟨_,events,m,hrun,rfl⟩ := hr
  refine Runs.invariant (fun m => inv m.coordinator) ?_ hrun (Runs.obeys_true _ _) start
  intro m event m' hi _ h
  cases next_monitored h with
  | called => exact handle _ _ hi
  | ticked _ | copied => exact hi
  | synced _ _ => exact probe _ _ hi

theorem run_calls (int : IntSize) (m : Monitor) (calls : List Call) :
    Runs.run (Monitor.next int) m (calls.map .call) =
      some { m with coordinator := m.coordinator.serve calls } := by
  induction calls generalizing m with
  | nil => rfl
  | cons call calls ih => exact ih _

theorem served_reachable (files : List String) (nReduce : Int) (calls : List Call) :
    Reachable files nReduce ((makeCoordinator files nReduce).serve calls) :=
  ⟨.w64,_,_,run_calls .w64 (Monitor.start files nReduce) calls,rfl⟩

theorem workers_refines (h : Refines b c) (workers : List WorkerType) :
    Refines b { c with workers := workers } :=
  ⟨h.tasks,h.maps,h.reduces,h.mapping,h.finished,h.known⟩

theorem reach_refines (hf : files ≠ []) (hr : Reachable files nReduce c) :
    ∃ b : Schedule files nReduce, Refines b c := by
  refine reach_invariant (fun c => ∃ b : Schedule files nReduce, Refines b c) hr
    ⟨_,initial_refines nReduce hf⟩ ?_ ?_
  · intro c call hi
    obtain ⟨b,h⟩ := hi
    obtain ⟨b',_,h',_⟩ := handle_spec h call
    exact ⟨b',h'⟩
  · intro c workers hi
    obtain ⟨b,h⟩ := hi
    exact ⟨b,workers_refines h workers⟩

theorem reach_empty (hr : Reachable [] nReduce c) :
    c.mapTasks = [] ∧ c.reduceTasks = [] ∧ c.phase = .mapPhase := by
  refine reach_invariant
    (fun c => c.mapTasks = [] ∧ c.reduceTasks = [] ∧ c.phase = .mapPhase) hr ⟨rfl,rfl,rfl⟩ ?_ (fun _ _ hi => hi)
  intro c call hi
  obtain ⟨hm,hred,hp,_⟩ := empty_handle hi.1 hi.2.1 hi.2.2 call
  exact ⟨hm,hred,hp⟩

/-- The board and the workers are all there is to a coordinator. -/
theorem refines_unique (h : Refines b c) (h' : Refines b c') (hw : c.workers = c'.workers) :
    c = c' := by
  have hp : c.phase = c'.phase := by
    have hm := h.mapping.trans h'.mapping.symm
    have hf := h.finished.trans h'.finished.symm
    have hk := h.known
    have hk' := h'.known
    revert hm hf hk hk'
    cases c.phase <;> cases c'.phase <;> simp
  have ht := h.tasks.trans h'.tasks.symm
  have hm := h.maps.trans h'.maps.symm
  have hr := h.reduces.trans (Eq.trans (by rw [hp]) h'.reduces.symm)
  cases c
  cases c'
  cases ht
  cases hm
  cases hr
  cases hp
  cases hw
  rfl

/-- The report names task `k`, which is out to the reporter, pending or done. -/
def Names (b : Schedule files nReduce) (args : WorkerTaskUpdateArgs) (k : Nat) : Prop :=
  args.workerID ≠ "" ∧ (∃ e, b.entries[k]? = some e ∧ e.owner.workerId = args.workerID) ∧
  ∃ g, (plan files nReduce)[k]? = some g ∧ g.type = args.type ∧ g.taskId = args.taskId

theorem reports_names (h : Reports b args k) : Names b args k := by
  obtain ⟨hid,⟨e,he,_,ho⟩,hg⟩ := h
  exact ⟨hid,⟨e,he,ho⟩,hg⟩

theorem names_reports (h : Names b args k) (hp : b.Pending k) : Reports b args k := by
  obtain ⟨hid,⟨e,he,ho⟩,hg⟩ := h
  obtain ⟨e',he',hd⟩ := hp
  rw [he] at he'
  cases he'
  exact ⟨hid,⟨e,he,hd,ho⟩,hg⟩

theorem names_inj (h : Names b args k) (h' : Names b args k') : k = k' := by
  obtain ⟨_,_,g,hg,ht,hid⟩ := h
  obtain ⟨_,_,g',hg',ht',hid'⟩ := h'
  exact plan_inj hg hg' (ht.trans ht'.symm) (hid.trans hid'.symm)

theorem marked_names {p : Nat → Prop} (h : b.Marked p b') : Names b' args k ↔ Names b args k := by
  have he : (∃ e, b'.entries[k]? = some e ∧ e.owner.workerId = args.workerID) ↔
      ∃ e, b.entries[k]? = some e ∧ e.owner.workerId = args.workerID := by
    cases hk : b.entries[k]? with
    | none =>
      have hn : b'.entries[k]? = none := entry_none.mpr (by rw [h.1]; exact entry_none.mp hk)
      simp [hn]
    | some e =>
      obtain ⟨e',he',ho,_⟩ := h.2 k e hk
      simp [he',ho]
  simp only [Names,he]

theorem update_marked (h : Refines b c) (args : WorkerTaskUpdateArgs) :
    ∃ b', b.Marked (Names b args) b' ∧ Refines b' (c.taskUpdateByWorker args).1 ∧
      (c.taskUpdateByWorker args).1.workers = c.workers := by
  have hs := update_spec h args
  generalize (c.taskUpdateByWorker args).1 = c' at hs ⊢
  generalize (c.taskUpdateByWorker args).2 = reply at hs
  cases hs with
  | kept hn _ _ => exact ⟨b,Board.marked_stay (fun k hk hp => hn k (names_reports hk hp)),h,rfl⟩
  | finished hk hc hw _ _ =>
    refine ⟨_,Board.marked_finish ?_,hc,hw⟩
    exact fun j => ⟨fun hj => names_inj hj (reports_names hk),fun hj => hj ▸ reports_names hk⟩

/-- After a list of reports the tasks are done that were, or that some report of the list
names: its order and its repetitions do not matter. -/
theorem delivered_marked (h : Refines b c) (xs : List WorkerTaskUpdateArgs) :
    ∃ b', b.Marked (fun k => ∃ args ∈ xs, Names b args k) b' ∧
      Refines b' (c.serve (xs.map .taskUpdateByWorker)) ∧
      (c.serve (xs.map .taskUpdateByWorker)).workers = c.workers := by
  induction xs generalizing b c with
  | nil => exact ⟨b,Board.marked_stay (by simp),h,rfl⟩
  | cons args xs ih =>
    obtain ⟨b₁,hm₁,h₁,hw₁⟩ := update_marked h args
    obtain ⟨b₂,hm₂,h₂,hw₂⟩ := ih h₁
    refine ⟨b₂,?_,h₂,hw₂.trans hw₁⟩
    have hm := hm₁.trans hm₂
    simp only [marked_names hm₁] at hm
    simpa only [List.exists_mem_cons_iff] using hm

end

/-- Reports that arrive in another order, or more than once, lead to the same state. -/
theorem reports_order_free (files : List String) (nReduce : Int) (hc : Reachable files nReduce c)
    (xs ys : List WorkerTaskUpdateArgs) (hxy : ∀ args, args ∈ xs ↔ args ∈ ys) :
    c.serve (xs.map .taskUpdateByWorker) = c.serve (ys.map .taskUpdateByWorker) := by
  by_cases hf : files = []
  · subst hf
    obtain ⟨hm,hr,_⟩ := reach_empty hc
    have hkept (zs : List WorkerTaskUpdateArgs) :
        c.serve (zs.map .taskUpdateByWorker) = c := by
      induction zs with
      | nil => rfl
      | cons args zs ih => simpa [Coordinator.serve,Coordinator.handle,empty_update hm hr] using ih
    rw [hkept,hkept]
  · obtain ⟨b,h⟩ := reach_refines hf hc
    obtain ⟨b₁,hm₁,h₁,hw₁⟩ := delivered_marked h xs
    obtain ⟨b₂,hm₂,h₂,hw₂⟩ := delivered_marked h ys
    simp only [hxy] at hm₁
    cases hm₁.unique hm₂
    exact refines_unique h₁ h₂ (hw₁.trans hw₂.symm)

/-- The only map task is with `worker-1`. -/
def assignedCalls : List Call :=
  [.registerWorker ⟨"worker-1","",""⟩,.taskRequestByWorker ⟨"worker-1","",""⟩]

/-- Before the last map report the reduce report is turned away, and after it too. -/
theorem reports_order_free_map_reduce :
    let c := (makeCoordinator ["pg.txt"] 1).serve assignedCalls
    c.serve ([⟨"worker-1","task-0",.mapTask,.done⟩,⟨"worker-1","task-0",.reduceTask,.done⟩].map
        .taskUpdateByWorker) =
      c.serve ([⟨"worker-1","task-0",.reduceTask,.done⟩,⟨"worker-1","task-0",.mapTask,.done⟩,
        ⟨"worker-1","task-0",.mapTask,.done⟩].map .taskUpdateByWorker) :=
  reports_order_free ["pg.txt"] 1 (served_reachable _ _ _) _ _
    (by intro args; simp only [List.mem_cons,List.not_mem_nil,or_false]; tauto)

section
variable {files : List String} {nReduce : Int} {b b' : Schedule files nReduce} {c c' : Coordinator}
variable {args : WorkerTaskUpdateArgs} {job : Job}

theorem issue_pending (hw : job.status = .waiting) :
    (job.issue e).status = .pending ↔ ∃ d, e = some d ∧ d.done = false := by
  cases e with
  | none => simp [Job.issue,hw]
  | some e => cases hd : e.done <;> simp [Job.issue,hd]

theorem completable_reports (h : Refines b c) (hc : c.Completable args i job) :
    Reports b args (place files args.type i) := by
  obtain ⟨hj,hid,hs,ho,hne⟩ := hc
  rw [jobs_get h] at hj
  split at hj
  · cases hj
  · obtain ⟨base,hb,rfl⟩ := Option.map_eq_some_iff.mp hj
    obtain ⟨hw,g,hg,ht,hgid⟩ := origin_planned hb
    obtain ⟨e,he,hd⟩ := (issue_pending hw).mp hs
    rw [he] at ho hid
    exact ⟨hne,⟨e,he,hd,ho⟩,g,hg,ht,hgid.trans hid⟩

theorem reports_completable (h : Refines b c) (hr : Reports b args k) :
    ∃ i job, c.Completable args i job := by
  obtain ⟨hne,⟨e,he,hd,ho⟩,g,hg,ht,hid⟩ := hr
  have hlt : k < b.issued := (List.getElem?_eq_some_iff.mp he).1
  have hopen (base : Job) : (base.issue (some e)).status = .pending := by simp [Job.issue,hd]
  rcases plan_cases hg with ⟨f,hf,rfl⟩ | ⟨j,rfl,hj,rfl⟩
  · refine ⟨k,(mapJob nReduce k f).issue (some e),?_,hid,hopen _,ho,hne⟩
    rw [← ht,mapGrant,Coordinator.jobs,map_get h k,hf,he]
    rfl
  · have hp : c.phase ≠ .mapPhase := (phase_firstDone h).mpr (Board.barrier_firstDone (by omega))
    refine ⟨j,(reduceJob j).issue (some e),?_,hid,hopen _,ho,hne⟩
    rw [← ht,reduceGrant,Coordinator.jobs,reduce_get h hp j,if_pos hj,he]

/-- A report changes the state exactly if it is of a pending task of the reporter's. -/
theorem update_changes (h : Refines b c) :
    (c.taskUpdateByWorker args).1 ≠ c ↔ ∃ i job, c.Completable args i job := by
  constructor
  · intro hne
    have hs := update_spec h args
    generalize (c.taskUpdateByWorker args).1 = c' at hs hne
    generalize (c.taskUpdateByWorker args).2 = reply at hs
    cases hs with
    | kept _ _ _ => exact absurd rfl hne
    | finished hk _ _ _ _ => exact reports_completable h hk
  · intro hx heq
    obtain ⟨i,job,hc⟩ := hx
    have hr := completable_reports h hc
    have h' := report_finishes h hr
    rw [heq] at h'
    have hp := (completable_reports h' hc).pending
    exact ((Board.finish_pending b _).mp hp).2 rfl

theorem lastOpen_listed {jobs : List Job} (hl : Listed b t jobs off) :
    LastOpen jobs i ↔ ∀ j < jobs.length, b.Finished (off + j) ∨ j = i := by
  constructor
  · intro h j hj
    obtain ⟨base,hb,_,_,hw⟩ := hl.jobAt j jobs[j] (List.getElem?_eq_getElem hj)
    by_cases hd : jobs[j].status = .done
    · rw [hb] at hd
      exact Or.inl ((issue_done hw).mp hd)
    · exact Or.inr (h j jobs[j] (List.getElem?_eq_getElem hj) hd)
  · intro h j job hj hne
    obtain ⟨base,rfl,_,_,hw⟩ := hl.jobAt j job hj
    rcases h j (List.getElem?_eq_some_iff.mp hj).1 with hd | hi
    · exact absurd ((issue_done hw).mpr hd) hne
    · exact hi

theorem lastOpen_map (h : Refines b c) (hk : b.Pending i) :
    LastOpen c.mapTasks i ↔ (b.finish i).FirstDone := by
  rw [lastOpen_listed (map_listed h),map_length h]
  simp only [Board.FirstDone,Board.finish_finished b (Board.pending_lt hk),Nat.zero_add]

theorem lastOpen_reduce (h : Refines b c) (hp : c.phase ≠ .mapPhase)
    (hk : b.Pending (files.length + i)) :
    LastOpen c.reduceTasks i ↔ (b.finish (files.length + i)).Complete := by
  have hfirst := (phase_firstDone h).mp hp
  rw [lastOpen_listed (reduce_listed h),reduce_length h hp]
  simp only [Board.Complete,Board.finish_finished b (Board.pending_lt hk)]
  constructor
  · intro hl k hlt
    rcases Nat.lt_or_ge k files.length with hf | hf
    · exact Or.inl (hfirst k hf)
    · obtain ⟨j,rfl⟩ := Nat.exists_eq_add_of_le hf
      exact (hl j (by omega)).imp_right (fun hi => by rw [hi])
  · intro hl j hj
    exact (hl (files.length + j) (by omega)).imp_right (fun hi => by omega)

theorem complete_map (h : Refines b c) (h' : Refines (b.finish i) c') (hk : b.Pending i)
    (hj : c.mapTasks[i]? = some job) :
    c'.mapTasks = c.mapTasks.set i { job with status := .done } ∧
    (LastOpen c.mapTasks i → c.phase = .mapPhase ∧ c.reduceTasks = [] ∧ c'.phase = .reducePhase ∧
      c'.reduceTasks = (List.range nReduce.toNat).map reduceJob) ∧
    (¬ LastOpen c.mapTasks i → c'.phase = c.phase ∧ c'.reduceTasks = c.reduceTasks) := by
  obtain ⟨hi,rfl⟩ := List.getElem?_eq_some_iff.mp hj
  have hfiles : i < files.length := by rw [← map_length h]; exact hi
  have hp : c.phase = .mapPhase := by
    refine h.mapping.mpr (fun hf => ?_)
    exact Board.not_finished_of_pending hk (hf i hfiles)
  rw [lastOpen_map h hk]
  refine ⟨h'.maps.trans (finish_maps h hi hk).symm,?_,?_⟩
  · intro hf
    have hp' := (phase_firstDone h').mpr hf
    have hnone (j : Nat) : (b.finish i).entries[files.length + j]? = none :=
      created_unassigned h h' (.finish hk) hp hp'
    have hopen : c'.phase ≠ .finishedPhase := by
      -- a job without reduce tasks is never finished, and with one it is not yet
      intro hfin
      obtain ⟨hc,hn⟩ := h'.finished.mp hfin
      have hlt := Board.finished_lt (hc (files.length + 0) (by omega))
      have hle := entry_none.mp (hnone 0)
      omega
    refine ⟨hp,by simp [h.reduces,hp],phase_reduce h' hp' hopen,?_⟩
    rw [h'.reduces,if_neg hp']
    simp only [hnone]
    rfl
  · intro hf
    have hp' := h'.mapping.mpr hf
    exact ⟨hp'.trans hp.symm,by simp [h.reduces,h'.reduces,hp,hp']⟩

theorem complete_reduce (h : Refines b c) (h' : Refines (b.finish (files.length + i)) c')
    (hk : b.Pending (files.length + i)) (hj : c.reduceTasks[i]? = some job) :
    c'.mapTasks = c.mapTasks ∧ c'.reduceTasks = c.reduceTasks.set i { job with status := .done } ∧
    (LastOpen c.reduceTasks i → c.phase = .reducePhase ∧ c'.phase = .finishedPhase) ∧
    (¬ LastOpen c.reduceTasks i → c'.phase = c.phase) := by
  obtain ⟨hi,rfl⟩ := List.getElem?_eq_some_iff.mp hj
  have hp : c.phase ≠ .mapPhase := by
    intro hp
    simp [h.reduces,hp] at hi
  have hn : i < nReduce.toNat := by rw [← reduce_length h hp]; exact hi
  have hp' : c'.phase ≠ .mapPhase := by
    refine (phase_firstDone h').mpr ?_
    exact (Board.Moves.finish hk).firstDone ((phase_firstDone h).mp hp)
  have hopen : c.phase ≠ .finishedPhase := by
    intro hfin
    exact Board.not_finished_of_pending hk ((h.finished.mp hfin).1 _ (by omega))
  have hred := phase_reduce h hp hopen
  rw [lastOpen_reduce h hp hk]
  refine ⟨?_,?_,?_,?_⟩
  · apply List.ext_getElem?
    intro j
    rw [map_get h j,map_get h' j,Board.finish_get]
    rcases Nat.lt_or_ge j files.length with hj | hj
    · have hne : files.length + i ≠ j := by omega
      simp [hne]
    · simp [List.getElem?_eq_none hj]
  · rw [h'.reduces,if_neg hp']
    exact (finish_reduces h hp hi hk).symm
  · exact fun hc => ⟨hred,h'.finished.mpr ⟨hc,by omega⟩⟩
  · intro hc
    rw [hred]
    exact phase_reduce h' hp' (fun hfin => hc (h'.finished.mp hfin).1)

end

/-- A report does exactly one of two things: it makes the one pending task that it names,
of the reporter's own, done, or nothing at all. -/
theorem update_all_or_nothing (files : List String) (nReduce : Int) (hf : files ≠ [])
    (hc : Reachable files nReduce c) (args : WorkerTaskUpdateArgs) :
    let c' := (c.taskUpdateByWorker args).1
    (c' ≠ c ↔ ∃ i job, c.Completable args i job) ∧
    ∀ i job, c.Completable args i job →
      c'.workers = c.workers ∧ c'.noOfReduceTasks = c.noOfReduceTasks ∧
      (args.type = .mapTask →
        c'.mapTasks = c.mapTasks.set i { job with status := .done } ∧
        (LastOpen c.mapTasks i → c.phase = .mapPhase ∧ c.reduceTasks = [] ∧
          c'.phase = .reducePhase ∧ c'.reduceTasks = (List.range nReduce.toNat).map reduceJob) ∧
        (¬ LastOpen c.mapTasks i → c'.phase = c.phase ∧ c'.reduceTasks = c.reduceTasks)) ∧
      (args.type = .reduceTask →
        c'.mapTasks = c.mapTasks ∧
        c'.reduceTasks = c.reduceTasks.set i { job with status := .done } ∧
        (LastOpen c.reduceTasks i → c.phase = .reducePhase ∧ c'.phase = .finishedPhase) ∧
        (¬ LastOpen c.reduceTasks i → c'.phase = c.phase)) := by
  intro c'
  obtain ⟨b,h⟩ := reach_refines hf hc
  refine ⟨update_changes h,?_⟩
  intro i job hcomp
  have hr := completable_reports h hcomp
  have h' := report_finishes h hr
  have hw := handle_workers c (.taskUpdateByWorker args)
  have hj := hcomp.1
  simp only [enrols,List.append_nil] at hw
  refine ⟨hw,h'.tasks.trans h.tasks.symm,?_,?_⟩
  · intro ht
    rw [ht] at hr h' hj
    exact complete_map h h' hr.pending hj
  · intro ht
    rw [ht] at hr h' hj
    exact complete_reduce h h' hr.pending hj

theorem update_all_or_nothing_last_map :
    (((makeCoordinator ["pg.txt"] 2).serve assignedCalls).taskUpdateByWorker
        ⟨"worker-1","task-0",.mapTask,.done⟩).1 ≠ (makeCoordinator ["pg.txt"] 2).serve assignedCalls :=
  (update_all_or_nothing ["pg.txt"] 2 (by decide)
    (served_reachable _ _ assignedCalls) ⟨"worker-1","task-0",.mapTask,.done⟩).1.mpr
      ⟨0,{ mapJob 2 0 "pg.txt" with
        status := .pending, worker := { workerId := "worker-1", status := .stateConnected } },
        by decide,rfl,rfl,rfl,by decide⟩

end Proofs

end MapReduce
