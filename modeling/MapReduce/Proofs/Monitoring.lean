import Mathlib
import MapReduce.Health
import MapReduce.Library.Runs
import MapReduce.Proofs.Calls

namespace MapReduce

/-- A worker's record without what its probes write. -/
def WorkerType.blur (worker : WorkerType) : WorkerType :=
  { worker with status := .unset, heartBeatChecks := 0 }

def Job.blur (job : Job) : Job := { job with worker := job.worker.blur }

def Coordinator.blur (c : Coordinator) : Coordinator :=
  { c with
    mapTasks := c.mapTasks.map Job.blur,
    reduceTasks := c.reduceTasks.map Job.blur,
    workers := c.workers.map WorkerType.blur }

namespace Proofs

@[simp] theorem blur_workerId (w : WorkerType) : w.blur.workerId = w.workerId := rfl

@[simp] theorem probed_blur (int : IntSize) (w : WorkerType) (outcome : Outcome) :
    (w.probed int outcome).blur = w.blur := by
  cases outcome with
  | dialFailure | success _ => rfl
  | callFailure =>
    simp only [WorkerType.probed]
    split <;> rfl

theorem scan_map {α β : Type} (f : α → β) (p : β → Bool) (xs : List α) :
    (xs.map f).findFinIdx? p =
      (xs.findFinIdx? (fun x => p (f x))).map (Fin.cast (List.length_map f).symm) := by
  cases hs : xs.findFinIdx? (fun x => p (f x)) with
  | none =>
    rw [Option.map_none,List.findFinIdx?_eq_none_iff]
    intro y hy
    obtain ⟨x,hx,rfl⟩ := List.mem_map.mp hy
    exact List.findFinIdx?_eq_none_iff.mp hs x hx
  | some i =>
    obtain ⟨hi,hmin⟩ := List.findFinIdx?_eq_some_iff.mp hs
    rw [Option.map_some,List.findFinIdx?_eq_some_iff]
    refine ⟨by simpa using hi,?_⟩
    intro j hj
    have := hmin (Fin.cast (List.length_map f) j) (by simpa [Fin.lt_def] using hj)
    simpa using this

theorem transition_blur (c : Coordinator) (t : TaskType) :
    (c.taskTransitionManager t).blur = c.blur.taskTransitionManager t := by
  have hf (n : Nat) : ((List.range n).map reduceJob).map Job.blur = (List.range n).map reduceJob := by
    rw [List.map_map]
    rfl
  cases t with
  | mapTask =>
    simp only [Coordinator.taskTransitionManager,Coordinator.blur,List.any_map]
    have ha : ((fun task : Job => task.status == .pending || task.status == .waiting) ∘ Job.blur) =
        fun task => task.status == .pending || task.status == .waiting := rfl
    rw [ha]
    split <;> simp only [List.map_append,hf]
  | reduceTask =>
    simp only [Coordinator.taskTransitionManager,Coordinator.blur,List.countP_map,List.length_map]
    have ha : ((fun task : Job => task.status == .done) ∘ Job.blur) =
        fun task => task.status == .done := rfl
    rw [ha]
    split <;> rfl
  | unset | other _ => rfl

theorem report_blur (c : Coordinator) (args : WorkerTaskUpdateArgs) (jobs : List Job)
    {store store' : List Job → Coordinator}
    (hs : ∀ jobs, (store jobs).blur = store' (jobs.map Job.blur)) :
    c.blur.reportJob args (jobs.map Job.blur) store' =
      ((c.reportJob args jobs store).1.blur,(c.reportJob args jobs store).2) := by
  unfold Coordinator.reportJob
  rw [scan_map]
  have hp : (fun job : Job => job.blur.taskId == args.taskId) =
      fun job => job.taskId == args.taskId := rfl
  rw [hp]
  cases jobs.findFinIdx? (fun job => job.taskId == args.taskId) with
  | none => rfl
  | some i =>
    simp only [Option.map_some,Fin.getElem_fin,Fin.val_cast,List.getElem_map]
    have hw : jobs[i].blur.worker.workerId = jobs[i].worker.workerId := rfl
    have hd : jobs[i].blur.status = jobs[i].status := rfl
    simp only [Fin.getElem_fin] at hw hd
    rw [hw,hd]
    split
    · rfl
    · split
      · rfl
      · rw [transition_blur,hs,List.map_set]
        rfl

theorem update_blur (c : Coordinator) (args : WorkerTaskUpdateArgs) :
    c.blur.taskUpdateByWorker args =
      ((c.taskUpdateByWorker args).1.blur,(c.taskUpdateByWorker args).2) := by
  unfold Coordinator.taskUpdateByWorker
  split
  · rfl
  · split
    · rfl
    · cases args.type with
      | unset | other _ => rfl
      | mapTask => exact report_blur c args c.mapTasks (fun _ => rfl)
      | reduceTask => exact report_blur c args c.reduceTasks (fun _ => rfl)

theorem assign_map_blur (c : Coordinator) (w : WorkerType) (reply : WorkerTaskRequestReply) :
    c.blur.assignMapTask w.blur reply =
      ((c.assignMapTask w reply).1.blur,(c.assignMapTask w reply).2) := by
  have hp : (fun job : Job => job.blur.status == .waiting) = fun job => job.status == .waiting := rfl
  unfold Coordinator.assignMapTask
  simp only [Coordinator.blur,scan_map,hp]
  cases c.mapTasks.findFinIdx? (fun job => job.status == .waiting) with
  | none => rfl
  | some i =>
    simp only [Option.map_some,Fin.getElem_fin,Fin.val_cast,List.getElem_map,List.map_set]
    rfl

theorem assign_reduce_blur (c : Coordinator) (w : WorkerType) (reply : WorkerTaskRequestReply) :
    c.blur.assignReduceTask w.blur reply =
      ((c.assignReduceTask w reply).1.blur,(c.assignReduceTask w reply).2) := by
  have hp : (fun job : Job => job.blur.status == .waiting) = fun job => job.status == .waiting := rfl
  unfold Coordinator.assignReduceTask
  simp only [Coordinator.blur,scan_map,hp]
  cases c.reduceTasks.findFinIdx? (fun job => job.status == .waiting) with
  | none => rfl
  | some i =>
    simp only [Option.map_some,Fin.getElem_fin,Fin.val_cast,List.getElem_map,List.map_set]
    rfl

theorem request_blur (c : Coordinator) (args : WorkerTaskRequestArgs) :
    c.blur.taskRequestByWorker args =
      ((c.taskRequestByWorker args).1.blur,(c.taskRequestByWorker args).2) := by
  have hfind : c.blur.workers.find? (fun worker => worker.workerId == args.workerID) =
      (c.workers.find? (fun worker => worker.workerId == args.workerID)).map WorkerType.blur :=
    List.find?_map
  have hphase : c.blur.phase = c.phase := rfl
  unfold Coordinator.taskRequestByWorker
  rw [hfind,hphase]
  cases c.workers.find? (fun worker => worker.workerId == args.workerID) with
  | none => rfl
  | some w =>
    simp only [Option.map_some]
    cases c.phase with
    | unset | finishedPhase => rfl
    | mapPhase => exact assign_map_blur c w _
    | reducePhase => exact assign_reduce_blur c w _

/-- No handler reads what the probes write. -/
theorem handle_blur (c : Coordinator) (call : Call) :
    (c.blur.handle call).1.blur = (c.handle call).1.blur ∧
      (c.blur.handle call).2 = (c.handle call).2 := by
  have hb (c : Coordinator) : c.blur.blur = c.blur := by
    simp only [Coordinator.blur,List.map_map]
    rfl
  cases call with
  | registerWorker args =>
    refine ⟨?_,rfl⟩
    simp only [Coordinator.handle,Coordinator.registerWorker,Coordinator.blur,List.map_map,
      List.map_append]
    rfl
  | taskRequestByWorker args =>
    simp only [Coordinator.handle,request_blur,hb,and_self]
  | taskUpdateByWorker args =>
    simp only [Coordinator.handle,update_blur,hb,and_self]

/-- What an event does to a coordinator and its probes. -/
inductive Monitored (int : IntSize) (m : Monitor) : Monitor.Event → Monitor → Prop
  | called : Monitored int m (.call call) { m with coordinator := (m.coordinator.handle call).1 }
  | ticked (pc : HealthcheckPc) : Monitored int m .tick { m with healthcheck := pc }
  | copied : Monitored int m .snapshot
      { m with healthcheck := .ticker, probes := m.probes ++ m.coordinator.snapshot }
  | synced (hp : m.probes[i]? = some probe)
      (hw : m.coordinator.workers[probe.workerIdx]? = some worker) :
      Monitored int m (.workerSync i outcome) { m with
        coordinator := { m.coordinator with workers :=
          (m.coordinator.workers.set probe.workerIdx (worker.probed int outcome)) },
        probes := m.probes.eraseIdx i }

variable {int : IntSize}

theorem sync_next {m : Monitor} {i : Nat} (outcome : Outcome) (hp : m.probes[i]? = some probe)
    (hw : m.coordinator.workers[probe.workerIdx]? = some worker) :
    m.next int (.workerSync i outcome) = some { m with
      coordinator := { m.coordinator with workers :=
        (m.coordinator.workers.set probe.workerIdx (worker.probed int outcome)) },
      probes := m.probes.eraseIdx i } := by
  simp [Monitor.next,Coordinator.workerSync,hp,hw]

theorem next_monitored {m m' : Monitor} (h : m.next int event = some m') :
    Monitored int m event m' := by
  cases event with
  | call call =>
    cases h
    exact .called
  | tick =>
    simp only [Monitor.next] at h
    split at h
    · cases h
      exact .ticked _
    · cases h
  | snapshot =>
    simp only [Monitor.next] at h
    split at h
    · cases h
      exact .copied
    · cases h
  | workerSync i outcome =>
    cases hp : m.probes[i]? with
    | none => simp [Monitor.next,hp] at h
    | some probe =>
      cases hw : m.coordinator.workers[probe.workerIdx]? with
      | none => simp [Monitor.next,Coordinator.workerSync,hp,hw] at h
      | some worker =>
        rw [sync_next outcome hp hw] at h
        cases h
        exact .synced hp hw

/-- Every probe in flight has the index of the worker it was started for. -/
def Aimed (m : Monitor) : Prop :=
  ∀ probe ∈ m.probes,
    m.coordinator.workers[probe.workerIdx]?.map WorkerType.workerId = some probe.workerId

variable {m m' : Monitor} {c : Coordinator}

theorem snapshot_aimed {probe : Probe} (h : probe ∈ c.snapshot) :
    c.workers[probe.workerIdx]?.map WorkerType.workerId = some probe.workerId := by
  obtain ⟨idx,hi⟩ := List.mem_iff_getElem?.mp h
  rw [Coordinator.snapshot,List.getElem?_mapIdx] at hi
  obtain ⟨w,hw,rfl⟩ := Option.map_eq_some_iff.mp hi
  simp [hw]

@[simp] theorem probed_workerId (w : WorkerType) (outcome : Outcome) :
    (w.probed int outcome).workerId = w.workerId := by
  rw [← blur_workerId,probed_blur int,blur_workerId]

theorem Monitored.aimed (h : Monitored int m event m') (ha : Aimed m) : Aimed m' := by
  cases h with
  | called =>
    intro probe hp
    obtain ⟨w,hw,hid⟩ := Option.map_eq_some_iff.mp (ha probe hp)
    have hl := (List.getElem?_eq_some_iff.mp hw).1
    rw [handle_workers,List.getElem?_append_left hl,hw,Option.map_some,hid]
  | ticked pc => exact ha
  | copied =>
    intro probe hp
    rcases List.mem_append.mp hp with hp | hp
    · exact ha probe hp
    · exact snapshot_aimed hp
  | synced hp hw =>
    rename_i i aim worker outcome
    intro probe hprobe
    have h := ha probe (List.mem_of_mem_eraseIdx hprobe)
    rw [List.getElem?_set]
    split
    · rename_i he
      rw [← he,hw] at h
      simpa [(List.getElem?_eq_some_iff.mp hw).1] using h
    · exact h

theorem Monitored.blur (h : Monitored int m event m') (hb : m.coordinator.blur = c.blur) :
    m.replies event = c.answers event.call?.toList ∧
      m'.coordinator.blur = (c.serve event.call?.toList).blur := by
  cases h with
  | called =>
    rename_i call
    have hm := handle_blur m.coordinator call
    have hc := handle_blur c call
    rw [hb] at hm
    simp only [Monitor.replies,Monitor.Event.call?,Option.toList_some,Coordinator.answers,
      Coordinator.serve]
    exact ⟨by rw [← hm.2,hc.2],by rw [← hm.1,hc.1]⟩
  | ticked _ | copied => exact ⟨rfl,hb⟩
  | synced hp hw =>
    refine ⟨rfl,Eq.trans ?_ hb⟩
    obtain ⟨hl,rfl⟩ := List.getElem?_eq_some_iff.mp hw
    simp only [Coordinator.blur,List.map_set,probed_blur]
    rw [← List.map_set,List.set_getElem_self]

/-- A run and what is left of it without the health checks give the same answers and
end alike. -/
theorem run_blur (hr : Runs.run (Monitor.next int) m events = some m')
    (hb : m.coordinator.blur = c.blur) :
    Runs.trace (Monitor.next int) Monitor.replies m events =
        c.answers (events.filterMap Monitor.Event.call?) ∧
      m'.coordinator.blur = (c.serve (events.filterMap Monitor.Event.call?)).blur := by
  induction events generalizing m c with
  | nil =>
    cases hr
    exact ⟨rfl,hb⟩
  | cons event events ih =>
    obtain ⟨m₁,h₁,hr⟩ := Runs.run_cons.mp hr
    obtain ⟨ha,hb₁⟩ := (next_monitored h₁).blur hb
    obtain ⟨has,hbs⟩ := ih hr hb₁
    rw [Runs.trace,h₁,Option.map_some,Option.getD_some,ha,has]
    cases hc : event.call? with
    | none =>
      rw [hc] at hbs
      rw [List.filterMap_cons_none hc]
      exact ⟨rfl,hbs⟩
    | some call =>
      rw [hc] at hbs
      rw [List.filterMap_cons_some hc]
      exact ⟨rfl,hbs⟩

/-- What the scheduling depends on and shows of a task. -/
def standing (job : Job) : String × TaskStatus × String :=
  (job.taskId,job.status,job.worker.workerId)

theorem standing_blur (jobs : List Job) : (jobs.map Job.blur).map standing = jobs.map standing := by
  rw [List.map_map]
  rfl

/-- However probes and calls mix, a probe that ends writes the record of the worker it
was started for and no other, and the workers and the tasks fare as they would with no
health checks at all. -/
theorem health_checks_invisible (int : IntSize) (files : List String) (nReduce : Int)
    (events : List Monitor.Event)
    (hr : Runs.run (Monitor.next int) (Monitor.start files nReduce) events = some m) :
    (∀ (i : Nat) (probe : Probe), m.probes[i]? = some probe →
      ∃ worker, m.coordinator.workers[probe.workerIdx]? = some worker ∧
        worker.workerId = probe.workerId ∧
        let checks := worker.heartBeatChecks
        let ended (record : WorkerType) : Option Monitor := some { m with
          coordinator := { m.coordinator with workers :=
            (m.coordinator.workers.set probe.workerIdx record) },
          probes := m.probes.eraseIdx i }
        m.next int (.workerSync i .dialFailure) =
            ended { worker with status := .stateRetrying } ∧
          m.next int (.workerSync i .callFailure) = ended
            (if checks = 3 then { worker with status := .statusError }
            else
              { worker with status := .stateRetrying, heartBeatChecks := int.wrap (checks + 1) }) ∧
          ∀ result, m.next int (.workerSync i (.success result)) = ended
            { worker with status := .stateConnected, heartBeatChecks := int.wrap (checks + 1) }) ∧
    let calls := events.filterMap Monitor.Event.call?
    let c := (makeCoordinator files nReduce).serve calls
    Runs.trace (Monitor.next int) Monitor.replies (Monitor.start files nReduce) events =
        (makeCoordinator files nReduce).answers calls ∧
      m.coordinator.mapTasks.map standing = c.mapTasks.map standing ∧
      m.coordinator.reduceTasks.map standing = c.reduceTasks.map standing ∧
      m.coordinator.phase = c.phase := by
  have ha : Aimed m := Runs.invariant Aimed (fun _ _ _ ha _ h => (next_monitored h).aimed ha) hr
    (Runs.obeys_true _ _) (by simp [Aimed,Monitor.start])
  obtain ⟨ht,hb⟩ := run_blur (c := makeCoordinator files nReduce) hr rfl
  have hphase := congrArg Coordinator.phase hb
  refine ⟨?_,ht,?_,?_,hphase⟩
  · intro i probe hp
    obtain ⟨worker,hw,hid⟩ := Option.map_eq_some_iff.mp (ha probe (List.mem_of_getElem? hp))
    exact ⟨worker,hw,hid,sync_next .dialFailure hp hw,sync_next .callFailure hp hw,
      fun result => sync_next (.success result) hp hw⟩
  · rw [← standing_blur m.coordinator.mapTasks,← standing_blur (Coordinator.mapTasks _)]
    exact congrArg (fun c : Coordinator => c.mapTasks.map standing) hb
  · rw [← standing_blur m.coordinator.reduceTasks,← standing_blur (Coordinator.reduceTasks _)]
    exact congrArg (fun c : Coordinator => c.reduceTasks.map standing) hb

/-- A probe that fails after its worker was given a task. -/
def probedRun : List Monitor.Event :=
  [.call (.registerWorker ⟨"worker-1","localhost","3001"⟩),.tick,.snapshot,
    .call (.taskRequestByWorker ⟨"worker-1","localhost","3001"⟩),.workerSync 0 .callFailure,
    .call (.taskUpdateByWorker ⟨"worker-1","task-0",.mapTask,.done⟩)]

theorem health_checks_invisible_one_probe :
    Runs.trace (Monitor.next .w64) Monitor.replies (Monitor.start ["pg.txt"] 1) probedRun =
      (makeCoordinator ["pg.txt"] 1).answers (probedRun.filterMap Monitor.Event.call?) :=
  (health_checks_invisible .w64 ["pg.txt"] 1 probedRun (Option.eq_some_of_isSome (by decide))).2.1

end Proofs

end MapReduce
