import Mathlib
import MapReduce.Library.Runs
import MapReduce.Proofs.Recovery

namespace MapReduce

/-- The list in which `TaskUpdateByWorker` looks up a task of this type. -/
def Coordinator.jobs (c : Coordinator) : TaskType → List Job
  | .mapTask => c.mapTasks
  | .reduceTask => c.reduceTasks
  | _ => []

/-- The id that the caller of a handler gives as its own. -/
def Call.workerID : Call → String
  | .registerWorker args => args.workerID
  | .taskRequestByWorker args => args.workerID
  | .taskUpdateByWorker args => args.workerID

/-- The calls with their answers. -/
def Coordinator.exchanges (c : Coordinator) (calls : List Call) : List (Call × Answer) :=
  calls.zip (c.answers calls)

namespace Proofs
open Dispatch Runs

/-- The request was granted the task of this type and id. -/
def Grants (t : TaskType) (id : String) : Call × Answer → Prop
  | (.taskRequestByWorker _,.requested reply) =>
    reply.taskAvailable = true ∧ reply.type = t ∧ reply.taskId = id
  | _ => False

/-- The report of the task of this type and id was taken. -/
def Accepts (t : TaskType) (id : String) : Call × Answer → Prop
  | (.taskUpdateByWorker args,.updated reply) =>
    reply.message = "Task update received successfully" ∧ args.type = t ∧ args.taskId = id
  | _ => False

/-- What a call can do to a task, after the calls `past`. -/
inductive Proceeds (past : List Call) : Job → Job → Prop
  | kept : Proceeds past job job
  | assigned (hs : job.status = .waiting) (hw : Call.registerWorker args ∈ past)
      (hid : w.workerId = args.workerID) :
      Proceeds past job { job with status := .pending, worker := w }
  | completed (hs : job.status = .pending) : Proceeds past job { job with status := .done }

/-- What a call can do to the tasks: those there are advance, and those it adds wait. -/
structure Progresses (past : List Call) (c c' : Coordinator) : Prop where
  task : ∀ (t : TaskType) (i : Nat) (job : Job), (c.jobs t)[i]? = some job →
    ∃ job', (c'.jobs t)[i]? = some job' ∧ Proceeds past job job'
  added : ∀ (t : TaskType) (i : Nat) (job : Job), (c.jobs t)[i]? = none →
    (c'.jobs t)[i]? = some job → job.status = .waiting

theorem answers_append (c : Coordinator) (calls more : List Call) :
    c.answers (calls ++ more) = c.answers calls ++ (c.serve calls).answers more := by
  induction calls generalizing c with
  | nil => rfl
  | cons call calls ih => simp [Coordinator.answers,Coordinator.serve,ih]

theorem answers_length (c : Coordinator) (calls : List Call) :
    (c.answers calls).length = calls.length := by
  induction calls generalizing c with
  | nil => rfl
  | cons call calls ih => simp [Coordinator.answers,ih]

theorem exchanges_concat (c : Coordinator) (calls : List Call) (call : Call) :
    c.exchanges (calls ++ [call]) =
      c.exchanges calls ++ [(call,((c.serve calls).handle call).2)] := by
  rw [Coordinator.exchanges,answers_append,List.zip_append (answers_length c calls).symm]
  rfl

section
variable {files : List String} {nReduce : Int} {b b' : Schedule files nReduce} {c c' : Coordinator}

/-- A task as it is created, by type and place in its list. -/
def origin (files : List String) (nReduce : Int) : TaskType → Nat → Option Job
  | .mapTask,i => files[i]?.map (mapJob nReduce i)
  | .reduceTask,i => if i < nReduce.toNat then some (reduceJob i) else none
  | _,_ => none

/-- Its place on the board. -/
def place (files : List String) : TaskType → Nat → Nat
  | .reduceTask,i => files.length + i
  | _,i => i

theorem jobs_get (h : Refines b c) (t : TaskType) (i : Nat) :
    (c.jobs t)[i]? = if t = .reduceTask ∧ c.phase = .mapPhase then none else
      (origin files nReduce t i).map (fun job => job.issue b.entries[place files t i]?) := by
  cases t with
  | unset | other _ => simp [Coordinator.jobs,origin]
  | mapTask =>
    rw [if_neg (by simp),Coordinator.jobs,map_get h i,origin,Option.map_map]
    rfl
  | reduceTask =>
    by_cases hp : c.phase = .mapPhase
    · simp [Coordinator.jobs,h.reduces,hp]
    · rw [if_neg (by simp [hp]),Coordinator.jobs,reduce_get h hp i,origin]
      split <;> rfl

theorem origin_planned (h : origin files nReduce t i = some job) :
    job.status = .waiting ∧ ∃ g, (plan files nReduce)[place files t i]? = some g ∧
      g.type = t ∧ g.taskId = job.taskId := by
  cases t with
  | unset | other _ => cases h
  | mapTask =>
    obtain ⟨f,hf,rfl⟩ := Option.map_eq_some_iff.mp h
    exact ⟨rfl,_,plan_map hf,rfl,rfl⟩
  | reduceTask =>
    simp only [origin] at h
    split at h
    · rename_i hi
      cases h
      exact ⟨rfl,_,plan_reduce hi,rfl,rfl⟩
    · cases h

/-- A place on the board is kept, given to a registered worker, or done. -/
theorem Exchanged.entry (h : Exchanged b c x b') (k : Nat) :
    b'.entries[k]? = b.entries[k]? ∨
    (b.entries[k]? = none ∧ ∃ w ∈ c.workers, b'.entries[k]? = some ⟨w,false⟩) ∨
    ∃ e, b.entries[k]? = some e ∧ e.done = false ∧
      b'.entries[k]? = some { e with done := true } := by
  cases h with
  | registered | refused _ _ | rejected _ _ => exact Or.inl rfl
  | granted hw _ hr _ =>
    rw [Board.grant_get]
    split
    · rename_i hk
      exact Or.inr (Or.inl ⟨entry_none.mpr (Nat.le_of_eq hk.symm),_,hw,rfl⟩)
    · exact Or.inl rfl
  | taken hk _ =>
    rename_i j _ _
    obtain ⟨_,⟨e,he,hd,_⟩,_⟩ := hk
    rw [Board.finish_get]
    by_cases hj : j = k
    · subst hj
      exact Or.inr (Or.inr ⟨e,he,hd,by simp [he]⟩)
    · exact Or.inl (by simp [hj])

theorem served_registered (hw : w ∈ ((makeCoordinator files nReduce).serve past).workers) :
    ∃ args, Call.registerWorker args ∈ past ∧ w.workerId = args.workerID := by
  rw [serve_workers,makeCoordinator,List.nil_append,List.mem_flatMap] at hw
  obtain ⟨call,hc,hw⟩ := hw
  cases call with
  | registerWorker args =>
    rw [List.mem_singleton.mp hw]
    exact ⟨args,hc,rfl⟩
  | taskRequestByWorker _ | taskUpdateByWorker _ => simp [enrols] at hw

theorem Exchanged.proceeds (h : Exchanged b ((makeCoordinator files nReduce).serve past) x b')
    {job : Job} (hw : job.status = .waiting) (k : Nat) :
    Proceeds past (job.issue b.entries[k]?) (job.issue b'.entries[k]?) := by
  rcases h.entry k with he | ⟨hn,w,hm,he⟩ | ⟨e,he,hd,he'⟩
  · rw [he]
    exact .kept
  · obtain ⟨args,hargs,hid⟩ := served_registered hm
    rw [hn,he,← issue_granted]
    exact .assigned hw hargs hid
  · rw [he,he',← issue_reported]
    exact .completed (by simp [Job.issue,hd])

/-- No task that is on a list is off it after a step. -/
theorem jobs_step (h : Refines b c) (h' : Refines b' c') (hm : b.Moves b') (t : TaskType) (i : Nat) :
    (c'.jobs t)[i]? = (origin files nReduce t i).map
        (fun job => job.issue b'.entries[place files t i]?) ∨
      ((c.jobs t)[i]? = none ∧ (c'.jobs t)[i]? = none) := by
  rw [jobs_get h,jobs_get h']
  by_cases hp' : t = .reduceTask ∧ c'.phase = .mapPhase
  · have hp : t = .reduceTask ∧ c.phase = .mapPhase := by
      refine ⟨hp'.1,h.mapping.mpr ?_⟩
      exact fun hf => h'.mapping.mp hp'.2 (hm.firstDone hf)
    exact Or.inr ⟨if_pos hp,if_pos hp'⟩
  · exact Or.inl (if_neg hp')

theorem created_unassigned (h : Refines b c) (h' : Refines b' c') (hm : b.Moves b')
    (hp : c.phase = .mapPhase) (hp' : c'.phase ≠ .mapPhase) :
    b'.entries[files.length + i]? = none := by
  have hn := h.mapping.mp hp
  have hf := (phase_firstDone h').mp hp'
  have hi : b.issued ≤ files.length := by
    by_contra hlt
    exact hn (Board.barrier_firstDone (by omega))
  cases hm with
  | stay => exact absurd hf hn
  | grant w hr => exact absurd ((grant_firstDone hr).mp hf) hn
  | finish hk => exact entry_none.mpr (by rw [Board.finish_issued]; omega)

theorem Exchanged.progresses (hx : Exchanged b ((makeCoordinator files nReduce).serve past) x b')
    (h : Refines b ((makeCoordinator files nReduce).serve past)) (h' : Refines b' c') :
    Progresses past ((makeCoordinator files nReduce).serve past) c' where
  task := by
    intro t i job hj
    rcases jobs_step h h' hx.handled.moves t i with he | ⟨hn,_⟩
    · rw [jobs_get h] at hj
      split at hj
      · cases hj
      · obtain ⟨base,hb,rfl⟩ := Option.map_eq_some_iff.mp hj
        rw [hb] at he
        exact ⟨_,he,hx.proceeds (origin_planned hb).1 _⟩
    · rw [hn] at hj
      cases hj
  added := by
    intro t i job hn hj
    rw [jobs_get h] at hn
    rw [jobs_get h'] at hj
    split at hj
    · cases hj
    · rename_i hp'
      obtain ⟨base,hb,rfl⟩ := Option.map_eq_some_iff.mp hj
      split at hn
      · rename_i hp
        obtain ⟨rfl,hp⟩ := hp
        have he := created_unassigned (i := i) h h' hx.handled.moves hp (fun hmap => hp' ⟨rfl,hmap⟩)
        exact (issue_waiting (origin_planned hb).1).mpr he
      · simp [hb] at hn

/-- What the calls so far say of a task, by its entry on the board. -/
def Chronicled (es : List (Call × Answer)) (g : WorkerTaskRequestReply) :
    Option (Entry WorkerType) → Prop
  | none => (∀ x ∈ es, ¬ Grants g.type g.taskId x) ∧ ∀ x ∈ es, ¬ Accepts g.type g.taskId x
  | some e => ∃ i x, OnlyAt (Grants g.type g.taskId) es i ∧ es[i]? = some x ∧
      x.1.workerID = e.owner.workerId ∧
      if e.done then
        e.owner.workerId ≠ "" ∧ ∃ j y, OnlyAt (Accepts g.type g.taskId) es j ∧ i < j ∧
          es[j]? = some y ∧ y.1.workerID = e.owner.workerId
      else ∀ y ∈ es, ¬ Accepts g.type g.taskId y

variable {es : List (Call × Answer)} {g : WorkerTaskRequestReply}

/-- An exchange about something else adds nothing to what is known of a task. -/
theorem Chronicled.concat (h : Chronicled es g entry) (hg : ¬ Grants g.type g.taskId z)
    (ha : ¬ Accepts g.type g.taskId z) : Chronicled (es ++ [z]) g entry := by
  cases entry with
  | none =>
    exact ⟨List.forall_mem_append.mpr ⟨h.1,List.forall_mem_singleton.mpr hg⟩,
      List.forall_mem_append.mpr ⟨h.2,List.forall_mem_singleton.mpr ha⟩⟩
  | some e =>
    obtain ⟨i,x,hi,hx,hw,hrest⟩ := h
    refine ⟨i,x,hi.concat hg,concat_get.mpr (Or.inl hx),hw,?_⟩
    split at hrest
    · rename_i hd
      obtain ⟨hne,j,y,hj,hlt,hy,hyw⟩ := hrest
      rw [if_pos hd]
      exact ⟨hne,j,y,hj.concat ha,hlt,concat_get.mpr (Or.inl hy),hyw⟩
    · rename_i hd
      rw [if_neg hd]
      exact List.forall_mem_append.mpr ⟨hrest,List.forall_mem_singleton.mpr ha⟩

theorem Chronicled.granted {args : WorkerTaskRequestArgs} {reply : WorkerTaskRequestReply}
    {w : WorkerType} (h : Chronicled es g none)
    (ha : reply.taskAvailable = true) (ht : reply.type = g.type) (hid : reply.taskId = g.taskId)
    (hw : args.workerID = w.workerId) :
    Chronicled (es ++ [(.taskRequestByWorker args,.requested reply)]) g (some ⟨w,false⟩) := by
  refine ⟨es.length,_,onlyAt_last h.1 ⟨ha,ht,hid⟩,concat_get.mpr (Or.inr ⟨rfl,rfl⟩),hw,?_⟩
  exact List.forall_mem_append.mpr ⟨h.2,List.forall_mem_singleton.mpr id⟩

theorem Chronicled.taken {args : WorkerTaskUpdateArgs} {reply : WorkerTaskUpdateReply}
    {e : Entry WorkerType} (h : Chronicled es g (some e)) (hd : e.done = false)
    (hm : reply.message = accepted) (ht : args.type = g.type) (hid : args.taskId = g.taskId)
    (hw : e.owner.workerId = args.workerID) (hne : args.workerID ≠ "") :
    Chronicled (es ++ [(.taskUpdateByWorker args,.updated reply)]) g
      (some { e with done := true }) := by
  obtain ⟨i,x,hi,hx,hxw,hrest⟩ := h
  rw [hd] at hrest
  have hlt : i < es.length := (List.getElem?_eq_some_iff.mp hx).1
  exact ⟨i,x,hi.concat id,concat_get.mpr (Or.inl hx),hxw,fun h => hne (hw.symm.trans h),
    es.length,_,onlyAt_last hrest ⟨hm,ht,hid⟩,hlt,concat_get.mpr (Or.inr ⟨rfl,rfl⟩),hw.symm⟩

theorem Exchanged.chronicled (hx : Exchanged b c z b')
    (h : ∀ (k : Nat) g, (plan files nReduce)[k]? = some g → Chronicled es g b.entries[k]?) :
    ∀ (k : Nat) g, (plan files nReduce)[k]? = some g → Chronicled (es ++ [z]) g b'.entries[k]? := by
  intro k g hg
  have hk := h k g hg
  cases hx with
  | registered => exact hk.concat id id
  | refused _ ha => exact hk.concat (fun hgr => by simp [Grants,ha] at hgr) id
  | rejected _ hm => exact hk.concat id (fun hac => hm hac.1)
  | granted hw hid hr hg' =>
    rw [Board.grant_get]
    split
    · rename_i he
      subst he
      rw [hg] at hg'
      cases hg'
      rw [entry_none.mpr (Nat.le_refl _)] at hk
      exact hk.granted (plan_available hg) rfl rfl hid.symm
    · rename_i hne
      exact hk.concat (fun hgr => hne (plan_inj hg hg' hgr.2.1.symm hgr.2.2.symm)) id
  | taken hr hm =>
    rename_i k' _
    obtain ⟨hid,⟨e,he,hd,ho⟩,g',hg',ht',hid'⟩ := hr
    rw [Board.finish_get]
    by_cases hkk : k' = k
    · subst hkk
      rw [hg] at hg'
      cases hg'
      rw [he] at hk ⊢
      simpa using hk.taken hd hm ht'.symm hid'.symm ho hid
    · simp only [hkk,↓reduceIte,Option.map_id']
      refine hk.concat id ?_
      intro hac
      exact hkk (plan_inj hg' hg (ht'.trans hac.2.1) (hid'.trans hac.2.2))

theorem served_chronicled (hf : files ≠ []) (nReduce : Int) (calls : List Call) :
    ∃ b : Schedule files nReduce, Refines b ((makeCoordinator files nReduce).serve calls) ∧
      ∀ (k : Nat) g, (plan files nReduce)[k]? = some g →
        Chronicled ((makeCoordinator files nReduce).exchanges calls) g b.entries[k]? := by
  induction calls using List.reverseRecOn with
  | nil => exact ⟨Board.blank,initial_refines nReduce hf,fun k g _ => ⟨by simp [Coordinator.exchanges],
      by simp [Coordinator.exchanges]⟩⟩
  | append_singleton calls call ih =>
    obtain ⟨b,h,hes⟩ := ih
    obtain ⟨b',hx,h'⟩ := exchanged_spec h call
    rw [exchanges_concat,serve_append]
    exact ⟨b',h',hx.chronicled hes⟩

theorem empty_jobs (nReduce : Int) (calls : List Call) (t : TaskType) :
    ((makeCoordinator [] nReduce).serve calls).jobs t = [] := by
  have he : ((makeCoordinator [] nReduce).serve calls).mapTasks = [] ∧
      ((makeCoordinator [] nReduce).serve calls).reduceTasks = [] ∧
      ((makeCoordinator [] nReduce).serve calls).phase = .mapPhase := by
    induction calls using List.reverseRecOn with
    | nil => exact ⟨rfl,rfl,rfl⟩
    | append_singleton calls call ih =>
      rw [serve_append]
      obtain ⟨hm,hr,hp,_⟩ := empty_handle ih.1 ih.2.1 ih.2.2 call
      exact ⟨hm,hr,hp⟩
  cases t with
  | mapTask => exact he.1
  | reduceTask => exact he.2.1
  | unset | other _ => rfl

end

theorem served_progresses (files : List String) (nReduce : Int) (past : List Call) (call : Call) :
    Progresses past ((makeCoordinator files nReduce).serve past)
      (((makeCoordinator files nReduce).serve past).handle call).1 := by
  by_cases hf : files = []
  · subst hf
    have hnone (t : TaskType) :
        (((makeCoordinator [] nReduce).serve past).handle call).1.jobs t = [] := by
      have he := empty_jobs nReduce (past ++ [call]) t
      rw [serve_append] at he
      exact he
    exact ⟨by simp [empty_jobs],by simp [hnone]⟩
  · obtain ⟨b,h⟩ := served_refines nReduce hf past
    obtain ⟨b',hx,h'⟩ := exchanged_spec h call
    exact hx.progresses h h'

/-- A task waits, is given to a registered worker, and is done when that worker reports
it: in every sequence of calls each task that is done was granted once, reported once
with success, and both by its owner. -/
theorem done_through_its_owner_once (files : List String) (nReduce : Int) (calls : List Call) :
    let c := makeCoordinator files nReduce
    (∀ t, ∀ job ∈ c.jobs t, job.status = .waiting) ∧
    (∀ past call, past ++ [call] <+: calls →
      Progresses past (c.serve past) (c.serve (past ++ [call]))) ∧
    ∀ t, ∀ job ∈ (c.serve calls).jobs t, job.status = .done →
      ∃ i j x y, OnlyAt (Grants t job.taskId) (c.exchanges calls) i ∧
        OnlyAt (Accepts t job.taskId) (c.exchanges calls) j ∧ i < j ∧
        (c.exchanges calls)[i]? = some x ∧ (c.exchanges calls)[j]? = some y ∧
        x.1.workerID = job.worker.workerId ∧ y.1.workerID = job.worker.workerId ∧
        job.worker.workerId ≠ "" := by
  intro c
  refine ⟨?_,?_,?_⟩
  · intro t job hj
    cases t with
    | mapTask =>
      obtain ⟨i,hi⟩ := List.mem_iff_getElem?.mp hj
      simp only [Coordinator.jobs,c,makeCoordinator,List.getElem?_mapIdx] at hi
      obtain ⟨f,_,rfl⟩ := Option.map_eq_some_iff.mp hi
      rfl
    | reduceTask | unset | other _ => cases hj
  · intro past call _
    rw [serve_append]
    exact served_progresses files nReduce past call
  · intro t job hj hd
    by_cases hf : files = []
    · subst hf
      rw [empty_jobs] at hj
      cases hj
    · obtain ⟨b,h,hes⟩ := served_chronicled hf nReduce calls
      obtain ⟨i,hi⟩ := List.mem_iff_getElem?.mp hj
      rw [jobs_get h] at hi
      split at hi
      · cases hi
      · obtain ⟨base,hb,rfl⟩ := Option.map_eq_some_iff.mp hi
        obtain ⟨hw,g,hg,rfl,hid⟩ := origin_planned hb
        obtain ⟨e,he,hdone⟩ := (issue_done hw).mp hd
        have hch := hes _ g hg
        rw [he] at hch
        obtain ⟨i,x,hgr,hx,hxw,hrest⟩ := hch
        rw [if_pos hdone] at hrest
        obtain ⟨hne,j,y,hac,hlt,hy,hyw⟩ := hrest
        rw [he,issue_taskId,← hid]
        exact ⟨i,j,x,y,hgr,hac,hlt,hx,hy,hxw,hyw,hne⟩

/-- Another worker's report comes before the owner's, and the owner reports twice. -/
def contestedCalls : List Call :=
  [.registerWorker ⟨"worker-1","",""⟩,.taskRequestByWorker ⟨"worker-1","",""⟩,
    .taskUpdateByWorker ⟨"worker-2","task-0",.mapTask,.done⟩,
    .taskUpdateByWorker ⟨"worker-1","task-0",.mapTask,.done⟩,
    .taskUpdateByWorker ⟨"worker-1","task-0",.mapTask,.done⟩]

theorem done_through_its_owner_once_contested :
    ∃ i j, OnlyAt (Grants .mapTask "task-0")
        ((makeCoordinator ["pg.txt"] 1).exchanges contestedCalls) i ∧
      OnlyAt (Accepts .mapTask "task-0")
        ((makeCoordinator ["pg.txt"] 1).exchanges contestedCalls) j ∧ i < j := by
  obtain ⟨i,j,_,_,hi,hj,hlt,_⟩ := (done_through_its_owner_once ["pg.txt"] 1 contestedCalls).2.2
    .mapTask { mapJob 1 0 "pg.txt" with
      status := .done, worker := { workerId := "worker-1", status := .stateConnected } }
    (by decide +kernel) rfl
  exact ⟨i,j,hi,hj,hlt⟩

end Proofs

end MapReduce
