import Mathlib
import MapReduce.Coordinator
import MapReduce.Library.Board

namespace MapReduce
open Dispatch

/-- The reply that hands out map task `i`. -/
def mapGrant (nReduce : Int) (i : Nat) (file : String) : WorkerTaskRequestReply :=
  { taskId := taskName i, type := .mapTask, status := .pending, filePath := file,
    taskAvailable := true, nReduce := nReduce, phase := .mapPhase }

/-- The reply that hands out reduce task `j`. -/
def reduceGrant (j : Nat) : WorkerTaskRequestReply :=
  { taskId := taskName j, type := .reduceTask, status := .pending,
    taskAvailable := true, phase := .reducePhase, partition := j }

/-- All tasks of a job in the order in which they are to be handed out. -/
def plan (files : List String) (nReduce : Int) : List WorkerTaskRequestReply :=
  files.mapIdx (mapGrant nReduce) ++ (List.range nReduce.toNat).map reduceGrant

/-- What the coordinator is for: the tasks of the plan on a two-stage board. -/
abbrev Schedule (files : List String) (nReduce : Int) :=
  Board WorkerType files.length nReduce.toNat

def Job.issue (job : Job) : Option (Entry WorkerType) → Job
  | none => job
  | some e => { job with status := if e.done then .done else .pending, worker := e.owner }

/-- The coordinator's lists and phase are those of a board. -/
structure Refines {files : List String} {nReduce : Int} (b : Schedule files nReduce)
    (c : Coordinator) : Prop where
  tasks : c.noOfReduceTasks = nReduce
  maps : c.mapTasks = files.mapIdx (fun i f => (mapJob nReduce i f).issue b.entries[i]?)
  reduces : c.reduceTasks = if c.phase = .mapPhase then [] else
    (List.range nReduce.toNat).map (fun j => (reduceJob j).issue b.entries[files.length + j]?)
  mapping : c.phase = .mapPhase ↔ ¬ b.FirstDone
  finished : c.phase = .finishedPhase ↔ b.Complete ∧ 0 < nReduce.toNat
  known : c.phase ≠ .unset

namespace Proofs

theorem taskName_inj (h : taskName i = taskName j) : i = j :=
  Nat.repr_injective ((String.append_right_inj _).mp h)

theorem taskName_ne_empty (i : Nat) : taskName i ≠ "" := by
  intro h
  have := congrArg String.toList h
  simp [taskName] at this

section
variable {files : List String} {nReduce : Int}

theorem plan_map (hi : files[i]? = some f) :
    (plan files nReduce)[i]? = some (mapGrant nReduce i f) := by
  have hl := (List.getElem?_eq_some_iff.mp hi).1
  rw [plan,List.getElem?_append_left (by simpa using hl)]
  simp [hi]

theorem plan_reduce (hj : j < nReduce.toNat) :
    (plan files nReduce)[files.length + j]? = some (reduceGrant j) := by
  rw [plan,List.getElem?_append_right (by simp)]
  simp [hj]

theorem plan_length : (plan files nReduce).length = files.length + nReduce.toNat := by
  simp [plan]

/-- Every place in the plan is a map task or a reduce task. -/
theorem plan_cases (h : (plan files nReduce)[k]? = some g) :
    (∃ f, files[k]? = some f ∧ g = mapGrant nReduce k f) ∨
    ∃ j, k = files.length + j ∧ j < nReduce.toNat ∧ g = reduceGrant j := by
  rcases Nat.lt_or_ge k files.length with hk | hk
  · have hf : files[k]? = some files[k] := List.getElem?_eq_getElem hk
    rw [plan_map hf] at h
    exact Or.inl ⟨_,hf,(Option.some.inj h).symm⟩
  · obtain ⟨j,rfl⟩ := Nat.exists_eq_add_of_le hk
    have hl := (List.getElem?_eq_some_iff.mp h).1
    rw [plan_length] at hl
    have hj : j < nReduce.toNat := by omega
    rw [plan_reduce hj] at h
    exact Or.inr ⟨j,rfl,hj,(Option.some.inj h).symm⟩

/-- A task of the plan is identified by its type and id. -/
theorem plan_inj {k k' : Nat} {g g' : WorkerTaskRequestReply}
    (h : (plan files nReduce)[k]? = some g) (h' : (plan files nReduce)[k']? = some g')
    (ht : g.type = g'.type) (hi : g.taskId = g'.taskId) : k = k' := by
  rcases plan_cases h with ⟨f,_,rfl⟩ | ⟨j,rfl,_,rfl⟩ <;>
    rcases plan_cases h' with ⟨f',_,rfl⟩ | ⟨j',rfl,_,rfl⟩
  · exact taskName_inj hi
  · cases ht
  · cases ht
  · rw [taskName_inj hi]

theorem plan_available {k : Nat} {g : WorkerTaskRequestReply}
    (h : (plan files nReduce)[k]? = some g) : g.taskAvailable = true := by
  rcases plan_cases h with ⟨f,_,rfl⟩ | ⟨j,_,_,rfl⟩ <;> rfl

end

@[simp] theorem issue_taskId (job : Job) (e : Option (Entry WorkerType)) :
    (job.issue e).taskId = job.taskId := by
  cases e <;> rfl

theorem issue_waiting {job : Job} (hw : job.status = .waiting) :
    (job.issue e).status = .waiting ↔ e = none := by
  cases e with
  | none => simp [Job.issue,hw]
  | some e => cases hd : e.done <;> simp [Job.issue,hd]

theorem issue_done {job : Job} (hw : job.status = .waiting) :
    (job.issue e).status = .done ↔ ∃ d, e = some d ∧ d.done = true := by
  cases e with
  | none => simp [Job.issue,hw]
  | some e => cases hd : e.done <;> simp [Job.issue,hd]

theorem issue_open {job : Job} (hw : job.status = .waiting) :
    ((job.issue e).status = .pending ∨ (job.issue e).status = .waiting) ↔
      ¬ (job.issue e).status = .done := by
  cases e with
  | none => simp [Job.issue,hw]
  | some e => cases hd : e.done <;> simp [Job.issue,hd]

theorem issue_granted {job : Job} :
    { job.issue none with status := .pending, worker := w } = job.issue (some ⟨w,false⟩) := by
  simp [Job.issue]

theorem issue_reported {job : Job} (e : Entry WorkerType) :
    { job.issue (some e) with status := .done } = job.issue (some { e with done := true }) := by
  simp [Job.issue]

variable {files : List String} {nReduce : Int} {b : Schedule files nReduce} {c : Coordinator}

theorem entry_none : b.entries[k]? = none ↔ b.issued ≤ k := by
  simp [Board.issued]

theorem range_get {α : Type} (f : Nat → α) (n i : Nat) :
    ((List.range n).map f)[i]? = if i < n then some (f i) else none := by
  by_cases hi : i < n <;> simp [hi]

theorem map_get (h : Refines b c) (i : Nat) :
    c.mapTasks[i]? = files[i]?.map (fun f => (mapJob nReduce i f).issue b.entries[i]?) := by
  rw [h.maps,List.getElem?_mapIdx]

theorem map_length (h : Refines b c) : c.mapTasks.length = files.length := by
  simp [h.maps]

theorem reduce_get (h : Refines b c) (hp : c.phase ≠ .mapPhase) (j : Nat) :
    c.reduceTasks[j]? = if j < nReduce.toNat then
      some ((reduceJob j).issue b.entries[files.length + j]?) else none := by
  rw [h.reduces,if_neg hp,range_get]

theorem reduce_length (h : Refines b c) (hp : c.phase ≠ .mapPhase) :
    c.reduceTasks.length = nReduce.toNat := by
  simp [h.reduces,hp]

theorem maps_job {jobs : List Job}
    (hm : jobs = files.mapIdx (fun i f => (mapJob nReduce i f).issue b.entries[i]?))
    (hj : job ∈ jobs) :
    ∃ i f, files[i]? = some f ∧ job = (mapJob nReduce i f).issue b.entries[i]? := by
  obtain ⟨i,hi⟩ := List.mem_iff_getElem?.mp hj
  rw [hm,List.getElem?_mapIdx] at hi
  obtain ⟨f,hf,he⟩ := Option.map_eq_some_iff.mp hi
  exact ⟨i,f,hf,he.symm⟩

theorem maps_done {jobs : List Job}
    (hm : jobs = files.mapIdx (fun i f => (mapJob nReduce i f).issue b.entries[i]?)) :
    (∀ job ∈ jobs, job.status = .done) ↔ b.FirstDone := by
  constructor
  · intro ha k hk
    have hmem : (mapJob nReduce k files[k]).issue b.entries[k]? ∈ jobs := by
      apply List.mem_iff_getElem?.mpr
      exact ⟨k,by rw [hm,List.getElem?_mapIdx,List.getElem?_eq_getElem hk]; rfl⟩
    exact (issue_done rfl).mp (ha _ hmem)
  · intro hd job hj
    obtain ⟨i,f,hf,rfl⟩ := maps_job hm hj
    exact (issue_done rfl).mpr (hd i (List.getElem?_eq_some_iff.mp hf).1)

theorem reduces_done {jobs : List Job}
    (hm : jobs = (List.range nReduce.toNat).map (fun i =>
      (reduceJob i).issue b.entries[files.length + i]?)) (hf : b.FirstDone) :
    (∀ job ∈ jobs, job.status = .done) ↔ b.Complete := by
  subst hm
  simp only [List.mem_map,List.mem_range,forall_exists_index,and_imp,forall_apply_eq_imp_iff₂]
  constructor
  · intro ha k hk
    rcases Nat.lt_or_ge k files.length with hl | hl
    · exact hf k hl
    · obtain ⟨j,rfl⟩ := Nat.exists_eq_add_of_le hl
      exact (issue_done rfl).mp (ha j (by omega))
  · intro hc j hj
    exact (issue_done rfl).mpr (hc (files.length + j) (by omega))

theorem initial_refines (nReduce : Int) (hf : files ≠ []) :
    Refines (Board.blank : Schedule files nReduce) (makeCoordinator files nReduce) where
  tasks := rfl
  maps := by simp [makeCoordinator,Board.blank,Job.issue]
  reduces := rfl
  mapping := by
    have hl : 0 < files.length := List.length_pos_of_ne_nil hf
    have hn : ¬ (Board.blank : Schedule files nReduce).FirstDone := by
      intro hd
      exact absurd (Board.finished_lt (hd 0 hl)) (by simp [Board.blank,Board.issued])
    simp [makeCoordinator,hn]
  finished := by
    have hl : 0 < files.length := List.length_pos_of_ne_nil hf
    have hn : ¬ (Board.blank : Schedule files nReduce).Complete := by
      intro hd
      exact absurd (Board.finished_lt (hd 0 (by omega))) (by simp [Board.blank,Board.issued])
    simp [makeCoordinator,hn]
  known := by simp [makeCoordinator]

theorem register_refines (h : Refines b c) (args : WorkerRegistrationArgs) :
    Refines b (c.registerWorker args).1 :=
  ⟨h.tasks,h.maps,h.reduces,h.mapping,h.finished,h.known⟩

/-- Where the waiting tasks are a suffix, the scan stops at its first. -/
theorem scan_suffix {p : Job → Bool} {jobs : List Job} {n : Nat}
    (hp : ∀ i (hi : i < jobs.length), p jobs[i] = true ↔ n ≤ i) :
    jobs.findFinIdx? p = if hn : n < jobs.length then some ⟨n,hn⟩ else none := by
  split
  · rename_i hn
    apply List.findFinIdx?_eq_some_iff.mpr
    refine ⟨(hp n hn).mpr (Nat.le_refl n),?_⟩
    intro j hj ht
    have := (hp j j.isLt).mp ht
    exact absurd (Fin.lt_def.mp hj) (by simpa using this)
  · rename_i hn
    apply List.findFinIdx?_eq_none_iff.mpr
    intro x hx ht
    obtain ⟨i,hi,rfl⟩ := List.getElem_of_mem hx
    have := (hp i hi).mp ht
    omega

/-- How `TaskRequestByWorker` answers worker `wid`: it hands out the next task of
the plan, or has none to hand out. In the map phase it then says nothing of the phase. -/
inductive Requested (b : Schedule files nReduce) (c : Coordinator) (wid : String) :
    Coordinator → WorkerTaskRequestReply → Prop
  | unknown (hn : ∀ w ∈ c.workers, w.workerId ≠ wid) : Requested b c wid c {}
  | granted (hw : w ∈ c.workers) (hid : w.workerId = wid) (hr : b.Ready)
      (hc : Refines (b.grant w hr) c') (hs : c'.workers = c.workers) (hp : c'.phase = c.phase)
      (hg : (plan files nReduce)[b.issued]? = some reply) : Requested b c wid c' reply
  | idle (hw : w ∈ c.workers) (hid : w.workerId = wid) (hr : ¬ b.Ready) :
      Requested b c wid c { phase := if c.phase = .mapPhase then .unset else c.phase }

theorem phase_firstDone (h : Refines b c) : c.phase ≠ .mapPhase ↔ b.FirstDone := by
  rw [ne_eq,h.mapping,not_not]

theorem phase_reduce (h : Refines b c) (hm : c.phase ≠ .mapPhase) (hf : c.phase ≠ .finishedPhase) :
    c.phase = .reducePhase := by
  cases hp : c.phase with
  | unset => exact absurd hp h.known
  | mapPhase => exact absurd hp hm
  | reducePhase => rfl
  | finishedPhase => exact absurd hp hf

/-- A job that is over stays over, whatever happens to its board. -/
theorem finished_moves {b' : Schedule files nReduce} {c' : Coordinator} (h : Refines b c)
    (h' : Refines b' c') (hm : b.Moves b') (hp : c.phase = .finishedPhase) :
    c'.phase = .finishedPhase := by
  obtain ⟨hc,hn⟩ := h.finished.mp hp
  exact h'.finished.mpr ⟨hm.complete hc,hn⟩

theorem ready_map (h : Refines b c) (hp : c.phase = .mapPhase) :
    b.Ready ↔ b.issued < files.length := by
  have hn := h.mapping.mp hp
  simp [Board.Ready,hn]

theorem ready_reduce (h : Refines b c) (hp : c.phase ≠ .mapPhase) :
    b.Ready ↔ b.issued < files.length + nReduce.toNat := by
  have hf := (phase_firstDone h).mp hp
  constructor
  · intro hor
    rcases hor with hr | hr
    · omega
    · exact hr.2
  · exact fun hr => Or.inr ⟨hf,hr⟩

theorem grant_firstDone (hr : b.Ready) : (b.grant w hr).FirstDone ↔ b.FirstDone := by
  simp [Board.FirstDone,Board.grant_finished]

theorem grant_complete (hr : b.Ready) : (b.grant w hr).Complete ↔ b.Complete := by
  simp [Board.Complete,Board.grant_finished]

theorem grant_map (h : Refines b c) (hp : c.phase = .mapPhase) (w : WorkerType) (hr : b.Ready)
    (hi : b.issued < c.mapTasks.length) :
    Refines (b.grant w hr) { c with mapTasks := (c.mapTasks.set b.issued
      { c.mapTasks[b.issued] with status := .pending, worker := w }) } where
  tasks := h.tasks
  maps := by
    apply List.ext_getElem?
    intro j
    have hnone : b.entries[b.issued]? = none := entry_none.mpr (Nat.le_refl _)
    have hjob := map_get h b.issued
    rw [List.getElem?_eq_getElem hi,hnone] at hjob
    rw [List.getElem?_set,List.getElem?_mapIdx,Board.grant_get]
    by_cases hj : b.issued = j
    · subst hj
      obtain ⟨f,hf,he⟩ := Option.map_eq_some_iff.mp hjob.symm
      simp only [if_pos hi,hf,Option.map_some,↓reduceIte,← he,issue_granted]
    · rw [if_neg hj,if_neg (Ne.symm hj),map_get h j]
  reduces := by simp [h.reduces,hp]
  mapping := by rw [grant_firstDone]; exact h.mapping
  finished := by rw [grant_complete]; exact h.finished
  known := h.known

theorem grant_reduce (h : Refines b c) (hp : c.phase ≠ .mapPhase) (w : WorkerType)
    (hr : b.Ready) (j : Nat) (hj : j < c.reduceTasks.length) (he : b.issued = files.length + j) :
    Refines (b.grant w hr) { c with reduceTasks := (c.reduceTasks.set j
      { c.reduceTasks[j] with status := .pending, worker := w }) } where
  tasks := h.tasks
  maps := by
    apply List.ext_getElem?
    intro i
    rw [map_get h i,List.getElem?_mapIdx,Board.grant_get]
    rcases Nat.lt_or_ge i files.length with hi | hi
    · rw [if_neg (by omega)]
    · simp [List.getElem?_eq_none hi]
  reduces := by
    rw [if_neg hp]
    apply List.ext_getElem?
    intro i
    have hnone : b.entries[files.length + j]? = none := entry_none.mpr (by omega)
    have hjob := reduce_get h hp j
    have hlen := reduce_length h hp
    rw [List.getElem?_eq_getElem hj,if_pos (by omega),hnone] at hjob
    rw [List.getElem?_set,range_get,Board.grant_get,he]
    by_cases hi : j = i
    · subst hi
      rw [if_pos rfl,if_pos hj,if_pos rfl,if_pos (by omega),Option.some.inj hjob,issue_granted]
    · have hne : files.length + i ≠ files.length + j := by omega
      rw [if_neg hi,reduce_get h hp i,if_neg hne]
  mapping := by rw [grant_firstDone]; exact h.mapping
  finished := by rw [grant_complete]; exact h.finished
  known := h.known

theorem map_scan (h : Refines b c) :
    c.mapTasks.findFinIdx? (fun task => task.status == .waiting) =
      if hn : b.issued < c.mapTasks.length then some ⟨b.issued,hn⟩ else none := by
  apply scan_suffix
  intro i hi
  have hjob := map_get h i
  rw [List.getElem?_eq_getElem hi] at hjob
  obtain ⟨f,_,he⟩ := Option.map_eq_some_iff.mp hjob.symm
  rw [← he,beq_iff_eq,issue_waiting rfl,entry_none]

theorem reduce_scan (h : Refines b c) (hp : c.phase ≠ .mapPhase) :
    c.reduceTasks.findFinIdx? (fun task => task.status == .waiting) =
      if hn : b.issued - files.length < c.reduceTasks.length then
        some ⟨b.issued - files.length,hn⟩ else none := by
  apply scan_suffix
  intro i hi
  have hjob := reduce_get h hp i
  rw [List.getElem?_eq_getElem hi,if_pos (by rw [← reduce_length h hp]; exact hi)] at hjob
  rw [Option.some.inj hjob,beq_iff_eq,issue_waiting rfl,entry_none]
  omega

theorem assign_map_spec (h : Refines b c) (hp : c.phase = .mapPhase) (hw : w ∈ c.workers)
    (hid : w.workerId = wid) :
    Requested b c wid (c.assignMapTask w {}).1 (c.assignMapTask w {}).2 := by
  have hlen := map_length h
  unfold Coordinator.assignMapTask
  rw [map_scan h]
  by_cases hn : b.issued < c.mapTasks.length
  · have hl : b.issued < files.length := by omega
    have hr : b.Ready := Or.inl hl
    have hjob := map_get h b.issued
    rw [List.getElem?_eq_getElem hn,List.getElem?_eq_getElem hl,
      entry_none.mpr (Nat.le_refl _)] at hjob
    have he : c.mapTasks[b.issued] = mapJob nReduce b.issued files[b.issued] :=
      Option.some.inj hjob
    simp only [dif_pos hn]
    refine .granted hw hid hr (grant_map h hp w hr hn) rfl rfl ?_
    rw [plan_map (List.getElem?_eq_getElem hl)]
    simp [he,hp,mapGrant,mapJob]
  · have hr : ¬ b.Ready := by
      rw [ready_map h hp]
      omega
    simp only [dif_neg hn]
    have hi := Requested.idle (b := b) (c := c) hw hid hr
    rwa [if_pos hp] at hi

theorem assign_reduce_spec (h : Refines b c) (hp : c.phase = .reducePhase) (hw : w ∈ c.workers)
    (hid : w.workerId = wid) :
    Requested b c wid (c.assignReduceTask w {}).1 (c.assignReduceTask w {}).2 := by
  have hne : c.phase ≠ .mapPhase := by simp [hp]
  have hf := (phase_firstDone h).mp hne
  have hi := Board.firstDone_issued hf
  have hlen := reduce_length h hne
  unfold Coordinator.assignReduceTask
  rw [reduce_scan h hne]
  by_cases hn : b.issued - files.length < c.reduceTasks.length
  · have hr : b.Ready := Or.inr ⟨hf,by omega⟩
    have hj : b.issued = files.length + (b.issued - files.length) := by omega
    have hjob := reduce_get h hne (b.issued - files.length)
    rw [List.getElem?_eq_getElem hn,if_pos (by omega),
      entry_none.mpr (Nat.le_of_eq hj)] at hjob
    have he : c.reduceTasks[b.issued - files.length] = reduceJob (b.issued - files.length) :=
      Option.some.inj hjob
    simp only [dif_pos hn]
    refine .granted hw hid hr (grant_reduce h hne w hr _ hn hj) rfl rfl ?_
    have hg : (plan files nReduce)[files.length + (b.issued - files.length)]? =
        some (reduceGrant (b.issued - files.length)) := plan_reduce (by omega)
    rw [← hj] at hg
    simp [hg,he,hp,reduceGrant,reduceJob]
  · have hr : ¬ b.Ready := by
      rw [ready_reduce h hne]
      omega
    simp only [dif_neg hn]
    have hi := Requested.idle (b := b) (c := c) hw hid hr
    rwa [if_neg hne] at hi

theorem request_spec (h : Refines b c) (args : WorkerTaskRequestArgs) :
    Requested b c args.workerID (c.taskRequestByWorker args).1 (c.taskRequestByWorker args).2 := by
  unfold Coordinator.taskRequestByWorker
  cases hf : c.workers.find? (fun worker => worker.workerId == args.workerID) with
  | none =>
    refine .unknown ?_
    intro w hw he
    exact absurd (List.find?_eq_none.mp hf w hw) (by simp [he])
  | some w =>
    have hw := List.mem_of_find?_eq_some hf
    have hid : w.workerId = args.workerID := by simpa using List.find?_some hf
    cases hp : c.phase with
    | unset => exact absurd hp h.known
    | mapPhase => simpa only [hp] using assign_map_spec h hp hw hid
    | reducePhase => simpa only [hp] using assign_reduce_spec h hp hw hid
    | finishedPhase =>
      have hr : ¬ b.Ready := by
        have hc := (h.finished.mp hp).1
        intro hor
        rcases hor with hr | ⟨_,hr⟩
        · exact absurd (Board.firstDone_issued (Board.complete_firstDone hc)) (by omega)
        · exact absurd (Board.finished_lt (hc b.issued hr)) (by omega)
      have hi := Requested.idle (b := b) (c := c) hw hid hr
      simpa only [hp,reduceCtorEq,↓reduceIte] using hi

end Proofs

end MapReduce
