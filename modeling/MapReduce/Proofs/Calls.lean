import Mathlib
import MapReduce.Proofs.Reports

namespace MapReduce.Proofs
open Dispatch

/-- The replies that hand out a task, in the order they were given. -/
def grants (answers : List Answer) : List WorkerTaskRequestReply :=
  answers.filterMap (fun
    | .requested reply => if reply.taskAvailable then some reply else none
    | _ => none)

section
variable {files : List String} {nReduce : Int} {b b' : Schedule files nReduce} {c : Coordinator}

theorem take_issued (hr : b.Ready) (hg : (plan files nReduce)[b.issued]? = some g) :
    (plan files nReduce).take b.issued ++ [g] = (plan files nReduce).take (b.grant w hr).issued := by
  rw [Board.grant_issued,List.take_add_one,hg]
  rfl

/-- What a call does to the board, and why it does no more. -/
inductive Handled (b : Schedule files nReduce) (c : Coordinator) :
    Call → Schedule files nReduce → Prop
  | registered : Handled b c (.registerWorker args) b
  | refused (hn : b.Ready → ∀ w ∈ c.workers, w.workerId ≠ args.workerID) :
      Handled b c (.taskRequestByWorker args) b
  | granted (hw : w ∈ c.workers) (hid : w.workerId = args.workerID) (hr : b.Ready) :
      Handled b c (.taskRequestByWorker args) (b.grant w hr)
  | rejected (hn : ∀ k, ¬ Reports b args k) : Handled b c (.taskUpdateByWorker args) b
  | accepted (hk : Reports b args k) : Handled b c (.taskUpdateByWorker args) (b.finish k)

theorem Reports.pending (h : Reports b args k) : b.Pending k := by
  obtain ⟨_,⟨e,he,hd,_⟩,_⟩ := h
  exact ⟨e,he,hd⟩

theorem Handled.moves (h : Handled b c call b') : b.Moves b' := by
  cases h with
  | registered | refused _ | rejected _ => exact .stay
  | granted _ _ hr => exact .grant _ hr
  | accepted hk => exact .finish hk.pending

/-- What a call and its answer say of the board. -/
inductive Exchanged (b : Schedule files nReduce) (c : Coordinator) :
    Call × Answer → Schedule files nReduce → Prop
  | registered : Exchanged b c (.registerWorker args,.registered reply) b
  | refused (hn : b.Ready → ∀ w ∈ c.workers, w.workerId ≠ args.workerID)
      (ha : reply.taskAvailable = false) :
      Exchanged b c (.taskRequestByWorker args,.requested reply) b
  | granted (hw : w ∈ c.workers) (hid : w.workerId = args.workerID) (hr : b.Ready)
      (hg : (plan files nReduce)[b.issued]? = some reply) :
      Exchanged b c (.taskRequestByWorker args,.requested reply) (b.grant w hr)
  | rejected (hn : ∀ k, ¬ Reports b args k) (hm : reply.message ≠ accepted) :
      Exchanged b c (.taskUpdateByWorker args,.updated reply) b
  | taken (hk : Reports b args k) (hm : reply.message = accepted) :
      Exchanged b c (.taskUpdateByWorker args,.updated reply) (b.finish k)

theorem exchanged_spec (h : Refines b c) (call : Call) :
    ∃ b', Exchanged b c (call,(c.handle call).2) b' ∧ Refines b' (c.handle call).1 := by
  cases call with
  | registerWorker args => exact ⟨b,.registered,register_refines h args⟩
  | taskRequestByWorker args =>
    have hs := request_spec h args
    simp only [Coordinator.handle]
    generalize (c.taskRequestByWorker args).1 = c' at hs ⊢
    generalize (c.taskRequestByWorker args).2 = reply at hs ⊢
    cases hs with
    | unknown hn => exact ⟨b,.refused (fun _ => hn) rfl,h⟩
    | idle _ _ hr => exact ⟨b,.refused (fun h => absurd h hr) rfl,h⟩
    | granted hw hid hr hc _ _ hg => exact ⟨_,.granted hw hid hr hg,hc⟩
  | taskUpdateByWorker args =>
    have hs := update_spec h args
    simp only [Coordinator.handle]
    generalize (c.taskUpdateByWorker args).1 = c' at hs ⊢
    generalize (c.taskUpdateByWorker args).2 = reply at hs ⊢
    cases hs with
    | kept hn _ hm => exact ⟨b,.rejected hn hm,h⟩
    | finished hk hc _ _ hm => exact ⟨_,.taken hk hm,hc⟩

theorem Exchanged.handled (h : Exchanged b c (call,answer) b') : Handled b c call b' := by
  cases h with
  | registered => exact .registered
  | refused hn _ => exact .refused hn
  | granted hw hid hr _ => exact .granted hw hid hr
  | rejected hn _ => exact .rejected hn
  | taken hk _ => exact .accepted hk

theorem Exchanged.issues (h : Exchanged b c (call,answer) b') :
    (plan files nReduce).take b.issued ++ grants [answer] = (plan files nReduce).take b'.issued := by
  cases h with
  | registered | rejected _ _ => simp [grants]
  | refused _ ha => simp [grants,ha]
  | granted _ _ hr hg =>
    rw [← take_issued hr hg]
    simp [grants,plan_available hg]
  | taken _ _ => simp [grants,Board.finish_issued]

/-- One call hands out exactly the tasks that the board moved past. -/
theorem handle_spec (h : Refines b c) (call : Call) :
    ∃ b', Handled b c call b' ∧ Refines b' (c.handle call).1 ∧
      (plan files nReduce).take b.issued ++ grants [(c.handle call).2] =
        (plan files nReduce).take b'.issued := by
  obtain ⟨b',hx,h'⟩ := exchanged_spec h call
  exact ⟨b',hx.handled,h',hx.issues⟩

theorem grants_cons (a : Answer) (as : List Answer) : grants (a :: as) = grants [a] ++ grants as := by
  simp only [grants,← List.filterMap_append,List.singleton_append]

theorem serve_moves (h : Refines b c) (calls : List Call) :
    ∃ b' : Schedule files nReduce, Refines b' (c.serve calls) ∧
      (plan files nReduce).take b.issued ++ grants (c.answers calls) =
        (plan files nReduce).take b'.issued := by
  induction calls generalizing b c with
  | nil => exact ⟨b,h,by simp [grants,Coordinator.answers]⟩
  | cons call calls ih =>
    obtain ⟨b₁,_,h₁,hg₁⟩ := handle_spec h call
    obtain ⟨b₂,h₂,hg₂⟩ := ih h₁
    refine ⟨b₂,h₂,?_⟩
    rw [Coordinator.answers,grants_cons,← List.append_assoc,hg₁,hg₂]

theorem served_refines (nReduce : Int) (hf : files ≠ []) (calls : List Call) :
    ∃ b : Schedule files nReduce, Refines b ((makeCoordinator files nReduce).serve calls) := by
  obtain ⟨b,h,_⟩ := serve_moves (initial_refines nReduce hf) calls
  exact ⟨b,h⟩

end

/-- The records that a call adds to the list of workers. -/
def enrols : Call → List WorkerType
  | .registerWorker args =>
    [{ workerId := args.workerID, status := .stateConnected, address := args.rpcAddr,
       port := args.port }]
  | _ => []

theorem report_workers (c : Coordinator) (args : WorkerTaskUpdateArgs) (jobs : List Job)
    {store : List Job → Coordinator} (hs : ∀ jobs, (store jobs).workers = c.workers) :
    (c.reportJob args jobs store).1.workers = c.workers := by
  unfold Coordinator.reportJob
  split
  · rfl
  · dsimp only
    split
    · rfl
    · split
      · rfl
      · rw [transition_workers,hs]

/-- Only a registration touches the list of workers, and it only appends. -/
theorem handle_workers (c : Coordinator) (call : Call) :
    (c.handle call).1.workers = c.workers ++ enrols call := by
  cases call with
  | registerWorker args => rfl
  | taskRequestByWorker args =>
    simp only [Coordinator.handle,Coordinator.taskRequestByWorker,enrols,List.append_nil]
    split
    · rfl
    · split
      · unfold Coordinator.assignMapTask
        split <;> rfl
      · unfold Coordinator.assignReduceTask
        split <;> rfl
      · rfl
      · rfl
  | taskUpdateByWorker args =>
    simp only [Coordinator.handle,Coordinator.taskUpdateByWorker,enrols,List.append_nil]
    split
    · rfl
    · split
      · rfl
      · split
        · rfl
        · exact report_workers c args _ (fun _ => rfl)
        · exact report_workers c args _ (fun _ => rfl)
        · rfl

theorem serve_workers (c : Coordinator) (calls : List Call) :
    (c.serve calls).workers = c.workers ++ calls.flatMap enrols := by
  induction calls generalizing c with
  | nil => simp [Coordinator.serve]
  | cons call calls ih =>
    rw [Coordinator.serve,ih,handle_workers,List.append_assoc,List.flatMap_cons]

theorem empty_request {c : Coordinator} (hm : c.mapTasks = []) (hp : c.phase = .mapPhase)
    (args : WorkerTaskRequestArgs) : (c.taskRequestByWorker args).1 = c ∧
      (c.taskRequestByWorker args).2.taskAvailable = false := by
  obtain ⟨n,m,r,p,ws⟩ := c
  cases hm
  cases hp
  unfold Coordinator.taskRequestByWorker
  cases ws.find? (fun worker => worker.workerId == args.workerID) with
  | none => exact ⟨rfl,rfl⟩
  | some w => exact ⟨rfl,rfl⟩

theorem empty_update {c : Coordinator} (hm : c.mapTasks = []) (hr : c.reduceTasks = [])
    (args : WorkerTaskUpdateArgs) : (c.taskUpdateByWorker args).1 = c := by
  obtain ⟨n,m,r,p,ws⟩ := c
  cases hm
  cases hr
  unfold Coordinator.taskUpdateByWorker
  split
  · rfl
  · split
    · rfl
    · split <;> rfl

/-- Without input files no call takes the coordinator out of its first state. -/
theorem empty_handle {c : Coordinator} (hm : c.mapTasks = []) (hr : c.reduceTasks = [])
    (hp : c.phase = .mapPhase) (call : Call) :
    (c.handle call).1.mapTasks = [] ∧ (c.handle call).1.reduceTasks = [] ∧
      (c.handle call).1.phase = .mapPhase ∧ grants [(c.handle call).2] = [] := by
  cases call with
  | registerWorker args => exact ⟨hm,hr,hp,rfl⟩
  | taskRequestByWorker args =>
    obtain ⟨hs,ha⟩ := empty_request hm hp args
    simp only [Coordinator.handle,hs]
    exact ⟨hm,hr,hp,by simp [grants,ha]⟩
  | taskUpdateByWorker args =>
    simp only [Coordinator.handle,empty_update hm hr]
    exact ⟨hm,hr,hp,rfl⟩

theorem empty_serve {c : Coordinator} (hm : c.mapTasks = []) (hr : c.reduceTasks = [])
    (hp : c.phase = .mapPhase) (calls : List Call) : grants (c.answers calls) = [] := by
  induction calls generalizing c with
  | nil => rfl
  | cons call calls ih =>
    obtain ⟨hm',hr',hp',hg⟩ := empty_handle hm hr hp call
    rw [Coordinator.answers,grants_cons,hg,ih hm' hr' hp',List.append_nil]

theorem plan_nodup (files : List String) (nReduce : Int) :
    (plan files nReduce).Pairwise (fun g g' => ¬ (g.type = g'.type ∧ g.taskId = g'.taskId)) := by
  apply List.pairwise_iff_getElem.mpr
  intro i j hi hj hlt hx
  obtain ⟨ht,hid⟩ := hx
  have := plan_inj (List.getElem?_eq_getElem hi) (List.getElem?_eq_getElem hj) ht hid
  omega

/-- Whatever the calls and whoever makes them, tasks are handed out in one fixed
order, each at most once and none left out. -/
theorem grants_follow_plan (files : List String) (nReduce : Int) (calls : List Call) :
    grants ((makeCoordinator files nReduce).answers calls) <+: plan files nReduce ∧
      (grants ((makeCoordinator files nReduce).answers calls)).Pairwise
        (fun g g' => ¬ (g.type = g'.type ∧ g.taskId = g'.taskId)) := by
  have hp : grants ((makeCoordinator files nReduce).answers calls) <+: plan files nReduce := by
    by_cases hf : files = []
    · subst hf
      rw [empty_serve rfl rfl rfl]
      exact List.nil_prefix
    · obtain ⟨b,_,hg⟩ := serve_moves (initial_refines nReduce hf) calls
      simp only [Board.blank,Board.issued,List.length_nil,List.take_zero,List.nil_append] at hg
      rw [hg]
      exact List.take_prefix _ _
  exact ⟨hp,(plan_nodup files nReduce).sublist hp.sublist⟩

end MapReduce.Proofs
