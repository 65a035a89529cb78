import Mathlib
import MapReduce.Proofs.Calls

namespace MapReduce.Proofs
open Dispatch

/-- How often in a sequence of calls the list of reduce tasks grew. -/
def creations (c : Coordinator) : List Call → Nat
  | [] => 0
  | call :: calls =>
    (if (c.handle call).1.reduceTasks.length ≠ c.reduceTasks.length then 1 else 0) +
      creations (c.handle call).1 calls

section
variable {files : List String} {nReduce : Int} {b b' : Schedule files nReduce}
variable {c c' : Coordinator}

/-- The phase can be read off the statuses, in every state that a board stands for. -/
theorem refines_phase (h : Refines b c) (hn : 1 ≤ nReduce) :
    (c.phase = .mapPhase ↔ ∃ job ∈ c.mapTasks, job.status ≠ .done) ∧
    (c.phase = .reducePhase ↔ (∀ job ∈ c.mapTasks, job.status = .done) ∧
      ∃ job ∈ c.reduceTasks, job.status ≠ .done) ∧
    (c.phase = .finishedPhase ↔ (∀ job ∈ c.mapTasks, job.status = .done) ∧
      ∀ job ∈ c.reduceTasks, job.status = .done) := by
  have hm := maps_done h.maps
  have hopen : (∃ job ∈ c.mapTasks, job.status ≠ .done) ↔ ¬ b.FirstDone := by
    rw [← hm]
    simp
  by_cases hf : b.FirstDone
  · have hp := (phase_firstDone h).mpr hf
    have hr : (∀ job ∈ c.reduceTasks, job.status = .done) ↔ b.Complete :=
      reduces_done (by rw [h.reduces,if_neg hp]) hf
    have hnr : (∃ job ∈ c.reduceTasks, job.status ≠ .done) ↔ ¬ b.Complete := by
      rw [← hr]
      simp
    have hpos : 0 < nReduce.toNat := by omega
    have hfin : c.phase = .finishedPhase ↔ b.Complete := by rw [h.finished]; simp [hpos]
    rw [hopen,hm,hnr,hr,hfin]
    refine ⟨by simp [hp,hf],?_,by simp [hf]⟩
    cases hph : c.phase with
    | unset => exact absurd hph h.known
    | mapPhase => exact absurd hph hp
    | reducePhase => simp [hf,← hfin,hph]
    | finishedPhase => simp [← hfin,hph]
  · have hp := h.mapping.mpr hf
    rw [hopen,hm]
    simp [hp,hf]

theorem reduce_lists (h : Refines b c) (hp : c.phase ≠ .mapPhase) :
    c.reduceTasks.length = nReduce.toNat ∧
    ∀ (i : Nat) (job : Job), c.reduceTasks[i]? = some job →
      job.taskId = taskName i ∧ job.partition = i := by
  refine ⟨reduce_length h hp,?_⟩
  intro i job hj
  rw [reduce_get h hp i] at hj
  split at hj
  · cases hj
    cases b.entries[files.length + i]? <;> exact ⟨rfl,rfl⟩
  · cases hj

/-- The list grows in the step that leaves the map phase and in no other. -/
theorem reduce_grows (h : Refines b c) (h' : Refines b' c') (hm : b.Moves b') (hn : 1 ≤ nReduce) :
    c'.reduceTasks.length ≠ c.reduceTasks.length ↔
      c.phase = .mapPhase ∧ c'.phase ≠ .mapPhase := by
  by_cases hp : c.phase = .mapPhase <;> by_cases hp' : c'.phase = .mapPhase
  · simp [h.reduces,h'.reduces,hp,hp']
  · have := reduce_length h' hp'
    simp [h.reduces,hp,hp',this]
    omega
  · exact absurd hp' ((phase_firstDone h').mpr (hm.firstDone ((phase_firstDone h).mp hp)))
  · simp [reduce_length h hp,reduce_length h' hp',hp]

theorem handle_left (h : Refines b c) (call : Call) (hp : c.phase ≠ .mapPhase) :
    (c.handle call).1.phase ≠ .mapPhase := by
  obtain ⟨b₁,hm,h₁,_⟩ := handle_spec h call
  exact (phase_firstDone h₁).mpr (hm.moves.firstDone ((phase_firstDone h).mp hp))

theorem serve_left (h : Refines b c) (calls : List Call) (hp : c.phase ≠ .mapPhase) :
    (c.serve calls).phase ≠ .mapPhase := by
  induction calls generalizing b c with
  | nil => exact hp
  | cons call calls ih =>
    obtain ⟨b₁,_,h₁,_⟩ := handle_spec h call
    exact ih h₁ (handle_left h call hp)

theorem creations_spec (h : Refines b c) (hn : 1 ≤ nReduce) (calls : List Call) :
    creations c calls =
      if c.phase = .mapPhase ∧ (c.serve calls).phase ≠ .mapPhase then 1 else 0 := by
  induction calls generalizing b c with
  | nil => simp [creations,Coordinator.serve]
  | cons call calls ih =>
    obtain ⟨b₁,hm,h₁,_⟩ := handle_spec h call
    have hleft := serve_left h₁ calls
    rw [creations,ih h₁]
    simp only [reduce_grows h h₁ hm.moves hn,Coordinator.serve]
    by_cases hp : c.phase = .mapPhase <;>
      by_cases hp₁ : (c.handle call).1.phase = .mapPhase
    · simp [hp,hp₁]
    · simp [hp,hp₁,hleft hp₁]
    · exact absurd hp₁ (handle_left h call hp)
    · simp [hp,hp₁]

end

/-- The phase of every reachable coordinator says exactly which tasks are done, and
the reduce tasks are created once, when the last map task is. -/
theorem phase_determined {files : List String} {nReduce : Int} (hf : files ≠ [])
    (hn : 1 ≤ nReduce) (calls : List Call) :
    let c := (makeCoordinator files nReduce).serve calls
    ((c.phase = .mapPhase ↔ ∃ job ∈ c.mapTasks, job.status ≠ .done) ∧
      (c.phase = .mapPhase → c.reduceTasks = [])) ∧
    (c.phase = .reducePhase ↔ (∀ job ∈ c.mapTasks, job.status = .done) ∧
      ∃ job ∈ c.reduceTasks, job.status ≠ .done) ∧
    (c.phase = .finishedPhase ↔ (∀ job ∈ c.mapTasks, job.status = .done) ∧
      ∀ job ∈ c.reduceTasks, job.status = .done) ∧
    (c.phase ≠ .mapPhase → (c.reduceTasks.length : Int) = nReduce ∧
      ∀ (i : Nat) (job : Job), c.reduceTasks[i]? = some job →
        job.taskId = taskName i ∧ job.partition = i) ∧
    creations (makeCoordinator files nReduce) calls = if c.phase = .mapPhase then 0 else 1 := by
  intro c
  obtain ⟨b,h⟩ := served_refines nReduce hf calls
  obtain ⟨hm,hr,hd⟩ := refines_phase h hn
  refine ⟨⟨hm,fun hp => by rw [h.reduces,if_pos hp]⟩,hr,hd,?_,?_⟩
  · intro hp
    obtain ⟨hl,hi⟩ := reduce_lists h hp
    exact ⟨by rw [hl]; omega,hi⟩
  · rw [creations_spec (initial_refines nReduce hf) hn calls]
    by_cases hp : c.phase = .mapPhase
    · rw [if_neg (fun h => h.2 hp),if_pos hp]
    · rw [if_pos ⟨rfl,hp⟩,if_neg hp]

theorem phase_determined_one_map :
    ((makeCoordinator ["pg.txt"] 2).serve
      [.registerWorker ⟨"worker-1","",""⟩,.taskRequestByWorker ⟨"worker-1","",""⟩,
        .taskUpdateByWorker ⟨"worker-1","task-0",.mapTask,.done⟩]).phase = .reducePhase :=
  (@phase_determined ["pg.txt"] 2 (by decide) (by decide)
    [.registerWorker ⟨"worker-1","",""⟩,.taskRequestByWorker ⟨"worker-1","",""⟩,
      .taskUpdateByWorker ⟨"worker-1","task-0",.mapTask,.done⟩]).2.1.mpr (by decide)

end MapReduce.Proofs
