import Mathlib
import MapReduce.Porcupine.Kv
import MapReduce.Proofs.FrontEnds

namespace MapReduce.Porcupine

/-- The whole store: what an operation with its output makes of the values of all keys. -/
def kvApply (store : Bytes → Bytes) (op : Operation KvInput KvOutput) : Option (Bytes → Bytes) :=
  let key := op.input.key
  if op.input.op = 0 then
    if op.output.value = store key then some store else none
  else if op.input.op = 1 then some (Function.update store key op.input.value)
  else some (Function.update store key (store key ++ op.input.value))

/-- A history is linearizable for a store in which all keys are empty at first. -/
def LinearizableStore (history : List (Operation KvInput KvOutput)) : Prop :=
  Linearization.Linearizable Operation.call Operation.ret kvApply (fun _ => []) history

end MapReduce.Porcupine

namespace MapReduce.Proofs
open MapReduce.Porcupine Linearization Runs

variable {order : MapOrder} {history : List (Operation KvInput KvOutput)}

theorem kv_respects (order : MapOrder) : (fillDefault (kvModel order)).Respects :=
  shallow_respects rfl

theorem mem_kvPartition {part : List (Operation KvInput KvOutput)} :
    part ∈ kvPartition order history ↔
      ∃ key ∈ history.map (fun v => v.input.key),
        part = history.filter (fun v => v.input.key = key) := by
  have hkeys : ∀ key, key ∈ sortStrings (order.order (history.map (fun v => v.input.key)).dedup) ↔
      key ∈ history.map (fun v => v.input.key) := fun key => by
    rw [sortStrings,(List.perm_insertionSort _ _).mem_iff,(order.perm _).mem_iff,List.mem_dedup]
  simp only [kvPartition,List.mem_map (l := sortStrings _),hkeys]
  exact ⟨fun ⟨key,hk,he⟩ => ⟨key,hk,he.symm⟩,fun ⟨key,hk,he⟩ => ⟨key,hk,he.symm⟩⟩

theorem kvPartition_ne_nil (h : history ≠ []) : kvPartition order history ≠ [] := by
  obtain ⟨op,_,rfl⟩ := List.exists_cons_of_ne_nil h
  exact List.ne_nil_of_mem (mem_kvPartition.mpr ⟨op.input.key,by simp,rfl⟩)

theorem kv_timed (ht : Timed history) : ∀ part ∈ kvPartition order history, Timed part := by
  intro part hp op hop
  obtain ⟨key,_,rfl⟩ := mem_kvPartition.mp hp
  exact ht op (List.mem_of_mem_filter hop)

/-- The store does to each key what the model does to its value. -/
theorem kvApply_eq (order : MapOrder) :
    kvApply = stepAt (fillDefault (kvModel order)).apply (fun op => op.input.key) := by
  funext store op
  by_cases hget : op.input.op = 0
  · by_cases hv : op.output.value = store op.input.key
    · simp [kvApply,stepAt,Object.apply,fillDefault,kvModel,kvStep,hget,hv]
    · simp [kvApply,stepAt,Object.apply,fillDefault,kvModel,kvStep,hget,hv]
  · by_cases hput : op.input.op = 1
    · simp [kvApply,stepAt,Object.apply,fillDefault,kvModel,kvStep,hput]
    · simp [kvApply,stepAt,Object.apply,fillDefault,kvModel,kvStep,hget,hput]

/-- The keys can be checked one by one. -/
theorem kv_parts (order : MapOrder) (ht : Timed history) :
    (∀ part ∈ kvPartition order history,
      LinearizableOperations (fillDefault (kvModel order)).toObject part) ↔
      LinearizableStore history := by
  rw [LinearizableStore,kvApply_eq order,linearizable_parts _ ht]
  constructor
  · intro h key
    by_cases hk : key ∈ history.map (fun v => v.input.key)
    · exact h _ (mem_kvPartition.mpr ⟨key,hk,rfl⟩)
    · have hnil : history.filter (fun v => v.input.key = key) = [] := by
        simpa using hk
      rw [hnil]
      exact orderable_nil
  · intro h part hp
    obtain ⟨key,_,rfl⟩ := mem_kvPartition.mp hp
    exact h key

/-- For a history of the key/value store, `checkOperations` decides whether it is linearizable
for the store as a whole. -/
theorem kv_checkOperations_decides (order : MapOrder) (sort : TimeSort KvInput KvOutput)
    {history : List (Operation KvInput KvOutput)} (ht : Timed history) (hne : history ≠ [])
    (computeInfo timeout : Bool) :
    Decides (fillDefault (kvModel order)).toObject computeInfo timeout
      (checkOperations sort (fillDefault (kvModel order)) history) (LinearizableStore history) :=
  (operations_decided sort (fillDefault (kvModel order)) (kv_respects order) history
    (kv_timed ht) (kvPartition_ne_nil hne) computeInfo timeout).congr (kv_parts order ht)

/-- A put on one key, and a get on it and another one. -/
def putGets : List (Operation KvInput KvOutput) :=
  [⟨0,⟨1,[1],[9]⟩,0,⟨[]⟩,2⟩,⟨1,⟨0,[1],[]⟩,1,⟨[9]⟩,3⟩,⟨2,⟨0,[2],[]⟩,1,⟨[]⟩,3⟩]

theorem kv_checkOperations_decides_putGets :
    Decides (fillDefault (kvModel insertionOrder)).toObject true true
      (checkOperations (stableSort _ _) (fillDefault (kvModel insertionOrder)) putGets)
      (LinearizableStore putGets) := by
  have ht : Timed putGets := by simp [Timed,putGets]
  exact kv_checkOperations_decides insertionOrder (stableSort _ _) ht (List.cons_ne_nil _ _) true true

/-- The check of a history of the key/value store comes to a result unless the history is
empty and there is no time to run out: then it waits for ever. -/
theorem kv_check_returns_iff (order : MapOrder) (sort : TimeSort KvInput KvOutput)
    {history : List (Operation KvInput KvOutput)} (ht : Timed history)
    (computeInfo timeout : Bool) :
    (∃ actions s, run (Parallel.next (fillDefault (kvModel order)).toObject computeInfo timeout)
      (checkOperations sort (fillDefault (kvModel order)) history) actions = some s ∧
        s.pc = .finished) ↔ history ≠ [] ∨ timeout = true := by
  have hparts : operationParts sort (fillDefault (kvModel order)) history ≠ [] ↔ history ≠ [] := by
    rw [operationParts,ne_eq,List.map_eq_nil_iff]
    refine ⟨fun h => ?_,kvPartition_ne_nil⟩
    rintro rfl
    exact h (List.eq_nil_iff_forall_not_mem.mpr (fun part hp => by simpa using mem_kvPartition.mp hp))
  rw [← hparts]
  exact checkParallel_returns _ (kv_respects order) (operations_complete sort _ (kv_timed ht)) _ _

theorem kv_check_returns_iff_nil : ¬ ∃ actions s,
    run (Parallel.next (fillDefault (kvModel insertionOrder)).toObject false false)
      (checkOperations (stableSort _ _) (fillDefault (kvModel insertionOrder)) []) actions = some s ∧
        s.pc = .finished := by
  rw [kv_check_returns_iff insertionOrder (stableSort _ _) (by simp [Timed]) false false]
  simp

end MapReduce.Proofs
