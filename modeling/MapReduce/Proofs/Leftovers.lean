import Mathlib
import MapReduce.Proofs.Partitioning

namespace MapReduce
open Files

/-- All map tasks and then all reduce tasks, one after another. -/
def runJob (go : Platform) (reducef : Reducef) (input : String → Option Bytes)
    (mappers : List (WorkerTaskRequestReply × Mapf))
    (reducers : List (WorkerTaskRequestReply × KeySort)) (fs : FileSystem) :
    Except String FileSystem :=
  (runMappers go input mappers fs).bind (runReducers go reducef reducers)

namespace Proofs

/-- Each task of the job once, in some order, with `mapf` up to the order of its pairs. -/
structure Executes (files : List String) (nReduce : Int) (mapf : Mapf)
    (mappers : List (WorkerTaskRequestReply × Mapf))
    (reducers : List (WorkerTaskRequestReply × KeySort)) : Prop where
  maps : (mappers.map Prod.fst).Perm ((makeCoordinator files nReduce).mapTasks.map Job.mapReply)
  same : ∀ t ∈ mappers, ∀ f c, (t.2 f c).Perm (mapf f c)
  reduces : (reducers.map Prod.fst).Perm ((List.range nReduce.toNat).map reduceGrant)

/-- The pairs that the reducer of `r` reads from files that are not of the job. -/
def leftovers (go : Platform) (files : List String) (fs : FileSystem) (r : Nat) : List KeyValue :=
  (strayFiles files fs r).flatMap (fun name => decodeFile go.json ((fs.read name).getD []))

/-- A reduce function that writes a byte for every `v` among the values of `k`. -/
def tally (k v : Bytes) : Reducef := fun key values =>
  if key = k then List.replicate (values.count v) 0x78 else []

theorem tally_insensitive (k v : Bytes) : OrderInsensitive (tally k v) := by
  intro key values values' hp
  simp only [tally,hp.count_eq v]

theorem count_run (run : List KeyValue) (hr : ∀ kv ∈ run, kv.key = key) (k v : Bytes) :
    run.count ⟨k,v⟩ = if key = k then (run.map KeyValue.value).count v else 0 := by
  induction run with
  | nil => simp
  | cons kv run ih =>
    have hk := hr kv List.mem_cons_self
    rw [List.count_cons,ih (fun a ha => hr a (List.mem_cons_of_mem _ ha)),List.map_cons,
      List.count_cons]
    obtain ⟨a,b⟩ := kv
    cases hk
    by_cases ha : a = k
    · simp [ha]
    · simp [ha]

/-- What the tally adds to an output is the number of its pairs. -/
theorem tally_groups (gs : List (Bytes × List KeyValue)) (hr : ∀ g ∈ gs, ∀ kv ∈ g.2, kv.key = g.1)
    (k v : Bytes) :
    ((gs.map (groupRecord (tally k v))).flatMap formatRecord).length =
      ((gs.map (groupRecord (fun _ _ => []))).flatMap formatRecord).length +
        (gs.flatMap Prod.snd).count ⟨k,v⟩ := by
  induction gs with
  | nil => simp
  | cons g gs ih =>
    have hg := count_run g.2 (hr g List.mem_cons_self) k v
    simp only [List.map_cons,List.flatMap_cons,List.length_append,List.count_append,hg,
      ih (fun h hh => hr h (List.mem_cons_of_mem _ hh)),formatRecord,groupRecord,tally,
      List.length_cons,List.length_nil]
    split <;> simp <;> omega

theorem tally_output (l : List KeyValue) (k v : Bytes) :
    ((keyRecords (tally k v) l).flatMap formatRecord).length =
      ((keyRecords (fun _ _ => []) l).flatMap formatRecord).length + l.count ⟨k,v⟩ := by
  rw [keyRecords,keyRecords,reduceRecords_groups,reduceRecords_groups,
    tally_groups _ (Grouping.groups_run KeyValue.key _),Grouping.groups_flatten,
    (keySort.perm l).count_eq]

/-- Pairs that no order-insensitive reduce function tells apart are the same pairs. -/
theorem outputs_determine {l l' : List KeyValue}
    (h : ∀ reducef, OrderInsensitive reducef →
      (keyRecords reducef l).flatMap formatRecord = (keyRecords reducef l').flatMap formatRecord) :
    l.Perm l' := by
  apply List.perm_iff_count.mpr
  intro kv
  obtain ⟨k,v⟩ := kv
  have ht := congrArg List.length (h (tally k v) (tally_insensitive k v))
  have h0 := congrArg List.length (h (fun _ _ => []) (fun _ _ _ _ => rfl))
  rw [tally_output,tally_output] at ht
  omega

section
variable {go : Platform} {nReduce : Int} {fs fs' mapped : FileSystem} {files : List String}
variable {mapf : Mapf} {input : String → Option Bytes} {reducef : Reducef}
variable {mappers : List (WorkerTaskRequestReply × Mapf)}
variable {reducers : List (WorkerTaskRequestReply × KeySort)}

/-- After the map tasks a reducer gathers the pairs of the job for its partition, and
besides them what it finds left over. -/
theorem gathered_mapped {r : Nat}
    (hw : ∀ (i : Nat) (file : String), files[i]? = some file →
      ∃ kva : List KeyValue, kva.Perm (mapf file ((input file).getD [])) ∧
        mapped.read (intermediateName (taskName i) r) = some (partitionContent go nReduce kva r))
    (ho : ∀ name, (∀ m < files.length, ∀ r < nReduce.toNat,
      name ≠ intermediateName (taskName m) r) → mapped.read name = fs.read name) :
    (gathered go mapped r).Perm
      ((inPartition go nReduce r (allPairs mapf input files)).map KeyValue.repair ++
        leftovers go files fs r) := by
  have hsome : ∀ m < files.length, (mapped.read (intermediateName (taskName m) r)).isSome = true := by
    intro m hm
    obtain ⟨_,_,hc⟩ := hw m files[m] (List.getElem?_eq_getElem hm)
    exact Option.isSome_iff_exists.mpr ⟨_,hc⟩
  refine ((mapped_glob hsome ho).flatMap_right _).trans ?_
  rw [List.flatMap_append,ownFiles,List.flatMap_map]
  refine (own_repaired hw).append (.of_eq ?_)
  refine List.flatMap_congr (fun name hn => ?_)
  obtain ⟨hg,hown⟩ := List.mem_filter.mp hn
  rw [stray_read (mem_glob.mp hg).2 (of_decide_eq_true hown) ho]

theorem runJob_spec (go : Platform) (ho : OrderInsensitive reducef) (hn : 1 ≤ nReduce)
    (hin : ∀ f ∈ files, (input f).isSome = true)
    (he : Executes files nReduce mapf mappers reducers) (fs : FileSystem) :
    ∃ out, runJob go reducef input mappers reducers fs = .ok out ∧
      ∀ r < nReduce.toNat, out.read (outputName r) = some ((keyRecords reducef
        ((inPartition go nReduce r (allPairs mapf input files)).map KeyValue.repair ++
          leftovers go files fs r)).flatMap formatRecord) := by
  obtain ⟨mapped,hmapped,hw,hrest⟩ := mapped_spec go hn hin he.maps he.same fs
  obtain ⟨hplan,hnd,hall⟩ := reducers_planned he.reduces
  obtain ⟨out,hout,hread,_⟩ := runReducers_spec ho reducers hplan hnd mapped
    (fun r hr => gathered_mapped (hw r hr) hrest)
  refine ⟨out,by rw [runJob,hmapped]; exact hout,?_⟩
  intro r hr
  obtain ⟨t,ht,hg⟩ := hall r hr
  exact hread t ht r hg

/-- The tasks in the order of their lists. -/
theorem executes_in_order (files : List String) (nReduce : Int) (mapf : Mapf) :
    Executes files nReduce mapf
      ((files.mapIdx (mapGrant nReduce)).map (fun t => (t,mapf)))
      ((List.range nReduce.toNat).map (fun r => (reduceGrant r,keySort))) where
  maps := by
    rw [mapReplies,List.map_map]
    exact .of_eq (List.map_id _)
  same := by
    intro t ht f c
    obtain ⟨_,_,rfl⟩ := List.mem_map.mp ht
    exact .refl _
  reduces := by
    rw [List.map_map]
    exact .refl _

end

/-- A job's outputs are the same from two directories, whatever the job computes and in
whatever order its tasks run, exactly if they hold the same pairs in files that its
reducers match and its mappers do not write. -/
theorem outputs_independent_iff (go : Platform) (files : List String) (nReduce : Int)
    (input : String → Option Bytes) (fs fs' : FileSystem) (hn : 1 ≤ nReduce)
    (hin : ∀ f ∈ files, (input f).isSome = true) :
    (∀ mapf reducef mappers reducers mappers' reducers', OrderInsensitive reducef →
      Executes files nReduce mapf mappers reducers →
      Executes files nReduce mapf mappers' reducers' →
      ∃ out out', runJob go reducef input mappers reducers fs = .ok out ∧
        runJob go reducef input mappers' reducers' fs' = .ok out' ∧
        ∀ r < nReduce.toNat, out.read (outputName r) = out'.read (outputName r)) ↔
    ∀ r < nReduce.toNat, (leftovers go files fs r).Perm (leftovers go files fs' r) := by
  constructor
  · intro h r hr
    -- a job that emits nothing writes the leftovers alone
    refine outputs_determine ?_
    intro reducef ho
    have he := executes_in_order files nReduce (fun _ _ => [])
    have hnone : allPairs (fun _ _ => []) input files = [] := by simp [allPairs]
    obtain ⟨out,out',hout,hout',hsame⟩ := h _ reducef _ _ _ _ ho he he
    obtain ⟨_,hspec,hread⟩ := runJob_spec go ho hn hin he fs
    obtain ⟨_,hspec',hread'⟩ := runJob_spec go ho hn hin he fs'
    cases hspec.symm.trans hout
    cases hspec'.symm.trans hout'
    have hs := hsame r hr
    rw [hread r hr,hread' r hr,hnone] at hs
    exact Option.some.inj hs
  · intro hp mapf reducef mappers reducers mappers' reducers' ho he he'
    obtain ⟨out,hout,hread⟩ := runJob_spec go ho hn hin he fs
    obtain ⟨out',hout',hread'⟩ := runJob_spec go ho hn hin he' fs'
    refine ⟨out,out',hout,hout',?_⟩
    intro r hr
    rw [hread r hr,hread' r hr]
    exact congrArg (fun l => some (List.flatMap formatRecord l))
      (keyRecords_sort ho keySort ((List.Perm.refl _).append (hp r hr)))

/-- An old file of the same name as one of the job is overwritten. -/
theorem outputs_independent_overwritten :
    ∃ out out', runJob goPlatform countReducef (fun _ => some (ascii "a"))
        [(mapGrant 1 0 "pg-a.txt",countMapf)] [(reduceGrant 0,keySort)] Store.empty = .ok out ∧
      runJob goPlatform countReducef (fun _ => some (ascii "a"))
        [(mapGrant 1 0 "pg-a.txt",countMapf)] [(reduceGrant 0,keySort)]
        (Store.empty.put (intermediateName (taskName 0) 0) (ascii "old")) = .ok out' ∧
      ∀ r : Nat, r < 1 → out.read (outputName r) = out'.read (outputName r) :=
  (outputs_independent_iff goPlatform ["pg-a.txt"] 1 (fun _ => some (ascii "a")) Store.empty
    (Store.empty.put (intermediateName (taskName 0) 0) (ascii "old")) (by decide) (by simp)).mpr
    (fun r hr => by
      have hr : r = 0 := by simpa using hr
      subst hr
      decide +kernel)
    countMapf countReducef _ _ _ _ count_insensitive
    (executes_in_order ["pg-a.txt"] 1 countMapf) (executes_in_order ["pg-a.txt"] 1 countMapf)

def shelf (file : String) : Option Bytes :=
  [("pg-a.txt",ascii "a"),("pg-b.txt",ascii "b")].lookup file

/-- The word count of one file, after a word count of two files in the same directory,
still has a word of the second. -/
theorem earlier_job_shows :
    let job := runJob goPlatform countReducef shelf [(mapGrant 1 0 "pg-a.txt",countMapf)]
      [(reduceGrant 0,keySort)]
    let earlier := runJob goPlatform countReducef shelf
      [(mapGrant 1 0 "pg-a.txt",countMapf),(mapGrant 1 1 "pg-b.txt",countMapf)]
      [(reduceGrant 0,keySort)] Store.empty
    (job Store.empty).toOption.bind (·.read (outputName 0)) = some (ascii "a 1\n") ∧
      (earlier.bind job).toOption.bind (·.read (outputName 0)) = some (ascii "a 1\nb 1\n") := by
  decide +kernel

end Proofs

end MapReduce
