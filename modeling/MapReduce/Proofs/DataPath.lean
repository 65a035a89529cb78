import Mathlib
import MapReduce.Proofs.Schedule
import MapReduce.Proofs.Tasks
import MapReduce.Codec

namespace MapReduce
open Files

/-- What `assignMapTask` puts into the reply for a task. -/
def Job.mapReply (job : Job) : WorkerTaskRequestReply :=
  { taskId := job.taskId, type := .mapTask, status := .pending, filePath := job.filePath,
    taskAvailable := true, nReduce := job.nReduce, phase := .mapPhase }

/-- `MapperTask` for one task after another, each with the plugin's `Map` as it answers
in that run. -/
def runMappers (go : Platform) (input : String → Option Bytes) :
    List (WorkerTaskRequestReply × Mapf) → FileSystem → Except String FileSystem
  | [],fs => .ok fs
  | (result,mapf) :: tasks,fs => (mapperTask go mapf input result fs).bind (runMappers go input tasks)

/-- `ReducerTask` for one task after another, each with the order its sort leaves. -/
def runReducers (go : Platform) (reducef : Reducef) :
    List (WorkerTaskRequestReply × KeySort) → FileSystem → Except String FileSystem
  | [],fs => .ok fs
  | (result,sort) :: tasks,fs =>
    (reducerTask go sort reducef result fs).bind (runReducers go reducef tasks)

namespace Proofs

/-- All pairs that the job's map calls emit, up to their order. -/
def allPairs (mapf : Mapf) (input : String → Option Bytes) (files : List String) : List KeyValue :=
  files.flatMap (fun file => mapf file ((input file).getD []))

def inPartition (go : Platform) (nReduce : Int) (r : Nat) (l : List KeyValue) : List KeyValue :=
  l.filter (fun kv => partitionValue go nReduce kv = r)

/-- Keys and values are UTF-8, which is all that the codec keeps. -/
def AllValid (l : List KeyValue) : Prop :=
  ∀ kv ∈ l, Utf8.isValid kv.key = true ∧ Utf8.isValid kv.value = true

section
variable {go : Platform} {nReduce : Int} {fs : FileSystem} {files : List String}
variable {mapf : Mapf} {input : String → Option Bytes} {reducef : Reducef}

theorem repair_allValid {l : List KeyValue} (h : AllValid l) : l.map KeyValue.repair = l := by
  refine (List.map_congr_left ?_).trans (List.map_id l)
  intro kv hkv
  obtain ⟨hk,hv⟩ := h kv hkv
  simp [KeyValue.repair,Utf8.repair_valid hk,Utf8.repair_valid hv]

theorem range_flatMap {α : Type} (files : List String) (f : String → List α) :
    (List.range files.length).flatMap (fun i => f (files.getD i "")) = files.flatMap f := by
  have hm : (List.range files.length).map (fun i => files.getD i "") = files := by
    apply List.ext_getElem
    · simp
    · intro i hi hi'
      simp [List.getD_eq_getElem?_getD,List.getElem?_eq_getElem hi']
  conv_rhs => rw [← hm,List.flatMap_map]

/-- The files that hold what the map tasks emitted for partition `r` are decoded to the
pairs of `r` that the job emits, repaired. -/
theorem own_repaired {r : Nat} (hw : ∀ (i : Nat) (file : String), files[i]? = some file →
      ∃ kva : List KeyValue, kva.Perm (mapf file ((input file).getD [])) ∧
        fs.read (intermediateName (taskName i) r) = some (partitionContent go nReduce kva r)) :
    ((List.range files.length).flatMap (fun m =>
      decodeFile go.json ((fs.read (intermediateName (taskName m) r)).getD []))).Perm
      ((inPartition go nReduce r (allPairs mapf input files)).map KeyValue.repair) := by
  rw [inPartition,allPairs,List.filter_flatMap,List.map_flatMap,
    ← range_flatMap files (fun file => (List.filter _ (mapf file ((input file).getD []))).map _)]
  refine List.Perm.flatMap_left _ ?_
  intro i hi
  have hi : i < files.length := List.mem_range.mp hi
  obtain ⟨kva,hp,hc⟩ := hw i files[i] (List.getElem?_eq_getElem hi)
  rw [hc,Option.getD_some,partitionContent,decodeFile_encode]
  rw [List.getD_eq_getElem?_getD,List.getElem?_eq_getElem hi,Option.getD_some]
  exact (hp.filter _).map _

/-- When every map task has written what belongs to partition `r`, the reducer gathers
the pairs of `r` that the job emits, repaired. -/
theorem gathered_repaired (hh : Holds fs files.length nReduce.toNat) (hr : r < nReduce.toNat)
    (hw : ∀ (i : Nat) (file : String), files[i]? = some file →
      ∃ kva : List KeyValue, kva.Perm (mapf file ((input file).getD [])) ∧
        fs.read (intermediateName (taskName i) r) = some (partitionContent go nReduce kva r)) :
    (gathered go fs r).Perm
      ((inPartition go nReduce r (allPairs mapf input files)).map KeyValue.repair) := by
  refine ((glob_holds hh hr).flatMap_right _).trans ?_
  rw [List.flatMap_map]
  exact own_repaired hw

theorem gathered_perm (hh : Holds fs files.length nReduce.toNat) (hr : r < nReduce.toNat)
    (hw : ∀ (i : Nat) (file : String), files[i]? = some file →
      ∃ kva : List KeyValue, kva.Perm (mapf file ((input file).getD [])) ∧
        fs.read (intermediateName (taskName i) r) = some (partitionContent go nReduce kva r))
    (hv : AllValid (allPairs mapf input files)) :
    (gathered go fs r).Perm (inPartition go nReduce r (allPairs mapf input files)) := by
  have hvalid : AllValid (inPartition go nReduce r (allPairs mapf input files)) :=
    fun kv hkv => hv kv (List.mem_filter.mp hkv).1
  have h := gathered_repaired hh hr hw
  rwa [repair_allValid hvalid] at h

/-- The files of map tasks that a directory holds are all of this job. -/
def Tidy (files : List String) (nReduce : Int) (fs : FileSystem) : Prop :=
  ∀ name, taskPrefix.toList <+: name.toList → (fs.read name).isSome = true →
    ∃ m < files.length, ∃ r < nReduce.toNat, name = intermediateName (taskName m) r

theorem start_tidy (hclean : ∀ name ∈ fs.names, ¬ taskPrefix.toList <+: name.toList) :
    Tidy files nReduce fs :=
  fun name hname hs => absurd hname (hclean name ((Store.mem_names fs name).mpr hs))

theorem Tidy.holds (h : Tidy files nReduce fs) (hw : ∀ m < files.length, ∀ r < nReduce.toNat,
    (fs.read (intermediateName (taskName m) r)).isSome = true) :
    Holds fs files.length nReduce.toNat := by
  intro name hname
  constructor
  · exact fun hn => h name hname ((Store.mem_names fs name).mp hn)
  · intro hx
    obtain ⟨m,hm,r,hr,rfl⟩ := hx
    exact (Store.mem_names fs _).mpr (hw m hm r hr)

theorem mapReplies (files : List String) (nReduce : Int) :
    (makeCoordinator files nReduce).mapTasks.map Job.mapReply = files.mapIdx (mapGrant nReduce) := by
  apply List.ext_getElem?
  intro i
  simp only [makeCoordinator,List.getElem?_map,List.getElem?_mapIdx,Option.map_map]
  rfl

theorem mapReply_cases (h : g ∈ files.mapIdx (mapGrant nReduce)) :
    ∃ i f, files[i]? = some f ∧ g = mapGrant nReduce i f := by
  obtain ⟨i,hi,rfl⟩ := List.mem_mapIdx.mp h
  exact ⟨i,files[i],List.getElem?_eq_getElem hi,rfl⟩

/-- Map tasks of the job to be run, none twice, with `mapf` up to the order of its pairs. -/
structure MapRun (files : List String) (nReduce : Int) (mapf : Mapf)
    (tasks : List (WorkerTaskRequestReply × Mapf)) : Prop where
  planned : ∀ t ∈ tasks, ∃ i f, files[i]? = some f ∧ t.1 = mapGrant nReduce i f
  once : (tasks.map Prod.fst).Nodup
  same : ∀ t ∈ tasks, ∀ f c, (t.2 f c).Perm (mapf f c)

/-- The file of task `t` for partition `p` holds what `t` emitted for `p`. -/
def Written (go : Platform) (input : String → Option Bytes) (fs : FileSystem)
    (t : WorkerTaskRequestReply × Mapf) (p : Nat) : Prop :=
  fs.read (intermediateName t.1.taskId p) = some (partitionContent go t.1.nReduce
    (t.2 t.1.filePath ((input t.1.filePath).getD [])) p)

theorem grant_ne {t t' : WorkerTaskRequestReply} (ht : t = mapGrant nReduce i f)
    (hf : files[i]? = some f) (ht' : t' = mapGrant nReduce i' f') (hf' : files[i']? = some f')
    (hne : t ≠ t') (p q : Nat) :
    intermediateName t.taskId p ≠ intermediateName t'.taskId q := by
  subst ht ht'
  intro he
  have hi := (intermediate_inj.mp he).1
  subst hi
  rw [hf] at hf'
  cases hf'
  exact hne rfl

theorem runMappers_spec (go : Platform) (hn : 1 ≤ nReduce)
    (hin : ∀ f ∈ files, (input f).isSome = true)
    (tasks : List (WorkerTaskRequestReply × Mapf)) (hm : MapRun files nReduce mapf tasks)
    (fs : FileSystem) :
    ∃ fs', runMappers go input tasks fs = .ok fs' ∧
      (∀ t ∈ tasks, ∀ p < nReduce.toNat, Written go input fs' t p) ∧
      ∀ name, (∀ t ∈ tasks, ∀ p < nReduce.toNat, name ≠ intermediateName t.1.taskId p) →
        fs'.read name = fs.read name := by
  induction tasks generalizing fs with
  | nil => exact ⟨fs,rfl,by simp,fun _ _ => rfl⟩
  | cons t tasks ih =>
    obtain ⟨hnotin,hnd⟩ := List.nodup_cons.mp hm.once
    obtain ⟨i,f,hf,ht⟩ := hm.planned t List.mem_cons_self
    have hs : (input f).isSome = true := hin f (List.mem_of_getElem? hf)
    obtain ⟨content,hc⟩ := Option.isSome_iff_exists.mp hs
    have hpath : t.1.filePath = f := by rw [ht]; rfl
    have hred : t.1.nReduce = nReduce := by rw [ht]; rfl
    obtain ⟨fs₁,h₁,hw₁,ho₁⟩ := mapperTask_spec go t.2 t.1 fs
      (by rw [hpath]; exact hc) (by rw [hred]; exact hn)
    rw [hred] at hw₁ ho₁
    have hm' : MapRun files nReduce mapf tasks :=
      ⟨fun u hu => hm.planned u (List.mem_cons_of_mem _ hu),hnd,
        fun u hu => hm.same u (List.mem_cons_of_mem _ hu)⟩
    obtain ⟨fs₂,h₂,hw₂,ho₂⟩ := ih hm' fs₁
    refine ⟨fs₂,by rw [runMappers,h₁]; exact h₂,?_,?_⟩
    · intro u hu p hp
      rcases List.mem_cons.mp hu with rfl | hu
      · rw [Written,ho₂ _ ?_,hw₁ p hp,hred,hpath,hc,Option.getD_some]
        intro v hv q _
        obtain ⟨i',f',hf',hv'⟩ := hm'.planned v hv
        refine grant_ne ht hf hv' hf' ?_ p q
        intro he
        exact hnotin (List.mem_map.mpr ⟨v,hv,he.symm⟩)
      · exact hw₂ u hu p hp
    · intro name hname
      rw [ho₂ name (fun u hu => hname u (List.mem_cons_of_mem _ hu)),
        ho₁ name (hname t List.mem_cons_self)]

theorem gathered_output (r : Nat) (p : Int) (records : List Bytes) :
    gathered go (writeFile fs (outputName p) records) r = gathered go fs r := by
  apply gathered_frame
  intro name hname
  rw [writeFile_read,if_neg]
  intro he
  subst he
  exact output_not_task p hname

theorem runReducers_spec (ho : OrderInsensitive reducef) {l : Nat → List KeyValue}
    (tasks : List (WorkerTaskRequestReply × KeySort))
    (hp : ∀ t ∈ tasks, ∃ r < nReduce.toNat, t.1 = reduceGrant r) (hd : (tasks.map Prod.fst).Nodup)
    (fs : FileSystem) (hg : ∀ r < nReduce.toNat, (gathered go fs r).Perm (l r)) :
    ∃ fs', runReducers go reducef tasks fs = .ok fs' ∧
      (∀ t ∈ tasks, ∀ r, t.1 = reduceGrant r → fs'.read (outputName r) =
        some ((keyRecords reducef (l r)).flatMap formatRecord)) ∧
      ∀ name, (∀ t ∈ tasks, name ≠ outputName t.1.partition) → fs'.read name = fs.read name := by
  induction tasks generalizing fs with
  | nil => exact ⟨fs,rfl,by simp,fun _ _ => rfl⟩
  | cons t tasks ih =>
    obtain ⟨hnotin,hnd⟩ := List.nodup_cons.mp hd
    obtain ⟨r,hr,ht⟩ := hp t List.mem_cons_self
    have hpart : t.1.partition = r := by rw [ht]; rfl
    have h₁ := reducerTask_spec go t.2 reducef t.1 fs
    rw [hpart,keyRecords_sort ho t.2 (hg r hr)] at h₁
    obtain ⟨fs₂,h₂,hw₂,ho₂⟩ := ih (fun u hu => hp u (List.mem_cons_of_mem _ hu)) hnd
      (writeFile fs (outputName r) ((keyRecords reducef (l r)).map formatRecord))
      (fun q hq => by rw [gathered_output]; exact hg q hq)
    refine ⟨fs₂,by rw [runReducers,h₁]; exact h₂,?_,?_⟩
    · intro u hu q hq
      rcases List.mem_cons.mp hu with rfl | hu
      · have hqr : (q : Int) = r := by rw [← hpart,hq]; rfl
        have hqr : q = r := by omega
        subst hqr
        rw [ho₂ _ ?_,writeFile_read,if_pos rfl,List.flatMap_def]
        intro v hv he
        obtain ⟨s,_,hs⟩ := hp v (List.mem_cons_of_mem _ hv)
        have hsq := output_inj he
        rw [hs] at hsq
        apply hnotin
        have hsq : q = s := by simpa [reduceGrant] using hsq
        exact List.mem_map.mpr ⟨v,hv,by rw [hs,ht,hsq]⟩
      · exact hw₂ u hu q hq
    · intro name hname
      rw [ho₂ name (fun u hu => hname u (List.mem_cons_of_mem _ hu)),writeFile_read,if_neg]
      rw [← hpart]
      exact hname t List.mem_cons_self

theorem mapInputs_spec {calls : Nat → Mapf} (hs : ∀ i f c, (calls i f c).Perm (mapf f c))
    (hin : ∀ f ∈ files, (input f).isSome = true) (intermediate : List KeyValue) (i : Nat) :
    ∃ l, mapInputs calls input intermediate i files = .ok (intermediate ++ l) ∧
      l.Perm (allPairs mapf input files) := by
  induction files generalizing intermediate i with
  | nil => exact ⟨[],by simp [mapInputs],.nil⟩
  | cons f files ih =>
    obtain ⟨content,hc⟩ := Option.isSome_iff_exists.mp (hin f List.mem_cons_self)
    obtain ⟨l,hl,hp⟩ := ih (fun g hg => hin g (List.mem_cons_of_mem _ hg))
      (intermediate ++ calls i f content) (i + 1)
    refine ⟨calls i f content ++ l,?_,?_⟩
    · simp only [mapInputs,hc,hl,List.append_assoc]
    · simp only [allPairs,List.flatMap_cons,hc,Option.getD_some]
      exact (hs i f content).append hp

theorem mem_inPartition_key (l : List KeyValue) (r : Nat) (key : Bytes) :
    key ∈ (inPartition go nReduce r l).map KeyValue.key ↔
      key ∈ l.map KeyValue.key ∧ (ihash go key).tmod nReduce = r := by
  rw [inPartition,List.mem_map,List.mem_map]
  constructor
  · intro hx
    obtain ⟨kv,hm,rfl⟩ := hx
    obtain ⟨hm,hp⟩ := List.mem_filter.mp hm
    exact ⟨⟨kv,hm,rfl⟩,of_decide_eq_true hp⟩
  · intro hx
    obtain ⟨⟨kv,hm,rfl⟩,hp⟩ := hx
    exact ⟨kv,List.mem_filter.mpr ⟨hm,decide_eq_true hp⟩,rfl⟩

/-- All values of a key are in the partition of the key. -/
theorem valuesOf_inPartition (l : List KeyValue) (h : (ihash go key).tmod nReduce = (r : Nat)) :
    valuesOf (inPartition go nReduce r l) key = valuesOf l key := by
  rw [valuesOf,valuesOf,inPartition,List.filter_filter]
  congr 1
  apply List.filter_congr
  intro kv _
  by_cases hk : kv.key = key
  · simp [hk,partitionValue,h]
  · simp [hk]

theorem mem_partitionRecords (ho : OrderInsensitive reducef) (l : List KeyValue) (r : Nat)
    (x : KeyValue) : x ∈ keyRecords reducef (inPartition go nReduce r l) ↔
      x ∈ keyRecords reducef l ∧ (ihash go x.key).tmod nReduce = r := by
  rw [mem_keyRecords ho,mem_keyRecords ho,mem_inPartition_key]
  constructor
  · intro hx
    obtain ⟨⟨hk,hr⟩,hv⟩ := hx
    exact ⟨⟨hk,by rw [hv,valuesOf_inPartition l hr]⟩,hr⟩
  · intro hx
    obtain ⟨⟨hk,hv⟩,hr⟩ := hx
    exact ⟨⟨hk,hr⟩,by rw [hv,valuesOf_inPartition l hr]⟩

/-- The partitions together have the records that all pairs in one place give. -/
theorem partitionRecords_perm (go : Platform) (ho : OrderInsensitive reducef) (hn : 1 ≤ nReduce)
    (l : List KeyValue) :
    ((List.range nReduce.toNat).flatMap
      (fun r => keyRecords reducef (inPartition go nReduce r l))).Perm (keyRecords reducef l) := by
  have hnd : ∀ l', (keyRecords reducef l').Nodup := fun l' => (keyRecords_nodup reducef l').of_map
  refine (List.perm_ext_iff_of_nodup (List.nodup_flatMap.mpr ⟨fun r _ => hnd _,?_⟩) (hnd l)).mpr ?_
  · refine List.nodup_range.imp ?_
    intro r r' hne x hx hx'
    have hr := ((mem_partitionRecords ho l r x).mp hx).2
    have hr' := ((mem_partitionRecords ho l r' x).mp hx').2
    exact hne (by omega)
  · intro x
    simp only [List.mem_flatMap,List.mem_range,mem_partitionRecords ho]
    constructor
    · intro hex
      obtain ⟨_,_,hx,_⟩ := hex
      exact hx
    · intro hx
      obtain ⟨h0,hlt⟩ := partition_range go hn x
      have h0 : 0 ≤ (ihash go x.key).tmod nReduce := h0
      have hlt : (ihash go x.key).tmod nReduce < nReduce := hlt
      exact ⟨((ihash go x.key).tmod nReduce).toNat,by omega,hx,by omega⟩

theorem keyRecords_keys (reducef : Reducef) (l : List KeyValue) (key : Bytes) :
    key ∈ (keyRecords reducef l).map KeyValue.key ↔ key ∈ l.map KeyValue.key := by
  rw [keyRecords,reduceRecords_groups,List.map_map,← ((keySort.perm l).map KeyValue.key).mem_iff]
  exact Grouping.mem_groups_key KeyValue.key (keySort.sort l) key

/-- An emitted key has one record, in its own partition. -/
theorem partitionRecords_count (l : List KeyValue) (hk : key ∈ l.map KeyValue.key) (r : Nat) :
    ((keyRecords reducef (inPartition go nReduce r l)).map KeyValue.key).count key =
      if (ihash go key).tmod nReduce = r then 1 else 0 := by
  have hm := keyRecords_keys reducef (inPartition go nReduce r l) key
  rw [mem_inPartition_key] at hm
  by_cases hp : (ihash go key).tmod nReduce = r
  · rw [if_pos hp]
    exact List.count_eq_one_of_mem (keyRecords_nodup reducef _) (hm.mpr ⟨hk,hp⟩)
  · rw [if_neg hp]
    exact List.count_eq_zero_of_not_mem (fun h => hp (hm.mp h).2)

theorem reduceGrant_inj (h : reduceGrant i = reduceGrant j) : i = j := by
  have := congrArg WorkerTaskRequestReply.partition h
  simpa [reduceGrant] using this

/-- Reducers for all partitions are reducers for some, none twice. -/
theorem reducers_planned {reducers : List (WorkerTaskRequestReply × KeySort)}
    (hr : (reducers.map Prod.fst).Perm ((List.range nReduce.toNat).map reduceGrant)) :
    (∀ t ∈ reducers, ∃ r < nReduce.toNat, t.1 = reduceGrant r) ∧
      (reducers.map Prod.fst).Nodup ∧
      ∀ r < nReduce.toNat, ∃ t ∈ reducers, t.1 = reduceGrant r := by
  refine ⟨?_,hr.nodup_iff.mpr (List.nodup_range.map (fun _ _ h => reduceGrant_inj h)),?_⟩
  · intro t ht
    obtain ⟨r,hlt,he⟩ := List.mem_map.mp (hr.mem_iff.mp (List.mem_map_of_mem ht))
    exact ⟨r,List.mem_range.mp hlt,he.symm⟩
  · intro r hlt
    exact List.mem_map.mp (hr.mem_iff.mpr (List.mem_map_of_mem (List.mem_range.mpr hlt)))

theorem mapGrants_nodup (files : List String) (nReduce : Int) :
    (files.mapIdx (mapGrant nReduce)).Nodup := by
  apply List.nodup_iff_injective_get.mpr
  intro i j he
  simp only [List.get_eq_getElem,List.getElem_mapIdx] at he
  exact Fin.ext (taskName_inj (congrArg WorkerTaskRequestReply.taskId he))

theorem mapRun_of_perm {mappers : List (WorkerTaskRequestReply × Mapf)}
    (hm : (mappers.map Prod.fst).Perm ((makeCoordinator files nReduce).mapTasks.map Job.mapReply))
    (hs : ∀ t ∈ mappers, ∀ f c, (t.2 f c).Perm (mapf f c)) :
    MapRun files nReduce mapf mappers := by
  rw [mapReplies] at hm
  refine ⟨?_,hm.nodup_iff.mpr (mapGrants_nodup files nReduce),hs⟩
  intro t ht
  exact mapReply_cases (hm.mem_iff.mp (List.mem_map_of_mem ht))

/-- After the map tasks have run, each of their files holds what its task emitted for it,
and every other file is as it was. -/
theorem mapped_spec (go : Platform) (hn : 1 ≤ nReduce)
    (hin : ∀ f ∈ files, (input f).isSome = true) {mappers : List (WorkerTaskRequestReply × Mapf)}
    (hm : (mappers.map Prod.fst).Perm ((makeCoordinator files nReduce).mapTasks.map Job.mapReply))
    (hs : ∀ t ∈ mappers, ∀ f c, (t.2 f c).Perm (mapf f c)) (fs : FileSystem) :
    ∃ mapped, runMappers go input mappers fs = .ok mapped ∧
      (∀ r < nReduce.toNat, ∀ (i : Nat) (file : String), files[i]? = some file →
        ∃ kva : List KeyValue, kva.Perm (mapf file ((input file).getD [])) ∧
          mapped.read (intermediateName (taskName i) r) =
            some (partitionContent go nReduce kva r)) ∧
      ∀ name, (∀ m < files.length, ∀ r < nReduce.toNat, name ≠ intermediateName (taskName m) r) →
        mapped.read name = fs.read name := by
  have hrun := mapRun_of_perm hm hs
  obtain ⟨mapped,h,hw,ho⟩ := runMappers_spec go hn hin mappers hrun fs
  refine ⟨mapped,h,?_,?_⟩
  · intro r hr i f hf
    have hmem : mapGrant nReduce i f ∈ mappers.map Prod.fst := by
      rw [hm.mem_iff,mapReplies]
      exact List.mem_of_getElem? (by rw [List.getElem?_mapIdx,hf]; rfl)
    obtain ⟨t,ht,hg⟩ := List.mem_map.mp hmem
    have hwr := hw t ht r hr
    rw [Written,hg] at hwr
    exact ⟨_,hs t ht f _,hwr⟩
  · intro name hname
    refine ho name ?_
    intro t ht p hp
    obtain ⟨i,f,hf,hg⟩ := hrun.planned t ht
    rw [hg]
    exact hname i (List.getElem?_eq_some_iff.mp hf).1 p hp

/-- After the map tasks have run from a clean directory, each reducer gathers the pairs
of its partition. -/
theorem mapped_gathered (go : Platform) (hn : 1 ≤ nReduce)
    (hin : ∀ f ∈ files, (input f).isSome = true)
    (hv : AllValid (allPairs mapf input files)) {mappers : List (WorkerTaskRequestReply × Mapf)}
    (hm : (mappers.map Prod.fst).Perm ((makeCoordinator files nReduce).mapTasks.map Job.mapReply))
    (hs : ∀ t ∈ mappers, ∀ f c, (t.2 f c).Perm (mapf f c))
    (hclean : ∀ name ∈ fs.names, ¬ taskPrefix.toList <+: name.toList) :
    ∃ mapped, runMappers go input mappers fs = .ok mapped ∧ ∀ r < nReduce.toNat,
      (gathered go mapped r).Perm (inPartition go nReduce r (allPairs mapf input files)) := by
  obtain ⟨mapped,h,hw,ho⟩ := mapped_spec go hn hin hm hs fs
  have htidy : Tidy files nReduce mapped := by
    intro name hname hsome
    by_contra hno
    have hfs : mapped.read name = fs.read name :=
      ho name (fun m hm r hr he => hno ⟨m,hm,r,hr,he⟩)
    rw [hfs] at hsome
    exact hclean name ((Store.mem_names fs name).mpr hsome) hname
  have hholds : Holds mapped files.length nReduce.toNat := by
    refine htidy.holds (fun i hi p hp => ?_)
    obtain ⟨kva,_,hc⟩ := hw p hp i files[i] (List.getElem?_eq_getElem hi)
    exact Option.isSome_iff_exists.mpr ⟨_,hc⟩
  exact ⟨mapped,h,fun r hr => gathered_perm hholds hr (hw r hr) hv⟩

end

/-- Map tasks in any order and then reduce tasks in any order leave the records that
`mrsequential` writes, each emitted key in one record of its own partition's file. -/
theorem distributed_matches_sequential (go : Platform) {files : List String} {nReduce : Int}
    (mapf : Mapf) (reducef : Reducef) (input : String → Option Bytes) (fs : FileSystem)
    (mappers : List (WorkerTaskRequestReply × Mapf))
    (reducers : List (WorkerTaskRequestReply × KeySort))
    (calls : Nat → Mapf) (sort : KeySort) (hf : files ≠ []) (hn : 1 ≤ nReduce)
    (hin : ∀ f ∈ files, (input f).isSome = true) (hv : AllValid (allPairs mapf input files))
    (ho : OrderInsensitive reducef)
    (hclean : ∀ name ∈ fs.names, ¬ taskPrefix.toList <+: name.toList)
    (hm : (mappers.map Prod.fst).Perm ((makeCoordinator files nReduce).mapTasks.map Job.mapReply))
    (hr : (reducers.map Prod.fst).Perm ((List.range nReduce.toNat).map reduceGrant))
    (hmapf : ∀ t ∈ mappers, ∀ f c, (t.2 f c).Perm (mapf f c))
    (hcalls : ∀ i f c, (calls i f c).Perm (mapf f c)) :
    ∃ (mapped fs' : FileSystem) (records : Nat → List KeyValue) (sequential : List KeyValue),
      runMappers go input mappers fs = .ok mapped ∧
      runReducers go reducef reducers mapped = .ok fs' ∧
      (∀ r < nReduce.toNat, fs'.read (outputName r) =
        some ((records r).flatMap (fun x => x.key ++ 0x20 :: x.value ++ [0x0A]))) ∧
      mrsequential calls reducef sort input files =
        .ok (sequential.flatMap (fun x => x.key ++ 0x20 :: x.value ++ [0x0A])) ∧
      ((List.range nReduce.toNat).flatMap records).Perm sequential ∧
      ∀ kv ∈ allPairs mapf input files, ∀ r < nReduce.toNat,
        ((records r).map KeyValue.key).count kv.key =
          if (ihash go kv.key).tmod nReduce = r then 1 else 0 := by
  obtain ⟨mapped,hmapped,hg⟩ := mapped_gathered go hn hin hv hm hmapf hclean
  obtain ⟨hplan,hnd,hall⟩ := reducers_planned hr
  obtain ⟨fs',hfs',hout,_⟩ := runReducers_spec ho reducers hplan hnd mapped hg
  obtain ⟨l,hl,hp⟩ := mapInputs_spec hcalls hin [] 0
  refine ⟨mapped,fs',_,_,hmapped,hfs',?_,?_,
    partitionRecords_perm go ho hn (allPairs mapf input files),?_⟩
  · intro r hlt
    obtain ⟨t,ht,he⟩ := hall r hlt
    exact hout t ht r he
  · rw [List.nil_append] at hl
    rw [mrsequential,if_neg hf,hl,← keyRecords_sort ho sort hp,← sequentialRecords_eq]
    rfl
  · exact fun kv hkv r _ => partitionRecords_count _ (List.mem_map_of_mem hkv) r

theorem count_insensitive : OrderInsensitive countReducef := by
  intro key values values' hp
  simp only [countReducef,hp.length_eq]

/-- Two files, the second mapped first, and two partitions. -/
theorem distributed_matches_sequential_two_files :
    let input := fun file => [("pg-a.txt",ascii "ab"),("pg-b.txt",ascii "bc")].lookup file
    ∃ (mapped fs' : FileSystem) (records : Nat → List KeyValue) (sequential : List KeyValue),
      runMappers goPlatform input
        [(mapGrant 2 1 "pg-b.txt",countMapf),(mapGrant 2 0 "pg-a.txt",countMapf)] Store.empty =
          .ok mapped ∧
      runReducers goPlatform countReducef [(reduceGrant 1,keySort),(reduceGrant 0,keySort)] mapped =
        .ok fs' ∧
      (∀ r : Nat, r < 2 → fs'.read (outputName r) =
        some ((records r).flatMap (fun x => x.key ++ 0x20 :: x.value ++ [0x0A]))) ∧
      mrsequential (fun _ => countMapf) countReducef keySort input ["pg-a.txt","pg-b.txt"] =
        .ok (sequential.flatMap (fun x => x.key ++ 0x20 :: x.value ++ [0x0A])) ∧
      ((List.range 2).flatMap records).Perm sequential := by
  intro input
  obtain ⟨mapped,fs',records,sequential,h₁,h₂,h₃,h₄,h₅,_⟩ :=
    distributed_matches_sequential goPlatform countMapf countReducef input Store.empty
      [(mapGrant 2 1 "pg-b.txt",countMapf),(mapGrant 2 0 "pg-a.txt",countMapf)]
      [(reduceGrant 1,keySort),(reduceGrant 0,keySort)] (fun _ => countMapf) keySort
      (by decide : ["pg-a.txt","pg-b.txt"] ≠ []) (by decide : (1 : Int) ≤ 2) (by decide)
      (by unfold AllValid; decide) count_insensitive (by simp [Store.empty,Store.names])
      (List.Perm.swap _ _ _) (List.Perm.swap _ _ _)
      (by simp) (fun _ _ _ => .refl _)
  exact ⟨mapped,fs',records,sequential,h₁,h₂,h₃,h₄,h₅⟩

end Proofs

end MapReduce
