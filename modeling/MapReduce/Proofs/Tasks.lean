import Mathlib
import MapReduce.Proofs.Records
import MapReduce.Proofs.Names

namespace MapReduce.Proofs
open Files

/-- What `MapperTask` writes for partition `p` of the pairs `kva`. -/
def partitionContent (go : Platform) (nReduce : Int) (kva : List KeyValue) (p : Nat) : Bytes :=
  (kva.filter (fun kv => partitionValue go nReduce kv = p)).flatMap go.json.encode

/-- The pairs that `ReducerTask` reads for a partition. -/
def gathered (go : Platform) (fs : FileSystem) (partition : Int) : List KeyValue :=
  (glob fs (globPattern partition)).flatMap
    (fun name => decodeFile go.json ((fs.read name).getD []))

theorem masked_small (x : UInt32) : (x &&& 0x7fffffff).toNat < 2147483648 := by
  have := Nat.and_lt_two_pow x.toNat (n := 31) (y := 0x7fffffff) (by decide)
  simpa using this

/-- The mask keeps the hash positive also where `int` has 32 bits. -/
theorem ihash_masked (go : Platform) (key : Bytes) :
    ihash go key = ((go.sum32 key &&& 0x7fffffff).toNat : Int) := by
  have h := masked_small (go.sum32 key)
  unfold ihash
  cases go.int with
  | w64 => rfl
  | w32 =>
    simp only [IntSize.ofUInt32]
    rw [Int32.toInt,UInt32.toBitVec_toInt32,BitVec.toInt_eq_toNat_of_lt]
    · rfl
    · have hb : (go.sum32 key &&& 0x7fffffff).toBitVec.toNat =
          (go.sum32 key &&& 0x7fffffff).toNat := rfl
      omega

theorem partition_range (go : Platform) (hn : 1 ≤ nReduce) (kv : KeyValue) :
    0 ≤ partitionValue go nReduce kv ∧ partitionValue go nReduce kv < nReduce := by
  have h : 0 ≤ ihash go kv.key := by
    rw [ihash_masked]
    omega
  exact ⟨Int.tmod_nonneg _ h,Int.tmod_lt_of_pos _ (by omega)⟩

section
variable {go : Platform} {nReduce : Int} {fs : FileSystem}

theorem addPairs_spec (kva : List KeyValue) (partitions : Partition) (p : Int) :
    kva.foldl (addPair go nReduce) partitions p =
      partitions p ++ kva.filter (fun kv => partitionValue go nReduce kv = p) := by
  induction kva generalizing partitions with
  | nil => simp
  | cons kv kva ih =>
    rw [List.foldl_cons,ih]
    by_cases hp : p = partitionValue go nReduce kv
    · subst hp
      simp [addPair]
    · have hp' : ¬ partitionValue go nReduce kv = p := fun h => hp h.symm
      simp [addPair,hp,hp']

/-- Each bucket holds its pairs in the order in which `mapf` returned them. -/
theorem partitionPairs_spec (kva : List KeyValue) (p : Int) :
    partitionPairs go nReduce kva p = kva.filter (fun kv => partitionValue go nReduce kv = p) := by
  simp [partitionPairs,addPairs_spec]

theorem writeRecords_read (records : List Bytes) (hr : fs.read name = some old) (n : String) :
    (writeRecords fs name old.length records).read n =
      if n = name then some (old ++ records.flatten) else fs.read n := by
  induction records generalizing fs old with
  | nil =>
    by_cases hn : n = name
    · simp [writeRecords,hn,hr]
    · simp [writeRecords,hn]
  | cons record records ih =>
    have hw : (fs.write 0 name old.length record).read name = some (old ++ record) := by
      rw [Store.read_write,if_pos rfl,hr,Option.getD_some,overwrite_end]
    have := ih hw
    rw [List.length_append] at this
    rw [writeRecords,this,Store.read_write]
    by_cases hn : n = name
    · simp [hn]
    · simp [hn]

theorem writeFile_read (fs : FileSystem) (name : String) (records : List Bytes) (n : String) :
    (writeFile fs name records).read n = if n = name then some records.flatten else fs.read n := by
  have hc : (fs.create name).read name = some [] := by rw [Store.read_create,if_pos rfl]
  have := writeRecords_read records hc n
  rw [List.length_nil] at this
  rw [writeFile,this,Store.read_create]
  by_cases hn : n = name <;> simp [hn]

theorem intermediateName_inj {p q : Nat} (h : intermediateName taskId p = intermediateName taskId q) :
    p = q :=
  Nat.repr_injective ((String.append_right_inj _).mp h)

theorem writePartitions_other (taskId : String) (partitions : Partition) (fs : FileSystem)
    (count : Nat) (hn : ∀ p < count, name ≠ intermediateName taskId p) :
    (writePartitions go taskId partitions fs count).read name = fs.read name := by
  unfold writePartitions
  induction count with
  | zero => rfl
  | succ count ih =>
    rw [List.range_succ,List.foldl_append,List.foldl_cons,List.foldl_nil,writeFile_read,
      if_neg (hn count (Nat.lt_succ_self count))]
    exact ih (fun p hp => hn p (by omega))

theorem writePartitions_read (taskId : String) (partitions : Partition) (fs : FileSystem)
    (count : Nat) (hp : p < count) :
    (writePartitions go taskId partitions fs count).read (intermediateName taskId p) =
      some ((partitions p).flatMap go.json.encode) := by
  unfold writePartitions
  induction count with
  | zero => exact absurd hp (Nat.not_lt_zero p)
  | succ count ih =>
    rw [List.range_succ,List.foldl_append,List.foldl_cons,List.foldl_nil,writeFile_read]
    by_cases he : p = count
    · rw [if_pos (by rw [he]),he]
      rfl
    · rw [if_neg (fun h => he (intermediateName_inj h))]
      exact ih (by omega)

theorem mapperTask_spec (go : Platform) {input : String → Option Bytes} (mapf : Mapf)
    (result : WorkerTaskRequestReply) (fs : FileSystem)
    (hc : input result.filePath = some content) (hn : 1 ≤ result.nReduce) :
    ∃ fs', mapperTask go mapf input result fs = .ok fs' ∧
      (∀ p < result.nReduce.toNat, fs'.read (intermediateName result.taskId p) =
        some (partitionContent go result.nReduce (mapf result.filePath content) p)) ∧
      ∀ name, (∀ p < result.nReduce.toNat, name ≠ intermediateName result.taskId p) →
        fs'.read name = fs.read name := by
  have h0 : ¬ (result.nReduce = 0 ∧ mapf result.filePath content ≠ []) := by omega
  refine ⟨_,by simp only [mapperTask,hc,if_neg h0]; rfl,?_,?_⟩
  · intro p hp
    rw [writePartitions_read _ _ _ _ hp,partitionPairs_spec]
    rfl
  · exact fun name hname => writePartitions_other _ _ _ _ hname

theorem decodeLoop_newline (json : Json) (steps : Nat) (s : Bytes) :
    decodeLoop json steps (0x0A :: s) = decodeLoop json steps s := by
  cases steps with
  | zero => rfl
  | succ steps => rw [decodeLoop,decodeLoop,json.decode_newline]

theorem decodeLoop_encode (json : Json) (kvs : List KeyValue) (steps : Nat)
    (h : kvs.length ≤ steps) :
    decodeLoop json steps (kvs.flatMap json.encode) = kvs.map KeyValue.repair := by
  induction kvs generalizing steps with
  | nil =>
    cases steps with
    | zero => rfl
    | succ steps => simp [decodeLoop,json.decode_nil]
  | cons kv kvs ih =>
    cases steps with
    | zero => simp at h
    | succ steps =>
      have hs : (kv :: kvs).flatMap json.encode =
          json.marshal kv ++ 0x0A :: kvs.flatMap json.encode := by simp [Json.encode]
      rw [hs,decodeLoop,json.decode_marshal]
      simp only [decodeLoop_newline,ih steps (by simpa using h),List.map_cons]

theorem encode_length (json : Json) (kvs : List KeyValue) :
    kvs.length ≤ (kvs.flatMap json.encode).length := by
  induction kvs with
  | nil => simp
  | cons kv kvs ih =>
    simp only [List.flatMap_cons,List.length_append,List.length_cons,Json.encode,List.length_nil]
    omega

/-- Reading a file back gives the pairs that were written, repaired. -/
theorem decodeFile_encode (json : Json) (kvs : List KeyValue) :
    decodeFile json (kvs.flatMap json.encode) = kvs.map KeyValue.repair :=
  decodeLoop_encode json kvs _ (encode_length json kvs)

theorem readFiles_spec (json : Json) (fs : FileSystem) (intermediate : List KeyValue)
    (names : List String) (hn : ∀ name ∈ names, name ∈ fs.names) :
    readFiles json fs intermediate names = .ok (intermediate ++
      names.flatMap (fun name => decodeFile json ((fs.read name).getD []))) := by
  induction names generalizing intermediate with
  | nil => simp [readFiles]
  | cons name names ih =>
    have hs := (Store.mem_names fs name).mp (hn name List.mem_cons_self)
    obtain ⟨s,hs⟩ := Option.isSome_iff_exists.mp hs
    rw [readFiles,hs]
    simp only [ih _ (fun n hm => hn n (List.mem_cons_of_mem _ hm)),List.flatMap_cons,hs,
      Option.getD_some,List.append_assoc]

theorem glob_names (h : name ∈ glob fs pattern) : name ∈ fs.names := by
  have := (List.perm_insertionSort _ _).mem_iff.mp h
  exact (List.mem_filter.mp this).1

/-- The glob only finds files that are there, so `ReducerTask` always gets to its report. -/
theorem reducerTask_spec (go : Platform) (sort : KeySort) (reducef : Reducef)
    (result : WorkerTaskRequestReply) (fs : FileSystem) :
    reducerTask go sort reducef result fs = .ok (writeFile fs (outputName result.partition)
      ((reduceRecords reducef (sort.sort (gathered go fs result.partition))).map formatRecord)) := by
  have hr := readFiles_spec go.json fs [] (glob fs (globPattern result.partition))
    (fun name hn => glob_names hn)
  unfold reducerTask
  rw [hr]
  rfl

theorem glob_frame {fs' : FileSystem} (r : Int)
    (h : ∀ name, taskPrefix.toList <+: name.toList → fs'.read name = fs.read name) :
    glob fs' (globPattern r) = glob fs (globPattern r) := by
  refine List.Perm.eq_of_pairwise (fun _ _ _ _ => le_antisymm) (List.pairwise_insertionSort _ _)
    (List.pairwise_insertionSort _ _) ?_
  refine (List.perm_insertionSort _ _).trans (List.Perm.trans ?_ (List.perm_insertionSort _ _).symm)
  refine (List.perm_ext_iff_of_nodup (fs'.nodup.filter _) (fs.nodup.filter _)).mpr ?_
  intro name
  rw [List.mem_filter,List.mem_filter]
  refine and_congr_left (fun ha => ?_)
  refine (Store.mem_names fs' name).trans (Iff.trans ?_ (Store.mem_names fs name).symm)
  rw [h name (accepts_task ha)]

/-- What is gathered depends on the files of map tasks alone. -/
theorem gathered_frame {fs' : FileSystem} (r : Int)
    (h : ∀ name, taskPrefix.toList <+: name.toList → fs'.read name = fs.read name) :
    gathered go fs' r = gathered go fs r := by
  unfold gathered
  rw [glob_frame r h]
  refine List.flatMap_congr (fun name hn => ?_)
  have ha := List.mem_filter.mp ((List.perm_insertionSort _ _).mem_iff.mp hn)
  rw [h name (accepts_task ha.2)]

end

end MapReduce.Proofs
