import Mathlib
import MapReduce.Proofs.DataPath

namespace MapReduce.Proofs
open Files

/-- The files that the job's map tasks write for partition `r`. -/
def ownFiles (files : List String) (r : Nat) : List String :=
  (List.range files.length).map (fun m => intermediateName (taskName m) r)

/-- What a reducer of partition `r` finds in a directory beside them. -/
def strayFiles (files : List String) (fs : FileSystem) (r : Nat) : List String :=
  (glob fs (globPattern r)).filter (· ∉ ownFiles files r)

/-- The pairs of `kva` whose key hashes to partition `p`. -/
def bucket (go : Platform) (nReduce : Int) (kva : List KeyValue) (p : Nat) : List KeyValue :=
  kva.filter (fun kv => (ihash go kv.key).tmod nReduce = p)

section
variable {go : Platform} {nReduce : Int} {fs mapped : FileSystem} {files : List String}

theorem mem_bucket {kv : KeyValue} :
    kv ∈ bucket go nReduce kva p ↔ kv ∈ kva ∧ (ihash go kv.key).tmod nReduce = p := by
  rw [bucket,List.mem_filter,decide_eq_true_iff]

theorem bucket_index (go : Platform) (hn : 1 ≤ nReduce) (kv : KeyValue) :
    ∃ p < nReduce.toNat, (ihash go kv.key).tmod nReduce = (p : Int) := by
  obtain ⟨h0,hlt⟩ := partition_range go hn kv
  unfold partitionValue at h0 hlt
  exact ⟨((ihash go kv.key).tmod nReduce).toNat,by omega,by omega⟩

theorem buckets_cover (go : Platform) (hn : 1 ≤ nReduce) (kva : List KeyValue) :
    ((List.range nReduce.toNat).flatMap (bucket go nReduce kva)).Perm kva := by
  have hnd : ((List.range nReduce.toNat).map (fun p : Nat => (p : Int))).Nodup :=
    List.nodup_range.map Nat.cast_injective
  have hp := Grouping.buckets_perm _ hnd (partitionValue go nReduce) kva ?_
  · rwa [List.flatMap_map] at hp
  · intro kv _
    obtain ⟨p,hp,he⟩ := bucket_index go hn kv
    exact List.mem_map.mpr ⟨p,List.mem_range.mpr hp,he.symm⟩

theorem mem_ownFiles {r : Nat} :
    name ∈ ownFiles files r ↔ ∃ m < files.length, name = intermediateName (taskName m) r := by
  simp only [ownFiles,List.mem_map,List.mem_range,eq_comm]

theorem ownFiles_nodup (files : List String) (r : Nat) : (ownFiles files r).Nodup :=
  List.nodup_range.map (fun _ _ he => (intermediate_inj.mp he).1)

theorem mem_glob {pattern : String} : name ∈ glob fs pattern ↔
    name ∈ fs.names ∧ Wildcard.accepts '*' '/' pattern.toList name.toList = true := by
  rw [glob,(List.perm_insertionSort _ _).mem_iff,List.mem_filter]

theorem glob_nodup (fs : FileSystem) (pattern : String) : (glob fs pattern).Nodup :=
  (List.perm_insertionSort _ _).nodup_iff.mpr (fs.nodup.filter _)

/-- No file that a reducer finds beside those of the job is written by the job. -/
theorem stray_read {r : Nat}
    (ha : Wildcard.accepts '*' '/' (globPattern r).toList name.toList = true)
    (hown : name ∉ ownFiles files r)
    (ho : ∀ name, (∀ m < files.length, ∀ r < nReduce.toNat,
      name ≠ intermediateName (taskName m) r) → mapped.read name = fs.read name) :
    mapped.read name = fs.read name := by
  refine ho name ?_
  intro m hm q _ he
  subst he
  have hq := (intermediate_accepts m q r).mp ha
  exact hown (mem_ownFiles.mpr ⟨m,hm,by rw [hq]⟩)

/-- After the map tasks a reducer finds their files for its partition, and what was there
for it before and was not theirs. -/
theorem mapped_glob
    (hw : ∀ m < files.length, (mapped.read (intermediateName (taskName m) r)).isSome = true)
    (ho : ∀ name, (∀ m < files.length, ∀ r < nReduce.toNat,
      name ≠ intermediateName (taskName m) r) → mapped.read name = fs.read name) :
    (glob mapped (globPattern r)).Perm (ownFiles files r ++ strayFiles files fs r) := by
  have hnd : (ownFiles files r ++ strayFiles files fs r).Nodup := by
    refine List.nodup_append'.mpr ⟨ownFiles_nodup files r,(glob_nodup _ _).filter _,?_⟩
    intro name hown hstray
    exact of_decide_eq_true (List.mem_filter.mp hstray).2 hown
  refine (List.perm_ext_iff_of_nodup (glob_nodup _ _) hnd).mpr ?_
  intro name
  rw [List.mem_append,strayFiles,List.mem_filter,mem_glob,mem_glob,decide_eq_true_iff]
  by_cases hown : name ∈ ownFiles files r
  · obtain ⟨m,hm,rfl⟩ := mem_ownFiles.mp hown
    simp only [hown,true_or,iff_true]
    exact ⟨(Store.mem_names _ _).mpr (hw m hm),(intermediate_accepts m r r).mpr rfl⟩
  · simp only [hown,false_or,not_false_eq_true,and_true]
    refine and_congr_left (fun ha => ?_)
    rw [Store.mem_names,Store.mem_names,stray_read ha hown ho]

theorem stray_clean (hclean : ∀ name ∈ fs.names, ¬ taskPrefix.toList <+: name.toList) (r : Nat) :
    strayFiles files fs r = [] := by
  apply List.eq_nil_iff_forall_not_mem.mpr
  intro name hname
  obtain ⟨hn,ha⟩ := mem_glob.mp (List.mem_filter.mp hname).1
  exact hclean name hn (accepts_task ha)

theorem glob_count (hr : r < nReduce.toNat)
    (hw : ∀ q < nReduce.toNat, ∀ m < files.length,
      (mapped.read (intermediateName (taskName m) q)).isSome = true)
    (ho : ∀ name, (∀ m < files.length, ∀ r < nReduce.toNat,
      name ≠ intermediateName (taskName m) r) → mapped.read name = fs.read name)
    (hm : m < files.length) (q : Nat) :
    (glob mapped (globPattern r)).count (intermediateName (taskName m) q) =
      if q = r then 1 else 0 := by
  have hnd := glob_nodup mapped (globPattern r)
  split
  · rename_i hq
    subst hq
    refine List.count_eq_one_of_mem hnd ?_
    rw [(mapped_glob (hw q hr) ho).mem_iff]
    exact List.mem_append_left _ (mem_ownFiles.mpr ⟨m,hm,rfl⟩)
  · rename_i hq
    refine List.count_eq_zero_of_not_mem (fun hmem => hq ?_)
    exact (intermediate_accepts m q r).mp (mem_glob.mp hmem).2

end

/-- `MapperTask` writes every pair that `mapf` returned to one file, in order, and the
file is that of the key's hash, whichever task it is and however wide an `int` is. -/
theorem partitioning_lossless (go : Platform) (mapf : Mapf) (input : String → Option Bytes)
    (result : WorkerTaskRequestReply) (fs : FileSystem)
    (hc : input result.filePath = some content) (hn : 1 ≤ result.nReduce) :
    let kva := mapf result.filePath content
    let nReduce := result.nReduce
    ∃ fs', mapperTask go mapf input result fs = .ok fs' ∧
      (∀ p < nReduce.toNat, fs'.read (intermediateName result.taskId p) =
        some ((bucket go nReduce kva p).flatMap (fun kv => go.json.marshal kv ++ [0x0A]))) ∧
      (∀ name, (∀ p < nReduce.toNat, name ≠ intermediateName result.taskId p) →
        fs'.read name = fs.read name) ∧
      ((List.range nReduce.toNat).flatMap (bucket go nReduce kva)).Perm kva ∧
      (∀ kv ∈ kva, ∃! p, p < nReduce.toNat ∧ kv ∈ bucket go nReduce kva p) ∧
      (∀ (kva' : List KeyValue) (p q : Nat), ∀ kv ∈ bucket go nReduce kva p,
        ∀ kv' ∈ bucket go nReduce kva' q, kv.key = kv'.key → p = q) ∧
      ∀ p, partitionPairs go nReduce kva p ≠ [] → 0 ≤ p ∧ p < nReduce := by
  intro kva nReduce
  obtain ⟨fs',h,hw,ho⟩ := mapperTask_spec go mapf result fs hc hn
  refine ⟨fs',h,hw,ho,buckets_cover go hn kva,?_,?_,?_⟩
  · intro kv hkv
    obtain ⟨p,hp,he⟩ := bucket_index go hn kv
    refine ⟨p,⟨hp,mem_bucket.mpr ⟨hkv,he⟩⟩,?_⟩
    intro q hq
    exact Int.natCast_inj.mp ((mem_bucket.mp hq.2).2.symm.trans he)
  · intro kva' p q kv hkv kv' hkv' hkey
    have hp := (mem_bucket.mp hkv).2
    have hq := (mem_bucket.mp hkv').2
    rw [hkey] at hp
    exact Int.natCast_inj.mp (hp.symm.trans hq)
  · intro p hne
    rw [partitionPairs_spec] at hne
    obtain ⟨kv,hkv⟩ := List.exists_mem_of_ne_nil _ hne
    have he : partitionValue go nReduce kv = p := of_decide_eq_true (List.mem_filter.mp hkv).2
    exact he ▸ partition_range go hn kv

theorem partitioning_lossless_one_file :
    ((List.range 2).flatMap (bucket goPlatform 2 (countMapf "pg.txt" (ascii "aba")))).Perm
      (countMapf "pg.txt" (ascii "aba")) := by
  obtain ⟨_,_,_,_,h,_⟩ := partitioning_lossless goPlatform countMapf (fun _ => some (ascii "aba"))
    (mapGrant 2 0 "pg.txt") Store.empty rfl (by decide)
  exact h

/-- The names that map tasks write under are distinct, the pattern of a partition picks
out those of the partition, and so a reducer finds each of them once. -/
theorem names_meet_globs :
    (∀ m m' r r' : Nat, intermediateName (taskName m) r = intermediateName (taskName m') r' ↔
      m = m' ∧ r = r') ∧
    (∀ m r r' : Nat, Wildcard.accepts '*' '/' (globPattern r').toList
      (intermediateName (taskName m) r).toList = true ↔ r = r') ∧
    ∀ (go : Platform) (files : List String) (nReduce : Int) (mapf : Mapf)
      (input : String → Option Bytes) (mappers : List (WorkerTaskRequestReply × Mapf))
      (fs : FileSystem), 1 ≤ nReduce → (∀ f ∈ files, (input f).isSome = true) →
      (mappers.map Prod.fst).Perm ((makeCoordinator files nReduce).mapTasks.map Job.mapReply) →
      (∀ t ∈ mappers, ∀ f c, (t.2 f c).Perm (mapf f c)) →
      ∃ mapped, runMappers go input mappers fs = .ok mapped ∧ ∀ r' < nReduce.toNat,
        (∀ m < files.length, ∀ r < nReduce.toNat, (glob mapped (globPattern r')).count
          (intermediateName (taskName m) r) = if r = r' then 1 else 0) ∧
        ((∀ name ∈ fs.names, ¬ taskPrefix.toList <+: name.toList) →
          (glob mapped (globPattern r')).Perm
            ((List.range files.length).map (fun m => intermediateName (taskName m) r'))) := by
  refine ⟨fun _ _ _ _ => intermediate_inj,intermediate_accepts,?_⟩
  intro go files nReduce mapf input mappers fs hn hin hm hs
  obtain ⟨mapped,h,hw,ho⟩ := mapped_spec go hn hin hm hs fs
  have hsome : ∀ q < nReduce.toNat, ∀ m < files.length,
      (mapped.read (intermediateName (taskName m) q)).isSome = true := by
    intro q hq m hm
    obtain ⟨_,_,hc⟩ := hw q hq m files[m] (List.getElem?_eq_getElem hm)
    exact Option.isSome_iff_exists.mpr ⟨_,hc⟩
  refine ⟨mapped,h,fun r hr => ⟨fun m hm q _ => glob_count hr hsome ho hm q,fun hclean => ?_⟩⟩
  have hp := mapped_glob (hsome r hr) ho
  rwa [stray_clean hclean,List.append_nil] at hp

end MapReduce.Proofs
