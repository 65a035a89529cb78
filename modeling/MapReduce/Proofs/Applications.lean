import Mathlib
import MapReduce.Plugins
import MapReduce.Proofs.Completion

namespace MapReduce

/-- The plugins that the tests compare with `mrsequential` or rely on. -/
inductive Plugin
  | wc | indexer (m : MapOrder) | earlyExit | crash

def Plugin.map (unicode : Unicode) : Plugin → Mapf
  | .wc => Wc.map unicode
  | .indexer m => Indexer.map unicode m
  | .earlyExit => EarlyExit.map
  | .crash => Crash.map

def Plugin.reduce : Plugin → Reducef
  | .wc => Wc.reduce
  | .indexer _ => Indexer.reduce
  | .earlyExit => EarlyExit.reduce
  | .crash => Crash.reduce

namespace Proofs
open Utf8 Runs

variable {files : List String} {nReduce : Int} {env : Setup}

theorem sortStrings_perm (values : List Bytes) : (sortStrings values).Perm values :=
  List.perm_insertionSort _ values

/-- Sorting leaves one order, whatever the algorithm and the order before. -/
theorem sortStrings_eq {values values' : List Bytes} (h : values.Perm values') :
    sortStrings values = sortStrings values' := by
  refine List.Perm.eq_of_pairwise (fun _ _ _ _ => le_antisymm) (List.pairwise_insertionSort _ _)
    (List.pairwise_insertionSort _ _) ?_
  exact (sortStrings_perm values).trans (h.trans (sortStrings_perm values').symm)

theorem plugin_insensitive (plugin : Plugin) : OrderInsensitive plugin.reduce := by
  intro key values values' h
  cases plugin with
  | wc | earlyExit => exact congrArg itoa h.length_eq
  | indexer m =>
    simp only [Plugin.reduce,Indexer.reduce]
    rw [sortStrings_eq h]
  | crash =>
    simp only [Plugin.reduce,Crash.reduce]
    rw [sortStrings_eq h]

theorem itoa_valid (n : Nat) : isValid (itoa n) = true := encode_valid _

theorem words_valid (unicode : Unicode) (h : w ∈ words unicode contents) : isValid w = true :=
  fieldsFunc_valid (by simp [unicode.replacement]) h

/-- Whatever bytes the input holds, a plugin emits UTF-8. -/
theorem plugin_valid (unicode : Unicode) (plugin : Plugin) (file : String) (contents : Bytes) :
    AllValid (plugin.map unicode file contents) := by
  intro kv hkv
  cases plugin with
  | wc =>
    obtain ⟨w,hw,rfl⟩ := List.mem_map.mp hkv
    exact ⟨words_valid unicode hw,encode_valid _⟩
  | indexer m =>
    obtain ⟨w,hw,rfl⟩ := List.mem_map.mp hkv
    have hw := List.mem_dedup.mp ((m.perm _).mem_iff.mp hw)
    exact ⟨words_valid unicode hw,encode_valid _⟩
  | earlyExit =>
    rw [List.mem_singleton.mp hkv]
    exact ⟨encode_valid _,encode_valid _⟩
  | crash =>
    simp only [Plugin.map,Crash.map,List.mem_cons,List.not_mem_nil,or_false] at hkv
    rcases hkv with rfl | rfl | rfl | rfl
    · exact ⟨encode_valid _,encode_valid _⟩
    · exact ⟨encode_valid _,itoa_valid _⟩
    · exact ⟨encode_valid _,itoa_valid _⟩
    · exact ⟨encode_valid _,encode_valid _⟩

theorem allPairs_valid {mapf : Mapf} (h : ∀ f c, AllValid (mapf f c))
    (input : String → Option Bytes) (files : List String) : AllValid (allPairs mapf input files) := by
  intro kv hkv
  obtain ⟨f,_,hf⟩ := List.mem_flatMap.mp hkv
  exact h f _ kv hf

/-- Map tasks in any order and reduce tasks in any order leave the records of the job, each
in the output of its partition. -/
theorem distributed_outputs (go : Platform) {mapf : Mapf} {reducef : Reducef}
    {input : String → Option Bytes} {fs : FileSystem}
    {mappers : List (WorkerTaskRequestReply × Mapf)}
    {reducers : List (WorkerTaskRequestReply × KeySort)} (hn : 1 ≤ nReduce)
    (hin : ∀ f ∈ files, (input f).isSome = true) (hv : AllValid (allPairs mapf input files))
    (ho : OrderInsensitive reducef)
    (hclean : ∀ name ∈ fs.names, ¬ taskPrefix.toList <+: name.toList)
    (hm : (mappers.map Prod.fst).Perm ((makeCoordinator files nReduce).mapTasks.map Job.mapReply))
    (hr : (reducers.map Prod.fst).Perm ((List.range nReduce.toNat).map reduceGrant))
    (hmapf : ∀ t ∈ mappers, ∀ f c, (t.2 f c).Perm (mapf f c)) :
    ∃ fs', (runMappers go input mappers fs).bind (runReducers go reducef reducers) = .ok fs' ∧
      ∀ r < nReduce.toNat, fs'.read (outputName r) = some ((keyRecords reducef
        (inPartition go nReduce r (allPairs mapf input files))).flatMap formatRecord) := by
  obtain ⟨mapped,hmapped,hg⟩ := mapped_gathered go hn hin hv hm hmapf hclean
  obtain ⟨hplan,hnd,hall⟩ := reducers_planned hr
  obtain ⟨fs',hfs',hout,_⟩ := runReducers_spec ho reducers hplan hnd mapped hg
  refine ⟨fs',by rw [hmapped]; exact hfs',fun r hlt => ?_⟩
  obtain ⟨t,ht,he⟩ := hall r hlt
  exact hout t ht r he

/-- All words of the input files, file by file. -/
def allWords (unicode : Unicode) (input : String → Option Bytes) (files : List String) :
    List Bytes :=
  files.flatMap (fun file => words unicode ((input file).getD []))

theorem wc_pairs (unicode : Unicode) (input : String → Option Bytes) (files : List String) :
    allPairs (Wc.map unicode) input files =
      (allWords unicode input files).map (fun w => ⟨w,encode "1"⟩) := by
  rw [allPairs,allWords,List.map_flatMap]
  rfl

theorem wc_values (l : List Bytes) (w : Bytes) :
    (valuesOf (l.map (fun w => ⟨w,encode "1"⟩)) w).length = l.count w := by
  rw [valuesOf,List.length_map,List.filter_map,List.length_map,List.count,
    List.countP_eq_length_filter]
  refine congrArg List.length (List.filter_congr (fun x _ => ?_))
  exact (beq_eq_decide x w).symm

/-- The records of `wc`: every word that occurs, with the number of its occurrences. -/
theorem mem_wcRecords (unicode : Unicode) (input : String → Option Bytes) (files : List String)
    (x : KeyValue) : x ∈ keyRecords Wc.reduce (allPairs (Wc.map unicode) input files) ↔
      x.key ∈ allWords unicode input files ∧
        x.value = itoa ((allWords unicode input files).count x.key) := by
  have ho : OrderInsensitive Wc.reduce := plugin_insensitive .wc
  rw [mem_keyRecords ho,wc_pairs,Wc.reduce,wc_values,List.map_map]
  simp [Function.comp_def]

theorem wc_valid {unicode : Unicode} (hm : env.mapf = Wc.map unicode) :
    AllValid (allPairs env.mapf env.input files) :=
  allPairs_valid (fun f c => hm ▸ plugin_valid unicode .wc f c) _ _

/-- Word count from end to end: every fair run of the system ends with outputs that hold one
line for each word of the input, in the file of its partition, in increasing order, with the
number of times that the word occurs in all files together. -/
theorem wc_counts_words {env : Setup} {files : List String} {nReduce : Int}
    (job : FairJob env files nReduce) (unicode : Unicode) (hm : env.mapf = Wc.map unicode)
    (hr : env.reducef = Wc.reduce) :
    ∃ m, ∀ k, m ≤ k → ∀ j < nReduce.toNat, ∃ records : List KeyValue,
      (job.run.states k).fs.read (outputName j) =
        some (records.flatMap (fun x => x.key ++ 0x20 :: x.value ++ [0x0A])) ∧
      records.Pairwise (fun a b => a.key < b.key) ∧
      ∀ x, x ∈ records ↔ x.key ∈ allWords unicode env.input files ∧
        x.value = itoa ((allWords unicode env.input files).count x.key) ∧
        (ihash env.go x.key).tmod nReduce = j := by
  have ho : OrderInsensitive env.reducef := hr ▸ plugin_insensitive .wc
  obtain ⟨m,hout⟩ := job.outputs ho (wc_valid hm)
  refine ⟨m,fun k hk j hj => ⟨_,(hout k hk).2.2 j hj,records_increasing (keySort.sorted _),?_⟩⟩
  intro x
  rw [mem_partitionRecords ho,hr,hm,mem_wcRecords,and_assoc]

/-- A text may be cut into files at ASCII separators: the outputs of word count for the files
and for the whole text in one file are the same, partition by partition and byte by byte. -/
theorem wc_cut_at_separators {env env' : Setup} {files : List String} {file : String}
    {nReduce : Int} (job : FairJob env files nReduce) (job' : FairJob env' [file] nReduce)
    (unicode : Unicode) (hm : env.mapf = Wc.map unicode) (hm' : env'.mapf = Wc.map unicode)
    (hr : env.reducef = Wc.reduce) (hr' : env'.reducef = Wc.reduce) (hgo : env'.go = env.go)
    {x : UInt8} (hx : x < 0x80) (hl : unicode.isLetter x.toNat = false)
    (hjoin : env'.input file = some ([x].intercalate (files.map (fun f => (env.input f).getD [])))) :
    ∃ m, ∀ k k', m ≤ k → m ≤ k' → ∀ j < nReduce.toNat,
      (job.run.states k).fs.read (outputName j) = (job'.run.states k').fs.read (outputName j) := by
  have hwords : allWords unicode env'.input [file] = allWords unicode env.input files := by
    have hsep : (fun r => !unicode.isLetter r) x.toNat = true := by simp [hl]
    simp only [allWords,List.flatMap_cons,List.flatMap_nil,List.append_nil,hjoin,Option.getD_some]
    rw [words,fieldsFunc_intercalate hx hsep,List.flatMap_map]
    rfl
  have ho : OrderInsensitive Wc.reduce := plugin_insensitive .wc
  obtain ⟨m,hout⟩ := job.outputs (hr ▸ ho) (wc_valid hm)
  obtain ⟨m',hout'⟩ := job'.outputs (hr' ▸ ho) (wc_valid hm')
  refine ⟨max m m',fun k k' hk hk' j hj => ?_⟩
  rw [(hout k (by omega)).2.2 j hj,(hout' k' (by omega)).2.2 j hj,hm,hm',hr,hr',hgo,wc_pairs,wc_pairs,
    hwords]

/-- The letters of ASCII. -/
def asciiLetters : Unicode where
  isLetter r := (65 ≤ r && r ≤ 90) || (97 ≤ r && r ≤ 122)
  replacement := rfl

/-- `wc` on the one-word file of `countSetup` and on a file with the word twice. -/
def wcSetup : Setup where
  go := goPlatform
  mapf := Wc.map asciiLetters
  reducef := Wc.reduce
  input file := if file = "pg.txt" then some (ascii "a")
    else if file = "all.txt" then some (ascii "a a") else none
  worker := countSetup.worker
  sort := countSetup.sort

theorem wcSetup_executable (hf : ∀ f ∈ files, f = "pg.txt" ∨ f = "all.txt") :
    Executable wcSetup files 1 where
  partitions := Int.le_refl 1
  readable f hm := by
    rcases hf f hm with rfl | rfl
    · rfl
    · rfl
  named := countSetup_executable.named

theorem wcSetup_solo : ∃ s, run (System.step wcSetup)
    (System.start ["pg.txt"] 1 Files.Store.empty) quietRun = some s ∧ Solo quietRun s :=
  solo_of_run (by decide +kernel) (by decide) (by simp [quietRun,soloRun,joins,works,reports])

/-- The one word of the one file is counted once. -/
theorem wc_counts_words_solo :
    ∃ (job : FairJob wcSetup ["pg.txt"] 1) (m : Nat), ∀ k, m ≤ k →
      ∃ records : List KeyValue, (job.run.states k).fs.read (outputName 0) =
        some (records.flatMap (fun x => x.key ++ 0x20 :: x.value ++ [0x0A])) ∧
        ⟨encode "a",itoa 1⟩ ∈ records := by
  obtain ⟨s,hs,hsolo⟩ := wcSetup_solo
  have hx : Executable wcSetup ["pg.txt"] 1 := wcSetup_executable (by simp)
  obtain ⟨m,hm⟩ := wc_counts_words (hsolo.job (by decide) hx hs) asciiLetters rfl rfl
  refine ⟨hsolo.job (by decide) hx hs,m,fun k hk => ?_⟩
  obtain ⟨records,hread,_,hmem⟩ := hm k hk 0 (by decide)
  exact ⟨records,hread,(hmem _).mpr ⟨by decide,by decide,by decide⟩⟩

/-- One worker maps two files of one pair each and reduces one key from two files. -/
def pairRun : List Action :=
  List.flatten [joins 0,works 0,reports 0,works 0,reports 0,works 0,.advance 0 :: reports 0,
    [.serve 0,.advance 0,.close 0]]

/-- One worker maps one file of two pairs. -/
def joinedRun : List Action :=
  List.flatten [joins 0,works 0,.advance 0 :: reports 0,works 0,reports 0,
    [.serve 0,.advance 0,.close 0]]

theorem wcSetup_pair : ∃ s, run (System.step wcSetup)
    (System.start ["pg.txt","pg.txt"] 1 Files.Store.empty) pairRun = some s ∧ Solo pairRun s :=
  solo_of_run (by decide +kernel) (by decide) (by simp [pairRun,joins,works,reports])

theorem wcSetup_joined : ∃ s, run (System.step wcSetup)
    (System.start ["all.txt"] 1 Files.Store.empty) joinedRun = some s ∧ Solo joinedRun s :=
  solo_of_run (by decide +kernel) (by decide) (by simp [joinedRun,joins,works,reports])

/-- Two files of one word and one file with both words, cut at the space. -/
theorem wc_cut_at_separators_space :
    ∃ (job : FairJob wcSetup ["pg.txt","pg.txt"] 1) (job' : FairJob wcSetup ["all.txt"] 1) (m : Nat),
      ∀ k k', m ≤ k → m ≤ k' → (job.run.states k).fs.read (outputName 0) =
        (job'.run.states k').fs.read (outputName 0) := by
  obtain ⟨s,hs,hsolo⟩ := wcSetup_pair
  obtain ⟨s',hs',hsolo'⟩ := wcSetup_joined
  have hx : Executable wcSetup ["pg.txt","pg.txt"] 1 := wcSetup_executable (by simp)
  have hx' : Executable wcSetup ["all.txt"] 1 := wcSetup_executable (by simp)
  obtain ⟨m,hm⟩ := wc_cut_at_separators (hsolo.job (by decide) hx hs)
    (hsolo'.job (by decide) hx' hs') asciiLetters rfl rfl rfl rfl rfl (x := 0x20) (by decide)
    (by decide) (by decide)
  exact ⟨_,_,m,fun k k' hk hk' => hm k k' hk hk' 0 (by decide)⟩

/-- The input files that hold a word, by their names. -/
def documents (unicode : Unicode) (input : String → Option Bytes) (files : List String)
    (w : Bytes) : List Bytes :=
  (files.filter (fun file => w ∈ words unicode ((input file).getD []))).map encode

theorem indexer_perm (unicode : Unicode) (m m' : MapOrder) (f : String) (c : Bytes) :
    (Indexer.map unicode m f c).Perm (Indexer.map unicode m' f c) :=
  ((m.perm _).trans (m'.perm _).symm).map _

/-- A file gives a word its name once, or not at all. -/
theorem filter_nodup {α : Type} [DecidableEq α] {l : List α} (h : l.Nodup) (a : α) :
    l.filter (fun b => decide (b = a)) = if a ∈ l then [a] else [] := by
  have he : l.filter (fun b => decide (b = a)) = List.replicate (l.count a) a := by
    rw [← List.filter_beq]
    refine List.filter_congr (fun b _ => ?_)
    exact (beq_eq_decide b a).symm
  rw [he]
  by_cases hm : a ∈ l
  · rw [if_pos hm,List.count_eq_one_of_mem h hm]
    rfl
  · rw [if_neg hm,List.count_eq_zero_of_not_mem hm]
    rfl

theorem indexer_value (unicode : Unicode) (file : String) (contents : Bytes) (w : Bytes) :
    valuesOf (Indexer.map unicode insertionOrder file contents) w =
      if w ∈ words unicode contents then [encode file] else [] := by
  have hf := filter_nodup (List.nodup_dedup (words unicode contents)) w
  simp only [List.mem_dedup] at hf
  rw [valuesOf,Indexer.map,List.filter_map,List.map_map]
  refine (congrArg (List.map _) hf).trans ?_
  split <;> rfl

theorem indexer_values (unicode : Unicode) (input : String → Option Bytes) (files : List String)
    (w : Bytes) : valuesOf (allPairs (Indexer.map unicode insertionOrder) input files) w =
      documents unicode input files w := by
  induction files with
  | nil => rfl
  | cons file files ih =>
    have happ : valuesOf (allPairs (Indexer.map unicode insertionOrder) input (file :: files)) w =
        valuesOf (Indexer.map unicode insertionOrder file ((input file).getD [])) w ++
          valuesOf (allPairs (Indexer.map unicode insertionOrder) input files) w := by
      rw [allPairs,List.flatMap_cons,valuesOf,List.filter_append,List.map_append]
      rfl
    rw [happ,ih,indexer_value,documents,documents,List.filter_cons]
    split
    · rw [if_pos (decide_eq_true ‹_›)]
      rfl
    · rw [if_neg (by simpa using ‹_›)]
      rfl

theorem mem_indexer_keys (unicode : Unicode) (input : String → Option Bytes) (files : List String)
    (w : Bytes) : w ∈ (allPairs (Indexer.map unicode insertionOrder) input files).map KeyValue.key ↔
      w ∈ allWords unicode input files := by
  simp [allPairs,allWords,Indexer.map,insertionOrder]

/-- The inverted index from end to end: whatever the order of the tasks and the orders in
which Go visits its maps, every word of the input gets one line, in the file of its partition,
with the number and the sorted list of the documents that hold it. -/
theorem indexer_lists_documents (go : Platform) (unicode : Unicode) {files : List String}
    {nReduce : Int} (input : String → Option Bytes) (fs : FileSystem)
    (mappers : List (WorkerTaskRequestReply × Mapf))
    (reducers : List (WorkerTaskRequestReply × KeySort)) (hn : 1 ≤ nReduce)
    (hin : ∀ f ∈ files, (input f).isSome = true)
    (hclean : ∀ name ∈ fs.names, ¬ taskPrefix.toList <+: name.toList)
    (hm : (mappers.map Prod.fst).Perm ((makeCoordinator files nReduce).mapTasks.map Job.mapReply))
    (hr : (reducers.map Prod.fst).Perm ((List.range nReduce.toNat).map reduceGrant))
    (hmapf : ∀ t ∈ mappers, ∃ m, t.2 = Indexer.map unicode m) :
    ∃ fs', (runMappers go input mappers fs).bind (runReducers go Indexer.reduce reducers) = .ok fs' ∧
      ∀ r < nReduce.toNat, ∃ records : List KeyValue,
        fs'.read (outputName r) =
          some (records.flatMap (fun x => x.key ++ 0x20 :: x.value ++ [0x0A])) ∧
        records.Pairwise (fun a b => a.key < b.key) ∧
        ∀ x, x ∈ records ↔ x.key ∈ allWords unicode input files ∧
          x.value = itoa (documents unicode input files x.key).length ++ 0x20 ::
            (encode ",").intercalate (sortStrings (documents unicode input files x.key)) ∧
          (ihash go x.key).tmod nReduce = r := by
  have ho : OrderInsensitive Indexer.reduce := plugin_insensitive (.indexer insertionOrder)
  have hv : AllValid (allPairs (Indexer.map unicode insertionOrder) input files) :=
    allPairs_valid (fun f c => plugin_valid unicode (.indexer insertionOrder) f c) _ _
  have hsame : ∀ t ∈ mappers, ∀ f c, (t.2 f c).Perm (Indexer.map unicode insertionOrder f c) := by
    intro t ht f c
    obtain ⟨m,he⟩ := hmapf t ht
    rw [he]
    exact indexer_perm unicode m insertionOrder f c
  obtain ⟨fs',hrun,hout⟩ := distributed_outputs go hn hin hv ho hclean hm hr hsame
  refine ⟨fs',hrun,fun r hlt => ⟨_,hout r hlt,records_increasing (keySort.sorted _),fun x => ?_⟩⟩
  rw [mem_partitionRecords ho,mem_keyRecords ho,mem_indexer_keys,indexer_values,and_assoc,
    Indexer.reduce,(sortStrings_perm _).length_eq]

/-- Two documents, of which both hold the first word and the second holds another. -/
theorem indexer_lists_documents_two :
    ∃ (fs' : FileSystem) (records : List KeyValue), (runMappers goPlatform
        (fun file => some (if file = "b.txt" then ascii "y x" else ascii "x"))
        ((makeCoordinator ["b.txt","a.txt"] 1).mapTasks.map
          (fun job => (job.mapReply,Indexer.map asciiLetters insertionOrder))) Files.Store.empty).bind
        (runReducers goPlatform Indexer.reduce [(reduceGrant 0,keySort)]) = .ok fs' ∧
      fs'.read (outputName 0) =
        some (records.flatMap (fun x => x.key ++ 0x20 :: x.value ++ [0x0A])) ∧
      ⟨ascii "x",ascii "2 a.txt,b.txt"⟩ ∈ records := by
  have hm : (((makeCoordinator ["b.txt","a.txt"] 1).mapTasks.map
      (fun job => (job.mapReply,Indexer.map asciiLetters insertionOrder))).map Prod.fst).Perm
      ((makeCoordinator ["b.txt","a.txt"] 1).mapTasks.map Job.mapReply) := List.Perm.refl _
  have hmapf : ∀ t ∈ (makeCoordinator ["b.txt","a.txt"] 1).mapTasks.map
      (fun job => (job.mapReply,Indexer.map asciiLetters insertionOrder)),
      ∃ m, t.2 = Indexer.map asciiLetters m := by
    intro t ht
    obtain ⟨job,_,rfl⟩ := List.mem_map.mp ht
    exact ⟨_,rfl⟩
  obtain ⟨fs',hrun,hout⟩ := indexer_lists_documents goPlatform asciiLetters
    (fun file => some (if file = "b.txt" then ascii "y x" else ascii "x")) Files.Store.empty
    _ [(reduceGrant 0,keySort)] (by decide) (fun _ _ => rfl) (fun _ h => absurd h List.not_mem_nil)
    hm (List.Perm.refl _) hmapf
  obtain ⟨records,hread,_,hmem⟩ := hout 0 (by decide)
  exact ⟨fs',records,hrun,hread,(hmem _).mpr ⟨by decide,by decide,by decide⟩⟩

end Proofs

end MapReduce
