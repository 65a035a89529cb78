import Mathlib
import MapReduce.Proofs.Outputs

namespace MapReduce

/-- The same plugin and input on the same platform; processes and their sorts may differ. -/
structure SameJob (env env' : Setup) : Prop where
  go : env'.go = env.go
  mapf : env'.mapf = env.mapf
  reducef : env'.reducef = env.reducef
  input : env'.input = env.input

def Action.process : Action → Nat
  | .advance p | .serve p | .close p | .crash p => p

/-- The job is finished and nobody is in `ReducerTask`. -/
def System.quiescent (s : System) : Prop :=
  s.coord.phase = .finishedPhase ∧ ∀ p, (s.procs p).reducing = false

namespace Proofs
open Dispatch Files

variable {files : List String} {nReduce : Int} {b b' : Schedule files nReduce}
variable {env env' : Setup} {s s' t : System} {fs fs' : FileSystem} {text : Int → Bytes}

/-- All processes write the same text for a partition. -/
theorem outputText_eq (ho : OrderInsensitive env.reducef) (p : Nat) (fs : FileSystem) (j : Int) :
    outputText env p fs j =
      (keyRecords env.reducef (gathered env.go fs j)).flatMap formatRecord := by
  unfold outputText
  rw [keyRecords_sort ho (env.sort p) (List.Perm.refl _)]

theorem writer_output {pc : Pc} (h : pc.writer = some (j,o)) : pc.output = some j := by
  cases pc with
  | reduceWrite r file records =>
    cases h
    rfl
  | _ => cases h

theorem writer_reducing (h : (s.pc p).writer = some (j,o)) : (s.procs p).reducing = true := by
  refine Bool.or_eq_true_iff.mpr (Or.inr ?_)
  unfold System.pc at h
  cases hpc : (s.procs p).pc with
  | reduceWrite r file records => rfl
  | _ => simp [hpc,Pc.writer] at h

/-- What holds in every state of a run without crashes from a clean directory. -/
structure Overlapped (env : Setup) (b : Schedule files nReduce) (s : System) : Prop where
  sound : Sound env b s
  outputs : ∃ text, Outputs env b text s
  tidy : Tidy files nReduce s.fs

theorem Overlapped.step (h : Overlapped env b s) (ho : OrderInsensitive env.reducef)
    (hok : s.crashes env a = false) (hs : s.step env a = some t) :
    ∃ b' : Schedule files nReduce, Overlapped env b' t := by
  obtain ⟨b',hst,hsound⟩ := h.sound.step hs
  obtain ⟨text,hout⟩ := h.outputs
  refine ⟨b',hsound,hout.step h.sound hst hok ?_,hst.tidy h.sound h.tidy⟩
  intro p r acc q o _ _ hq
  obtain ⟨_,p',hp'⟩ := hout.produced r.partition (Or.inl ⟨q,writer_output hq⟩)
  rw [hp',outputText_eq ho,outputText_eq ho]

theorem reached_overlapped (hf : files ≠ []) (ho : OrderInsensitive env.reducef)
    (hclean : ∀ name ∈ fs.names, ¬ taskPrefix.toList <+: name.toList)
    (hr : Runs.run (System.step env) (System.start files nReduce fs) actions = some s)
    (hobeys : Runs.Obeys (System.step env) (fun s a => s.crashes env a = false)
      (System.start files nReduce fs) actions) :
    ∃ b : Schedule files nReduce, Overlapped env b s :=
  Runs.invariant (fun s => ∃ b : Schedule files nReduce, Overlapped env b s)
    (fun _ _ _ ⟨_,h⟩ hok hs => h.step ho hok hs) hr hobeys
    ⟨_,start_sound env nReduce hf fs,⟨_,start_outputs env nReduce fs⟩,start_tidy hclean⟩

/-- When nobody reduces any more, the handles that were open at once have left the text of
one reducer. -/
theorem Overlapped.quiet (h : Overlapped env b s) (ho : OrderInsensitive env.reducef)
    (hq : s.quiescent) (hr : r < nReduce.toNat) :
    s.fs.read (outputName r) =
      some ((keyRecords env.reducef (gathered env.go s.fs r)).flatMap formatRecord) := by
  obtain ⟨text,hout⟩ := h.outputs
  have hk := (h.sound.custody.refines.finished.mp hq.1).1 (files.length + r) (by omega)
  have hprod : Produced b s r := Or.inr ⟨r,rfl,hk⟩
  obtain ⟨cur,hcur,hcov⟩ := hout.covered r hprod
  obtain ⟨_,p,hp⟩ := hout.produced r hprod
  rw [← outputText_eq ho p,← hp,hcur,hcov.quiet]
  intro o hx
  obtain ⟨q,hw⟩ := hx
  have hred := writer_reducing hw
  rw [hq.2 q] at hred
  cases hred

/-- What a job writes for a partition, whatever the schedule. -/
def jobOutput (env : Setup) (files : List String) (nReduce : Int) (r : Nat) : Bytes :=
  (keyRecords env.reducef ((inPartition env.go nReduce r
    (allPairs env.mapf env.input files)).map KeyValue.repair)).flatMap formatRecord

theorem Overlapped.jobOutput (h : Overlapped env b s) (ho : OrderInsensitive env.reducef)
    (hq : s.quiescent) (hr : r < nReduce.toNat) :
    s.fs.read (outputName r) = some (Proofs.jobOutput env files nReduce r) := by
  have hd := Board.complete_firstDone (h.sound.custody.refines.finished.mp hq.1).1
  have hg := h.sound.gathered_job h.tidy hd hr
  rw [h.quiet ho hq hr,Proofs.jobOutput]
  congr 2
  exact keyRecords_sort ho keySort hg

/-- A reducer that runs alone writes the text of its partition. -/
theorem reducer_alone (go : Platform) (sort : KeySort) {reducef : Reducef}
    (ho : OrderInsensitive reducef) (r : Nat) (fs : FileSystem) :
    ∃ alone, reducerTask go sort reducef (reduceGrant r) fs = .ok alone ∧
      alone.read (outputName r) =
        some ((keyRecords reducef (gathered go fs r)).flatMap formatRecord) := by
  refine ⟨_,reducerTask_spec go sort reducef (reduceGrant r) fs,?_⟩
  have hp : (reduceGrant r).partition = r := rfl
  rw [hp,keyRecords_sort ho sort (List.Perm.refl _),writeFile_read,if_pos rfl,List.flatMap_def]

/-- Two runs of one job without crashes, from clean directories, with any workers and any
schedule: once each is finished and nobody is in `ReducerTask`, the outputs of both are
those that a single `ReducerTask` writes that runs alone on the intermediate files. -/
theorem outputs_independent_of_schedule {env env' : Setup} (hjob : SameJob env env')
    (ho : OrderInsensitive env.reducef) {files : List String} {nReduce : Int} (hf : files ≠ [])
    {fs fs' : FileSystem} (hclean : ∀ name ∈ fs.names, ¬ taskPrefix.toList <+: name.toList)
    (hclean' : ∀ name ∈ fs'.names, ¬ taskPrefix.toList <+: name.toList)
    {actions actions' : List Action} {s s' : System}
    (hr : Runs.run (System.step env) (System.start files nReduce fs) actions = some s)
    (hr' : Runs.run (System.step env') (System.start files nReduce fs') actions' = some s')
    (hobeys : Runs.Obeys (System.step env) (fun s a => s.crashes env a = false)
      (System.start files nReduce fs) actions)
    (hobeys' : Runs.Obeys (System.step env') (fun s a => s.crashes env' a = false)
      (System.start files nReduce fs') actions')
    (hq : s.quiescent) (hq' : s'.quiescent) {r : Nat} (hlt : r < nReduce.toNat) :
    ∃ bytes, s.fs.read (outputName r) = some bytes ∧ s'.fs.read (outputName r) = some bytes ∧
      ∀ sort, ∃ alone, reducerTask env.go sort env.reducef (reduceGrant r) s.fs = .ok alone ∧
        alone.read (outputName r) = some bytes := by
  obtain ⟨b,h⟩ := reached_overlapped hf ho hclean hr hobeys
  have ho' : OrderInsensitive env'.reducef := hjob.reducef ▸ ho
  obtain ⟨b',h'⟩ := reached_overlapped hf ho' hclean' hr' hobeys'
  have hsame : jobOutput env' files nReduce r = jobOutput env files nReduce r := by
    unfold jobOutput
    rw [hjob.go,hjob.mapf,hjob.reducef,hjob.input]
  refine ⟨_,h.jobOutput ho hq hlt,by rw [h'.jobOutput ho' hq' hlt,hsame],fun sort => ?_⟩
  obtain ⟨alone,hrun,hread⟩ := reducer_alone env.go sort ho r s.fs
  exact ⟨alone,hrun,by rw [hread,← h.quiet ho hq hlt,h.jobOutput ho hq hlt]⟩

theorem step_other (hs : s.step env a = some t) (hp : a.process ≠ p) : t.procs p = s.procs p := by
  have hset : ∀ process, (s.setProc a.process process).procs p = s.procs p :=
    fun process => Function.update_of_ne (Ne.symm hp) _ _
  cases a with
  | advance q =>
    obtain ⟨e,_,rfl⟩ := Option.map_eq_some_iff.mp hs
    exact hset _
  | serve q =>
    obtain ⟨r,_,rfl⟩ := Option.map_eq_some_iff.mp hs
    exact hset _
  | close q =>
    simp only [System.step] at hs
    split at hs <;> cases hs
    exact hset _
  | crash q =>
    simp only [System.step] at hs
    split at hs <;> cases hs
    exact hset _

/-- A process that takes no part in a run stays as it was. -/
theorem run_other (hr : Runs.run (System.step env) s actions = some t)
    (hp : ∀ a ∈ actions, a.process ≠ p) : t.procs p = s.procs p := by
  induction actions generalizing s with
  | nil =>
    cases hr
    rfl
  | cons a actions ih =>
    obtain ⟨u,hu,hr⟩ := Runs.run_cons.mp hr
    rw [ih hr (fun a' ha' => hp a' (List.mem_cons_of_mem _ ha')),
      step_other hu (hp a List.mem_cons_self)]

theorem quiescent_two
    (hr : Runs.run (System.step env) (System.start files nReduce fs) actions = some s)
    (ha : ∀ a ∈ actions, a.process < 2) (hp : s.coord.phase = .finishedPhase)
    (h0 : (s.procs 0).reducing = false) (h1 : (s.procs 1).reducing = false) : s.quiescent := by
  refine ⟨hp,fun p => ?_⟩
  match p with
  | 0 => exact h0
  | 1 => exact h1
  | p + 2 =>
    have hne : ∀ a ∈ actions, a.process ≠ p + 2 := by
      intro a hm he
      have := ha a hm
      omega
    rw [run_other hr hne]
    rfl

/-- One worker alone does the job. -/
def quietRun : List Action := soloRun ++ [.close 0]

/-- Two workers have the only output open at once, the second without a grant. -/
def overlapRun : List Action :=
  List.flatten [idleRun,List.replicate 3 (.advance 0),List.replicate 3 (.advance 1),
    [.advance 0,.advance 1,.advance 0,.advance 0,.serve 0,.advance 1,.close 0,.close 1]]

theorem outputs_independent_of_schedule_overlap :
    ∃ s s' bytes, countRun quietRun = some s ∧ countRun overlapRun = some s' ∧
      s.fs.read (outputName 0) = some bytes ∧ s'.fs.read (outputName 0) = some bytes := by
  have hrun : (countRun quietRun).map (fun s => (s.coord.phase,(s.procs 0).reducing,
      (s.procs 1).reducing)) = some (.finishedPhase,false,false) := by decide +kernel
  have hrun' : (countRun overlapRun).map (fun s => (s.coord.phase,(s.procs 0).reducing,
      (s.procs 1).reducing)) = some (.finishedPhase,false,false) := by decide +kernel
  obtain ⟨s,hs,hp⟩ := Option.map_eq_some_iff.mp hrun
  obtain ⟨s',hs',hp'⟩ := Option.map_eq_some_iff.mp hrun'
  simp only [Prod.mk.injEq] at hp hp'
  have hq := quiescent_two hs (by decide) hp.1 hp.2.1 hp.2.2
  have hq' := quiescent_two hs' (by decide) hp'.1 hp'.2.1 hp'.2.2
  have hclean : ∀ name ∈ (Store.empty : FileSystem).names, ¬ taskPrefix.toList <+: name.toList := by
    simp [Store.empty,Store.names]
  obtain ⟨bytes,h,h',_⟩ := outputs_independent_of_schedule ⟨rfl,rfl,rfl,rfl⟩ count_insensitive
    (by decide) hclean hclean hs hs' (by decide +kernel) (by decide +kernel) hq hq'
    (r := 0) (by decide)
  exact ⟨s,s',bytes,hs,hs',h,h'⟩

end Proofs

end MapReduce
