import Mathlib
import MapReduce.Proofs.Termination

namespace MapReduce
open Runs

/-- The process has been told of no task that it would work on. -/
def Pc.free (pc : Pc) : Prop :=
  ∀ g, pc.task = some g → g.phase ≠ .mapPhase ∧ g.phase ≠ .reducePhase

/-- The process has nothing left to do for the job. -/
def Process.through (process : Process) : Prop := process.pc.free ∧ process.closing = []

namespace Proofs
open Dispatch

variable {files : List String} {nReduce : Int} {b b' : Schedule files nReduce} {env : Setup}
variable {s t : System}

/-- Once every task is done, a worker that asks is told of no task. -/
theorem Served.free (hr : Refines b c) (hp : c.phase = .finishedPhase)
    (hs : Served b c w q b' c' a) : (q.answered a).free := by
  have hn := Board.complete_not_ready (hr.finished.mp hp).1
  cases hs with
  | granted _ _ hr _ _ _ => exact absurd hr hn
  | unknown _ =>
    intro g hg
    cases hg
    exact ⟨by decide,by decide⟩
  | idle _ =>
    intro g hg
    cases hg
    simp [hp]
  | registered _ _ _ | rejected _ _ | accepted _ _ _ =>
    intro g hg
    cases hg

theorem Advances.free (ha : Advances env p fs pc e) (h : pc.free) : e.pc.free :=
  fun g hg => h g (ha.task hg)

theorem Stepped.free (hs : Stepped env b s a b' t) (hc : Custody env b s)
    (hp : s.coord.phase = .finishedPhase) (h : (s.pc p).free) : (t.pc p).free := by
  cases hs with
  | advance hn =>
    rw [advanced_pc]
    split
    · rename_i he
      subst he
      exact (advances hn).free h
    · exact h
  | serve _ _ hs =>
    rw [afterServe_pc]
    split
    · exact hs.free hc.refines hp
    · exact h
  | serveDead _ _ _ =>
    rw [afterServe_pc]
    split
    · exact fun g hg => by cases hg
    · exact h
  | close _ =>
    rw [close_pc]
    exact h
  | crash _ =>
    rw [setProc_pc]
    split
    · rename_i he
      subst he
      exact fun g hg => h g (crash_task hg)
    · exact h

/-- After the end every worker comes closer to the answer that frees it. -/
theorem Stepped.toward_free (hs : Stepped env b s a b' t) (hc : Custody env b s)
    (hp : s.coord.phase = .finishedPhase) (hx : a ≠ .crash p) (hd : ∀ q, s.pc p ≠ .dead q) :
    (t.pc p).free ∨
      (t.pc p).distance < (s.pc p).distance ∨ (t.pc p = s.pc p ∧ ¬ a.drives p) := by
  by_cases ha : a.drives p
  · rcases ha with rfl | rfl
    · cases hs with
      | advance hn =>
        rw [advanced_pc,if_pos rfl]
        exact Or.inr (Or.inl (advances hn).closer)
    · cases hs with
      | serve hq _ hs =>
        rw [afterServe_pc,if_pos rfl]
        exact Or.inl (hs.free hc.refines hp)
      | serveDead hq _ _ => exact absurd hq (hd _)
  · exact Or.inr (Or.inr ⟨hs.other_pc ha hx,ha⟩)

/-- No reducer hands over a file to be closed once it is free. -/
theorem Advances.free_closing (ha : Advances env p fs pc e) (hf : Fair b wid pc) (h : pc.free) :
    e.closing = [] := by
  cases ha with
  | reduceDone => exact absurd hf.1.2.2 (h _ rfl).2
  | _ => rfl

theorem Stepped.closing (hs : Stepped env b s a b' t) (hc : Custody env b s)
    (h : (s.pc p).free) : (t.procs p).closing = [] ∨
      (t.procs p).closing.length < (s.procs p).closing.length ∨
      ((t.procs p).closing = (s.procs p).closing ∧ a ≠ .close p) := by
  cases hs with
  | advance hn =>
    rename_i o e
    refine Or.inr (Or.inr ⟨?_,fun he => by cases he⟩)
    by_cases ho : p = o
    · subst ho
      have := (advances hn).free_closing (hc.fair p) h
      simp [System.advanced,System.setProc,this]
    · simp [System.advanced,System.setProc,ho]
  | serve _ _ _ | serveDead _ _ _ =>
    rename_i o q c' a hq hh hs
    refine Or.inr (Or.inr ⟨?_,fun he => by cases he⟩)
    by_cases ho : p = o
    · subst ho
      simp [afterServe,System.setProc]
    · simp [afterServe,System.setProc,ho]
  | close hcl =>
    rename_i o file handles
    by_cases ho : p = o
    · subst ho
      refine Or.inr (Or.inl ?_)
      simp [System.setProc,hcl]
    · refine Or.inr (Or.inr ⟨by simp [System.setProc,ho],?_⟩)
      intro he
      cases he
      exact ho rfl
  | crash _ =>
    rename_i o hd
    by_cases ho : p = o
    · subst ho
      exact Or.inl (by simp [System.setProc])
    · exact Or.inr (Or.inr ⟨by simp [System.setProc,ho],fun he => by cases he⟩)

theorem through_reducing (hc : Custody env b s) (h : (s.procs p).through) :
    (s.procs p).reducing = false := by
  have hf := hc.fair p
  have hfree : (s.pc p).free := h.1
  have hpc : (s.procs p).pc = s.pc p := rfl
  unfold Process.reducing
  rw [h.2,hpc]
  cases hp : s.pc p with
  | reduceGlob r | reduceRead r _ _ =>
    rw [hp] at hf hfree
    exact absurd hf.2.2 (hfree r rfl).2
  | reduceWrite r _ _ =>
    rw [hp] at hf hfree
    exact absurd hf.1.2.2 (hfree r rfl).2
  | _ => rfl

theorem Advances.free_op (ha : Advances env p fs pc e) (hf : Fair b wid pc) (h : pc.free) :
    e.op = none := by
  cases ha with
  | mapCreate _ => exact absurd hf.2 (h _ rfl).1
  | mapWrite => exact absurd hf.1.2 (h _ rfl).1
  | reduceCreate => exact absurd hf.2.2 (h _ rfl).2
  | reduceWrite => exact absurd hf.1.2.2 (h _ rfl).2
  | _ => rfl

/-- Nothing that can be done next touches a file. -/
theorem through_fileOp (hc : Custody env b s) (h : ∀ p, (s.procs p).through) (action : Action) :
    s.fileOp env action = none := by
  cases action with
  | advance p =>
    refine Option.bind_eq_none_iff.mpr (fun e he => ?_)
    exact (advances he).free_op (hc.fair p) (h p).1
  | serve _ | close _ | crash _ => rfl

theorem task_running {pc : Pc} (ht : pc.task = some g) (hd : ∀ q, pc ≠ .dead q) :
    pc.running = true := by
  cases pc with
  | offline | stopped => cases ht
  | dead q => exact absurd rfl (hd q)
  | _ => rfl

section
variable {r : Endless (System.step env) rest s} {bs : Nat → Schedule files nReduce}

theorem Charted.free_kept (h : Charted env r bs) (hp : (r.states n).coord.phase = .finishedPhase)
    (hn : ((r.states n).pc p).free) (hm : n ≤ m) : ((r.states m).pc p).free := by
  induction hm with
  | refl => exact hn
  | step hm ih =>
    rcases h.step _ with ⟨_,hs⟩ | ⟨_,he,_⟩
    · exact hs.free (h.lively _).sound.custody (h.finished hp hm) ih
    · rwa [Nat.succ_eq_add_one,he]

/-- Once the job is finished, every worker that is left with a task gets rid of it. -/
theorem Charted.frees (h : Charted env r bs) (hr : FairRun env r)
    (hp : (r.states n).coord.phase = .finishedPhase) (p : Nat) :
    ∃ m, n ≤ m ∧ ((r.states m).pc p).free := by
  by_cases hn : ((r.states n).pc p).free
  · exact ⟨n,Nat.le_refl n,hn⟩
  · refine r.leads_to (hr.turn p) (fun k => ((r.states k).pc p).distance)
      (p := fun k => n ≤ k ∧ ¬ ((r.states k).pc p).free) (fun k hk => ?_) (fun k hk => ?_)
      ⟨Nat.le_refl n,hn⟩
    · have hx := hk.2
      simp only [Pc.free,not_forall] at hx
      obtain ⟨g,hg,_⟩ := hx
      exact task_running hg ((h.lively k).alive.noDead p)
    · by_cases hfree : ((r.states (k + 1)).pc p).free
      · exact Or.inl hfree
      · refine Or.inr ⟨⟨Nat.le_succ_of_le hk.1,hfree⟩,?_⟩
        rcases h.step k with ⟨ht,hs⟩ | ⟨ht,he,_⟩
        · rcases hs.toward_free (h.lively k).sound.custody (h.finished hp hk.1)
            (hr.unkilled k p ht) ((h.lively k).alive.noDead p) with hf | hlt | ⟨he,hd⟩
          · exact absurd hf hfree
          · exact Or.inl hlt
          · refine Or.inr ⟨?_,fun hx => hd hx.1⟩
            simp only [he]
        · refine Or.inr ⟨?_,fun hx => ht hx.2⟩
          simp only [he]

theorem Charted.through_kept (h : Charted env r bs)
    (hp : (r.states n).coord.phase = .finishedPhase) (hn : ((r.states n).procs p).through)
    (hm : n ≤ m) : ((r.states m).procs p).through := by
  induction hm with
  | refl => exact hn
  | step hm ih =>
    rcases h.step _ with ⟨_,hs⟩ | ⟨_,he,_⟩
    · refine ⟨hs.free (h.lively _).sound.custody (h.finished hp hm) ih.1,?_⟩
      rcases hs.closing (h.lively _).sound.custody ih.1 with hc | hc | ⟨hc,_⟩
      · exact hc
      · rw [ih.2] at hc
        exact absurd hc (Nat.not_lt_zero _)
      · rw [hc,ih.2]
    · rwa [Nat.succ_eq_add_one,he]

/-- The deferred closes of a worker that is free run out. -/
theorem Charted.closes (h : Charted env r bs)
    (hclose : r.WeaklyFair (fun s => (s.procs p).closing ≠ []) (fun a => a = .close p))
    (hp : (r.states n).coord.phase = .finishedPhase) (hn : ((r.states n).pc p).free) :
    ∃ m, n ≤ m ∧ ((r.states m).procs p).closing = [] := by
  by_cases hc : ((r.states n).procs p).closing = []
  · exact ⟨n,Nat.le_refl n,hc⟩
  · refine r.leads_to hclose (fun k => ((r.states k).procs p).closing.length)
      (p := fun k => n ≤ k ∧ ((r.states k).procs p).closing ≠ []) (fun k hk => hk.2)
      (fun k hk => ?_) ⟨Nat.le_refl n,hc⟩
    by_cases hend : ((r.states (k + 1)).procs p).closing = []
    · exact Or.inl hend
    · refine Or.inr ⟨⟨Nat.le_succ_of_le hk.1,hend⟩,?_⟩
      rcases h.step k with ⟨ht,hs⟩ | ⟨ht,he,_⟩
      · rcases hs.closing (h.lively k).sound.custody (h.free_kept hp hn hk.1)
          with hx | hlt | ⟨he,hd⟩
        · exact absurd hx hend
        · exact Or.inl hlt
        · refine Or.inr ⟨?_,fun hx => hd hx.1⟩
          simp only [he]
      · refine Or.inr ⟨?_,fun hx => ht hx.2⟩
        simp only [he]

theorem Charted.gets_through (h : Charted env r bs) (hr : FairRun env r)
    (hclose : r.WeaklyFair (fun s => (s.procs p).closing ≠ []) (fun a => a = .close p))
    (hp : (r.states n).coord.phase = .finishedPhase) :
    ∃ m, ∀ k, m ≤ k → ((r.states k).procs p).through := by
  obtain ⟨m,hm,hfree⟩ := h.frees hr hp p
  obtain ⟨k,hk,hc⟩ := h.closes hclose (h.finished hp hm) hfree
  refine ⟨k,fun j hj => h.through_kept (h.finished hp (hm.trans hk)) ⟨?_,hc⟩ hj⟩
  exact h.free_kept (h.finished hp hm) hfree hk

theorem Charted.reaches_safely (h : Charted env r bs) (hx : Executable env files nReduce)
    (hr : FairRun env r) (n : Nat) : ∃ as, run (System.step env) s as = some (r.states n) ∧
      Obeys (System.step env) (fun s a => s.crashes env a = false) s as :=
  r.reaches_obeying (fun n ht => (h.lively n).safe hx (fun p => hr.unkilled n p ht)) n

/-- Only finitely many processes have started at any time. -/
theorem started_below {fs : FileSystem}
    (r : Endless (System.step env) rest (System.start files nReduce fs)) (n : Nat) :
    ∃ bound, ∀ p, bound ≤ p → (r.states n).procs p = {} := by
  obtain ⟨as,has⟩ := r.reaches n
  refine ⟨(as.map Action.process).foldr max 0 + 1,fun p hp => ?_⟩
  have hne : ∀ a ∈ as, a.process ≠ p := by
    intro a ha he
    have := List.le_max_of_le' 0 (List.mem_map_of_mem (f := Action.process) ha) (Nat.le_refl _)
    omega
  rw [run_other has hne]
  rfl

/-- Once the job is finished, there is a time from which on nobody works for it. -/
theorem Charted.quiesces {fs : FileSystem}
    {r : Endless (System.step env) rest (System.start files nReduce fs)} (h : Charted env r bs)
    (hr : FairRun env r)
    (hclose : ∀ p, r.WeaklyFair (fun s => (s.procs p).closing ≠ []) (fun a => a = .close p))
    (hp : (r.states n).coord.phase = .finishedPhase) :
    ∃ m, ∀ k, m ≤ k → (r.states k).coord.phase = .finishedPhase ∧
      ∀ p, ((r.states k).procs p).through := by
  obtain ⟨bound,hbound⟩ := started_below r n
  have hlate : ∀ p, bound ≤ p → ∀ k, n ≤ k → ((r.states k).procs p).through := by
    intro p hle k hk
    refine h.through_kept hp ?_ hk
    rw [hbound p hle]
    refine ⟨fun g hg => ?_,rfl⟩
    cases hg
  have hall : ∀ᶠ k in Filter.atTop, ∀ p ∈ Finset.range bound, ((r.states k).procs p).through :=
    (Filter.eventually_all_finset _).mpr
      (fun p _ => Filter.eventually_atTop.mpr (h.gets_through hr (hclose p) hp))
  obtain ⟨m,hm⟩ := Filter.eventually_atTop.mp hall
  refine ⟨max n m,fun k hk => ⟨h.finished hp (by omega),fun p => ?_⟩⟩
  rcases Nat.lt_or_ge p bound with hlt | hge
  · exact hm k (by omega) p (Finset.mem_range.mpr hlt)
  · exact hlate p hge k (by omega)

end

theorem jobOutput_valid (hv : AllValid (allPairs env.mapf env.input files)) (j : Nat) :
    jobOutput env files nReduce j = (keyRecords env.reducef
      (inPartition env.go nReduce j (allPairs env.mapf env.input files))).flatMap formatRecord := by
  have hvalid : AllValid (inPartition env.go nReduce j (allPairs env.mapf env.input files)) :=
    fun kv hkv => hv kv (List.mem_filter.mp hkv).1
  unfold jobOutput
  rw [repair_allValid hvalid]

/-- `mrsequential` writes the records of all pairs in one place. -/
theorem mrsequential_spec {calls : Nat → Mapf} {mapf : Mapf} {reducef : Reducef}
    {input : String → Option Bytes} (hf : files ≠ []) (ho : OrderInsensitive reducef)
    (hin : ∀ f ∈ files, (input f).isSome = true) (hcalls : ∀ i f c, (calls i f c).Perm (mapf f c))
    (sort : KeySort) : mrsequential calls reducef sort input files =
      .ok ((keyRecords reducef (allPairs mapf input files)).flatMap formatRecord) := by
  obtain ⟨l,hl,hp⟩ := mapInputs_spec hcalls hin [] 0
  rw [List.nil_append] at hl
  rw [mrsequential,if_neg hf,hl,← keyRecords_sort ho sort hp,← sequentialRecords_eq]
  rfl

/-- A fair run of a job from a directory without files of map tasks, in which a worker starts
and every file that was written to gets closed. -/
structure FairJob (env : Setup) (files : List String) (nReduce : Int) where
  inputs : files ≠ []
  executable : Executable env files nReduce
  fs : FileSystem
  clean : ∀ name ∈ fs.names, ¬ taskPrefix.toList <+: name.toList
  rest : System → Prop
  run : Endless (System.step env) rest (System.start files nReduce fs)
  fair : FairRun env run
  closes : ∀ p, run.WeaklyFair (fun s => (s.procs p).closing ≠ []) (fun a => a = .close p)
  started : ∃ n p, (run.states n).pc p ≠ .offline

/-- What the outputs hold from some time on, in every fair run of a job. -/
theorem FairJob.outputs (job : FairJob env files nReduce) (ho : OrderInsensitive env.reducef)
    (hv : AllValid (allPairs env.mapf env.input files)) :
    ∃ m, ∀ k, m ≤ k → (job.run.states k).quiescent ∧
      (∀ action, (job.run.states k).fileOp env action = none) ∧ ∀ j < nReduce.toNat,
      (job.run.states k).fs.read (outputName j) = some ((keyRecords env.reducef
        (inPartition env.go nReduce j (allPairs env.mapf env.input files))).flatMap formatRecord) := by
  obtain ⟨bs,h⟩ := fair_charted job.inputs job.executable job.fair
  obtain ⟨_,_,hstart⟩ := job.started
  obtain ⟨n,_,hp⟩ := h.finishes job.executable job.fair hstart
  obtain ⟨m,hm⟩ := h.quiesces job.fair job.closes hp
  refine ⟨m,fun k hk => ?_⟩
  have hc := (h.lively k).sound.custody
  have hq : (job.run.states k).quiescent :=
    ⟨(hm k hk).1,fun p => through_reducing hc ((hm k hk).2 p)⟩
  refine ⟨hq,through_fileOp hc (hm k hk).2,fun j hj => ?_⟩
  obtain ⟨as,has,hobeys⟩ := h.reaches_safely job.executable job.fair k
  obtain ⟨b,hover⟩ := reached_overlapped job.inputs ho job.clean has hobeys
  rw [hover.jobOutput ho hq hj,jobOutput_valid hv]

/-- Every fair run of a job, with any number of workers and in any schedule, comes to a time
from which on the outputs hold the records that `mrsequential` writes, each in the file of its
key's partition, and no step that a process could take creates or writes a file. -/
theorem fair_runs_settle {env : Setup} {files : List String} {nReduce : Int}
    (job : FairJob env files nReduce) (ho : OrderInsensitive env.reducef)
    (hv : AllValid (allPairs env.mapf env.input files)) (sort : KeySort) :
    ∃ (records : Nat → List KeyValue) (sequential : List KeyValue) (m : Nat),
      mrsequential (fun _ => env.mapf) env.reducef sort env.input files =
        .ok (sequential.flatMap (fun x => x.key ++ 0x20 :: x.value ++ [0x0A])) ∧
      ((List.range nReduce.toNat).flatMap records).Perm sequential ∧
      (∀ j, ∀ x ∈ records j, (ihash env.go x.key).tmod nReduce = j) ∧
      ∀ k, m ≤ k → (job.run.states k).quiescent ∧
        (∀ action, (job.run.states k).fileOp env action = none) ∧
        ∀ j < nReduce.toNat, (job.run.states k).fs.read (outputName j) =
          some ((records j).flatMap (fun x => x.key ++ 0x20 :: x.value ++ [0x0A])) := by
  obtain ⟨m,hm⟩ := job.outputs ho hv
  refine ⟨_,_,m,mrsequential_spec job.inputs ho job.executable.readable
    (fun _ f c => List.Perm.refl (env.mapf f c)) sort,
    partitionRecords_perm env.go ho job.executable.partitions _,?_,hm⟩
  exact fun j x hj => ((mem_partitionRecords ho _ j x).mp hj).2

/-- A worker that does a job alone, in a directory that is empty at first. -/
def Solo.job (hf : files ≠ []) (hx : Executable env files nReduce)
    {actions : List Action}
    (hr : run (System.step env) (System.start files nReduce Files.Store.empty) actions = some t)
    (h : Solo actions t) : FairJob env files nReduce where
  inputs := hf
  executable := hx
  fs := Files.Store.empty
  clean _ hn := absurd hn List.not_mem_nil
  rest _ := True
  run := halting actions (.advance 0) hr
  fair := h.fair hr
  closes := h.closes hr
  started := ⟨_,0,h.starts hr⟩

/-- One worker does the job of one file and one partition; its output stays. -/
theorem fair_runs_settle_solo :
    ∃ (job : FairJob countSetup ["pg.txt"] 1) (records sequential : List KeyValue) (m : Nat),
      mrsequential (fun _ => countMapf) countReducef keySort countSetup.input ["pg.txt"] =
        .ok (sequential.flatMap (fun x => x.key ++ 0x20 :: x.value ++ [0x0A])) ∧
      records.Perm sequential ∧
      ∀ k, m ≤ k → (job.run.states k).quiescent ∧
        (job.run.states k).fs.read (outputName 0) =
          some (records.flatMap (fun x => x.key ++ 0x20 :: x.value ++ [0x0A])) := by
  obtain ⟨s,hs,hsolo⟩ := countRun_solo
  obtain ⟨records,sequential,m,hseq,hperm,_,hout⟩ := fair_runs_settle
    (hsolo.job (by decide) countSetup_executable hs) count_insensitive
    (by unfold AllValid; decide) keySort
  refine ⟨hsolo.job (by decide) countSetup_executable hs,records 0,sequential,m,hseq,
    by simpa using hperm,fun k hk => ?_⟩
  exact ⟨(hout k hk).1,(hout k hk).2.2 0 (by decide)⟩

end Proofs

end MapReduce
