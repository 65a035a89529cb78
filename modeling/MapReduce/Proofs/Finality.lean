import Mathlib
import MapReduce.Proofs.Outputs

namespace MapReduce

/-- Nobody dies in this step, and it is no request for a task in the reduce phase while no
reduce task waits. -/
def System.orderly (env : Setup) (s : System) (a : Action) : Prop :=
  s.crashes env a = false ∧ s.idleReduceRequest a = false

instance decidableOrderly (env : Setup) (s : System) (a : Action) : Decidable (s.orderly env a) :=
  inferInstanceAs (Decidable (_ ∧ _))

namespace Proofs
open Dispatch Files

variable {files : List String} {nReduce : Int} {b b' : Schedule files nReduce} {env : Setup}
variable {s t : System} {text : Int → Bytes}

/-- Whoever is to reduce was granted the task. -/
def Sole (s : System) : Prop :=
  ∀ p r, (s.pc p).task = some r → r.phase = .reducePhase → r.taskAvailable = true

theorem Served.sole (hs : Served b c w q b' c' a)
    (hn : c.phase = .reducePhase → q = .fetch → b.Ready) (ht : (q.answered a).task = some r)
    (hp : r.phase = .reducePhase) : r.taskAvailable = true := by
  cases hs with
  | granted _ _ _ _ _ hg =>
    cases ht
    exact plan_available hg
  | unknown _ =>
    cases ht
    cases hp
  | idle hr =>
    cases ht
    have hph : c.phase = .reducePhase := by
      simp only at hp
      split at hp
      · cases hp
      · exact hp
    exact absurd (hn hph rfl) hr
  | registered _ _ _ | rejected _ _ | accepted _ _ _ => cases ht

theorem Stepped.sole (hs : Stepped env b s a b' t) (hc : Custody env b s)
    (hok : s.idleReduceRequest a = false) (h : Sole s) : Sole t := by
  intro o r ho hp
  cases hs with
  | advance hn =>
    rw [advanced_pc] at ho
    split at ho
    · exact h _ r ((advances hn).task ho) hp
    · exact h o r ho hp
  | serve hq _ hs =>
    rename_i p q c' a
    rw [afterServe_pc] at ho
    split at ho
    · refine hs.sole (fun hph he => ?_) ho hp
      subst he
      exact reduce_ready hc.refines hok (by rw [hq]; rfl) hph
    · exact h o r ho hp
  | serveDead _ _ _ =>
    rw [afterServe_pc] at ho
    split at ho
    · cases ho
    · exact h o r ho hp
  | close _ =>
    rw [close_pc] at ho
    exact h o r ho hp
  | crash _ =>
    rw [setProc_pc] at ho
    split at ho
    · exact h _ r (crash_task ho) hp
    · exact h o r ho hp

/-- A process that reduces holds the reduce task of its partition. -/
theorem Sole.granted (h : Sole s) (hc : Custody env b s) (ht : (s.pc p).task = some r)
    (hp : r.phase = .reducePhase) :
    ∃ j : Nat, r = reduceGrant j ∧ Granted b (env.worker p).id r (files.length + j) := by
  obtain ⟨k,hk⟩ := (hc.fair p).granted ht (h p r ht hp)
  rcases hk.stage with ⟨hm,_⟩ | ⟨_,j,rfl,_,hr⟩
  · rw [hp] at hm
    cases hm
  · exact ⟨j,hr,hk⟩

theorem Sole.one_reducer (h : Sole s) (hc : Custody env b s) (hp : (s.pc p).task = some r)
    (hq : (s.pc q).task = some r') (hr : r.phase = .reducePhase) (hr' : r'.phase = .reducePhase)
    (hpart : r.partition = r'.partition) : p = q := by
  obtain ⟨j,hj,_⟩ := h.granted hc hp hr
  obtain ⟨j',hj',_⟩ := h.granted hc hq hr'
  have he : (j : Int) = j' := by
    rw [hj,hj'] at hpart
    exact hpart
  have he : j = j' := by omega
  subst he
  exact hc.unique p q r (h p r hp hr) hp (by rw [hq,hj,hj'])

theorem Sole.not_finished (h : Sole s) (hc : Custody env b s) (hp : (s.pc p).task = some r)
    (hr : r.phase = .reducePhase) (hpart : r.partition = (k : Nat)) :
    ¬ b.Finished (files.length + k) := by
  obtain ⟨j,hj,hg⟩ := h.granted hc hp hr
  have he : (j : Int) = k := by
    rw [hj] at hpart
    exact hpart
  have he : j = k := by omega
  subst he
  exact Board.not_finished_of_pending hg.pending

theorem writer_task (hf : Fair b wid pc) (hw : pc.writer = some (j,o)) :
    ∃ r, pc.task = some r ∧ r.phase = .reducePhase ∧ r.partition = j := by
  cases pc with
  | reduceWrite r file records =>
    cases hw
    exact ⟨r,rfl,hf.1.2.2,rfl⟩
  | _ => cases hw

/-- What holds in every state of an orderly run. -/
structure Kept (env : Setup) (b : Schedule files nReduce) (s : System) : Prop where
  sound : Sound env b s
  sole : Sole s
  outputs : ∃ text, Outputs env b text s

theorem Kept.step (h : Kept env b s) (hok : s.orderly env a) (hs : s.step env a = some t) :
    ∃ b', Stepped env b s a b' t ∧ Kept env b' t := by
  obtain ⟨b',hst,hsound⟩ := h.sound.step hs
  have hc := h.sound.custody
  obtain ⟨text,ho⟩ := h.outputs
  refine ⟨b',hst,hsound,hst.sole hc hok.2 h.sole,ho.step h.sound hst hok.1 ?_⟩
  intro p r acc q o hp hne hq
  obtain ⟨r',ht,hph,hpart⟩ := writer_task (hc.fair q) hq
  have hfair := hc.fair p
  rw [hp] at hfair
  exact absurd (h.sole.one_reducer hc ht (by rw [hp]; rfl) hph hfair.2.2 hpart) hne

/-- The output of a finished partition is complete. -/
theorem Kept.complete (h : Kept env b s) (hk : b.Finished (files.length + k)) :
    ∃ p, s.fs.read (outputName k) = some (outputText env p s.fs k) := by
  obtain ⟨text,ho⟩ := h.outputs
  have hprod : Produced b s k := Or.inr ⟨k,rfl,hk⟩
  obtain ⟨cur,hcur,hcov⟩ := ho.covered k hprod
  obtain ⟨_,p,hp⟩ := ho.produced k hprod
  refine ⟨p,?_⟩
  rw [hcur,← hp,hcov.quiet]
  intro o hx
  obtain ⟨q,hq⟩ := hx
  obtain ⟨r,ht,hph,hpart⟩ := writer_task (h.sound.custody.fair q) hq
  exact h.sole.not_finished h.sound.custody ht hph hpart hk

/-- No step writes the output of a finished partition. -/
theorem Kept.untouched (h : Kept env b s) (hk : b.Finished (files.length + k))
    (ho : s.fileOp env a = some op) : op.name ≠ outputName k := by
  cases a with
  | advance p =>
    obtain ⟨e,he,ho⟩ := Option.bind_eq_some_iff.mp ho
    have hc := h.sound.custody
    obtain ⟨r,ht,⟨hp,hg,q,hname⟩ | ⟨hp,_,hname⟩⟩ := (advances he).op_name (hc.fair p) ho
    · rw [hname]
      exact (Granted.map_output hg hp q k).symm
    · rw [hname]
      intro heq
      exact h.sole.not_finished hc ht hp (output_inj heq) hk
  | serve _ | close _ | crash _ => cases ho

theorem start_kept (env : Setup) (nReduce : Int) (hf : files ≠ []) (fs : FileSystem) :
    Kept env (Board.blank : Schedule files nReduce) (System.start files nReduce fs) where
  sound := start_sound env nReduce hf fs
  sole _ _ h := by cases h
  outputs := ⟨_,start_outputs env nReduce fs⟩

theorem reduce_done (h : Refines b c) (hj : c.reduceTasks[k]? = some job)
    (hd : job.status = .done) : b.Finished (files.length + k) := by
  have hp : c.phase ≠ .mapPhase := by
    intro hp
    simp [h.reduces,hp] at hj
  rw [reduce_get h hp] at hj
  split at hj
  · cases hj
    exact (issue_done rfl).mp hd
  · cases hj

theorem reached_kept (env : Setup) (hf : files ≠ [])
    (hr : Runs.run (System.step env) (System.start files nReduce fs) actions = some s)
    (ho : Runs.Obeys (System.step env) (System.orderly env)
      (System.start files nReduce fs) actions) :
    ∃ b : Schedule files nReduce, Kept env b s ∧
      ((∀ name ∈ fs.names, ¬ taskPrefix.toList <+: name.toList) → Tidy files nReduce s.fs) := by
  refine Runs.invariant (fun s => ∃ b : Schedule files nReduce, Kept env b s ∧
    ((∀ name ∈ fs.names, ¬ taskPrefix.toList <+: name.toList) → Tidy files nReduce s.fs)) ?_ hr ho
    ⟨_,start_kept env nReduce hf fs,start_tidy⟩
  intro s a t hx hok hs
  obtain ⟨b,h,ht⟩ := hx
  obtain ⟨b',hst,h'⟩ := h.step hok hs
  exact ⟨b',h',fun hclean => hst.tidy h.sound (ht hclean)⟩

theorem Kept.finished_run (h : Kept env b s) (hk : b.Finished k)
    (hr : Runs.run (System.step env) s actions = some t)
    (ho : Runs.Obeys (System.step env) (System.orderly env) s actions) :
    ∃ b' : Schedule files nReduce, Kept env b' t ∧ b'.Finished k := by
  refine Runs.invariant (fun s => ∃ b : Schedule files nReduce, Kept env b s ∧ b.Finished k)
    ?_ hr ho ⟨b,h,hk⟩
  intro s a t hx hok hs
  obtain ⟨b,h,hk⟩ := hx
  obtain ⟨b',hst,h'⟩ := h.step hok hs
  exact ⟨b',h',hst.moves.finished hk⟩

/-- In an orderly run the output of a partition that is done is complete and is written no
more; when the job is finished all outputs are complete; and from a clean directory what is
reduced is what the job's map calls emit for the partition. -/
theorem done_output_final (env : Setup) {files : List String} {nReduce : Int} (hf : files ≠ [])
    (fs : FileSystem) {actions : List Action} {s : System}
    (hr : Runs.run (System.step env) (System.start files nReduce fs) actions = some s)
    (ho : Runs.Obeys (System.step env) (System.orderly env)
      (System.start files nReduce fs) actions) :
    (∀ (r : Nat) (job : Job), s.coord.reduceTasks[r]? = some job → job.status = .done →
      (∃ p, s.fs.read (outputName r) =
        some ((reduceRecords env.reducef ((env.sort p).sort (gathered env.go s.fs r))).flatMap
          (fun x => x.key ++ 0x20 :: x.value ++ [0x0A]))) ∧
      ∀ (more : List Action) (t : System) (action : Action) (op : FileOp),
        Runs.run (System.step env) s more = some t →
        Runs.Obeys (System.step env) (System.orderly env) s more →
        t.fileOp env action = some op → op.name ≠ outputName r) ∧
    (s.coord.phase = .finishedPhase → ∀ r < nReduce.toNat,
      ∃ p, s.fs.read (outputName r) =
        some ((reduceRecords env.reducef ((env.sort p).sort (gathered env.go s.fs r))).flatMap
          (fun x => x.key ++ 0x20 :: x.value ++ [0x0A]))) ∧
    ((∀ name ∈ fs.names, ¬ taskPrefix.toList <+: name.toList) → s.coord.phase ≠ .mapPhase →
      ∀ r < nReduce.toNat, (gathered env.go s.fs r).Perm ((inPartition env.go nReduce r
        (allPairs env.mapf env.input files)).map KeyValue.repair)) := by
  obtain ⟨b,h,htidy⟩ := reached_kept env hf hr ho
  have href := h.sound.custody.refines
  refine ⟨fun r job hj hd => ?_,fun hp r hlt => ?_,fun hclean hp r hlt => ?_⟩
  · have hk := reduce_done href hj hd
    refine ⟨h.complete hk,fun more t action op hrun hobeys hop => ?_⟩
    obtain ⟨b',h',hk'⟩ := h.finished_run hk hrun hobeys
    exact h'.untouched hk' hop
  · exact h.complete ((href.finished.mp hp).1 _ (by omega))
  · exact h.sound.gathered_job (htidy hclean) ((phase_firstDone href).mp hp) hlt

theorem done_output_final_one_worker :
    ∃ s, countRun soloRun = some s ∧ s.coord.phase = .finishedPhase ∧
      ∃ p, s.fs.read (outputName 0) = some (outputText countSetup p s.fs 0) := by
  have hrun : (countRun soloRun).map (fun s => s.coord.phase) = some .finishedPhase := by
    decide +kernel
  obtain ⟨s,hs,hp⟩ := Option.map_eq_some_iff.mp hrun
  exact ⟨s,hs,hp,(done_output_final countSetup (by decide) _ hs (by decide +kernel)).2.1 hp 0
    (by decide)⟩

/-- The first worker reports its reduce task, and then the second one, which was sent off
with nothing, creates the output anew. -/
def truncateRun : List Action :=
  List.flatten [idleRun,List.replicate 6 (.advance 0),[.serve 0],List.replicate 3 (.advance 1)]

theorem finished_output_truncated :
    ∃ s, countRun truncateRun = some s ∧
      Runs.Obeys (System.step countSetup) (fun s a => s.crashes countSetup a = false)
        (System.start ["pg.txt"] 1 Files.Store.empty) truncateRun ∧
      s.coord.phase = .finishedPhase ∧ s.fs.read (outputName 0) = some [] ∧
      ∀ p, outputText countSetup p s.fs 0 = ascii "a 1\n" := by
  have hrun : (countRun truncateRun).map (fun s => (s.coord.phase,s.fs.read (outputName 0),
      outputText countSetup 0 s.fs 0)) = some (.finishedPhase,some [],ascii "a 1\n") := by
    decide +kernel
  obtain ⟨s,hs,hp⟩ := Option.map_eq_some_iff.mp hrun
  simp only [Prod.mk.injEq] at hp
  exact ⟨s,hs,by decide +kernel,hp.1,hp.2.1,fun p => hp.2.2⟩

end Proofs

end MapReduce
