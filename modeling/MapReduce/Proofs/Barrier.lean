import Mathlib
import MapReduce.Proofs.Custody
import MapReduce.Proofs.Tasks
import MapReduce.Codec

namespace MapReduce

/-- One input file of one letter, and workers that count letters. -/
def countSetup : Setup where
  go := goPlatform
  mapf := countMapf
  reducef := countReducef
  input file := if file = "pg.txt" then some (ascii "a") else none
  worker p := ⟨"worker-" ++ toString p,"",""⟩
  sort _ := Proofs.keySort

/-- Process `p` starts, registers and asks for a task. -/
def joins (p : Nat) : List Action := [.advance p,.advance p,.serve p,.advance p,.advance p]

/-- Process `p` is answered, maps its one pair or reduces its one key, and sends its report. -/
def works (p : Nat) : List Action := .serve p :: List.replicate 7 (.advance p)

/-- The report of process `p` is answered and it asks again. -/
def reports (p : Nat) : List Action := [.serve p,.advance p,.advance p]

/-- A run of the workers of `countSetup` on one file and one partition. -/
def countRun (actions : List Action) : Option System :=
  Runs.run (System.step countSetup) (System.start ["pg.txt"] 1 Files.Store.empty) actions

/-- The process is between the first and the last statement of `ReducerTask`. -/
def Process.reducing (process : Process) : Bool :=
  !process.closing.isEmpty || match process.pc with
    | .reduceGlob _ | .reduceRead _ _ _ | .reduceWrite _ _ _ => true
    | _ => false

namespace Proofs
open Dispatch Files

variable {files : List String} {nReduce : Int} {b b' : Schedule files nReduce} {env : Setup}
variable {s t : System} {fs fs' : FileSystem}

/-- The files of a map task are complete for the partitions below `count`. -/
def FilledTo (env : Setup) (fs : FileSystem) (r : WorkerTaskRequestReply) (content : Bytes)
    (count : Nat) : Prop :=
  ∀ q < count, fs.read (intermediateName r.taskId q) =
    some (partitionContent env.go r.nReduce (env.mapf r.filePath content) q)

/-- All files of a map task are complete. -/
def MapComplete (env : Setup) (fs : FileSystem) (r : WorkerTaskRequestReply) : Prop :=
  ∃ content, env.input r.filePath = some content ∧ FilledTo env fs r content r.nReduce.toNat

/-- How much of its files a mapper has written. -/
def Progress (env : Setup) (fs : FileSystem) : Pc → Prop
  | .mapNext r parts q => ∃ content, env.input r.filePath = some content ∧
      parts = partitionPairs env.go r.nReduce (env.mapf r.filePath content) ∧
      FilledTo env fs r content q
  | .mapWrite r parts q file pairs => ∃ content, env.input r.filePath = some content ∧
      parts = partitionPairs env.go r.nReduce (env.mapf r.filePath content) ∧
      FilledTo env fs r content q ∧ ∃ before, parts q = before ++ pairs ∧
        fs.read file.name = some (before.flatMap env.go.json.encode) ∧
        file.offset = (before.flatMap env.go.json.encode).length
  | .update r | .waiting (.update r) | .dead (some (.update r)) =>
      r.phase = .mapPhase → MapComplete env fs r
  | _ => True

theorem FilledTo.frame (h : FilledTo env fs r content count)
    (hf : ∀ q, fs'.read (intermediateName r.taskId q) = fs.read (intermediateName r.taskId q)) :
    FilledTo env fs' r content count :=
  fun q hq => (hf q).trans (h q hq)

theorem MapComplete.frame (h : MapComplete env fs r)
    (hf : ∀ q, fs'.read (intermediateName r.taskId q) = fs.read (intermediateName r.taskId q)) :
    MapComplete env fs' r := by
  obtain ⟨content,hc,hw⟩ := h
  exact ⟨content,hc,hw.frame hf⟩

/-- Progress depends on the files of the process's own task. -/
theorem Progress.frame (h : Progress env fs pc) (hfair : Fair b wid pc)
    (hf : ∀ g, pc.task = some g → g.phase = .mapPhase → ∀ q,
      fs'.read (intermediateName g.taskId q) = fs.read (intermediateName g.taskId q)) :
    Progress env fs' pc := by
  cases pc with
  | mapNext r parts q =>
    obtain ⟨content,hc,hp,hw⟩ := h
    exact ⟨content,hc,hp,hw.frame (hf r rfl hfair.2)⟩
  | mapWrite r parts q file pairs =>
    obtain ⟨content,hc,hp,hw,before,hb,hr,ho⟩ := h
    have hframe := hf r rfl hfair.1.2
    refine ⟨content,hc,hp,hw.frame hframe,before,hb,?_,ho⟩
    rw [hfair.2] at hr ⊢
    rw [hframe q]
    exact hr
  | update r => exact fun hp => (h hp).frame (hf r rfl hp)
  | waiting q =>
    cases q with
    | update r => exact fun hp => (h hp).frame (hf r rfl hp)
    | register | fetch => trivial
  | dead q =>
    rcases q with _ | _ | _ | r
    · trivial
    · trivial
    · trivial
    · exact fun hp => (h hp).frame (hf r rfl hp)
  | _ => trivial

theorem Progress.crash (h : Progress env fs pc) : Progress env fs (.dead pc.request) := by
  cases pc with
  | waiting q =>
    cases q with
    | update r => exact h
    | register | fetch => trivial
  | dead q => exact h
  | _ => trivial

/-- A process writes the files of its own map task, or the output of its partition once
the map tasks are done. -/
theorem Advances.op_name (ha : Advances env p fs pc e) (h : Fair b wid pc)
    (ho : e.op = some op) : ∃ r, pc.task = some r ∧
      ((r.phase = .mapPhase ∧ (∃ k, Granted b wid r k) ∧ ∃ q, op.name = intermediateName r.taskId q) ∨
        (r.phase = .reducePhase ∧ b.FirstDone ∧ op.name = outputName r.partition)) := by
  cases ha with
  | mapCreate _ =>
    cases ho
    exact ⟨_,rfl,Or.inl ⟨h.2,h.1,_,rfl⟩⟩
  | mapWrite =>
    cases ho
    exact ⟨_,rfl,Or.inl ⟨h.1.2,h.1.1,_,h.2⟩⟩
  | reduceCreate =>
    cases ho
    exact ⟨_,rfl,Or.inr ⟨h.2.2,h.1,rfl⟩⟩
  | reduceWrite =>
    cases ho
    exact ⟨_,rfl,Or.inr ⟨h.1.2.2,h.1.1,h.2⟩⟩
  | _ => cases ho

theorem op_read (fs : FileSystem) (op : FileOp) (hn : name ≠ op.name) :
    (op.apply fs).read name = fs.read name := by
  cases op with
  | create m => exact (Store.read_create fs m name).trans (if_neg hn)
  | write m off data => exact (Store.read_write fs 0 m name off data).trans (if_neg hn)

theorem apply_read (e : Effect) (hn : ∀ op, e.op = some op → name ≠ op.name) :
    (e.apply fs).read name = fs.read name := by
  unfold Effect.apply
  cases he : e.op with
  | none => rfl
  | some op => exact op_read fs op (hn op he)

theorem Advances.progress (ha : Advances env p fs pc e) (hfair : Fair b wid pc)
    (h : Progress env fs pc) : Progress env (e.apply fs) e.pc := by
  cases ha with
  | mapped hi => exact ⟨_,hi,rfl,fun q hq => absurd hq (Nat.not_lt_zero q)⟩
  | mapCreate _ =>
    rename_i r parts q hq
    obtain ⟨content,hc,hp,hw⟩ := h
    refine ⟨content,hc,hp,?_,[],rfl,?_,rfl⟩
    · intro q' hq'
      rw [← hw q' hq']
      refine apply_read _ (fun op ho => ?_)
      cases ho
      intro he
      have := intermediateName_inj he
      omega
    · exact (Store.read_create fs _ _).trans (if_pos rfl)
  | mapDone hq =>
    rename_i r parts q
    obtain ⟨content,hc,_,hw⟩ := h
    exact fun _ => ⟨content,hc,fun q' hq' => hw q' (by omega)⟩
  | mapClose =>
    rename_i r parts q file
    obtain ⟨content,hc,hp,hw,before,hb,hr,_⟩ := h
    refine ⟨content,hc,hp,?_⟩
    intro q' hq'
    rcases Nat.lt_succ_iff_lt_or_eq.mp hq' with hlt | rfl
    · exact hw q' hlt
    · rw [List.append_nil] at hb
      rw [hfair.2,← hb,hp,partitionPairs_spec] at hr
      exact hr
  | mapWrite =>
    rename_i r parts q file kv pairs
    obtain ⟨content,hc,hp,hw,before,hb,hr,ho⟩ := h
    refine ⟨content,hc,hp,?_,before ++ [kv],by simp [hb],?_,?_⟩
    · intro q' hq'
      rw [← hw q' hq']
      refine apply_read _ (fun op ho => ?_)
      cases ho
      rw [FileOp.name,hfair.2]
      intro he
      have := intermediateName_inj he
      omega
    · refine (Store.read_write fs 0 _ _ _ _).trans ?_
      rw [if_pos rfl,hr,ho,Option.getD_some,overwrite_end]
      simp
    · simp [ho]
  | reduceDone =>
    intro hp
    rw [hfair.1.2.2] at hp
    cases hp
  | report => exact h
  | _ => trivial

/-- A process leaves the files of every map task alone that it does not hold. -/
theorem Custody.frame (h : Custody env b s) (ha : Advances env p s.fs (s.pc p) e)
    (hf : files[k]? = some f) (hn : (s.pc p).task ≠ some (mapGrant nReduce k f)) (q : Nat) :
    (e.apply s.fs).read (intermediateName (taskName k) q) =
      s.fs.read (intermediateName (taskName k) q) := by
  refine apply_read e (fun op ho => ?_)
  obtain ⟨r,hr,⟨hp,⟨k',hk'⟩,q',hname⟩ | ⟨_,_,hname⟩⟩ := ha.op_name (h.fair p) ho
  · rcases hk'.stage with ⟨_,f',hf',rfl⟩ | ⟨hr',_⟩
    · rw [hname]
      intro he
      have hk := (intermediate_inj.mp he).1
      subst hk
      rw [hf] at hf'
      cases hf'
      exact hn hr
    · rw [hp] at hr'
      cases hr'
  · rw [hname]
    exact (output_ne_intermediate _ _ _).symm

/-- Every mapper has written what it has to by now, and the files of a task that is done
are complete. -/
structure MapFiles (env : Setup) (b : Schedule files nReduce) (s : System) : Prop where
  progress : ∀ p, Progress env s.fs (s.pc p)
  done : ∀ (k : Nat) (f : String), files[k]? = some f → b.Finished k →
    MapComplete env s.fs (mapGrant nReduce k f)

theorem MapFiles.advance (h : MapFiles env b s) (hc : Custody env b s)
    (ha : Advances env p s.fs (s.pc p) e) : MapFiles env b (s.advanced p e) where
  progress o := by
    rw [advanced_pc]
    by_cases ho : o = p
    · subst ho
      rw [if_pos rfl]
      exact ha.progress (hc.fair o) (h.progress o)
    · rw [if_neg ho]
      refine (h.progress o).frame (hc.fair o) ?_
      intro g hg hp q
      rcases (hc.fair o).held hg with ⟨k,hk⟩ | hn
      · rcases hk.stage with ⟨_,f,hf,rfl⟩ | ⟨hr,_⟩
        · refine hc.frame ha hf (fun hown => ho ?_) q
          exact hc.unique o p _ rfl hg hown
        · rw [hp] at hr
          cases hr
      · exact absurd hp hn.phase
  done k f hf hd := by
    refine (h.done k f hf hd).frame (hc.frame ha hf ?_)
    intro hown
    obtain ⟨k',hk'⟩ := (hc.fair p).granted hown rfl
    have hplan : (plan files nReduce)[k]? = some (mapGrant nReduce k f) := plan_map hf
    have hk := plan_inj hk'.1 hplan rfl rfl
    subst hk
    exact Board.not_finished_of_pending hk'.pending hd

theorem MapFiles.serve (h : MapFiles env b s) (hc : Custody env b s)
    (hq : (s.pc p).request = some q) (hs : Served b s.coord (env.worker p) q b' c' a)
    (hpc : Progress env s.fs pc) : MapFiles env b' (afterServe s p pc c') where
  progress o := by
    rw [afterServe_pc]
    by_cases ho : o = p
    · rw [if_pos ho]
      exact hpc
    · rw [if_neg ho]
      exact h.progress o
  done k f hf hd := by
    cases hs with
    | registered _ _ _ | unknown _ | idle _ | rejected _ _ => exact h.done k f hf hd
    | granted _ _ hr _ _ _ => exact h.done k f hf ((Board.grant_finished b _ hr).mp hd)
    | accepted hk _ _ =>
      rcases (Board.finish_finished b (Board.pending_lt hk.pending)).mp hd with hd | rfl
      · exact h.done k f hf hd
      · obtain ⟨_,hplan⟩ := reports_held (hc.fair p) hq hk
        have hr := Option.some.inj (hplan.symm.trans (plan_map hf))
        subst hr
        have hp := h.progress p
        cases hpc : s.pc p with
        | waiting q' =>
          rw [hpc] at hp hq
          cases hq
          exact hp rfl
        | dead q' =>
          rw [hpc] at hp hq
          cases hq
          exact hp rfl
        | _ =>
          rw [hpc] at hq
          cases hq

theorem Served.progress (hs : Served b c w q b' c' a) : Progress env fs (q.answered a) := by
  cases hs <;> trivial

theorem MapFiles.set (h : MapFiles env b s) (hp : Progress env s.fs process.pc) :
    MapFiles env b (s.setProc p process) where
  progress o := by
    rw [setProc_pc]
    by_cases ho : o = p
    · rw [if_pos ho]
      exact hp
    · rw [if_neg ho]
      exact h.progress o
  done := h.done

theorem Stepped.mapFiles (hs : Stepped env b s a b' t) (hc : Custody env b s)
    (h : MapFiles env b s) : MapFiles env b' t := by
  cases hs with
  | advance hn => exact h.advance hc (advances hn)
  | serve hq _ hs => exact h.serve hc (by rw [hq]; rfl) hs hs.progress
  | serveDead hq _ hs => exact h.serve hc (by rw [hq]; rfl) hs trivial
  | close _ => exact h.set (h.progress _)
  | crash _ => exact h.set (h.progress _).crash

/-- What holds in every state of every run. -/
structure Sound (env : Setup) (b : Schedule files nReduce) (s : System) : Prop where
  custody : Custody env b s
  mapFiles : MapFiles env b s

theorem Sound.step (h : Sound env b s) (hs : s.step env a = some t) :
    ∃ b', Stepped env b s a b' t ∧ Sound env b' t := by
  obtain ⟨b',hb,hr⟩ := stepped h.custody.refines hs
  exact ⟨b',hb,hb.custody h.custody hr,hb.mapFiles h.custody h.mapFiles⟩

theorem start_sound (env : Setup) (nReduce : Int) (hf : files ≠ []) (fs : FileSystem) :
    Sound env (Board.blank : Schedule files nReduce) (System.start files nReduce fs) where
  custody := start_custody env nReduce hf fs
  mapFiles := ⟨fun _ => trivial,fun k f _ ⟨e,he,_⟩ => by simp [Board.blank] at he⟩

theorem reached_sound (env : Setup) (nReduce : Int) (hf : files ≠ []) (fs : FileSystem)
    (hr : Runs.run (System.step env) (System.start files nReduce fs) actions = some s) :
    ∃ b : Schedule files nReduce, Sound env b s :=
  Runs.invariant (fun s => ∃ b : Schedule files nReduce, Sound env b s)
    (fun _ _ _ ⟨_,h⟩ _ hs =>
      let ⟨b',_,h'⟩ := h.step hs
      ⟨b',h'⟩) hr (Runs.obeys_true _ _) ⟨_,start_sound env nReduce hf fs⟩

theorem Stepped.moves (hs : Stepped env b s a b' t) : b.Moves b' := by
  cases hs with
  | advance _ | close _ | crash _ => exact .stay
  | serve _ _ hs | serveDead _ _ hs => exact hs.moves

theorem Sound.firstDone_run (h : Sound env b s) (hd : b.FirstDone)
    (hr : Runs.run (System.step env) s actions = some t) :
    ∃ b' : Schedule files nReduce, Sound env b' t ∧ b'.FirstDone :=
  Runs.invariant (fun s => ∃ b : Schedule files nReduce, Sound env b s ∧ b.FirstDone)
    (fun _ _ _ ⟨_,h,hd⟩ _ hs =>
      let ⟨b',hb,h'⟩ := h.step hs
      ⟨b',h',hb.moves.firstDone hd⟩) hr (Runs.obeys_true _ _) ⟨b,h,hd⟩

theorem Sound.reducing (h : Sound env b s) (hp : (s.procs p).reducing = true) : b.FirstDone := by
  rcases Bool.or_eq_true_iff.mp hp with hc | hp
  · exact h.custody.closing p (by simpa using hc)
  · have hf := h.custody.fair p
    cases hpc : s.pc p with
    | reduceGlob r | reduceRead r _ _ =>
      rw [hpc] at hf
      exact hf.1
    | reduceWrite r _ _ =>
      rw [hpc] at hf
      exact hf.1.1
    | _ =>
      have he : (s.procs p).pc = _ := hpc
      rw [he] at hp
      cases hp

/-- Once the map tasks are done, whatever a process writes is an output. -/
theorem Sound.writes_output (h : Sound env b s) (hd : b.FirstDone)
    (ho : s.fileOp env a = some op) : ∃ r : Int, op.name = outputName r := by
  cases a with
  | advance p =>
    obtain ⟨e,he,ho⟩ := Option.bind_eq_some_iff.mp ho
    obtain ⟨r,_,⟨hp,⟨k,hk⟩,_⟩ | ⟨_,_,hname⟩⟩ := (advances he).op_name (h.custody.fair p) ho
    · rcases hk.stage with ⟨_,f,hf,_⟩ | ⟨hr,_⟩
      · exact absurd (hd k (List.getElem?_eq_some_iff.mp hf).1)
          (Board.not_finished_of_pending hk.pending)
      · rw [hp] at hr
        cases hr
    · exact ⟨_,hname⟩
  | serve _ | close _ | crash _ => cases ho

/-- While a process is in `ReducerTask` the files of all map tasks are complete, and no
step from there on touches an intermediate file. -/
theorem reducers_after_mappers (env : Setup) {files : List String} {nReduce : Int}
    (hf : files ≠ []) (fs : FileSystem) {actions : List Action} {s : System}
    (hr : Runs.run (System.step env) (System.start files nReduce fs) actions = some s)
    {p : Nat} (hp : (s.procs p).reducing = true) :
    (∀ (m : Nat) (file : String), files[m]? = some file →
      ∃ content, env.input file = some content ∧ ∀ r < nReduce.toNat,
        s.fs.read (intermediateName (taskName m) r) =
          some (((env.mapf file content).filter
            (fun kv => (ihash env.go kv.key).tmod nReduce = r)).flatMap
            (fun kv => env.go.json.marshal kv ++ [0x0A]))) ∧
    ∀ (more : List Action) (t : System) (action : Action) (op : FileOp),
      Runs.run (System.step env) s more = some t → t.fileOp env action = some op →
        ¬ "mr-data/intermediate/".toList <+: op.name.toList := by
  obtain ⟨b,h⟩ := reached_sound env nReduce hf fs hr
  have hd := h.reducing hp
  refine ⟨fun m file hm => h.mapFiles.done m file hm (hd m (List.getElem?_eq_some_iff.mp hm).1),?_⟩
  intro more t action op hrun ho
  obtain ⟨b',h',hd'⟩ := h.firstDone_run hd hrun
  obtain ⟨r,hname⟩ := h'.writes_output hd' ho
  rw [hname]
  exact output_not_intermediate r

/-- A run in which the only worker has mapped the only file and starts to reduce. -/
theorem reducers_after_mappers_one_worker :
    ∃ s, countRun (joins 0 ++ works 0 ++ reports 0 ++ [.serve 0,.advance 0]) = some s ∧
      (s.procs 0).reducing = true ∧ s.fs.read (intermediateName (taskName 0) 0) =
        some (goPlatform.json.marshal ⟨ascii "a",ascii "1"⟩ ++ [0x0A]) := by
  have hrun : (countRun (joins 0 ++ works 0 ++ reports 0 ++ [.serve 0,.advance 0])).map
      (fun s => (s.procs 0).reducing) = some true := by decide +kernel
  obtain ⟨s,hs,hp⟩ := Option.map_eq_some_iff.mp hrun
  obtain ⟨content,hc,hw⟩ := (reducers_after_mappers countSetup (by decide) _ hs hp).1 0 "pg.txt" rfl
  cases hc
  exact ⟨s,hs,hp,hw 0 (by decide)⟩

end Proofs

end MapReduce
