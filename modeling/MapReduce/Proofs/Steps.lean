import Mathlib
import MapReduce.System
import MapReduce.Library.Runs
import MapReduce.Proofs.Calls

namespace MapReduce.Proofs
open Dispatch Files

variable {files : List String} {nReduce : Int}

/-- How the coordinator answers a request of worker `w`. -/
inductive Served (b : Schedule files nReduce) (c : Coordinator) (w : Workers) :
    Request → Schedule files nReduce → Coordinator → Answer → Prop
  | registered (hs : c'.workers = c.workers ++ [v]) (hid : v.workerId = w.id)
      (hp : c'.phase = c.phase) : Served b c w .register b c' (.registered reply)
  | unknown (hn : ∀ v ∈ c.workers, v.workerId ≠ w.id) : Served b c w .fetch b c (.requested {})
  | granted (hv : v ∈ c.workers) (hid : v.workerId = w.id) (hr : b.Ready)
      (hs : c'.workers = c.workers) (hp : c'.phase = c.phase)
      (hg : (plan files nReduce)[b.issued]? = some reply) :
      Served b c w .fetch (b.grant v hr) c' (.requested reply)
  | idle (hr : ¬ b.Ready) : Served b c w .fetch b c
      (.requested { phase := if c.phase = .mapPhase then .unset else c.phase })
  | rejected (hn : ∀ k, ¬ Reports b ⟨w.id,result.taskId,result.type,.done⟩ k)
      (hp : reply.phase = .unset) : Served b c w (.update result) b c (.updated reply)
  | accepted (hk : Reports b ⟨w.id,result.taskId,result.type,.done⟩ k)
      (hs : c'.workers = c.workers) (hp : reply.phase = c.phase) :
      Served b c w (.update result) (b.finish k) c' (.updated reply)

/-- Every step that a process can take of its own. -/
inductive Advances (env : Setup) (p : Nat) (fs : FileSystem) : Pc → Effect → Prop
  | start : Advances env p fs .offline { pc := .register }
  | register : Advances env p fs .register { pc := .waiting .register }
  | registered : Advances env p fs (.registerReply reply) { pc := .fetch }
  | fetch : Advances env p fs .fetch { pc := .waiting .fetch }
  | toMap (hp : r.phase = .mapPhase) : Advances env p fs (.fetchReply r) { pc := .mapRead r }
  | toReduce (hp : r.phase = .reducePhase) :
      Advances env p fs (.fetchReply r) { pc := .reduceGlob r }
  | leave (hm : r.phase ≠ .mapPhase) (hr : r.phase ≠ .reducePhase) :
      Advances env p fs (.fetchReply r) { pc := .stopped }
  | mapFatal : Advances env p fs (.mapRead r) { pc := .dead none }
  | mapped (hi : env.input r.filePath = some content) : Advances env p fs (.mapRead r)
      { pc := .mapNext r (partitionPairs env.go r.nReduce (env.mapf r.filePath content)) 0 }
  | mapCreate {q : Nat} (hq : (q : Int) < r.nReduce) : Advances env p fs (.mapNext r parts q)
      { pc := .mapWrite r parts q ⟨intermediateName r.taskId q,0⟩ (parts q),
        op := some (.create (intermediateName r.taskId q)) }
  | mapDone {q : Nat} (hq : ¬ (q : Int) < r.nReduce) :
      Advances env p fs (.mapNext r parts q) { pc := .update r }
  | mapClose : Advances env p fs (.mapWrite r parts q file []) { pc := .mapNext r parts (q + 1) }
  | mapWrite : Advances env p fs (.mapWrite r parts q file (kv :: pairs))
      { pc := .mapWrite r parts q ⟨file.name,file.offset + (env.go.json.encode kv).length⟩ pairs,
        op := some (.write file.name file.offset (env.go.json.encode kv)) }
  | glob : Advances env p fs (.reduceGlob r)
      { pc := .reduceRead r (glob fs (globPattern r.partition)) [] }
  | readFatal (hs : fs.read name = none) :
      Advances env p fs (.reduceRead r (name :: names) acc) { pc := .dead none }
  | read (hs : fs.read name = some data) : Advances env p fs (.reduceRead r (name :: names) acc)
      { pc := .reduceRead r names (acc ++ decodeFile env.go.json data) }
  | reduceCreate : Advances env p fs (.reduceRead r [] acc)
      { pc := .reduceWrite r ⟨outputName r.partition,0⟩
          (reduceRecords env.reducef ((env.sort p).sort acc)),
        op := some (.create (outputName r.partition)) }
  | reduceWrite : Advances env p fs (.reduceWrite r file (record :: records))
      { pc := .reduceWrite r ⟨file.name,file.offset + (formatRecord record).length⟩ records,
        op := some (.write file.name file.offset (formatRecord record)) }
  | reduceDone : Advances env p fs (.reduceWrite r file []) { pc := .update r, closing := [file] }
  | report : Advances env p fs (.update r) { pc := .waiting (.update r) }
  | again (hp : reply.phase ≠ .finishedPhase) :
      Advances env p fs (.updateReply r reply) { pc := .fetch }
  | finish (hp : reply.phase = .finishedPhase) :
      Advances env p fs (.updateReply r reply) { pc := .stopped }

/-- The state after the coordinator has handled a request of process `p`. -/
def afterServe (s : System) (p : Nat) (pc : Pc) (coord : Coordinator) : System :=
  { s.setProc p { s.procs p with pc := pc } with coord := coord }

/-- Every step of the system, with what it does to the board. -/
inductive Stepped (env : Setup) (b : Schedule files nReduce) (s : System) :
    Action → Schedule files nReduce → System → Prop
  | advance (hn : next env p s.fs (s.pc p) = some e) :
      Stepped env b s (.advance p) b (s.advanced p e)
  | serve (hq : s.pc p = .waiting q) (hh : s.coord.handle (q.call (env.worker p)) = (c',a))
      (hs : Served b s.coord (env.worker p) q b' c' a) :
      Stepped env b s (.serve p) b' (afterServe s p (q.answered a) c')
  | serveDead (hq : s.pc p = .dead (some q))
      (hh : s.coord.handle (q.call (env.worker p)) = (c',a))
      (hs : Served b s.coord (env.worker p) q b' c' a) :
      Stepped env b s (.serve p) b' (afterServe s p (.dead none) c')
  | close (hc : (s.procs p).closing = file :: handles) :
      Stepped env b s (.close p) b (s.setProc p { s.procs p with closing := handles })
  | crash (hd : ∀ q, s.pc p ≠ .dead q) :
      Stepped env b s (.crash p) b (s.setProc p { pc := .dead (s.pc p).request })

variable {b b' : Schedule files nReduce} {env : Setup} {s t : System} {c c' : Coordinator}

theorem served_spec (h : Refines b c) (w : Workers) (request : Request) :
    ∃ b', Served b c w request b' (c.handle (request.call w)).1 (c.handle (request.call w)).2 ∧
      Refines b' (c.handle (request.call w)).1 := by
  cases request with
  | register => exact ⟨b,.registered rfl rfl rfl,register_refines h _⟩
  | fetch =>
    have hs := request_spec h ⟨w.id,w.rpcAddr,w.port⟩
    simp only [Request.call,Coordinator.handle]
    generalize (c.taskRequestByWorker ⟨w.id,w.rpcAddr,w.port⟩).1 = c' at hs ⊢
    generalize (c.taskRequestByWorker ⟨w.id,w.rpcAddr,w.port⟩).2 = reply at hs ⊢
    cases hs with
    | unknown hn => exact ⟨b,.unknown hn,h⟩
    | granted hw hid hr hc hs hp hg => exact ⟨_,.granted hw hid hr hs hp hg,hc⟩
    | idle _ _ hr => exact ⟨b,.idle hr,h⟩
  | update result =>
    have hs := update_spec h ⟨w.id,result.taskId,result.type,.done⟩
    simp only [Request.call,Coordinator.handle]
    generalize (c.taskUpdateByWorker ⟨w.id,result.taskId,result.type,.done⟩).1 = c' at hs ⊢
    generalize (c.taskUpdateByWorker ⟨w.id,result.taskId,result.type,.done⟩).2 = reply at hs ⊢
    cases hs with
    | kept hn hp _ => exact ⟨b,.rejected hn hp,h⟩
    | finished hk hc hs hp _ => exact ⟨_,.accepted hk hs hp,hc⟩

theorem Served.moves (h : Served b c w request b' c' answer) : b.Moves b' := by
  cases h with
  | registered _ _ _ | unknown _ | idle _ | rejected _ _ => exact .stay
  | granted _ _ hr _ _ _ => exact .grant _ hr
  | accepted hk _ _ => exact .finish hk.pending

theorem Served.workers (hs : Served b c w q b' c' a) (hv : v ∈ c.workers) : v ∈ c'.workers := by
  cases hs with
  | registered hw _ _ =>
    rw [hw]
    exact List.mem_append_left _ hv
  | unknown _ | idle _ | rejected _ _ => exact hv
  | granted _ _ _ hw _ _ | accepted _ hw _ => rwa [hw]

theorem advances (h : next env p fs pc = some e) : Advances env p fs pc e := by
  cases pc with
  | offline => cases h; exact .start
  | register => cases h; exact .register
  | registerReply _ => cases h; exact .registered
  | fetch => cases h; exact .fetch
  | fetchReply r =>
    simp only [next,Option.some.injEq] at h
    subst h
    split
    · exact .toMap ‹_›
    · split
      · exact .toReduce ‹_›
      · exact .leave ‹_› ‹_›
  | mapRead r =>
    simp only [next] at h
    split at h
    · cases h
      exact .mapFatal
    · split at h
      · cases h
        exact .mapFatal
      · cases h
        exact .mapped ‹_›
  | mapNext r parts q =>
    simp only [next] at h
    split at h <;> cases h
    · exact .mapCreate ‹_›
    · exact .mapDone ‹_›
  | mapWrite r parts q file pairs =>
    cases pairs <;> cases h
    · exact .mapClose
    · exact .mapWrite
  | reduceGlob r => cases h; exact .glob
  | reduceRead r names acc =>
    cases names with
    | nil => cases h; exact .reduceCreate
    | cons name names =>
      simp only [next] at h
      split at h <;> cases h
      · exact .readFatal ‹_›
      · exact .read ‹_›
  | reduceWrite r file records =>
    cases records <;> cases h
    · exact .reduceDone
    · exact .reduceWrite
  | update r => cases h; exact .report
  | updateReply r reply =>
    simp only [next,Option.some.injEq] at h
    subst h
    split
    · exact .again ‹_›
    · exact .finish (not_not.mp ‹_›)
  | waiting _ | stopped | dead _ => cases h

theorem stepped (h : Refines b s.coord) (hs : s.step env a = some t) :
    ∃ b', Stepped env b s a b' t ∧ Refines b' t.coord := by
  cases a with
  | advance p =>
    obtain ⟨e,he,rfl⟩ := Option.map_eq_some_iff.mp hs
    exact ⟨b,.advance he,h⟩
  | serve p =>
    obtain ⟨q,hq,rfl⟩ := Option.map_eq_some_iff.mp hs
    obtain ⟨b',hb,hr⟩ := served_spec h (env.worker p) q
    refine ⟨b',?_,hr⟩
    unfold System.served
    cases hpc : s.pc p with
    | waiting q' =>
      rw [hpc] at hq
      cases hq
      exact .serve hpc rfl hb
    | dead q' =>
      rw [hpc] at hq
      cases hq
      exact .serveDead hpc rfl hb
    | _ =>
      rw [hpc] at hq
      cases hq
  | close p =>
    simp only [System.step] at hs
    split at hs
    · cases hs
    · cases hs
      exact ⟨b,.close ‹_›,h⟩
  | crash p =>
    simp only [System.step] at hs
    split at hs
    · cases hs
    · cases hs
      exact ⟨b,.crash (fun q hq => by simp_all),h⟩

@[simp] theorem setProc_pc (s : System) (p : Nat) (process : Process) (q : Nat) :
    (s.setProc p process).pc q = if q = p then process.pc else s.pc q := by
  unfold System.setProc System.pc
  by_cases hq : q = p <;> simp [hq]

theorem close_pc (s : System) (p : Nat) (handles : List Handle) (q : Nat) :
    (s.setProc p { s.procs p with closing := handles }).pc q = s.pc q := by
  rw [setProc_pc]
  split
  · rename_i hq
    rw [hq]
    rfl
  · rfl

@[simp] theorem advanced_pc (s : System) (p : Nat) (e : Effect) (q : Nat) :
    (s.advanced p e).pc q = if q = p then e.pc else s.pc q :=
  setProc_pc s p _ q

@[simp] theorem afterServe_pc (s : System) (p : Nat) (pc : Pc) (coord : Coordinator) (q : Nat) :
    (afterServe s p pc coord).pc q = if q = p then pc else s.pc q :=
  setProc_pc s p _ q

end MapReduce.Proofs
