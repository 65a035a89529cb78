import Mathlib
import MapReduce.Proofs.Leaving

namespace MapReduce

/-- A grant goes out to a process, or a process enters `MapperTask` or `ReducerTask`. -/
inductive Event
  | granted (p : Nat) (result : WorkerTaskRequestReply)
  | mapping (p : Nat) (result : WorkerTaskRequestReply)
  | reducing (p : Nat) (result : WorkerTaskRequestReply)
  deriving DecidableEq

/-- The process and the reply of an execution. -/
def Event.execution : Event → Option (Nat × WorkerTaskRequestReply)
  | .granted _ _ => none
  | .mapping p result | .reducing p result => some (p,result)

def Event.mapTask : Event → Option String
  | .mapping _ result => some result.taskId
  | _ => none

def Event.reducePartition : Event → Option Int
  | .reducing _ result => some result.partition
  | _ => none

def grantEvents (p : Nat) : Answer → List Event
  | .requested result => if result.taskAvailable then [.granted p result] else []
  | _ => []

/-- What a step into `pc` starts. -/
def entryEvents (p : Nat) : Pc → List Event
  | .mapRead result => [.mapping p result]
  | .reduceGlob result => [.reducing p result]
  | _ => []

namespace System

def events (env : Setup) (s : System) : Action → List Event
  | .advance p => ((next env p s.fs (s.pc p)).map fun effect => entryEvents p effect.pc).getD []
  | .serve p => ((s.pc p).request.map fun request =>
      grantEvents p (s.coord.handle (request.call (env.worker p))).2).getD []
  | _ => []

/-- The coordinator handles a request for a task in the reduce phase while no reduce
task waits. -/
def idleReduceRequest (s : System) : Action → Bool
  | .serve p => (s.pc p).fetching && s.coord.phase == .reducePhase &&
      s.coord.reduceTasks.all (fun job => job.status != .waiting)
  | _ => false

end System

namespace Proofs
open Dispatch

/-- Before every execution stands the grant of that task to that process. -/
def Founded (es : List Event) : Prop :=
  ∀ (i : Nat) (e : Event), es[i]? = some e → ∀ p r, e.execution = some (p,r) →
    r.taskAvailable = true ∧ .granted p r ∈ es.take i

theorem Founded.append (h : Founded es) (he : ∀ p r, e.execution = some (p,r) →
    r.taskAvailable = true ∧ .granted p r ∈ es) : Founded (es ++ [e]) := by
  intro i e' hi p r hx
  have hl := (List.getElem?_eq_some_iff.mp hi).1
  rw [List.length_append,List.length_singleton] at hl
  rw [List.take_append_of_le_length (by omega)]
  rcases Nat.lt_or_ge i es.length with hlt | hge
  · rw [List.getElem?_append_left hlt] at hi
    exact h i e' hi p r hx
  · have hlen : i = es.length := by omega
    subst hlen
    rw [List.getElem?_append_right (Nat.le_refl _),Nat.sub_self] at hi
    cases hi
    rw [List.take_length]
    exact he p r hx

/-- The replies that were executed. -/
def executed (es : List Event) : List WorkerTaskRequestReply :=
  es.filterMap (fun e => e.execution.map Prod.snd)

variable {files : List String} {nReduce : Int} {b b' : Schedule files nReduce} {env : Setup}
variable {s t : System} {es : List Event} {k : Nat} {g : WorkerTaskRequestReply}

/-- How the events of a run stand to its state: a reply under way that starts a task was
recorded as a grant, and an executed reply is under way to nobody any more. -/
structure Recorded (b : Schedule files nReduce) (es : List Event) (s : System) : Prop where
  promised : ∀ p r, s.pc p = .fetchReply r → r.phase = .mapPhase ∨ r.phase = .reducePhase →
    r.taskAvailable = true ∧ .granted p r ∈ es
  founded : Founded es
  spent : ∀ r ∈ executed es, (∃ k < b.issued, (plan files nReduce)[k]? = some r) ∧
    ∀ o, s.pc o ≠ .fetchReply r
  mapping : ∀ p r, .mapping p r ∈ es → r.phase = .mapPhase
  reducing : ∀ p r, .reducing p r ∈ es → r.phase = .reducePhase
  once : (executed es).Nodup

theorem Moves.issued (h : b.Moves b') : b.issued ≤ b'.issued := by
  cases h with
  | stay => exact Nat.le_refl _
  | grant w h => simp
  | finish h => simp

/-- Nothing is recorded and no reply starts its way. -/
theorem Recorded.stay (h : Recorded b es s) (hm : b.Moves b')
    (hp : ∀ o r, t.pc o = .fetchReply r → s.pc o = .fetchReply r ∨
      (r.phase ≠ .mapPhase ∧ r.phase ≠ .reducePhase)) : Recorded b' es t where
  promised p r hr hph := by
    rcases hp p r hr with hr | ⟨hm,hr⟩
    · exact h.promised p r hr hph
    · exact (hph.elim hm hr).elim
  founded := h.founded
  spent r hr := by
    obtain ⟨⟨k,hk,hg⟩,hn⟩ := h.spent r hr
    refine ⟨⟨k,Nat.lt_of_lt_of_le hk (Moves.issued hm),hg⟩,?_⟩
    intro o ho
    rcases hp o r ho with ho | ⟨hm,hr⟩
    · exact hn o ho
    · rcases plan_cases hg with ⟨f,_,rfl⟩ | ⟨j,_,_,rfl⟩
      · exact hm rfl
      · exact hr rfl
  mapping := h.mapping
  reducing := h.reducing
  once := h.once

/-- A grant is recorded, and its reply may be under way to its process. -/
theorem Recorded.grant (h : Recorded b es s) (v : WorkerType) (hr : b.Ready)
    (hg : (plan files nReduce)[b.issued]? = some g)
    (hp : ∀ o r, t.pc o = .fetchReply r → s.pc o = .fetchReply r ∨ (o = p ∧ r = g)) :
    Recorded (b.grant v hr) (es ++ [.granted p g]) t where
  promised o r ho hph := by
    rcases hp o r ho with ho | ⟨rfl,rfl⟩
    · obtain ⟨ha,hm⟩ := h.promised o r ho hph
      exact ⟨ha,List.mem_append_left _ hm⟩
    · exact ⟨plan_available hg,List.mem_append_right _ List.mem_cons_self⟩
  founded := h.founded.append (fun o r hx => by cases hx)
  spent r hx := by
    simp only [executed,List.filterMap_append,List.mem_append] at hx
    obtain ⟨⟨k,hk,hplan⟩,hn⟩ := h.spent r (hx.resolve_right (by simp [Event.execution]))
    refine ⟨⟨k,by simp; omega,hplan⟩,?_⟩
    intro o ho
    rcases hp o r ho with ho | ⟨_,rfl⟩
    · exact hn o ho
    · have := plan_inj hplan hg rfl rfl
      omega
  mapping o r hm := h.mapping o r (by simpa using hm)
  reducing o r hm := h.reducing o r (by simpa using hm)
  once := by simpa [executed,List.filterMap_append,Event.execution] using h.once

/-- A process starts on the reply that came to it. -/
theorem Recorded.execute (h : Recorded b es s) (hc : Custody env b s)
    (hpc : s.pc p = .fetchReply r)
    (he : (e = .mapping p r ∧ r.phase = .mapPhase) ∨ (e = .reducing p r ∧ r.phase = .reducePhase))
    (hp : ∀ o r', t.pc o = .fetchReply r' → s.pc o = .fetchReply r' ∧ o ≠ p) :
    Recorded b (es ++ [e]) t := by
  have hx : e.execution = some (p,r) := by
    rcases he with ⟨rfl,_⟩ | ⟨rfl,_⟩ <;> rfl
  have hex : executed (es ++ [e]) = executed es ++ [r] := by
    simp [executed,List.filterMap_append,hx]
  obtain ⟨ha,hm⟩ := h.promised p r hpc (he.imp And.right And.right)
  have hown : (s.pc p).task = some r := by rw [hpc]; rfl
  obtain ⟨k,hk⟩ := (hc.fair p).granted hown ha
  constructor
  case promised =>
    intro o r' ho hph
    obtain ⟨ha',hm'⟩ := h.promised o r' (hp o r' ho).1 hph
    exact ⟨ha',List.mem_append_left _ hm'⟩
  case founded =>
    refine h.founded.append (fun o r' hx' => ?_)
    rw [hx] at hx'
    cases hx'
    exact ⟨ha,hm⟩
  case spent =>
    intro r' hr'
    rw [hex] at hr'
    rcases List.mem_append.mp hr' with hr' | hr'
    · obtain ⟨hold,hn⟩ := h.spent r' hr'
      exact ⟨hold,fun o ho => hn o (hp o r' ho).1⟩
    · cases List.mem_singleton.mp hr'
      refine ⟨⟨k,hk.lt,hk.1⟩,fun o ho => ?_⟩
      obtain ⟨ho,hne⟩ := hp o r ho
      exact hne (hc.unique o p r ha (by rw [ho]; rfl) hown)
  case mapping =>
    intro o r' hr'
    rcases List.mem_append.mp hr' with hr' | hr'
    · exact h.mapping o r' hr'
    · rcases he with ⟨rfl,hph⟩ | ⟨rfl,_⟩ <;> cases List.mem_singleton.mp hr'
      exact hph
  case reducing =>
    intro o r' hr'
    rcases List.mem_append.mp hr' with hr' | hr'
    · exact h.reducing o r' hr'
    · rcases he with ⟨rfl,_⟩ | ⟨rfl,hph⟩ <;> cases List.mem_singleton.mp hr'
      exact hph
  case once =>
    rw [hex,List.nodup_append]
    refine ⟨h.once,List.nodup_singleton r,?_⟩
    intro r' hr' _ hr heq
    subst heq
    rw [List.mem_singleton.mp hr] at hr'
    exact (h.spent r hr').2 p hpc

theorem Advances.entry (ha : Advances env p fs pc e) :
    (∀ r, e.pc ≠ .fetchReply r) ∧ (entryEvents p e.pc = [] ∨
      ∃ r ev, pc = .fetchReply r ∧ entryEvents p e.pc = [ev] ∧
        ((ev = .mapping p r ∧ r.phase = .mapPhase) ∨
          (ev = .reducing p r ∧ r.phase = .reducePhase))) := by
  cases ha with
  | toMap hp => exact ⟨(fun r hr => by cases hr),Or.inr ⟨_,_,rfl,rfl,Or.inl ⟨rfl,hp⟩⟩⟩
  | toReduce hp => exact ⟨(fun r hr => by cases hr),Or.inr ⟨_,_,rfl,rfl,Or.inr ⟨rfl,hp⟩⟩⟩
  | _ => exact ⟨(fun r hr => by cases hr),Or.inl rfl⟩

theorem Served.recorded (hs : Served b c w q b' c' a) (h : Recorded b es s)
    (hn : c.phase = .reducePhase → q = .fetch → b.Ready)
    (hp : ∀ o r, t.pc o = .fetchReply r →
      s.pc o = .fetchReply r ∨ (o = p ∧ q.answered a = .fetchReply r)) :
    Recorded b' (es ++ grantEvents p a) t := by
  have hm := hs.moves
  -- Only a request for a task has a reply that the worker loop reads as one.
  have hother : grantEvents p a = [] → (∀ r, q.answered a = .fetchReply r →
      r.phase ≠ .mapPhase ∧ r.phase ≠ .reducePhase) → Recorded b' (es ++ grantEvents p a) t := by
    intro he hr
    rw [he,List.append_nil]
    exact h.stay hm (fun o r ho => (hp o r ho).imp_right (fun hx => hr r hx.2))
  cases hs with
  | registered _ _ _ | rejected _ _ | accepted _ _ _ => exact hother rfl (fun r hr => by cases hr)
  | unknown _ =>
    refine hother rfl (fun r hr => ?_)
    cases hr
    exact ⟨by simp,by simp⟩
  | idle hr =>
    refine hother rfl (fun r he => ?_)
    cases he
    have hnr : c.phase ≠ .reducePhase := fun hph => hr (hn hph rfl)
    constructor
    · simp only
      split <;> simp_all
    · simp only
      split <;> simp_all
  | granted _ _ hr _ _ hg =>
    simp only [grantEvents,plan_available hg,if_true]
    refine h.grant _ hr hg (fun o r ho => (hp o r ho).imp_right (fun hx => ?_))
    obtain ⟨rfl,hx⟩ := hx
    cases hx
    exact ⟨rfl,rfl⟩

/-- A request in the reduce phase that is not idle finds a task. -/
theorem reduce_ready (h : Refines b s.coord) (hok : s.idleReduceRequest (.serve p) = false)
    (hq : (s.pc p).request = some .fetch) (hp : s.coord.phase = .reducePhase) : b.Ready := by
  by_contra hr
  have hw : s.coord.reduceTasks.all (fun job => job.status != .waiting) = true := by
    simp only [List.all_eq_true,bne_iff_ne]
    intro job hj hs
    exact hr ((ready_waiting h).mpr (Or.inr ⟨hp,job,hj,hs⟩))
  simp [System.idleReduceRequest,Pc.fetching,hq,hp,hw] at hok

/-- A served request: of a process that goes on with the answer, or of one that has stopped
for good and never looks at it. -/
theorem Served.recorded_serve (hs : Served b s.coord (env.worker p) q b' c' a)
    (hh : s.coord.handle (q.call (env.worker p)) = (c',a)) (hq : (s.pc p).request = some q)
    (h : Recorded b es s) (hn : s.coord.phase = .reducePhase → q = .fetch → b.Ready)
    (hpc : ∀ r, pc = .fetchReply r → q.answered a = .fetchReply r) :
    Recorded b' (es ++ s.events env (.serve p)) (afterServe s p pc c') := by
  simp only [System.events,hq,Option.map_some,Option.getD_some,hh]
  apply hs.recorded h hn
  intro o r ho
  rw [afterServe_pc] at ho
  split at ho
  · exact Or.inr ⟨‹_›,hpc r ho⟩
  · exact Or.inl ho

theorem Stepped.recorded (hs : Stepped env b s a b' t) (hc : Custody env b s)
    (h : Recorded b es s) (hok : s.idleReduceRequest a = false) :
    Recorded b' (es ++ s.events env a) t := by
  have hready : ∀ p q, a = .serve p → (s.pc p).request = some q →
      s.coord.phase = .reducePhase → q = .fetch → b.Ready := by
    intro p q he hq hph heq
    subst he
    subst heq
    exact reduce_ready hc.refines hok hq hph
  cases hs with
  | advance hn =>
    rename_i p e
    obtain ⟨hne,hev⟩ := (advances hn).entry
    have hold : ∀ o r, (s.advanced p e).pc o = .fetchReply r →
        s.pc o = .fetchReply r ∧ o ≠ p := by
      intro o r ho
      rw [advanced_pc] at ho
      split at ho
      · exact absurd ho (hne r)
      · exact ⟨ho,‹_›⟩
    simp only [System.events,hn,Option.map_some,Option.getD_some]
    rcases hev with hev | ⟨r,ev,hpc,hev,hkind⟩
    · rw [hev,List.append_nil]
      exact h.stay .stay (fun o r ho => Or.inl (hold o r ho).1)
    · rw [hev]
      exact h.execute hc hpc hkind hold
  | serve hq hh hs =>
    rename_i p q c' a
    have hreq : (s.pc p).request = some q := by rw [hq]; rfl
    exact hs.recorded_serve hh hreq h (hready p q rfl hreq) (fun _ hr => hr)
  | serveDead hq hh hs =>
    rename_i p q c' a
    have hreq : (s.pc p).request = some q := by rw [hq]; rfl
    exact hs.recorded_serve hh hreq h (hready p q rfl hreq) (fun _ hr => by cases hr)
  | close _ =>
    simp only [System.events,List.append_nil]
    refine h.stay .stay (fun o r ho => Or.inl ?_)
    rwa [close_pc] at ho
  | crash _ =>
    simp only [System.events,List.append_nil]
    refine h.stay .stay (fun o r ho => Or.inl ?_)
    rw [setProc_pc] at ho
    split at ho
    · cases ho
    · exact ho

/-- Executions that the key tells apart no better than the reply does have distinct keys. -/
theorem Recorded.nodup (h : Recorded b es s) (key : Event → Option κ)
    (hkey : ∀ e ∈ es, ∀ e' ∈ es, ∀ x, key e = some x → key e' = some x →
      ∃ p p' r, e.execution = some (p,r) ∧ e'.execution = some (p',r)) :
    (es.filterMap key).Nodup := by
  have honce := List.pairwise_filterMap.mp h.once
  refine List.pairwise_filterMap.mpr (honce.imp_of_mem ?_)
  intro e e' he he' hne x hx _ hx' heq
  subst heq
  obtain ⟨p,p',r,hr,hr'⟩ := hkey e he e' he' x hx hx'
  exact hne r (by rw [hr]; rfl) r (by rw [hr']; rfl) rfl

theorem Recorded.planned (h : Recorded b es s) (he : e ∈ es) (hx : e.execution = some (p,r)) :
    ∃ k : Nat, (plan files nReduce)[k]? = some r := by
  have hm : r ∈ executed es := List.mem_filterMap.mpr ⟨e,he,by rw [hx]; rfl⟩
  obtain ⟨⟨k,_,hk⟩,_⟩ := h.spent r hm
  exact ⟨k,hk⟩

theorem plan_map_phase (h : (plan files nReduce)[k]? = some g) (hp : g.phase = .mapPhase) :
    g.type = .mapTask := by
  rcases plan_cases h with ⟨f,_,rfl⟩ | ⟨j,_,_,rfl⟩
  · rfl
  · cases hp

theorem plan_reduce_phase (h : (plan files nReduce)[k]? = some g) (hp : g.phase = .reducePhase) :
    ∃ j, g = reduceGrant j := by
  rcases plan_cases h with ⟨f,_,rfl⟩ | ⟨j,_,_,rfl⟩
  · cases hp
  · exact ⟨j,rfl⟩

theorem Recorded.mapTasks (h : Recorded b es s) : (es.filterMap Event.mapTask).Nodup := by
  refine h.nodup _ (fun e he e' he' x hx hx' => ?_)
  cases e with
  | mapping p r =>
    cases e' with
    | mapping p' r' =>
      obtain ⟨k,hk⟩ := h.planned he rfl
      obtain ⟨k',hk'⟩ := h.planned he' rfl
      have hid : r.taskId = r'.taskId := Option.some.inj (hx.trans hx'.symm)
      have htype : r.type = r'.type := by
        rw [plan_map_phase hk (h.mapping p r he),plan_map_phase hk' (h.mapping p' r' he')]
      cases plan_inj hk hk' htype hid
      cases hk.symm.trans hk'
      exact ⟨p,p',r,rfl,rfl⟩
    | granted _ _ | reducing _ _ => cases hx'
  | granted _ _ | reducing _ _ => cases hx

theorem Recorded.reducePartitions (h : Recorded b es s) :
    (es.filterMap Event.reducePartition).Nodup := by
  refine h.nodup _ (fun e he e' he' x hx hx' => ?_)
  cases e with
  | reducing p r =>
    cases e' with
    | reducing p' r' =>
      obtain ⟨k,hk⟩ := h.planned he rfl
      obtain ⟨k',hk'⟩ := h.planned he' rfl
      obtain ⟨j,rfl⟩ := plan_reduce_phase hk (h.reducing p r he)
      obtain ⟨j',rfl⟩ := plan_reduce_phase hk' (h.reducing p' r' he')
      have hpart : ((j : Nat) : Int) = (j' : Nat) := Option.some.inj (hx.trans hx'.symm)
      cases Int.ofNat.inj hpart
      exact ⟨p,p',_,rfl,rfl⟩
    | granted _ _ | mapping _ _ => cases hx'
  | granted _ _ | mapping _ _ => cases hx

theorem start_recorded (nReduce : Int) (fs : FileSystem) :
    Recorded (Board.blank : Schedule files nReduce) [] (System.start files nReduce fs) where
  promised _ _ h := by cases h
  founded _ _ h := by simp at h
  spent _ h := by cases h
  mapping _ _ h := by cases h
  reducing _ _ h := by cases h
  once := List.nodup_nil

/-- In a run in which no request for a task comes at a moment when all reduce tasks are out
and not all are done, a worker executes only what was granted to it, and no map task and
no partition is executed twice. -/
theorem executes_its_grants_once (env : Setup) {files : List String} {nReduce : Int}
    (hf : files ≠ []) (fs : FileSystem) {actions : List Action} {s : System}
    (hr : Runs.run (System.step env) (System.start files nReduce fs) actions = some s)
    (ho : Runs.Obeys (System.step env) (fun s a => s.idleReduceRequest a = false)
      (System.start files nReduce fs) actions) :
    let es := Runs.trace (System.step env) (System.events env) (System.start files nReduce fs) actions
    Founded es ∧ (es.filterMap Event.mapTask).Nodup ∧ (es.filterMap Event.reducePartition).Nodup := by
  have hinv := Runs.invariant_trace (System.events env)
    (fun es s => ∃ b : Schedule files nReduce, Sound env b s ∧ Recorded b es s)
    (fun es s a t ⟨b,h,hrec⟩ hok hs =>
      let ⟨b',hb,h'⟩ := h.step hs
      ⟨b',h',hb.recorded h.custody hrec hok⟩)
    [] hr ho ⟨_,start_sound env nReduce hf fs,start_recorded nReduce fs⟩
  obtain ⟨b,_,h⟩ := hinv
  rw [List.nil_append] at h
  exact ⟨h.founded,h.mapTasks,h.reducePartitions⟩

/-- The events of a run of the workers of `countSetup`. -/
def countEvents (actions : List Action) : List Event :=
  Runs.trace (System.step countSetup) (System.events countSetup)
    (System.start ["pg.txt"] 1 Files.Store.empty) actions

theorem executes_its_grants_once_one_worker :
    (countEvents soloRun).length = 4 ∧ Founded (countEvents soloRun) ∧
      ((countEvents soloRun).filterMap Event.mapTask).Nodup ∧
      ((countEvents soloRun).filterMap Event.reducePartition).Nodup := by
  have hrun : (countRun soloRun).isSome = true := by decide +kernel
  obtain ⟨s,hs⟩ := Option.isSome_iff_exists.mp hrun
  exact ⟨by decide +kernel,
    executes_its_grants_once countSetup (by decide) _ hs (by decide +kernel)⟩

/-- A second worker asks while the first one holds the only reduce task. -/
def idleRun : List Action :=
  List.flatten [joins 0,works 0,reports 0,[.serve 0,.advance 0],joins 1,[.serve 1,.advance 1]]

theorem reduces_without_grant :
    ∃ s, countRun idleRun = some s ∧
      Runs.Obeys (System.step countSetup) (fun s a => s.crashes countSetup a = false)
        (System.start ["pg.txt"] 1 Files.Store.empty) idleRun ∧
      .reducing 1 idleReduce ∈ countEvents idleRun ∧ idleReduce.taskAvailable = false ∧
      (countEvents idleRun).filterMap Event.reducePartition = [0,0] := by
  have hrun : (countRun idleRun).isSome = true := by decide +kernel
  obtain ⟨s,hs⟩ := Option.isSome_iff_exists.mp hrun
  exact ⟨s,hs,by decide +kernel,by decide +kernel,rfl,by decide +kernel⟩

end Proofs

end MapReduce
