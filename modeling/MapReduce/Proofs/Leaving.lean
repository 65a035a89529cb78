import Mathlib
import MapReduce.Proofs.Barrier
import MapReduce.Proofs.Recovery

namespace MapReduce

/-- The process has left the cycle of fetching, working and reporting for good. -/
def Pc.left : Pc → Bool
  | .stopped => true
  | _ => false

def Pc.fetching (pc : Pc) : Bool :=
  match pc.request with
  | some .fetch => true
  | _ => false

/-- The coordinator handles a request for a task in the map phase while no map task waits. -/
def System.idleMapRequest (s : System) : Action → Bool
  | .serve p => (s.pc p).fetching && s.coord.phase == .mapPhase &&
      s.coord.mapTasks.all (fun job => job.status != .waiting)
  | _ => false

/-- A process dies in this step. -/
def System.crashes (env : Setup) (s : System) : Action → Bool
  | .crash _ => true
  | .advance p => (next env p s.fs (s.pc p)).any fun effect => match effect.pc with
    | .dead _ => true
    | _ => false
  | _ => false

/-- The process is out of the cycle, or about to be when it reads its reply. -/
def Pc.leaving : Pc → Prop
  | .stopped => True
  | .fetchReply result => result.phase ≠ .mapPhase ∧ result.phase ≠ .reducePhase
  | _ => False

namespace Proofs
open Dispatch

variable {files : List String} {nReduce : Int} {b b' : Schedule files nReduce} {env : Setup}
variable {s t : System}

theorem Advances.leaving (ha : Advances env p fs pc e) (hf : Fair b wid pc) (hl : e.pc.leaving) :
    pc.leaving := by
  cases ha with
  | leave hm hr => exact ⟨hm,hr⟩
  | finish hp => exact absurd hp hf
  | _ => exact hl.elim

/-- The only reply that sends a process away is one to a request that finds nothing to
hand out, outside the reduce phase. -/
theorem Served.leaving (hs : Served b c w q b' c' a) (hl : (q.answered a).leaving)
    (hk : q = .fetch → ∃ v ∈ c.workers, v.workerId = w.id) :
    q = .fetch ∧ ¬ b.Ready ∧ c.phase ≠ .reducePhase ∧ b' = b := by
  cases hs with
  | unknown hn =>
    obtain ⟨v,hv,hid⟩ := hk rfl
    exact absurd hid (hn v hv)
  | granted _ _ hr _ _ hg =>
    rcases plan_cases hg with ⟨f,_,rfl⟩ | ⟨j,_,_,rfl⟩
    · exact absurd rfl hl.1
    · exact absurd rfl hl.2
  | idle hr =>
    refine ⟨rfl,hr,?_,rfl⟩
    intro hp
    apply hl.2
    simp [hp]
  | registered _ _ _ | rejected _ _ | accepted _ _ _ => exact hl.elim

theorem Stepped.leaving (hs : Stepped env b s a b' t) (h : Custody env b s)
    (hl : (t.pc p).leaving) : (s.pc p).leaving ∨
      (a = .serve p ∧ s.pc p = .waiting .fetch ∧ ¬ b.Ready ∧ s.coord.phase ≠ .reducePhase ∧
        b' = b) := by
  cases hs with
  | advance hn =>
    rw [advanced_pc] at hl
    split at hl
    · rename_i hp
      subst hp
      exact Or.inl ((advances hn).leaving (h.fair p) hl)
    · exact Or.inl hl
  | serve hq _ hs =>
    rw [afterServe_pc] at hl
    split at hl
    · rename_i hp
      subst hp
      obtain ⟨rfl,hr,hph,hb⟩ := hs.leaving hl (fun he => h.known p (by rw [hq,he]; trivial))
      exact Or.inr ⟨rfl,hq,hr,hph,hb⟩
    · exact Or.inl hl
  | serveDead hq _ hs =>
    rw [afterServe_pc] at hl
    split at hl
    · exact hl.elim
    · exact Or.inl hl
  | close _ =>
    rw [close_pc] at hl
    exact Or.inl hl
  | crash _ =>
    rw [setProc_pc] at hl
    split at hl
    · exact hl.elim
    · exact Or.inl hl

theorem idle_map_request (h : Refines b s.coord) (hq : s.pc p = .waiting .fetch) (hr : ¬ b.Ready)
    (hp : s.coord.phase = .mapPhase) : s.idleMapRequest (.serve p) = true := by
  have hw : s.coord.mapTasks.all (fun job => job.status != .waiting) = true := by
    simp only [List.all_eq_true,bne_iff_ne]
    intro job hj hs
    exact hr ((ready_waiting h).mpr (Or.inl ⟨hp,job,hj,hs⟩))
  have hf : (s.pc p).fetching = true := by rw [hq]; rfl
  simp [System.idleMapRequest,hf,hp,hw]

/-- A run of the whole system in which no request for a task comes at a moment when all map
tasks are out and not all are done: a worker that has left finds the job finished. -/
theorem left_when_finished (env : Setup) {files : List String} {nReduce : Int} (hf : files ≠ [])
    (fs : FileSystem) {actions : List Action} {s : System}
    (hr : Runs.run (System.step env) (System.start files nReduce fs) actions = some s)
    (ho : Runs.Obeys (System.step env) (fun s a => s.idleMapRequest a = false)
      (System.start files nReduce fs) actions) {p : Nat} (hp : (s.pc p).left = true) :
    s.coord.phase = .finishedPhase := by
  have hinv : ∃ b : Schedule files nReduce, Sound env b s ∧
      ∀ p, (s.pc p).leaving → s.coord.phase = .finishedPhase := by
    refine Runs.invariant (fun s => ∃ b : Schedule files nReduce, Sound env b s ∧
      ∀ p, (s.pc p).leaving → s.coord.phase = .finishedPhase) ?_ hr ho
      ⟨_,start_sound env nReduce hf fs,fun p hl => hl.elim⟩
    intro s a t hx hok hs
    obtain ⟨b,h,hl⟩ := hx
    obtain ⟨b',hb,h'⟩ := h.step hs
    refine ⟨b',h',fun p hp => ?_⟩
    rcases hb.leaving h.custody hp with hold | ⟨rfl,hq,hnr,hph,_⟩
    · exact finished_moves h.custody.refines h'.custody.refines hb.moves (hl p hold)
    · refine finished_moves h.custody.refines h'.custody.refines hb.moves ?_
      cases hphase : s.coord.phase with
      | unset => exact absurd hphase h.custody.refines.known
      | mapPhase =>
        rw [idle_map_request h.custody.refines hq hnr hphase] at hok
        cases hok
      | reducePhase => exact absurd hphase hph
      | finishedPhase => rfl
  obtain ⟨_,_,hl⟩ := hinv
  apply hl p
  cases hpc : s.pc p with
  | stopped => trivial
  | _ =>
    rw [hpc] at hp
    cases hp

/-- One worker alone does the whole job and asks once more. -/
def soloRun : List Action :=
  List.flatten [joins 0,works 0,reports 0,works 0,reports 0,[.serve 0,.advance 0]]

theorem left_when_finished_one_worker :
    ∃ s, countRun soloRun = some s ∧ (s.pc 0).left = true ∧ s.coord.phase = .finishedPhase := by
  have hrun : (countRun soloRun).map (fun s => (s.pc 0).left) = some true := by decide +kernel
  obtain ⟨s,hs,hp⟩ := Option.map_eq_some_iff.mp hrun
  exact ⟨s,hs,hp,left_when_finished countSetup (by decide) _ hs (by decide +kernel) hp⟩

/-- A second worker asks while the first one holds the only map task. -/
def lateRun : List Action := List.flatten [joins 0,[.serve 0],joins 1,[.serve 1,.advance 1]]

theorem second_worker_leaves :
    ∃ s, countRun lateRun = some s ∧
      Runs.Obeys (System.step countSetup) (fun s a => s.crashes countSetup a = false)
        (System.start ["pg.txt"] 1 Files.Store.empty) lateRun ∧
      (s.pc 1).left = true ∧ s.coord.phase = .mapPhase := by
  have hrun : (countRun lateRun).map (fun s => ((s.pc 1).left,s.coord.phase)) =
      some (true,.mapPhase) := by decide +kernel
  obtain ⟨s,hs,hp⟩ := Option.map_eq_some_iff.mp hrun
  obtain ⟨hl,hph⟩ := Prod.mk.inj hp
  exact ⟨s,hs,by decide +kernel,hl,hph⟩

end Proofs

end MapReduce
