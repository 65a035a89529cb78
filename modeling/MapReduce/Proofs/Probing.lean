import Mathlib
import MapReduce.Network
import MapReduce.Proofs.Monitoring
import MapReduce.Proofs.Names

namespace MapReduce
open Format

namespace Network

def worker (n : Network) (idx : Nat) : Option WorkerType := n.monitor.coordinator.workers[idx]?

def status (n : Network) (idx : Nat) : Option WorkerStatus := (n.worker idx).map WorkerType.status

/-- A process listens on the port that the worker has registered and answers to its id. -/
def alive (n : Network) (idx : Nat) : Bool :=
  (n.worker idx).all fun worker => n.listeners.any fun l =>
    worker.port == toString l.port && (l.worker.ping ⟨worker.workerId⟩).pingStatus

/-- How a probe of the worker ends with an event, if one does. -/
def endedFor (idx : Nat) (n : Network) (event : Event) : Option Outcome :=
  (n.ended event).bind fun e => if e.1.workerIdx = idx then some e.2 else none

/-- The worker is alive, and no connection to it gets lost. -/
def Live (idx : Nat) (n : Network) (event : Event) : Prop :=
  n.alive idx = true ∧ n.endedFor idx event ≠ some .callFailure

instance decidableLive (idx : Nat) (n : Network) (event : Event) : Decidable (n.Live idx event) :=
  inferInstanceAs (Decidable (_ ∧ _))

/-- The worker counts as connected, and `ActiveWorkers` would be one less without it. -/
def Seen (n : Network) (idx : Nat) : Prop :=
  n.status idx = some .stateConnected ∧
  n.monitor.coordinator.activeWorkers =
    { n.monitor.coordinator with
      workers := n.monitor.coordinator.workers.eraseIdx idx }.activeWorkers + 1

/-- The worker is seen when an event ends a probe of it. -/
def SeenAfter (int : IntSize) (idx : Nat) (n : Network) (event : Event) : Prop :=
  ∀ n' outcome, n.next int event = some n' → n.endedFor idx event = some outcome → n'.Seen idx

/-- The worker counts as connected after a probe only if the process that answered has its
id. -/
def ConnectedRightly (int : IntSize) (idx : Nat) (n : Network) (event : Event) : Prop :=
  ∀ n' outcome, n.next int event = some n' → n.endedFor idx event = some outcome →
    n'.status idx = some .stateConnected → outcome = .success { pingStatus := true }

/-- What the probes of a run are to find out about a worker. -/
def SeesAlive (int : IntSize) (idx : Nat) (n : Network) (events : List Event) : Prop :=
  (Runs.Obeys (next int) (Live idx) n events →
    Runs.Obeys (next int) (SeenAfter int idx) n events) ∧
  Runs.Obeys (next int) (ConnectedRightly int idx) n events

/-- What the monitor takes part in of an event. -/
def steps (n : Network) : Event → List Monitor.Event
  | .call call => [.call call]
  | .tick => [.tick]
  | .snapshot => [.snapshot]
  | .workerSync i lost => ((n.ended (.workerSync i lost)).map fun e => .workerSync i e.2).toList
  | .listen _ | .close _ | .dial _ => []

end Network

namespace Proofs

/-- The address that `WorkerSync` dials is no address of a port. -/
theorem dial_refused (listeners : List Listener) (port : String) :
    dial listeners (workerAddress port) = none := by
  rw [dial,Option.map_eq_none_iff,List.find?_eq_none]
  intro l _ he
  have haddr : workerAddress port = "localhost:" ++ ("%!d(string=" ++ (port ++ ")")) := by
    rw [workerAddress,sprintf_text,sprintf_verb,render_mismatch,sprintf_nil,String.append_empty]
  rw [haddr,beq_iff_eq,String.append_right_inj] at he
  have hmem : '%' ∈ (toString l.port).toList := by
    rw [he,String.toList_append]
    exact List.mem_append_left _ (by decide)
  exact digit_free (by decide) l.port hmem

/-- What an event does to the network. -/
inductive Networked (int : IntSize) (n : Network) : Network.Event → Network → Prop
  | listened : Networked int n (.listen listener) { n with listeners := n.listeners ++ [listener] }
  | closed : Networked int n (.close i) { n with listeners := n.listeners.eraseIdx i }
  | called (hm : n.monitor.next int (.call call) = some monitor) :
      Networked int n (.call call) { n with monitor := monitor }
  | ticked (hm : n.monitor.next int .tick = some monitor) :
      Networked int n .tick { n with monitor := monitor }
  | copied (hm : n.monitor.next int .snapshot = some monitor) :
      Networked int n .snapshot
        { n with
          monitor := monitor,
          lines := n.lines ++ n.monitor.coordinator.snapshot.map fun _ => .idle }
  | dialled : Networked int n (.dial i) { n with lines := n.lines.set i .refused }
  | synced (he : n.ended (.workerSync i lost) = some (probe,outcome))
      (hm : n.monitor.next int (.workerSync i outcome) = some monitor) :
      Networked int n (.workerSync i lost)
        { n with monitor := monitor, lines := n.lines.eraseIdx i }

variable {int : IntSize}

theorem monitored_next {n n' : Network} (h : n.monitored int event = some n') :
    ∃ monitor, n.monitor.next int event = some monitor ∧ n' = { n with monitor := monitor } := by
  obtain ⟨monitor,hm,rfl⟩ := Option.map_eq_some_iff.mp h
  exact ⟨monitor,hm,rfl⟩

theorem next_networked {n n' : Network} (h : n.next int event = some n') :
    Networked int n event n' := by
  cases event with
  | listen listener =>
    simp only [Network.next] at h
    split at h
    · cases h
    · cases h
      exact .listened
  | close i =>
    simp only [Network.next] at h
    split at h
    · cases h
      exact .closed
    · cases h
  | call call =>
    obtain ⟨monitor,hm,rfl⟩ := monitored_next h
    exact .called hm
  | tick =>
    obtain ⟨monitor,hm,rfl⟩ := monitored_next h
    exact .ticked hm
  | snapshot =>
    obtain ⟨n₁,hn,hret⟩ := Option.bind_eq_some_iff.mp h
    obtain ⟨monitor,hm,rfl⟩ := monitored_next hn
    cases hret
    exact .copied hm
  | dial i =>
    simp only [Network.next,dial_refused,Option.elim_none] at h
    split at h
    · cases h
      exact .dialled
    · cases h
  | workerSync i lost =>
    obtain ⟨⟨probe,outcome⟩,he,hret⟩ := Option.bind_eq_some_iff.mp h
    obtain ⟨n₁,hn,hret⟩ := Option.bind_eq_some_iff.mp hret
    obtain ⟨monitor,hm,rfl⟩ := monitored_next hn
    cases hret
    exact .synced he hm

theorem Networked.steps {n n' : Network} (h : Networked int n event n') :
    Runs.run (Monitor.next int) n.monitor (n.steps event) = some n'.monitor := by
  cases h with
  | listened | closed | dialled => rfl
  | called hm | ticked hm | copied hm => exact Runs.run_cons.mpr ⟨_,hm,rfl⟩
  | synced he hm =>
    rw [Network.steps,he]
    exact Runs.run_cons.mpr ⟨_,hm,rfl⟩

/-- A run over the network is a run of the monitor, with the outcomes that the network gives
its probes. -/
theorem network_monitor (hr : Runs.run (Network.next int) n events = some n') :
    Runs.run (Monitor.next int) n.monitor (Runs.trace (Network.next int) Network.steps n events) =
      some n'.monitor := by
  induction events generalizing n with
  | nil =>
    cases hr
    rfl
  | cons event events ih =>
    obtain ⟨n₁,hn,hr⟩ := Runs.run_cons.mp hr
    rw [Runs.trace,hn,Option.map_some,Option.getD_some,Runs.run_append,
      (next_networked hn).steps,Option.bind_some]
    exact ih hr

/-- No probe has got through to a process. -/
def Unconnected (n : Network) : Prop := ∀ line ∈ n.lines, line = .idle ∨ line = .refused

variable {n n' : Network} {idx : Nat}

theorem Networked.unconnected (h : Networked int n event n') (hu : Unconnected n) :
    Unconnected n' := by
  cases h with
  | listened | closed | called _ | ticked _ => exact hu
  | copied _ =>
    intro line hl
    rcases List.mem_append.mp hl with hl | hl
    · exact hu line hl
    · obtain ⟨_,_,rfl⟩ := List.mem_map.mp hl
      exact Or.inl rfl
  | dialled =>
    intro line hl
    rcases List.mem_or_eq_of_mem_set hl with hl | rfl
    · exact hu line hl
    · exact Or.inr rfl
  | synced _ _ => exact fun line hl => hu line (List.mem_of_mem_eraseIdx hl)

theorem ended_refused (hu : Unconnected n) (he : n.ended event = some (probe,outcome)) :
    outcome = .dialFailure := by
  cases event with
  | workerSync i lost =>
    obtain ⟨aim,_,he⟩ := Option.bind_eq_some_iff.mp he
    obtain ⟨o,ho,hret⟩ := Option.bind_eq_some_iff.mp he
    obtain ⟨line,hl,ho⟩ := Option.bind_eq_some_iff.mp ho
    cases hret
    rcases hu line (List.mem_of_getElem? hl) with rfl | rfl
    · cases ho
    · cases ho
      rfl
  | listen _ | close _ | call _ | tick | snapshot | dial _ => cases he

theorem ended_probe (he : n.ended (.workerSync i lost) = some (probe,outcome)) :
    n.monitor.probes[i]? = some probe := by
  obtain ⟨aim,hp,he⟩ := Option.bind_eq_some_iff.mp he
  obtain ⟨_,_,hret⟩ := Option.bind_eq_some_iff.mp he
  cases hret
  exact hp

/-- However a worker's process fares, a probe of it ends in a retry. -/
theorem Networked.retrying (h : Networked int n event n') (hu : Unconnected n)
    (he : n.endedFor idx event = some outcome) : n'.status idx = some .stateRetrying := by
  obtain ⟨⟨probe,o⟩,hended,hidx⟩ := Option.bind_eq_some_iff.mp he
  obtain rfl := ended_refused hu hended
  split at hidx
  · rename_i hi
    subst hi
    cases h with
    | listened | closed | called _ | ticked _ | copied _ | dialled => cases hended
    | synced hs hm =>
      rw [hs] at hended
      cases hended
      cases next_monitored hm with
      | synced hp hw =>
        rw [ended_probe hs] at hp
        cases hp
        have hl := (List.getElem?_eq_some_iff.mp hw).1
        simp [Network.status,Network.worker,hl,WorkerType.probed]
  · cases hidx

theorem seenAfter_iff (hu : Unconnected n) (hn : n.next int event = some n') :
    n.SeenAfter int idx event ↔ n.endedFor idx event = none := by
  constructor
  · intro h
    cases he : n.endedFor idx event with
    | none => rfl
    | some outcome =>
      have hs := (h n' outcome hn he).1
      rw [(next_networked hn).retrying hu he] at hs
      cases hs
  · intro h n₁ outcome _ he
    rw [h] at he
    cases he

theorem connected_rightly (hu : Unconnected n) (event : Network.Event) :
    n.ConnectedRightly int idx event := by
  intro n' outcome hn he hs
  rw [(next_networked hn).retrying hu he] at hs
  cases hs

/-- A worker that is live all along is missed by every probe of it: the probes of a run find
out what they are to find out exactly where none ends for such a worker. -/
theorem live_worker_seen_iff (int : IntSize) (files : List String) (nReduce : Int)
    (events : List Network.Event) (idx : Nat)
    (hr : Runs.run (Network.next int) (Network.start files nReduce) events = some n) :
    Network.SeesAlive int idx (Network.start files nReduce) events ↔
      (Runs.Obeys (Network.next int) (Network.Live idx) (Network.start files nReduce) events →
        Runs.Obeys (Network.next int) (fun n event => n.endedFor idx event = none)
          (Network.start files nReduce) events) := by
  have hstep : ∀ n event n', Unconnected n → n.next int event = some n' → Unconnected n' :=
    fun _ _ _ hu h => (next_networked h).unconnected hu
  have hstart : Unconnected (Network.start files nReduce) := by simp [Unconnected,Network.start]
  have hseen : Runs.Obeys (Network.next int) (Network.SeenAfter int idx)
        (Network.start files nReduce) events ↔
      Runs.Obeys (Network.next int) (fun n event => n.endedFor idx event = none)
        (Network.start files nReduce) events :=
    Runs.obeys_congr Unconnected hstep (fun _ _ _ hu hn => seenAfter_iff hu hn) hr hstart
  have hright : Runs.Obeys (Network.next int) (Network.ConnectedRightly int idx)
      (Network.start files nReduce) events :=
    (Runs.obeys_congr Unconnected hstep
      (fun n event _ hu _ => iff_of_true (connected_rightly hu event) trivial) hr hstart).mpr
      (Runs.obeys_true _ _)
  rw [Network.SeesAlive,hseen]
  exact and_iff_left hright

def livingWorker : Workers := Workers.listening "::" 3001 1

/-- A worker starts, registers, and is dialled in the next round of health checks. -/
def dialledRound : List Network.Event :=
  [.listen ⟨3001,livingWorker⟩,.call (Request.register.call livingWorker),.tick,.snapshot,.dial 0]

theorem live_worker_seen_iff_dialled :
    Network.SeesAlive .w64 0 (Network.start ["pg.txt"] 2) dialledRound :=
  (live_worker_seen_iff .w64 ["pg.txt"] 2 dialledRound 0 (Option.eq_some_of_isSome (by decide))).mpr
    (fun _ => by decide)

/-- The worker is live all along, and the end of the probe turns it away. -/
theorem live_worker_missed :
    Runs.Obeys (Network.next .w64) (Network.Live 0) (Network.start ["pg.txt"] 2)
        (dialledRound ++ [.workerSync 0 false]) ∧
      (Runs.run (Network.next .w64) (Network.start ["pg.txt"] 2)
          (dialledRound ++ [.workerSync 0 false])).map
        (fun n => (n.status 0,n.monitor.coordinator.activeWorkers)) =
          some (some .stateRetrying,0) ∧
      ¬ Network.SeesAlive .w64 0 (Network.start ["pg.txt"] 2)
        (dialledRound ++ [.workerSync 0 false]) := by
  have hlive : Runs.Obeys (Network.next .w64) (Network.Live 0) (Network.start ["pg.txt"] 2)
      (dialledRound ++ [.workerSync 0 false]) := by decide
  refine ⟨hlive,by decide,?_⟩
  intro h
  have hr : Runs.run (Network.next .w64) (Network.start ["pg.txt"] 2) dialledRound =
      some ((Runs.run (Network.next .w64) (Network.start ["pg.txt"] 2) dialledRound).get
        (by decide)) :=
    (Option.some_get _).symm
  have hseen := Runs.obeys_last (h.1 hlive) hr
  have hn := hseen _ .dialFailure (Option.some_get (by decide)).symm (by decide)
  exact absurd hn.1 (by decide)

end Proofs

end MapReduce
