import Mathlib
import MapReduce.Labrpc
import MapReduce.Library.Fairness

namespace MapReduce.Labrpc
open Runs

section
variable {ν σ : Type} (w : World ν σ) (call : Call ν σ)

/-- The steps of the goroutines of a call. -/
inductive Moved : Move → World ν σ → Call ν σ → Prop
  | accept : call.pc = .calling → w.serving = true → Moved .accept
      { w with net := ({ w.net with count := w.net.count + 1 } : Network ν).addBytes call.req.args }
      { call with pc := .accepted }
  | refuse : call.pc = .calling → w.net.done = true →
      Moved .refuse w { call with pc := .returned none }
  | read : call.pc = .accepted → w.net.readEndnameInfo call.req.endname = some contact →
      Moved .read w { call with pc := .reached contact }
  | miss : call.pc = .accepted → w.net.readEndnameInfo call.req.endname = none →
      Moved .read w { call with pc := .unreachable }
  | expire : call.pc = .unreachable → Moved .expire w { call with pc := .returned none }
  | lose : call.pc = .reached contact → contact.reliable = false →
      Moved .lose w { call with pc := .failing }
  | start : call.pc = .reached contact →
      Moved .start w { call with pc := .waiting contact, handler := .started contact.server }
  | enter : call.handler = .started server → w.heap[server]? = some rs →
      rs.dispatch call.req = (rs',.ok (service,methodName)) →
      Moved .enter { w with heap := w.heap.set server rs' }
        { call with handler := .found server service methodName }
  | notEntered : call.handler = .started server → w.heap[server]? = some rs →
      rs.dispatch call.req = (rs',.error e) →
      Moved .enter { w with heap := w.heap.set server rs', fatal := some e } call
  | execute : call.handler = .found server service methodName →
      service.dispatch methodName call.req w.object = .ok (object,reply) →
      Moved .execute { w with object } { call with handler := .returned reply }
  | notExecuted : call.handler = .found server service methodName →
      service.dispatch methodName call.req w.object = .error e →
      Moved .execute { w with fatal := some e } call
  | hear : call.pc = .waiting contact → call.handler = .returned reply →
      Moved .hear w { call with pc := .stopped contact (some reply), handler := .ended }
  | dead : call.pc = .waiting contact →
      w.net.isServerDead call.req.endname contact.servername contact.server = true →
      Moved .poll w { call with pc := .stopped contact none, draining := true }
  | alive : call.pc = .waiting contact →
      w.net.isServerDead call.req.endname contact.servername contact.server = false →
      Moved .poll w call
  | drain : call.handler = .returned reply → call.draining = true →
      Moved .drain w { call with handler := .ended }
  | confirm : call.pc = .stopped contact (some reply) →
      w.net.isServerDead call.req.endname contact.servername contact.server = false →
      Moved .check w { call with pc := .checked contact reply }
  | deny : call.pc = .stopped contact reply → (reply = none ∨
      w.net.isServerDead call.req.endname contact.servername contact.server = true) →
      Moved .check w { call with pc := .failing }
  | drop : call.pc = .checked contact reply → contact.reliable = false →
      Moved .drop w { call with pc := .failing }
  | delay : call.pc = .checked contact reply → contact.longreordering = true →
      Moved .delay w { call with pc := .delayed reply }
  | pass : call.pc = .checked contact reply →
      Moved .pass { w with net := w.net.addBytes reply } { call with pc := .sending reply }
  | fire : call.pc = .delayed reply →
      Moved .fire { w with net := w.net.addBytes reply } { call with pc := .sending reply }
  | fail : call.pc = .failing → Moved .deliver w { call with pc := .returned none }
  | deliver : call.pc = .sending reply →
      Moved .deliver w { call with pc := .returned (some reply) }

end

section
variable {ν σ : Type} [DecidableEq ν]

/-- What a step does to the calls. -/
inductive Stepped (w : World ν σ) : Action ν σ → World ν σ → Prop
  | call : endname ∈ w.net.ends → Stepped w (.call endname svcMeth args)
      { w with calls := w.calls ++ [⟨⟨endname,svcMeth,args⟩,.calling,.idle,false⟩] }
  | move : w.calls[c]? = some call → Moved w call m w' call' →
      Stepped w (.move c m) { w' with calls := w.calls.set c call' }
  | control : w.control k = some w' → w'.calls = w.calls → Stepped w (.control k) w'

/-- In state `u` the handler of call `c`, on this server, is about to give this reply. -/
def Answers (u : World ν σ) (c server : Nat) (reply : Bytes) : Prop :=
  ∃ call service methodName object, u.calls[c]? = some call ∧
    call.handler = .found server service methodName ∧
    service.dispatch methodName call.req u.object = .ok (object,reply)

variable (start : World ν σ) (actions : List (Action ν σ)) (c : Nat)

/-- The network has found the server `contact` for the call. -/
def Contacted (endname : ν) (contact : Contact ν) (k : Nat) : Prop :=
  ∃ u, Happens World.step start actions k u (.move c .read) ∧
    u.net.readEndnameInfo endname = some contact

/-- The server has then executed the request, once, with this reply. -/
def Ran (endname : ν) (contact : Contact ν) (reply : Bytes) (i : Nat) : Prop :=
  ∃ k u, Contacted start actions c endname contact k ∧ k < i ∧
    Happens World.step start actions i u (.move c .execute) ∧
    OnlyAt (fun a => a = .move c .execute) actions i ∧ Answers u c contact.server reply

/-- And after that it was still there, and the end still enabled. -/
def Confirmed (endname : ν) (reply : Bytes) : Prop :=
  ∃ contact i j u, Ran start actions c endname contact reply i ∧ i < j ∧
    Happens World.step start actions j u (.move c .check) ∧
    u.net.isServerDead endname contact.servername contact.server = false

/-- What has happened by the time that a call and its handler are at some place. Until it has
stopped waiting nobody else takes the handler's reply. -/
inductive Placed (endname : ν) : CallPc ν → HandlerPc σ → Bool → Prop
  | calling : Placed endname .calling .idle false
  | accepted : Placed endname .accepted .idle false
  | unreachable : Placed endname .unreachable .idle false
  | reached : Contacted start actions c endname contact k →
      Placed endname (.reached contact) .idle false
  | started : Contacted start actions c endname contact k →
      Placed endname (.waiting contact) (.started contact.server) false
  | found : Contacted start actions c endname contact k →
      Placed endname (.waiting contact) (.found contact.server service methodName) false
  | answered : Ran start actions c endname contact reply i →
      Placed endname (.waiting contact) (.returned reply) false
  | heard : Ran start actions c endname contact reply i →
      Placed endname (.stopped contact (some reply)) .ended false
  | checked : Confirmed start actions c endname reply →
      Placed endname (.checked contact reply) .ended false
  | delayed : Confirmed start actions c endname reply →
      Placed endname (.delayed reply) .ended false
  | sending : Confirmed start actions c endname reply →
      Placed endname (.sending reply) .ended false
  | delivered : Confirmed start actions c endname reply →
      Placed endname (.returned (some reply)) .ended false
  | given : Placed endname (.stopped contact none) h d
  | failing : Placed endname .failing h d
  | failed : Placed endname (.returned none) h d

/-- How often the handler has been executed. -/
def Counted (h : HandlerPc σ) : Prop :=
  match h with
  | .returned _ | .ended => ∃ i, OnlyAt (fun a => a = .move c .execute) actions i
  | _ => ∀ a ∈ actions, a ≠ .move c .execute

/-- The state of all calls after some actions. -/
structure Told (w : World ν σ) : Prop where
  known : ∀ c m, .move c m ∈ actions → c < w.calls.length
  once : ∀ c (i j : Nat), actions[i]? = some (.move c .execute) →
    actions[j]? = some (.move c .execute) → i = j
  counted : w.fatal = none → ∀ (c : Nat) call, w.calls[c]? = some call →
    Counted actions c call.handler
  placed : ∀ (c : Nat) call, w.calls[c]? = some call →
    Placed start actions c call.req.endname call.pc call.handler call.draining

end

variable {ν σ : Type} {w w' : World ν σ} {call call' : Call ν σ} {m : Move}

theorem moved (h : w.move call m = some (w',call')) : Moved w call m w' call' := by
  revert h
  fun_cases World.move w call m <;> intro h <;>
    first
    | obtain ⟨rfl,rfl⟩ := Prod.mk.inj (Option.some.inj h)
    | cases h
  · exact .accept ‹_› ‹_›
  · exact .refuse ‹_› ‹_›
  · exact .read ‹_› ‹_›
  · exact .miss ‹_› ‹_›
  · exact .expire ‹_›
  · exact .lose ‹_› (Bool.eq_false_iff.mpr ‹_›)
  · exact .start ‹_›
  · exact .notEntered ‹_› ‹_› ‹_›
  · exact .enter ‹_› ‹_› ‹_›
  · exact .notExecuted ‹_› ‹_›
  · exact .execute ‹_› ‹_›
  · exact .hear ‹_› ‹_›
  · exact .dead ‹_› ‹_›
  · exact .alive ‹_› (Bool.eq_false_iff.mpr ‹_›)
  · exact .drain ‹_› ‹_›
  · exact .confirm ‹_› ‹_›
  · rename_i contact reply hpc _ hno
    refine .deny hpc ?_
    cases reply with
    | none => exact .inl rfl
    | some reply => exact .inr (Bool.eq_true_of_not_eq_false (hno reply rfl))
  · exact .drop ‹_› (Bool.eq_false_iff.mpr ‹_›)
  · exact .delay ‹_› ‹_›
  · exact .pass ‹_›
  · exact .fire ‹_›
  · exact .fail ‹_›
  · exact .deliver ‹_›

theorem Moved.frame (h : Moved w call m w' call') : w'.calls = w.calls ∧ call'.req = call.req := by
  cases h <;> exact ⟨rfl,rfl⟩

section
variable {actions : List (Action ν σ)} {c : Nat} {hd : HandlerPc σ} {b : Action ν σ}

theorem Counted.mono (h : Counted actions c hd) (hb : b ≠ .move c .execute) :
    Counted (actions ++ [b]) c hd := by
  have hnone : (∀ a ∈ actions, a ≠ .move c .execute) → ∀ a ∈ actions ++ [b], a ≠ .move c .execute := by
    intro h a ha
    rcases List.mem_append.mp ha with ha | ha
    · exact h a ha
    · rw [List.mem_singleton.mp ha]
      exact hb
  cases hd with
  | idle => exact hnone h
  | started server => exact hnone h
  | found server service methodName => exact hnone h
  | returned reply =>
    obtain ⟨i,hi⟩ := h
    exact ⟨i,hi.concat hb⟩
  | ended =>
    obtain ⟨i,hi⟩ := h
    exact ⟨i,hi.concat hb⟩

/-- What a step of call `c` finds of the executions so far. -/
theorem Moved.unexecuted (hn : Counted actions c call.handler)
    (hm : Moved w call .execute w' call') : ∀ a ∈ actions, a ≠ .move c .execute := by
  cases hm with
  | execute hh _ =>
    rw [hh] at hn
    exact hn
  | notExecuted hh _ =>
    rw [hh] at hn
    exact hn

theorem once_concat (h : ∀ c (i j : Nat), actions[i]? = some (.move c .execute) →
      actions[j]? = some (.move c .execute) → i = j)
    (hb : ∀ c, b = .move c .execute → ∀ a ∈ actions, a ≠ .move c .execute) (c i j : Nat)
    (hi : (actions ++ [b])[i]? = some (.move c .execute))
    (hj : (actions ++ [b])[j]? = some (.move c .execute)) : i = j := by
  rcases concat_get.mp hi with hi | ⟨hi,he⟩
  · rcases concat_get.mp hj with hj | ⟨_,he⟩
    · exact h c i j hi hj
    · exact absurd rfl (hb c he.symm _ (List.mem_of_getElem? hi))
  · rcases concat_get.mp hj with hj | ⟨hj,_⟩
    · exact absurd rfl (hb c he.symm _ (List.mem_of_getElem? hj))
    · rw [hi,hj]

end

section
variable {endname servername : ν} {server : Nat}

/-- An end that is connected to a server on a network that loses nothing. -/
structure Steady (endname servername : ν) (server : Nat) (w : World ν σ) : Prop where
  reliable : w.net.reliable = true
  enabled : w.net.enabled endname = true
  connected : w.net.connections endname = some servername
  there : w.net.servers servername = some server
  running : w.net.done = false

/-- A call is on its way to a reply. -/
def Fine (servername : ν) (server : Nat) : CallPc ν → Prop
  | .unreachable | .failing => False
  | .reached contact | .waiting contact =>
    contact.reliable = true ∧ contact.servername = servername ∧ contact.server = server
  | .stopped contact reply => contact.reliable = true ∧ contact.servername = servername ∧
    contact.server = server ∧ reply ≠ none
  | .checked contact _ => contact.reliable = true
  | .returned reply => reply ≠ none
  | _ => True

theorem Steady.info (h : Steady endname servername server w) :
    w.net.readEndnameInfo endname = some ⟨servername,server,true,w.net.longReordering⟩ := by
  simp [Network.readEndnameInfo,h.connected,h.there,h.enabled,h.reliable]

theorem Steady.alive (h : Steady endname servername server w) :
    w.net.isServerDead endname servername server = false := by
  simp [Network.isServerDead,h.enabled,h.there]

theorem Fine.move
    (hs : Steady call.req.endname servername server w) (hfine : Fine servername server call.pc)
    (hm : Moved w call m w' call') : Fine servername server call'.pc := by
  obtain ⟨req,pc,hd,draining⟩ := call
  cases hm with
  | accept hpc _ => trivial
  | refuse _ hdone =>
    rw [hs.running] at hdone
    cases hdone
  | read hpc hinfo =>
    rw [hs.info] at hinfo
    cases hinfo
    exact ⟨rfl,rfl,rfl⟩
  | miss hpc hinfo =>
    rw [hs.info] at hinfo
    cases hinfo
  | expire hpc =>
    cases hpc
    exact hfine.elim
  | lose hpc hrel =>
    cases hpc
    rw [hfine.1] at hrel
    cases hrel
  | start hpc =>
    cases hpc
    exact hfine
  | hear hpc _ =>
    cases hpc
    exact ⟨hfine.1,hfine.2.1,hfine.2.2,by simp⟩
  | dead hpc hdead =>
    cases hpc
    obtain ⟨_,hname,hserver⟩ := hfine
    rw [hname,hserver,hs.alive] at hdead
    cases hdead
  | confirm hpc _ =>
    cases hpc
    exact hfine.1
  | deny hpc hno =>
    cases hpc
    obtain ⟨_,hname,hserver,hsome⟩ := hfine
    rw [hname,hserver,hs.alive] at hno
    exact absurd (hno.resolve_right (by simp)) hsome
  | drop hpc hrel =>
    cases hpc
    rw [show _ = true from hfine] at hrel
    cases hrel
  | fail hpc =>
    cases hpc
    exact hfine.elim
  | deliver hpc => exact Option.some_ne_none _
  | delay _ _ => trivial
  | pass _ => trivial
  | fire _ => trivial
  | _ => exact hfine

end

section
variable [DecidableEq ν] {a : Action ν σ}

theorem control_calls {k : Control ν σ} (h : w.control k = some w') : w'.calls = w.calls := by
  cases k with
  | makeEnd endname =>
    simp only [World.control] at h
    split at h <;> cases h <;> rfl
  | addService server svc =>
    simp only [World.control,Option.map_eq_some_iff] at h
    obtain ⟨rs,_,rfl⟩ := h
    rfl
  | addServer servername rs =>
    simp only [World.control] at h
    split at h <;> cases h
    rfl
  | cleanup =>
    simp only [World.control] at h
    split at h <;> cases h <;> rfl
  | stop =>
    simp only [World.control] at h
    split at h <;> cases h
    rfl
  | _ =>
    cases h
    rfl

theorem stepped (h : w.step a = some w') : w.fatal = none ∧ Stepped w a w' := by
  rw [World.step.eq_def] at h
  split at h
  · cases h
  · split at h
    · cases h
      exact ⟨‹_›,.call ‹_›⟩
    · cases h
  · obtain ⟨call,hc,h⟩ := Option.bind_eq_some_iff.mp h
    obtain ⟨⟨w₁,call'⟩,hm,h⟩ := Option.bind_eq_some_iff.mp h
    cases h
    have hmoved := moved hm
    refine ⟨‹_›,?_⟩
    rw [hmoved.frame.1]
    exact .move hc hmoved
  · exact ⟨‹_›,.control h (control_calls h)⟩

variable {start : World ν σ} {actions : List (Action ν σ)} {c : Nat} {endname : ν}
  {contact : Contact ν} {reply : Bytes} {pc : CallPc ν} {hd : HandlerPc σ} {d : Bool} {b : Action ν σ}

theorem Contacted.mono {k : Nat} (h : Contacted start actions c endname contact k) :
    Contacted start (actions ++ [b]) c endname contact k := by
  obtain ⟨u,hu,hread⟩ := h
  exact ⟨u,hu.concat,hread⟩

theorem Ran.mono {i : Nat} (h : Ran start actions c endname contact reply i)
    (hb : b ≠ .move c .execute) : Ran start (actions ++ [b]) c endname contact reply i := by
  obtain ⟨k,u,hk,hlt,hu,honly,hans⟩ := h
  exact ⟨k,u,hk.mono,hlt,hu.concat,honly.concat hb,hans⟩

theorem Confirmed.mono (h : Confirmed start actions c endname reply)
    (hb : b ≠ .move c .execute) : Confirmed start (actions ++ [b]) c endname reply := by
  obtain ⟨contact,i,j,u,hran,hlt,hu,halive⟩ := h
  exact ⟨contact,i,j,u,hran.mono hb,hlt,hu.concat,halive⟩

theorem Placed.mono (h : Placed start actions c endname pc hd d) (hb : b ≠ .move c .execute) :
    Placed start (actions ++ [b]) c endname pc hd d := by
  cases h with
  | calling => exact .calling
  | accepted => exact .accepted
  | unreachable => exact .unreachable
  | reached h => exact .reached h.mono
  | started h => exact .started h.mono
  | found h => exact .found h.mono
  | answered h => exact .answered (h.mono hb)
  | heard h => exact .heard (h.mono hb)
  | checked h => exact .checked (h.mono hb)
  | delayed h => exact .delayed (h.mono hb)
  | sending h => exact .sending (h.mono hb)
  | delivered h => exact .delivered (h.mono hb)
  | given => exact .given
  | failing => exact .failing
  | failed => exact .failed

theorem Ran.confirmed {i : Nat} (h : Ran start actions c endname contact reply i)
    (hr : run World.step start actions = some w)
    (halive : w.net.isServerDead endname contact.servername contact.server = false) :
    Confirmed start (actions ++ [.move c .check]) c endname reply := by
  have hlt : i < actions.length := by
    obtain ⟨_,_,_,_,hu,_⟩ := h
    exact hu.lt
  exact ⟨contact,i,actions.length,w,h.mono (by simp),hlt,happens_last hr,halive⟩

/-- A step of the call itself. -/
theorem Placed.move (hr : run World.step start actions = some w) (hc : w.calls[c]? = some call)
    (hn : Counted actions c call.handler)
    (hp : Placed start actions c call.req.endname call.pc call.handler call.draining)
    (hm : Moved w call m w' call') :
    Placed start (actions ++ [.move c m]) c call.req.endname call'.pc call'.handler
      call'.draining := by
  obtain ⟨req,pc,hd,draining⟩ := call
  cases hm with
  | accept hpc _ =>
    cases hpc
    cases hp
    exact .accepted
  | refuse hpc _ => exact .failed
  | read hpc hinfo =>
    cases hpc
    cases hp
    exact .reached ⟨w,happens_last hr,hinfo⟩
  | miss hpc _ =>
    cases hpc
    cases hp
    exact .unreachable
  | expire _ => exact .failed
  | lose _ _ => exact .failing
  | start hpc =>
    cases hpc
    cases hp with
    | reached h => exact .started h.mono
  | enter hh _ _ =>
    cases hh
    cases hp with
    | started h => exact .found h.mono
    | given => exact .given
    | failing => exact .failing
    | failed => exact .failed
  | notEntered hh _ _ =>
    cases hh
    exact hp.mono (by simp)
  | execute hh hd =>
    cases hh
    cases hp with
    | found h =>
      obtain ⟨k,hk⟩ : ∃ k, Contacted start actions c req.endname _ k := ⟨_,h⟩
      have hlt : k < actions.length := by
        obtain ⟨_,hu,_⟩ := hk
        exact hu.lt
      exact .answered ⟨k,w,hk.mono,hlt,happens_last hr,onlyAt_last hn rfl,_,_,_,_,hc,rfl,hd⟩
    | given => exact .given
    | failing => exact .failing
    | failed => exact .failed
  | notExecuted hh _ =>
    cases hh
    cases hp with
    | found h => exact .found h.mono
    | given => exact .given
    | failing => exact .failing
    | failed => exact .failed
  | hear hpc hh =>
    cases hpc
    cases hh
    cases hp with
    | answered h => exact .heard (h.mono (by simp))
  | dead hpc _ => exact .given
  | alive hpc _ => exact hp.mono (by simp)
  | drain hh hdrain =>
    cases hh
    cases hdrain
    cases hp with
    | given => exact .given
    | failing => exact .failing
    | failed => exact .failed
  | confirm hpc halive =>
    cases hpc
    cases hp with
    | heard h => exact .checked (h.confirmed hr halive)
  | deny _ _ => exact .failing
  | drop _ _ => exact .failing
  | delay hpc _ =>
    cases hpc
    cases hp with
    | checked h => exact .delayed (h.mono (by simp))
  | pass hpc =>
    cases hpc
    cases hp with
    | checked h => exact .sending (h.mono (by simp))
  | fire hpc =>
    cases hpc
    cases hp with
    | delayed h => exact .sending (h.mono (by simp))
  | fail _ => exact .failed
  | deliver hpc =>
    cases hpc
    cases hp with
    | sending h => exact .delivered (h.mono (by simp))

theorem Counted.move (hn : Counted actions c call.handler)
    (hp : Placed start actions c call.req.endname call.pc call.handler call.draining)
    (hm : Moved w call m w' call') (hf : w'.fatal = none) :
    Counted (actions ++ [.move c m]) c call'.handler := by
  obtain ⟨req,pc,hd,draining⟩ := call
  cases hm with
  | start hpc =>
    cases hpc
    cases hp
    exact Counted.mono hn (by simp)
  | enter hh _ _ =>
    cases hh
    exact Counted.mono hn (by simp)
  | execute hh _ =>
    cases hh
    exact ⟨_,onlyAt_last hn rfl⟩
  | notExecuted _ _ => cases hf
  | notEntered _ _ _ => cases hf
  | hear _ hh =>
    cases hh
    exact Counted.mono hn (by simp)
  | drain hh _ =>
    cases hh
    exact Counted.mono hn (by simp)
  | _ => exact Counted.mono hn (by simp)

theorem Told.step (h : Told start actions w) (hr : run World.step start actions = some w)
    (hs : w.step b = some w') : Told start (actions ++ [b]) w' := by
  obtain ⟨hf,hst⟩ := stepped hs
  cases hst with
  | @call endname svcMeth args _ =>
    have hnew : ∀ m, .move w.calls.length m ∉ actions := fun m hm =>
      absurd (h.known _ m hm) (Nat.lt_irrefl _)
    refine ⟨fun c m hm => ?_,once_concat h.once (by simp),fun _ c call hc => ?_,fun c call hc => ?_⟩
    · have hm : .move c m ∈ actions := by simpa using hm
      have hlt := h.known c m hm
      simp only [List.length_append,List.length_singleton]
      omega
    · rcases concat_get.mp hc with hc | ⟨rfl,rfl⟩
      · exact (h.counted hf c call hc).mono (by simp)
      · have hnone : Counted actions w.calls.length (.idle : HandlerPc σ) := by
          rintro a ha rfl
          exact hnew _ ha
        exact hnone.mono (by simp)
    · rcases concat_get.mp hc with hc | ⟨rfl,rfl⟩
      · exact (h.placed c call hc).mono (by simp)
      · exact .calling
  | @move c call m w₁ call' hc hm =>
    have hlt := (List.getElem?_eq_some_iff.mp hc).1
    have hcases : ∀ {j : Nat} {x}, (w.calls.set c call')[j]? = some x →
        j = c ∧ x = call' ∨ j ≠ c ∧ w.calls[j]? = some x := by
      intro j x hj
      by_cases he : c = j
      · subst he
        rw [List.getElem?_set_self hlt] at hj
        exact .inl ⟨rfl,(Option.some.inj hj).symm⟩
      · rw [List.getElem?_set_ne he] at hj
        exact .inr ⟨Ne.symm he,hj⟩
    refine ⟨fun j n hn => ?_,once_concat h.once ?_,fun hf' j x hj => ?_,fun j x hj => ?_⟩
    · rw [List.length_set]
      rcases List.mem_append.mp hn with hn | hn
      · exact h.known j n hn
      · cases List.mem_singleton.mp hn
        exact hlt
    · intro j hj
      cases hj
      exact hm.unexecuted (h.counted hf c call hc)
    · rcases hcases hj with ⟨rfl,rfl⟩ | ⟨hne,hj⟩
      · exact (h.counted hf _ call hc).move (h.placed _ call hc) hm hf'
      · exact (h.counted hf j x hj).mono (by simp [Ne.symm hne])
    · rcases hcases hj with ⟨rfl,rfl⟩ | ⟨hne,hj⟩
      · rw [hm.frame.2]
        exact (h.placed _ call hc).move hr hc (h.counted hf _ call hc) hm
      · exact (h.placed j x hj).mono (by simp [Ne.symm hne])
  | control _ hcalls =>
    refine ⟨fun c m hm => ?_,once_concat h.once (by simp),fun _ c call hc => ?_,fun c call hc => ?_⟩
    · rw [hcalls]
      exact h.known c m (by simpa using hm)
    · rw [hcalls] at hc
      exact (h.counted hf c call hc).mono (by simp)
    · rw [hcalls] at hc
      exact (h.placed c call hc).mono (by simp)

theorem reached_told (object : σ) (hr : run World.step (World.start object) actions = some w) :
    Told (World.start object) actions w := by
  refine run_induction (fun as w => Told (World.start object) as w) ?_ ?_ hr
  · exact ⟨by simp,by simp,fun _ c call hc => by simp [World.start] at hc,
      fun c call hc => by simp [World.start] at hc⟩
  · exact fun as t a u hrun h hn => h.step hrun hn

/-- What `Call` promises, in every run: the server executes no request twice, and where `Call`
returns true the server that the end was connected to has executed the request, with the reply
that the caller gets, and was not deleted nor the end disabled before the handler was done. -/
theorem call_true_executed_once (object : σ) {actions : List (Action ν σ)} {w : World ν σ}
    (hr : run World.step (World.start object) actions = some w) :
    (∀ c (i j : Nat), actions[i]? = some (.move c .execute) →
      actions[j]? = some (.move c .execute) → i = j) ∧
    ∀ (c : Nat) (call : Call ν σ) (reply : Bytes), w.calls[c]? = some call →
      call.pc = .returned (some reply) →
      Confirmed (World.start object) actions c call.req.endname reply := by
  have h := reached_told object hr
  refine ⟨h.once,fun c call reply hc hpc => ?_⟩
  have hp := h.placed c call hc
  rw [hpc] at hp
  generalize call.handler = hd,call.draining = d at hp
  cases hp with
  | delivered h => exact h

/-- A service with one method, which adds to a number and returns what it was. -/
def counter : Service Nat where
  name := "Counter"
  methods m := if m = "Add" then some (fun n args => (n + args.length,[n.toUInt8])) else none

/-- End 0 is connected to server 7. -/
def connecting : List (Action Nat Nat) := [.control (.makeEnd 0),.control .makeServer,
  .control (.addService 0 counter),.control (.addServer 7 0),.control (.connect 0 7),
  .control (.enable 0 true)]

def adding : List (Action Nat Nat) := [.call 0 "Counter.Add" [1,2],.move 0 .accept,.move 0 .read,
  .move 0 .start,.move 0 .enter,.move 0 .execute,.move 0 .poll,.move 0 .hear,.move 0 .check,
  .move 0 .pass,.move 0 .deliver]

theorem adding_run : ∃ w call, run World.step (World.start 5) (connecting ++ adding) = some w ∧
    w.calls = [call] ∧ w.fatal = none ∧ call.pc = .returned (some [5]) ∧ call.handler = .ended ∧
    call.req.endname = 0 :=
  ⟨_,_,rfl,rfl,rfl,rfl,rfl,rfl⟩

theorem call_true_executed_once_adding :
    Confirmed (World.start 5) (connecting ++ adding) 0 0 [5] := by
  obtain ⟨w,call,hrun,hcalls,_,hpc,_,he⟩ := adding_run
  have h := (call_true_executed_once 5 hrun).2 0 call [5] (by rw [hcalls]; rfl) hpc
  rwa [he] at h

/-- As long as an end is connected and enabled, its server there and the network reliable, no
call on it fails. -/
theorem reliable_calls_succeed {w₀ w : World ν σ} {actions : List (Action ν σ)}
    {endname servername : ν} {server : Nat} (hr : run World.step w₀ actions = some w)
    (hs : Obeys World.step (fun w _ => Steady endname servername server w) w₀ actions)
    {c : Nat} {call : Call ν σ} (hnew : w₀.calls.length ≤ c) (hc : w.calls[c]? = some call)
    (he : call.req.endname = endname) {reply : Option Bytes} (hpc : call.pc = .returned reply) :
    reply ≠ none := by
  have hinv := invariant (fun w => ∀ (c : Nat) call, w₀.calls.length ≤ c → w.calls[c]? = some call →
    call.req.endname = endname → Fine servername server call.pc) ?_ hr hs ?_
  · have hfine := hinv c call hnew hc he
    rw [hpc] at hfine
    exact hfine
  · intro u a v hu hsteady hn c call hle hc he
    obtain ⟨_,hst⟩ := stepped hn
    cases hst with
    | call _ =>
      rcases concat_get.mp hc with hc | ⟨_,rfl⟩
      · exact hu c call hle hc he
      · trivial
    | @move j old m w₁ new hold hm =>
      have hlt := (List.getElem?_eq_some_iff.mp hold).1
      by_cases hj : j = c
      · subst hj
        obtain rfl : new = call := by
          rw [List.getElem?_set_self hlt] at hc
          exact Option.some.inj hc
        have he' : old.req.endname = endname := by rw [← he,hm.frame.2]
        exact Fine.move (he' ▸ hsteady) (hu j old hle hold he') hm
      · rw [List.getElem?_set_ne hj] at hc
        exact hu c call hle hc he
    | control _ hcalls =>
      rw [hcalls] at hc
      exact hu c call hle hc he
  · intro c call hle hc
    exact absurd (List.getElem?_eq_some_iff.mp hc).1 (Nat.not_lt.mpr hle)

instance decidableSteady (endname servername : ν) (server : Nat)
    (w : World ν σ) : Decidable (Steady endname servername server w) :=
  decidable_of_iff (w.net.reliable = true ∧ w.net.enabled endname = true ∧
    w.net.connections endname = some servername ∧ w.net.servers servername = some server ∧
    w.net.done = false) ⟨fun ⟨a,b,c,d,e⟩ => ⟨a,b,c,d,e⟩,
      fun h => ⟨h.reliable,h.enabled,h.connected,h.there,h.running⟩⟩

/-- The network when end 0 is connected. -/
def connectedNet : World Nat Nat :=
  (run World.step (World.start 5) connecting).getD (World.start 5)

theorem reliable_calls_succeed_adding : ∃ w call reply,
    run World.step connectedNet adding = some w ∧ w.calls[0]? = some call ∧
      call.pc = .returned reply ∧ reply ≠ none := by
  have hrun : ∃ w call reply, run World.step connectedNet adding = some w ∧ w.calls[0]? = some call ∧
      call.req.endname = 0 ∧ call.pc = .returned reply := ⟨_,_,_,rfl,rfl,rfl,rfl⟩
  obtain ⟨w,call,reply,hr,hc,he,hpc⟩ := hrun
  have hs : Obeys World.step (fun w _ => Steady 0 7 0 w) connectedNet adding := by decide +kernel
  exact ⟨w,call,reply,hr,hc,hpc,reliable_calls_succeed hr hs (by decide) hc he hpc⟩

end

end MapReduce.Labrpc
