import Mathlib
import MapReduce.Proofs.RemoteCalls

namespace MapReduce.Labrpc
open Runs

section
variable {ν σ : Type}

/-- What a call has before it until it returns. -/
def CallPc.rank : CallPc ν → Nat
  | .calling => 8
  | .accepted => 7
  | .reached _ => 6
  | .waiting _ => 5
  | .stopped _ _ => 4
  | .checked _ _ => 3
  | .delayed _ => 2
  | .unreachable | .failing | .sending _ => 1
  | .returned _ => 0

def HandlerPc.rank : HandlerPc σ → Nat
  | .started _ => 3
  | .found _ _ _ => 2
  | .returned _ => 1
  | .idle | .ended => 0

def Call.rank (call : Call ν σ) : Nat := 4 * call.pc.rank + call.handler.rank

/-- The servers that are spoken of are there, and the goroutine that takes the requests too
until the network is cleaned up. -/
structure Wired (w : World ν σ) : Prop where
  serving : w.serving = true ∨ w.net.done = true
  servers : ∀ name server, w.net.servers name = some server → server < w.heap.length
  contacts : ∀ (c : Nat) call contact, w.calls[c]? = some call →
    call.pc = .reached contact ∨ call.pc = .waiting contact → contact.server < w.heap.length

/-- A goroutine of call `c` can go on, other than by another look at the server. -/
def Turn [DecidableEq ν] (c : Nat) (w : World ν σ) : Prop :=
  ∃ m w', m ≠ .poll ∧ w.step (.move c m) = some w'

end

variable {ν σ : Type} {w w' : World ν σ} {call call' : Call ν σ} {m : Move}

theorem Moved.rank (h : Moved w call m w' call') (hf : w'.fatal = none) :
    call'.rank < call.rank ∨ m = .poll ∧ call' = call := by
  obtain ⟨req,pc,hd,draining⟩ := call
  cases h with
  | alive _ _ => exact .inr ⟨rfl,rfl⟩
  | notEntered _ _ _ => cases hf
  | notExecuted _ _ => cases hf
  | enter hh _ _ =>
    cases hh
    exact .inl (by simp [Call.rank,HandlerPc.rank])
  | execute hh _ =>
    cases hh
    exact .inl (by simp [Call.rank,HandlerPc.rank])
  | drain hh _ =>
    cases hh
    exact .inl (by simp [Call.rank,HandlerPc.rank])
  | hear hpc hh =>
    cases hpc
    cases hh
    exact .inl (by simp [Call.rank,CallPc.rank,HandlerPc.rank])
  | start hpc =>
    cases hpc
    exact .inl (by simp [Call.rank,CallPc.rank,HandlerPc.rank]; omega)
  | accept hpc _ | refuse hpc _ | read hpc _ | miss hpc _ | lose hpc _ | dead hpc _ | confirm hpc _
  | deny hpc _ | drop hpc _ | delay hpc _ =>
    cases hpc
    exact .inl (by simp [Call.rank,CallPc.rank])
  | expire hpc | pass hpc | fire hpc | fail hpc | deliver hpc =>
    cases hpc
    exact .inl (by simp [Call.rank,CallPc.rank])

theorem Moved.wires (h : Moved w call m w' call') : w'.serving = w.serving ∧
    w'.net.done = w.net.done ∧ w'.net.servers = w.net.servers ∧ w'.heap.length = w.heap.length := by
  cases h with
  | enter _ _ _ => exact ⟨rfl,rfl,rfl,List.length_set⟩
  | notEntered _ _ _ => exact ⟨rfl,rfl,rfl,List.length_set⟩
  | _ => exact ⟨rfl,rfl,rfl,rfl⟩

/-- A server that a call comes to is one of the network's. -/
theorem Moved.contact {contact : Contact ν} (h : Moved w call m w' call')
    (hpc : call'.pc = .reached contact ∨ call'.pc = .waiting contact) :
    (call.pc = .reached contact ∨ call.pc = .waiting contact) ∨
      ∃ name, w.net.servers name = some contact.server := by
  obtain ⟨req,pc,hd,draining⟩ := call
  cases h with
  | read _ hinfo =>
    simp only [Network.readEndnameInfo,Option.bind_eq_bind,Option.bind_eq_some_iff] at hinfo
    obtain ⟨name,_,server,hserver,hsome⟩ := hinfo
    obtain ⟨_,hsome⟩ := Option.ite_none_right_eq_some.mp hsome
    cases hsome
    rcases hpc with hpc | hpc
    · cases hpc
      exact .inr ⟨name,hserver⟩
    · cases hpc
  | start hold =>
    cases hold
    rcases hpc with hpc | hpc
    · cases hpc
    · cases hpc
      exact .inl (.inl rfl)
  | enter _ _ _ | notEntered _ _ _ | execute _ _ | notExecuted _ _ | alive _ _ | drain _ _ =>
    exact .inl hpc
  | _ => rcases hpc with hpc | hpc <;> cases hpc

section
variable [DecidableEq ν]

theorem Wired.control {k : Control ν σ} (h : Wired w) (hs : w.control k = some w') : Wired w' := by
  have hgrow : ∀ (heap : List (Server σ)), w.heap.length ≤ heap.length →
      Wired { w with heap } := fun heap hle => ⟨h.serving,
    fun name server hn => Nat.lt_of_lt_of_le (h.servers name server hn) hle,
    fun c call contact hc hp => Nat.lt_of_lt_of_le (h.contacts c call contact hc hp) hle⟩
  cases k with
  | makeEnd endname =>
    simp only [World.control] at hs
    split at hs <;> cases hs <;> exact ⟨h.serving,h.servers,h.contacts⟩
  | makeServer =>
    cases hs
    exact hgrow _ (by simp)
  | addService server svc =>
    obtain ⟨rs,_,rfl⟩ := Option.map_eq_some_iff.mp hs
    exact hgrow _ (by simp)
  | addServer servername rs =>
    obtain ⟨hlt,hs⟩ := Option.ite_none_right_eq_some.mp hs
    cases hs
    refine ⟨h.serving,fun name server hn => ?_,h.contacts⟩
    by_cases he : name = servername
    · subst he
      obtain rfl : rs = server := by simpa using hn
      exact hlt
    · exact h.servers name server (by simpa [Function.update_of_ne he] using hn)
  | deleteServer servername =>
    cases hs
    refine ⟨h.serving,fun name server hn => ?_,h.contacts⟩
    by_cases he : name = servername
    · simp [he] at hn
    · exact h.servers name server (by simpa [Function.update_of_ne he] using hn)
  | cleanup =>
    simp only [World.control] at hs
    split at hs <;> cases hs
    · exact ⟨h.serving,h.servers,h.contacts⟩
    · exact ⟨.inr rfl,h.servers,h.contacts⟩
  | stop =>
    obtain ⟨hdone,hs⟩ := Option.ite_none_right_eq_some.mp hs
    cases hs
    exact ⟨.inr (Bool.and_eq_true_iff.mp hdone).1,h.servers,h.contacts⟩
  | _ =>
    cases hs
    exact ⟨h.serving,h.servers,h.contacts⟩

theorem Wired.step {a : Action ν σ} (h : Wired w) (hs : w.step a = some w') : Wired w' := by
  obtain ⟨_,hst⟩ := stepped hs
  cases hst with
  | call _ =>
    refine ⟨h.serving,h.servers,fun c call contact hc hp => ?_⟩
    rcases concat_get.mp hc with hc | ⟨_,rfl⟩
    · exact h.contacts c call contact hc hp
    · rcases hp with hp | hp <;> cases hp
  | @move c call m w₁ call' hc hm =>
    obtain ⟨hserving,hdone,hservers,hheap⟩ := hm.wires
    refine ⟨?_,fun name server hn => ?_,fun j x contact hj hp => ?_⟩
    · rw [hserving,hdone]
      exact h.serving
    · rw [hheap]
      rw [hservers] at hn
      exact h.servers name server hn
    · rw [hheap]
      by_cases he : c = j
      · subst he
        obtain rfl : call' = x := by
          rw [List.getElem?_set_self (List.getElem?_eq_some_iff.mp hc).1] at hj
          exact Option.some.inj hj
        rcases hm.contact hp with hp | ⟨name,hn⟩
        · exact h.contacts c call contact hc hp
        · exact h.servers name _ hn
      · rw [List.getElem?_set_ne he] at hj
        exact h.contacts j x contact hj hp
  | control hk _ => exact h.control hk

theorem reached_wired (object : σ) {actions : List (Action ν σ)}
    (hr : run World.step (World.start object) actions = some w) : Wired w :=
  invariant Wired (fun _ _ _ h _ hs => h.step hs) hr (obeys_true _ _)
    ⟨.inl rfl,fun name server hn => (by cases hn),fun c call contact hc => by simp [World.start] at hc⟩

/-- A call that has not returned is never stuck. -/
theorem pending_turn {start : World ν σ} {actions : List (Action ν σ)} {c : Nat}
    (ht : Told start actions w) (hw : Wired w) (hf : w.fatal = none)
    (hc : w.calls[c]? = some call) (hp : ∀ reply, call.pc ≠ .returned reply) : Turn c w := by
  have hmove : ∀ m, (w.move call m).isSome = true → m ≠ .poll → Turn c w := by
    intro m hm hne
    obtain ⟨⟨w₁,call'⟩,hm⟩ := Option.isSome_iff_exists.mp hm
    refine ⟨m,{ w₁ with calls := w₁.calls.set c call' },hne,?_⟩
    simp [World.step,hf,hc,hm]
  have hplaced := ht.placed c call hc
  have hcontact := hw.contacts c call
  obtain ⟨req,pc,hd,draining⟩ := call
  cases hplaced with
  | calling =>
    rcases hw.serving with hs | hs
    · exact hmove .accept (by simp [World.move,hs]) (by simp)
    · exact hmove .refuse (by simp [World.move,hs]) (by simp)
  | accepted =>
    refine hmove .read ?_ (by simp)
    simp only [World.move]
    split <;> rfl
  | unreachable => exact hmove .expire rfl (by simp)
  | reached _ => exact hmove .start rfl (by simp)
  | @started contact _ _ =>
    refine hmove .enter ?_ (by simp)
    have hlt := hcontact contact hc (.inr rfl)
    simp only [World.move,List.getElem?_eq_getElem hlt]
    split <;> rfl
  | found _ =>
    refine hmove .execute ?_ (by simp)
    simp only [World.move]
    split <;> rfl
  | answered _ => exact hmove .hear rfl (by simp)
  | heard _ =>
    refine hmove .check ?_ (by simp)
    simp only [World.move]
    split <;> rfl
  | given => exact hmove .check rfl (by simp)
  | checked _ => exact hmove .pass rfl (by simp)
  | delayed _ => exact hmove .fire rfl (by simp)
  | sending _ => exact hmove .deliver rfl (by simp)
  | failing => exact hmove .deliver rfl (by simp)
  | delivered _ => exact absurd rfl (hp _)
  | failed => exact absurd rfl (hp _)

/-- One step of the program, seen from a call that has not returned. -/
theorem pending_step {a : Action ν σ} {c : Nat} (hs : w.step a = some w') (hf : w'.fatal = none)
    (hc : w.calls[c]? = some call) : ∃ call', w'.calls[c]? = some call' ∧
      (call'.rank < call.rank ∨ call' = call ∧ ∀ m, a = .move c m → m = .poll) := by
  obtain ⟨_,hst⟩ := stepped hs
  have hlt := (List.getElem?_eq_some_iff.mp hc).1
  cases hst with
  | call _ => exact ⟨call,by rw [List.getElem?_append_left hlt]; exact hc,.inr ⟨rfl,by simp⟩⟩
  | @move j old m w₁ new hold hm =>
    by_cases he : j = c
    · subst he
      obtain rfl : old = call := Option.some.inj (hold.symm.trans hc)
      refine ⟨new,List.getElem?_set_self hlt,(hm.rank hf).imp id (fun ⟨hpoll,hsame⟩ => ⟨hsame,?_⟩)⟩
      rintro m' ⟨⟩
      exact hpoll
    · refine ⟨call,by rw [List.getElem?_set_ne he]; exact hc,.inr ⟨rfl,?_⟩⟩
      rintro m' ⟨⟩
      exact absurd rfl he
  | control _ hcalls => exact ⟨call,by rw [hcalls]; exact hc,.inr ⟨rfl,by simp⟩⟩

/-- `Call` returns, whatever else goes on in the network, if the goroutines that work on it get
their turns and the handler, once called, returns. -/
theorem fair_calls_return {rest : World ν σ → Prop} (object : σ)
    (r : Endless World.step rest (World.start object)) (hf : ∀ n, (r.states n).fatal = none)
    {c : Nat} (fair : r.WeaklyFair (Turn c) (fun a => ∃ m, m ≠ .poll ∧ a = .move c m))
    {n : Nat} {call : Call ν σ} (hc : (r.states n).calls[c]? = some call) :
    ∃ k call' reply, n ≤ k ∧ (r.states k).calls[c]? = some call' ∧ call'.pc = .returned reply := by
  by_cases hdone : ∃ reply, call.pc = .returned reply
  · obtain ⟨reply,hreply⟩ := hdone
    exact ⟨n,call,reply,Nat.le_refl n,hc,hreply⟩
  -- while the call has not returned each of its steps lowers its rank
  have hlead := r.leads_to (p := fun n => ∃ call, (r.states n).calls[c]? = some call ∧
      ∀ reply, call.pc ≠ .returned reply)
    (q := fun n => ∃ call reply, (r.states n).calls[c]? = some call ∧ call.pc = .returned reply)
    fair (fun n => (((r.states n).calls[c]?).map Call.rank).getD 0) ?_ ?_
    ⟨call,hc,fun reply hreply => hdone ⟨reply,hreply⟩⟩
  · obtain ⟨k,hk,call',reply,hc',hreply⟩ := hlead
    exact ⟨k,call',reply,hk,hc',hreply⟩
  · rintro n ⟨call,hc,hp⟩
    obtain ⟨actions,hrun⟩ := r.reaches n
    exact pending_turn (reached_told object hrun) (reached_wired object hrun) (hf n) hc hp
  · rintro n ⟨call,hc,hp⟩
    by_cases ht : r.Takes n
    · obtain ⟨call',hc',hrank⟩ := pending_step ht (hf _) hc
      by_cases hdone : ∃ reply, call'.pc = .returned reply
      · obtain ⟨reply,hreply⟩ := hdone
        exact .inl ⟨call',reply,hc',hreply⟩
      · refine .inr ⟨⟨call',hc',fun reply hreply => hdone ⟨reply,hreply⟩⟩,?_⟩
        simp only [Endless.Helps,hc,hc',Option.map_some,Option.getD_some]
        rcases hrank with hlt | ⟨rfl,hpoll⟩
        · exact .inl hlt
        · refine .inr ⟨rfl,?_⟩
          rintro ⟨⟨m,hm,ha⟩,_⟩
          exact hm (hpoll m ha)
    · have he : r.states (n + 1) = r.states n := (r.step_cases n).resolve_left ht
      refine .inr ⟨⟨call,by rw [he]; exact hc,hp⟩,.inr ⟨by simp only [he],fun h => ht h.2⟩⟩

theorem adding_stops {w : World Nat Nat} {call : Call Nat Nat} (hcalls : w.calls = [call])
    (hpc : call.pc = .returned (some [5])) (hh : call.handler = .ended) : ¬ Turn 0 w := by
  rintro ⟨m,w',hm,hs⟩
  obtain ⟨_,hst⟩ := stepped hs
  cases hst with
  | move hold hmoved =>
    rw [hcalls] at hold
    cases hold
    cases hmoved <;> simp_all

/-- The call has just been made at time 7 and returns later. -/
theorem fair_calls_return_adding :
    ∃ (r : Endless World.step (fun _ => True) (World.start 5)) (k : Nat) (call : Call Nat Nat)
      (reply : Option Bytes),
      (r.states 7).calls[0]? = some ⟨⟨0,"Counter.Add",[1,2]⟩,.calling,.idle,false⟩ ∧ 7 ≤ k ∧
      (r.states k).calls[0]? = some call ∧ call.pc = .returned reply := by
  obtain ⟨w,call,hrun,hcalls,hfatal,hpc,hh,_⟩ := adding_run
  set r := halting (connecting ++ adding) (.control .cleanup) hrun with hr
  have hf : ∀ n, (r.states n).fatal = none := by
    intro n
    rcases Nat.lt_or_ge n (connecting ++ adding).length with hn | hn
    · exact (stepped (walk_next hrun hn)).1
    · rw [hr,halting_states hrun hn]
      exact hfatal
  have hc : (r.states 7).calls[0]? = some ⟨⟨0,"Counter.Add",[1,2]⟩,.calling,.idle,false⟩ := rfl
  obtain ⟨k,call',reply,hle,hk,hreply⟩ := fair_calls_return 5 r hf
    (halting_fair hrun (adding_stops hcalls hpc hh)) hc
  exact ⟨r,k,call',reply,hc,hle,hk,hreply⟩

end

end MapReduce.Labrpc
