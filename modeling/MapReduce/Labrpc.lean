import Mathlib
import MapReduce.Library.Utf8

namespace MapReduce.Labrpc

/-- A method of a service: what it makes of the state behind the servers and the encoded
arguments. -/
abbrev Method (σ : Type) := σ → Bytes → σ × Bytes

structure Service (σ : Type) where
  name : String
  methods : String → Option (Method σ)

/-- Go's `int` has the width of a machine word, as `ISize` has. -/
structure Server (σ : Type) where
  services : String → Option (Service σ)
  count : ISize

def makeServer {σ : Type} : Server σ := ⟨fun _ => none,0⟩

def Server.addService {σ : Type} (rs : Server σ) (svc : Service σ) : Server σ :=
  { rs with services := Function.update rs.services svc.name (some svc) }

structure ReqMsg (ν : Type) where
  endname : ν
  svcMeth : String
  args : Bytes

/-- The servers are given by their addresses. -/
structure Network (ν : Type) where
  reliable : Bool
  longDelays : Bool
  longReordering : Bool
  ends : List ν
  enabled : ν → Bool
  servers : ν → Option Nat
  connections : ν → Option ν
  done : Bool
  count : Int32
  bytes : Int64

/-- What ends the program. -/
inductive Fatal (ν : Type)
  | alreadyExists (endname : ν)
  | closedTwice
  | noDot (svcMeth : String)
  | unknownService (serviceName methodName : String)
  | unknownMethod (methname svcMeth : String)

/-- The part of a name before its last dot and the part after it. -/
def splitMethod (svcMeth : String) : Option (String × String) :=
  match svcMeth.toList.reverse.span (· ≠ '.') with
  | (_,[]) => none
  | (methodName,_ :: serviceName) =>
    some (String.ofList serviceName.reverse,String.ofList methodName.reverse)

/-- The variables of `processReq` once it has found a server. -/
structure Contact (ν : Type) where
  servername : ν
  server : Nat
  reliable : Bool
  longreordering : Bool

/-- Where a call is, in `Call` or in the `processReq` that works on it. -/
inductive CallPc (ν : Type)
  | calling
  | accepted
  | unreachable
  | reached (contact : Contact ν)
  | waiting (contact : Contact ν)
  | stopped (contact : Contact ν) (reply : Option Bytes)
  | checked (contact : Contact ν) (reply : Bytes)
  | delayed (reply : Bytes)
  | failing
  | sending (reply : Bytes)
  | returned (reply : Option Bytes)

/-- The goroutine that calls the handler: not there yet, before `dispatch` and in it, with a
reply to hand over, and done. -/
inductive HandlerPc (σ : Type)
  | idle
  | started (server : Nat)
  | found (server : Nat) (service : Service σ) (methodName : String)
  | returned (reply : Bytes)
  | ended

/-- A call with its goroutines; `draining` is the one that only takes the handler's reply. -/
structure Call (ν σ : Type) where
  req : ReqMsg ν
  pc : CallPc ν
  handler : HandlerPc σ
  draining : Bool

/-- The network and all that goes on in it; `serving` is the goroutine that takes requests,
and `object` what the methods work on. -/
structure World (ν σ : Type) where
  net : Network ν
  serving : Bool
  heap : List (Server σ)
  object : σ
  calls : List (Call ν σ)
  fatal : Option (Fatal ν)

/-- What one of a call's goroutines does. The network decides by chance whether it loses a
request, drops a reply or delays it. -/
inductive Move
  | accept | refuse | read | expire | lose | start | enter | execute | hear | poll | drain
  | check | drop | delay | pass | fire | deliver
  deriving DecidableEq

/-- What the user of the network does; `stop` is the end of its goroutine. -/
inductive Control (ν σ : Type)
  | reliable (yes : Bool)
  | longReordering (yes : Bool)
  | longDelays (yes : Bool)
  | makeEnd (endname : ν)
  | makeServer
  | addService (server : Nat) (svc : Service σ)
  | addServer (servername : ν) (rs : Nat)
  | deleteServer (servername : ν)
  | connect (endname servername : ν)
  | enable (endname : ν) (enabled : Bool)
  | cleanup
  | stop

inductive Action (ν σ : Type)
  | call (endname : ν) (svcMeth : String) (args : Bytes)
  | move (c : Nat) (m : Move)
  | control (k : Control ν σ)

section
variable {ν σ : Type}

def makeNetwork : Network ν where
  reliable := true
  longDelays := false
  longReordering := false
  ends := []
  enabled _ := false
  servers _ := none
  connections _ := none
  done := false
  count := 0
  bytes := 0

def World.start (object : σ) : World ν σ := ⟨makeNetwork,true,[],object,[],none⟩

/-- `readEndnameInfo` and the condition on what it returns. -/
def Network.readEndnameInfo (rn : Network ν) (endname : ν) : Option (Contact ν) := do
  let servername ← rn.connections endname
  let server ← rn.servers servername
  if rn.enabled endname then some ⟨servername,server,rn.reliable,rn.longReordering⟩ else none

def Network.isServerDead (rn : Network ν) (endname servername : ν) (server : Nat) : Bool :=
  rn.enabled endname = false || rn.servers servername ≠ some server

def Network.addBytes (rn : Network ν) (data : Bytes) : Network ν :=
  { rn with bytes := rn.bytes + Int64.ofNat data.length }

def Network.getTotalCount (rn : Network ν) : Int := rn.count.toInt

def Network.getTotalBytes (rn : Network ν) : Int := rn.bytes.toInt

/-- `Server.dispatch` up to the call of the service: the server with its count, and the
service and the method that are asked for. -/
def Server.dispatch (rs : Server σ) (req : ReqMsg ν) :
    Server σ × Except (Fatal ν) (Service σ × String) :=
  let rs := { rs with count := rs.count + 1 }
  match splitMethod req.svcMeth with
  | none => (rs,.error (.noDot req.svcMeth))
  | some (serviceName,methodName) =>
    match rs.services serviceName with
    | none => (rs,.error (.unknownService serviceName methodName))
    | some service => (rs,.ok (service,methodName))

def Service.dispatch (svc : Service σ) (methname : String) (req : ReqMsg ν) (object : σ) :
    Except (Fatal ν) (σ × Bytes) :=
  match svc.methods methname with
  | some method => .ok (method object req.args)
  | none => .error (.unknownMethod methname req.svcMeth)

namespace World

/-- `none` is a nil dereference. -/
def getCount (w : World ν σ) (servername : ν) : Option ISize := do
  let svr ← w.net.servers servername
  let rs ← w.heap[svr]?
  some rs.count

/-- A step of one of the goroutines of a call. -/
def move (w : World ν σ) (call : Call ν σ) : Move → Option (World ν σ × Call ν σ)
  | .accept =>
    match call.pc with
    | .calling =>
      if w.serving then
        let net := { w.net with count := w.net.count + 1 }
        some ({ w with net := net.addBytes call.req.args },{ call with pc := .accepted })
      else none
    | _ => none
  | .refuse =>
    match call.pc with
    | .calling => if w.net.done then some (w,{ call with pc := .returned none }) else none
    | _ => none
  | .read =>
    match call.pc with
    | .accepted =>
      match w.net.readEndnameInfo call.req.endname with
      | some contact => some (w,{ call with pc := .reached contact })
      | none => some (w,{ call with pc := .unreachable })
    | _ => none
  | .expire =>
    match call.pc with
    | .unreachable => some (w,{ call with pc := .returned none })
    | _ => none
  | .lose =>
    match call.pc with
    | .reached contact =>
      if contact.reliable then none else some (w,{ call with pc := .failing })
    | _ => none
  | .start =>
    match call.pc with
    | .reached contact =>
      some (w,{ call with pc := .waiting contact, handler := .started contact.server })
    | _ => none
  | .enter =>
    match call.handler with
    | .started server =>
      match w.heap[server]? with
      | none => none
      | some rs =>
        let (rs,result) := rs.dispatch call.req
        let w := { w with heap := w.heap.set server rs }
        match result with
        | .error e => some ({ w with fatal := some e },call)
        | .ok (service,methodName) =>
          some (w,{ call with handler := .found server service methodName })
    | _ => none
  | .execute =>
    match call.handler with
    | .found _ service methodName =>
      match service.dispatch methodName call.req w.object with
      | .error e => some ({ w with fatal := some e },call)
      | .ok (object,reply) => some ({ w with object },{ call with handler := .returned reply })
    | _ => none
  | .hear =>
    match call.pc,call.handler with
    | .waiting contact,.returned reply =>
      some (w,{ call with pc := .stopped contact (some reply), handler := .ended })
    | _,_ => none
  | .poll =>
    match call.pc with
    | .waiting contact =>
      if w.net.isServerDead call.req.endname contact.servername contact.server then
        some (w,{ call with pc := .stopped contact none, draining := true })
      else some (w,call)
    | _ => none
  | .drain =>
    match call.handler with
    | .returned _ => if call.draining then some (w,{ call with handler := .ended }) else none
    | _ => none
  | .check =>
    match call.pc with
    | .stopped contact reply =>
      let serverDead := w.net.isServerDead call.req.endname contact.servername contact.server
      match reply,serverDead with
      | some reply,false => some (w,{ call with pc := .checked contact reply })
      | _,_ => some (w,{ call with pc := .failing })
    | _ => none
  | .drop =>
    match call.pc with
    | .checked contact _ =>
      if contact.reliable then none else some (w,{ call with pc := .failing })
    | _ => none
  | .delay =>
    match call.pc with
    | .checked contact reply =>
      if contact.longreordering then some (w,{ call with pc := .delayed reply }) else none
    | _ => none
  | .pass =>
    match call.pc with
    | .checked _ reply =>
      some ({ w with net := w.net.addBytes reply },{ call with pc := .sending reply })
    | _ => none
  | .fire =>
    match call.pc with
    | .delayed reply =>
      some ({ w with net := w.net.addBytes reply },{ call with pc := .sending reply })
    | _ => none
  | .deliver =>
    match call.pc with
    | .failing => some (w,{ call with pc := .returned none })
    | .sending reply => some (w,{ call with pc := .returned (some reply) })
    | _ => none

variable [DecidableEq ν]

def control (w : World ν σ) : Control ν σ → Option (World ν σ)
  | .reliable yes => some { w with net := { w.net with reliable := yes } }
  | .longReordering yes => some { w with net := { w.net with longReordering := yes } }
  | .longDelays yes => some { w with net := { w.net with longDelays := yes } }
  | .makeEnd endname =>
    if endname ∈ w.net.ends then some { w with fatal := some (.alreadyExists endname) }
    else some { w with net := { w.net with
      ends := w.net.ends ++ [endname]
      enabled := Function.update w.net.enabled endname false
      connections := Function.update w.net.connections endname none } }
  | .makeServer => some { w with heap := w.heap ++ [makeServer] }
  | .addService server svc =>
    (w.heap[server]?).map (fun rs => { w with heap := w.heap.set server (rs.addService svc) })
  | .addServer servername rs =>
    if rs < w.heap.length then
      some { w with net := { w.net with servers := Function.update w.net.servers servername (some rs) } }
    else none
  | .deleteServer servername =>
    some { w with net := { w.net with servers := Function.update w.net.servers servername none } }
  | .connect endname servername =>
    some { w with net := { w.net with
      connections := Function.update w.net.connections endname (some servername) } }
  | .enable endname enabled =>
    some { w with net := { w.net with enabled := Function.update w.net.enabled endname enabled } }
  | .cleanup =>
    if w.net.done then some { w with fatal := some .closedTwice }
    else some { w with net := { w.net with done := true } }
  | .stop =>
    if w.net.done && w.serving then some { w with serving := false } else none

/-- A step of the program, unless it has ended. -/
def step (w : World ν σ) (a : Action ν σ) : Option (World ν σ) :=
  match w.fatal,a with
  | some _,_ => none
  | none,.call endname svcMeth args =>
    if endname ∈ w.net.ends then
      some { w with calls := w.calls ++ [⟨⟨endname,svcMeth,args⟩,.calling,.idle,false⟩] }
    else none
  | none,.move c m => do
    let call ← w.calls[c]?
    let (w,call) ← w.move call m
    some { w with calls := w.calls.set c call }
  | none,.control k => w.control k

end World

end

end MapReduce.Labrpc
