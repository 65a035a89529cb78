import MapReduce.Types

namespace MapReduce

structure Coordinator where
  noOfReduceTasks : Int
  mapTasks : List Job
  reduceTasks : List Job
  phase : CoordinatorPhase
  workers : List WorkerType
  deriving DecidableEq

/-- `fmt.Sprintf("task-%d", i)`. Map and reduce tasks share these names. -/
def taskName (i : Nat) : String := "task-" ++ toString i

def mapJob (nReduce : Int) (idx : Nat) (file : String) : Job :=
  { taskId := taskName idx, status := .waiting, filePath := file, nReduce := nReduce }

def reduceJob (i : Nat) : Job :=
  { taskId := taskName i, status := .waiting, partition := i }

def makeCoordinator (files : List String) (nReduce : Int) : Coordinator where
  noOfReduceTasks := nReduce
  mapTasks := files.mapIdx (mapJob nReduce)
  reduceTasks := []
  phase := .mapPhase
  workers := []

namespace Coordinator

/-- No field is validated: an empty worker id is registered like any other. -/
def registerWorker (c : Coordinator) (args : WorkerRegistrationArgs) :
    Coordinator × WorkerRegistrationReply :=
  let worker : WorkerType :=
    { workerId := args.workerID, status := .stateConnected, address := args.rpcAddr,
      port := args.port, heartBeatChecks := 0 }
  ({ c with workers := c.workers ++ [worker] }, { registrationStatus := true })

def taskTransitionManager (c : Coordinator) (t : TaskType) : Coordinator :=
  match t with
  | .mapTask =>
    let hasPendingTask :=
      c.mapTasks.any (fun task => task.status == .pending || task.status == .waiting)
    if !hasPendingTask then
      { c with
        reduceTasks := c.reduceTasks ++ (List.range c.noOfReduceTasks.toNat).map reduceJob,
        phase := .reducePhase }
    else c
  | .reduceTask =>
    let count := c.reduceTasks.countP (fun task => task.status == .done)
    if count == c.reduceTasks.length then { c with phase := .finishedPhase } else c
  | _ => c

/-- The scan of `TaskUpdateByWorker` over the list of the reported type, which
`store` puts back. The reply's phase is read before the transition. -/
def reportJob (c : Coordinator) (args : WorkerTaskUpdateArgs) (jobs : List Job)
    (store : List Job → Coordinator) : Coordinator × WorkerTaskUpdateReply :=
  match jobs.findFinIdx? (fun job => job.taskId == args.taskId) with
  | none => (c, { status := .invalid, message := "Task not found" })
  | some i =>
    let job := jobs[i]
    if job.worker.workerId ≠ args.workerID then
      (c, { status := .invalid, message := "Task not assigned to worker " ++ args.workerID })
    else if job.status = .done then
      (c, { status := .done, message := "Task already completed" })
    else
      ((store (jobs.set i { job with status := .done })).taskTransitionManager args.type,
        { status := .done, message := "Task update received successfully", phase := c.phase })

def taskUpdateByWorker (c : Coordinator) (args : WorkerTaskUpdateArgs) :
    Coordinator × WorkerTaskUpdateReply :=
  if args.taskId = "" then
    (c, { status := .invalid, message := "Task ID is required" })
  else if args.workerID = "" then
    (c, { status := .invalid, message := "Worker ID is required" })
  else
    match args.type with
    | .unset => (c, { status := .invalid, message := "Provide task type ( MAP | REDUCE )" })
    | .mapTask => c.reportJob args c.mapTasks (fun jobs => { c with mapTasks := jobs })
    | .reduceTask => c.reportJob args c.reduceTasks (fun jobs => { c with reduceTasks := jobs })
    | .other _ => (c, { status := .invalid, message := "Task type must be either MAP or REDUCE" })

/-- When no map task waits the reply is left as it came, its phase included. -/
def assignMapTask (c : Coordinator) (assignedWorker : WorkerType)
    (reply : WorkerTaskRequestReply) : Coordinator × WorkerTaskRequestReply :=
  match c.mapTasks.findFinIdx? (fun task => task.status == .waiting) with
  | none => (c, reply)
  | some i =>
    let task := { c.mapTasks[i] with status := .pending, worker := assignedWorker }
    ({ c with mapTasks := c.mapTasks.set i task },
      { reply with
        taskAvailable := true, taskId := task.taskId, filePath := task.filePath,
        status := task.status, nReduce := task.nReduce, type := .mapTask, phase := c.phase })

/-- Unlike `assignMapTask`, this one reports the phase also when nothing waits. -/
def assignReduceTask (c : Coordinator) (assignedWorker : WorkerType)
    (reply : WorkerTaskRequestReply) : Coordinator × WorkerTaskRequestReply :=
  match c.reduceTasks.findFinIdx? (fun task => task.status == .waiting) with
  | none => (c, { reply with phase := c.phase, taskAvailable := false })
  | some i =>
    let task := { c.reduceTasks[i] with status := .pending, worker := assignedWorker }
    ({ c with reduceTasks := c.reduceTasks.set i task },
      { reply with
        taskAvailable := true, taskId := task.taskId, status := task.status,
        type := .reduceTask, phase := c.phase, partition := task.partition })

def taskRequestByWorker (c : Coordinator) (args : WorkerTaskRequestArgs) :
    Coordinator × WorkerTaskRequestReply :=
  let reply : WorkerTaskRequestReply := { taskAvailable := false }
  match c.workers.find? (fun worker => worker.workerId == args.workerID) with
  | none => (c, reply)
  | some assignedWorker =>
    match c.phase with
    | .mapPhase => c.assignMapTask assignedWorker reply
    | .reducePhase => c.assignReduceTask assignedWorker reply
    | .finishedPhase => (c, { reply with taskAvailable := false, phase := c.phase })
    | .unset => (c, reply)

end Coordinator

/-- One RPC to the coordinator, with arbitrary argument values. -/
inductive Call
  | registerWorker (args : WorkerRegistrationArgs)
  | taskRequestByWorker (args : WorkerTaskRequestArgs)
  | taskUpdateByWorker (args : WorkerTaskUpdateArgs)
  deriving DecidableEq

inductive Answer
  | registered (reply : WorkerRegistrationReply)
  | requested (reply : WorkerTaskRequestReply)
  | updated (reply : WorkerTaskUpdateReply)
  deriving DecidableEq

namespace Coordinator

def handle (c : Coordinator) : Call → Coordinator × Answer
  | .registerWorker args => ((c.registerWorker args).1, .registered (c.registerWorker args).2)
  | .taskRequestByWorker args =>
    ((c.taskRequestByWorker args).1, .requested (c.taskRequestByWorker args).2)
  | .taskUpdateByWorker args =>
    ((c.taskUpdateByWorker args).1, .updated (c.taskUpdateByWorker args).2)

/-- The state after a sequence of calls. The two task handlers hold the mutex;
the unlocked append of `RegisterWorker` is taken as one step like them. -/
def serve (c : Coordinator) : List Call → Coordinator
  | [] => c
  | call :: calls => (c.handle call).1.serve calls

/-- The answers to a sequence of calls, in the order they were given. -/
def answers (c : Coordinator) : List Call → List Answer
  | [] => []
  | call :: calls => (c.handle call).2 :: (c.handle call).1.answers calls

end Coordinator

end MapReduce
