import ServerlessEdge.StateSim.Routes

/-! The scenario of the simulator of stateful tasks: the tasks are allocated to nodes, and the
performance of the jobs is measured under different policies of execution. -/
namespace ServerlessEdge.StateSim
open Std (ExtTreeMap)

inductive AllocPolicy where
  | ProcOnly | ProcNet
  deriving DecidableEq

inductive ExecPolicy where
  | PureFaaS | StatePropagate | StateLocal
  | UnchainedExternal | UnchainedInEdge | UnchainedInFunction | UnchainedInClient
  deriving DecidableEq

/-- The performance of a job, with delays and sizes of some types. -/
structure PerformanceData.Job (D S : Type) where
  theProcDelay : D
  theNetDelay : D
  theDataTransfer : S
  theChainSize : S
  deriving DecidableEq

structure PerformanceData (D S : Type) where
  theJobData : List (PerformanceData.Job D S)
  theLoad : List S
  deriving DecidableEq

abbrev JobStat := PerformanceData.Job ℚ ℕ

/-- The delays and the data transferred are added. -/
def merge (a aOther : JobStat) : JobStat where
  theProcDelay := a.theProcDelay + aOther.theProcDelay
  theNetDelay := a.theNetDelay + aOther.theNetDelay
  theDataTransfer := a.theDataTransfer + aOther.theDataTransfer
  theChainSize := a.theChainSize

structure Scenario where
  theAffinities : ExtTreeMap String Affinity
  theNetwork : Network
  theJobs : List Job
  theClients : List Node
  theLoad : List ℕ
  theAllocation : List (List (Option Node))
  theCloudParams : Option CloudParams

/-- A client for each job, by numbers that are drawn. -/
def randomClients (aRnd : ℕ → ℕ) (aNumJobs : ℕ) (aNetwork : Network) : Except Failure (List Node) :=
  (List.range aNumJobs).mapM fun i => access aNetwork.theClients (aRnd i)

def Scenario.create (aAffinities : ExtTreeMap String Affinity) (aNetwork : Network)
    (aJobs : List Job) (aRnd : ℕ → ℕ) : Except Failure Scenario := do
  let theClients ← randomClients aRnd aJobs.length aNetwork
  pure ⟨aAffinities, aNetwork, aJobs, theClients, [], [], none⟩

/-- The identifiers that are left are taken at positions given by numbers in [0, 1). -/
def shuffle (myRnd : ℕ → ℚ) : ℕ → List ℕ → Except Failure (List ℕ)
  | 0, _ => pure []
  | n + 1, myIds => do
    let myRndId := ⌊myRnd n * myIds.length⌋.toNat
    let myId ← access myIds myRndId
    let ret ← shuffle myRnd n (myIds.eraseIdx myRndId)
    pure (myId :: ret)

/-- The size of all states of a job, or of those that a task depends on. -/
def stateSize (aJob : Job) (aTask : Task) (aAll : Bool) : Except Failure ℕ :=
  if aAll then pure aJob.theStateSizes.sum
  else do
    let mySizes ← aTask.theDeps.mapM (access aJob.theStateSizes)
    pure mySizes.sum

/-- The sizes of the argument and of the return value of a task, with the states. -/
def allStatesArgSizes (aJob : Job) (aTask : Task) (aAll : Bool) : Except Failure (ℕ × ℕ) := do
  let myStateSize ← stateSize aJob aTask aAll
  if aTask.theId + 1 = aJob.theTasks.length then
    pure (myStateSize + aTask.theSize, myStateSize + aJob.theRetSize)
  else do
    let myNext ← access aJob.theTasks (aTask.theId + 1)
    pure (myStateSize + aTask.theSize, myStateSize + myNext.theSize)

/-- A vector with that many elements, null pointers if it had fewer. -/
def resize (l : List (Option Node)) (n : ℕ) : List (Option Node) :=
  l.take n ++ List.replicate (n - l.length) none

namespace Scenario

variable (dijkstra : Dijkstra)

/-- The network answers in the same way whatever routes it has stored. -/
def txTime (s : Scenario) (aSrc aDst : Node) (aBytes : ℕ) : Except Failure ℚ :=
  txTimeOf s.theNetwork dijkstra s.theNetwork.theElements.length aSrc aDst aBytes

def hops (s : Scenario) (aSrc aDst : Node) : Except Failure ℕ :=
  hopsOf s.theNetwork dijkstra s.theNetwork.theElements.length aSrc aDst

/-- The central node, unless there is none. -/
def central (s : Scenario) : Except Failure Node :=
  match centralOf s.theNetwork dijkstra s.theNetwork.theElements.length none with
  | .ok (some myNode) _ => .ok myNode
  | .ok none _ => .error .outOfRange
  | .error e _ => .error e

/-- The execution time of a new task on a node with a load. -/
def execTime (s : Scenario) (load aOps aInSize aOutSize : ℕ) (aClient aNode : Node) :
    Except Failure ℚ := do
  let there ← s.txTime dijkstra aClient aNode aInSize
  let back ← s.txTime dijkstra aNode aClient aOutSize
  pure (aOps / (aNode.theSpeed / (load + 1)) + (there + back))

def execTimeNew (s : Scenario) (aOps aInSize aOutSize : ℕ) (aClient aNode : Node) :
    Except Failure ℚ := do
  let load ← access s.theLoad aNode.theId
  s.execTime dijkstra load aOps aInSize aOutSize aClient aNode

/-- A node with the affinity and a shorter execution time than that of the best one so far. -/
def tryNode (s : Scenario) (myAffinity : Affinity) (aOps aInSize aOutSize : ℕ) (aClient : Node)
    (best : Option (ℚ × Node)) (myNode : Node) : Except Failure (Option (ℚ × Node)) :=
  if myNode.theAffinity ≠ myAffinity then pure best
  else do
    let myCurExecTime ← s.execTimeNew dijkstra aOps aInSize aOutSize aClient myNode
    match best with
    | none => pure (some (myCurExecTime, myNode))
    | some (myMinExecTime, _) =>
      if myCurExecTime < myMinExecTime then pure (some (myCurExecTime, myNode)) else pure best

/-- The sizes that the allocation takes into account. -/
def allocSizes (aPolicy : AllocPolicy) (myJob : Job) (myTask : Task) : Except Failure (ℕ × ℕ) :=
  match aPolicy with
  | .ProcOnly => pure (0, 0)
  | .ProcNet => allStatesArgSizes myJob myTask true

/-- A node for a task. -/
def selectNode (s : Scenario) (aPolicy : AllocPolicy) (myJob : Job) (myClient : Node)
    (myTask : Task) : Except Failure Node := do
  match s.theAffinities[myTask.theFunc]? with
  | none => .error (.thrown ("Cannot allocate task '" ++ myTask.theFunc ++ "' on job " ++
      toString myJob.theId ++ ": no matching affinity configured"))
  | some myAffinity =>
    let sizes ← allocSizes aPolicy myJob myTask
    let best ← s.theNetwork.theProcessing.foldlM
      (s.tryNode dijkstra myAffinity myTask.theOps sizes.1 sizes.2 myClient) none
    match best with
    | none => .error (.thrown ("Allocation failed: could not find any suitable node for task '" ++
        myTask.theFunc ++ "'"))
    | some (_, myMinNode) => pure myMinNode

/-- The allocation of a task is stored and the load of its node grows. -/
def place (s : Scenario) (myJobId myTaskId : ℕ) (myNode : Node) (load : ℕ) : Scenario :=
  { s with
    theAllocation := s.theAllocation.modify myJobId (·.set myTaskId (some myNode))
    theLoad := s.theLoad.set myNode.theId (load + 1) }

def allocateTask (aPolicy : AllocPolicy) (myJobId myTaskId : ℕ) : EStateM Failure Scenario Unit := do
  let s ← get
  let myJob ← MonadExcept.ofExcept (access s.theJobs myJobId)
  let myClient ← MonadExcept.ofExcept (access s.theClients myJobId)
  let myTask ← MonadExcept.ofExcept (access myJob.theTasks myTaskId)
  let myNode ← MonadExcept.ofExcept (s.selectNode dijkstra aPolicy myJob myClient myTask)
  let row ← MonadExcept.ofExcept (access s.theAllocation myJob.theId)
  let _ ← MonadExcept.ofExcept (access row myTaskId)
  let load ← MonadExcept.ofExcept (access s.theLoad myNode.theId)
  set (s.place myJob.theId myTaskId myNode load)

/-- Room for the tasks of a job in the allocation table. -/
def makeRoom (s : Scenario) (myJobId n : ℕ) : Scenario :=
  { s with theAllocation := s.theAllocation.modify myJobId (resize · n) }

def allocateJob (aPolicy : AllocPolicy) (myJobId : ℕ) : EStateM Failure Scenario Unit := do
  let s ← get
  let myJob ← MonadExcept.ofExcept (access s.theJobs myJobId)
  set (s.makeRoom myJobId myJob.theTasks.length)
  (List.range myJob.theTasks.length).forM (allocateTask dijkstra aPolicy myJobId)

/-- No task is allocated. -/
def clear (s : Scenario) : Scenario :=
  { s with
    theLoad := List.replicate s.theNetwork.nodes.length 0
    theAllocation := List.replicate s.theJobs.length [] }

/-- The tasks of all jobs are allocated, the jobs in a random order. -/
def allocateTasks (aPolicy : AllocPolicy) (myRnd : ℕ → ℚ) : EStateM Failure Scenario Unit := do
  modify clear
  let s ← get
  let myJobIds ← MonadExcept.ofExcept
    (shuffle myRnd s.theJobs.length (List.range s.theJobs.length))
  myJobIds.forM (allocateJob dijkstra aPolicy)

/-- The time to process a task on its node, which shares its speed among the tasks allocated. -/
def procTime (s : Scenario) (aOps : ℕ) (aTarget : Node) : Except Failure ℚ :=
  if aOps = 0 then pure 0
  else do
    let load ← access s.theLoad aTarget.theId
    if load = 0 then .error .divisionByZero else pure (aOps / (aTarget.theSpeed / load))

def execStatsTwoWay (s : Scenario) (aOps aInSize aOutSize : ℕ) (aOrigin aTarget : Node) :
    Except Failure JobStat := do
  let myProcTime ← s.procTime aOps aTarget
  let there ← s.txTime dijkstra aOrigin aTarget aInSize
  let back ← s.txTime dijkstra aTarget aOrigin aOutSize
  let hopsThere ← s.hops dijkstra aOrigin aTarget
  let hopsBack ← s.hops dijkstra aTarget aOrigin
  pure ⟨myProcTime, there + back, hopsThere * aInSize + hopsBack * aOutSize, 0⟩

/-- The transmission time from a node to the cloud. -/
def txTimeCloud (s : Scenario) (aBytes : ℕ) : Except Failure ℚ :=
  if aBytes = 0 then pure 0
  else
    match s.theCloudParams with
    | none => .error (.thrown "Cloud parameters not set")
    | some c => pure (c.theCloudLatency + 8 * aBytes / (10 ^ 6 * c.theCloudRate))

def execStatsTwoWayCloud (s : Scenario) (aInSize aOutSize : ℕ) : Except Failure JobStat := do
  let there ← s.txTimeCloud aInSize
  let back ← s.txTimeCloud aOutSize
  pure ⟨0, there + back, aInSize + aOutSize, 0⟩

def execStatsOneWay (s : Scenario) (aOps aSize : ℕ) (aOrigin aTarget : Node) :
    Except Failure JobStat := do
  let myProcTime ← s.procTime aOps aTarget
  let myTxTime ← s.txTime dijkstra aOrigin aTarget aSize
  let myHops ← s.hops dijkstra aOrigin aTarget
  pure ⟨myProcTime, myTxTime, myHops * aSize, 0⟩

/-- The variables of the loop over the tasks of a job. -/
structure Progress where
  myExecStat : JobStat
  myPrevNode : Option Node
  myStateLocation : List Node

/-- A state is moved to the node of the task from where it was last. -/
def moveState (s : Scenario) (myJob : Job) (myNode : Node) (p : JobStat × List Node)
    (myStateId : ℕ) : Except Failure (JobStat × List Node) := do
  let mySize ← access myJob.theStateSizes myStateId
  let myLocation ← access p.2 myStateId
  let stat ← s.execStatsOneWay dijkstra 0 mySize myLocation myNode
  pure (merge p.1 stat, p.2.set myStateId myNode)

/-- The return value of the last task goes to the client. -/
def returnValue (s : Scenario) (myExecStat : JobStat) (myNextTask : Option Task) (aSize : ℕ)
    (myNode myClient : Node) : Except Failure JobStat :=
  match myNextTask with
  | some _ => pure myExecStat
  | none => do
    let stat ← s.execStatsOneWay dijkstra 0 aSize myNode myClient
    pure (merge myExecStat stat)

/-- A call of a function by the client, for the policies without chains. -/
def callFunction (s : Scenario) (myJob : Job) (myClient myNode : Node) (myTask : Task)
    (myNextTask : Option Task) (myExecStat : JobStat) : Except Failure JobStat := do
  let stat ← s.execStatsTwoWay dijkstra myTask.theOps myTask.theSize
    ((myNextTask.map Task.theSize).getD myJob.theRetSize) myClient myNode
  pure (merge myExecStat stat)

/-- A task is executed: what it adds to the performance of the job, and where the states are. -/
def execute (s : Scenario) (aPolicy : ExecPolicy) (myJob : Job) (myClient myNode : Node)
    (myTask : Task) (myNextTask : Option Task) (p : Progress) : Except Failure (JobStat × List Node) :=
  match aPolicy with
  | .PureFaaS => do
    let sizes ← allStatesArgSizes myJob myTask true
    let stat ← s.execStatsTwoWay dijkstra myTask.theOps sizes.1 sizes.2 myClient myNode
    pure (merge p.myExecStat stat, p.myStateLocation)
  | .StatePropagate => do
    let sizes ← allStatesArgSizes myJob myTask true
    let stat ← s.execStatsOneWay dijkstra myTask.theOps sizes.1 (p.myPrevNode.getD myClient) myNode
    let myExecStat ← s.returnValue dijkstra (merge p.myExecStat stat) myNextTask sizes.2 myNode myClient
    pure (myExecStat, p.myStateLocation)
  | .StateLocal => do
    let stat ← s.execStatsOneWay dijkstra myTask.theOps myTask.theSize (p.myPrevNode.getD myClient) myNode
    let moved ← myTask.theDeps.foldlM (s.moveState dijkstra myJob myNode)
      (merge p.myExecStat stat, p.myStateLocation)
    let myExecStat ← s.returnValue dijkstra moved.1 myNextTask myJob.theRetSize myNode myClient
    pure (myExecStat, moved.2)
  | .UnchainedExternal => do
    let myExecStat ← s.callFunction dijkstra myJob myClient myNode myTask myNextTask p.myExecStat
    let myStateSize ← stateSize myJob myTask false
    let stat ← s.execStatsTwoWayCloud myStateSize myStateSize
    pure (merge myExecStat stat, p.myStateLocation)
  | .UnchainedInEdge => do
    let myExecStat ← s.callFunction dijkstra myJob myClient myNode myTask myNextTask p.myExecStat
    let myStateSize ← stateSize myJob myTask false
    let myCentral ← s.central dijkstra
    let stat ← s.execStatsTwoWay dijkstra 0 myStateSize myStateSize myClient myCentral
    pure (merge myExecStat stat, p.myStateLocation)
  | .UnchainedInFunction => do
    let myExecStat ← s.callFunction dijkstra myJob myClient myNode myTask myNextTask p.myExecStat
    let _ ← stateSize myJob myTask false
    pure (myExecStat, p.myStateLocation)
  | .UnchainedInClient => do
    let sizes ← allStatesArgSizes myJob myTask false
    let stat ← s.execStatsTwoWay dijkstra myTask.theOps sizes.1 sizes.2 myClient myNode
    pure (merge p.myExecStat stat, p.myStateLocation)

/-- The node to which a task has been allocated, which is not a null pointer. -/
def nodeOf (s : Scenario) (aJobId aTaskId : ℕ) : Except Failure Node := do
  let row ← access s.theAllocation aJobId
  match ← access row aTaskId with
  | none => .error .outOfRange
  | some myNode => pure myNode

def measureTask (s : Scenario) (aPolicy : ExecPolicy) (myJob : Job) (myClient : Node) (p : Progress)
    (x : Task × ℕ) : Except Failure Progress := do
  let myNode ← s.nodeOf myJob.theId x.1.theId
  let done ← s.execute dijkstra aPolicy myJob myClient myNode x.1 myJob.theTasks[x.2 + 1]? p
  pure ⟨done.1, some myNode, done.2⟩

def measureJob (s : Scenario) (aPolicy : ExecPolicy) (myJob : Job) : Except Failure JobStat := do
  let myClient ← access s.theClients myJob.theId
  let p ← myJob.theTasks.zipIdx.foldlM (s.measureTask dijkstra aPolicy myJob myClient)
    ⟨⟨0, 0, 0, myJob.theTasks.length⟩, none, List.replicate myJob.theStateSizes.length myClient⟩
  pure p.myExecStat

def noAllocation : Failure := .thrown "Cannot measure performance without an allocation"

def performance (s : Scenario) (aPolicy : ExecPolicy) : Except Failure (PerformanceData ℚ ℕ) :=
  if s.theLoad = [] then .error noAllocation
  else do
    let theJobData ← s.theJobs.mapM (s.measureJob dijkstra aPolicy)
    let theLoad ← s.theNetwork.theProcessing.mapM fun myNode => access s.theLoad myNode.theId
    pure ⟨theJobData, theLoad⟩

end Scenario

end ServerlessEdge.StateSim
