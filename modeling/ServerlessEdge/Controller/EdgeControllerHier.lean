import ServerlessEdge.Library.Runs
import ServerlessEdge.Library.Triple
import ServerlessEdge.Controller.EdgeController
import ServerlessEdge.Controller.TableNetwork
import ServerlessEdge.Controller.Topology

/-! The controller with hierarchical routing: a computer is a final destination
at its home router only, which the other routers reach as an intermediate one. -/
namespace ServerlessEdge.Controller
open Std Library

/-- The computers announced by a router for each lambda. -/
abbrev Announced := ExtTreeMap String (ExtTreeSet String)

structure EdgeControllerHier where
  theObjective : Option Objective
  theTopology : Option Topology
  /-- Router address to the lambda processor end-points at that address. -/
  theRouterAddresses : ExtTreeMap String (List String)
  /-- Computer address to the address of its closest router. -/
  theClosest : ExtTreeMap String String
  theAnnouncedLambdas : ExtTreeMap String Announced
  theForwardingTableEndpoints : ExtTreeMap String String
  /-- The table servers are not part of the controller. -/
  theNetwork : Network

structure RemoveElem where
  theLambdaProcessorServer : String
  theForwardingTableServer : String
  theEdgeServer : String
  theLambda : String
  deriving DecidableEq, Repr

/-- The same controller over other servers and another log. -/
def EdgeController.withNetwork (s : EdgeController EdgeControllerHier) (n : Network) :
    EdgeController EdgeControllerHier :=
  { s with theDerived := { s.theDerived with theNetwork := n } }

namespace EdgeControllerHier
open EdgeController

abbrev State := EdgeController EdgeControllerHier

/-- A controller with a topology and an objective, facing the given servers. -/
def new (t : Topology) (aObjective : Objective)
    (aTables : ExtTreeMap String (Forwarding.EdgeRouter ℚ)) : State where
  theComputers := ∅
  theRouters := ∅
  theLambdas := ∅
  theDerived := ⟨some aObjective, some t, ∅, ∅, ∅, ∅, ⟨aTables, []⟩⟩

def modifyHier (f : EdgeControllerHier → EdgeControllerHier) : Member EdgeControllerHier Unit :=
  modify fun s => { s with theDerived := f s.theDerived }

/-- Commands change the servers and the log only. -/
def onNetwork (f : Network → Bool × Network) : Member EdgeControllerHier Bool :=
  modifyGet fun s => ((f s.theDerived.theNetwork).1,
    s.withNetwork (f s.theDerived.theNetwork).2)

theorem onNetwork_of {f : Network → Bool × Network} {s : State} {b : Bool} {n : Network}
    (h : f s.theDerived.theNetwork = (b, n)) : onNetwork f s = .ok b (s.withNetwork n) := by
  have hrun : onNetwork f s =
      .ok (f s.theDerived.theNetwork).1 (s.withNetwork (f s.theDerived.theNetwork).2) := rfl
  rw [hrun, h]

def record (aEvent : Event) : Member EdgeControllerHier Unit :=
  modifyHier fun d => { d with theNetwork := d.theNetwork.record aEvent }

def addressOf (aEndpoint : String) : Member EdgeControllerHier String :=
  match address aEndpoint with
  | .error err => throw err
  | .ok a => return a

/-- The closest router address, looked up in theClosest first. -/
def findClosest (aComputerAddress : String) : Member EdgeControllerHier String := do
  let d := (← get).theDerived
  match d.theTopology, d.theObjective with
  | none, _ => throw "Topology has not been loaded"
  | some _, none => throw "Objective not set"
  | some t, some myObjective =>
    if d.theRouterAddresses.isEmpty then return ""
    else match d.theClosest[aComputerAddress]? with
      | some a => return a
      | none => match closest t myObjective d.theRouterAddresses.keys aComputerAddress with
        | .error err => throw err
        | .ok a =>
          modifyHier fun d => { d with theClosest := d.theClosest.insert aComputerAddress a }
          return a

/-- A router at an address, drawn at random if there are several. -/
def routerEndpoint (env : Environment) (aRouterAddress : String) :
    Member EdgeControllerHier String := do
  let d := (← get).theDerived
  match d.theRouterAddresses[aRouterAddress]? with
  | none => throw "no such router address"
  | some [] => throw "no end-point to draw from"
  | some (x :: xs) =>
    return (x :: xs).getD (env.random d.theNetwork.log.length % (x :: xs).length) x

/-- The home router of a computer. -/
def homeRouter (env : Environment) (aEdgeServerEndpoint : String) :
    Member EdgeControllerHier String := do
  let myAddress ← addressOf aEdgeServerEndpoint
  let myHomeRouterAddress ← findClosest myAddress
  let myRouterEndpoint ← routerEndpoint env myHomeRouterAddress
  record (.home aEdgeServerEndpoint myRouterEndpoint)
  return myRouterEndpoint

/-- Note the computer for each lambda of the entries; those to be announced to
the other routers are kept, with the home router as their destination. -/
def noteEntries (aHome aComputer : String) : Announced → List Route → Announced × List Route
  | m, [] => (m, [])
  | m, x :: xs =>
    let myComputers := m.getD x.lambda ∅
    let myRet := noteEntries aHome aComputer (m.insert x.lambda (myComputers.insert aComputer)) xs
    if aComputer ∈ myComputers ∨ 1 < (myComputers.insert aComputer).size then myRet
    else (myRet.1, { x with destination := aHome, final := false } :: myRet.2)

def noteAnnounced (aHome aComputer : String) (aEntries : List Route) :
    Member EdgeControllerHier (List Route) :=
  modifyGet fun s =>
    let myRet := noteEntries aHome aComputer (s.theDerived.theAnnouncedLambdas.getD aHome ∅) aEntries
    (myRet.2, { s with theDerived := { s.theDerived with
      theAnnouncedLambdas := s.theDerived.theAnnouncedLambdas.insert aHome myRet.1 } })

section Recursion

-- reset and the functions that call it when a router does not answer
variable (env : Environment) (reset : Member EdgeControllerHier Unit)

def privateRemoveRouter (aRouterEndpoint : String) : Member EdgeControllerHier Unit := do
  let myAddress ← addressOf aRouterEndpoint
  match (← get).theDerived.theRouterAddresses[myAddress]? with
  | none => throw "no such router address"
  | some myEndpoints =>
    if (myEndpoints.erase aRouterEndpoint).isEmpty then
      modifyHier fun d => { d with
        theRouterAddresses := d.theRouterAddresses.erase myAddress
        theClosest := ∅ }
    else
      modifyHier fun d => { d with theRouterAddresses :=
        d.theRouterAddresses.insert myAddress (myEndpoints.erase aRouterEndpoint) }
    modifyHier fun d => { d with theForwardingTableEndpoints :=
      d.theForwardingTableEndpoints.erase aRouterEndpoint }
    reset

def eraseRouter (aRouterEndpoint : String) : Member EdgeControllerHier Unit :=
  modify fun s => { s with theRouters := s.theRouters.erase aRouterEndpoint }

def removeRouter (aRouterEndpoint : String) : Member EdgeControllerHier Unit := do
  eraseRouter aRouterEndpoint
  privateRemoveRouter reset aRouterEndpoint

/-- The function above as called with a reference to the key in theRouters
itself: erasing the router frees the string that is read afterwards. -/
def removeRouterByKey (aRouterEndpoint : String) : Member EdgeControllerHier Unit := do
  eraseRouter aRouterEndpoint
  record (.freedRead aRouterEndpoint)
  privateRemoveRouter reset (env.freed aRouterEndpoint)

/-- Announce the computer to its home router as a final destination. -/
def announceFinal (aHome : String) (aEntries : List Route) : Member EdgeControllerHier Bool := do
  let myForwardingServerEndpoint := (← get).forwardingServerEndpoint aHome
  if myForwardingServerEndpoint = "" then return true
  else onNetwork (Network.changeRoutes env myForwardingServerEndpoint aEntries)

/-- Announce the home router to all the other ones. -/
def announceIntermediate (aHome : String) (aEntries : List Route) :
    Member EdgeControllerHier Unit := do
  let myRouters := (← get).theRouters.toList.filter fun x => x.1 ≠ aHome ∧ aEntries ≠ []
  let myFailed ← myRouters.findM? fun x => do
    return !(← onNetwork (Network.changeRoutes env x.2 aEntries))
  match myFailed with
  | some x => removeRouterByKey env reset x.1
  | none => return

def privateAnnounceComputer (aEdgeServerEndpoint : String) (aContainers : ContainerList) :
    Member EdgeControllerHier Unit := do
  if (← get).theDerived.theRouterAddresses.isEmpty then return
  else
    let myHome ← homeRouter env aEdgeServerEndpoint
    let myEntries := aContainers.lambdas.map fun l => Route.mk l aEdgeServerEndpoint 1 true
    if ← announceFinal env myHome myEntries then
      let myKept ← noteAnnounced myHome aEdgeServerEndpoint myEntries
      announceIntermediate env reset myHome myKept
    else removeRouter reset myHome

/-- Flush all routers, then announce all computers one at a time. -/
def resetBody : Member EdgeControllerHier Unit := do
  let myFailed ← (← get).theDerived.theForwardingTableEndpoints.toList.findM? fun x => do
    return !(← onNetwork (Network.flushRoutes env x.2))
  match myFailed with
  | some x => removeRouter reset x.1
  | none =>
    modifyHier fun d => { d with theAnnouncedLambdas := ∅ }
    record .clear
    (← get).theComputers.toList.forM fun x => privateAnnounceComputer env reset x.1 x.2

def privateAnnounceRouter (aEdgeServerEndpoint aEdgeRouterEndpoint : String) :
    Member EdgeControllerHier Unit := do
  let myAddress ← addressOf aEdgeServerEndpoint
  match (← get).theDerived.theRouterAddresses[myAddress]? with
  | none =>
    modifyHier fun d => { d with
      theRouterAddresses := d.theRouterAddresses.insert myAddress [aEdgeServerEndpoint]
      theClosest := ∅ }
  | some myEndpoints =>
    modifyHier fun d => { d with theRouterAddresses :=
      d.theRouterAddresses.insert myAddress (myEndpoints ++ [aEdgeServerEndpoint]) }
  modifyHier fun d => { d with theForwardingTableEndpoints :=
    d.theForwardingTableEndpoints.insertIfNew aEdgeServerEndpoint aEdgeRouterEndpoint }
  reset

/-- Take a computer out of the first router that announces it for a lambda, and
extend the list of the commands to be sent. -/
def withdraw (aEdgeServerEndpoint : String) (aElems : List RemoveElem) (aLambda : String) :
    Member EdgeControllerHier (List RemoveElem) := do
  let d := (← get).theDerived
  match d.theAnnouncedLambdas.toList.find? fun x => aEdgeServerEndpoint ∈ x.2.getD aLambda ∅ with
  | none => return aElems
  | some (myHome, myLambdas) =>
    if myHome ∉ d.theForwardingTableEndpoints then throw "no such router end-point"
    else
      let myComputers := (myLambdas.getD aLambda ∅).erase aEdgeServerEndpoint
      -- the second argument is the key that was looked up, not the value found
      let myHomeElem := RemoveElem.mk myHome myHome aEdgeServerEndpoint aLambda
      if myComputers.isEmpty then
        let myLeft := myLambdas.erase aLambda
        modifyHier fun d => { d with theAnnouncedLambdas :=
          if myLeft.isEmpty then d.theAnnouncedLambdas.erase myHome
          else d.theAnnouncedLambdas.insert myHome myLeft }
        let myOthers := d.theForwardingTableEndpoints.toList.filter fun x => x.1 ≠ myHome
        return aElems ++ myHomeElem :: myOthers.map fun x => ⟨x.1, x.2, myHome, aLambda⟩
      else
        modifyHier fun d => { d with theAnnouncedLambdas :=
          d.theAnnouncedLambdas.insert myHome (myLambdas.insert aLambda myComputers) }
        return aElems ++ [myHomeElem]

/-- Send out all removal announcements. -/
def sendRemovals (aElems : List RemoveElem) : Member EdgeControllerHier Unit := do
  let myFailed ← aElems.findM? fun x => do
    return !(← onNetwork (Network.removeRoutes env x.theForwardingTableServer x.theEdgeServer
      [x.theLambda]))
  match myFailed with
  | some x => removeRouter reset x.theLambdaProcessorServer
  | none => return

def privateRemoveComputer (aEdgeServerEndpoint : String) (aLambdas : List String) :
    Member EdgeControllerHier Unit := do
  let myRemoveElems ← aLambdas.foldlM (withdraw aEdgeServerEndpoint) []
  record (.forget aEdgeServerEndpoint)
  sendRemovals env reset myRemoveElems

end Recursion

/-- Every reset but the first one follows the removal of a router. -/
def reset (env : Environment) : Nat → Member EdgeControllerHier Unit
  | 0 => throw "reset called more times than there are routers"
  | n + 1 => resetBody env (reset env n)

/-- More nested resets than there are routers to remove. -/
def resets (s : State) : Nat :=
  s.theRouters.size + s.theDerived.theForwardingTableEndpoints.size + 2

def hooks (env : Environment) : Hooks EdgeControllerHier where
  addComputer _ _ := pure ()
  delComputer _ _ := pure ()
  addLambda _ := pure ()
  delLambda _ := pure ()
  privateAnnounceComputer ep cs := do
    privateAnnounceComputer env (reset env (resets (← get))) ep cs
  privateAnnounceRouter ep f := do privateAnnounceRouter (reset env (resets (← get))) ep f
  privateRemoveComputer ep ls := do
    privateRemoveComputer env (reset env (resets (← get))) ep ls

/-- The calls that a controller serves. -/
inductive Call where
  | announceRouter (aEdgeServerEndpoint aEdgeRouterEndpoint : String)
  | announceComputer (aEdgeServerEndpoint : String) (aContainers : ContainerList)
  | removeComputer (aEdgeServerEndpoint : String)
  deriving DecidableEq, Repr

def serve (env : Environment) : Call → Member EdgeControllerHier Unit
  | .announceRouter e f => announceRouter (hooks env) e f
  | .announceComputer c cs => announceComputer (hooks env) c cs
  | .removeComputer c => removeComputer (hooks env) c

/-- The state after a call, whether it returns or throws. -/
def step (env : Environment) (s : State) (aCall : Call) : State := Triple.after (serve env aCall) s

end EdgeControllerHier
end ServerlessEdge.Controller
