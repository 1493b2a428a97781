import ServerlessEdge.Library.Runs
import ServerlessEdge.Library.Writes
import ServerlessEdge.Controller.Serving
import ServerlessEdge.Controller.TableNetwork

/-! The controller with flat routing: every computer is announced to every router
as a final destination. -/
namespace ServerlessEdge.Controller
open Std Library Maps Triple Writes EdgeController

/-- The class has no data of its own; the table servers are not part of it. -/
structure EdgeControllerFlat where
  theNetwork : Network

namespace EdgeControllerFlat

abbrev State := EdgeController EdgeControllerFlat

/-- A controller that faces the given servers. -/
def new (aTables : ExtTreeMap String (Forwarding.EdgeRouter ℚ)) : State :=
  EdgeController.new ⟨⟨aTables, []⟩⟩

def withNetwork (s : State) (n : Network) : State := { s with theDerived := ⟨n⟩ }

/-- Commands change the servers and the log only. -/
def onNetwork (f : Network → Bool × Network) : Member EdgeControllerFlat Bool :=
  modifyGet fun s => ((f s.theDerived.theNetwork).1, withNetwork s (f s.theDerived.theNetwork).2)

def removeRouter (aRouterEndpoint : String) : Member EdgeControllerFlat Unit :=
  modify fun s => { s with theRouters := s.theRouters.erase aRouterEndpoint }

/-- All the <lambda, destination> pairs. -/
def lambdas (aComputers : ExtTreeMap String ContainerList) : List (String × String) :=
  aComputers.toList.flatMap fun x => x.2.lambdas.map fun l => (l, x.1)

section Functions

variable (env : Environment)

/-- The routers for which communication fails are removed in the end. -/
def privateAnnounceComputer (aEdgeServerEndpoint : String) (aContainers : ContainerList) :
    Member EdgeControllerFlat Unit := do
  let myEntries := aContainers.lambdas.map fun l => Route.mk l aEdgeServerEndpoint 1 true
  let myRemoveList ← (← get).theRouters.toList.foldlM (fun myRemoveList x => do
    if ← onNetwork (Network.changeRoutes env x.2 myEntries) then return myRemoveList
    else return myRemoveList ++ [x.1]) []
  myRemoveList.forM removeRouter

/-- Announce the lambdas offered by all known computers, if any. -/
def privateAnnounceRouter (aEdgeServerEndpoint aEdgeRouterEndpoint : String) :
    Member EdgeControllerFlat Unit := do
  let myEntries := (lambdas (← get).theComputers).map fun x => Route.mk x.1 x.2 1 true
  if myEntries = [] then return
  if ← onNetwork (Network.changeRoutes env aEdgeRouterEndpoint myEntries) then return
  removeRouter aEdgeServerEndpoint

def privateRemoveComputer (aEdgeServerEndpoint : String) (aLambdas : List String) :
    Member EdgeControllerFlat Unit := do
  (← get).theRouters.toList.forM fun x => do
    if ← onNetwork (Network.removeRoutes env x.2 aEdgeServerEndpoint aLambdas) then return
    removeRouter x.1

def hooks : Hooks EdgeControllerFlat where
  addComputer _ _ := pure ()
  delComputer _ _ := pure ()
  addLambda _ := pure ()
  delLambda _ := pure ()
  privateAnnounceComputer := privateAnnounceComputer env
  privateAnnounceRouter := privateAnnounceRouter env
  privateRemoveComputer := privateRemoveComputer env

end Functions

/-- The calls that a controller serves. A router that starts announces itself with
empty tables. -/
inductive Call where
  | startRouter (aEdgeServerEndpoint aEdgeRouterEndpoint : String)
  | announceRouter (aEdgeServerEndpoint aEdgeRouterEndpoint : String)
  | computer (aCall : ComputerCall)
  deriving DecidableEq, Repr

/-- The table server at an end-point starts. -/
def startTables (aEdgeRouterEndpoint : String) (n : Network) : Network :=
  { n with tables := n.tables.insert aEdgeRouterEndpoint .new }

def serve (env : Environment) : Call → Member EdgeControllerFlat Unit
  | .startRouter e f => do
    modify fun s => withNetwork s (startTables f s.theDerived.theNetwork)
    EdgeController.announceRouter (hooks env) e f
  | .announceRouter e f => EdgeController.announceRouter (hooks env) e f
  | .computer x => x.serve (hooks env)

def step (env : Environment) (s : State) (aCall : Call) : State := Triple.after (serve env aCall) s

/-- The overall table of the router at an end-point. -/
def table (s : State) (f : String) : String × String → Option Bool := s.theDerived.theNetwork.flags f

/-- The final entries for all the lambdas that the computers have containers for. -/
def routes (m : ExtTreeMap String ContainerList) : String × String → Option Bool :=
  fun p => if p.1 ∈ offers m p.2 then some true else none

/-- The table of every registered router is exactly the routes of all computers. -/
def Uniform (s : State) : Prop :=
  ∀ e f : String, s.theRouters[e]? = some f → table s f = routes s.theComputers

end EdgeControllerFlat
end ServerlessEdge.Controller
