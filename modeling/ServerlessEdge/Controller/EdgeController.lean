import Std.Data.ExtTreeMap.Lemmas
import Std.Data.ExtTreeSet.Lemmas

/-! The registries kept by every edge controller, and the operations that keep
them and call the hooks of the derived class. An exception leaves the state as
it was when it was thrown. -/
namespace ServerlessEdge.Controller
open Std

structure Container where
  theName : String
  theProcessor : String
  theLambda : String
  theNumWorkers : UInt32
  deriving DecidableEq, Repr

structure ContainerList where
  theContainers : List Container
  deriving DecidableEq, Repr

/-- The lambdas of the containers, in their order and with repetitions. -/
def ContainerList.lambdas (aContainers : ContainerList) : List String :=
  aContainers.theContainers.map Container.theLambda

/-- The state of the base class, and below it that of the derived one. -/
structure EdgeController (D : Type) where
  theComputers : ExtTreeMap String ContainerList
  /-- Lambda processor end-point to forwarding table end-point. -/
  theRouters : ExtTreeMap String String
  theLambdas : ExtTreeMap String (ExtTreeSet String)
  theDerived : D

/-- A member function of a controller. -/
abbrev Member (D : Type) (A : Type) := EStateM String (EdgeController D) A

namespace EdgeController

variable {D : Type}

/-- The virtual functions that a derived class overrides. -/
structure Hooks (D : Type) where
  addComputer : String → List String → Member D Unit
  delComputer : String → List String → Member D Unit
  addLambda : String → Member D Unit
  delLambda : String → Member D Unit
  privateAnnounceComputer : String → ContainerList → Member D Unit
  privateAnnounceRouter : String → String → Member D Unit
  privateRemoveComputer : String → List String → Member D Unit

inductive AddStatus where
  | AlreadyPresent
  | NotPresent
  | ContainersChanged
  deriving DecidableEq, Repr

/-- Add a computer unless its end-point is known. -/
def addToComputers (aEdgeServerEndpoint : String) (aContainers : ContainerList) :
    Member D AddStatus := do
  match (← get).theComputers[aEdgeServerEndpoint]? with
  | some myContainers =>
    return if myContainers = aContainers then .AlreadyPresent else .ContainersChanged
  | none =>
    modify fun s =>
      { s with theComputers := s.theComputers.insert aEdgeServerEndpoint aContainers }
    return .NotPresent

/-- Remove a computer and return the lambdas that it offered. -/
def removeFromComputers (aEdgeServerEndpoint : String) : Member D (List String) := do
  match (← get).theComputers[aEdgeServerEndpoint]? with
  | some myContainers =>
    modify fun s => { s with theComputers := s.theComputers.erase aEdgeServerEndpoint }
    return myContainers.lambdas
  | none => return []

/-- The forwarding server end-point or an empty string if unlisted. -/
def forwardingServerEndpoint (s : EdgeController D) (aEdgeServerEndpoint : String) : String :=
  s.theRouters.getD aEdgeServerEndpoint ""

/-- The computers serving a lambda. -/
def served (s : EdgeController D) (aLambda : String) : ExtTreeSet String :=
  s.theLambdas.getD aLambda ∅

def setServed (s : EdgeController D) (aLambda : String) (aComputers : ExtTreeSet String) :
    EdgeController D :=
  { s with theLambdas := s.theLambdas.insert aLambda aComputers }

/-- Mark that a lambda is served by a computer; the row of the lambda is there
when the derived class hears of it. -/
def markServed (h : Hooks D) (aEdgeServerEndpoint aLambda : String) : Member D Unit := do
  modify fun s => s.setServed aLambda (s.served aLambda)
  if ((← get).served aLambda).isEmpty then h.addLambda aLambda
  modify fun s => s.setServed aLambda ((s.served aLambda).insert aEdgeServerEndpoint)

/-- Undo markServed; a lambda left without computers is forgotten. -/
def unmarkServed (h : Hooks D) (aEdgeServerEndpoint aLambda : String) : Member D Unit := do
  match (← get).theLambdas[aLambda]? with
  | none => return
  | some myComputers =>
    let myLeft := myComputers.erase aEdgeServerEndpoint
    if myLeft.isEmpty then do
      modify fun s => { s with theLambdas := s.theLambdas.erase aLambda }
      h.delLambda aLambda
    else
      modify fun s => s.setServed aLambda myLeft

def removeComputer (h : Hooks D) (aEdgeServerEndpoint : String) : Member D Unit := do
  let myLambdas ← removeFromComputers aEdgeServerEndpoint
  myLambdas.forM (unmarkServed h aEdgeServerEndpoint)
  h.delComputer aEdgeServerEndpoint myLambdas
  h.privateRemoveComputer aEdgeServerEndpoint myLambdas

/-- The part of announceComputer that follows the update of theComputers. -/
def notifyComputer (h : Hooks D) (aEdgeServerEndpoint : String) (aContainers : ContainerList) :
    Member D Unit := do
  aContainers.lambdas.forM (markServed h aEdgeServerEndpoint)
  h.addComputer aEdgeServerEndpoint aContainers.lambdas
  h.privateAnnounceComputer aEdgeServerEndpoint aContainers

def announceComputer (h : Hooks D) (aEdgeServerEndpoint : String) (aContainers : ContainerList) :
    Member D Unit := do
  match ← addToComputers aEdgeServerEndpoint aContainers with
  | .AlreadyPresent => return
  | .NotPresent => notifyComputer h aEdgeServerEndpoint aContainers
  | .ContainersChanged =>
    -- the old computer is removed before its new containers are added
    removeComputer h aEdgeServerEndpoint
    let _ ← addToComputers aEdgeServerEndpoint aContainers
    notifyComputer h aEdgeServerEndpoint aContainers

def announceRouter (h : Hooks D) (aEdgeServerEndpoint aEdgeRouterEndpoint : String) :
    Member D Unit := do
  modify fun s =>
    { s with theRouters := s.theRouters.insert aEdgeServerEndpoint aEdgeRouterEndpoint }
  h.privateAnnounceRouter aEdgeServerEndpoint aEdgeRouterEndpoint

end EdgeController
end ServerlessEdge.Controller
