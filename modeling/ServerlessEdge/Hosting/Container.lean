import ServerlessEdge.Computer.EdgeComputerSim
import Mathlib.Data.Rat.Floor

/-! Containers, whose workers execute tasks on a processor. The containers on
one processor share its memory and its speed. -/
namespace ServerlessEdge.Hosting
open Std Library Messages
open ServerlessEdge.Computer (Lambda)

/-- Floating-point times and speeds, and what a processor computes with them. -/
class Speed (R : Type) extends Zero R, LT R where
  equivalentSpeed : R → Nat → Nat → R
  timeToOps : R → R → UInt64
  opsToTime : UInt64 → R → R
  negated : R → String

/-- Without rounding. -/
scoped instance : Speed ℚ where
  equivalentSpeed aSpeed aCores aRunning := min aCores aRunning * aSpeed / aRunning
  timeToOps aTime aSpeed := .ofNat ⌊1 / 2 + aTime * aSpeed⌋.toNat
  opsToTime aOps aSpeed := aOps.toNat / aSpeed
  negated aTime := toString (-aTime)

variable {R : Type}

structure Processor (R : Type) where
  theSpeed : R
  theCores : Nat
  theMemTotal : UInt64
  theMemUsed : UInt64
  theRunning : Nat

namespace Processor

def memAvailable (p : Processor R) : UInt64 := p.theMemTotal - p.theMemUsed

def allocate (p : Processor R) (aSize : UInt64) : Except String (Processor R) :=
  if aSize > p.memAvailable then
    throw ("Cannot allocate " ++ toString aSize ++ " bytes, " ++ toString p.memAvailable ++
      " bytes available")
  else return { p with theMemUsed := p.theMemUsed + aSize, theRunning := p.theRunning + 1 }

def free (p : Processor R) (aSize : UInt64) : Except String (Processor R) :=
  if aSize > p.theMemUsed then
    throw ("Cannot free " ++ toString aSize ++ " bytes, " ++ toString p.theMemUsed ++ " bytes used")
  else return { p with theMemUsed := p.theMemUsed - aSize, theRunning := p.theRunning - 1 }

def allocated (p : Processor R) (aSize : UInt64) : Processor R :=
  { p with theMemUsed := p.theMemUsed + aSize, theRunning := p.theRunning + 1 }

theorem allocate_of_le {p : Processor R} {aSize : UInt64} (h : ¬ p.memAvailable < aSize) :
    p.allocate aSize = .ok (p.allocated aSize) := if_neg h

variable [Speed R]

def equivalentSpeed (p : Processor R) : R :=
  Speed.equivalentSpeed p.theSpeed p.theCores p.theRunning

def opsToTime (p : Processor R) (aOps : UInt64) : R :=
  if p.theRunning = 0 then 0 else Speed.opsToTime aOps p.equivalentSpeed

def timeToOps (p : Processor R) (aTime : R) : UInt64 :=
  if p.theRunning = 0 then 0 else Speed.timeToOps aTime p.equivalentSpeed

end Processor

structure LambdaRequirements where
  theOperations : UInt64
  theMemory : UInt64

def fixedRequirements (aOperations aMemory : UInt64) : Processor R → LambdaRequest → LambdaRequirements :=
  fun _ _ => ⟨aOperations, aMemory⟩

/-- A function with what its execution requires. -/
structure HostedLambda (R : Type) extends Lambda where
  theName : String
  theConverter : Processor R → LambdaRequest → LambdaRequirements

structure Task where
  theId : UInt64
  theMemory : UInt64
  theResidualOps : UInt64
  theResp : Rpc.LambdaResponse
  deriving DecidableEq

/-- Arithmetic on numbers of operations. It may fail where the result wraps. -/
structure Arithmetic where
  add : UInt64 → UInt64 → Except String UInt64
  sub : UInt64 → UInt64 → Except String UInt64
  add_ok {a b : UInt64} : a.toNat + b.toNat < 2 ^ 64 → add a b = .ok (a + b)
  sub_ok {a b : UInt64} : b ≤ a → sub a b = .ok (a - b)

namespace Arithmetic

/-- The arithmetic of the machine. -/
def wrapping : Arithmetic where
  add a b := .ok (a + b)
  sub a b := .ok (a - b)
  add_ok _ := rfl
  sub_ok _ := rfl

/-- Arithmetic that reports every result that wraps. -/
def checked : Arithmetic where
  add a b := if a.toNat + b.toNat < 2 ^ 64 then .ok (a + b) else .error "addition wraps"
  sub a b := if b ≤ a then .ok (a - b) else .error "subtraction wraps"
  add_ok h := if_pos h
  sub_ok h := if_pos h

end Arithmetic

/-- The container names the processor that hosts it. The residual operations of
an active task are counted from those of the task before it. -/
structure Container (R : Type) where
  theName : String
  theProcessor : String
  theLambda : HostedLambda R
  theNumWorkers : Nat
  theActive : List Task
  thePending : List Task

namespace Container

def new (aName aProcessor : String) (aLambda : HostedLambda R) (aNumWorkers : Nat) :
    Except String (Container R) :=
  if aNumWorkers = 0 then throw ("Zero workers used for container " ++ aName)
  else return ⟨aName, aProcessor, aLambda, aNumWorkers, [], []⟩

def requirements (c : Container R) (p : Processor R) (aReq : LambdaRequest) :
    Except String LambdaRequirements :=
  let myRequirements := c.theLambda.theConverter p aReq
  if myRequirements.theMemory > p.theMemTotal then
    throw ("Container " ++ c.theName ++ " cannot handle request " ++ aReq.theName ++
      " since the memory requirements exceed the total available in the processor: " ++
      toString p.theMemTotal ++ " <= " ++ toString myRequirements.theMemory)
  else return myRequirements

section Arithmetic

variable (A : Arithmetic)

/-- Puts a task in its place, with mySum operations of the tasks before it. -/
def makeActive (aTask : Task) (mySum : UInt64) : List Task → Except String (List Task)
  | [] => do return [{ aTask with theResidualOps := ← A.sub aTask.theResidualOps mySum }]
  | myIt :: theActive => do
    let myNext ← A.add mySum myIt.theResidualOps
    if myNext > aTask.theResidualOps then
      let myResidual ← A.sub aTask.theResidualOps mySum
      let myPatched ← A.sub myIt.theResidualOps myResidual
      return { aTask with theResidualOps := myResidual } ::
        { myIt with theResidualOps := myPatched } :: theActive
    else return myIt :: (← makeActive aTask myNext theActive)

def push (p : Processor R) (c : Container R) (aReq : LambdaRequest) (aId : UInt64) :
    Except String (Processor R × Container R) := do
  let myRequirements ← c.requirements p aReq
  let myTask : Task :=
    ⟨aId, myRequirements.theMemory, myRequirements.theOperations, c.theLambda.execute aReq⟩
  if c.theActive.length = c.theNumWorkers ∨ p.memAvailable < myRequirements.theMemory then
    return (p, { c with thePending := c.thePending ++ [myTask] })
  else
    let myProcessor ← p.allocate myRequirements.theMemory
    return (myProcessor, { c with theActive := ← makeActive A myTask 0 c.theActive })

/-- The loop over the pending tasks at the end of pop. -/
def promote (aNumWorkers : Nat) : Processor R → List Task → List Task →
    Except String (Processor R × List Task × List Task)
  | p, theActive, [] => return (p, theActive, [])
  | p, theActive, myIt :: thePending =>
    if theActive.length = aNumWorkers ∨ p.memAvailable < myIt.theMemory then
      return (p, theActive, myIt :: thePending)
    else do
      let myProcessor ← p.allocate myIt.theMemory
      promote aNumWorkers myProcessor (← makeActive A myIt 0 theActive) thePending

/-- The first active task is gone also when its memory cannot be freed. -/
def pop (p : Processor R) (c : Container R) : Except String Task × Processor R × Container R :=
  match c.theActive with
  | [] => (throw "No active tasks", p, c)
  | myRet :: theActive =>
    match p.free myRet.theMemory with
    | .error e => (throw e, p, { c with theActive := theActive })
    | .ok myProcessor =>
      match promote A c.theNumWorkers myProcessor theActive c.thePending with
      | .error e => (throw e, myProcessor, { c with theActive := theActive })
      | .ok (q, active, pending) =>
        (return myRet, q, { c with theActive := active, thePending := pending })

variable [Speed R]

def advance [DecidableLT R] (p : Processor R) (c : Container R) (aElapsed : R) : Except String (Container R) :=
  if aElapsed < 0 then
    throw ("cannot advance a container in the past by " ++ Speed.negated aElapsed ++ " s")
  else match c.theActive with
    | [] => return c
    | myFront :: theActive => do
      let myActualOperations := min myFront.theResidualOps (p.timeToOps aElapsed)
      if myActualOperations = 0 then return c
      else
        let myResidual ← A.sub myFront.theResidualOps myActualOperations
        return { c with theActive := { myFront with theResidualOps := myResidual } :: theActive }

end Arithmetic

def nearest [Speed R] (p : Processor R) (c : Container R) : Except String R :=
  match c.theActive with
  | [] => throw "No active tasks"
  | myFront :: _ => return p.opsToTime myFront.theResidualOps

end Container

end ServerlessEdge.Hosting
