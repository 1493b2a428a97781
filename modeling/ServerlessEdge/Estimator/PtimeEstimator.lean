import ServerlessEdge.Library.Runs
import ServerlessEdge.Library.Triple
import ServerlessEdge.Estimator.Estimators
import ServerlessEdge.Messages.LambdaRequest

/-! The estimators of processing times, which are the forwarding tables of a
dispatcher: a base class with the table of destinations, and derived classes with
estimators that follow it. -/
namespace ServerlessEdge.Estimator
open Std Library Rows Triple

/-- A response with the times and the loads reported by the computer. -/
structure LambdaResponse extends Rpc.LambdaResponse where
  ptime : Nat := 0
  load1 : Nat := 0
  load10 : Nat := 0
  load30 : Nat := 0
  deriving DecidableEq

def LambdaResponse.processingTimeSeconds (r : LambdaResponse) : ℚ := r.ptime / 1000

structure Estimates where
  theRtt : ℚ
  thePtime : ℚ
  deriving DecidableEq

/-- The state of the base class, and below it that of the derived one. -/
structure PtimeEstimator (D : Type) where
  theLambdas : ExtTreeSet String
  theTable : ExtTreeMap String (ExtTreeMap String (ℚ × Bool))
  /-- The key is the address of the request. -/
  theEstimates : ExtTreeMap Nat Estimates
  theDerived : D

/-- What the estimators do not decide: their clocks, and the answers to the
simulated requests of the probing one. -/
structure Readings where
  clocks : Clocks
  probe : String → Except String LambdaResponse

/-- What a derived class overrides. -/
class Derived (D : Type) where
  privateAdd : String → String → D → D
  privateRemove : String → String → D → D
  /-- The destination for a request, with the estimates to be kept. -/
  choose : Readings → Rpc.LambdaRequest → EStateM String D (String × Estimates)
  /-- The use made of a response. -/
  learn : Readings → Rpc.LambdaRequest → String → LambdaResponse → ℚ → EStateM String D Unit

/-- What an estimator that is a part of the state returns. -/
def ofExcept {D A : Type} : Except String A → EStateM String D A
  | .ok a => pure a
  | .error err => throw err

/-- The size of a request. -/
def size (aReq : Rpc.LambdaRequest) : Nat := max aReq.datain.utf8ByteSize aReq.input.utf8ByteSize

namespace PtimeEstimator

variable {D : Type} [Derived D]

def new (aDerived : D) : PtimeEstimator D := ⟨∅, ∅, ∅, aDerived⟩

/-- Add a destination; the weight is not used, and the flag of a destination that
is there already is not changed. -/
def change (aLambda aDest : String) (_aWeight : ℚ) (aFinal : Bool) (e : PtimeEstimator D) :
    PtimeEstimator D :=
  match e.theTable[aLambda]? with
  | none =>
    { e with
      theTable := e.theTable.insert aLambda ((∅ : ExtTreeMap _ (ℚ × Bool)).insert aDest (1, aFinal))
      theLambdas := e.theLambdas.insert aLambda
      theDerived := Derived.privateAdd aLambda aDest e.theDerived }
  | some r =>
    if aDest ∈ r then e
    else { e with
      theTable := e.theTable.insert aLambda (r.insert aDest (1, aFinal))
      theDerived := Derived.privateAdd aLambda aDest e.theDerived }

/-- Weights cannot be changed. -/
def changeWeight (_aLambda _aDest : String) (_aWeight : ℚ) (e : PtimeEstimator D) :
    PtimeEstimator D := e

def internalRemove (aLambda aDest : String) (e : PtimeEstimator D) : PtimeEstimator D :=
  match e.theTable[aLambda]? with
  | none => e
  | some r =>
    let myDerived := if aDest ∈ r then Derived.privateRemove aLambda aDest e.theDerived
      else e.theDerived
    if (r.erase aDest).isEmpty then
      { e with
        theTable := e.theTable.erase aLambda
        theLambdas := e.theLambdas.erase aLambda
        theDerived := myDerived }
    else { e with
      theTable := e.theTable.insert aLambda (r.erase aDest)
      theDerived := myDerived }

def remove (aLambda aDest : String) (e : PtimeEstimator D) : PtimeEstimator D :=
  internalRemove aLambda aDest e

def removeLambda (aLambda : String) (e : PtimeEstimator D) : PtimeEstimator D :=
  { e with
    theTable := e.theTable.erase aLambda
    theLambdas := e.theLambdas.erase aLambda
    theDerived := (e.theTable.getD aLambda ∅).keys.foldl
      (fun d x => Derived.privateRemove aLambda x d) e.theDerived }

def processFailure (aKey : Nat) (aReq : Rpc.LambdaRequest) (aDestination : String)
    (e : PtimeEstimator D) : PtimeEstimator D :=
  internalRemove aReq.name aDestination { e with theEstimates := e.theEstimates.erase aKey }

/-- The destination of a request, whose estimates become pending. -/
def operator (aReadings : Readings) (aKey : Nat) (aReq : Rpc.LambdaRequest) :
    EStateM String (PtimeEstimator D) String := fun e =>
  match Derived.choose aReadings aReq e.theDerived with
  | .error err d => .error err { e with theDerived := d }
  | .ok (myDestination, myEstimates) d => .ok myDestination
    { e with theEstimates := e.theEstimates.insertIfNew aKey myEstimates, theDerived := d }

def processSuccess (aReadings : Readings) (aKey : Nat) (aReq : Rpc.LambdaRequest)
    (aDestination : String) (aRep : LambdaResponse) (aTime : ℚ) :
    EStateM String (PtimeEstimator D) Unit := fun e =>
  let myEstimates := e.theEstimates.erase aKey
  match Derived.learn aReadings aReq aDestination aRep aTime e.theDerived with
  | .error err d => .error err { e with theEstimates := myEstimates, theDerived := d }
  | .ok _ d => .ok () { e with theEstimates := myEstimates, theDerived := d }

def lambdas (e : PtimeEstimator D) : ExtTreeSet String := e.theLambdas

end PtimeEstimator

variable {E : Type} [LinearEstimator E]

/-- Shortest round-trip time. -/
structure PtimeEstimatorRtt (E : Type) where
  theRttEstimator : RttEstimator E

namespace PtimeEstimatorRtt

def new (aWindowSize : Nat) (aStalePeriod : ℚ) : PtimeEstimatorRtt E :=
  ⟨.new aWindowSize aStalePeriod⟩

instance : Derived (PtimeEstimatorRtt E) where
  privateAdd l d e := ⟨e.theRttEstimator.add l d⟩
  privateRemove l d e := ⟨e.theRttEstimator.remove l d⟩
  choose aReadings aReq := do
    let (myBest, r) ← ofExcept
      ((← get).theRttEstimator.shortestRtt aReadings.clocks aReq.name (size aReq))
    set (PtimeEstimatorRtt.mk r)
    return (myBest.1, ⟨myBest.2, 0⟩)
  learn aReadings aReq aDestination aRep aTime := do
    let r ← ofExcept ((← get).theRttEstimator.addRtt aReadings.clocks aReq.name aDestination
      (size aReq) (aTime - aRep.processingTimeSeconds))
    set (PtimeEstimatorRtt.mk r)

end PtimeEstimatorRtt

/-- Least sum of round-trip and processing time. -/
structure PtimeEstimatorUtil (E : Type) where
  theRttEstimator : RttEstimator E
  theUtilEstimator : UtilEstimator E

namespace PtimeEstimatorUtil

def new (aRttWindowSize : Nat) (aRttStalePeriod aUtilLoadTimeout : ℚ) (aUtilWindowSize : Nat) :
    PtimeEstimatorUtil E :=
  ⟨.new aRttWindowSize aRttStalePeriod, .new aUtilLoadTimeout aUtilWindowSize⟩

instance : Derived (PtimeEstimatorUtil E) where
  privateAdd l d e := ⟨e.theRttEstimator.add l d, e.theUtilEstimator.add l d⟩
  privateRemove l d e := ⟨e.theRttEstimator.remove l d, e.theUtilEstimator.remove l d⟩
  choose aReadings aReq := do
    let (myRtts, r) ← ofExcept
      ((← get).theRttEstimator.rtts aReadings.clocks aReq.name (size aReq))
    modify fun e => { e with theRttEstimator := r }
    let (myBest, u) ← ofExcept
      ((← get).theUtilEstimator.best aReadings.clocks aReq.name (size aReq) myRtts)
    modify fun e => { e with theUtilEstimator := u }
    return (myBest.1, ⟨myBest.2.1, myBest.2.2⟩)
  learn aReadings aReq aDestination aRep aTime := do
    let u ← ofExcept ((← get).theUtilEstimator.addPtime aReadings.clocks aReq.name aDestination
      (size aReq) aRep.processingTimeSeconds aRep.load1)
    modify fun e => { e with theUtilEstimator := u }
    let r ← ofExcept ((← get).theRttEstimator.addRtt aReadings.clocks aReq.name aDestination
      (size aReq) (aTime - aRep.processingTimeSeconds))
    modify fun e => { e with theRttEstimator := r }

end PtimeEstimatorUtil

/-- Smallest overall time, seen as a processing time. -/
structure PtimeEstimatorDelay (E : Type) where
  theUtilEstimator : UtilEstimator E

namespace PtimeEstimatorDelay

def new (aUtilLoadTimeout : ℚ) (aUtilWindowSize : Nat) : PtimeEstimatorDelay E :=
  ⟨.new aUtilLoadTimeout aUtilWindowSize⟩

instance : Derived (PtimeEstimatorDelay E) where
  privateAdd l d e := ⟨e.theUtilEstimator.add l d⟩
  privateRemove l d e := ⟨e.theUtilEstimator.remove l d⟩
  choose aReadings aReq := do
    let (myBest, u) ← ofExcept
      ((← get).theUtilEstimator.smallestPtime aReadings.clocks aReq.name (size aReq))
    set (PtimeEstimatorDelay.mk u)
    return (myBest.1, ⟨0, myBest.2⟩)
  learn aReadings aReq aDestination aRep aTime := do
    let u ← ofExcept ((← get).theUtilEstimator.addPtime aReadings.clocks aReq.name aDestination
      (size aReq) aTime aRep.load1)
    set (PtimeEstimatorDelay.mk u)

end PtimeEstimatorDelay

/-- Polling of all destinations; the descriptors are empty. -/
structure PtimeEstimatorProbe where
  theDestinations : DestinationTable Unit

namespace PtimeEstimatorProbe

def new : PtimeEstimatorProbe := ⟨.new fun _ _ => ()⟩

/-- The largest value of an unsigned int. -/
def maxPtime : Nat := 2 ^ 32 - 1

/-- The destination with the least simulated processing time among those that
answer OK. -/
def poll (aReadings : Readings) : List String → String × Nat → Except String (String × Nat)
  | [], b => return b
  | d :: ds, b => do
    let ret ← aReadings.probe d
    if ret.retcode = "OK" ∧ ret.ptime < b.2 then poll aReadings ds (d, ret.ptime)
    else poll aReadings ds b

instance : Derived PtimeEstimatorProbe where
  privateAdd l d e := ⟨(e.theDestinations.add l d).2⟩
  -- the destination is added again
  privateRemove l d e := ⟨(e.theDestinations.add l d).2⟩
  choose aReadings aReq := do
    let (myAll, t, _) ← ofExcept
      ((← get).theDestinations.all aReq.name (fun x (_ : Unit) => ((0, x), ())) ())
    set (PtimeEstimatorProbe.mk t)
    let myBest ← ofExcept (poll aReadings (myAll.map Prod.fst) ("", maxPtime))
    return (myBest.1, ⟨0, myBest.2⟩)
  learn _ _ _ _ _ := return

end PtimeEstimatorProbe

namespace PtimeEstimator

/-- The calls that an estimator serves. -/
inductive Call where
  | change (aLambda aDest : String) (aWeight : ℚ) (aFinal : Bool)
  | changeWeight (aLambda aDest : String) (aWeight : ℚ)
  | remove (aLambda aDest : String)
  | removeLambda (aLambda : String)
  | operator (aReadings : Readings) (aKey : Nat) (aReq : Rpc.LambdaRequest)
  | processSuccess (aReadings : Readings) (aKey : Nat) (aReq : Rpc.LambdaRequest)
    (aDestination : String) (aRep : LambdaResponse) (aTime : ℚ)
  | processFailure (aKey : Nat) (aReq : Rpc.LambdaRequest) (aDestination : String)

variable {D : Type} [Derived D]

/-- The estimator after a call, whether it returns or throws. -/
def step (e : PtimeEstimator D) : Call → PtimeEstimator D
  | .change l d w f => change l d w f e
  | .changeWeight l d w => changeWeight l d w e
  | .remove l d => remove l d e
  | .removeLambda l => removeLambda l e
  | .operator r k q => after (operator r k q) e
  | .processSuccess r k q d p t => after (processSuccess r k q d p t) e
  | .processFailure k q d => processFailure k q d e

end PtimeEstimator
end ServerlessEdge.Estimator
