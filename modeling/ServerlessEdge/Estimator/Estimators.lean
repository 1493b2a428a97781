import ServerlessEdge.Estimator.DestinationTable
import Std.Data.ExtTreeSet.Lemmas

/-! The estimators of round-trip and processing times. The regression that both
rest on is part of the support library, and so are the clocks. -/
namespace ServerlessEdge.Estimator
open Std Library Rows

/-- The linear estimator of the support library: a window of samples, some of
which may be purged when it is used. -/
class LinearEstimator (E : Type) where
  new : (aWindowSize : Nat) → (aStalePeriod : ℚ) → E
  add : E → (aNow : ℚ) → Nat → ℚ → E
  extrapolate : E → (aNow : ℚ) → Nat → ℚ × E

/-- What the clocks read when each destination is looked at. -/
abbrev Clocks := String → ℚ

variable {E : Type} [LinearEstimator E]

section Rtt

/-- The descriptor of a destination, which knows its name here. -/
structure RttEstimator.Descriptor (E : Type) where
  theDestination : String
  theEstimator : E

structure RttEstimator (E : Type) where
  theTable : DestinationTable (RttEstimator.Descriptor E)

namespace RttEstimator

def new (aWindowSize : Nat) (aStalePeriod : ℚ) : RttEstimator E :=
  ⟨.new fun _ d => ⟨d, LinearEstimator.new aWindowSize aStalePeriod⟩⟩

/-- The estimate, never negative. -/
def Descriptor.rtt (aClocks : Clocks) (aInputSize : Nat) (x : Descriptor E) : ℚ × Descriptor E :=
  let myRet := LinearEstimator.extrapolate x.theEstimator (aClocks x.theDestination) aInputSize
  (max 0 myRet.1, { x with theEstimator := myRet.2 })

def rtts (e : RttEstimator E) (aClocks : Clocks) (aLambda : String) (aInputSize : Nat) :
    Except String (List (String × ℚ) × RttEstimator E) := do
  let (myValues, t, _) ← e.theTable.all aLambda
    (fun x (_ : Unit) => (x.rtt aClocks aInputSize, ())) ()
  return (myValues, ⟨t⟩)

def shortestRtt (e : RttEstimator E) (aClocks : Clocks) (aLambda : String) (aInputSize : Nat) :
    Except String ((String × ℚ) × RttEstimator E) := do
  let (myBest, t, _) ← e.theTable.best aLambda (fun x (_ : Unit) =>
    ((-(x.rtt aClocks aInputSize).1, (x.rtt aClocks aInputSize).2), ())) ()
  return ((myBest.1, -myBest.2), ⟨t⟩)

/-- Add a measurement. -/
def addRtt (e : RttEstimator E) (aClocks : Clocks) (aLambda aDestination : String)
    (aInputSize : Nat) (aRtt : ℚ) : Except String (RttEstimator E) := do
  let t ← e.theTable.update aLambda aDestination fun x =>
    { x with theEstimator := LinearEstimator.add x.theEstimator (aClocks aDestination) aInputSize aRtt }
  return ⟨t⟩

def add (e : RttEstimator E) (aLambda aDestination : String) : RttEstimator E :=
  ⟨(e.theTable.add aLambda aDestination).2⟩

def remove (e : RttEstimator E) (aLambda aDestination : String) : RttEstimator E :=
  ⟨(e.theTable.remove aLambda aDestination).2⟩

end RttEstimator

end Rtt

section Util

/-- A lambda on a computer: one linear estimator for each input size. -/
structure UtilEstimator.LambdaDescriptor (E : Type) where
  theDestination : String
  theEstimators : ExtTreeMap Nat E

structure UtilEstimator.ComputerDescriptor where
  /-- All known lambdas that can be served by this computer. -/
  theLambdas : ExtTreeSet String
  theLastMeas : ℚ
  theLastLoad1 : Nat

structure UtilEstimator (E : Type) where
  theLoadTimeout : ℚ
  theWindowSize : Nat
  theComputers : ExtTreeMap String UtilEstimator.ComputerDescriptor
  theTable : DestinationTable (UtilEstimator.LambdaDescriptor E)

namespace UtilEstimator

def new (aLoadTimeout : ℚ) (aUtilWindowSize : Nat) : UtilEstimator E :=
  ⟨aLoadTimeout, aUtilWindowSize, ∅, .new fun _ d => ⟨d, ∅⟩⟩

/-- The last load, reset to 0 when it is stale. -/
def ComputerDescriptor.lastLoad (aLoadTimeout aNow : ℚ) (c : ComputerDescriptor) :
    Nat × ComputerDescriptor :=
  if aLoadTimeout ≤ aNow - c.theLastMeas then (0, { c with theLastLoad1 := 0, theLastMeas := aNow })
  else (c.theLastLoad1, c)

def ComputerDescriptor.addLoad (aNow : ℚ) (aLoad1 : Nat) (c : ComputerDescriptor) :
    ComputerDescriptor := { c with theLastMeas := aNow, theLastLoad1 := min 99 aLoad1 }

/-- The estimate for an input size, at the last load of the computer. -/
def LambdaDescriptor.ptime (aLoadTimeout : ℚ) (aClocks : Clocks) (aInputSize : Nat) :
    ObjFunc (ExtTreeMap String ComputerDescriptor) (LambdaDescriptor E) := fun x cs =>
  match cs[x.theDestination]? with
  | none => ((0, x), cs)
  | some c =>
    let myLoad := c.lastLoad aLoadTimeout (aClocks x.theDestination)
    let myComputers := cs.insert x.theDestination myLoad.2
    match x.theEstimators[aInputSize]? with
    | none => ((0, x), myComputers)
    | some e =>
      let myRet := LinearEstimator.extrapolate e (aClocks x.theDestination) myLoad.1
      ((myRet.1, { x with theEstimators := x.theEstimators.insert aInputSize myRet.2 }), myComputers)

def LambdaDescriptor.addPtime (aWindowSize : Nat) (aClocks : Clocks) (aInputSize : Nat) (aPtime : ℚ)
    (aLoad : Nat) (x : LambdaDescriptor E) : LambdaDescriptor E :=
  let e := x.theEstimators.getD aInputSize (LinearEstimator.new aWindowSize (-1))
  let myNew := LinearEstimator.add e (aClocks x.theDestination) aLoad aPtime
  { x with theEstimators := x.theEstimators.insert aInputSize myNew }

/-- The pair of estimates with the least sum, the two lists being read together. -/
def leastTime (aRtts aPtimes : List (String × ℚ)) : String × ℚ × ℚ :=
  ((aRtts.zip aPtimes).foldl (fun (b : (String × ℚ × ℚ) × ℚ) x =>
    if x.1.2 + x.2.2 < b.2 then ((x.1.1, x.1.2, x.2.2), x.1.2 + x.2.2) else b)
    (("", 0, 0), largest)).1

def best (u : UtilEstimator E) (aClocks : Clocks) (aLambda : String) (aInputSize : Nat)
    (aRtts : List (String × ℚ)) : Except String ((String × ℚ × ℚ) × UtilEstimator E) := do
  let (myPtimes, t, cs) ← u.theTable.all aLambda
    (LambdaDescriptor.ptime u.theLoadTimeout aClocks aInputSize) u.theComputers
  return (leastTime aRtts myPtimes, { u with theComputers := cs, theTable := t })

def smallestPtime (u : UtilEstimator E) (aClocks : Clocks) (aLambda : String) (aInputSize : Nat) :
    Except String ((String × ℚ) × UtilEstimator E) := do
  let (myBest, t, cs) ← u.theTable.best aLambda (fun x cs =>
    let myRet := LambdaDescriptor.ptime u.theLoadTimeout aClocks aInputSize x cs
    ((-myRet.1.1, myRet.1.2), myRet.2)) u.theComputers
  return ((myBest.1, -myBest.2), { u with theComputers := cs, theTable := t })

/-- Add a measurement. -/
def addPtime (u : UtilEstimator E) (aClocks : Clocks) (aLambda aDestination : String)
    (aInputSize : Nat) (aPtime : ℚ) (aLoad1 : Nat) : Except String (UtilEstimator E) := do
  let t ← u.theTable.update aLambda aDestination
    (LambdaDescriptor.addPtime u.theWindowSize aClocks aInputSize aPtime aLoad1)
  return { u with
    theTable := t
    theComputers := u.theComputers.modify aDestination
      (ComputerDescriptor.addLoad (aClocks aDestination) aLoad1) }

def add (u : UtilEstimator E) (aLambda aDestination : String) : UtilEstimator E :=
  let c := u.theComputers.getD aDestination ⟨∅, 0, 0⟩
  { u with
    theComputers := u.theComputers.insert aDestination
      { c with theLambdas := c.theLambdas.insert aLambda }
    theTable := (u.theTable.add aLambda aDestination).2 }

def remove (u : UtilEstimator E) (aLambda aDestination : String) : UtilEstimator E :=
  { u with
    theComputers := match u.theComputers[aDestination]? with
      | none => u.theComputers
      | some c =>
        let myLeft := c.theLambdas.erase aLambda
        if myLeft.isEmpty then u.theComputers.erase aDestination
        else u.theComputers.insert aDestination { c with theLambdas := myLeft }
    theTable := (u.theTable.remove aLambda aDestination).2 }

end UtilEstimator

end Util

end ServerlessEdge.Estimator
