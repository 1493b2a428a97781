import Mathlib.Algebra.Order.Floor.Ring
import Mathlib.Data.Rat.Floor
import ServerlessEdge.LambdaMuSim.Mcfp

/-! The scenario of a simulation: apps that connect to brokers and are served by
containers of the edge nodes and of the cloud, mu apps each by a container of
its own and lambda apps by the containers that are left. -/
namespace ServerlessEdge.LambdaMuSim
open Library

inductive MuAlgorithm where
  | Random | Greedy | Hungarian
  deriving DecidableEq, Repr

inductive LambdaAlgorithm where
  | Random | Greedy | Mcfp
  deriving DecidableEq, Repr

/-- The type of an app. -/
inductive AppType where
  | Lambda | Mu
  deriving DecidableEq, Repr

/-- The parameters of an app, as an app model draws them. -/
structure AppParams where
  theServiceRate : ℤ := 1
  theExchangeSize : ℤ := 1
  theStorageSize : ℤ := 1
  deriving DecidableEq, Repr

/-- What the simulator takes from elsewhere: the solvers of assignment problems
(a column for each row, none where the row gets no column), the flow library, a
conversion to long that is out of range and the text of a number. -/
structure Env where
  SolveRandom : {m k : ℕ} → (Fin m → Fin k → ℚ) → (ℕ → ℚ) → ℚ × (Fin m → Option (Fin k))
  SolveGreedy : {m k : ℕ} → (Fin m → Fin k → ℚ) → ℚ × (Fin m → Option (Fin k))
  Solve : {m k : ℕ} → (Fin m → Fin k → ℚ) → ℚ × (Fin m → Option (Fin k))
  flow : Mcfp.FlowSolver
  outOfRange : ℤ
  to_string : ℚ → String

structure PerformanceData where
  theNumContainers : ℕ := 0
  theTotCapacity : ℤ := 0
  theNumLambda : ℚ := 0
  theNumMu : ℚ := 0
  theLambdaCost : ℚ := 0
  theLambdaServiceCloud : ℚ := 0
  theMuCost : ℚ := 0
  theMuCloud : ℚ := 0
  theMuServiceCloud : ℚ := 0
  theMuMigrations : ℕ := 0
  theNumOptimizations : ℕ := 0
  deriving DecidableEq

/-- An app: its edge is meaningful for mu apps, its weights for lambda apps. -/
structure Scenario.App (B E : ℕ) where
  theBroker : Fin B
  theType : AppType
  theServiceRate : ℤ
  theExchangeSize : ℤ
  theStorageSize : ℤ
  theEdge : Fin (E + 1) := 0
  theWeights : List (Fin (E + 1) × ℚ) := []
  deriving DecidableEq

structure Scenario.Edge (A : ℕ) where
  theNumContainers : ℕ
  theContainerCapacity : ℤ
  theMuApps : List (Fin A) := []
  deriving DecidableEq

/-- A scenario with B brokers, E edge nodes besides the cloud, and A apps. -/
structure Scenario (B E A : ℕ) where
  theCloudStorageCostLocal : ℚ
  theCloudStorageCostRemote : ℚ
  theMuAlgorithm : MuAlgorithm
  theLambdaAlgorithm : LambdaAlgorithm
  theApps : Fin A → Scenario.App B E
  theEdges : Fin (E + 1) → Scenario.Edge A
  networkCost : Fin B → Fin (E + 1) → ℚ

namespace Scenario

variable {B E A : ℕ}

/-- The cloud is the first one of the edges. -/
def CLOUD : Fin (E + 1) := 0

/-- The apps of a type, in order. -/
def appsOf (s : Scenario B E A) (t : AppType) : List (Fin A) :=
  (List.finRange A).filter fun a => (s.theApps a).theType = t

/-- The containers of an edge that mu apps may use. -/
def usableMuContainers (s : Scenario B E A) (aAlpha : ℚ) (e : Fin (E + 1)) : ℕ :=
  if e = CLOUD then (s.theEdges e).theNumContainers
  else ⌊(s.theEdges e).theNumContainers * aAlpha⌋₊

/-- The cost of a mu app in the assignment problem, at a container of an edge. -/
def muApCost (s : Scenario B E A) (a : Fin A) (e : Fin (E + 1)) : ℚ :=
  (s.theApps a).theServiceRate * s.networkCost (s.theApps a).theBroker e *
    (s.theApps a).theExchangeSize

/-- Clear the mu apps of the edges. -/
def clearMuApps (s : Scenario B E A) : Scenario B E A :=
  { s with theEdges := fun e => { s.theEdges e with theMuApps := [] } }

/-- Assign an app to an edge and vice versa. -/
def place (s : Scenario B E A) (p : Fin A × Fin (E + 1)) : Scenario B E A :=
  { s with
    theApps := Function.update s.theApps p.1 { s.theApps p.1 with theEdge := p.2 }
    theEdges := Function.update s.theEdges p.2
      { s.theEdges p.2 with theMuApps := (s.theEdges p.2).theMuApps ++ [p.1] } }

/-- The solution of the assignment problem by the algorithm for mu apps. -/
def solveMu (env : Env) (algo : MuAlgorithm) {m k : ℕ} (myApMatrix : Fin m → Fin k → ℚ)
    (aRnd : ℕ → ℚ) : ℚ × (Fin m → Option (Fin k)) :=
  match algo with
  | .Random => env.SolveRandom myApMatrix aRnd
  | .Greedy => env.SolveGreedy myApMatrix
  | .Hungarian => env.Solve myApMatrix

/-- Each row with its column, if all of them have one. -/
def columns {m k : ℕ} (f : Fin m → Option (Fin k)) : Option (List (Fin m × Fin k)) :=
  (List.finRange m).mapM fun i => (f i).map fun c => (i, c)

/-- The containers for mu apps, by their edges. -/
def containerToNodes (s : Scenario B E A) (aAlpha : ℚ) : List (Fin (E + 1)) :=
  Allotments.units (s.usableMuContainers aAlpha)

/-- The input matrix of the assignment problem, with costs from apps to containers. -/
def apMatrix (s : Scenario B E A) (aAlpha : ℚ) (i : Fin (s.appsOf .Mu).length)
    (c : Fin (s.containerToNodes aAlpha).length) : ℚ :=
  s.muApCost ((s.appsOf .Mu).get i) ((s.containerToNodes aAlpha).get c)

/-- The apps of the solution are assigned to their edges. -/
def muOutcome (s : Scenario B E A) (aData : PerformanceData) (cost : ℚ)
    (placed : List (Fin A × Fin (E + 1))) : PerformanceData × Scenario B E A :=
  let rate := fun p : Fin A × Fin (E + 1) => ((s.theApps p.1).theServiceRate : ℚ)
  let cloud := placed.filter fun p => p.2 = CLOUD
  ({ aData with
      theMuCost := cost
      theMuCloud := aData.theMuCloud + cloud.length
      theMuServiceCloud := (cloud.map rate).sum / (placed.map rate).sum },
    placed.foldl place s.clearMuApps)

def assignMuApps (env : Env) (s : Scenario B E A) (aAlpha : ℚ) (aData : PerformanceData)
    (aRnd : ℕ → ℚ) : Except String (PerformanceData × Scenario B E A) :=
  if s.appsOf .Mu = [] then .ok (aData, s)
  else
    let solution := solveMu env s.theMuAlgorithm (s.apMatrix aAlpha) aRnd
    match columns solution.2 with
    | none => .error "invalid index of a container"
    | some myMuAssignment =>
      .ok (s.muOutcome aData solution.1 (myMuAssignment.map fun p =>
        ((s.appsOf .Mu).get p.1, (s.containerToNodes aAlpha).get p.2)))

/-- The storage cost of a container: e is its index among the free containers. -/
def storageCost (s : Scenario B E A) (e : ℕ) : ℚ :=
  if e = 0 then s.theCloudStorageCostLocal else s.theCloudStorageCostRemote

/-- The share of the lambda service that goes to the cloud. -/
def lambdaServiceCloud (s : Scenario B E A) : ℚ :=
  let weights := (List.finRange A).flatMap fun a => (s.theApps a).theWeights
  let myServiceTotal := (weights.map Prod.snd).sum
  let myServiceCloud := ((weights.filter fun w => w.1 = CLOUD).map Prod.snd).sum
  if 0 < myServiceTotal then myServiceCloud / myServiceTotal else 0

/-- The containers that are not assigned to mu apps, by their edges. -/
def lambdaContainers (s : Scenario B E A) : List (Fin (E + 1)) :=
  Allotments.units fun e => (s.theEdges e).theNumContainers - (s.theEdges e).theMuApps.length

/-- The number of requests that a container may serve. -/
def lambdaCapacity (s : Scenario B E A) (aBeta : ℚ) (e : Fin (E + 1)) : ℤ :=
  ⌊aBeta * (s.theEdges e).theContainerCapacity⌋

/-- The cost of a unit of a lambda app at a free container, by its index. -/
def lambdaUnitCost (s : Scenario B E A) (a : Fin A) (c : Fin s.lambdaContainers.length) : ℚ :=
  s.networkCost (s.theApps a).theBroker (s.lambdaContainers.get c) * (s.theApps a).theExchangeSize +
    s.storageCost c * (s.theApps a).theStorageSize

def solveLambda (env : Env) (algo : LambdaAlgorithm) {T W : ℕ} (aCosts : Mcfp.Costs T W)
    (aRequests : Mcfp.Requests T) (aCapacities : Mcfp.Capacities W) (aRnd : ℕ → ℚ) :
    ℚ × Mcfp.Weights T W :=
  match algo with
  | .Random => Mcfp.solveRandom aCosts aRequests aCapacities aRnd
  | .Greedy => Mcfp.solveGreedy aCosts aRequests aCapacities
  | .Mcfp => Mcfp.solve env.flow aCosts aRequests aCapacities

/-- The weights of the containers as weights of their edges, which are the keys of
a map. -/
def aggregate {E : ℕ} (containers : List (Fin (E + 1))) (w : Fin containers.length → ℚ) :
    List (Fin (E + 1) × ℚ) :=
  ((List.finRange (E + 1)).filter fun e => e ∈ containers).map fun e =>
    (e, ∑ c, if containers.get c = e then w c else 0)

/-- The weights of an app are replaced. -/
def weigh (s : Scenario B E A) (p : Fin A × List (Fin (E + 1) × ℚ)) : Scenario B E A :=
  { s with theApps := Function.update s.theApps p.1 { s.theApps p.1 with theWeights := p.2 } }

/-- The problem of the lambda apps that the containers are to serve, as solved. -/
def lambdaSolution (env : Env) (s : Scenario B E A) (aBeta : ℚ) (aRnd : ℕ → ℚ) :
    ℚ × Mcfp.Weights (s.appsOf .Lambda).length s.lambdaContainers.length :=
  solveLambda env s.theLambdaAlgorithm
    (fun t c => s.lambdaUnitCost ((s.appsOf .Lambda).get t) c)
    (fun t => (s.theApps ((s.appsOf .Lambda).get t)).theServiceRate)
    (fun c => s.lambdaCapacity aBeta (s.lambdaContainers.get c)) aRnd

def assignLambdaApps (env : Env) (s : Scenario B E A) (aBeta : ℚ) (aData : PerformanceData)
    (aRnd : ℕ → ℚ) : Except String (PerformanceData × Scenario B E A) :=
  let myLambdaApps := s.appsOf .Lambda
  if myLambdaApps = [] then .ok (aData, s)
  else if ∃ e, (s.theEdges e).theNumContainers < (s.theEdges e).theMuApps.length then
    .error "theEdges[e].theNumContainers >= theEdges[e].theMuApps.size()"
  else
    let solution := s.lambdaSolution env aBeta aRnd
    let s' := ((List.finRange myLambdaApps.length).map fun t =>
      (myLambdaApps.get t, aggregate s.lambdaContainers (solution.2 t))).foldl weigh s
    .ok ({ aData with
        theLambdaCost := solution.1
        theLambdaServiceCloud := s'.lambdaServiceCloud }, s')

def lambdaCost (s : Scenario B E A) (aApp : Fin A) : ℚ :=
  ((s.theApps aApp).theWeights.map fun elem =>
    s.networkCost (s.theApps aApp).theBroker elem.1 * elem.2).sum

def muCost (s : Scenario B E A) (aApp : Fin A) : ℚ :=
  s.networkCost (s.theApps aApp).theBroker (s.theApps aApp).theEdge

/-- The candidate edge and its cost once an edge has been looked at. -/
def closer (s : Scenario B E A) (aApp : Fin A) (aAlpha : ℚ) (my : Option (Fin (E + 1)) × WithTop ℚ)
    (e : Fin (E + 1)) : Option (Fin (E + 1)) × WithTop ℚ :=
  let myCurrentCost : WithTop ℚ := s.networkCost (s.theApps aApp).theBroker e
  if 0 < s.usableMuContainers aAlpha e - (s.theEdges e).theMuApps.length then
    if myCurrentCost < my.2 then (some e, myCurrentCost) else my
  else my

/-- The loop that finds the least-cost free container; ⊤ is the maximum of a double. -/
def candidate (s : Scenario B E A) (aApp : Fin A) (aAlpha : ℚ) : Option (Fin (E + 1)) × WithTop ℚ :=
  (List.finRange (E + 1)).foldl (s.closer aApp aAlpha) (none, ⊤)

/-- The app becomes a mu app of an edge. -/
def toMu (s : Scenario B E A) (aApp : Fin A) (e : Fin (E + 1)) : Scenario B E A :=
  { s with
    theEdges := Function.update s.theEdges e
      { s.theEdges e with theMuApps := (s.theEdges e).theMuApps ++ [aApp] }
    theApps := Function.update s.theApps aApp
      { s.theApps aApp with theEdge := e, theWeights := [], theType := .Mu } }

/-- The costs of the app before and after it. -/
def migrateLambdaToMu (s : Scenario B E A) (aApp : Fin A) (aAlpha : ℚ) :
    Except String ((ℚ × ℚ) × Scenario B E A) :=
  if ∃ e, s.usableMuContainers aAlpha e < (s.theEdges e).theMuApps.length then
    .error "myUsableMuContainers >= theEdges[e].theMuApps.size()"
  else match (s.candidate aApp aAlpha).1 with
    | none => .error "myCandidateEdge < theEdges.size()"
    | some e => .ok ((s.lambdaCost aApp, (s.toMu aApp e).muCost aApp), s.toMu aApp e)

/-- The app leaves its edge and becomes a lambda app served by the cloud. -/
def toLambda (s : Scenario B E A) (aApp : Fin A) : Scenario B E A :=
  let e := (s.theApps aApp).theEdge
  { s with
    theEdges := Function.update s.theEdges e
      { s.theEdges e with theMuApps := (s.theEdges e).theMuApps.filter fun a => a ≠ aApp }
    theApps := Function.update s.theApps aApp
      { s.theApps aApp with
        theWeights := (s.theApps aApp).theWeights ++ [(CLOUD, ((s.theApps aApp).theServiceRate : ℚ))]
        theType := .Lambda } }

def migrateMuToLambda (s : Scenario B E A) (aApp : Fin A) : (ℚ × ℚ) × Scenario B E A :=
  ((s.muCost aApp, (s.toLambda aApp).lambdaCost aApp), s.toLambda aApp)

def checkArgs (env : Env) (aAlpha aBeta : ℚ) : Except String Unit :=
  if aAlpha < 0 ∨ aAlpha > 1 then
    .error ("Invalid alpha, must be in [0,1]: " ++ env.to_string aAlpha)
  else if aBeta < 0 ∨ aBeta > 1 then
    .error ("Invalid beta, must be in [0,1]: " ++ env.to_string aBeta)
  else .ok ()

/-- A number as a long, its fractional part being discarded. -/
def truncate (q : ℚ) : ℤ := q.num.tdiv q.den

/-- The cloud capacity, `mySumRequestRates / aBeta` converted to a long. -/
def cloudCapacity (env : Env) (mySumRequestRates : ℤ) (aBeta : ℚ) : ℤ :=
  if aBeta = 0 then env.outOfRange else truncate (mySumRequestRates / aBeta)

/-- The brokers and the parameters drawn for the apps. -/
structure Population (B A : ℕ) where
  broker : Fin A → Fin B
  params : Fin A → AppParams

/-- The apps as they are created, with the type given to each one. -/
def Population.app {B A : ℕ} (E : ℕ) (apps : Population B A) (t : Fin A → AppType) (a : Fin A) :
    App B E where
  theBroker := apps.broker a
  theType := t a
  theServiceRate := (apps.params a).theServiceRate
  theExchangeSize := (apps.params a).theExchangeSize
  theStorageSize := (apps.params a).theStorageSize

/-- `clearPreviousAssignments`, the creation of the apps and the adjustment of the
cloud to them. -/
def populate {A' : ℕ} (s : Scenario B E A') (apps : Fin A → App B E) (numContainers : ℕ)
    (capacity : ℤ) : Scenario B E A :=
  { s with
    theApps := apps
    theEdges := fun e =>
      if e = CLOUD then { theNumContainers := numContainers, theContainerCapacity := capacity }
      else { theNumContainers := (s.theEdges e).theNumContainers
             theContainerCapacity := (s.theEdges e).theContainerCapacity } }

/-- The total numbers of the output, with those of the cloud. -/
def totals (s : Scenario B E A) : PerformanceData where
  theNumContainers := ∑ e, (s.theEdges e).theNumContainers
  theTotCapacity := ∑ e, (s.theEdges e).theContainerCapacity

/-- The apps of a snapshot are lambda apps first and mu apps then. -/
def snapshotType (myNumLambda : ℕ) (a : Fin A) : AppType :=
  if a.val < myNumLambda then .Lambda else .Mu

/-- The scenario of a snapshot before the assignments. -/
def snapshotStart (env : Env) {A' : ℕ} (s : Scenario B E A') (aBeta : ℚ) (myNumLambda myNumMu : ℕ)
    (apps : Population B (myNumLambda + myNumMu)) : Scenario B E (myNumLambda + myNumMu) :=
  let mySumRequestRates := ∑ a : Fin (myNumLambda + myNumMu),
    if a.val < myNumLambda then (apps.params a).theServiceRate else 0
  s.populate (apps.app E (snapshotType myNumLambda)) (1 + myNumMu)
    (cloudCapacity env mySumRequestRates aBeta)

/-- The numbers of apps and their parameters are drawn, as are the numbers used by
the two assignments. -/
def snapshot (env : Env) {A' : ℕ} (s : Scenario B E A') (aAlpha aBeta : ℚ)
    (myNumLambda myNumMu : ℕ) (apps : Population B (myNumLambda + myNumMu)) (rnd : ℕ → ℕ → ℚ) :
    Except String (PerformanceData × Scenario B E (myNumLambda + myNumMu)) := do
  checkArgs env aAlpha aBeta
  let s := s.snapshotStart env aBeta myNumLambda myNumMu apps
  let ret := { s.totals with theNumLambda := myNumLambda, theNumMu := myNumMu }
  let (ret, s) ← s.assignMuApps env aAlpha ret (rnd 0)
  s.assignLambdaApps env aBeta ret (rnd 1)

end Scenario

end ServerlessEdge.LambdaMuSim
