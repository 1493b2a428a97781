import ServerlessEdge.LambdaMuSim.Scenario
import ServerlessEdge.LambdaMuSim.AppPool

/-! The dynamic simulation: at each epoch all apps are assigned anew if any has
changed its type, and in between an app that changes it is migrated alone. -/
namespace ServerlessEdge.LambdaMuSim

/-- Samples of a value, each with the time since the previous one as its weight. -/
structure Accumulator where
  theLast : ℚ := 0
  theAcc : List (ℚ × ℚ) := []

namespace Accumulator

def add (acc : Accumulator) (theClock theWarmUp aValue : ℚ) : Accumulator :=
  if theClock ≥ theWarmUp then
    { theLast := theClock, theAcc := acc.theAcc ++ [(aValue, theClock - acc.theLast)] }
  else acc

/-- The weighted mean. -/
def mean (acc : Accumulator) : ℚ :=
  (acc.theAcc.map fun x => x.2 * x.1).sum / (acc.theAcc.map Prod.snd).sum

end Accumulator

/-- The arguments of a simulation, with the numbers that each of the generators
made for an assignment draws. -/
structure DynamicArgs where
  aDuration : ℚ
  aWarmUp : ℚ
  aEpoch : ℚ
  aAlpha : ℚ
  aBeta : ℚ
  rnd : ℕ → ℕ → ℚ

/-- The variables of a simulation. -/
structure Dynamic (B E A : ℕ) where
  scenario : Scenario B E A
  myAppPool : AppPool A
  ret : PerformanceData
  myClock : ℚ := 0
  myNextEpoch : ℚ := 0
  myNumLambda : ℕ := A
  myLambdaCost : ℚ := 0
  myLambdaServiceCloud : ℚ := 0
  myMuCost : ℚ := 0
  myAssignCounter : ℕ := 0
  myNumLambdaAcc : Accumulator := {}
  myNumMuAcc : Accumulator := {}
  myLambdaCostAcc : Accumulator := {}
  myLambdaServiceCloudAcc : Accumulator := {}
  myMuCostAcc : Accumulator := {}
  myMuCloudAcc : Accumulator := {}
  myMuServiceCloudAcc : Accumulator := {}
  myOptimize : Bool := true

namespace Dynamic

variable {B E A : ℕ}

/-- The end of an iteration: the costs are sampled and the clock goes on. -/
def finish (args : DynamicArgs) (d : Dynamic B E A) (myTimeElapsed : ℚ) : Dynamic B E A :=
  { d with
    myLambdaCostAcc := d.myLambdaCostAcc.add d.myClock args.aWarmUp d.myLambdaCost
    myLambdaServiceCloudAcc :=
      d.myLambdaServiceCloudAcc.add d.myClock args.aWarmUp d.myLambdaServiceCloud
    myMuCostAcc := d.myMuCostAcc.add d.myClock args.aWarmUp d.myMuCost
    myClock := d.myClock + myTimeElapsed }

/-- The mu apps that have been moved from one edge to another. -/
def muMigrations (s s' : Scenario B E A) : ℕ :=
  ((s.appsOf .Mu).filter fun a => (s'.theApps a).theEdge ≠ (s.theApps a).theEdge).length

/-- The variables after an optimization, given the scenario with the mu apps assigned
and the one with all apps assigned. -/
def optimized (args : DynamicArgs) (d : Dynamic B E A) (myData : PerformanceData)
    (s s' : Scenario B E A) : Dynamic B E A :=
  let migrations := if d.myClock ≥ args.aWarmUp then muMigrations d.scenario s else 0
  let optimizations := if d.myClock ≥ args.aWarmUp then 1 else 0
  { d with
    scenario := s'
    ret := { d.ret with
      theMuMigrations := d.ret.theMuMigrations + migrations
      theNumOptimizations := d.ret.theNumOptimizations + optimizations }
    myMuCost := myData.theMuCost
    myMuCloudAcc := d.myMuCloudAcc.add d.myClock args.aWarmUp myData.theMuCloud
    myMuServiceCloudAcc :=
      d.myMuServiceCloudAcc.add d.myClock args.aWarmUp myData.theMuServiceCloud
    myLambdaCost := myData.theLambdaCost
    myLambdaServiceCloud := myData.theLambdaServiceCloud
    myAssignCounter := d.myAssignCounter + 2
    myOptimize := false }

/-- All apps are assigned anew. -/
def optimize (env : Env) (args : DynamicArgs) (d : Dynamic B E A) :
    Except String (Dynamic B E A) := do
  let (myData, s) ← d.scenario.assignMuApps env args.aAlpha {} (args.rnd d.myAssignCounter)
  let (myData, s') ← s.assignLambdaApps env args.aBeta myData (args.rnd (d.myAssignCounter + 1))
  return d.optimized args myData s s'

/-- The time left in the epoch is over, and another one begins. -/
def beginEpoch (args : DynamicArgs) (d : Dynamic B E A) : Dynamic B E A :=
  { d with myAppPool := d.myAppPool.elapse d.myNextEpoch, myNextEpoch := args.aEpoch }

/-- A new epoch begins. -/
def epoch (env : Env) (args : DynamicArgs) (d : Dynamic B E A) : Except String (Dynamic B E A) :=
  if d.myOptimize then do
    let d' ← (d.beginEpoch args).optimize env args
    return d'.finish args d.myNextEpoch
  else
    -- nothing has changed since the last epoch, and nothing is sampled
    return { d.beginEpoch args with myClock := d.myClock + d.myNextEpoch }

/-- The app with the shortest remaining time makes its transition. -/
def advancePool (d : Dynamic B E A) : Dynamic B E A :=
  { d with
    myAppPool := d.myAppPool.advance.2
    myNextEpoch := d.myNextEpoch - d.myAppPool.advance.1.2
    myOptimize := true }

/-- An app has become a mu app, given its old cost and its new one. -/
def changedToMu (d : Dynamic B E A) (cost : ℚ × ℚ) (s : Scenario B E A) : Dynamic B E A :=
  { d with
    scenario := s
    myLambdaCost := d.myLambdaCost - cost.1
    myLambdaServiceCloud := s.lambdaServiceCloud
    myMuCost := d.myMuCost + cost.2
    myNumLambda := d.myNumLambda - 1 }

/-- An app has become a lambda app, given its old cost and its new one. -/
def changedToLambda (d : Dynamic B E A) (cost : ℚ × ℚ) (s : Scenario B E A) : Dynamic B E A :=
  { d with
    scenario := s
    myLambdaServiceCloud := s.lambdaServiceCloud
    myLambdaCost := d.myLambdaCost + cost.2
    myMuCost := d.myMuCost - cost.1
    myNumLambda := d.myNumLambda + 1 }

/-- Only the app that has changed is migrated. -/
def migrate (args : DynamicArgs) (d : Dynamic B E A) (myChanged : Fin A) :
    Except String (Dynamic B E A) :=
  match (d.scenario.theApps myChanged).theType with
  | .Lambda => do
    let (cost, s) ← d.scenario.migrateLambdaToMu myChanged args.aAlpha
    return d.changedToMu cost s
  | .Mu =>
    let (cost, s) := d.scenario.migrateMuToLambda myChanged
    return d.changedToLambda cost s

/-- The numbers of apps are sampled. -/
def sampleApps (args : DynamicArgs) (d : Dynamic B E A) : Dynamic B E A :=
  { d with
    myNumLambdaAcc := d.myNumLambdaAcc.add d.myClock args.aWarmUp d.myNumLambda
    myNumMuAcc := d.myNumMuAcc.add d.myClock args.aWarmUp (A - d.myNumLambda : ℕ) }

/-- An app changes its type before the next epoch. -/
def transition (args : DynamicArgs) (d : Dynamic B E A) : Except String (Dynamic B E A) := do
  let d' ← migrate args d.advancePool d.myAppPool.advance.1.1
  return finish args (sampleApps args d') d.myAppPool.advance.1.2

/-- The body of the loop. -/
def step (env : Env) (args : DynamicArgs) (d : Dynamic B E A) : Except String (Dynamic B E A) :=
  if d.myNextEpoch ≤ d.myAppPool.next then d.epoch env args else d.transition args

/-- The loop after a number of iterations, unless it ends before. -/
def after (env : Env) (args : DynamicArgs) : ℕ → Dynamic B E A → Except String (Dynamic B E A)
  | 0, d => .ok d
  | n + 1, d => if d.myClock < args.aDuration then (d.step env args).bind (after env args n) else .ok d

/-- The simulation up to its loop: all apps are born in a lambda state. -/
def start (env : Env) {A' : ℕ} (s : Scenario B E A') (args : DynamicArgs)
    (aPeriods : List (List ℚ)) (apps : Scenario.Population B A) (draws : Draws aPeriods A) :
    Except String (Dynamic B E A) := do
  Scenario.checkArgs env args.aAlpha args.aBeta
  if args.aDuration < 0 then
    throw ("Invalid simulation duration, must be >= 0: " ++ env.to_string args.aDuration)
  if args.aWarmUp < 0 then
    throw ("Invalid warm-up duration, must be >= 0: " ++ env.to_string args.aWarmUp)
  let mySumRequestRates := ∑ a, (apps.params a).theServiceRate
  let s := s.populate (apps.app E fun _ => .Lambda) (1 + A)
    (Scenario.cloudCapacity env mySumRequestRates args.aBeta)
  let pool ← AppPool.new aPeriods A draws
  return { scenario := s, myAppPool := pool, ret := s.totals }

/-- The weighted means are saved to the output. -/
def output (d : Dynamic B E A) : PerformanceData :=
  { d.ret with
    theNumLambda := d.myNumLambdaAcc.mean
    theNumMu := d.myNumMuAcc.mean
    theLambdaCost := d.myLambdaCostAcc.mean
    theLambdaServiceCloud := d.myLambdaServiceCloudAcc.mean
    theMuCost := d.myMuCostAcc.mean
    theMuCloud := d.myMuCloudAcc.mean
    theMuServiceCloud := d.myMuServiceCloudAcc.mean }

end Dynamic

end ServerlessEdge.LambdaMuSim
