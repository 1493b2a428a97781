import Mathlib.Data.List.MinMax
import Mathlib.Data.List.Sort
import Mathlib.Order.WithBot
import ServerlessEdge.Library.Allotments
import ServerlessEdge.Library.Flows

/-! The solvers that give the units requested by tasks to workers: at random, to
the cheapest worker in turn, or by a flow of minimum cost. -/
namespace ServerlessEdge.LambdaMuSim.Mcfp
open Library Allotments

abbrev Costs (T W : ℕ) := Fin T → Fin W → ℚ
abbrev Requests (T : ℕ) := Fin T → ℤ
abbrev Capacities (W : ℕ) := Fin W → ℤ
abbrev Weights (T W : ℕ) := Fin T → Fin W → ℚ

variable {T W : ℕ}

/-- The number of tasks and of workers, if all the vectors have sizes that agree. -/
def inputCheck {α : Type} (aCosts : List (List α)) (aRequests aCapacities : List ℤ) :
    Except String (ℕ × ℕ) :=
  match aCosts with
  | [] => .error "Invalid empty cost matrix"
  | first :: _ =>
    let T := aCosts.length
    let W := first.length
    match aCosts.find? fun myCosts => myCosts.length ≠ W with
    | some myCosts => .error ("Invalid cost matrix: expected " ++ toString W ++ " workers, found " ++
        toString myCosts.length)
    | none =>
      if aRequests.length ≠ T then
        .error ("Invalid requests size: expected " ++ toString T ++ ", found " ++
          toString aRequests.length)
      else if aCapacities.length ≠ W then
        .error ("Invalid capacity size: expected " ++ toString W ++ ", found " ++
          toString aCapacities.length)
      else .ok (T, W)

/-- A vector of vectors as the solvers access it. -/
def matrix {α : Type} [Zero α] (T W : ℕ) (aCosts : List (List α)) : Fin T → Fin W → α :=
  fun t w => (aCosts.getD t []).getD w 0

/-- A vector as the solvers access it. -/
def vector (n : ℕ) (l : List ℤ) : Fin n → ℤ := fun i => l.getD i 0

/-- Each index as often as the inner loop runs for it. -/
def unitsOf {n : ℕ} (amount : Fin n → ℤ) : List (Fin n) := units fun i => (amount i).toNat

/-- `aWeights[i][j]++` -/
def increment (aWeights : Weights T W) (i : Fin T) (j : Fin W) : Weights T W :=
  Function.update aWeights i (Function.update (aWeights i) j (aWeights i j + 1))

/-- The values of a multimap whose keys are drawn at random. -/
def sortAtRandom {α : Type} (aRnd : ℕ → ℚ) (l : List α) : List α :=
  ((l.zipIdx.map fun e => (aRnd e.2, e.1)).insertionSort fun x y => x.1 ≤ y.1).map Prod.snd

/-- The loop that matches the requests to the workers, until either are over. -/
def matchRequests (aCosts : Costs T W) :
    List (Fin T) → List (Fin W) → ℚ × Weights T W → ℚ × Weights T W
  | i :: myRequests, j :: myWorkers, r =>
    matchRequests aCosts myRequests myWorkers (r.1 + aCosts i j, increment r.2 i j)
  | [], _, r => r
  | _, [], r => r

/-- The cost found and the weights. -/
def solveRandom (aCosts : Costs T W) (aRequests : Requests T) (aCapacities : Capacities W)
    (aRnd : ℕ → ℚ) : ℚ × Weights T W :=
  let myRequests := unitsOf aRequests
  -- the workers are drawn after the requests
  let myWorkers := sortAtRandom (fun k => aRnd (myRequests.length + k)) (unitsOf aCapacities)
  matchRequests aCosts (sortAtRandom aRnd myRequests) myWorkers (0, 0)

/-- The variables of the greedy solver; ⊤ is the maximum of a double, which
stands for infinity. -/
structure Greedy (T W : ℕ) where
  myCosts : Fin T → Fin W → WithTop ℚ
  myCapacities : Capacities W
  myCost : ℚ
  aWeights : Weights T W

namespace Greedy

/-- The costs of the workers with vanishing capacity are put to infinity. -/
def start (aCosts : Fin T → Fin W → WithTop ℚ) (aCapacities : Capacities W) : Greedy T W where
  myCosts i j := if aCapacities j ≤ 0 then ⊤ else aCosts i j
  myCapacities := aCapacities
  myCost := 0
  aWeights := 0

/-- A unit of a task is assigned to a worker, of the given cost. -/
def assign (g : Greedy T W) (i : Fin T) (j : Fin W) (cost : ℚ) : Greedy T W where
  myCosts k l :=
    if l = j ∧ i ≤ k ∧ g.myCapacities j - 1 = 0 then ⊤ else g.myCosts k l
  myCapacities := Function.update g.myCapacities j (g.myCapacities j - 1)
  myCost := g.myCost + cost
  aWeights := increment g.aWeights i j

/-- `std::min_element` on a row, none if it is the end. -/
def minElement (g : Greedy T W) (i : Fin T) : Option (Fin W) :=
  (List.finRange W).argmin (g.myCosts i)

/-- The loops over the tasks and their units, with the early return. -/
def run : List (Fin T) → Greedy T W → Greedy T W
  | [], g => g
  | i :: rest, g =>
    match g.minElement i with
    | none => g
    | some j =>
      match g.myCosts i j with
      | ⊤ => g
      | (cost : ℚ) => run rest (g.assign i j cost)

end Greedy

/-- The greedy solver where costs may be as large as a double can be. -/
def solveGreedyUpTo (aCosts : Fin T → Fin W → WithTop ℚ) (aRequests : Requests T)
    (aCapacities : Capacities W) : ℚ × Weights T W :=
  let g := (Greedy.start aCosts aCapacities).run (unitsOf aRequests)
  (g.myCost, g.aWeights)

def solveGreedy (aCosts : Costs T W) (aRequests : Requests T) (aCapacities : Capacities W) :
    ℚ × Weights T W :=
  solveGreedyUpTo (fun i j => aCosts i j) aRequests aCapacities

/-- The edges of the graph, in the order of their layers. -/
inductive Link (T W : ℕ) where
  | request (t : Fin T)
  | assignment (t : Fin T) (w : Fin W)
  | worker (w : Fin W)
  | exit (w : Fin W)

/-- The sum of the capacities, accumulated in an int. -/
def maxCap (aCapacities : Capacities W) : ℤ :=
  (List.ofFn aCapacities).foldl (fun sum c => (sum + c).bmod (2 ^ 32)) 0

/-- The source is 0, the tasks are 1 .. T, the workers T+1 .. T+W and once more
T+W+1 .. T+2W, the destination is T+2W+1. -/
def graph (aCosts : Costs T W) (aRequests : Requests T) (aCapacities : Capacities W) :
    FlowNetwork ℕ (Link T W) where
  tail
    | .request _ => 0
    | .assignment t _ => t + 1
    | .worker w => w + (T + 1)
    | .exit w => w + (T + W + 1)
  head
    | .request t => t + 1
    | .assignment _ w => w + (T + 1)
    | .worker w => w + (T + 1) + W
    | .exit _ => T + 2 * W + 1
  capacity
    | .request t => aRequests t
    | .assignment _ _ => maxCap aCapacities
    | .worker w => aCapacities w
    | .exit _ => maxCap aCapacities
  cost
    | .assignment t w => aCosts t w
    | _ => 0

/-- What the flow library leaves as residual capacities, from a source and a
destination. -/
abbrev FlowSolver := (T W : ℕ) → FlowNetwork ℕ (Link T W) → ℕ → ℕ → Link T W → ℤ

def solve (flow : FlowSolver) (aCosts : Costs T W) (aRequests : Requests T)
    (aCapacities : Capacities W) : ℚ × Weights T W :=
  let g := graph aCosts aRequests aCapacities
  let residual := flow T W g 0 (T + 2 * W + 1)
  let aWeights : Weights T W := fun t w =>
    if 0 < g.capacity (.assignment t w) then
      g.capacity (.assignment t w) - residual (.assignment t w)
    else 0
  (∑ t, ∑ w, aWeights t w * aCosts t w, aWeights)

end ServerlessEdge.LambdaMuSim.Mcfp
