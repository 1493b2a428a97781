import Std.Data.ExtTreeMap.Lemmas
import Mathlib.Algebra.Order.Ring.Rat
import ServerlessEdge.Library.Checks
import ServerlessEdge.Library.Scores

/-! The network topology of a controller, and the ranking that picks the router
address closest to a computer. Distances are exact rational numbers. -/
namespace ServerlessEdge.Controller
open Std Library Checks Scores

structure Topology where
  /-- Name of a node to its index in the matrix of distances. -/
  theNames : ExtTreeMap String Nat
  theDistances : List ℚ

inductive Objective where
  | MinMax
  | MinAvg
  deriving DecidableEq, Repr

namespace Topology

def numNodes (t : Topology) : Nat := t.theNames.size

def distance (t : Topology) (aSrc aDst : String) : Except String ℚ :=
  match t.theNames[aSrc]?, t.theNames[aDst]? with
  | none, _ => .error ("Invalid or unknown node '" ++ aSrc ++ "'")
  | some _, none => .error ("Invalid or unknown node '" ++ aDst ++ "'")
  | some mySrc, some myDst => .ok ((t.theDistances[mySrc * t.numNodes + myDst]?).getD 0)

theorem distance_ok {t : Topology} {aSrc aDst : String} (hs : aSrc ∈ t.theNames)
    (hd : aDst ∈ t.theNames) : ∃ q, t.distance aSrc aDst = .ok q := by
  obtain ⟨i, hi⟩ : ∃ i, t.theNames[aSrc]? = some i := ⟨_, ExtTreeMap.getElem?_eq_some_getElem hs⟩
  obtain ⟨j, hj⟩ : ∃ j, t.theNames[aDst]? = some j := ⟨_, ExtTreeMap.getElem?_eq_some_getElem hd⟩
  exact ⟨_, by rw [distance, hi, hj]⟩

end Topology

/-- The lowest finite double, the start value of the search for a maximum. -/
def lowest : ℚ := -((2 ^ 53 - 1) * 2 ^ 971)

/-- The ranking score of a router address as the home of a computer. -/
def score (t : Topology) (aObjective : Objective) (aRouterAddresses : List String)
    (aComputerAddress aRouterAddress : String) : Except String ℚ := do
  let myDistances ← aRouterAddresses.mapM (t.distance aRouterAddress)
  let myMax := myDistances.foldl max lowest
  let mySum := myDistances.foldl (· + ·) 0
  let myDistHomeToComp ← t.distance aRouterAddress aComputerAddress
  let myOmega : ℚ := 1 + 2 * t.numNodes * t.numNodes
  let myMaxCost := myDistHomeToComp + myMax
  let myAvgCost := t.numNodes * myDistHomeToComp + mySum
  return match aObjective with
    | .MinMax => myOmega * myMaxCost + myAvgCost
    | .MinAvg => myMaxCost + myOmega * myAvgCost

/-- The first element of least score. -/
def minElement : List (String × ℚ) → Option String
  | [] => none
  | x :: xs => some (xs.foldl (fun myMin y => if y.2 < myMin.2 then y else myMin) x).1

/-- The router address closest to a computer address, computed from scratch;
an empty string if there are no routers. -/
def closest (t : Topology) (aObjective : Objective) (aRouterAddresses : List String)
    (aComputerAddress : String) : Except String String := do
  let myRanking ← aRouterAddresses.mapM fun a => do
    return (a, ← score t aObjective aRouterAddresses aComputerAddress a)
  return (minElement myRanking).getD ""

/-- The address part of an end-point address:port. -/
def address (aEndpoint : String) : Except String String :=
  let myAddress := aEndpoint.toList.takeWhile (· ≠ ':')
  if myAddress.length = aEndpoint.toList.length ∨ myAddress.length = 0 ∨
      myAddress.length = aEndpoint.toList.length - 1 then
    .error ("Invalid end-point: " ++ aEndpoint)
  else .ok (String.ofList myAddress)

/-- The search finds the first element of least score. -/
theorem minElement_first {xs : List (String × ℚ)} (h : xs ≠ []) :
    ∃ p, minElement xs = some p.1 ∧ First Prod.snd xs p := by
  cases xs with
  | nil => exact absurd rfl h
  | cons x xs => exact ⟨_, rfl, foldl_first Prod.snd xs x⟩

/-- Among known nodes the ranking does not throw and picks a router address. -/
theorem closest_mem {t : Topology} {aObjective : Objective} {aRouterAddresses : List String}
    {aComputerAddress : String} (hne : aRouterAddresses ≠ [])
    (hr : ∀ a ∈ aRouterAddresses, a ∈ t.theNames) (hc : aComputerAddress ∈ t.theNames) :
    ∃ a ∈ aRouterAddresses, closest t aObjective aRouterAddresses aComputerAddress = .ok a := by
  have hscore : ∀ a ∈ aRouterAddresses, ∃ p : String × ℚ,
      (do return (a, ← score t aObjective aRouterAddresses aComputerAddress a) :
        Except String (String × ℚ)) = .ok p ∧ p.1 = a := by
    intro a ha
    obtain ⟨ds, hds⟩ := exists_mapM_ok fun b hb => Topology.distance_ok (hr a ha) (hr b hb)
    obtain ⟨q, hq⟩ := Topology.distance_ok (hr a ha) hc
    exact ⟨_, by rw [score, hds, hq]; rfl, rfl⟩
  obtain ⟨ps, hps⟩ := exists_mapM_ok fun a ha => (hscore a ha).imp fun _ h => h.1
  have hlen := (mapM_ok_iff.mp hps).length_eq
  have hps0 : ps ≠ [] := by
    rintro rfl
    exact hne (List.length_eq_zero_iff.mp hlen)
  obtain ⟨p, hmin, hfirst⟩ := minElement_first hps0
  obtain ⟨a, ha, he⟩ := mem_of_mapM_ok hps hfirst.mem
  obtain ⟨p', he', hp'⟩ := hscore a ha
  have hpa : p = p' := by
    rw [he] at he'
    exact Except.ok.inj he'
  refine ⟨a, ha, ?_⟩
  rw [closest, hps]
  simp only [bind, Except.bind, pure, Except.pure, hmin, Option.getD_some, hpa, hp']

end ServerlessEdge.Controller
