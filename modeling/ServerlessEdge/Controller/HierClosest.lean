import ServerlessEdge.Controller.HierRegistry
import ServerlessEdge.Library.Checks
import ServerlessEdge.Library.Scores
import Mathlib.Algebra.BigOperators.Ring.Finset
import Mathlib.Algebra.Order.BigOperators.Group.List

/-! Which router address is the closest one. The maximum cost and the average cost are
weighed into one score, which follows the objective as long as the distances are not too
close to each other. -/
namespace ServerlessEdge.Controller
open Library Scores EdgeController

namespace Topology

/-- The distance between two known nodes. -/
def between (t : Topology) (aSrc aDst : String) : ℚ :=
  match t.distance aSrc aDst with
  | .ok q => q
  | .error _ => 0

/-- The greatest distance from an address to a router, by way of the candidate. -/
def maxCost (t : Topology) (aRouterAddresses : List String) (aComputerAddress a : String) : ℚ :=
  t.between a aComputerAddress + (aRouterAddresses.map (t.between a)).foldl max 0

/-- The average cost but for a constant factor. -/
def avgCost (t : Topology) (aRouterAddresses : List String) (aComputerAddress a : String) : ℚ :=
  t.numNodes * t.between a aComputerAddress + (aRouterAddresses.map (t.between a)).sum

/-- The cost that is minimized. -/
def firstCost (t : Topology) : Objective → List String → String → String → ℚ
  | .MinMax => t.maxCost
  | .MinAvg => t.avgCost

/-- The cost that breaks ties. -/
def secondCost (t : Topology) : Objective → List String → String → String → ℚ
  | .MinMax => t.avgCost
  | .MinAvg => t.maxCost

/-- How much more the first cost counts. -/
def omega (t : Topology) : ℚ := 1 + 2 * t.numNodes * t.numNodes

variable {t : Topology}

theorem distance_between {aSrc aDst : String} (hs : aSrc ∈ t.theNames) (hd : aDst ∈ t.theNames) :
    t.distance aSrc aDst = .ok (t.between aSrc aDst) := by
  obtain ⟨q, hq⟩ := distance_ok hs hd
  rw [between, hq]

/-- A distance is an entry of the matrix. -/
theorem between_mem (aSrc aDst : String) :
    t.between aSrc aDst = 0 ∨ t.between aSrc aDst ∈ t.theDistances := by
  unfold between distance
  split
  · next q hq =>
    split at hq
    · cases hq
    · cases hq
    · next i j _ _ =>
      cases hq
      cases hentry : t.theDistances[i * t.numNodes + j]? with
      | none => exact .inl rfl
      | some d => exact .inr (List.mem_of_getElem? hentry)
  · exact .inl rfl

theorem between_nonneg (h : ∀ q ∈ t.theDistances, 0 ≤ q) (aSrc aDst : String) :
    0 ≤ t.between aSrc aDst := by
  rcases between_mem (t := t) aSrc aDst with hzero | hmem
  · exact hzero.ge
  · exact h _ hmem

/-- All distances are numbers of hops. -/
def Hops (t : Topology) : Prop := ∀ q ∈ t.theDistances, ∃ n : ℕ, q = n ∧ n < t.numNodes

theorem Hops.between (h : t.Hops) (aSrc aDst : String) :
    ∃ n : ℕ, t.between aSrc aDst = n ∧ n ≤ t.numNodes := by
  rcases between_mem (t := t) aSrc aDst with hzero | hmem
  · exact ⟨0, by rw [hzero, Nat.cast_zero], Nat.zero_le _⟩
  · obtain ⟨n, hn, hlt⟩ := h _ hmem
    exact ⟨n, hn, hlt.le⟩

end Topology

/-- The search for the greatest distance may as well start at zero. -/
private theorem foldl_max_lowest {ds : List ℚ} (hne : ds ≠ []) (h : ∀ d ∈ ds, 0 ≤ d) :
    ds.foldl max lowest = ds.foldl max 0 := by
  cases ds with
  | nil => exact absurd rfl hne
  | cons d ds =>
    have hd : 0 ≤ d := h d List.mem_cons_self
    have hlow : lowest ≤ 0 := by
      rw [lowest]
      norm_num
    rw [List.foldl_cons, List.foldl_cons, max_eq_right hd, max_eq_right (hlow.trans hd)]

section Ranking

variable {t : Topology} {o : Objective} {R : List String} {b : String}

theorem score_eq (hdist : ∀ q ∈ t.theDistances, 0 ≤ q) (hR : ∀ a ∈ R, a ∈ t.theNames)
    (hb : b ∈ t.theNames) {a : String} (ha : a ∈ R) : score t o R b a =
      .ok (Scores.score (t.firstCost o R b) (t.secondCost o R b) t.omega a) := by
  have hds : R.map (t.between a) ≠ [] := List.map_eq_nil_iff.not.mpr (List.ne_nil_of_mem ha)
  have hpos : ∀ d ∈ R.map (t.between a), 0 ≤ d := by
    intro d hd
    obtain ⟨c, -, rfl⟩ := List.mem_map.mp hd
    exact Topology.between_nonneg hdist a c
  have hbetween : R.mapM (t.distance a) = .ok (R.map (t.between a)) :=
    Checks.mapM_of_ok fun c hc => Topology.distance_between (hR a ha) (hR c hc)
  rw [score, hbetween, Topology.distance_between (hR a ha) hb]
  simp only [bind, Except.bind, pure, Except.pure]
  rw [foldl_max_lowest hds hpos, ← List.sum_eq_foldl]
  cases o with
  | MinMax => rfl
  | MinAvg => exact congrArg Except.ok (add_comm _ _)

/-- Among known nodes the first address of least score is the closest one. -/
theorem closest_first (hdist : ∀ q ∈ t.theDistances, 0 ≤ q) (hne : R ≠ [])
    (hR : ∀ a ∈ R, a ∈ t.theNames) (hb : b ∈ t.theNames) : ∃ a, closest t o R b = .ok a ∧
      First (Scores.score (t.firstCost o R b) (t.secondCost o R b) t.omega) R a := by
  have hranking : (R.mapM fun a => do return (a, ← score t o R b a) :
      Except String (List (String × ℚ))) =
        .ok (R.map fun a => (a, Scores.score (t.firstCost o R b) (t.secondCost o R b) t.omega a)) := by
    refine Checks.mapM_of_ok fun a ha => ?_
    rw [score_eq hdist hR hb ha]
    rfl
  have hranked : R.map (fun a => (a, Scores.score (t.firstCost o R b) (t.secondCost o R b)
      t.omega a)) ≠ [] := List.map_eq_nil_iff.not.mpr hne
  obtain ⟨p, hp, hfirst⟩ := minElement_first hranked
  obtain ⟨a, rfl, ha⟩ := hfirst.of_map
  refine ⟨a, ?_, ha⟩
  rw [closest, hranking]
  simp only [bind, Except.bind, pure, Except.pure, hp, Option.getD_some]

private theorem foldl_max_cast (ns : List ℕ) (m : ℕ) :
    (ns.map (Nat.cast : ℕ → ℚ)).foldl max (m : ℚ) = ((ns.foldl max m : ℕ) : ℚ) := by
  induction ns generalizing m with
  | nil => rfl
  | cons n ns ih =>
    rw [List.map_cons, List.foldl_cons, List.foldl_cons, ← ih]
    push_cast
    rfl

private theorem foldl_max_le {ns : List ℕ} {m k : ℕ} (hm : m ≤ k) (h : ∀ n ∈ ns, n ≤ k) :
    ns.foldl max m ≤ k := by
  induction ns generalizing m with
  | nil => exact hm
  | cons n ns ih =>
    obtain ⟨hn, hns⟩ := List.forall_mem_cons.mp h
    exact ih (max_le hm hn) hns

/-- Numbers of hops are never too close to each other. -/
theorem separated_of_hops (h : t.Hops) (hdistinct : R.Nodup) (hR : ∀ a ∈ R, a ∈ t.theNames) :
    Separated (t.firstCost o R b) (t.secondCost o R b) t.omega R := by
  choose hop hbetween hle using h.between
  have hnodes : R.length ≤ t.numNodes := by
    rw [Topology.numNodes, ← Std.ExtTreeMap.length_keys]
    refine (List.subperm_of_subset hdistinct fun a ha => ?_).length_le
    exact Std.ExtTreeMap.mem_keys.mpr (hR a ha)
  have hmap : ∀ a, R.map (t.between a) = (R.map (hop a)).map (Nat.cast : ℕ → ℚ) := by
    intro a
    rw [List.map_map]
    exact List.map_congr_left fun c _ => hbetween a c
  have hhops : ∀ a, ∀ n ∈ R.map (hop a), n ≤ t.numNodes := by
    intro a n hn
    obtain ⟨c, -, rfl⟩ := List.mem_map.mp hn
    exact hle a c
  let theMax (a : String) : ℕ := hop a b + (R.map (hop a)).foldl max 0
  let theSum (a : String) : ℕ := t.numNodes * hop a b + (R.map (hop a)).sum
  have hmaxCost : t.maxCost R b = fun a => (theMax a : ℚ) := by
    funext a
    have hfold := foldl_max_cast (R.map (hop a)) 0
    rw [Nat.cast_zero] at hfold
    rw [Topology.maxCost, hmap, hfold, hbetween, ← Nat.cast_add]
  have havgCost : t.avgCost R b = fun a => (theSum a : ℚ) := by
    funext a
    rw [Topology.avgCost, hmap, hbetween, ← Nat.cast_list_sum, ← Nat.cast_mul, ← Nat.cast_add]
  have homega : t.omega = ((1 + 2 * t.numNodes * t.numNodes : ℕ) : ℚ) := by
    rw [Topology.omega]
    push_cast
    rfl
  have hsum : ∀ a, theSum a < 1 + 2 * t.numNodes * t.numNodes := by
    intro a
    have hhome : t.numNodes * hop a b ≤ t.numNodes * t.numNodes := Nat.mul_le_mul_left _ (hle a b)
    have hothers : (R.map (hop a)).sum ≤ t.numNodes * t.numNodes := by
      calc (R.map (hop a)).sum ≤ (R.map (hop a)).length • t.numNodes :=
            List.sum_le_card_nsmul _ _ (hhops a)
        _ = R.length * t.numNodes := by rw [List.length_map, nsmul_eq_mul, Nat.cast_id]
        _ ≤ t.numNodes * t.numNodes := Nat.mul_le_mul_right _ hnodes
    have htwice : 2 * t.numNodes * t.numNodes = 2 * (t.numNodes * t.numNodes) := mul_assoc _ _ _
    have hadd : theSum a = t.numNodes * hop a b + (R.map (hop a)).sum := rfl
    omega
  have hmax : ∀ a, theMax a < 1 + 2 * t.numNodes * t.numNodes := by
    intro a
    have hhome : hop a b ≤ t.numNodes := hle a b
    have hothers : (R.map (hop a)).foldl max 0 ≤ t.numNodes := foldl_max_le (Nat.zero_le _) (hhops a)
    have hsquare : t.numNodes ≤ t.numNodes * t.numNodes := Nat.le_mul_self _
    have htwice : 2 * t.numNodes * t.numNodes = 2 * (t.numNodes * t.numNodes) := mul_assoc _ _ _
    have hadd : theMax a = hop a b + (R.map (hop a)).foldl max 0 := rfl
    omega
  rw [homega]
  cases o with
  | MinMax =>
    rw [Topology.firstCost, Topology.secondCost, hmaxCost, havgCost]
    exact separated_of_nat fun a _ => hsum a
  | MinAvg =>
    rw [Topology.firstCost, Topology.secondCost, hmaxCost, havgCost]
    exact separated_of_nat fun a _ => hmax a

end Ranking

namespace EdgeControllerHier

/-- The addresses of the routers, in the order of the map. -/
abbrev routerAddresses (s : State) : List String := s.theDerived.theRouterAddresses.keys

/-- The address found, or kept from an earlier search, is the first one of least score. -/
theorem findClosest_first {s : State} {t : Topology} {o : Objective} {b : String}
    (ht : s.theDerived.theTopology = some t) (ho : s.theDerived.theObjective = some o)
    (hdist : ∀ q ∈ t.theDistances, 0 ≤ q) (hne : s.theDerived.theRouterAddresses.isEmpty = false)
    (hR : ∀ a ∈ routerAddresses s, a ∈ t.theNames) (hb : b ∈ t.theNames)
    (hcache : ∀ a, s.theDerived.theClosest[b]? = some a → closest t o (routerAddresses s) b = .ok a) :
    ∃ a m, findClosest b s = .ok a (withClosest s m) ∧ First (Scores.score
      (t.firstCost o (routerAddresses s) b) (t.secondCost o (routerAddresses s) b) t.omega)
        (routerAddresses s) a := by
  have hkeys : routerAddresses s ≠ [] := by
    intro hnil
    rw [← Std.ExtTreeMap.isEmpty_keys] at hne
    rw [routerAddresses] at hnil
    rw [hnil] at hne
    cases hne
  obtain ⟨a, ha, hfirst⟩ := closest_first hdist hkeys hR hb
  obtain ⟨err, hf, hno⟩ | ⟨a', m, hf, hm⟩ := findClosest_cases b hne
  · exact absurd ha (hno t o a ht ho)
  · have heq : a' = a := by
      rcases hm with ⟨hcached, -⟩ | ⟨-, t', o', ht', ho', hclosest⟩
      · exact Except.ok.inj ((hcache a' hcached).symm.trans ha)
      · rw [ht] at ht'
        rw [ho] at ho'
        cases ht'
        cases ho'
        exact Except.ok.inj (hclosest.symm.trans ha)
    rw [heq] at hf
    exact ⟨a, m, hf, hfirst⟩

/-- The address found is least in the first cost and, among those, in the second one, exactly
when the first costs are far enough from each other. -/
theorem findClosest_best_iff {s : State} {t : Topology} {o : Objective} {b : String}
    (ht : s.theDerived.theTopology = some t) (ho : s.theDerived.theObjective = some o)
    (hdist : ∀ q ∈ t.theDistances, 0 ≤ q) (hne : s.theDerived.theRouterAddresses.isEmpty = false)
    (hR : ∀ a ∈ routerAddresses s, a ∈ t.theNames) (hb : b ∈ t.theNames)
    (hcache : ∀ a, s.theDerived.theClosest[b]? = some a → closest t o (routerAddresses s) b = .ok a) :
    ∃ a m, findClosest b s = .ok a (withClosest s m) ∧ a ∈ routerAddresses s ∧
      (Best (t.firstCost o (routerAddresses s) b) (t.secondCost o (routerAddresses s) b)
          (routerAddresses s) a ↔
        Separated (t.firstCost o (routerAddresses s) b) (t.secondCost o (routerAddresses s) b)
          t.omega (routerAddresses s)) := by
  obtain ⟨a, m, hf, hfirst⟩ := findClosest_first ht ho hdist hne hR hb hcache
  exact ⟨a, m, hf, hfirst.mem, best_iff_separated hfirst⟩

/-- Where the distances are numbers of hops, the address found is always the best one. -/
theorem findClosest_best_of_hops {s : State} {t : Topology} {o : Objective} {b : String}
    (ht : s.theDerived.theTopology = some t) (ho : s.theDerived.theObjective = some o)
    (hhops : t.Hops) (hne : s.theDerived.theRouterAddresses.isEmpty = false)
    (hR : ∀ a ∈ routerAddresses s, a ∈ t.theNames) (hb : b ∈ t.theNames)
    (hcache : ∀ a, s.theDerived.theClosest[b]? = some a → closest t o (routerAddresses s) b = .ok a) :
    ∃ a m, findClosest b s = .ok a (withClosest s m) ∧
      Best (t.firstCost o (routerAddresses s) b) (t.secondCost o (routerAddresses s) b)
        (routerAddresses s) a := by
  have hdist : ∀ q ∈ t.theDistances, 0 ≤ q := by
    intro q hq
    obtain ⟨n, rfl, -⟩ := hhops q hq
    exact Nat.cast_nonneg n
  obtain ⟨a, m, hf, hfirst⟩ := findClosest_first ht ho hdist hne hR hb hcache
  have hdistinct : (routerAddresses s).Nodup := Std.ExtTreeMap.nodup_keys
  exact ⟨a, m, hf, (best_iff_separated hfirst).mpr (separated_of_hops hhops hdistinct hR)⟩

/-- A controller with two routers and no computers, for the given distances. -/
private def twoRouters (t : Topology) (o : Objective) : State where
  theComputers := ∅
  theRouters := ∅
  theLambdas := ∅
  theDerived := ⟨some o, some t, (∅ : Std.ExtTreeMap String (List String)).insert "host1" ["host1:1"]
    |>.insert "host2" ["host2:1"], ∅, ∅, ∅, ⟨∅, []⟩⟩

/-- The rows of two hosts with routers and of one with a computer. -/
private def threeHosts (theDistances : List ℚ) : Topology :=
  ⟨(∅ : Std.ExtTreeMap String Nat).insert "host1" 0 |>.insert "host2" 1 |>.insert "host3" 2,
    theDistances⟩

/-- Distances in hops. -/
private def hops : List ℚ := [0, 1, 1, 1, 0, 2, 1, 2, 0]

/-- The distances of the second router add up to much less, but one of them is somewhat
greater than those of the first. -/
private def close : List ℚ := [0, 0, 1 / 2, 21 / 40, 0, 0, 0, 0, 0]

theorem findClosest_best_iff_hops : ∃ a m,
    findClosest "host3" (twoRouters (threeHosts hops) .MinMax) =
      .ok a (withClosest (twoRouters (threeHosts hops) .MinMax) m) ∧
    a ∈ routerAddresses (twoRouters (threeHosts hops) .MinMax) ∧
      (Best ((threeHosts hops).firstCost .MinMax (routerAddresses (twoRouters (threeHosts hops) .MinMax))
            "host3") ((threeHosts hops).secondCost .MinMax
            (routerAddresses (twoRouters (threeHosts hops) .MinMax)) "host3")
          (routerAddresses (twoRouters (threeHosts hops) .MinMax)) a ↔
        Separated ((threeHosts hops).firstCost .MinMax
            (routerAddresses (twoRouters (threeHosts hops) .MinMax)) "host3")
          ((threeHosts hops).secondCost .MinMax
            (routerAddresses (twoRouters (threeHosts hops) .MinMax)) "host3")
          (threeHosts hops).omega (routerAddresses (twoRouters (threeHosts hops) .MinMax))) :=
  findClosest_best_iff rfl rfl (by decide +kernel) (by decide +kernel) (by decide +kernel)
    (by decide +kernel) (by simp [twoRouters])

/-- The first router has the lesser maximum cost, but the second one is found. -/
theorem close_router_found : ¬ ∀ (s : State) (t : Topology) (o : Objective) (b : String),
    s.theDerived.theTopology = some t → s.theDerived.theObjective = some o →
    (∀ q ∈ t.theDistances, 0 ≤ q) → s.theDerived.theRouterAddresses.isEmpty = false →
    (∀ a ∈ routerAddresses s, a ∈ t.theNames) → b ∈ t.theNames →
    (∀ a, s.theDerived.theClosest[b]? = some a → closest t o (routerAddresses s) b = .ok a) →
    ∃ a m, findClosest b s = .ok a (withClosest s m) ∧
      Best (t.firstCost o (routerAddresses s) b) (t.secondCost o (routerAddresses s) b)
        (routerAddresses s) a := by
  intro h
  obtain ⟨a, m, hfound, -, hbest⟩ := h (twoRouters (threeHosts close) .MinMax) (threeHosts close)
    .MinMax "host3" rfl rfl (by decide +kernel) (by decide +kernel) (by decide +kernel)
    (by decide +kernel) (by simp [twoRouters])
  have hsecond : (match findClosest "host3" (twoRouters (threeHosts close) .MinMax) with
      | .ok a _ => some a
      | .error _ _ => none) = some "host2" := by
    decide +kernel
  rw [hfound] at hsecond
  obtain rfl := Option.some.inj hsecond
  have hcosts := hbest "host1" (by decide +kernel)
  revert hcosts
  decide +kernel

end EdgeControllerHier

end ServerlessEdge.Controller
