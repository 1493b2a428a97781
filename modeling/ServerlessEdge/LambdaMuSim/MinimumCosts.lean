import ServerlessEdge.Library.Rounding
import ServerlessEdge.LambdaMuSim.FlowGraph
import ServerlessEdge.LambdaMuSim.InputCheck

/-! When the assignment found by a flow is the cheapest one: the virtual edges take the
sum of the capacities as it is accumulated in an int, which may be less than it is. -/
namespace ServerlessEdge.LambdaMuSim.Mcfp
open Library Allotments

variable {T W : ℕ}

/-- The flow library finds flows of minimum cost among the maximum ones, where no cost
is negative. -/
def FlowSolver.Finds (flow : FlowSolver) : Prop :=
  ∀ (T W : ℕ) (N : FlowNetwork ℕ (Link T W)) (s d : ℕ), (∀ e, 0 ≤ N.cost e) →
    N.MinCostMaxFlow s d fun e => N.capacity e - flow T W N s d e

theorem FlowSolver.Right.finds {flow : FlowSolver} (h : flow.Right) : flow.Finds :=
  fun T W N s d _ => h T W N s d

/-- What units cost. -/
def unitCost (aCosts : Costs T W) (n : Fin T → Fin W → ℕ) : ℚ := ∑ t, ∑ w, n t w * aCosts t w

/-- An assignment that meets the requests, of which no other one in shares of the same
total costs less. -/
structure Optimal (aCosts : Costs T W) (aRequests : Requests T) (aCapacities : Capacities W)
    (r : ℚ × Weights T W) : Prop extends Meets aCosts aRequests aCapacities r where
  cheapest : ∀ x : Weights T W, (∀ t w, 0 ≤ x t w) → (∀ t, ∑ w, x t w ≤ aRequests t) →
    (∀ w, ∑ t, x t w ≤ aCapacities w) → ∑ t, ∑ w, x t w = ∑ t, ∑ w, r.2 t w →
    r.1 ≤ ∑ t, ∑ w, x t w * aCosts t w

/-- Some cheapest units give no worker more than the virtual edges take. -/
def Fits (aCosts : Costs T W) (aRequests : Requests T) (aCapacities : Capacities W) : Prop :=
  ∃ n, Units aRequests aCapacities n ∧
    (∀ m, Units aRequests aCapacities m → unitCost aCosts n ≤ unitCost aCosts m) ∧
    ∀ w, ((∑ t, n t w : ℕ) : ℤ) ≤ max (maxCap aCapacities) 0

/-- The graph with virtual edges that take the sum of the capacities as it is. -/
def unlimited (aCosts : Costs T W) (aRequests : Requests T) (aCapacities : Capacities W) :
    FlowNetwork ℕ (Link T W) where
  tail := (graph aCosts aRequests aCapacities).tail
  head := (graph aCosts aRequests aCapacities).head
  capacity
    | .request t => aRequests t
    | .worker w => aCapacities w
    | .assignment _ _ | .exit _ => ∑ w, aCapacities w
  cost := (graph aCosts aRequests aCapacities).cost

/-- The sum of the capacities, as an int holds it. -/
theorem maxCap_eq (aCapacities : Capacities W) :
    maxCap aCapacities = (∑ w, aCapacities w).bmod (2 ^ 32) := by
  have hfold : ∀ (l : List ℤ) (acc : ℤ),
      l.foldl (fun sum c => (sum + c).bmod (2 ^ 32)) (acc.bmod (2 ^ 32)) =
        (acc + l.sum).bmod (2 ^ 32) := by
    intro l
    induction l with
    | nil =>
      intro acc
      rw [List.foldl_nil, List.sum_nil, add_zero]
    | cons c l ih =>
      intro acc
      rw [List.foldl_cons, List.sum_cons, Int.bmod_add_bmod, ih, add_assoc]
  have hsum := hfold (List.ofFn aCapacities) 0
  rw [zero_add, List.sum_ofFn] at hsum
  exact hsum

theorem maxCap_le {aCapacities : Capacities W} (h : ∀ w, 0 ≤ aCapacities w) :
    maxCap aCapacities ≤ ∑ w, aCapacities w := by
  have hsum : 0 ≤ ∑ w, aCapacities w := Finset.sum_nonneg fun w _ => h w
  rw [maxCap_eq, Int.bmod_def]
  omega

section Flow

variable {aCosts : Costs T W} {aRequests : Requests T} {aCapacities : Capacities W}
  {f : Link T W → ℤ}

theorem totalCost_eq : (graph aCosts aRequests aCapacities).totalCost f =
    ∑ t, ∑ w, f (.assignment t w) * aCosts t w := by
  rw [FlowNetwork.totalCost, Link.sum_eq]
  simp [graph]

theorem unitCost_toNat (hf : ∀ e, 0 ≤ f e) :
    unitCost aCosts (fun t w => (f (.assignment t w)).toNat) =
      ∑ t, ∑ w, f (.assignment t w) * aCosts t w := by
  refine Finset.sum_congr rfl fun t _ => Finset.sum_congr rfl fun w _ => ?_
  rw [← Int.cast_natCast, Int.toNat_of_nonneg (hf _)]

/-- Where some cheapest units fit, the flow gives cheapest units. -/
theorem assigned_cheapest
    (hf : (graph aCosts aRequests aCapacities).MinCostMaxFlow 0 (T + 2 * W + 1) f)
    (hfits : Fits aCosts aRequests aCapacities) :
    Units aRequests aCapacities (fun t w => (f (.assignment t w)).toNat) ∧
      ∀ m, Units aRequests aCapacities m →
        unitCost aCosts (fun t w => (f (.assignment t w)).toNat) ≤ unitCost aCosts m := by
  obtain ⟨n, hn, hcheapest, hfit⟩ := hfits
  have hm := assigned_allots hf
  have hnonneg := hf.feasible.nonneg
  obtain ⟨hrow, -, -⟩ := layers_eq aCosts aRequests aCapacities hf.feasible
  have hallots : Allots (fun t => (aRequests t).toNat) (fun w => ∑ t, n t w) n := by
    refine ⟨hn.row_le, fun w => le_refl _, ?_⟩
    rw [Finset.sum_comm (f := fun w t => n t w)]
    exact (Nat.min_eq_right (Finset.sum_le_sum fun t _ => hn.row_le t)).symm
  have hfeasible : (graph aCosts aRequests aCapacities).Feasible 0 (T + 2 * W + 1) (flowOf n) := by
    refine flowOf_feasible hallots (fun w => ?_) hfit
    have hcol := hn.col_le w
    omega
  have hvalue : ∀ g : Link T W → ℤ, (∀ e, 0 ≤ g e) →
      (∀ t, g (.request t) = ∑ w, g (.assignment t w)) →
      (graph aCosts aRequests aCapacities).value 0 g =
        ((∑ t, ∑ w, (g (.assignment t w)).toNat : ℕ) : ℤ) := by
    intro g hg hrow
    rw [value_eq, Nat.cast_sum]
    refine Finset.sum_congr rfl fun t _ => ?_
    rw [hrow, Nat.cast_sum]
    exact Finset.sum_congr rfl fun w _ => (Int.toNat_of_nonneg (hg _)).symm
  -- the units that fit are as many as can be, and the flow has no less
  have htotal : ∑ t, ∑ w, (f (.assignment t w)).toNat = ∑ t, ∑ w, n t w := by
    have hlargest := hf.largest _ hfeasible
    rw [hvalue _ hnonneg hrow, hvalue _ hfeasible.nonneg fun t => rfl] at hlargest
    have hge : ∑ t, ∑ w, n t w ≤ ∑ t, ∑ w, (f (.assignment t w)).toNat := by
      have hnat : ((∑ t, ∑ w, n t w : ℕ) : ℤ) ≤
          ((∑ t, ∑ w, (f (.assignment t w)).toNat : ℕ) : ℤ) := hlargest
      exact_mod_cast hnat
    refine le_antisymm ?_ hge
    rw [hm.total, hn.total]
    exact min_le_min_left _ (Finset.sum_le_sum fun w _ => min_le_left _ _)
  have hunits : Units aRequests aCapacities (fun t w => (f (.assignment t w)).toNat) :=
    ⟨hm.row_le, fun w => (hm.col_le w).trans (min_le_left _ _), htotal.trans hn.total⟩
  refine ⟨hunits, fun m hunits' => le_trans ?_ (hcheapest m hunits')⟩
  have hle := hf.cheapest _ hfeasible (by
    rw [hvalue _ hnonneg hrow, hvalue _ hfeasible.nonneg fun t => rfl, htotal]
    rfl)
  rw [totalCost_eq, totalCost_eq, ← unitCost_toNat hnonneg] at hle
  exact hle

/-- Without a bound on the virtual edges each flow gives units of the requests. -/
theorem unlimited_units {g : Link T W → ℤ}
    (hg : (unlimited aCosts aRequests aCapacities).Feasible 0 (T + 2 * W + 1) g)
    (hrequests : ∀ t, 0 ≤ aRequests t) (hcapacities : ∀ w, 0 ≤ aCapacities w) :
    (unlimited aCosts aRequests aCapacities).value 0 g =
        ((∑ t, ∑ w, (g (.assignment t w)).toNat : ℕ) : ℤ) ∧
      (∀ t, ∑ w, (g (.assignment t w)).toNat ≤ (aRequests t).toNat) ∧
      ∀ w, ∑ t, (g (.assignment t w)).toNat ≤ (aCapacities w).toNat := by
  obtain ⟨hrow, hcol, -⟩ := layers_eq aCosts aRequests aCapacities hg
  have hcast : ∀ t w, ((g (.assignment t w)).toNat : ℤ) = g (.assignment t w) :=
    fun t w => Int.toNat_of_nonneg (hg.nonneg _)
  have hvalue : (unlimited aCosts aRequests aCapacities).value 0 g = ∑ t, g (.request t) :=
    value_eq aCosts aRequests aCapacities g
  refine ⟨?_, fun t => ?_, fun w => ?_⟩
  · rw [hvalue]
    simp only [Nat.cast_sum, hcast, hrow]
  · have hle : g (.request t) ≤ max (aRequests t) 0 := hg.le_capacity (.request t)
    have hsum : ((∑ w, (g (.assignment t w)).toNat : ℕ) : ℤ) = g (.request t) := by
      simp only [Nat.cast_sum, hcast, hrow]
    have := hrequests t
    omega
  · have hle : g (.worker w) ≤ max (aCapacities w) 0 := hg.le_capacity (.worker w)
    have hsum : ((∑ t, (g (.assignment t w)).toNat : ℕ) : ℤ) = g (.worker w) := by
      simp only [Nat.cast_sum, hcast, hcol]
    have := hcapacities w
    omega

/-- Where some cheapest units fit, the bound on the virtual edges makes no difference. -/
theorem unlimited_of_fits
    (hf : (graph aCosts aRequests aCapacities).MinCostMaxFlow 0 (T + 2 * W + 1) f)
    (hrequests : ∀ t, 0 ≤ aRequests t) (hcapacities : ∀ w, 0 ≤ aCapacities w)
    (hfits : Fits aCosts aRequests aCapacities) :
    (unlimited aCosts aRequests aCapacities).MinCostMaxFlow 0 (T + 2 * W + 1) f := by
  obtain ⟨hunits, hcheapest⟩ := assigned_cheapest hf hfits
  have hcap : ∀ e, (graph aCosts aRequests aCapacities).capacity e ≤
      (unlimited aCosts aRequests aCapacities).capacity e := by
    intro e
    cases e with
    | request t => exact le_refl _
    | assignment t w => exact maxCap_le hcapacities
    | worker w => exact le_refl _
    | exit w => exact maxCap_le hcapacities
  have hfeasible : (unlimited aCosts aRequests aCapacities).Feasible 0 (T + 2 * W + 1) f :=
    ⟨hf.feasible.nonneg, fun e => (hf.feasible.le_capacity e).trans (max_le_max_right 0 (hcap e)),
      hf.feasible.conserves⟩
  obtain ⟨hvalue, -, -⟩ := unlimited_units hfeasible hrequests hcapacities
  refine ⟨hfeasible, fun g hg => ?_, fun g hg heq => ?_⟩
  · obtain ⟨hgvalue, hrow, hcol⟩ := unlimited_units hg hrequests hcapacities
    rw [hgvalue, hvalue, hunits.total, Nat.cast_le]
    refine le_min (Finset.sum_le_sum fun t _ => hrow t) ?_
    rw [Finset.sum_comm]
    exact Finset.sum_le_sum fun w _ => hcol w
  · obtain ⟨hgvalue, hrow, hcol⟩ := unlimited_units hg hrequests hcapacities
    rw [hgvalue, hvalue, Nat.cast_inj, hunits.total] at heq
    have hle := hcheapest _ ⟨hrow, hcol, heq⟩
    have hcost : ∀ g : Link T W → ℤ, (∀ e, 0 ≤ g e) →
        (unlimited aCosts aRequests aCapacities).totalCost g =
          unitCost aCosts fun t w => (g (.assignment t w)).toNat := by
      intro g hg
      rw [unitCost_toNat hg]
      have hcosts : (graph aCosts aRequests aCapacities).totalCost g = _ := totalCost_eq
      exact hcosts
    rw [hcost f hf.feasible.nonneg, hcost g hg.nonneg]
    exact hle

/-- The solver returns a cheapest assignment exactly if some cheapest units fit. -/
theorem solve_optimal_iff {flow : FlowSolver}
    (hf : (graph aCosts aRequests aCapacities).MinCostMaxFlow 0 (T + 2 * W + 1)
      (flow.flowIn aCosts aRequests aCapacities))
    (hrequests : ∀ t, 0 ≤ aRequests t) (hcapacities : ∀ w, 0 ≤ aCapacities w) :
    Optimal aCosts aRequests aCapacities (solve flow aCosts aRequests aCapacities) ↔
      Fits aCosts aRequests aCapacities := by
  have hR : ∀ t, (((aRequests t).toNat : ℕ) : ℚ) = aRequests t := by
    intro t
    exact_mod_cast Int.toNat_of_nonneg (hrequests t)
  have hC : ∀ w, (((aCapacities w).toNat : ℕ) : ℚ) = aCapacities w := by
    intro w
    exact_mod_cast Int.toNat_of_nonneg (hcapacities w)
  have hweights := solve_weights hf.feasible
  have hm := assigned_allots hf
  have hcost : (solve flow aCosts aRequests aCapacities).1 = unitCost aCosts fun t w =>
      (flow.flowIn aCosts aRequests aCapacities (.assignment t w)).toNat := by
    have hserves : Serves aCosts aRequests _ (solve flow aCosts aRequests aCapacities) :=
      ⟨rfl, _, hm, hweights⟩
    rw [hserves.cost]
    exact Finset.sum_congr rfl fun t _ => Finset.sum_congr rfl fun w _ =>
      congrArg (· * aCosts t w) (hweights t w)
  constructor
  · intro h
    have htotal : ∑ t, ∑ w, (flow.flowIn aCosts aRequests aCapacities (.assignment t w)).toNat =
        min (∑ t, (aRequests t).toNat) (∑ w, (aCapacities w).toNat) := by
      have hsum := h.total
      simp only [hweights, ← hR, ← hC] at hsum
      exact_mod_cast hsum
    refine ⟨_, ⟨hm.row_le, fun w => (hm.col_le w).trans (min_le_left _ _), htotal⟩,
      fun n hn => ?_, fun w => ?_⟩
    · rw [← hcost]
      refine h.cheapest (fun t w => n t w) (fun t w => Nat.cast_nonneg _) (fun t => ?_)
        (fun w => ?_) ?_
      · rw [← hR]
        exact_mod_cast hn.row_le t
      · rw [← hC]
        exact_mod_cast hn.col_le w
      · simp only [hweights]
        exact_mod_cast hn.total.trans htotal.symm
    · have hcol := hm.col_le w
      omega
  · intro hfits
    obtain ⟨hunits, hcheapest⟩ := assigned_cheapest hf hfits
    have hmeets : Meets aCosts aRequests aCapacities (solve flow aCosts aRequests aCapacities) :=
      Serves.meets ⟨rfl, _, hunits, hweights⟩ hrequests hcapacities
    refine ⟨hmeets, fun x hx hrow hcol htotal => ?_⟩
    rw [hmeets.total] at htotal
    obtain ⟨n, hn, hle⟩ := exists_units_le (R := fun t => (aRequests t).toNat)
      (C := fun w => (aCapacities w).toNat) hx (fun t => (hrow t).trans_eq (hR t).symm)
      (fun w => (hcol w).trans_eq (hC w).symm) (by simpa only [hR, hC] using htotal) aCosts
    rw [hcost]
    exact (hcheapest n hn).trans hle

end Flow

/-- For requests and capacities that are not negative, the solver returns a cheapest
assignment, on which the virtual edges have no effect, if and only if some cheapest units
give no worker more than the sum of the capacities in an int. -/
theorem solve_right_iff {flow : FlowSolver} (hflow : flow.Finds) {aCosts : List (List ℚ)}
    {aRequests aCapacities : List ℤ}
    (hinput : inputCheck aCosts aRequests aCapacities = .ok (T, W))
    (hcosts : ∀ myCosts ∈ aCosts, ∀ c ∈ myCosts, 0 ≤ c) (hrequests : ∀ r ∈ aRequests, 0 ≤ r)
    (hcapacities : ∀ c ∈ aCapacities, 0 ≤ c) :
    (Optimal (matrix T W aCosts) (vector T aRequests) (vector W aCapacities)
        (solve flow (matrix T W aCosts) (vector T aRequests) (vector W aCapacities)) ∧
      (unlimited (matrix T W aCosts) (vector T aRequests) (vector W aCapacities)).MinCostMaxFlow 0
        (T + 2 * W + 1)
        (flow.flowIn (matrix T W aCosts) (vector T aRequests) (vector W aCapacities))) ↔
      Fits (matrix T W aCosts) (vector T aRequests) (vector W aCapacities) := by
  obtain ⟨-, hrows, hcols, hT, hW⟩ := inputCheck_ok_iff.mp hinput
  have hR : ∀ t, 0 ≤ vector T aRequests t := fun t => hrequests _ (vector_mem hT t)
  have hC : ∀ w, 0 ≤ vector W aCapacities w := fun w => hcapacities _ (vector_mem hW w)
  have hnonneg : ∀ e, 0 ≤ (graph (matrix T W aCosts) (vector T aRequests)
      (vector W aCapacities)).cost e := by
    intro e
    cases e with
    | assignment t w =>
      obtain ⟨myCosts, hmem, hc⟩ := matrix_mem hrows hcols t w
      exact hcosts myCosts hmem _ hc
    | request t => exact le_refl _
    | worker w => exact le_refl _
    | exit w => exact le_refl _
  have hf := hflow T W _ 0 (T + 2 * W + 1) hnonneg
  rw [solve_optimal_iff hf hR hC]
  exact ⟨fun h => h.1, fun h => ⟨h, unlimited_of_fits hf hR hC h⟩⟩

/-- There are cheapest units, and they fit if an int can hold the sum of the capacities. -/
theorem fits_of_small {aCosts : Costs T W} {aRequests : Requests T} {aCapacities : Capacities W}
    (hcapacities : ∀ w, 0 ≤ aCapacities w) (hsum : ∑ w, aCapacities w < 2 ^ 31) :
    Fits aCosts aRequests aCapacities := by
  have hfinite : {n | Units aRequests aCapacities n}.Finite := by
    refine (Set.finite_Icc (0 : Fin T → Fin W → ℕ) fun _ w => (aCapacities w).toNat).subset
      fun n hn => ⟨fun t w => Nat.zero_le _, fun t w => hn.entry_le t w⟩
  obtain ⟨n, hn, hcheapest⟩ := Set.exists_min_image _ (unitCost aCosts) hfinite
    (exists_allots (fun t => (aRequests t).toNat) fun w => (aCapacities w).toNat)
  refine ⟨n, hn, hcheapest, fun w => ?_⟩
  have hpos : 0 ≤ ∑ w, aCapacities w := Finset.sum_nonneg fun w _ => hcapacities w
  have hle : aCapacities w ≤ ∑ w, aCapacities w :=
    Finset.single_le_sum (fun w _ => hcapacities w) (Finset.mem_univ w)
  have hcol := hn.col_le w
  have hmax : maxCap aCapacities = ∑ w, aCapacities w := by
    rw [maxCap_eq]
    exact Int.bmod_eq_of_le (by omega) (by omega)
  have := hcapacities w
  omega

/-- One unit requested of a worker that can take one. -/
theorem solve_right_iff_oneUnit : ∃ flow : FlowSolver, flow.Finds ∧
    Optimal (matrix 1 1 [[3]]) (vector 1 [1]) (vector 1 [1])
      (solve flow (matrix 1 1 [[3]]) (vector 1 [1]) (vector 1 [1])) := by
  obtain ⟨flow, hflow⟩ := exists_flowSolver_right
  refine ⟨flow, hflow.finds, ?_⟩
  have hinput : inputCheck [[(3 : ℚ)]] [1] [1] = .ok (1, 1) := rfl
  exact ((solve_right_iff hflow.finds hinput (by simp) (by decide) (by decide)).mpr
    (fits_of_small (by decide) (by decide))).1

/-- The sum of the capacities of a worker that can take 2 ^ 32 units is zero in an int, and
the unit requested is not served. -/
theorem wrapped_not_served : ¬ ∀ flow : FlowSolver, flow.Finds → ∀ (T W : ℕ) (aCosts : List (List ℚ))
    (aRequests aCapacities : List ℤ), inputCheck aCosts aRequests aCapacities = .ok (T, W) →
    (∀ myCosts ∈ aCosts, ∀ c ∈ myCosts, 0 ≤ c) → (∀ r ∈ aRequests, 0 ≤ r) →
    (∀ c ∈ aCapacities, 0 ≤ c) → aRequests.sum < 2 ^ 63 → aCapacities.sum < 2 ^ 63 →
    Optimal (matrix T W aCosts) (vector T aRequests) (vector W aCapacities)
      (solve flow (matrix T W aCosts) (vector T aRequests) (vector W aCapacities)) := by
  intro h
  obtain ⟨flow, hflow⟩ := exists_flowSolver_right
  have hone := h flow hflow.finds 1 1 [[3]] [1] [2 ^ 32] rfl (by simp) (by decide) (by decide)
    (by decide) (by decide)
  obtain ⟨n, hn, -, hfit⟩ := (solve_optimal_iff (hflow _ _ _ _ _) (by decide) (by decide)).mp hone
  have htotal : n 0 0 = 1 := by
    have := hn.total
    simpa [vector] using this
  have hle : ((n 0 0 : ℕ) : ℤ) ≤ 0 := by
    have := hfit 0
    simpa [maxCap, vector] using this
  omega

end ServerlessEdge.LambdaMuSim.Mcfp
