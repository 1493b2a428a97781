import Mathlib.Algebra.BigOperators.Ring.Finset
import Mathlib.Data.Fintype.BigOperators
import ServerlessEdge.LambdaMuSim.Served

/-! The flows in the graph of tasks and workers: a flow gives units of the tasks
to the workers, and each such assignment of units is a flow. -/
namespace ServerlessEdge.LambdaMuSim.Mcfp
open Library Allotments

variable {T W : ℕ}

namespace Link

/-- The edges in the order of their layers. -/
def layers : Fin T ⊕ (Fin T × Fin W) ⊕ Fin W ⊕ Fin W ≃ Link T W where
  toFun
    | .inl t => request t
    | .inr (.inl e) => assignment e.1 e.2
    | .inr (.inr (.inl w)) => worker w
    | .inr (.inr (.inr w)) => exit w
  invFun
    | request t => .inl t
    | assignment t w => .inr (.inl (t, w))
    | worker w => .inr (.inr (.inl w))
    | exit w => .inr (.inr (.inr w))
  left_inv := by rintro (t | e | w | w) <;> rfl
  right_inv := by rintro (t | e | w | w) <;> rfl

instance : Fintype (Link T W) := Fintype.ofEquiv _ layers

theorem sum_eq {M : Type*} [AddCommMonoid M] (f : Link T W → M) : ∑ e, f e =
    ∑ t, f (request t) + (∑ t, ∑ w, f (assignment t w) + (∑ w, f (worker w) + ∑ w, f (exit w))) := by
  rw [← Equiv.sum_comp layers, Fintype.sum_sum_type, Fintype.sum_sum_type, Fintype.sum_sum_type,
    Fintype.sum_prod_type]
  rfl

end Link

section Vertices

variable (aCosts : Costs T W) (aRequests : Requests T) (aCapacities : Capacities W)
  (f : Link T W → ℤ)

theorem out_source : (graph aCosts aRequests aCapacities).out f 0 = ∑ t, f (.request t) := by
  rw [FlowNetwork.out, Finset.sum_filter, Link.sum_eq]
  simp [graph]

theorem into_source : (graph aCosts aRequests aCapacities).into f 0 = 0 := by
  rw [FlowNetwork.into, Finset.sum_filter, Link.sum_eq]
  simp [graph]

theorem into_task (t : Fin T) :
    (graph aCosts aRequests aCapacities).into f (t + 1) = f (.request t) := by
  have hworker : ∀ w : ℕ, w + (T + 1) ≠ t + 1 := by intro w; omega
  have hworker' : ∀ w : ℕ, w + (T + 1) + W ≠ t + 1 := by intro w; omega
  have hexit : T + 2 * W + 1 ≠ t + 1 := by omega
  rw [FlowNetwork.into, Finset.sum_filter, Link.sum_eq]
  simp only [graph, hworker, hworker', hexit, if_false, Finset.sum_const_zero, add_zero,
    Nat.add_right_cancel_iff, Fin.val_inj, Finset.sum_ite_eq', Finset.mem_univ, if_true]

theorem out_task (t : Fin T) :
    (graph aCosts aRequests aCapacities).out f (t + 1) = ∑ w, f (.assignment t w) := by
  have hsource : (0 : ℕ) ≠ t + 1 := by omega
  have hworker : ∀ w : ℕ, w + (T + 1) ≠ t + 1 := by intro w; omega
  have hexit : ∀ w : ℕ, w + (T + W + 1) ≠ t + 1 := by intro w; omega
  rw [FlowNetwork.out, Finset.sum_filter, Link.sum_eq]
  simp only [graph, hsource, hworker, hexit, if_false, Finset.sum_const_zero, add_zero, zero_add,
    Nat.add_right_cancel_iff, Fin.val_inj]
  rw [Finset.sum_eq_single t]
  · simp
  · intro u _ hu
    simp [hu]
  · simp

theorem into_worker (w : Fin W) :
    (graph aCosts aRequests aCapacities).into f (w + (T + 1)) = ∑ t, f (.assignment t w) := by
  have htask : ∀ t : Fin T, (t : ℕ) + 1 ≠ w + (T + 1) := by intro t; omega
  have hworker' : ∀ v : ℕ, v + (T + 1) + W ≠ w + (T + 1) := by intro v; omega
  have hexit : T + 2 * W + 1 ≠ w + (T + 1) := by omega
  rw [FlowNetwork.into, Finset.sum_filter, Link.sum_eq]
  simp only [graph, htask, hworker', hexit, if_false, Finset.sum_const_zero, add_zero, zero_add,
    Nat.add_right_cancel_iff, Fin.val_inj, Finset.sum_ite_eq', Finset.mem_univ, if_true]

theorem out_worker (w : Fin W) :
    (graph aCosts aRequests aCapacities).out f (w + (T + 1)) = f (.worker w) := by
  have hsource : (0 : ℕ) ≠ w + (T + 1) := by omega
  have htask : ∀ t : Fin T, (t : ℕ) + 1 ≠ w + (T + 1) := by intro t; omega
  have hexit : ∀ v : ℕ, v + (T + W + 1) ≠ w + (T + 1) := by intro v; omega
  rw [FlowNetwork.out, Finset.sum_filter, Link.sum_eq]
  simp only [graph, hsource, htask, hexit, if_false, Finset.sum_const_zero, add_zero, zero_add,
    Nat.add_right_cancel_iff, Fin.val_inj, Finset.sum_ite_eq', Finset.mem_univ, if_true]

theorem into_worker' (w : Fin W) :
    (graph aCosts aRequests aCapacities).into f (w + (T + W + 1)) = f (.worker w) := by
  have htask : ∀ t : Fin T, (t : ℕ) + 1 ≠ w + (T + W + 1) := by intro t; omega
  have hassign : ∀ v : Fin W, (v : ℕ) + (T + 1) ≠ w + (T + W + 1) := by intro v; omega
  have hworker : ∀ v : Fin W, (v : ℕ) + (T + 1) + W = w + (T + W + 1) ↔ v = w := by
    intro v
    rw [Fin.ext_iff]
    omega
  have hexit : T + 2 * W + 1 ≠ w + (T + W + 1) := by omega
  rw [FlowNetwork.into, Finset.sum_filter, Link.sum_eq]
  simp only [graph, htask, hassign, hworker, hexit, if_false, Finset.sum_const_zero, add_zero,
    zero_add, Finset.sum_ite_eq', Finset.mem_univ, if_true]

theorem out_worker' (w : Fin W) :
    (graph aCosts aRequests aCapacities).out f (w + (T + W + 1)) = f (.exit w) := by
  have hsource : (0 : ℕ) ≠ w + (T + W + 1) := by omega
  have htask : ∀ t : Fin T, (t : ℕ) + 1 ≠ w + (T + W + 1) := by intro t; omega
  have hworker : ∀ v : Fin W, (v : ℕ) + (T + 1) ≠ w + (T + W + 1) := by intro v; omega
  rw [FlowNetwork.out, Finset.sum_filter, Link.sum_eq]
  simp only [graph, hsource, htask, hworker, if_false, Finset.sum_const_zero, zero_add,
    Nat.add_right_cancel_iff, Fin.val_inj, Finset.sum_ite_eq', Finset.mem_univ, if_true]

/-- Nothing enters or leaves a vertex beyond the destination. -/
theorem beyond {v : ℕ} (hv : T + 2 * W + 1 < v) :
    (graph aCosts aRequests aCapacities).into f v = 0 ∧
      (graph aCosts aRequests aCapacities).out f v = 0 := by
  constructor
  · refine Finset.sum_eq_zero fun e he => ?_
    have hhead := (Finset.mem_filter.mp he).2
    cases e <;> simp only [graph] at hhead <;> omega
  · refine Finset.sum_eq_zero fun e he => ?_
    have htail := (Finset.mem_filter.mp he).2
    cases e <;> simp only [graph] at htail <;> omega

theorem value_eq :
    (graph aCosts aRequests aCapacities).value 0 f = ∑ t, f (.request t) := by
  rw [FlowNetwork.value, out_source, into_source, sub_zero]

end Vertices

/-- The flow library finds flows of minimum cost among the maximum ones. -/
def FlowSolver.Right (flow : FlowSolver) : Prop :=
  ∀ (T W : ℕ) (N : FlowNetwork ℕ (Link T W)) (s d : ℕ),
    N.MinCostMaxFlow s d fun e => N.capacity e - flow T W N s d e

theorem exists_flowSolver_right : ∃ flow : FlowSolver, flow.Right := by
  have hone : ∀ (T W : ℕ) (N : FlowNetwork ℕ (Link T W)) (s d : ℕ), ∃ residual : Link T W → ℤ,
      N.MinCostMaxFlow s d fun e => N.capacity e - residual e := by
    intro T W N s d
    obtain ⟨f, hf⟩ := N.exists_minCostMaxFlow s d
    refine ⟨fun e => N.capacity e - f e, ?_⟩
    simpa only [sub_sub_cancel] using hf
  choose flow hflow using hone
  exact ⟨flow, hflow⟩

section Flow

variable {aCosts : Costs T W} {aRequests : Requests T} {aCapacities : Capacities W}

/-- The units given to workers as a flow. -/
def flowOf (n : Fin T → Fin W → ℕ) : Link T W → ℤ
  | .request t => ∑ w, (n t w : ℤ)
  | .assignment t w => n t w
  | .worker w => ∑ t, (n t w : ℤ)
  | .exit w => ∑ t, (n t w : ℤ)

/-- A vertex is the source, the destination, a task or a worker, or none. -/
theorem vertex_cases (T W v : ℕ) : v = 0 ∨ (∃ t : Fin T, v = t + 1) ∨
    (∃ w : Fin W, v = w + (T + 1)) ∨ (∃ w : Fin W, v = w + (T + W + 1)) ∨ T + 2 * W + 1 ≤ v := by
  by_cases h0 : v = 0
  · exact .inl h0
  · by_cases h1 : v < T + 1
    · exact .inr (.inl ⟨⟨v - 1, by omega⟩, by simp only; omega⟩)
    · by_cases h2 : v < T + W + 1
      · exact .inr (.inr (.inl ⟨⟨v - (T + 1), by omega⟩, by simp only; omega⟩))
      · by_cases h3 : v < T + 2 * W + 1
        · exact .inr (.inr (.inr (.inl ⟨⟨v - (T + W + 1), by omega⟩, by simp only; omega⟩)))
        · exact .inr (.inr (.inr (.inr (by omega))))

theorem flowOf_feasible {offered : Fin W → ℕ} {n : Fin T → Fin W → ℕ}
    (hn : Allots (fun t => (aRequests t).toNat) offered n)
    (hcap : ∀ w, (offered w : ℤ) ≤ max (aCapacities w) 0)
    (hmax : ∀ w, (offered w : ℤ) ≤ max (maxCap aCapacities) 0) :
    (graph aCosts aRequests aCapacities).Feasible 0 (T + 2 * W + 1) (flowOf n) where
  nonneg e := by
    cases e with
    | request t => exact Finset.sum_nonneg fun w _ => Int.natCast_nonneg _
    | assignment t w => exact Int.natCast_nonneg _
    | worker w => exact Finset.sum_nonneg fun t _ => Int.natCast_nonneg _
    | exit w => exact Finset.sum_nonneg fun t _ => Int.natCast_nonneg _
  le_capacity e := by
    have hcol : ∀ w, ∑ t, (n t w : ℤ) ≤ offered w := by
      intro w
      have := hn.col_le w
      exact_mod_cast this
    cases e with
    | request t =>
      have hrow : ∑ w, (n t w : ℤ) ≤ ((aRequests t).toNat : ℤ) := by
        have := hn.row_le t
        exact_mod_cast this
      simp only [flowOf, graph]
      omega
    | assignment t w =>
      have hentry : (n t w : ℤ) ≤ offered w := by
        have := hn.entry_le t w
        exact_mod_cast this
      exact hentry.trans (hmax w)
    | worker w => exact (hcol w).trans (hcap w)
    | exit w => exact (hcol w).trans (hmax w)
  conserves v hs hd := by
    rcases vertex_cases T W v with rfl | ⟨t, rfl⟩ | ⟨w, rfl⟩ | ⟨w, rfl⟩ | hv
    · exact absurd rfl hs
    · rw [into_task, out_task]
      rfl
    · rw [into_worker, out_worker]
      rfl
    · rw [into_worker', out_worker']
      rfl
    · obtain ⟨hinto, hout⟩ := beyond aCosts aRequests aCapacities (flowOf n)
        (lt_of_le_of_ne hv (Ne.symm hd))
      rw [hinto, hout]

/-- What passes through the layers, whatever the capacities. -/
theorem layers_eq (aCosts : Costs T W) (aRequests : Requests T) (aCapacities : Capacities W)
    {capacity : Link T W → ℤ} {f : Link T W → ℤ}
    (hf : ({ graph aCosts aRequests aCapacities with capacity := capacity }).Feasible 0
      (T + 2 * W + 1) f) :
    (∀ t, f (.request t) = ∑ w, f (.assignment t w)) ∧
      (∀ w, ∑ t, f (.assignment t w) = f (.worker w)) ∧ ∀ w, f (.worker w) = f (.exit w) := by
  have hconserves : ∀ v, v ≠ 0 → v ≠ T + 2 * W + 1 →
      (graph aCosts aRequests aCapacities).into f v = (graph aCosts aRequests aCapacities).out f v :=
    hf.conserves
  refine ⟨fun t => ?_, fun w => ?_, fun w => ?_⟩
  · have h := hconserves (t + 1) (by omega) (by omega)
    rwa [into_task, out_task] at h
  · have h := hconserves (w + (T + 1)) (by omega) (by omega)
    rwa [into_worker, out_worker] at h
  · have h := hconserves (w + (T + W + 1)) (by omega) (by omega)
    rwa [into_worker', out_worker'] at h

/-- What the flow gives to a worker in units of each task. -/
theorem assigned_allots {f : Link T W → ℤ}
    (hf : (graph aCosts aRequests aCapacities).MinCostMaxFlow 0 (T + 2 * W + 1) f) :
    Allots (fun t => (aRequests t).toNat)
      (fun w => min (aCapacities w).toNat (maxCap aCapacities).toNat)
      fun t w => (f (.assignment t w)).toNat := by
  have hnonneg := hf.feasible.nonneg
  have hcast : ∀ t w, ((f (.assignment t w)).toNat : ℤ) = f (.assignment t w) :=
    fun t w => Int.toNat_of_nonneg (hnonneg _)
  obtain ⟨hrow, hcol, hexit⟩ := layers_eq aCosts aRequests aCapacities hf.feasible
  have hrow_le : ∀ t, ∑ w, (f (.assignment t w)).toNat ≤ (aRequests t).toNat := by
    intro t
    have hle : f (.request t) ≤ max (aRequests t) 0 := hf.feasible.le_capacity _
    have hsum : ((∑ w, (f (.assignment t w)).toNat : ℕ) : ℤ) = f (.request t) := by
      rw [hrow, Nat.cast_sum]
      exact Finset.sum_congr rfl fun w _ => hcast t w
    omega
  have hcol_le : ∀ w, ∑ t, (f (.assignment t w)).toNat ≤
      min (aCapacities w).toNat (maxCap aCapacities).toNat := by
    intro w
    have hworker : f (.worker w) ≤ max (aCapacities w) 0 := hf.feasible.le_capacity _
    have hle : f (.exit w) ≤ max (maxCap aCapacities) 0 := hf.feasible.le_capacity _
    have hsum : ((∑ t, (f (.assignment t w)).toNat : ℕ) : ℤ) = f (.worker w) := by
      rw [← hcol, Nat.cast_sum]
      exact Finset.sum_congr rfl fun t _ => hcast t w
    have := hexit w
    omega
  refine ⟨hrow_le, hcol_le, le_antisymm (le_min ?_ ?_) ?_⟩
  · exact Finset.sum_le_sum fun t _ => hrow_le t
  · rw [Finset.sum_comm]
    exact Finset.sum_le_sum fun w _ => hcol_le w
  · -- as many units as possible make up a flow, which is not larger than this one
    obtain ⟨n, hn⟩ := exists_allots (fun t => (aRequests t).toNat)
      fun w => min (aCapacities w).toNat (maxCap aCapacities).toNat
    have hlargest := hf.largest (flowOf n) (flowOf_feasible hn
      (fun w => by omega) (fun w => by omega))
    rw [value_eq, value_eq] at hlargest
    have htotal : ((∑ t, ∑ w, n t w : ℕ) : ℤ) ≤ ((∑ t, ∑ w, (f (.assignment t w)).toNat : ℕ) : ℤ) := by
      simp only [Nat.cast_sum, hcast, ← hrow]
      exact hlargest
    rw [← hn.total]
    exact_mod_cast htotal

/-- The flow that the library leaves in the graph. -/
def FlowSolver.flowIn (flow : FlowSolver) (aCosts : Costs T W) (aRequests : Requests T)
    (aCapacities : Capacities W) (e : Link T W) : ℤ :=
  (graph aCosts aRequests aCapacities).capacity e -
    flow T W (graph aCosts aRequests aCapacities) 0 (T + 2 * W + 1) e

theorem solve_weights {flow : FlowSolver} (hf : (graph aCosts aRequests aCapacities).Feasible 0
    (T + 2 * W + 1) (flow.flowIn aCosts aRequests aCapacities)) (t : Fin T) (w : Fin W) :
    (solve flow aCosts aRequests aCapacities).2 t w =
      (flow.flowIn aCosts aRequests aCapacities (.assignment t w)).toNat := by
  have hnonneg := hf.nonneg (.assignment t w)
  have hle := hf.le_capacity (.assignment t w)
  simp only [solve, FlowSolver.flowIn] at hnonneg hle ⊢
  split
  · rw [← Int.cast_sub, ← Int.cast_natCast, Int.toNat_of_nonneg hnonneg]
  · have hzero : ((graph aCosts aRequests aCapacities).capacity (.assignment t w) -
        flow T W (graph aCosts aRequests aCapacities) 0 (T + 2 * W + 1) (.assignment t w)).toNat = 0 := by
      omega
    rw [hzero, Nat.cast_zero]

/-- With flows of minimum cost the workers offer no more than the largest value
of the capacity of the virtual edges. -/
theorem solve_serves {flow : FlowSolver} (hflow : flow.Right) (aCosts : Costs T W)
    (aRequests : Requests T) (aCapacities : Capacities W) :
    Serves aCosts aRequests (fun w => min (aCapacities w).toNat (maxCap aCapacities).toNat)
      (solve flow aCosts aRequests aCapacities) := by
  have hf := hflow T W (graph aCosts aRequests aCapacities) 0 (T + 2 * W + 1)
  exact ⟨rfl, _, assigned_allots hf, solve_weights hf.feasible⟩

end Flow

end ServerlessEdge.LambdaMuSim.Mcfp
