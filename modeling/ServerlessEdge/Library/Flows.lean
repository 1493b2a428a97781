import Mathlib.Algebra.BigOperators.Ring.Finset
import Mathlib.Algebra.Order.Ring.Rat
import Mathlib.Data.Int.Interval
import Mathlib.Data.Pi.Interval
import Mathlib.Data.Set.Finite.Lemmas

/-! Flows in a network with integer capacities, the largest of them and the
cheapest of the largest. Links without capacity carry nothing. -/
namespace ServerlessEdge.Library

/-- A network of directed links. -/
structure FlowNetwork (V E : Type*) where
  tail : E → V
  head : E → V
  capacity : E → ℤ
  cost : E → ℚ

namespace FlowNetwork

variable {V E : Type*} [DecidableEq V] [Fintype E] (N : FlowNetwork V E)

/-- What leaves a vertex. -/
def out (f : E → ℤ) (v : V) : ℤ := ∑ e with N.tail e = v, f e

/-- What enters a vertex. -/
def into (f : E → ℤ) (v : V) : ℤ := ∑ e with N.head e = v, f e

/-- What leaves the source beyond what comes back. -/
def value (s : V) (f : E → ℤ) : ℤ := N.out f s - N.into f s

def totalCost (f : E → ℤ) : ℚ := ∑ e, f e * N.cost e

/-- A flow from a source to a destination. -/
structure Feasible (s d : V) (f : E → ℤ) : Prop where
  nonneg : ∀ e, 0 ≤ f e
  le_capacity : ∀ e, f e ≤ max (N.capacity e) 0
  conserves : ∀ v, v ≠ s → v ≠ d → N.into f v = N.out f v

/-- No flow is larger, and none as large is cheaper. -/
structure MinCostMaxFlow (s d : V) (f : E → ℤ) : Prop where
  feasible : N.Feasible s d f
  largest : ∀ g, N.Feasible s d g → N.value s g ≤ N.value s f
  cheapest : ∀ g, N.Feasible s d g → N.value s g = N.value s f → N.totalCost f ≤ N.totalCost g

theorem feasible_zero (s d : V) : N.Feasible s d 0 where
  nonneg _ := le_refl _
  le_capacity _ := le_max_right _ _
  conserves v _ _ := by simp [into, out]

theorem finite_feasible (s d : V) : {f | N.Feasible s d f}.Finite := by
  classical
  refine (Set.finite_Icc (0 : E → ℤ) fun e => max (N.capacity e) 0).subset fun f hf => ?_
  exact ⟨fun e => hf.nonneg e, fun e => hf.le_capacity e⟩

theorem exists_minCostMaxFlow (s d : V) : ∃ f, N.MinCostMaxFlow s d f := by
  obtain ⟨m, hm, hlargest⟩ := Set.exists_max_image {f | N.Feasible s d f} (N.value s)
    (N.finite_feasible s d) ⟨0, N.feasible_zero s d⟩
  -- among the flows as large as this one there is a cheapest one
  have hfin : {f | N.Feasible s d f ∧ N.value s f = N.value s m}.Finite :=
    (N.finite_feasible s d).subset fun f hf => hf.1
  obtain ⟨f, ⟨hf, hvalue⟩, hcheapest⟩ := Set.exists_min_image _ N.totalCost hfin ⟨m, hm, rfl⟩
  refine ⟨f, hf, ?_, ?_⟩
  · intro g hg
    rw [hvalue]
    exact hlargest g hg
  · intro g hg heq
    exact hcheapest g ⟨hg, heq.trans hvalue⟩

end FlowNetwork

end ServerlessEdge.Library
