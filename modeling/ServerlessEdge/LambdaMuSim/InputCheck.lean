import Mathlib.Data.List.GetD
import ServerlessEdge.LambdaMuSim.Served

/-! The vectors that the solvers accept, and the assignments they find for them at
random and by the cheapest worker. -/
namespace ServerlessEdge.LambdaMuSim.Mcfp
open Library Allotments

variable {T W : ℕ}

theorem inputCheck_ok_iff {α : Type} {aCosts : List (List α)} {aRequests aCapacities : List ℤ} :
    inputCheck aCosts aRequests aCapacities = .ok (T, W) ↔ aCosts ≠ [] ∧ aCosts.length = T ∧
      (∀ myCosts ∈ aCosts, myCosts.length = W) ∧ aRequests.length = T ∧ aCapacities.length = W := by
  cases aCosts with
  | nil => simp [inputCheck]
  | cons first rest =>
    rw [inputCheck]
    split
    · rename_i row hrow
      have hne : row.length ≠ first.length := by simpa using List.find?_some hrow
      refine iff_of_false (fun h => by cases h) fun h => ?_
      exact hne ((h.2.2.1 row (List.mem_of_find?_eq_some hrow)).trans
        (h.2.2.1 first List.mem_cons_self).symm)
    · rename_i hrows
      have hsame : ∀ myCosts ∈ first :: rest, myCosts.length = first.length := by
        intro row hrow
        simpa using List.find?_eq_none.mp hrows row hrow
      split
      · rename_i hrequests
        refine iff_of_false (fun h => by cases h) fun h => hrequests ?_
        rw [h.2.2.2.1, h.2.1]
      · rename_i hrequests
        split
        · rename_i hcapacities
          refine iff_of_false (fun h => by cases h) fun h => hcapacities ?_
          rw [h.2.2.2.2, h.2.2.1 first List.mem_cons_self]
        · rename_i hcapacities
          simp only [ne_eq, not_not] at hrequests hcapacities
          constructor
          · intro h
            cases h
            exact ⟨List.cons_ne_nil _ _, rfl, hsame, hrequests, hcapacities⟩
          · rintro ⟨-, hT, hW, -, -⟩
            rw [hT, hW first List.mem_cons_self]

theorem vector_mem {l : List ℤ} {n : ℕ} (hl : l.length = n) (i : Fin n) : vector n l i ∈ l := by
  rw [vector, List.getD_eq_getElem _ _ (by omega)]
  exact List.getElem_mem _

theorem matrix_mem {α : Type} [Zero α] {aCosts : List (List α)} (hT : aCosts.length = T)
    (hW : ∀ myCosts ∈ aCosts, myCosts.length = W) (t : Fin T) (w : Fin W) :
    ∃ myCosts ∈ aCosts, matrix T W aCosts t w ∈ myCosts := by
  have ht : aCosts.getD t [] ∈ aCosts := by
    rw [List.getD_eq_getElem _ _ (by omega)]
    exact List.getElem_mem _
  have hw : (w : ℕ) < (aCosts.getD t []).length := (hW _ ht).symm ▸ w.isLt
  refine ⟨_, ht, ?_⟩
  rw [matrix, List.getD_eq_getElem _ 0 hw]
  exact List.getElem_mem _

/-- Weights that serve as much as possible, at the cost returned with them. -/
structure Meets (aCosts : Costs T W) (aRequests : Requests T) (aCapacities : Capacities W)
    (r : ℚ × Weights T W) : Prop where
  nonneg : ∀ t w, 0 ≤ r.2 t w
  row_le : ∀ t, ∑ w, r.2 t w ≤ aRequests t
  col_le : ∀ w, ∑ t, r.2 t w ≤ aCapacities w
  total : ∑ t, ∑ w, r.2 t w = min (∑ t, (aRequests t : ℚ)) (∑ w, (aCapacities w : ℚ))
  cost : r.1 = ∑ t, ∑ w, r.2 t w * aCosts t w

/-- Units of the tasks given to the workers, as far as they can take them. -/
abbrev Units (aRequests : Requests T) (aCapacities : Capacities W) :=
  Allots (fun t => (aRequests t).toNat) fun w => (aCapacities w).toNat

theorem Serves.meets {aCosts : Costs T W} {aRequests : Requests T} {aCapacities : Capacities W}
    {r : ℚ × Weights T W} (h : Serves aCosts aRequests (fun w => (aCapacities w).toNat) r)
    (hrequests : ∀ t, 0 ≤ aRequests t) (hcapacities : ∀ w, 0 ≤ aCapacities w) :
    Meets aCosts aRequests aCapacities r := by
  obtain ⟨n, hn, hr⟩ := h.weights
  have hR : ∀ t, (((aRequests t).toNat : ℕ) : ℚ) = aRequests t := by
    intro t
    exact_mod_cast Int.toNat_of_nonneg (hrequests t)
  have hC : ∀ w, (((aCapacities w).toNat : ℕ) : ℚ) = aCapacities w := by
    intro w
    exact_mod_cast Int.toNat_of_nonneg (hcapacities w)
  refine ⟨fun t w => ?_, fun t => ?_, fun w => ?_, ?_, h.cost⟩
  · rw [hr]
    exact Nat.cast_nonneg _
  · have hrow := hn.row_le t
    rw [Finset.sum_congr rfl fun w _ => hr t w, ← hR]
    exact_mod_cast hrow
  · have hcol := hn.col_le w
    rw [Finset.sum_congr rfl fun t _ => hr t w, ← hC]
    exact_mod_cast hcol
  · have htotal := congrArg (Nat.cast (R := ℚ)) hn.total
    push_cast at htotal
    simpa only [hr, ← hR, ← hC] using htotal

/-- The random solver, whatever it draws, and the greedy one serve as much as possible,
and the greedy one gives each unit, in task order, to a cheapest worker. -/
theorem solvers_serve {aCosts : List (List ℚ)} {aRequests aCapacities : List ℤ}
    (hinput : inputCheck aCosts aRequests aCapacities = .ok (T, W))
    (hrequests : ∀ r ∈ aRequests, 0 ≤ r) (hcapacities : ∀ c ∈ aCapacities, 0 ≤ c) :
    (∀ aRnd, Meets (matrix T W aCosts) (vector T aRequests) (vector W aCapacities)
      (solveRandom (matrix T W aCosts) (vector T aRequests) (vector W aCapacities) aRnd)) ∧
    Meets (matrix T W aCosts) (vector T aRequests) (vector W aCapacities)
      (solveGreedy (matrix T W aCosts) (vector T aRequests) (vector W aCapacities)) ∧
    InTaskOrder (matrix T W aCosts) (vector T aRequests) (vector W aCapacities)
      (solveGreedy (matrix T W aCosts) (vector T aRequests) (vector W aCapacities)) := by
  obtain ⟨-, -, -, hT, hW⟩ := inputCheck_ok_iff.mp hinput
  have hR : ∀ t, 0 ≤ vector T aRequests t := fun t => hrequests _ (vector_mem hT t)
  have hC : ∀ w, 0 ≤ vector W aCapacities w := fun w => hcapacities _ (vector_mem hW w)
  refine ⟨fun aRnd => ?_, ?_, ?_⟩
  · exact (solveRandom_serves _ _ _ aRnd).meets hR hC
  · exact (solveGreedy_serves _ _ _).meets hR hC
  · exact (solveGreedy_spec _ _ _).2

/-- Two tasks that request three units from workers that can take two and one. -/
theorem solvers_serve_twoTasks :
    Meets (matrix 2 2 [[1, 2], [2, 5]]) (vector 2 [1, 2]) (vector 2 [2, 1])
      (solveGreedy (matrix 2 2 [[1, 2], [2, 5]]) (vector 2 [1, 2]) (vector 2 [2, 1])) :=
  (solvers_serve (T := 2) (W := 2) (by rfl) (by decide) (by decide)).2.1

/-- A cost that is the maximum of a double is taken as infinite, and nothing is served. -/
theorem maximum_not_served : ¬ ∀ (T W : ℕ) (aCosts : List (List (WithTop ℚ)))
    (aRequests aCapacities : List ℤ), inputCheck aCosts aRequests aCapacities = .ok (T, W) →
    0 < W → (∀ row ∈ aCosts, ∀ c ∈ row, 0 ≤ c) → (∀ r ∈ aRequests, 0 ≤ r) →
    (∀ c ∈ aCapacities, 0 ≤ c) → ∑ t, ∑ w, (solveGreedyUpTo (matrix T W aCosts)
      (vector T aRequests) (vector W aCapacities)).2 t w =
        min (∑ t, (vector T aRequests t : ℚ)) (∑ w, (vector W aCapacities w : ℚ)) := by
  intro h
  have hone := h 1 1 [[⊤]] [1] [1] rfl (by decide) (by simp) (by decide) (by decide)
  have hrun : solveGreedyUpTo (matrix 1 1 [[⊤]]) (vector 1 [1]) (vector 1 [1]) = (0, 0) := by
    rfl
  rw [hrun] at hone
  simp [vector] at hone

end ServerlessEdge.LambdaMuSim.Mcfp
