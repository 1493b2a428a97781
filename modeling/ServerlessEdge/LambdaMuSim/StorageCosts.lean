import ServerlessEdge.LambdaMuSim.RunningCosts

/-! The storage cost of a free container in the problem of the lambda apps: the source
looks at the index of the container and not at its node. -/
namespace ServerlessEdge.LambdaMuSim
open Library Allotments

namespace Scenario

variable {B E A : ℕ}

/-- The containers of an edge that no mu app uses. -/
def freeContainers (s : Scenario B E A) (e : Fin (E + 1)) : ℕ :=
  (s.theEdges e).theNumContainers - (s.theEdges e).theMuApps.length

/-- The free containers begin with those of the cloud. -/
theorem lambdaContainers_cloud (s : Scenario B E A) (c : Fin s.lambdaContainers.length) :
    s.lambdaContainers.get c = CLOUD ↔ c.val < s.freeContainers CLOUD := by
  obtain ⟨rest, hrest, heq⟩ : ∃ rest : List (Fin (E + 1)), CLOUD ∉ rest ∧
      s.lambdaContainers = List.replicate (s.freeContainers CLOUD) CLOUD ++ rest := by
    refine ⟨(List.finRange E).flatMap fun e => List.replicate (s.freeContainers e.succ) e.succ, ?_, ?_⟩
    · intro hmem
      obtain ⟨e, -, he⟩ := List.mem_flatMap.mp hmem
      exact Fin.succ_ne_zero e (List.eq_of_mem_replicate he).symm
    · unfold lambdaContainers units
      rw [List.finRange_succ, List.flatMap_cons, List.flatMap_map]
      rfl
  have hc : c.val < (List.replicate (s.freeContainers CLOUD) CLOUD ++ rest).length := heq ▸ c.isLt
  have hget : s.lambdaContainers.get c =
      (List.replicate (s.freeContainers CLOUD) CLOUD ++ rest)[c.val] := by
    rw [List.get_eq_getElem]
    simp only [heq]
  rw [hget, List.getElem_append]
  split
  · next hlt =>
    rw [List.length_replicate] at hlt
    rw [List.getElem_replicate]
    exact iff_of_true rfl hlt
  · next hge =>
    rw [List.length_replicate] at hge
    exact iff_of_false (fun h => hrest (h ▸ List.getElem_mem _)) hge

theorem lambdaContainers_length (s : Scenario B E A) :
    s.lambdaContainers.length = ∑ e, s.freeContainers e :=
  length_units _

/-- Only one container has the local cost. -/
theorem storageCost_eq_iff (s : Scenario B E A) (e : ℕ) (p : Prop) [Decidable p]
    (hcosts : s.theCloudStorageCostLocal ≠ s.theCloudStorageCostRemote) :
    s.storageCost e = (if p then s.theCloudStorageCostLocal else s.theCloudStorageCostRemote) ↔
      (e = 0 ↔ p) := by
  unfold storageCost
  by_cases he : e = 0
  · by_cases hp : p
    · simp [he, hp]
    · simp [he, hp, hcosts]
  · by_cases hp : p
    · simp [he, hp, Ne.symm hcosts]
    · simp [he, hp]

/-- The index of a container tells whether it is of the cloud when one of the cloud is free. -/
theorem index_iff (s : Scenario B E A) :
    (∀ c : Fin s.lambdaContainers.length, c.val = 0 ↔ s.lambdaContainers.get c = CLOUD) ↔
      s.freeContainers CLOUD = 1 ∨ ∀ e, s.freeContainers e = 0 := by
  simp only [lambdaContainers_cloud]
  have hcloud : s.freeContainers CLOUD ≤ s.lambdaContainers.length := by
    rw [lambdaContainers_length]
    exact Finset.single_le_sum (fun e _ => Nat.zero_le _) (Finset.mem_univ CLOUD)
  constructor
  · intro h
    by_cases hone : s.freeContainers CLOUD = 1
    · exact .inl hone
    · right
      have hlength : s.lambdaContainers.length = 0 := by
        by_contra hpos
        have hzero := (h ⟨0, Nat.pos_of_ne_zero hpos⟩).mp rfl
        have hnext := (h ⟨1, by simp only at hzero; omega⟩).mpr (by simp only at hzero ⊢; omega)
        cases hnext
      rw [lambdaContainers_length] at hlength
      exact fun e => (Finset.sum_eq_zero_iff.mp hlength) e (Finset.mem_univ e)
  · rintro (hone | hnone) c
    · rw [hone]
      omega
    · have hlength : s.lambdaContainers.length = 0 := by
        rw [lambdaContainers_length]
        exact Finset.sum_eq_zero fun e _ => hnone e
      have hlt := c.isLt
      omega

/-- A container costs what its node does if no storage is used or it costs the same
everywhere, or else as long as there is one free container of the cloud. -/
theorem lambdaUnitCost_iff (s : Scenario B E A) (a : Fin A) :
    ((∀ c, s.lambdaUnitCost a c = s.lambdaUnit a (s.lambdaContainers.get c)) ∧
      ∀ c c', s.lambdaContainers.get c = s.lambdaContainers.get c' →
        s.lambdaUnitCost a c = s.lambdaUnitCost a c') ↔
    (s.theApps a).theStorageSize = 0 ∨
      s.theCloudStorageCostLocal = s.theCloudStorageCostRemote ∨
      s.freeContainers CLOUD = 1 ∨ ∀ e, s.freeContainers e = 0 := by
  have hnodes (h : ∀ c, s.lambdaUnitCost a c = s.lambdaUnit a (s.lambdaContainers.get c))
      (c c' : Fin s.lambdaContainers.length)
      (heq : s.lambdaContainers.get c = s.lambdaContainers.get c') :
      s.lambdaUnitCost a c = s.lambdaUnitCost a c' := by
    rw [h, h, heq]
  rw [and_iff_left_of_imp hnodes, ← index_iff]
  by_cases hsize : (s.theApps a).theStorageSize = 0
  · refine iff_of_true (fun c => ?_) (.inl hsize)
    simp [lambdaUnitCost, lambdaUnit, hsize]
  by_cases hcosts : s.theCloudStorageCostLocal = s.theCloudStorageCostRemote
  · refine iff_of_true (fun c => ?_) (.inr (.inl hcosts))
    simp [lambdaUnitCost, lambdaUnit, storageCost, hcosts]
  rw [or_iff_right hsize, or_iff_right hcosts]
  refine forall_congr' fun c => ?_
  have hsize' : ((s.theApps a).theStorageSize : ℚ) ≠ 0 := Int.cast_ne_zero.mpr hsize
  rw [← s.storageCost_eq_iff c _ hcosts, lambdaUnitCost, lambdaUnit, add_right_inj,
    mul_left_inj' hsize']

/-- A dynamic simulation with one app at its start: the cloud has two containers. -/
def storesThree : Scenario 1 1 1 :=
  { Dynamic.exampleScenario with theCloudStorageCostLocal := 10, theCloudStorageCostRemote := 5 }.populate
    (Population.app 1 ⟨fun _ => ⟨0, Nat.one_pos⟩, fun _ => {
      theServiceRate := 2
      theExchangeSize := 5
      theStorageSize := 3 }⟩ fun _ => .Lambda) 2 2

theorem cloud_container_remote : ¬ ∀ (B E A : ℕ) (s : Scenario B E A) (a : Fin A),
    (s.theApps a).theType = .Lambda →
      (∀ c, s.lambdaUnitCost a c = s.lambdaUnit a (s.lambdaContainers.get c)) ∧
      ∀ c c', s.lambdaContainers.get c = s.lambdaContainers.get c' →
        s.lambdaUnitCost a c = s.lambdaUnitCost a c' := by
  intro h
  obtain ⟨-, hnodes⟩ := h 1 1 1 storesThree 0 rfl
  have hsame := hnodes ⟨0, by decide +kernel⟩ ⟨1, by decide +kernel⟩ (by decide +kernel)
  exact absurd hsame (by decide +kernel)

end Scenario

end ServerlessEdge.LambdaMuSim
