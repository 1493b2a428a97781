import ServerlessEdge.Library.Ancestors
import ServerlessEdge.Model.Dag

/-! The functions of a workflow that can be called once some have been completed. -/
namespace ServerlessEdge.Model
open Relation Library Ancestors

namespace Dag

/-- The predecessors of a function in the table, which the entry one is not in. -/
def predecessors (d : Dag) (aIndex : ℕ) : List ℕ :=
  if aIndex = 0 then [] else d.thePredecessors.getD (aIndex - 1) []

def numFunctions (d : Dag) : ℕ := d.thePredecessors.length + 1

def toName (d : Dag) (aIndex : ℕ) : String := d.theFunctionNames.getD aIndex ""

/-- The ancestors of a function, unless it takes more nested calls to find them. -/
def ancestors (d : Dag) (fuel aIndex : ℕ) : Option (Finset ℕ) := collect d.predecessors fuel aIndex

/-- The functions whose ancestors have all been completed. -/
def callable (d : Dag) (fuel : ℕ) (aCompleted : Finset ℕ) : Option (Finset ℕ) :=
  (List.range (d.theSuccessors.length + 1)).foldlM (fun ret i =>
    -- skip functions already completed
    if i ∈ aCompleted then return ret
    else do
      let myAncestors ← d.ancestors fuel i
      if myAncestors ⊆ aCompleted then return insert i ret else return ret) ∅

/-- The workflow with only one function. -/
def singleFunctionDag (d : Dag) (aFunction : String) : Except String Dag :=
  Dag.new [] [aFunction] (d.theStates.dependencies aFunction)

/-- No function can be reached from one of its successors. -/
def Acyclic (d : Dag) : Prop := ∀ j, ¬ TransGen d.Follows j j

theorem singleFunctionDag_ok (d : Dag) (f : String) : ∃ d', d.singleFunctionDag f = .ok d' :=
  ⟨⟨[], [], [f], ⟨d.theStates.dependencies f⟩, rfl, rfl, d.theStates.dependencies_known f⟩,
    Dag.new_ok.mpr ⟨rfl, rfl, rfl⟩⟩

private theorem mem_addPredecessor {i j p k : ℕ} {ret ret' : List (List ℕ)}
    (h : addPredecessor i ret j = .ok ret') :
    p ∈ ret'.getD k [] ↔ p ∈ ret.getD k [] ∨ (p = i ∧ k + 1 = j) := by
  unfold addPredecessor at h
  split at h
  · cases h
  · next hrange =>
    rw [not_or, not_le] at hrange
    cases h
    rw [List.getD_eq_getElem?_getD, List.getElem?_modify, List.getD_eq_getElem?_getD]
    by_cases hk : j - 1 = k
    · have hj : k + 1 = j := by omega
      rw [List.getElem?_eq_getElem (hk ▸ hrange.2)]
      simp [hk, hj]
    · have hj : k + 1 ≠ j := by omega
      simp [hk, hj]

theorem follows_iff {d : Dag} {p i : ℕ} :
    d.Follows p i ↔ ∃ js, d.theSuccessors[p]? = some js ∧ i ∈ js := by
  unfold Follows
  rw [List.getD_eq_getElem?_getD]
  cases d.theSuccessors[p]? with
  | none => simp
  | some js => simp

/-- The table has exactly the edges of the graph, the other way. -/
theorem mem_predecessors {d : Dag} {p i : ℕ} : p ∈ d.predecessors i ↔ d.Follows p i := by
  unfold predecessors
  split
  · next hi =>
    subst hi
    refine iff_of_false List.not_mem_nil fun h => ?_
    obtain ⟨js, hjs, hmem⟩ := follows_iff.mp h
    exact absurd (d.successor_range (List.mem_of_getElem? hjs) hmem).1 (by omega)
  · next hi =>
    have hk : i - 1 + 1 = i := by omega
    have hinner (ret : List (List ℕ)) (x : List ℕ × ℕ) (ret' : List (List ℕ))
        (hret : x.1.foldlM (addPredecessor x.2) ret = .ok ret') :
        p ∈ ret'.getD (i - 1) [] ↔ p ∈ ret.getD (i - 1) [] ∨ (p = x.2 ∧ i ∈ x.1) := by
      rw [Checks.foldlM_adds (R := fun ret => p ∈ ret.getD (i - 1) [])
        (fun _ _ _ h => mem_addPredecessor h) hret, hk]
      refine or_congr_right ⟨fun ⟨j, hj, hp, heq⟩ => ⟨hp, heq ▸ hj⟩, fun ⟨hp, hi⟩ => ⟨i, hi, hp, rfl⟩⟩
    have hstart : p ∉ (List.replicate d.theSuccessors.length ([] : List ℕ)).getD (i - 1) [] := by
      rw [List.getD_eq_getElem?_getD, List.getElem?_replicate]
      split
      · exact List.not_mem_nil
      · exact List.not_mem_nil
    rw [Checks.foldlM_adds (R := fun ret => p ∈ ret.getD (i - 1) []) hinner d.built,
      or_iff_right hstart, follows_iff]
    constructor
    · rintro ⟨⟨js, q⟩, hmem, rfl, hjs⟩
      exact ⟨js, List.mk_mem_zipIdx_iff_getElem?.mp hmem, hjs⟩
    · rintro ⟨js, hjs, hmem⟩
      exact ⟨(js, p), List.mk_mem_zipIdx_iff_getElem?.mpr hjs, rfl, hmem⟩

theorem edge_eq (d : Dag) : Edge d.predecessors = d.Follows := by
  funext p i
  exact propext mem_predecessors

theorem follows_range {d : Dag} {p i : ℕ} (h : d.Follows p i) :
    p < d.theSuccessors.length ∧ 1 ≤ i ∧ i ≤ d.theSuccessors.length := by
  obtain ⟨js, hjs, hmem⟩ := follows_iff.mp h
  exact ⟨(List.getElem?_eq_some_iff.mp hjs).1,
    d.successor_range (List.mem_of_getElem? hjs) hmem⟩

theorem predecessors_length (d : Dag) : d.thePredecessors.length = d.theSuccessors.length :=
  d.built_spec.2

theorem numFunctions_eq (d : Dag) : d.numFunctions = d.theSuccessors.length + 1 :=
  congrArg (· + 1) d.predecessors_length

theorem acyclic_iff_clear {d : Dag} : d.Acyclic ↔ ∀ i, Clear d.predecessors i := by
  simp only [Clear, edge_eq]
  exact ⟨fun h i x _ => h x, fun h j => h j j .refl⟩

theorem mem_ancestors {d : Dag} {fuel i : ℕ} {s : Finset ℕ} (h : d.ancestors fuel i = some s)
    {p : ℕ} : p ∈ s ↔ TransGen d.Follows p i := by
  rw [mem_collect h, edge_eq]

/-- The functions with a successor. -/
theorem transGen_range {d : Dag} {p i : ℕ} (h : TransGen d.Follows p i) :
    p ∈ Finset.range d.theSuccessors.length := by
  obtain ⟨j, hj, -⟩ := TransGen.head'_iff.mp h
  exact Finset.mem_range.mpr (follows_range hj).1

theorem ancestors_isSome {d : Dag} (hd : d.Acyclic) {fuel : ℕ} (hfuel : d.numFunctions ≤ fuel)
    (i : ℕ) : (d.ancestors fuel i).isSome := by
  refine collect_isSome (acyclic_iff_clear.mp hd i) (T := Finset.range d.theSuccessors.length)
    (fun p hp => ?_) ?_
  · rw [edge_eq] at hp
    exact transGen_range hp
  · rw [Finset.card_range]
    rw [numFunctions_eq] at hfuel
    omega

theorem callable_isSome {d : Dag} {fuel : ℕ} {C : Finset ℕ} : (d.callable fuel C).isSome ↔
    ∀ i < d.numFunctions, i ∉ C → (d.ancestors fuel i).isSome := by
  have hone (ret : Finset ℕ) (i : ℕ) : ((if i ∈ C then return ret
      else do
        let myAncestors ← d.ancestors fuel i
        if myAncestors ⊆ C then return insert i ret else return ret : Option (Finset ℕ))).isSome ↔
      (i ∉ C → (d.ancestors fuel i).isSome) := by
    by_cases hi : i ∈ C
    · rw [if_pos hi]
      exact iff_of_true rfl (absurd hi)
    · rw [if_neg hi]
      cases d.ancestors fuel i with
      | none => exact iff_of_false nofun (fun h => nomatch h hi)
      | some s =>
        refine iff_of_true ?_ (fun _ => rfl)
        by_cases hs : s ⊆ C
        · simp [hs]
        · simp [hs]
  unfold callable
  rw [foldlM_isSome hone]
  simp only [List.mem_range, numFunctions_eq]

/-- The functions out of C whose ancestors are all in C. -/
theorem mem_callable {d : Dag} {fuel : ℕ} {C s : Finset ℕ} (h : d.callable fuel C = some s)
    {i : ℕ} : i ∈ s ↔ i < d.numFunctions ∧ i ∉ C ∧ ∀ p, TransGen d.Follows p i → p ∈ C := by
  have hone (ret : Finset ℕ) (j : ℕ) (ret' : Finset ℕ) (hret : (if j ∈ C then return ret
      else do
        let myAncestors ← d.ancestors fuel j
        if myAncestors ⊆ C then return insert j ret else return ret : Option (Finset ℕ)) =
        some ret') :
      i ∈ ret' ↔ i ∈ ret ∨ (i = j ∧ j ∉ C ∧ ∀ p, TransGen d.Follows p j → p ∈ C) := by
    split at hret
    · next hj =>
      cases hret
      exact (or_iff_left fun h => h.2.1 hj).symm
    · next hj =>
      rw [Option.bind_eq_bind, Option.bind_eq_some_iff] at hret
      obtain ⟨as, has, hret⟩ := hret
      have hsub : as ⊆ C ↔ ∀ p, TransGen d.Follows p j → p ∈ C :=
        forall_congr' fun p => imp_congr_left (mem_ancestors has)
      split at hret
      · next hC =>
        cases hret
        rw [Finset.mem_insert, or_comm, and_iff_left ⟨hj, hsub.mp hC⟩]
      · next hC =>
        cases hret
        exact (or_iff_left fun h => hC (hsub.mpr h.2.2)).symm
  unfold callable at h
  rw [foldlM_adds (R := fun ret => i ∈ ret) hone h, or_iff_right (Finset.notMem_empty i)]
  constructor
  · rintro ⟨j, hj, rfl, hC⟩
    exact ⟨d.numFunctions_eq ▸ List.mem_range.mp hj, hC⟩
  · rintro ⟨hi, hC⟩
    exact ⟨i, List.mem_range.mpr (d.numFunctions_eq ▸ hi), rfl, hC⟩

theorem callable_of_acyclic {d : Dag} (hd : d.Acyclic) {fuel : ℕ} (hfuel : d.numFunctions ≤ fuel)
    (C : Finset ℕ) : ∃ s, d.callable fuel C = some s :=
  Option.isSome_iff_exists.mp (callable_isSome.mpr fun i _ _ => ancestors_isSome hd hfuel i)

/-- Unless all functions have been completed, one of them can be called. -/
theorem exists_callable {d : Dag} (hd : d.Acyclic) {C : Finset ℕ} {i : ℕ}
    (hi : i < d.numFunctions) (hC : i ∉ C) :
    ∃ u < d.numFunctions, u ∉ C ∧ ∀ p, TransGen d.Follows p u → p ∈ C := by
  obtain ⟨u, hu, huC, hfirst⟩ := exists_first (acyclic_iff_clear.mp hd i)
    (T := Finset.range d.theSuccessors.length) (fun p hp => transGen_range (edge_eq d ▸ hp)) hC
  rw [edge_eq] at hu hfirst
  refine ⟨u, ?_, huC, hfirst⟩
  rcases reflTransGen_iff_eq_or_transGen.mp hu with rfl | hu
  · exact hi
  · have hlt := Finset.mem_range.mp (transGen_range hu)
    rw [numFunctions_eq]
    omega

theorem acyclic_iff_ancestors {d : Dag} :
    d.Acyclic ↔ ∀ i < d.numFunctions, ∃ fuel, (d.ancestors fuel i).isSome := by
  refine ⟨fun hd i _ => ⟨d.numFunctions, ancestors_isSome hd le_rfl i⟩, fun h j hcycle => ?_⟩
  have hj := Finset.mem_range.mp (transGen_range hcycle)
  obtain ⟨fuel, hfuel⟩ := h j (by rw [numFunctions_eq]; omega)
  have hclear := clear_of_collect hfuel j .refl
  rw [edge_eq] at hclear
  exact hclear hcycle

/-- The client calls it first with no function completed. -/
theorem acyclic_iff_callable {d : Dag} : d.Acyclic ↔ ∃ fuel, (d.callable fuel ∅).isSome := by
  constructor
  · intro hd
    obtain ⟨s, hs⟩ := callable_of_acyclic hd le_rfl ∅
    exact ⟨d.numFunctions, Option.isSome_of_mem hs⟩
  · rintro ⟨fuel, hfuel⟩
    rw [callable_isSome] at hfuel
    exact acyclic_iff_ancestors.mpr fun i hi => ⟨fuel, hfuel i hi (Finset.notMem_empty i)⟩

/-- What the constructor accepts is acyclic, and the recursion over it ends, if the
functions can be numbered so that each successor comes later. -/
theorem new_acyclic_iff {ss : List (List ℕ)} {ns : List String} {ds : Dependencies} {d : Dag}
    (h : Dag.new ss ns ds = .ok d) :
    (d.Acyclic ∧ (∀ i < d.numFunctions, ∃ fuel, (d.ancestors fuel i).isSome) ∧
      ∀ C, ∃ fuel, (d.callable fuel C).isSome) ↔
    ∃ rank : ℕ → ℕ, ∀ i j, j ∈ ss.getD i [] → rank i < rank j := by
  obtain ⟨rfl, -, -⟩ := new_ok.mp h
  have hT (p i : ℕ) (hp : Edge d.predecessors p i) : p ∈ Finset.range d.theSuccessors.length :=
    Finset.mem_range.mpr (follows_range (mem_predecessors.mp hp)).1
  have hrank := clear_iff_rank hT
  rw [← acyclic_iff_clear, edge_eq] at hrank
  refine Iff.trans ⟨fun h => h.1, fun hd => ⟨hd, acyclic_iff_ancestors.mp hd, fun C => ?_⟩⟩ hrank
  obtain ⟨s, hs⟩ := callable_of_acyclic hd le_rfl C
  exact ⟨d.numFunctions, Option.isSome_of_mem hs⟩

theorem new_acyclic_iff_ranked :
    (exampleDag.Acyclic ∧
      (∀ i < exampleDag.numFunctions, ∃ fuel, (exampleDag.ancestors fuel i).isSome) ∧
      ∀ C, ∃ fuel, (exampleDag.callable fuel C).isSome) ↔
    ∃ rank : ℕ → ℕ, ∀ i j, j ∈ exampleDag.theSuccessors.getD i [] → rank i < rank j :=
  new_acyclic_iff (h := new_ok.mpr ⟨rfl, rfl, rfl⟩)

/-- The function f1 is called again by the one that it is followed by. -/
def cyclicDag : Dag where
  theSuccessors := [[1], [2], [1, 3]]
  thePredecessors := [[0, 2], [1], [2]]
  theFunctionNames := ["f0", "f1", "f2", "f3"]
  theStates := ⟨∅⟩
  built := rfl
  sized := rfl
  known := checkDependencies_ok.mp (by decide +kernel)

theorem cyclic_accepted : ¬ ∀ (ss : List (List ℕ)) (ns : List String) (ds : Dependencies) (d : Dag),
    Dag.new ss ns ds = .ok d →
    d.Acyclic ∧ (∀ i < d.numFunctions, ∃ fuel, (d.ancestors fuel i).isSome) ∧
      ∀ C, ∃ fuel, (d.callable fuel C).isSome := by
  intro h
  have hnew : Dag.new [[1], [2], [1, 3]] ["f0", "f1", "f2", "f3"] ∅ = .ok cyclicDag :=
    new_ok.mpr ⟨rfl, rfl, rfl⟩
  obtain ⟨-, hends, -⟩ := h _ _ _ cyclicDag hnew
  have hone : cyclicDag.Follows 1 2 := by decide
  have htwo : cyclicDag.Follows 2 1 := by decide
  exact acyclic_iff_ancestors.mpr hends 1 (.tail (.single hone) htwo)

end Dag

end ServerlessEdge.Model
