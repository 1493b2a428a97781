import Mathlib.Data.List.Perm.Subperm
import Mathlib.Data.Fintype.List
import ServerlessEdge.Library.Writes
import ServerlessEdge.LambdaMuSim.Scenario

/-! Where the mu apps are: each one at the edge that it is assigned to, and no more
of them at an edge than there are containers for them. -/
namespace ServerlessEdge.LambdaMuSim
open Library Writes

/-- The solvers of assignment problems give each row a column of its own where
there are enough columns. -/
structure Env.AssignsAll (env : Env) : Prop where
  random : ∀ {m k : ℕ} (aMatrix : Fin m → Fin k → ℚ) (aRnd : ℕ → ℚ), m ≤ k →
    ∃ f : Fin m → Fin k, f.Injective ∧ (env.SolveRandom aMatrix aRnd).2 = fun i => some (f i)
  greedy : ∀ {m k : ℕ} (aMatrix : Fin m → Fin k → ℚ), m ≤ k →
    ∃ f : Fin m → Fin k, f.Injective ∧ (env.SolveGreedy aMatrix).2 = fun i => some (f i)
  hungarian : ∀ {m k : ℕ} (aMatrix : Fin m → Fin k → ℚ), m ≤ k →
    ∃ f : Fin m → Fin k, f.Injective ∧ (env.Solve aMatrix).2 = fun i => some (f i)

/-- The cost that they return is the one of the columns. -/
structure Env.SumsCosts (env : Env) : Prop where
  random : ∀ {m k : ℕ} (aMatrix : Fin m → Fin k → ℚ) (aRnd : ℕ → ℚ) (f : Fin m → Fin k),
    (env.SolveRandom aMatrix aRnd).2 = (fun i => some (f i)) →
      (env.SolveRandom aMatrix aRnd).1 = ∑ i, aMatrix i (f i)
  greedy : ∀ {m k : ℕ} (aMatrix : Fin m → Fin k → ℚ) (f : Fin m → Fin k),
    (env.SolveGreedy aMatrix).2 = (fun i => some (f i)) →
      (env.SolveGreedy aMatrix).1 = ∑ i, aMatrix i (f i)
  hungarian : ∀ {m k : ℕ} (aMatrix : Fin m → Fin k → ℚ) (f : Fin m → Fin k),
    (env.Solve aMatrix).2 = (fun i => some (f i)) →
      (env.Solve aMatrix).1 = ∑ i, aMatrix i (f i)

/-- Each row gets the column of its own index. -/
def inOrder {m k : ℕ} (aMatrix : Fin m → Fin k → ℚ) : ℚ × (Fin m → Option (Fin k)) :=
  if h : m ≤ k then (∑ i, aMatrix i (Fin.castLE h i), fun i => some (Fin.castLE h i))
  else (0, fun _ => none)

/-- What the solvers return where all columns are alike. -/
def Env.inOrder (flow : Mcfp.FlowSolver) : Env where
  SolveRandom aMatrix _ := LambdaMuSim.inOrder aMatrix
  SolveGreedy := LambdaMuSim.inOrder
  Solve := LambdaMuSim.inOrder
  flow := flow
  outOfRange := 0
  to_string := fun _ => ""

theorem inOrder_assigns {m k : ℕ} (aMatrix : Fin m → Fin k → ℚ) (h : m ≤ k) :
    ∃ f : Fin m → Fin k, f.Injective ∧ (inOrder aMatrix).2 = fun i => some (f i) := by
  refine ⟨Fin.castLE h, Fin.castLE_injective h, ?_⟩
  rw [inOrder, dif_pos h]

theorem Env.inOrder_assignsAll (flow : Mcfp.FlowSolver) : (Env.inOrder flow).AssignsAll :=
  ⟨fun aMatrix _ h => inOrder_assigns aMatrix h, inOrder_assigns, inOrder_assigns⟩

theorem inOrder_sums {m k : ℕ} (aMatrix : Fin m → Fin k → ℚ) (f : Fin m → Fin k)
    (hf : (inOrder aMatrix).2 = fun i => some (f i)) :
    (inOrder aMatrix).1 = ∑ i, aMatrix i (f i) := by
  unfold inOrder at hf ⊢
  split
  · rename_i h
    rw [dif_pos h] at hf
    have hcols : Fin.castLE h = f := by
      funext i
      exact Option.some.inj (congrFun hf i)
    rw [hcols]
  · rename_i h
    rw [dif_neg h] at hf
    cases congrFun hf ⟨k, not_le.mp h⟩

theorem Env.inOrder_sumsCosts (flow : Mcfp.FlowSolver) : (Env.inOrder flow).SumsCosts :=
  ⟨fun aMatrix _ => inOrder_sums aMatrix, inOrder_sums, inOrder_sums⟩

namespace Scenario

variable {B E A : ℕ}

/-- The mu apps are assigned to edges, and the edges to them. -/
structure Assigned (aAlpha : ℚ) (s : Scenario B E A) : Prop where
  mu : ∀ a, (s.theApps a).theType = .Mu →
    ∀ e, a ∈ (s.theEdges e).theMuApps ↔ (s.theApps a).theEdge = e
  once : ∀ e, (s.theEdges e).theMuApps.Nodup
  lambda : ∀ a, (s.theApps a).theType = .Lambda → ∀ e, a ∉ (s.theEdges e).theMuApps
  weights : ∀ a, (s.theApps a).theType = .Mu → (s.theApps a).theWeights = []
  edge_le : ∀ e, e ≠ CLOUD →
    (s.theEdges e).theMuApps.length ≤ ⌊(s.theEdges e).theNumContainers * aAlpha⌋₊
  cloud_le : (s.theEdges CLOUD).theMuApps.length ≤ (s.theEdges CLOUD).theNumContainers

/-- All lambda apps are served by some edges. -/
def Weighed (s : Scenario B E A) : Prop :=
  ∀ a, (s.theApps a).theType = .Lambda → (s.theApps a).theWeights ≠ []

theorem Assigned.le_usable {aAlpha : ℚ} {s : Scenario B E A} (h : s.Assigned aAlpha)
    (e : Fin (E + 1)) : (s.theEdges e).theMuApps.length ≤ s.usableMuContainers aAlpha e := by
  unfold usableMuContainers
  split
  · rename_i he
    rw [he]
    exact h.cloud_le
  · rename_i he
    exact h.edge_le e he

/-- The floor of a part of the containers is no more than all of them. -/
theorem usable_le {aAlpha : ℚ} (halpha : aAlpha ≤ 1) (s : Scenario B E A) (e : Fin (E + 1)) :
    s.usableMuContainers aAlpha e ≤ (s.theEdges e).theNumContainers := by
  unfold usableMuContainers
  split
  · exact le_refl _
  · refine Nat.floor_le_of_le ?_
    exact mul_le_of_le_one_right (Nat.cast_nonneg _) halpha

theorem Assigned.le_containers {aAlpha : ℚ} (halpha : aAlpha ≤ 1) {s : Scenario B E A}
    (h : s.Assigned aAlpha) (e : Fin (E + 1)) :
    (s.theEdges e).theMuApps.length ≤ (s.theEdges e).theNumContainers :=
  (h.le_usable e).trans (usable_le halpha s e)

section Apps

theorem mem_appsOf {s : Scenario B E A} {t : AppType} {a : Fin A} :
    a ∈ s.appsOf t ↔ (s.theApps a).theType = t := by
  simp [appsOf]

theorem appsOf_nodup (s : Scenario B E A) (t : AppType) : (s.appsOf t).Nodup :=
  (List.nodup_finRange A).filter _

end Apps

/-- A scenario in which apps and edges are assigned otherwise. -/
def withMu (s : Scenario B E A) (g : Fin A → Fin (E + 1)) (l : Fin (E + 1) → List (Fin A)) :
    Scenario B E A :=
  { s with
    theApps := fun a => { s.theApps a with theEdge := g a }
    theEdges := fun e => { s.theEdges e with theMuApps := l e } }

theorem place_withMu (s : Scenario B E A) (p : Fin A × Fin (E + 1)) (g : Fin A → Fin (E + 1))
    (l : Fin (E + 1) → List (Fin A)) : (s.place p).withMu g l = s.withMu g l := by
  have happs : ∀ a, { (s.place p).theApps a with theEdge := g a } =
      { s.theApps a with theEdge := g a } := by
    intro a
    by_cases ha : a = p.1
    · subst ha
      simp [place]
    · simp [place, ha]
  have hedges : ∀ e, { (s.place p).theEdges e with theMuApps := l e } =
      { s.theEdges e with theMuApps := l e } := by
    intro e
    by_cases he : e = p.2
    · subst he
      simp [place]
    · simp [place, he]
  simp only [withMu, happs, hedges]
  rfl

theorem foldl_place (s : Scenario B E A) (l : List (Fin A × Fin (E + 1))) :
    l.foldl place s = s.withMu (writeAll (fun a => (s.theApps a).theEdge) l) fun e =>
      (s.theEdges e).theMuApps ++ (l.filter fun p => p.2 = e).map Prod.fst := by
  induction l generalizing s with
  | nil => simp [withMu, writeAll]
  | cons p l ih =>
    rw [List.foldl_cons, ih, place_withMu]
    have hedge : (fun a => ((s.place p).theApps a).theEdge) =
        Function.update (fun a => (s.theApps a).theEdge) p.1 p.2 := by
      funext a
      by_cases ha : a = p.1
      · subst ha
        simp [place]
      · simp [place, ha]
    have hmu : (fun e => ((s.place p).theEdges e).theMuApps ++
          (l.filter fun p => p.2 = e).map Prod.fst) =
        fun e => (s.theEdges e).theMuApps ++ ((p :: l).filter fun p => p.2 = e).map Prod.fst := by
      funext e
      by_cases he : e = p.2
      · subst he
        simp [place]
      · simp [place, he, Ne.symm he]
    rw [hedge, hmu]
    rfl

theorem columns_some {m k : ℕ} (f : Fin m → Fin k) :
    columns (fun i => some (f i)) = some ((List.finRange m).map fun i => (i, f i)) := by
  simp only [columns, Option.map_some]
  exact List.mapM_pure

theorem solveMu_assigns {env : Env} (henv : env.AssignsAll) (algo : MuAlgorithm) {m k : ℕ}
    (aMatrix : Fin m → Fin k → ℚ) (aRnd : ℕ → ℚ) (hle : m ≤ k) :
    ∃ f : Fin m → Fin k, f.Injective ∧ (solveMu env algo aMatrix aRnd).2 = fun i => some (f i) := by
  cases algo with
  | Random => exact henv.random aMatrix aRnd hle
  | Greedy => exact henv.greedy aMatrix hle
  | Hungarian => exact henv.hungarian aMatrix hle

/-- The list of elements chosen by distinct indices has no element more often. -/
theorem count_chosen {α : Type} [DecidableEq α] {m : ℕ} {l : List α} {f : Fin m → Fin l.length}
    (hf : f.Injective) (x : α) : ((List.finRange m).map fun i => l.get (f i)).count x ≤ l.count x := by
  obtain ⟨p, hperm, hsub⟩ : List.Subperm ((List.finRange m).map f) (List.finRange l.length) :=
    List.Nodup.subperm ((List.nodup_map_iff hf).mpr (List.nodup_finRange m))
      fun i _ => List.mem_finRange i
  have hcount := (hsub.map l.get).count_le x
  rw [List.map_get_finRange, (hperm.map l.get).count_eq, List.map_map] at hcount
  exact hcount

theorem solveMu_cost {env : Env} (henv : env.SumsCosts) (algo : MuAlgorithm) {m k : ℕ}
    (aMatrix : Fin m → Fin k → ℚ) (aRnd : ℕ → ℚ) {f : Fin m → Fin k}
    (hf : (solveMu env algo aMatrix aRnd).2 = fun i => some (f i)) :
    (solveMu env algo aMatrix aRnd).1 = ∑ i, aMatrix i (f i) := by
  cases algo with
  | Random => exact henv.random aMatrix aRnd f hf
  | Greedy => exact henv.greedy aMatrix f hf
  | Hungarian => exact henv.hungarian aMatrix f hf

/-- What the assignment of the mu apps does: it places all of them, no more at an
edge than there are containers, at the cost of the assignment problem. -/
theorem assignMuApps_spec {env : Env} (henv : env.AssignsAll) (s : Scenario B E A) (aAlpha : ℚ)
    (aData : PerformanceData) (aRnd : ℕ → ℚ)
    (hroom : (s.appsOf .Mu).length ≤ (s.theEdges CLOUD).theNumContainers)
    (hsome : s.appsOf .Mu ≠ []) :
    ∃ (cost : ℚ) (placed : List (Fin A × Fin (E + 1))),
      s.assignMuApps env aAlpha aData aRnd = .ok (s.muOutcome aData cost placed) ∧
      placed.map Prod.fst = s.appsOf .Mu ∧
      (∀ e, (placed.map Prod.snd).count e ≤ s.usableMuContainers aAlpha e) ∧
      (env.SumsCosts → cost = (placed.map fun p => s.muApCost p.1 p.2).sum) := by
  have hcols : (s.appsOf .Mu).length ≤ (s.containerToNodes aAlpha).length := by
    have hcloud : s.usableMuContainers aAlpha CLOUD = (s.theEdges CLOUD).theNumContainers := if_pos rfl
    rw [containerToNodes, Allotments.length_units]
    refine le_trans ?_ (Finset.single_le_sum (f := s.usableMuContainers aAlpha)
      (fun _ _ => Nat.zero_le _) (Finset.mem_univ CLOUD))
    rw [hcloud]
    exact hroom
  obtain ⟨f, hf, hsolve⟩ := solveMu_assigns henv s.theMuAlgorithm (s.apMatrix aAlpha) aRnd hcols
  refine ⟨(solveMu env s.theMuAlgorithm (s.apMatrix aAlpha) aRnd).1,
    ((List.finRange (s.appsOf .Mu).length).map fun i => (i, f i)).map fun p =>
      ((s.appsOf .Mu).get p.1, (s.containerToNodes aAlpha).get p.2), ?_, ?_, ?_, ?_⟩
  · simp only [assignMuApps, if_neg hsome, hsolve, columns_some]
  · simp only [List.map_map]
    exact List.map_get_finRange _
  · intro e
    have hcount := count_chosen hf e
    have hnodes : (s.containerToNodes aAlpha).count e = s.usableMuContainers aAlpha e :=
      Allotments.count_units _ e
    rw [hnodes] at hcount
    simp only [List.map_map]
    exact hcount
  · intro hcosts
    rw [solveMu_cost hcosts _ _ _ hsolve]
    simp only [List.map_map]
    rw [Fin.sum_univ_def]
    rfl

end Scenario

end ServerlessEdge.LambdaMuSim
