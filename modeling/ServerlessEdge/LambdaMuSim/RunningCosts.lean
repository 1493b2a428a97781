import ServerlessEdge.LambdaMuSim.DynamicRuns
import ServerlessEdge.LambdaMuSim.FlowGraph

/-! The running costs of the dynamic simulation against the costs of the current
assignment, by the formulas of the assignments that are made at an epoch. -/
namespace ServerlessEdge.LambdaMuSim
open Library

/-- Of two sums that differ in one place, one has what the other has not. -/
theorem sum_changed {n : ℕ} {f g : Fin n → ℚ} (a : Fin n) (h : ∀ b, b ≠ a → f b = g b) :
    ∑ b, f b = ∑ b, g b - g a + f a := by
  rw [← Finset.add_sum_erase _ f (Finset.mem_univ a), ← Finset.add_sum_erase _ g (Finset.mem_univ a)]
  have hrest : ∑ b ∈ Finset.univ.erase a, f b = ∑ b ∈ Finset.univ.erase a, g b :=
    Finset.sum_congr rfl fun b hb => h b (Finset.ne_of_mem_erase hb)
  rw [hrest]
  ring

namespace Scenario

variable {B E A : ℕ} {s : Scenario B E A} {env : Env}

/-- The cost of a unit of a lambda app at an edge. -/
def lambdaUnit (s : Scenario B E A) (a : Fin A) (e : Fin (E + 1)) : ℚ :=
  s.networkCost (s.theApps a).theBroker e * (s.theApps a).theExchangeSize +
    (if e = CLOUD then s.theCloudStorageCostLocal else s.theCloudStorageCostRemote) *
      (s.theApps a).theStorageSize

/-- The cost of a lambda app with its weights. -/
def lambdaApCost (s : Scenario B E A) (a : Fin A) : ℚ :=
  ((s.theApps a).theWeights.map fun w => w.2 * s.lambdaUnit a w.1).sum

/-- The cost of the lambda apps, computed from scratch. -/
def lambdaTotal (s : Scenario B E A) : ℚ :=
  ∑ a, if (s.theApps a).theType = .Lambda then s.lambdaApCost a else 0

/-- The cost of the mu apps, computed from scratch. -/
def muTotal (s : Scenario B E A) : ℚ :=
  ∑ a, if (s.theApps a).theType = .Mu then s.muApCost a (s.theApps a).theEdge else 0

/-- Storage costs nothing, or the same everywhere, for each of the lambda apps. -/
def StorageAlike (s : Scenario B E A) : Prop :=
  ∀ a, (s.theApps a).theType = .Lambda →
    (s.theApps a).theStorageSize = 0 ∨ s.theCloudStorageCostLocal = s.theCloudStorageCostRemote

/-- Where an app is served, and where it may be served once its type has changed, the
network cost is the cost of a unit of it as a lambda app, or its cost as a mu app. -/
def NetworkOnly (s : Scenario B E A) (aAlpha : ℚ) (a : Fin A) : Prop :=
  match (s.theApps a).theType with
  | .Lambda =>
    (∀ w ∈ (s.theApps a).theWeights, w.2 ≠ 0 →
      s.networkCost (s.theApps a).theBroker w.1 = s.lambdaUnit a w.1) ∧
    ∀ e, s.Free aAlpha e → s.networkCost (s.theApps a).theBroker e = s.muApCost a e
  | .Mu =>
    s.networkCost (s.theApps a).theBroker CLOUD = s.lambdaUnit a CLOUD ∧
    s.networkCost (s.theApps a).theBroker (s.theApps a).theEdge =
      s.muApCost a (s.theApps a).theEdge

/-- The unit costs that the solver gets are those of the edges. -/
theorem lambdaUnitCost_eq (h : s.StorageAlike) {a : Fin A} (ha : (s.theApps a).theType = .Lambda)
    (c : Fin s.lambdaContainers.length) :
    s.lambdaUnitCost a c = s.lambdaUnit a (s.lambdaContainers.get c) := by
  unfold lambdaUnitCost lambdaUnit storageCost
  rcases h a ha with hsize | hcost
  · rw [hsize]
    simp
  · rw [hcost]
    simp

theorem solveLambda_cost (env : Env) (algo : LambdaAlgorithm) {T W : ℕ} (aCosts : Mcfp.Costs T W)
    (aRequests : Mcfp.Requests T) (aCapacities : Mcfp.Capacities W) (aRnd : ℕ → ℚ) :
    (solveLambda env algo aCosts aRequests aCapacities aRnd).1 = ∑ t, ∑ w,
      (solveLambda env algo aCosts aRequests aCapacities aRnd).2 t w * aCosts t w := by
  cases algo with
  | Random => exact (Mcfp.solveRandom_serves aCosts aRequests aCapacities aRnd).cost
  | Greedy => exact (Mcfp.solveGreedy_serves aCosts aRequests aCapacities).cost
  | Mcfp => rfl

/-- The cost of an epoch is the one of the weights that it leaves. -/
theorem lambdaSolution_cost (h : s.StorageAlike) (aBeta : ℚ) (aRnd : ℕ → ℚ) :
    (s.lambdaSolution env aBeta aRnd).1 =
      (s.withWeights (s.lambdaWeights env aBeta aRnd)).lambdaTotal := by
  have hlist : (s.withWeights (s.lambdaWeights env aBeta aRnd)).lambdaTotal =
      ((s.appsOf .Lambda).map
        (s.withWeights (s.lambdaWeights env aBeta aRnd)).lambdaApCost).sum :=
    (sum_map_filter (fun a => (s.theApps a).theType = .Lambda) _).symm
  have hget : (s.appsOf .Lambda).map
      (s.withWeights (s.lambdaWeights env aBeta aRnd)).lambdaApCost =
      (List.finRange _).map fun t => (s.withWeights (s.lambdaWeights env aBeta aRnd)).lambdaApCost
        ((s.appsOf .Lambda).get t) := by
    conv_lhs => rw [← List.map_get_finRange (s.appsOf .Lambda), List.map_map]
    rfl
  rw [hlist, hget, ← Fin.sum_univ_def]
  refine (solveLambda_cost env _ _ _ _ _).trans (Finset.sum_congr rfl fun t _ => ?_)
  have hweights : ((s.withWeights (s.lambdaWeights env aBeta aRnd)).theApps
      ((s.appsOf .Lambda).get t)).theWeights =
      aggregate s.lambdaContainers ((s.lambdaSolution env aBeta aRnd).2 t) :=
    lambdaWeights_get env s aBeta aRnd t
  rw [lambdaApCost, hweights, sum_aggregate]
  refine Finset.sum_congr rfl fun c _ => ?_
  rw [lambdaUnitCost_eq h (mem_appsOf.mp (List.get_mem _ _))]
  rfl

theorem placed_muTotal {placed : List (Fin A × Fin (E + 1))}
    (hplaced : placed.map Prod.fst = s.appsOf .Mu) :
    (placed.foldl place s.clearMuApps).muTotal = (placed.map fun p => s.muApCost p.1 p.2).sum := by
  have hlist : (placed.foldl place s.clearMuApps).muTotal =
      ((s.appsOf .Mu).map fun a => s.muApCost a (s.placedEdge placed a)).sum := by
    rw [placed_eq]
    exact (sum_map_filter (fun a => (s.theApps a).theType = .Mu) _).symm
  rw [hlist, ← hplaced, List.map_map]
  refine congrArg List.sum (List.map_congr_left fun p hp => ?_)
  exact congrArg (s.muApCost p.1) (placedEdge_of_mem hplaced hp)

/-- No app of a type costs nothing. -/
theorem lambdaTotal_of_none (h : s.appsOf .Lambda = []) : s.lambdaTotal = 0 := by
  refine Finset.sum_eq_zero fun a _ => if_neg fun ha => ?_
  have hin : a ∈ s.appsOf .Lambda := mem_appsOf.mpr ha
  rw [h] at hin
  cases hin

theorem muTotal_of_none (h : s.appsOf .Mu = []) : s.muTotal = 0 := by
  refine Finset.sum_eq_zero fun a _ => if_neg fun ha => ?_
  have hin : a ∈ s.appsOf .Mu := mem_appsOf.mpr ha
  rw [h] at hin
  cases hin

section Epoch

variable {aAlpha aBeta : ℚ} {data data' : PerformanceData} {aRnd aRnd' : ℕ → ℚ}
  {s' s'' : Scenario B E A}

/-- The costs of an epoch are those of the assignment that it makes. -/
theorem epoch_costs (henv : env.AssignsAll) (hcosts : env.SumsCosts) (halpha : aAlpha ≤ 1)
    (h : s.Assigned aAlpha) (hstorage : s.StorageAlike)
    (hroom : (s.appsOf .Mu).length < (s.theEdges CLOUD).theNumContainers)
    (hassign : s.assignMuApps env aAlpha {} aRnd = .ok (data, s'))
    (hweigh : s'.assignLambdaApps env aBeta data aRnd' = .ok (data', s'')) :
    data'.theLambdaCost = s''.lambdaTotal ∧ data'.theMuCost = s''.muTotal := by
  have hmu : data.theLambdaCost = 0 ∧ data.theMuCost = s'.muTotal ∧ s'.StorageAlike ∧
      s'.Assigned aAlpha := by
    by_cases hsome : s.appsOf .Mu = []
    · simp only [assignMuApps, if_pos hsome] at hassign
      cases hassign
      exact ⟨rfl, (muTotal_of_none hsome).symm, hstorage, h⟩
    · obtain ⟨cost, placed, hok, hplaced, hcount, hcost⟩ :=
        assignMuApps_spec henv s aAlpha {} aRnd (Nat.le_of_lt hroom) hsome
      have hassigned := placed_assigned hplaced hcount h.weights
      cases hassign.symm.trans hok
      refine ⟨rfl, (hcost hcosts).trans (placed_muTotal hplaced).symm, ?_, hassigned⟩
      rw [placed_eq]
      exact hstorage
  obtain ⟨hzero, hcost, hstorage', hassigned⟩ := hmu
  by_cases hsome : s'.appsOf .Lambda = []
  · simp only [assignLambdaApps, if_pos hsome] at hweigh
    cases hweigh
    exact ⟨hzero.trans (lambdaTotal_of_none hsome).symm, hcost⟩
  · rw [assignLambdaApps_spec env s' aBeta data aRnd' hsome (hassigned.le_containers halpha)] at hweigh
    cases hweigh
    exact ⟨lambdaSolution_cost hstorage' aBeta aRnd', hcost⟩

end Epoch

section Migration

variable {aAlpha : ℚ} {a : Fin A}

/-- Only the costs of an app change with it. -/
theorem totals_changed (s' : Scenario B E A) (hnetwork : s'.networkCost = s.networkCost)
    (hlocal : s'.theCloudStorageCostLocal = s.theCloudStorageCostLocal)
    (hremote : s'.theCloudStorageCostRemote = s.theCloudStorageCostRemote)
    (h : ∀ b, b ≠ a → s'.theApps b = s.theApps b) :
    s'.lambdaTotal = s.lambdaTotal -
        (if (s.theApps a).theType = .Lambda then s.lambdaApCost a else 0) +
        (if (s'.theApps a).theType = .Lambda then s'.lambdaApCost a else 0) ∧
      s'.muTotal = s.muTotal -
        (if (s.theApps a).theType = .Mu then s.muApCost a (s.theApps a).theEdge else 0) +
        (if (s'.theApps a).theType = .Mu then s'.muApCost a (s'.theApps a).theEdge else 0) := by
  constructor
  · apply sum_changed a
    intro b hb
    simp only [lambdaApCost, lambdaUnit, h b hb, hnetwork, hlocal, hremote]
  · apply sum_changed a
    intro b hb
    simp only [muApCost, h b hb, hnetwork]

/-- Where only the network counts, the cost of a lambda app is the one of an epoch. -/
theorem lambdaCost_eq (h : ∀ w ∈ (s.theApps a).theWeights, w.2 ≠ 0 →
    s.networkCost (s.theApps a).theBroker w.1 = s.lambdaUnit a w.1) :
    s.lambdaCost a = s.lambdaApCost a := by
  refine congrArg List.sum (List.map_congr_left fun w hw => ?_)
  by_cases hzero : w.2 = 0
  · rw [hzero, mul_zero, zero_mul]
  · rw [h w hw hzero, mul_comm]

theorem toMu_costs (h : s.NetworkOnly aAlpha a) (ha : (s.theApps a).theType = .Lambda)
    {e : Fin (E + 1)} (hfree : s.Free aAlpha e) :
    (s.toMu a e).lambdaTotal = s.lambdaTotal - s.lambdaCost a ∧
      (s.toMu a e).muTotal = s.muTotal + (s.toMu a e).muCost a := by
  have happ := toMu_changed s a e
  simp only [NetworkOnly, ha] at h
  obtain ⟨hlambda, hmu⟩ := totals_changed (s := s) (s.toMu a e) rfl rfl rfl
    fun b hb => toMu_other s e hb
  rw [if_pos ha, happ, if_neg AppType.noConfusion, add_zero] at hlambda
  rw [ha, if_neg (by decide), happ, if_pos rfl, sub_zero] at hmu
  have hcost : (s.toMu a e).muApCost a e = (s.toMu a e).muCost a := by
    simp only [muApCost, muCost, happ]
    exact (h.2 e hfree).symm
  exact ⟨by rw [hlambda, lambdaCost_eq h.1], by rw [hmu, hcost]⟩

theorem toLambda_costs (h : s.NetworkOnly aAlpha a) (ha : (s.theApps a).theType = .Mu)
    (hweights : (s.theApps a).theWeights = []) :
    (s.toLambda a).lambdaTotal = s.lambdaTotal + (s.toLambda a).lambdaCost a ∧
      (s.toLambda a).muTotal = s.muTotal - s.muCost a := by
  have happ : (s.toLambda a).theApps a = { s.theApps a with
      theWeights := [(CLOUD, ((s.theApps a).theServiceRate : ℚ))]
      theType := .Lambda } := by
    rw [toLambda_changed, hweights, List.nil_append]
  simp only [NetworkOnly, ha] at h
  obtain ⟨hlambda, hmu⟩ := totals_changed (s := s) (s.toLambda a) rfl rfl rfl
    fun b hb => toLambda_other s hb
  rw [ha, if_neg (by decide), happ, if_pos rfl, sub_zero] at hlambda
  rw [if_pos ha, happ, if_neg AppType.noConfusion, add_zero, ← h.2] at hmu
  refine ⟨?_, hmu⟩
  rw [hlambda, lambdaCost_eq]
  intro w hw _
  rw [happ] at hw ⊢
  cases List.mem_singleton.mp hw
  simp only [lambdaUnit, happ]
  exact h.1

end Migration

end Scenario

namespace Dynamic

open Scenario

variable {B E A : ℕ} {env : Env} {args : DynamicArgs}

/-- The costs that a simulation keeps are those of its scenario. -/
def CostsHold (v : View B E A) : Prop :=
  v.myLambdaCost = v.scenario.lambdaTotal ∧ v.myMuCost = v.scenario.muTotal

/-- The formulas of the migrations and of the epochs agree on what comes next. -/
def Agrees (args : DynamicArgs) (d : Dynamic B E A) : Prop :=
  (d.Optimizes → d.scenario.StorageAlike) ∧
    (d.Changes → d.scenario.NetworkOnly args.aAlpha d.myAppPool.front.theAppId)

theorem CostsHold.next (henv : env.AssignsAll) (hcosts : env.SumsCosts) (halpha : args.aAlpha ≤ 1)
    {v v' : View B E A} {optimizes changes : Prop} {a : Fin A} (h : Sound args v)
    (hstorage : optimizes → v.scenario.StorageAlike)
    (hnetwork : changes → v.scenario.NetworkOnly args.aAlpha a)
    (hnext : Next env args optimizes changes a v v') (hv : CostsHold v) : CostsHold v' := by
  cases hnext with
  | skip => exact hv
  | optimize hopt data data' s s' hassign hweigh =>
    exact epoch_costs henv hcosts halpha h.assigned (hstorage hopt) h.room hassign hweigh
  | toMu hchange e htype hfree =>
    obtain ⟨hlambda, hmu⟩ := toMu_costs (hnetwork hchange) htype hfree
    exact ⟨by rw [hlambda, hv.1], by rw [hmu, hv.2]⟩
  | toLambda hchange htype =>
    obtain ⟨hlambda, hmu⟩ := toLambda_costs (hnetwork hchange) htype (h.assigned.weights a htype)
    exact ⟨by rw [hlambda, hv.1], by rw [hmu, hv.2]⟩

theorem start_costsHold {A' : ℕ} {s : Scenario B E A'} {aPeriods : List (List ℚ)}
    {apps : Population B A} {draws : Draws aPeriods A} {d : Dynamic B E A}
    (h : start env s args aPeriods apps draws = .ok d) : CostsHold d.view := by
  obtain ⟨-, hview⟩ := start_ok h
  rw [hview]
  constructor
  · refine (Finset.sum_eq_zero fun a _ => ?_).symm
    exact (if_pos rfl).trans List.sum_nil
  · refine (Finset.sum_eq_zero fun a _ => if_neg ?_).symm
    exact AppType.noConfusion

/-- In every run in which the formulas agree on each step the costs are kept. -/
theorem running_costs (henv : env.AssignsAll) (hcosts : env.SumsCosts) {A' : ℕ}
    (s : Scenario B E A') {aPeriods : List (List ℚ)} (apps : Population B A)
    (draws : Draws aPeriods A) (d : Dynamic B E A)
    (h : start env s args aPeriods apps draws = .ok d) (n : ℕ)
    (hagrees : Through env args (Agrees args) n d) :
    ∃ d', after env args n d = .ok d' ∧ d'.myLambdaCost = d'.scenario.lambdaTotal ∧
      d'.myMuCost = d'.scenario.muTotal := by
  obtain ⟨⟨-, halpha, -, -⟩, -⟩ := start_ok h
  obtain ⟨d', hok, -, hd'⟩ := after_through henv halpha (I := CostsHold)
    (fun d v' hsound hp hnext hv => hv.next henv hcosts halpha hsound hp.1 hp.2 hnext) n
    (start_sound h) (start_costsHold h) hagrees
  exact ⟨d', hok, hd'⟩

/-- One app, of which two units are exchanged, at the same cost everywhere. -/
def exchangesTwo : Dynamic 1 1 1 :=
  initial (.inOrder fun _ _ _ _ _ _ => 0) exampleScenario exampleArgs
    ⟨fun _ => ⟨0, Nat.one_pos⟩, fun _ => { theExchangeSize := 2 }⟩
    (AppPool.inTurn [[1, 3]] one_and_three_halved) Nat.one_ne_zero

/-- The app is a mu app after its first transition, and some of its cost as a lambda
app is left while its cost as a mu app is not all there. -/
theorem exchangesTwo_costs :
    start (.inOrder fun _ _ _ _ _ _ => 0) exampleScenario exampleArgs [[1, 3]]
      ⟨fun _ => 0, fun _ => { theExchangeSize := 2 }⟩ (AppPool.inTurn [[1, 3]] (by decide)) =
        .ok exchangesTwo ∧
    ∃ d', after (.inOrder fun _ _ _ _ _ _ => 0) exampleArgs 2 exchangesTwo = .ok d' ∧
      d'.myLambdaCost = 1 ∧ d'.scenario.lambdaTotal = 0 ∧
      d'.myMuCost = 1 ∧ d'.scenario.muTotal = 2 := by
  refine ⟨start_initial _ _ _ (by decide +kernel) (by decide +kernel) (by decide +kernel) _, ?_⟩
  have hrun : (after (.inOrder fun _ _ _ _ _ _ => 0) exampleArgs 2 exchangesTwo).toOption.map
      (fun d' => (d'.myLambdaCost, d'.scenario.lambdaTotal, d'.myMuCost, d'.scenario.muTotal)) =
        some (1, 0, 1, 2) := by
    decide +kernel
  obtain ⟨d', hok, hd'⟩ := Checks.ok_of_toOption hrun
  simp only [Prod.mk.injEq] at hd'
  exact ⟨d', hok, hd'⟩

/-- Where all rates, sizes and network costs are one and storage is for free, the
formulas agree on all steps. -/
theorem agrees_of_inputs {s : Scenario 1 1 1} {d : Dynamic 1 1 1} (hin : SameInputs s d.scenario)
    (hnetwork : ∀ b e, s.networkCost b e = 1) (hlocal : s.theCloudStorageCostLocal = 0)
    (hremote : s.theCloudStorageCostRemote = 0) (hrate : ∀ a, (s.theApps a).theServiceRate = 1)
    (hexchange : ∀ a, (s.theApps a).theExchangeSize = 1) : Agrees args d := by
  have hunit : ∀ a e, d.scenario.networkCost (d.scenario.theApps a).theBroker e =
      d.scenario.lambdaUnit a e := by
    intro a e
    rw [lambdaUnit, hin.network, hin.exchangeSize, hin.storageLocal, hin.storageRemote, hnetwork,
      hexchange, hlocal, hremote, ite_self]
    norm_num
  have hmu : ∀ a e, d.scenario.networkCost (d.scenario.theApps a).theBroker e =
      d.scenario.muApCost a e := by
    intro a e
    rw [muApCost, hin.network, hin.exchangeSize, hin.serviceRate, hnetwork, hexchange, hrate]
    norm_num
  constructor
  · intro _ a _
    right
    rw [hin.storageLocal, hin.storageRemote, hlocal, hremote]
  · intro _
    unfold NetworkOnly
    split
    · exact ⟨fun w _ _ => hunit _ _, fun e _ => hmu _ _⟩
    · exact ⟨hunit _ _, hmu _ _⟩

theorem running_costs_example : ∃ d', after (.inOrder fun _ _ _ _ _ _ => 0) exampleArgs 2
      (initial (.inOrder fun _ _ _ _ _ _ => 0) exampleScenario exampleArgs
        ⟨fun _ => 0, fun _ => {}⟩ (AppPool.inTurn [[1, 3]] (by decide)) (by decide)) = .ok d' ∧
    d'.myLambdaCost = d'.scenario.lambdaTotal ∧ d'.myMuCost = d'.scenario.muTotal :=
  running_costs (Env.inOrder_assignsAll _) (Env.inOrder_sumsCosts _) exampleScenario _ _ _
    (start_initial _ _ _ (by decide +kernel) (by decide +kernel) (by decide +kernel) _) 2
    (through_of_inputs (Env.inOrder_assignsAll _) (by decide +kernel) 2
      (start_sound (start_initial _ _ _ (by decide +kernel) (by decide +kernel)
        (by decide +kernel) _))
      fun d' hd' => agrees_of_inputs hd' (fun _ _ => rfl) rfl rfl (fun _ => rfl) fun _ => rfl)

end Dynamic

end ServerlessEdge.LambdaMuSim
