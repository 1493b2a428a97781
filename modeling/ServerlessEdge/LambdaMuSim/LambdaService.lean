import ServerlessEdge.LambdaMuSim.DynamicRuns
import ServerlessEdge.LambdaMuSim.FlowGraph

/-! The service of the lambda apps: each of them gets its service rate where the free
containers offer what all of them request. -/
namespace ServerlessEdge.LambdaMuSim
open Library

namespace Scenario

variable {B E A : ℕ} {s : Scenario B E A} {env : Env}

/-- The solvers serve what the containers offer, which the flow limits to the largest
value of its virtual edges. -/
def offers (algo : LambdaAlgorithm) {W : ℕ} (aCapacities : Mcfp.Capacities W) (w : Fin W) : ℕ :=
  match algo with
  | .Random | .Greedy => (aCapacities w).toNat
  | .Mcfp => min (aCapacities w).toNat (Mcfp.maxCap aCapacities).toNat

theorem solveLambda_serves {env : Env} (hflow : env.flow.Right) (algo : LambdaAlgorithm) {T W : ℕ}
    (aCosts : Mcfp.Costs T W) (aRequests : Mcfp.Requests T) (aCapacities : Mcfp.Capacities W)
    (aRnd : ℕ → ℚ) : Mcfp.Serves aCosts aRequests (offers algo aCapacities)
      (solveLambda env algo aCosts aRequests aCapacities aRnd) := by
  cases algo with
  | Random => exact Mcfp.solveRandom_serves aCosts aRequests aCapacities aRnd
  | Greedy => exact Mcfp.solveGreedy_serves aCosts aRequests aCapacities
  | Mcfp => exact Mcfp.solve_serves hflow aCosts aRequests aCapacities

/-- The weights of each lambda app sum to its service rate. -/
def ServiceKept (s : Scenario B E A) : Prop :=
  ∀ a, (s.theApps a).theType = .Lambda →
    ((s.theApps a).theWeights.map Prod.snd).sum = (s.theApps a).theServiceRate

/-- The lambda apps request no more than the free containers offer. -/
def Covered (s : Scenario B E A) (aBeta : ℚ) : Prop :=
  ∑ t, (s.theApps ((s.appsOf .Lambda).get t)).theServiceRate ≤
    ∑ c, (offers s.theLambdaAlgorithm
      (fun c => s.lambdaCapacity aBeta (s.lambdaContainers.get c)) c : ℤ)

instance (s : Scenario B E A) (aBeta : ℚ) : Decidable (s.Covered aBeta) :=
  inferInstanceAs (Decidable (_ ≤ _))

/-- The lambda apps request something. -/
def RatesPositive (s : Scenario B E A) : Prop := ∀ a, 0 < (s.theApps a).theServiceRate

theorem sum_lambdaWeights (env : Env) (s : Scenario B E A) (aBeta : ℚ) (aRnd : ℕ → ℚ)
    (t : Fin (s.appsOf .Lambda).length) :
    ((s.lambdaWeights env aBeta aRnd ((s.appsOf .Lambda).get t)).map Prod.snd).sum =
      ∑ c, (s.lambdaSolution env aBeta aRnd).2 t c := by
  have hsum := sum_aggregate s.lambdaContainers ((s.lambdaSolution env aBeta aRnd).2 t) fun _ => 1
  simp only [mul_one] at hsum
  rw [lambdaWeights_get]
  exact hsum

theorem serviceKept_withWeights_iff (hflow : env.flow.Right) (h : s.RatesPositive) (aBeta : ℚ)
    (aRnd : ℕ → ℚ) : (s.withWeights (s.lambdaWeights env aBeta aRnd)).ServiceKept ↔
      s.Covered aBeta := by
  have hserves := solveLambda_serves hflow s.theLambdaAlgorithm
    (fun t c => s.lambdaUnitCost ((s.appsOf .Lambda).get t) c)
    (fun t => (s.theApps ((s.appsOf .Lambda).get t)).theServiceRate)
    (fun c => s.lambdaCapacity aBeta (s.lambdaContainers.get c)) aRnd
  refine Iff.trans ?_ (hserves.rows_iff fun t => le_of_lt (h _))
  constructor
  · intro hkept t
    have hrow := hkept ((s.appsOf .Lambda).get t) (mem_appsOf.mp (List.get_mem _ _))
    exact (sum_lambdaWeights env s aBeta aRnd t).symm.trans hrow
  · intro hrows a ha
    obtain ⟨t, rfl⟩ := List.get_of_mem (mem_appsOf.mpr ha : a ∈ s.appsOf .Lambda)
    exact (sum_lambdaWeights env s aBeta aRnd t).trans (hrows t)

/-- The assignment of the lambda apps serves all of them if and only if they are covered. -/
theorem serviceKept_iff (hflow : env.flow.Right) (h : s.RatesPositive) {aAlpha aBeta : ℚ}
    (halpha : aAlpha ≤ 1) (hassigned : s.Assigned aAlpha) {data data' : PerformanceData}
    {aRnd : ℕ → ℚ} {s' : Scenario B E A}
    (hweigh : s.assignLambdaApps env aBeta data aRnd = .ok (data', s')) :
    s'.ServiceKept ↔ s.Covered aBeta := by
  by_cases hsome : s.appsOf .Lambda = []
  · have hnone : ∀ a, a ∉ s.appsOf .Lambda := by
      intro a
      rw [hsome]
      exact List.not_mem_nil
    simp only [assignLambdaApps, if_pos hsome] at hweigh
    cases hweigh
    constructor
    · intro _
      have hzero : ∑ t, (s.theApps ((s.appsOf .Lambda).get t)).theServiceRate = 0 :=
        Finset.sum_eq_zero fun t _ => absurd (List.get_mem _ t) (hnone _)
      rw [Covered, hzero]
      exact Finset.sum_nonneg fun c _ => Int.natCast_nonneg _
    · intro _ a ha
      exact absurd (mem_appsOf.mpr ha) (hnone a)
  · rw [assignLambdaApps_spec env s aBeta data aRnd hsome (hassigned.le_containers halpha)] at hweigh
    cases hweigh
    exact serviceKept_withWeights_iff hflow h aBeta aRnd

theorem assignMuApps_serviceRate {aAlpha : ℚ} {data data' : PerformanceData} {aRnd : ℕ → ℚ}
    {s' : Scenario B E A} (h : s.assignMuApps env aAlpha data aRnd = .ok (data', s')) (a : Fin A) :
    (s'.theApps a).theServiceRate = (s.theApps a).theServiceRate := by
  simp only [assignMuApps] at h
  split at h
  · cases h
    rfl
  · split at h
    · cases h
    · cases h
      rw [placed_eq]
      rfl

theorem ServiceKept.toMu (h : s.ServiceKept) (a : Fin A) (e : Fin (E + 1)) :
    (s.toMu a e).ServiceKept :=
  lambda_toMu (P := fun x => (x.theWeights.map Prod.snd).sum = x.theServiceRate) h a e

/-- An app that becomes a lambda app is served by the cloud. -/
theorem ServiceKept.toLambda (h : s.ServiceKept) {a : Fin A}
    (hweights : (s.theApps a).theWeights = []) : (s.toLambda a).ServiceKept := by
  refine lambda_toLambda (P := fun x => (x.theWeights.map Prod.snd).sum = x.theServiceRate) h ?_
  rw [toLambda_changed, hweights]
  exact List.sum_singleton

end Scenario

namespace Dynamic

open Scenario

variable {B E A : ℕ} {env : Env} {args : DynamicArgs}

/-- The lambda apps are covered whenever all apps are assigned anew. -/
def CoversEpoch (env : Env) (args : DynamicArgs) (d : Dynamic B E A) : Prop :=
  d.Optimizes → ∀ data s, d.scenario.assignMuApps env args.aAlpha {} (args.rnd d.myAssignCounter) =
    .ok (data, s) → s.Covered args.aBeta

/-- From the first epoch on the lambda apps get their service rates. -/
structure Serving (v : View B E A) : Prop where
  rates : v.scenario.RatesPositive
  kept : v.myAssignCounter ≠ 0 → v.scenario.ServiceKept

theorem Serving.next (henv : env.AssignsAll) (hflow : env.flow.Right) (halpha : args.aAlpha ≤ 1)
    {v v' : View B E A} {optimizes changes : Prop} {a : Fin A} (h : Sound args v)
    (hcovers : optimizes → ∀ data s, v.scenario.assignMuApps env args.aAlpha {}
      (args.rnd v.myAssignCounter) = .ok (data, s) → s.Covered args.aBeta)
    (hnext : Next env args optimizes changes a v v') (hv : Serving v) : Serving v' := by
  have hrates : v'.scenario.RatesPositive := by
    intro b
    rw [(hnext.sameInputs henv halpha h).serviceRate]
    exact hv.rates b
  refine ⟨hrates, ?_⟩
  cases hnext with
  | skip => exact hv.kept
  | optimize hopt data data' s s' hassign hweigh =>
    obtain ⟨g, l, w, rfl, rfl, hassigned, -⟩ := h.reassigned henv halpha hassign hweigh
    have hrates' : (v.scenario.withMu g l).RatesPositive := hv.rates
    intro _
    exact (serviceKept_iff hflow hrates' halpha hassigned hweigh).mpr (hcovers hopt _ _ hassign)
  | toMu hchange e htype hfree => exact fun hcounter => (hv.kept hcounter).toMu a e
  | toLambda hchange htype =>
    exact fun hcounter => (hv.kept hcounter).toLambda (h.assigned.weights a htype)

/-- A snapshot serves the lambda apps if and only if they are covered once the mu apps
have been assigned, and in every run in which they are covered whenever all apps are
assigned anew they are served from the first epoch on. -/
theorem lambda_service_kept (henv : env.AssignsAll) (hflow : env.flow.Right) :
    (∀ (B E A' : ℕ) (s : Scenario B E A') (aAlpha aBeta : ℚ) (myNumLambda myNumMu : ℕ)
      (apps : Population B (myNumLambda + myNumMu)) (rnd : ℕ → ℕ → ℚ),
      checkArgs env aAlpha aBeta = .ok () → (∀ a, 0 < (apps.params a).theServiceRate) →
      ∃ data data' s' s'',
        (s.snapshotStart env aBeta myNumLambda myNumMu apps).assignMuApps env aAlpha
          { (s.snapshotStart env aBeta myNumLambda myNumMu apps).totals with
            theNumLambda := myNumLambda, theNumMu := myNumMu } (rnd 0) = .ok (data, s') ∧
        s.snapshot env aAlpha aBeta myNumLambda myNumMu apps rnd = .ok (data', s'') ∧
        (s''.ServiceKept ↔ s'.Covered aBeta)) ∧
    ∀ (B E A' A : ℕ) (s : Scenario B E A') (args : DynamicArgs) (aPeriods : List (List ℚ))
      (apps : Population B A) (draws : Draws aPeriods A) (d : Dynamic B E A),
      start env s args aPeriods apps draws = .ok d → (∀ a, 0 < (apps.params a).theServiceRate) →
      ∀ n, Through env args (CoversEpoch env args) n d → ∃ d', after env args n d = .ok d' ∧
        (d'.myAssignCounter ≠ 0 → d'.scenario.ServiceKept) := by
  constructor
  · intro B E A' s aAlpha aBeta myNumLambda myNumMu apps rnd hargs hrates
    obtain ⟨data, data', s', s'', hmu, hlambda, hok, hassigned, -, -⟩ :=
      snapshot_ok henv s aAlpha aBeta apps rnd hargs
    obtain ⟨-, halpha, -, -⟩ := checkArgs_ok_iff.mp hargs
    refine ⟨data, data', s', s'', hmu, hok, serviceKept_iff hflow ?_ halpha hassigned hlambda⟩
    intro a
    rw [assignMuApps_serviceRate hmu]
    exact hrates a
  · intro B E A' A s args aPeriods apps draws d hd hrates n hcovers
    obtain ⟨⟨-, halpha, -, -⟩, hview⟩ := start_ok hd
    have hserving : Serving d.view := by
      rw [hview]
      exact ⟨hrates, fun hcounter => absurd rfl hcounter⟩
    obtain ⟨d', hok, -, hd'⟩ := after_through henv halpha (I := Serving)
      (fun d v' hsound hp hnext hv => hv.next henv hflow halpha hsound hp hnext) n
      (start_sound hd) hserving hcovers
    exact ⟨d', hok, hd'.kept⟩

/-- With a beta of one the cloud offers what is requested. -/
theorem lambda_service_kept_example : ∃ flow : Mcfp.FlowSolver, flow.Right ∧
    (∃ data s'', exampleScenario.snapshot (.inOrder flow) (1 / 2) 1 1 0
        ⟨fun _ => 0, fun _ => {}⟩ (fun _ _ => 0) = .ok (data, s'') ∧ s''.ServiceKept) ∧
    ∃ d', after (.inOrder flow) exampleArgs 1 (initial (.inOrder flow) exampleScenario exampleArgs
        ⟨fun _ => 0, fun _ => {}⟩ (AppPool.inTurn [[1, 3]] (by decide)) (by decide)) = .ok d' ∧
      (d'.myAssignCounter ≠ 0 → d'.scenario.ServiceKept) := by
  obtain ⟨flow, hflow⟩ := Mcfp.exists_flowSolver_right
  refine ⟨flow, hflow, ?_, ?_⟩
  · obtain ⟨_, data, s', s'', hmu, hok, hiff⟩ :=
      (lambda_service_kept (Env.inOrder_assignsAll flow) hflow).1 1 1 0 exampleScenario (1 / 2) 1 1 0
        ⟨fun _ => 0, fun _ => {}⟩ (fun _ _ => 0) (checkArgs_ok_iff.mpr (by decide +kernel))
        fun _ => Int.one_pos
    refine ⟨data, s'', hok, hiff.mpr ?_⟩
    cases hmu
    have hcovered : (exampleScenario.snapshotStart (.inOrder fun _ _ _ _ _ _ => 0) 1 1 0
        ⟨fun _ => 0, fun _ => {}⟩).Covered 1 := by
      decide +kernel
    exact hcovered
  · refine (lambda_service_kept (Env.inOrder_assignsAll flow) hflow).2 1 1 0 1 exampleScenario
      exampleArgs _ _ _ _ (start_initial _ _ _ (by decide +kernel) (by decide +kernel)
        (by decide +kernel) _) (fun _ => Int.one_pos) 1 ?_
    refine fun _ => ⟨fun _ data s h => ?_, fun _ _ => trivial⟩
    -- there are no mu apps at the beginning, and nothing is assigned to the edges
    cases h
    have hcovered : (initial (.inOrder fun _ _ _ _ _ _ => 0) exampleScenario exampleArgs
        ⟨fun _ => 0, fun _ => {}⟩ (AppPool.inTurn [[1, 3]] (by decide))
        (by decide)).scenario.Covered 1 := by
      decide +kernel
    exact hcovered

/-- With a beta of two fifths the cloud gets a capacity of two, of which it offers
nothing, and the only app is not served. -/
theorem service_dropped : checkArgs (.inOrder fun _ _ _ _ _ _ => 0) (1 / 2) (2 / 5) = .ok () ∧
    ∃ data s', exampleScenario.snapshot (.inOrder fun _ _ _ _ _ _ => 0) (1 / 2) (2 / 5) 1 0
        ⟨fun _ => 0, fun _ => {}⟩ (fun _ _ => 0) = .ok (data, s') ∧
      (s'.theApps 0).theType = .Lambda ∧ (s'.theApps 0).theServiceRate = 1 ∧
      ((s'.theApps 0).theWeights.map Prod.snd).sum = 0 := by
  refine ⟨checkArgs_ok_iff.mpr (by decide +kernel), ?_⟩
  have hrun : (exampleScenario.snapshot (.inOrder fun _ _ _ _ _ _ => 0) (1 / 2) (2 / 5) 1 0
      ⟨fun _ => 0, fun _ => {}⟩ (fun _ _ => 0)).toOption.map (fun r => ((r.2.theApps 0).theType,
        (r.2.theApps 0).theServiceRate, ((r.2.theApps 0).theWeights.map Prod.snd).sum)) =
      some (.Lambda, 1, 0) := by
    decide +kernel
  obtain ⟨r, hok, hr⟩ := Checks.ok_of_toOption hrun
  simp only [Prod.mk.injEq] at hr
  exact ⟨r.1, r.2, hok, hr⟩

end Dynamic

end ServerlessEdge.LambdaMuSim
