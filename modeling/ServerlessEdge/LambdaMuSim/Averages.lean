import ServerlessEdge.Library.Averages
import ServerlessEdge.Library.Checks
import ServerlessEdge.LambdaMuSim.DynamicRuns

/-! The averages that the dynamic simulation outputs, against the averages over time of
the values that the quantities have between the events. -/
namespace ServerlessEdge.LambdaMuSim
open Library Averages Checks

namespace Accumulator

/-- A sample is taken. -/
def push (acc : Accumulator) (x : ℚ × ℚ) : Accumulator :=
  { theLast := x.1, theAcc := acc.theAcc ++ [(x.2, x.1 - acc.theLast)] }

/-- The sum of the weights. -/
def total (acc : Accumulator) : ℚ := (acc.theAcc.map Prod.snd).sum

theorem foldl_push (acc : Accumulator) (l : List (ℚ × ℚ)) :
    (l.foldl push acc).total = acc.total + (lastTime acc.theLast l - acc.theLast) ∧
    ((l.foldl push acc).theAcc.map fun x => x.2 * x.1).sum =
      (acc.theAcc.map fun x => x.2 * x.1).sum + sampled acc.theLast l := by
  induction l generalizing acc with
  | nil => simp [lastTime, sampled]
  | cons x l ih =>
    obtain ⟨htotal, hsum⟩ := ih (acc.push x)
    rw [List.foldl_cons]
    constructor
    · rw [htotal]
      simp only [total, push, List.map_append, List.map_cons, List.map_nil, List.sum_append,
        List.sum_cons, List.sum_nil, lastTime]
      ring
    · rw [hsum]
      simp only [push, List.map_append, List.map_cons, List.map_nil, List.sum_append,
        List.sum_cons, List.sum_nil, sampled]
      ring

end Accumulator

/-- The solution names the rows in order. -/
theorem mapM_fst {α β : Type} {f : α → Option β} {is : List α} {l : List (α × β)}
    (h : (is.mapM fun i => (f i).map fun c => (i, c)) = some l) : l.map Prod.fst = is := by
  induction is generalizing l with
  | nil =>
    cases h
    rfl
  | cons i is ih =>
    obtain ⟨x, rest, hx, hrest, rfl⟩ := mapM_cons_some.mp h
    obtain ⟨c, -, rfl⟩ := Option.map_eq_some_iff.mp hx
    rw [List.map_cons, ih hrest]

namespace Scenario

variable {B E A : ℕ}

/-- The mu apps in the cloud. -/
def cloudApps (s : Scenario B E A) : List (Fin A) :=
  (s.appsOf .Mu).filter fun a => (s.theApps a).theEdge = CLOUD

/-- The share of the mu service that goes to the cloud. -/
def muServiceCloud (s : Scenario B E A) : ℚ :=
  (s.cloudApps.map fun a => ((s.theApps a).theServiceRate : ℚ)).sum /
    ((s.appsOf .Mu).map fun a => ((s.theApps a).theServiceRate : ℚ)).sum

variable {s s' : Scenario B E A} {env : Env}

theorem placed_cloudApps {placed : List (Fin A × Fin (E + 1))}
    (hplaced : placed.map Prod.fst = s.appsOf .Mu) :
    (placed.foldl place s.clearMuApps).cloudApps =
      (placed.filter fun p => p.2 = CLOUD).map Prod.fst := by
  have hfilter : (placed.foldl place s.clearMuApps).cloudApps =
      (s.appsOf .Mu).filter fun a => s.placedEdge placed a = CLOUD := by
    rw [placed_eq]
    rfl
  rw [hfilter, ← hplaced, List.filter_map]
  refine congrArg (List.map Prod.fst) (List.filter_congr fun p hp => ?_)
  exact congrArg (fun e => decide (e = CLOUD)) (placedEdge_of_mem hplaced hp)

/-- The shares of the cloud that are output are those of the assignment. -/
theorem assignMuApps_cloud {aAlpha : ℚ} {aRnd : ℕ → ℚ} {data : PerformanceData}
    (h : s.assignMuApps env aAlpha {} aRnd = .ok (data, s')) :
    data.theMuCloud = s'.cloudApps.length ∧ data.theMuServiceCloud = s'.muServiceCloud := by
  unfold assignMuApps at h
  split at h
  · rename_i hnone
    cases h
    have hcloud : s.cloudApps = [] := by
      rw [cloudApps, hnone]
      rfl
    rw [muServiceCloud, hcloud]
    exact ⟨Nat.cast_zero.symm, (zero_div _).symm⟩
  · simp only at h
    split at h
    · cases h
    · rename_i l hl
      have hfst : l.map Prod.fst = List.finRange _ := mapM_fst hl
      generalize hp : (l.map fun p =>
        ((s.appsOf .Mu).get p.1, (s.containerToNodes aAlpha).get p.2)) = placed at h
      have hplaced : placed.map Prod.fst = s.appsOf .Mu := by
        rw [← hp, List.map_map]
        calc l.map (Prod.fst ∘ fun p =>
              ((s.appsOf .Mu).get p.1, (s.containerToNodes aAlpha).get p.2))
            = (l.map Prod.fst).map (s.appsOf .Mu).get := by rw [List.map_map]; rfl
          _ = s.appsOf .Mu := by rw [hfst, List.map_get_finRange]
      have hcloud := placed_cloudApps hplaced
      have hrates : ∀ a, ((placed.foldl place s.clearMuApps).theApps a).theServiceRate =
          (s.theApps a).theServiceRate := by
        intro a
        rw [placed_eq]
        rfl
      have hmu : (placed.foldl place s.clearMuApps).appsOf .Mu = placed.map Prod.fst := by
        rw [hplaced, placed_eq]
        rfl
      cases h
      refine ⟨?_, ?_⟩
      · rw [hcloud, List.length_map]
        exact zero_add _
      · simp only [muServiceCloud, hcloud, hmu, hrates, List.map_map]
        rfl

theorem assignLambdaApps_cloud {aBeta : ℚ} {aRnd : ℕ → ℚ} {data data' : PerformanceData}
    (h : s.assignLambdaApps env aBeta data aRnd = .ok (data', s')) :
    data'.theMuCloud = data.theMuCloud ∧ data'.theMuServiceCloud = data.theMuServiceCloud ∧
      s'.cloudApps = s.cloudApps ∧ s'.muServiceCloud = s.muServiceCloud := by
  simp only [assignLambdaApps, foldl_weigh] at h
  split at h
  · cases h
    exact ⟨rfl, rfl, rfl, rfl⟩
  · split at h
    · cases h
    · cases h
      exact ⟨rfl, rfl, rfl, rfl⟩

end Scenario

namespace Dynamic

open Scenario

variable {B E A : ℕ}

/-- The averages in the output. -/
inductive Output where
  | numLambda | numMu | lambdaCost | lambdaServiceCloud | muCost | muCloud | muServiceCloud
  deriving DecidableEq

namespace Output

/-- The value that the quantity has in a state of the simulation. -/
def value (d : Dynamic B E A) : Output → ℚ
  | numLambda => d.myNumLambda
  | numMu => (A - d.myNumLambda : ℕ)
  | lambdaCost => d.myLambdaCost
  | lambdaServiceCloud => d.myLambdaServiceCloud
  | muCost => d.myMuCost
  | muCloud => d.scenario.cloudApps.length
  | muServiceCloud => d.scenario.muServiceCloud

def acc (d : Dynamic B E A) : Output → Accumulator
  | numLambda => d.myNumLambdaAcc
  | numMu => d.myNumMuAcc
  | lambdaCost => d.myLambdaCostAcc
  | lambdaServiceCloud => d.myLambdaServiceCloudAcc
  | muCost => d.myMuCostAcc
  | muCloud => d.myMuCloudAcc
  | muServiceCloud => d.myMuServiceCloudAcc

def result (ret : PerformanceData) : Output → ℚ
  | numLambda => ret.theNumLambda
  | numMu => ret.theNumMu
  | lambdaCost => ret.theLambdaCost
  | lambdaServiceCloud => ret.theLambdaServiceCloud
  | muCost => ret.theMuCost
  | muCloud => ret.theMuCloud
  | muServiceCloud => ret.theMuServiceCloud

/-- The events whose iteration feeds the accumulator. -/
def Feeds (d : Dynamic B E A) : Output → Prop
  | numLambda | numMu => d.Changes
  | lambdaCost | lambdaServiceCloud | muCost => d.Optimizes ∨ d.Changes
  | muCloud | muServiceCloud => d.Optimizes

end Output

instance (d : Dynamic B E A) : Decidable d.Optimizes :=
  inferInstanceAs (Decidable (d.myNextEpoch ≤ d.myAppPool.next ∧ d.myOptimize = true))

instance (d : Dynamic B E A) : Decidable d.Changes :=
  inferInstanceAs (Decidable ¬ d.myNextEpoch ≤ d.myAppPool.next)

instance (d : Dynamic B E A) : (o : Output) → Decidable (o.Feeds d)
  | .numLambda | .numMu => inferInstanceAs (Decidable d.Changes)
  | .lambdaCost | .lambdaServiceCloud | .muCost =>
    inferInstanceAs (Decidable (d.Optimizes ∨ d.Changes))
  | .muCloud | .muServiceCloud => inferInstanceAs (Decidable d.Optimizes)

variable {env : Env} {args : DynamicArgs} {d d' : Dynamic B E A}

/-- What an iteration does: all apps are assigned anew, or the epoch is skipped, or an
app changes its type. -/
theorem step_cases (h : d.step env args = .ok d') :
    (d.Optimizes ∧ ∃ data data' s s',
      d.scenario.assignMuApps env args.aAlpha {} (args.rnd d.myAssignCounter) = .ok (data, s) ∧
      s.assignLambdaApps env args.aBeta data (args.rnd (d.myAssignCounter + 1)) =
        .ok (data', s') ∧
      d' = ((d.beginEpoch args).optimized args data' s s').finish args d.myNextEpoch) ∨
    (¬ d.Optimizes ∧ ¬ d.Changes ∧
      d' = { d.beginEpoch args with myClock := d.myClock + d.myNextEpoch }) ∨
    (d.Changes ∧ ∃ m, migrate args d.advancePool d.myAppPool.front.theAppId = .ok m ∧
      d' = finish args (sampleApps args m) d.myAppPool.advance.1.2) := by
  unfold step at h
  split at h
  · rename_i hepoch
    unfold epoch at h
    split at h
    · rename_i hopt
      left
      obtain ⟨m, hm, heq⟩ := bind_ok.mp h
      obtain ⟨⟨data, s⟩, hmu, hrest⟩ := bind_ok.mp hm
      obtain ⟨⟨data', s'⟩, hlambda, hdone⟩ := bind_ok.mp hrest
      cases hdone
      cases heq
      exact ⟨⟨hepoch, hopt⟩, data, data', s, s', hmu, hlambda, rfl⟩
    · rename_i hopt
      right
      left
      cases h
      exact ⟨fun hoptimizes => hopt hoptimizes.2, fun hchanges => hchanges hepoch, rfl⟩
  · rename_i hchange
    right
    right
    obtain ⟨m, hm, heq⟩ := bind_ok.mp h
    cases heq
    exact ⟨hchange, m, hm, rfl⟩

/-- A migration takes no sample and no time. -/
theorem migrate_frame {a : Fin A} (h : migrate args d a = .ok d') :
    (∀ o : Output, o.acc d' = o.acc d) ∧ d'.myClock = d.myClock ∧
      d'.myNextEpoch = d.myNextEpoch ∧ d'.myAppPool = d.myAppPool := by
  unfold migrate at h
  split at h
  · obtain ⟨⟨cost, s⟩, -, heq⟩ := bind_ok.mp h
    cases heq
    exact ⟨fun o => by cases o <;> rfl, rfl, rfl, rfl⟩
  · cases h
    exact ⟨fun o => by cases o <;> rfl, rfl, rfl, rfl⟩

/-- What an iteration samples: the value after its event, at the time before it. -/
theorem acc_step (h : d.step env args = .ok d') (o : Output) :
    o.acc d' = if o.Feeds d ∧ d.myClock ≥ args.aWarmUp then
      (o.acc d).push (d.myClock, o.value d') else o.acc d := by
  rcases step_cases h with ⟨hopt, data, data', s, s', hmu, hlambda, rfl⟩ |
    ⟨hopt, hchange, rfl⟩ | ⟨hchange, m, hm, rfl⟩
  · obtain ⟨hcloud, hservice⟩ := assignMuApps_cloud hmu
    obtain ⟨hcloud', hservice', happs, hshare⟩ := assignLambdaApps_cloud hlambda
    have hnot : ¬ d.Changes := fun hchange => hchange hopt.1
    cases o with
    | numLambda | numMu => rw [if_neg fun hfeeds => hnot hfeeds.1]; rfl
    | lambdaCost | lambdaServiceCloud | muCost =>
      simp only [Output.Feeds, hopt, true_or, true_and]
      rfl
    | muCloud =>
      simp only [Output.Feeds, hopt, true_and]
      have hvalue : data'.theMuCloud = s'.cloudApps.length := by
        rw [hcloud', hcloud, happs]
      exact congrArg (d.myMuCloudAcc.add d.myClock args.aWarmUp) hvalue
    | muServiceCloud =>
      simp only [Output.Feeds, hopt, true_and]
      have hvalue : data'.theMuServiceCloud = s'.muServiceCloud := by
        rw [hservice', hservice, hshare]
      exact congrArg (d.myMuServiceCloudAcc.add d.myClock args.aWarmUp) hvalue
  · have hnot : ¬ o.Feeds d := by
      cases o with
      | numLambda | numMu => exact hchange
      | lambdaCost | lambdaServiceCloud | muCost => exact not_or.mpr ⟨hopt, hchange⟩
      | muCloud | muServiceCloud => exact hopt
    rw [if_neg fun hfeeds => hnot hfeeds.1]
    cases o <;> rfl
  · obtain ⟨hacc, hclock, -⟩ := migrate_frame hm
    have hnot : ¬ d.Optimizes := fun hopt => hchange hopt.1
    have hsame : o.acc m = o.acc d := hacc o
    have hpush : ∀ q, (o.acc m).add m.myClock args.aWarmUp q =
        if d.myClock ≥ args.aWarmUp then (o.acc d).push (d.myClock, q) else o.acc d := by
      intro q
      rw [hsame, hclock]
      rfl
    cases o with
    | numLambda | numMu | lambdaCost | lambdaServiceCloud | muCost =>
      simp only [Output.Feeds, hchange, or_true, true_and]
      exact hpush _
    | muCloud | muServiceCloud =>
      rw [if_neg fun hfeeds => hnot hfeeds.1]
      exact hsame

theorem result_output (d : Dynamic B E A) (o : Output) :
    o.result d.output = (o.acc d).mean := by
  cases o <;> rfl

/-- The states of a simulation before each of its events, and after the last one. -/
def history (env : Env) (args : DynamicArgs) : ℕ → Dynamic B E A → List (Dynamic B E A)
  | 0, d => [d]
  | n + 1, d =>
    if d.myClock < args.aDuration then
      match d.step env args with
      | .ok d' => d :: history env args n d'
      | .error _ => [d]
    else [d]

/-- The values that the quantity has, each with the time of the event that it follows. -/
def Output.values (o : Output) (l : List (Dynamic B E A)) : List (ℚ × ℚ) :=
  l.map fun d => (d.myClock, o.value d)

/-- The samples, each with the clock, which is the time of the event before. -/
def Output.samples (o : Output) (args : DynamicArgs) : List (Dynamic B E A) → List (ℚ × ℚ)
  | d :: d' :: l =>
    if o.Feeds d ∧ d.myClock ≥ args.aWarmUp then (d.myClock, o.value d') :: o.samples args (d' :: l)
    else o.samples args (d' :: l)
  | _ => []

/-- The time average of the quantity, from the warm-up to the last event. -/
def Output.timeAverage (o : Output) (args : DynamicArgs) (l : List (Dynamic B E A)) : ℚ :=
  integral args.aWarmUp (o.values l) / (lastTime 0 (o.values l) - args.aWarmUp)

/-- The average of the samples, in which the value after an event counts for the time
between the events before it. -/
def Output.sampledAverage (o : Output) (args : DynamicArgs) (l : List (Dynamic B E A)) : ℚ :=
  sampled 0 (o.samples args l) / lastTime 0 (o.samples args l)

/-- The weighted mean is defined and is the time average. -/
def Output.Right (o : Output) (args : DynamicArgs) (l : List (Dynamic B E A))
    (d : Dynamic B E A) : Prop :=
  (o.acc d).total ≠ 0 ∧ o.result d.output = o.timeAverage args l

theorem history_cons (n : ℕ) (d : Dynamic B E A) : ∃ l, history env args n d = d :: l := by
  cases n with
  | zero => exact ⟨[], rfl⟩
  | succ n =>
    unfold history
    split
    · split
      · exact ⟨_, rfl⟩
      · exact ⟨[], rfl⟩
    · exact ⟨[], rfl⟩

theorem history_succ {n : ℕ} (hclock : d.myClock < args.aDuration)
    (h : d.step env args = .ok d') :
    history env args (n + 1) d = d :: history env args n d' := by
  rw [history, if_pos hclock, h]

/-- The accumulators after a run, and its clock. -/
theorem after_samples (o : Output) {n : ℕ} (h : after env args n d = .ok d') :
    o.acc d' = (o.samples args (history env args n d)).foldl Accumulator.push (o.acc d) ∧
      ∀ t, d'.myClock = lastTime t (o.values (history env args n d)) := by
  induction n generalizing d with
  | zero =>
    cases h
    exact ⟨rfl, fun _ => rfl⟩
  | succ n ih =>
    unfold after at h
    split at h
    · rename_i hclock
      obtain ⟨m, hstep, hrest⟩ := bind_ok.mp h
      obtain ⟨hacc, htime⟩ := ih hrest
      rw [history_succ hclock hstep]
      refine ⟨?_, fun t => htime d.myClock⟩
      obtain ⟨l, hl⟩ : ∃ l, history env args n m = m :: l := history_cons n m
      rw [hacc, acc_step hstep o, hl, Output.samples]
      split
      · rfl
      · rfl
    · rename_i hclock
      cases h
      rw [history, if_neg hclock]
      exact ⟨rfl, fun _ => rfl⟩

theorem samples_warm (o : Output) (l : List (Dynamic B E A)) :
    ∀ x ∈ o.samples args l, args.aWarmUp ≤ x.1 := by
  fun_induction Output.samples o args l with
  | case1 d d' l hfeeds ih => exact List.forall_mem_cons.mpr ⟨hfeeds.2, ih⟩
  | case2 d d' l hfeeds ih => exact ih
  | case3 l hl => exact nofun

theorem samples_values (o : Output) (l : List (Dynamic B E A)) :
    ∀ x ∈ o.samples args l, ∃ m ∈ l, x.2 = o.value m := by
  fun_induction Output.samples o args l with
  | case1 d d' l hfeeds ih =>
    refine List.forall_mem_cons.mpr ⟨⟨d', by simp, rfl⟩, fun x hx => ?_⟩
    obtain ⟨m, hm, hvalue⟩ := ih x hx
    exact ⟨m, List.mem_cons_of_mem d hm, hvalue⟩
  | case2 d d' l hfeeds ih =>
    intro x hx
    obtain ⟨m, hm, hvalue⟩ := ih x hx
    exact ⟨m, List.mem_cons_of_mem d hm, hvalue⟩
  | case3 l hl => exact nofun

section Start

variable {A' : ℕ} {s : Scenario B E A'} {aPeriods : List (List ℚ)} {apps : Population B A}
  {draws : Draws aPeriods A}

/-- What the accumulators hold at the end of a simulation. -/
theorem simulation_samples (h : start env s args aPeriods apps draws = .ok d) {n : ℕ}
    (hrun : after env args n d = .ok d') (o : Output) :
    (o.acc d').total = lastTime 0 (o.samples args (history env args n d)) ∧
      o.result d'.output = o.sampledAverage args (history env args n d) ∧
      0 ≤ lastTime 0 (o.samples args (history env args n d)) := by
  obtain ⟨-, -, hwarmUp, s', pool, -, hd⟩ := start_spec h
  have hempty : o.acc d = {} := by
    rw [hd]
    cases o <;> rfl
  obtain ⟨hacc, -⟩ := after_samples o hrun
  obtain ⟨htotal, hsum⟩ :=
    Accumulator.foldl_push {} (o.samples args (history env args n d))
  rw [hempty] at hacc
  have htotal' : (o.acc d').total = lastTime 0 (o.samples args (history env args n d)) := by
    rw [hacc, htotal]
    exact (zero_add _).trans (sub_zero _)
  refine ⟨htotal', ?_, ?_⟩
  · rw [result_output, Output.sampledAverage, ← htotal', Accumulator.mean, hacc, hsum]
    exact congrArg (· / _) (zero_add _)
  · exact le_lastTime le_rfl fun x hx => hwarmUp.trans (samples_warm o _ x hx)

/-- The average of a quantity that never changes. -/
theorem steady_right (h : start env s args aPeriods apps draws = .ok d) (n : ℕ)
    (hrun : after env args n d = .ok d') (hlate : args.aWarmUp < d'.myClock) (o : Output)
    (hsample : 0 < lastTime 0 (o.samples args (history env args n d)))
    (hsteady : ∀ m ∈ history env args n d, o.value m = o.value d) :
    o.Right args (history env args n d) d' := by
  obtain ⟨htotal, hresult, -⟩ := simulation_samples h hrun o
  refine ⟨htotal ▸ ne_of_gt hsample, hresult.trans ?_⟩
  have hsampled : o.sampledAverage args (history env args n d) = o.value d := by
    have hvalues : ∀ x ∈ o.samples args (history env args n d), x.2 = o.value d := by
      intro x hx
      obtain ⟨m, hm, hvalue⟩ := samples_values o _ x hx
      exact hvalue.trans (hsteady m hm)
    rw [Output.sampledAverage, sampled_steady hvalues, sub_zero,
      mul_div_cancel_right₀ _ (ne_of_gt hsample)]
  have htime : o.timeAverage args (history env args n d) = o.value d := by
    obtain ⟨-, -, hwarmUp, s', pool, -, hd⟩ := start_spec h
    have hzero : d.myClock = 0 := by rw [hd]
    obtain ⟨-, hclock⟩ := after_samples o hrun
    obtain ⟨l, hl⟩ : ∃ l, history env args n d = d :: l := history_cons n d
    have hvalues : ∀ x ∈ o.values (d :: l), x.2 = o.value d := by
      rw [← hl]
      exact List.forall_mem_map.mpr hsteady
    have hlast : lastTime d.myClock (o.values l) = d'.myClock := by
      rw [hclock 0, hl]
      rfl
    have hintegral : integral args.aWarmUp (o.values (d :: l)) = o.value d *
        (max args.aWarmUp (lastTime d.myClock (o.values l)) - max args.aWarmUp d.myClock) :=
      integral_steady hvalues
    have hmax : max args.aWarmUp d.myClock = args.aWarmUp := by
      rw [hzero]
      exact max_eq_left hwarmUp
    rw [hlast, hmax, max_eq_right hlate.le] at hintegral
    rw [Output.timeAverage, ← hclock 0, hl, hintegral, mul_div_cancel_right₀]
    exact ne_of_gt (sub_pos.mpr hlate)
  rw [hsampled, htime]

end Start

/-- One app with periods of one and of three seconds, without a warm-up. -/
def oneAndThree : Dynamic 1 1 1 :=
  initial (.inOrder fun _ _ _ _ _ _ => 0) exampleScenario exampleArgs ⟨fun _ => 0, fun _ => {}⟩
    (AppPool.inTurn [[1, 3]] (by decide)) (by decide)

theorem oneAndThree_start :
    start (.inOrder fun _ _ _ _ _ _ => 0) exampleScenario exampleArgs [[1, 3]]
      ⟨fun _ => 0, fun _ => {}⟩ (AppPool.inTurn [[1, 3]] (by decide)) = .ok oneAndThree :=
  start_initial _ _ _ (by decide +kernel) (by decide +kernel) (by decide +kernel) _

theorem oneAndThree_after :
    ∃ d', after (.inOrder fun _ _ _ _ _ _ => 0) exampleArgs 7 oneAndThree = .ok d' ∧
      d'.myClock = 12 ∧ d'.output.theNumLambda = 4 / 5 := by
  have hrun : (after (.inOrder fun _ _ _ _ _ _ => 0) exampleArgs 7 oneAndThree).toOption.map
      (fun d' => (d'.myClock, d'.output.theNumLambda)) = some (12, 4 / 5) := by
    decide +kernel
  obtain ⟨d', hok, hd'⟩ := ok_of_toOption hrun
  simp only [Prod.mk.injEq] at hd'
  exact ⟨d', hok, hd'⟩

end Dynamic

end ServerlessEdge.LambdaMuSim
