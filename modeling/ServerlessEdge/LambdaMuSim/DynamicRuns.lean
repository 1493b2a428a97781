import ServerlessEdge.Library.Checks
import ServerlessEdge.LambdaMuSim.Assignments
import ServerlessEdge.LambdaMuSim.Transitions

/-! What an iteration of the dynamic simulation does, and the runs in which the mu
apps stay where they are said to be and all lambda apps are served. -/
namespace ServerlessEdge.LambdaMuSim
open Library

namespace Scenario

variable {B E A : ℕ} {s : Scenario B E A} {aAlpha : ℚ} {env : Env}

theorem Assigned.length_le (h : s.Assigned aAlpha) (e : Fin (E + 1)) :
    (s.theEdges e).theMuApps.length ≤ (s.appsOf .Mu).length := by
  refine (List.Nodup.subperm (h.once e) fun a ha => mem_appsOf.mpr ?_).length_le
  cases htype : (s.theApps a).theType with
  | Lambda => exact absurd ha (h.lambda a htype e)
  | Mu => rfl

theorem length_appsOf_le (s : Scenario B E A) (t : AppType) : (s.appsOf t).length ≤ A := by
  have hlen := (s.appsOf_nodup t).length_le_card
  rwa [Fintype.card_fin] at hlen

theorem assignMuApps_ok (henv : env.AssignsAll) (h : s.appsOf .Mu = [] → s.Assigned aAlpha)
    (hweights : ∀ a, (s.theApps a).theType = .Mu → (s.theApps a).theWeights = [])
    (aData : PerformanceData) (aRnd : ℕ → ℚ) (hroom : (s.appsOf .Mu).length ≤ (s.theEdges CLOUD).theNumContainers) :
    ∃ data g l, s.assignMuApps env aAlpha aData aRnd = .ok (data, s.withMu g l) ∧
      (s.withMu g l).Assigned aAlpha := by
  by_cases hsome : s.appsOf .Mu = []
  · exact ⟨aData, fun a => (s.theApps a).theEdge, fun e => (s.theEdges e).theMuApps,
      by simp only [assignMuApps, if_pos hsome]; rfl, h hsome⟩
  · obtain ⟨cost, placed, hok, hplaced, hcount, -⟩ :=
      assignMuApps_spec henv s aAlpha aData aRnd hroom hsome
    have hassigned := placed_assigned hplaced hcount hweights
    rw [placed_eq] at hassigned
    refine ⟨(s.muOutcome aData cost placed).1, _, _, ?_, hassigned⟩
    rw [hok, muOutcome, placed_eq]

theorem assignLambdaApps_ok (env : Env) (halpha : aAlpha ≤ 1) (h : s.Assigned aAlpha) (aBeta : ℚ)
    (aData : PerformanceData) (aRnd : ℕ → ℚ)
    (hroom : (s.appsOf .Mu).length < (s.theEdges CLOUD).theNumContainers) :
    ∃ data w, s.assignLambdaApps env aBeta aData aRnd = .ok (data, s.withWeights w) ∧
      (s.withWeights w).Assigned aAlpha ∧ (s.withWeights w).Weighed := by
  by_cases hsome : s.appsOf .Lambda = []
  · refine ⟨aData, fun a => (s.theApps a).theWeights, by simp only [assignLambdaApps, if_pos hsome]; rfl,
      h, fun a ha => ?_⟩
    have hin : a ∈ s.appsOf .Lambda := mem_appsOf.mpr ha
    rw [hsome] at hin
    cases hin
  · refine ⟨_, _, assignLambdaApps_spec env s aBeta aData aRnd hsome (h.le_containers halpha),
      h.withWeights fun a ha => ?_, weighed_lambdaWeights env aBeta aRnd ?_⟩
    · rw [lambdaWeights_other env s aBeta aRnd (by rw [ha]; decide)]
      exact h.weights a ha
    · exact (h.length_le CLOUD).trans_lt hroom

theorem Weighed.toMu (h : s.Weighed) (a : Fin A) (e : Fin (E + 1)) : (s.toMu a e).Weighed :=
  lambda_toMu (P := fun x => x.theWeights ≠ []) h a e

theorem Weighed.toLambda (h : s.Weighed) (a : Fin A) : (s.toLambda a).Weighed := by
  refine lambda_toLambda (P := fun x => x.theWeights ≠ []) h ?_
  rw [toLambda_changed]
  exact List.append_ne_nil_of_right_ne_nil _ (List.cons_ne_nil _ _)

theorem checkArgs_ok_iff {aBeta : ℚ} : checkArgs env aAlpha aBeta = .ok () ↔
    0 ≤ aAlpha ∧ aAlpha ≤ 1 ∧ 0 ≤ aBeta ∧ aBeta ≤ 1 := by
  unfold checkArgs
  constructor
  · intro h
    split at h
    · cases h
    · rename_i halpha
      split at h
      · cases h
      · rename_i hbeta
        rw [not_or, not_lt, gt_iff_lt, not_lt] at halpha hbeta
        exact ⟨halpha.1, halpha.2, hbeta.1, hbeta.2⟩
  · rintro ⟨h0, h1, hb0, hb1⟩
    rw [if_neg (not_or.mpr ⟨not_lt.mpr h0, not_lt.mpr h1⟩),
      if_neg (not_or.mpr ⟨not_lt.mpr hb0, not_lt.mpr hb1⟩)]

/-- Without mu apps in the edges and without weights the apps are assigned. -/
theorem populate_assigned {A' : ℕ} (s : Scenario B E A') (apps : Fin A → App B E) (n : ℕ) (c : ℤ)
    (hmu : ∀ a, (apps a).theType = .Lambda) : (s.populate apps n c).Assigned aAlpha := by
  have hnone : ∀ e, ((s.populate apps n c).theEdges e).theMuApps = [] := by
    intro e
    unfold populate
    by_cases he : e = CLOUD <;> simp [he]
  have hmu' : ∀ a, ((s.populate apps n c).theApps a).theType ≠ .Mu := by
    intro a
    simp [populate, hmu]
  refine ⟨fun a ha => absurd ha (hmu' a), ?_, ?_, fun a ha => absurd ha (hmu' a), ?_, ?_⟩
  · intro e
    rw [hnone]
    exact List.nodup_nil
  · intro a _ e
    rw [hnone]
    exact List.not_mem_nil
  · intro e _
    rw [hnone]
    exact Nat.zero_le _
  · rw [hnone]
    exact Nat.zero_le _

section Snapshot

variable {A' : ℕ} {aBeta : ℚ} {myNumLambda myNumMu : ℕ}

theorem snapshotStart_room (env : Env) (aBeta : ℚ) (s : Scenario B E A')
    (apps : Population B (myNumLambda + myNumMu)) :
    ((s.snapshotStart env aBeta myNumLambda myNumMu apps).appsOf .Mu).length < 1 + myNumMu := by
  have hnodup : (((s.snapshotStart env aBeta myNumLambda myNumMu apps).appsOf .Mu).map
      fun a => a.val).Nodup :=
    (List.nodup_map_iff Fin.val_injective).mpr (appsOf_nodup _ _)
  have hsub := ((List.Nodup.subperm hnodup fun i hi => ?_ :
    List.Subperm _ (List.range' myNumLambda myNumMu))).length_le
  · rw [List.length_map, List.length_range'] at hsub
    omega
  · obtain ⟨a, ha, rfl⟩ := List.mem_map.mp hi
    have htype : snapshotType myNumLambda a = .Mu := mem_appsOf.mp ha
    have hlt := a.isLt
    rw [List.mem_range'_1]
    unfold snapshotType at htype
    split at htype
    · cases htype
    · omega

/-- After a snapshot all apps are where they are said to be. -/
theorem snapshot_ok (henv : env.AssignsAll) (s : Scenario B E A') (aAlpha aBeta : ℚ)
    (apps : Population B (myNumLambda + myNumMu)) (rnd : ℕ → ℕ → ℚ)
    (hargs : checkArgs env aAlpha aBeta = .ok ()) :
    ∃ data data' s' s'',
      (s.snapshotStart env aBeta myNumLambda myNumMu apps).assignMuApps env aAlpha
        { (s.snapshotStart env aBeta myNumLambda myNumMu apps).totals with
          theNumLambda := myNumLambda, theNumMu := myNumMu } (rnd 0) = .ok (data, s') ∧
      s'.assignLambdaApps env aBeta data (rnd 1) = .ok (data', s'') ∧
      s.snapshot env aAlpha aBeta myNumLambda myNumMu apps rnd = .ok (data', s'') ∧
      s'.Assigned aAlpha ∧ s''.Assigned aAlpha ∧ s''.Weighed := by
  obtain ⟨-, halpha, -, -⟩ := checkArgs_ok_iff.mp hargs
  have hroom := snapshotStart_room env aBeta s apps
  have hlambda : (s.snapshotStart env aBeta myNumLambda myNumMu apps).appsOf .Mu = [] →
      (s.snapshotStart env aBeta myNumLambda myNumMu apps).Assigned aAlpha := by
    intro hnone
    refine populate_assigned s _ _ _ fun a => ?_
    cases htype : snapshotType myNumLambda a with
    | Lambda => exact htype
    | Mu =>
      have hin : a ∈ (s.snapshotStart env aBeta myNumLambda myNumMu apps).appsOf .Mu :=
        mem_appsOf.mpr htype
      rw [hnone] at hin
      cases hin
  obtain ⟨data, g, l, hmu, hassigned⟩ := assignMuApps_ok henv hlambda (fun _ _ => rfl)
    { (s.snapshotStart env aBeta myNumLambda myNumMu apps).totals with
      theNumLambda := myNumLambda, theNumMu := myNumMu } (rnd 0) (Nat.le_of_lt hroom)
  obtain ⟨data', w, hlambda, hassigned', hweighed⟩ :=
    assignLambdaApps_ok env halpha hassigned aBeta data (rnd 1) hroom
  refine ⟨data, data', _, _, hmu, hlambda, ?_, hassigned, hassigned', hweighed⟩
  simp only [snapshot, hargs, hmu, hlambda, bind, Except.bind]

end Snapshot

end Scenario

namespace Dynamic

open Scenario

variable {B E A : ℕ} {env : Env} {args : DynamicArgs} {d : Dynamic B E A}

/-- The scenario and the costs that a simulation keeps of it. -/
structure View (B E A : ℕ) where
  scenario : Scenario B E A
  myLambdaCost : ℚ
  myMuCost : ℚ
  myAssignCounter : ℕ

def view (d : Dynamic B E A) : View B E A :=
  ⟨d.scenario, d.myLambdaCost, d.myMuCost, d.myAssignCounter⟩

/-- The next iteration assigns all apps anew. -/
def Optimizes (d : Dynamic B E A) : Prop := d.myNextEpoch ≤ d.myAppPool.next ∧ d.myOptimize = true

/-- In the next iteration an app changes its type. -/
def Changes (d : Dynamic B E A) : Prop := ¬ d.myNextEpoch ≤ d.myAppPool.next

/-- What an iteration does to the scenario and to the costs: nothing at an epoch
without changes, all apps are assigned anew, or an app changes its type. -/
inductive Next (env : Env) (args : DynamicArgs) (optimizes changes : Prop) (changed : Fin A)
    (v : View B E A) : View B E A → Prop where
  | skip : Next env args optimizes changes changed v v
  | optimize (h : optimizes) (data data' : PerformanceData) (s s' : Scenario B E A)
      (hassign : v.scenario.assignMuApps env args.aAlpha {} (args.rnd v.myAssignCounter) =
        .ok (data, s))
      (hweigh : s.assignLambdaApps env args.aBeta data (args.rnd (v.myAssignCounter + 1)) =
        .ok (data', s')) :
      Next env args optimizes changes changed v
        ⟨s', data'.theLambdaCost, data'.theMuCost, v.myAssignCounter + 2⟩
  | toMu (h : changes) (e : Fin (E + 1)) (htype : (v.scenario.theApps changed).theType = .Lambda)
      (hfree : v.scenario.Free args.aAlpha e) :
      Next env args optimizes changes changed v
        ⟨v.scenario.toMu changed e, v.myLambdaCost - v.scenario.lambdaCost changed,
          v.myMuCost + (v.scenario.toMu changed e).muCost changed, v.myAssignCounter⟩
  | toLambda (h : changes) (htype : (v.scenario.theApps changed).theType = .Mu) :
      Next env args optimizes changes changed v
        ⟨v.scenario.toLambda changed,
          v.myLambdaCost + (v.scenario.toLambda changed).lambdaCost changed,
          v.myMuCost - v.scenario.muCost changed, v.myAssignCounter⟩

/-- The assignments are in order, and the cloud has room for all apps. -/
structure Sound (args : DynamicArgs) (v : View B E A) : Prop where
  assigned : v.scenario.Assigned args.aAlpha
  cloud : (v.scenario.theEdges CLOUD).theNumContainers = 1 + A
  weighed : v.myAssignCounter ≠ 0 → v.scenario.Weighed

theorem Sound.room {v : View B E A} (h : Sound args v) :
    (v.scenario.appsOf .Mu).length < (v.scenario.theEdges CLOUD).theNumContainers := by
  have := v.scenario.length_appsOf_le .Mu
  rw [h.cloud]
  omega

/-- The assignments of an epoch move mu apps and weigh lambda apps, and do nothing else. -/
theorem Sound.reassigned (henv : env.AssignsAll) (halpha : args.aAlpha ≤ 1) {v : View B E A}
    (h : Sound args v) {data data' : PerformanceData} {s s' : Scenario B E A} {aRnd aRnd' : ℕ → ℚ}
    (hassign : v.scenario.assignMuApps env args.aAlpha {} aRnd = .ok (data, s))
    (hweigh : s.assignLambdaApps env args.aBeta data aRnd' = .ok (data', s')) :
    ∃ g l w, s = v.scenario.withMu g l ∧ s' = (v.scenario.withMu g l).withWeights w ∧
      s.Assigned args.aAlpha ∧ s'.Assigned args.aAlpha ∧ s'.Weighed := by
  obtain ⟨muData, g, l, hmu, hassigned⟩ := assignMuApps_ok henv (fun _ => h.assigned)
    h.assigned.weights {} aRnd (Nat.le_of_lt h.room)
  cases hassign.symm.trans hmu
  obtain ⟨lambdaData, w, hlambda, hassigned', hweighed⟩ :=
    assignLambdaApps_ok env halpha hassigned args.aBeta data aRnd' h.room
  cases hweigh.symm.trans hlambda
  exact ⟨g, l, w, rfl, rfl, hassigned, hassigned', hweighed⟩

theorem Sound.next (henv : env.AssignsAll) (halpha : args.aAlpha ≤ 1) {v v' : View B E A}
    {optimizes changes : Prop} {a : Fin A} (h : Sound args v)
    (hnext : Next env args optimizes changes a v v') : Sound args v' := by
  cases hnext with
  | skip => exact h
  | optimize hopt data data' s s' hassign hweigh =>
    obtain ⟨g, l, w, rfl, rfl, -, hassigned, hweighed⟩ := h.reassigned henv halpha hassign hweigh
    exact ⟨hassigned, h.cloud, fun _ => hweighed⟩
  | toMu hchange e htype hfree =>
    exact ⟨h.assigned.toMu htype hfree, (toMu_numContainers ..).trans h.cloud,
      fun hcounter => (h.weighed hcounter).toMu a e⟩
  | toLambda hchange htype =>
    exact ⟨h.assigned.toLambda htype, (toLambda_numContainers ..).trans h.cloud,
      fun hcounter => (h.weighed hcounter).toLambda a⟩

theorem optimize_ok (henv : env.AssignsAll) (halpha : args.aAlpha ≤ 1) (h : Sound args d.view)
    {optimizes : Prop} (hopt : optimizes) (changes : Prop) (a : Fin A) :
    ∃ d', d.optimize env args = .ok d' ∧ Next env args optimizes changes a d.view d'.view := by
  obtain ⟨data, g, l, hmu, hassigned⟩ := assignMuApps_ok henv (fun _ => h.assigned)
    h.assigned.weights {} (args.rnd d.myAssignCounter) (Nat.le_of_lt h.room)
  obtain ⟨data', w, hlambda, -, -⟩ := assignLambdaApps_ok env halpha hassigned args.aBeta data
    (args.rnd (d.myAssignCounter + 1)) h.room
  refine ⟨d.optimized args data' (d.view.scenario.withMu g l)
    ((d.view.scenario.withMu g l).withWeights w), ?_, .optimize hopt data data' _ _ hmu hlambda⟩
  have hmu' : d.scenario.assignMuApps env args.aAlpha {} (args.rnd d.myAssignCounter) =
    .ok (data, d.view.scenario.withMu g l) := hmu
  simp only [optimize, hmu', hlambda, bind, Except.bind]
  rfl

theorem migrate_ok (env : Env) (h : Sound args d.view) (optimizes : Prop) {changes : Prop}
    (hchange : changes) (a : Fin A) :
    ∃ d', migrate args d a = .ok d' ∧ Next env args optimizes changes a d.view d'.view := by
  cases htype : (d.scenario.theApps a).theType with
  | Lambda =>
    have hcloud := h.cloud
    obtain ⟨e, hfree, hmigrate⟩ := migrateLambdaToMu_spec h.assigned htype (by omega)
    have hmigrate' : d.scenario.migrateLambdaToMu a args.aAlpha = .ok ((d.scenario.lambdaCost a,
      (d.scenario.toMu a e).muCost a), d.scenario.toMu a e) := hmigrate
    refine ⟨d.changedToMu (d.scenario.lambdaCost a, (d.scenario.toMu a e).muCost a)
      (d.scenario.toMu a e), ?_, .toMu hchange e htype hfree⟩
    simp only [migrate, htype, hmigrate', bind, Except.bind]
    rfl
  | Mu =>
    refine ⟨d.changedToLambda (d.scenario.muCost a, (d.scenario.toLambda a).lambdaCost a)
      (d.scenario.toLambda a), ?_, .toLambda hchange htype⟩
    simp only [migrate, htype, migrateMuToLambda]
    rfl

theorem step_ok (henv : env.AssignsAll) (halpha : args.aAlpha ≤ 1) (h : Sound args d.view) :
    ∃ d', d.step env args = .ok d' ∧
      Next env args d.Optimizes d.Changes d.myAppPool.front.theAppId d.view d'.view := by
  unfold step
  split
  · rename_i hepoch
    unfold epoch
    by_cases hopt : d.myOptimize = true
    · obtain ⟨d', hok, hnext⟩ := optimize_ok (d := d.beginEpoch args) henv halpha h
        (show d.Optimizes from ⟨hepoch, hopt⟩) d.Changes d.myAppPool.front.theAppId
      refine ⟨d'.finish args d.myNextEpoch, ?_, hnext⟩
      simp only [hok, if_pos hopt, bind, Except.bind]
      rfl
    · rw [if_neg hopt]
      exact ⟨_, rfl, .skip⟩
  · rename_i hchange
    obtain ⟨d', hok, hnext⟩ := migrate_ok env (d := d.advancePool) h d.Optimizes
      (show d.Changes from hchange) d.myAppPool.front.theAppId
    refine ⟨finish args (sampleApps args d') d.myAppPool.advance.1.2, ?_, hnext⟩
    have hfront : migrate args d.advancePool d.myAppPool.advance.1.1 = .ok d' := hok
    simp only [transition, hfront, bind, Except.bind]
    rfl

/-- What no assignment and no migration changes. -/
structure SameInputs (s s' : Scenario B E A) : Prop where
  network : s'.networkCost = s.networkCost
  storageLocal : s'.theCloudStorageCostLocal = s.theCloudStorageCostLocal
  storageRemote : s'.theCloudStorageCostRemote = s.theCloudStorageCostRemote
  broker : ∀ a, (s'.theApps a).theBroker = (s.theApps a).theBroker
  serviceRate : ∀ a, (s'.theApps a).theServiceRate = (s.theApps a).theServiceRate
  exchangeSize : ∀ a, (s'.theApps a).theExchangeSize = (s.theApps a).theExchangeSize
  storageSize : ∀ a, (s'.theApps a).theStorageSize = (s.theApps a).theStorageSize

theorem SameInputs.refl (s : Scenario B E A) : SameInputs s s :=
  ⟨rfl, rfl, rfl, fun _ => rfl, fun _ => rfl, fun _ => rfl, fun _ => rfl⟩

theorem SameInputs.trans {s s' s'' : Scenario B E A} (h : SameInputs s s')
    (h' : SameInputs s' s'') : SameInputs s s'' where
  network := h'.network.trans h.network
  storageLocal := h'.storageLocal.trans h.storageLocal
  storageRemote := h'.storageRemote.trans h.storageRemote
  broker a := (h'.broker a).trans (h.broker a)
  serviceRate a := (h'.serviceRate a).trans (h.serviceRate a)
  exchangeSize a := (h'.exchangeSize a).trans (h.exchangeSize a)
  storageSize a := (h'.storageSize a).trans (h.storageSize a)

/-- An app that is replaced by one with the same parameters. -/
theorem sameInputs_of_update {s s' : Scenario B E A} {a : Fin A} {x : Scenario.App B E}
    (happs : s'.theApps = Function.update s.theApps a x) (hnet : s'.networkCost = s.networkCost)
    (hlocal : s'.theCloudStorageCostLocal = s.theCloudStorageCostLocal)
    (hremote : s'.theCloudStorageCostRemote = s.theCloudStorageCostRemote)
    (hx : x.theBroker = (s.theApps a).theBroker ∧ x.theServiceRate = (s.theApps a).theServiceRate ∧
      x.theExchangeSize = (s.theApps a).theExchangeSize ∧
      x.theStorageSize = (s.theApps a).theStorageSize) : SameInputs s s' := by
  obtain ⟨hbroker, hrate, hexchange, hstorage⟩ := hx
  have happ : ∀ b, s'.theApps b = s.theApps b ∨ b = a ∧ s'.theApps b = x := by
    intro b
    rw [happs]
    by_cases hb : b = a
    · subst hb
      exact .inr ⟨rfl, Function.update_self ..⟩
    · exact .inl (Function.update_of_ne hb ..)
  refine ⟨hnet, hlocal, hremote, fun b => ?_, fun b => ?_, fun b => ?_, fun b => ?_⟩
  all_goals
    rcases happ b with hb | ⟨rfl, hb⟩
    · rw [hb]
    · rw [hb]
      assumption

theorem Next.sameInputs (henv : env.AssignsAll) (halpha : args.aAlpha ≤ 1) {v v' : View B E A}
    {optimizes changes : Prop} {a : Fin A} (h : Sound args v)
    (hnext : Next env args optimizes changes a v v') : SameInputs v.scenario v'.scenario := by
  cases hnext with
  | skip => exact .refl _
  | optimize hopt data data' s s' hassign hweigh =>
    obtain ⟨g, l, w, rfl, rfl, -⟩ := h.reassigned henv halpha hassign hweigh
    exact ⟨rfl, rfl, rfl, fun _ => rfl, fun _ => rfl, fun _ => rfl, fun _ => rfl⟩
  | toMu hchange e htype hfree =>
    exact sameInputs_of_update rfl rfl rfl rfl ⟨rfl, rfl, rfl, rfl⟩
  | toLambda hchange htype =>
    exact sameInputs_of_update rfl rfl rfl rfl ⟨rfl, rfl, rfl, rfl⟩

/-- A condition that is met at the beginning of each of some iterations. -/
def Through (env : Env) (args : DynamicArgs) (P : Dynamic B E A → Prop) : ℕ → Dynamic B E A → Prop
  | 0, _ => True
  | n + 1, d => d.myClock < args.aDuration →
    P d ∧ ∀ d', d.step env args = .ok d' → Through env args P n d'

/-- What each iteration keeps under a condition is kept by a run that meets it. -/
theorem after_through (henv : env.AssignsAll) (halpha : args.aAlpha ≤ 1)
    {I : View B E A → Prop} {P : Dynamic B E A → Prop}
    (hI : ∀ d v', Sound args d.view → P d →
      Next env args d.Optimizes d.Changes d.myAppPool.front.theAppId d.view v' →
      I d.view → I v') (n : ℕ) (h : Sound args d.view) (hd : I d.view)
    (hP : Through env args P n d) :
    ∃ d', after env args n d = .ok d' ∧ Sound args d'.view ∧ I d'.view := by
  induction n generalizing d with
  | zero => exact ⟨d, rfl, h, hd⟩
  | succ n ih =>
    unfold after
    split
    · rename_i hclock
      obtain ⟨d', hok, hnext⟩ := step_ok henv halpha h
      obtain ⟨hp, hrest⟩ := hP hclock
      rw [hok]
      exact ih (h.next henv halpha hnext) (hI d _ h hp hnext hd) (hrest d' hok)
    · exact ⟨d, rfl, h, hd⟩

/-- A condition on the network and on the parameters of the apps is met throughout. -/
theorem through_of_inputs (henv : env.AssignsAll) (halpha : args.aAlpha ≤ 1)
    {P : Dynamic B E A → Prop} (n : ℕ) (h : Sound args d.view)
    (hP : ∀ d', SameInputs d.scenario d'.scenario → P d') : Through env args P n d := by
  induction n generalizing d with
  | zero => trivial
  | succ n ih =>
    refine fun _ => ⟨hP d (.refl _), fun d' hd' => ?_⟩
    obtain ⟨d'', hok, hnext⟩ := step_ok henv halpha h
    cases hd'.symm.trans hok
    exact ih (h.next henv halpha hnext) fun d'' h'' => hP d'' ((hnext.sameInputs henv halpha h).trans h'')

/-- A condition that follows from what each iteration keeps is met throughout. -/
theorem through_of_invariant {I P : Dynamic B E A → Prop}
    (hI : ∀ d d', I d → d.step env args = .ok d' → I d') (hP : ∀ d, I d → P d) (hd : I d) (n : ℕ) :
    Through env args P n d := by
  induction n generalizing d with
  | zero => trivial
  | succ n ih => exact fun _ => ⟨hP d hd, fun d' hd' => ih (hI d d' hd hd')⟩

theorem through_true (n : ℕ) (d : Dynamic B E A) : Through env args (fun _ => True) n d :=
  through_of_invariant (I := fun _ => True) (fun _ _ _ _ => trivial) (fun _ _ => trivial) trivial n

/-- Where a simulation starts: nothing has happened yet. -/
theorem start_spec {A' : ℕ} {s : Scenario B E A'} {aPeriods : List (List ℚ)}
    {apps : Population B A} {draws : Draws aPeriods A}
    (h : start env s args aPeriods apps draws = .ok d) :
    checkArgs env args.aAlpha args.aBeta = .ok () ∧ 0 ≤ args.aDuration ∧ 0 ≤ args.aWarmUp ∧
      ∃ (s' : Scenario B E A) (pool : AppPool A),
        s' = s.populate (apps.app E fun _ => .Lambda) (1 + A)
          (cloudCapacity env (∑ a, (apps.params a).theServiceRate) args.aBeta) ∧
        d = { scenario := s', myAppPool := pool, ret := s'.totals } := by
  unfold start at h
  obtain ⟨⟨⟩, hargs, hrest⟩ := Checks.bind_ok.mp h
  simp only at hrest
  split at hrest
  · cases hrest
  · rename_i hduration
    simp only [pure, Except.pure, bind, Except.bind] at hrest
    split at hrest
    · cases hrest
    · rename_i hwarmUp
      cases hpool : AppPool.new aPeriods A draws with
      | error e =>
        rw [hpool] at hrest
        cases hrest
      | ok pool =>
        rw [hpool] at hrest
        cases hrest
        exact ⟨hargs, not_lt.mp hduration, not_lt.mp hwarmUp, _, pool, rfl, rfl⟩

theorem start_ok {A' : ℕ} {s : Scenario B E A'} {aPeriods : List (List ℚ)}
    {apps : Population B A} {draws : Draws aPeriods A}
    (h : start env s args aPeriods apps draws = .ok d) :
    (0 ≤ args.aAlpha ∧ args.aAlpha ≤ 1 ∧ 0 ≤ args.aBeta ∧ args.aBeta ≤ 1) ∧
      d.view = ⟨s.populate (apps.app E fun _ => .Lambda) (1 + A)
        (cloudCapacity env (∑ a, (apps.params a).theServiceRate) args.aBeta), 0, 0, 0⟩ := by
  obtain ⟨hargs, -, -, s', pool, rfl, rfl⟩ := start_spec h
  exact ⟨checkArgs_ok_iff.mp hargs, rfl⟩

/-- The simulation as it starts with valid arguments and at least one app. -/
def initial (env : Env) {A' : ℕ} (s : Scenario B E A') (args : DynamicArgs)
    {aPeriods : List (List ℚ)} (apps : Population B A) (draws : Draws aPeriods A) (h : A ≠ 0) :
    Dynamic B E A :=
  let s' : Scenario B E A := s.populate (apps.app E fun _ => .Lambda) (1 + A)
    (cloudCapacity env (∑ a, (apps.params a).theServiceRate) args.aBeta)
  { scenario := s', myAppPool := AppPool.create draws h, ret := s'.totals }

theorem start_initial {A' : ℕ} (s : Scenario B E A') {aPeriods : List (List ℚ)}
    (apps : Population B A) (draws : Draws aPeriods A)
    (hargs : 0 ≤ args.aAlpha ∧ args.aAlpha ≤ 1 ∧ 0 ≤ args.aBeta ∧ args.aBeta ≤ 1)
    (hduration : 0 ≤ args.aDuration) (hwarmUp : 0 ≤ args.aWarmUp) (h : A ≠ 0) :
    start env s args aPeriods apps draws = .ok (initial env s args apps draws h) := by
  have hpool : AppPool.new aPeriods A draws = .ok (AppPool.create draws h) := dif_neg h
  simp only [start, checkArgs_ok_iff.mpr hargs, if_neg (not_lt.mpr hduration),
    if_neg (not_lt.mpr hwarmUp), hpool, bind, Except.bind, pure, Except.pure]
  rfl

theorem start_sound {A' : ℕ} {s : Scenario B E A'} {aPeriods : List (List ℚ)}
    {apps : Population B A} {draws : Draws aPeriods A}
    (h : start env s args aPeriods apps draws = .ok d) : Sound args d.view := by
  obtain ⟨-, hview⟩ := start_ok h
  rw [hview]
  exact ⟨populate_assigned s _ _ _ fun _ => rfl, rfl, fun hcounter => absurd rfl hcounter⟩

/-- A cloud and an edge node with two containers, at the same distance. -/
def exampleScenario : Scenario 1 1 0 where
  theCloudStorageCostLocal := 0
  theCloudStorageCostRemote := 0
  theMuAlgorithm := .Greedy
  theLambdaAlgorithm := .Greedy
  theApps := Fin.elim0
  theEdges := fun _ => { theNumContainers := 2, theContainerCapacity := 1 }
  networkCost := fun _ _ => 1

def exampleArgs : DynamicArgs where
  aDuration := 10
  aWarmUp := 0
  aEpoch := 4
  aAlpha := 1 / 2
  aBeta := 1
  rnd := fun _ _ => 0

theorem one_and_three_halved : ∀ i, 0 < (List.get [[(1 : ℚ), 3]] i).length / 2 := by decide

end Dynamic

end ServerlessEdge.LambdaMuSim
