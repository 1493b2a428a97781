import ServerlessEdge.LambdaMuSim.MuApps
import ServerlessEdge.LambdaMuSim.Dynamic

/-! The assignments of all apps at an epoch and the migrations of single apps in
between keep the mu apps where they are said to be, and always find room. -/
namespace ServerlessEdge.LambdaMuSim
open Library Writes

theorem sum_map_filter {n : ℕ} (p : Fin n → Prop) [DecidablePred p] (f : Fin n → ℚ) :
    (((List.finRange n).filter fun i => p i).map f).sum = ∑ i, if p i then f i else 0 := by
  have hlist : ∀ l : List (Fin n), ((l.filter fun i => p i).map f).sum =
      (l.map fun i => if p i then f i else 0).sum := by
    intro l
    induction l with
    | nil => rfl
    | cons i l ih =>
      by_cases hi : p i
      · rw [List.filter_cons_of_pos (by simpa using hi)]
        simp [hi, ih]
      · rw [List.filter_cons_of_neg (by simpa using hi)]
        simp [hi, ih]
  rw [hlist, Fin.sum_univ_def]

namespace Scenario

variable {B E A : ℕ} {s : Scenario B E A} {aAlpha : ℚ}

section Epoch

/-- The edge of each app after the mu apps have been placed. -/
def placedEdge (s : Scenario B E A) (placed : List (Fin A × Fin (E + 1))) : Fin A → Fin (E + 1) :=
  writeAll (fun a => (s.theApps a).theEdge) placed

theorem placed_eq (s : Scenario B E A) (placed : List (Fin A × Fin (E + 1))) :
    placed.foldl place s.clearMuApps = s.withMu (s.placedEdge placed) fun e =>
      (placed.filter fun p => p.2 = e).map Prod.fst :=
  foldl_place s.clearMuApps placed

theorem placedEdge_of_mem {placed : List (Fin A × Fin (E + 1))}
    (hplaced : placed.map Prod.fst = s.appsOf .Mu) {p : Fin A × Fin (E + 1)} (hp : p ∈ placed) :
    s.placedEdge placed p.1 = p.2 :=
  writeAll_of_mem (hplaced ▸ s.appsOf_nodup .Mu) hp

theorem placed_assigned {placed : List (Fin A × Fin (E + 1))}
    (hplaced : placed.map Prod.fst = s.appsOf .Mu)
    (hcount : ∀ e, (placed.map Prod.snd).count e ≤ s.usableMuContainers aAlpha e)
    (hweights : ∀ a, (s.theApps a).theType = .Mu → (s.theApps a).theWeights = []) :
    (placed.foldl place s.clearMuApps).Assigned aAlpha := by
  have hlen : ∀ e, ((placed.filter fun p => p.2 = e).map Prod.fst).length ≤
      s.usableMuContainers aAlpha e := by
    intro e
    have heq : ((placed.filter fun p => p.2 = e).map Prod.fst).length =
        (placed.map Prod.snd).count e := by
      rw [List.length_map, ← List.countP_eq_length_filter, List.count, List.countP_map]
      rfl
    exact heq.trans_le (hcount e)
  have hmem : ∀ e a, a ∈ (placed.filter fun p => p.2 = e).map Prod.fst ↔ (a, e) ∈ placed := by
    intro e a
    simp
  rw [placed_eq]
  refine ⟨?_, ?_, ?_, hweights, ?_, ?_⟩
  · intro a ha e
    refine (hmem e a).trans ⟨fun hp => placedEdge_of_mem hplaced hp, ?_⟩
    rintro rfl
    have hin : a ∈ placed.map Prod.fst := by
      rw [hplaced]
      exact mem_appsOf.mpr ha
    obtain ⟨⟨b, e⟩, hp, rfl⟩ := List.mem_map.mp hin
    have hedge : s.placedEdge placed b = e := placedEdge_of_mem hplaced hp
    have hgoal : (b, s.placedEdge placed b) ∈ placed := by
      rw [hedge]
      exact hp
    exact hgoal
  · intro e
    have hnodup : (placed.map Prod.fst).Nodup := hplaced ▸ s.appsOf_nodup .Mu
    exact hnodup.sublist (List.filter_sublist.map Prod.fst)
  · intro a ha e hin
    have hmu : a ∈ placed.map Prod.fst := List.mem_map.mpr ⟨(a, e), (hmem e a).mp hin, rfl⟩
    rw [hplaced] at hmu
    rw [withMu, mem_appsOf.mp hmu] at ha
    cases ha
  · intro e he
    have h := hlen e
    rwa [usableMuContainers, if_neg he] at h
  · have h := hlen CLOUD
    rwa [usableMuContainers, if_pos rfl] at h

/-- A scenario in which apps have other weights. -/
def withWeights (s : Scenario B E A) (w : Fin A → List (Fin (E + 1) × ℚ)) : Scenario B E A :=
  { s with theApps := fun a => { s.theApps a with theWeights := w a } }

theorem foldl_weigh (s : Scenario B E A) (l : List (Fin A × List (Fin (E + 1) × ℚ))) :
    l.foldl weigh s = s.withWeights (writeAll (fun a => (s.theApps a).theWeights) l) := by
  induction l generalizing s with
  | nil => rfl
  | cons p l ih =>
    have hweights : (fun a => ((s.weigh p).theApps a).theWeights) =
        Function.update (fun a => (s.theApps a).theWeights) p.1 p.2 := by
      funext a
      by_cases ha : a = p.1
      · subst ha
        simp [weigh]
      · simp [weigh, ha]
    have hsame : ∀ w, (s.weigh p).withWeights w = s.withWeights w := by
      intro w
      have happs : ∀ a, { (s.weigh p).theApps a with theWeights := w a } =
          { s.theApps a with theWeights := w a } := by
        intro a
        by_cases ha : a = p.1
        · subst ha
          simp [weigh]
        · simp [weigh, ha]
      simp only [withWeights, happs]
      rfl
    rw [List.foldl_cons, ih, hweights, hsame]
    rfl

/-- The weights of the edges add up what the weights of the containers do. -/
theorem sum_aggregate (containers : List (Fin (E + 1))) (w : Fin containers.length → ℚ)
    (g : Fin (E + 1) → ℚ) : ((aggregate containers w).map fun p => p.2 * g p.1).sum =
      ∑ c, w c * g (containers.get c) := by
  have hzero : ∀ e, e ∉ containers → ∑ c, (if containers.get c = e then w c else 0) = 0 := by
    intro e he
    refine Finset.sum_eq_zero fun c _ => if_neg ?_
    rintro rfl
    exact he (List.get_mem _ _)
  rw [aggregate, List.map_map]
  refine (sum_map_filter (fun e => e ∈ containers)
    fun e => (∑ c, if containers.get c = e then w c else 0) * g e).trans ?_
  have hall : ∀ e, (if e ∈ containers then (∑ c, if containers.get c = e then w c else 0) * g e
      else 0) = ∑ c, if containers.get c = e then w c * g e else 0 := by
    intro e
    split
    · rw [Finset.sum_mul]
      exact Finset.sum_congr rfl fun c _ => by rw [ite_mul, zero_mul]
    · rename_i he
      refine (Finset.sum_eq_zero fun c _ => if_neg ?_).symm
      rintro rfl
      exact he (List.get_mem _ _)
  rw [Finset.sum_congr rfl fun e _ => hall e, Finset.sum_comm]
  refine Finset.sum_congr rfl fun c _ => ?_
  rw [Finset.sum_ite_eq Finset.univ (containers.get c), if_pos (Finset.mem_univ _)]

/-- The weights after the lambda apps have been assigned. -/
def lambdaWeights (env : Env) (s : Scenario B E A) (aBeta : ℚ) (aRnd : ℕ → ℚ) :
    Fin A → List (Fin (E + 1) × ℚ) :=
  writeAll (fun a => (s.theApps a).theWeights)
    ((List.finRange (s.appsOf .Lambda).length).map fun t =>
      ((s.appsOf .Lambda).get t,
        aggregate s.lambdaContainers ((s.lambdaSolution env aBeta aRnd).2 t)))

theorem lambdaWeights_get (env : Env) (s : Scenario B E A) (aBeta : ℚ) (aRnd : ℕ → ℚ)
    (t : Fin (s.appsOf .Lambda).length) : s.lambdaWeights env aBeta aRnd ((s.appsOf .Lambda).get t) =
      aggregate s.lambdaContainers ((s.lambdaSolution env aBeta aRnd).2 t) := by
  refine writeAll_of_mem ?_ (List.mem_map.mpr ⟨t, List.mem_finRange t, rfl⟩)
  have hkeys : ((List.finRange (s.appsOf .Lambda).length).map fun t =>
      ((s.appsOf .Lambda).get t,
        aggregate s.lambdaContainers ((s.lambdaSolution env aBeta aRnd).2 t))).map Prod.fst =
      s.appsOf .Lambda := by
    rw [List.map_map]
    exact List.map_get_finRange _
  rw [hkeys]
  exact s.appsOf_nodup .Lambda

theorem lambdaWeights_other (env : Env) (s : Scenario B E A) (aBeta : ℚ) (aRnd : ℕ → ℚ) {a : Fin A}
    (ha : (s.theApps a).theType ≠ .Lambda) :
    s.lambdaWeights env aBeta aRnd a = (s.theApps a).theWeights := by
  refine writeAll_of_notMem fun hin => ha ?_
  obtain ⟨p, hp, rfl⟩ := List.mem_map.mp hin
  obtain ⟨t, -, rfl⟩ := List.mem_map.mp hp
  exact mem_appsOf.mp (List.get_mem _ _)

/-- What the assignment of the lambda apps does where the containers have not been
used up: it replaces the weights of these apps. -/
theorem assignLambdaApps_spec (env : Env) (s : Scenario B E A) (aBeta : ℚ) (aData : PerformanceData)
    (aRnd : ℕ → ℚ) (hsome : s.appsOf .Lambda ≠ [])
    (hle : ∀ e, (s.theEdges e).theMuApps.length ≤ (s.theEdges e).theNumContainers) :
    s.assignLambdaApps env aBeta aData aRnd = .ok ({ aData with
      theLambdaCost := (s.lambdaSolution env aBeta aRnd).1
      theLambdaServiceCloud :=
        (s.withWeights (s.lambdaWeights env aBeta aRnd)).lambdaServiceCloud },
      s.withWeights (s.lambdaWeights env aBeta aRnd)) := by
  have hnot : ¬ ∃ e, (s.theEdges e).theNumContainers < (s.theEdges e).theMuApps.length := by
    rintro ⟨e, he⟩
    have := hle e
    omega
  simp only [assignLambdaApps, if_neg hsome, if_neg hnot, foldl_weigh, lambdaWeights]

theorem Assigned.withWeights (h : s.Assigned aAlpha) {w : Fin A → List (Fin (E + 1) × ℚ)}
    (hw : ∀ a, (s.theApps a).theType = .Mu → w a = []) : (s.withWeights w).Assigned aAlpha :=
  ⟨h.mu, h.once, h.lambda, hw, h.edge_le, h.cloud_le⟩

/-- With a free container in the cloud every lambda app is served. -/
theorem weighed_lambdaWeights (env : Env) (aBeta : ℚ) (aRnd : ℕ → ℚ)
    (hfree : (s.theEdges CLOUD).theMuApps.length < (s.theEdges CLOUD).theNumContainers) :
    (s.withWeights (s.lambdaWeights env aBeta aRnd)).Weighed := by
  intro a ha
  obtain ⟨t, ht⟩ := List.get_of_mem (mem_appsOf.mpr ha : a ∈ s.appsOf .Lambda)
  have hcloud : CLOUD ∈ s.lambdaContainers := by
    refine List.count_pos_iff.mp ?_
    rw [lambdaContainers, Allotments.count_units]
    omega
  have hget := lambdaWeights_get env s aBeta aRnd t
  rw [ht] at hget
  intro hnil
  have haggregate : aggregate s.lambdaContainers ((s.lambdaSolution env aBeta aRnd).2 t) = [] :=
    hget.symm.trans hnil
  rw [aggregate, List.map_eq_nil_iff, List.filter_eq_nil_iff] at haggregate
  exact haggregate CLOUD (List.mem_finRange _) (decide_eq_true hcloud)

end Epoch

section Migration

@[simp] theorem toMu_changed (s : Scenario B E A) (a : Fin A) (e : Fin (E + 1)) :
    (s.toMu a e).theApps a = { s.theApps a with theEdge := e, theWeights := [], theType := .Mu } :=
  Function.update_self ..

theorem toMu_other (s : Scenario B E A) {a b : Fin A} (e : Fin (E + 1)) (hb : b ≠ a) :
    (s.toMu a e).theApps b = s.theApps b :=
  Function.update_of_ne hb ..

@[simp] theorem toLambda_changed (s : Scenario B E A) (a : Fin A) :
    (s.toLambda a).theApps a = { s.theApps a with
      theWeights := (s.theApps a).theWeights ++ [(CLOUD, ((s.theApps a).theServiceRate : ℚ))]
      theType := .Lambda } :=
  Function.update_self ..

theorem toLambda_other (s : Scenario B E A) {a b : Fin A} (hb : b ≠ a) :
    (s.toLambda a).theApps b = s.theApps b :=
  Function.update_of_ne hb ..

@[simp] theorem toMu_numContainers (s : Scenario B E A) (a : Fin A) (e f : Fin (E + 1)) :
    ((s.toMu a e).theEdges f).theNumContainers = (s.theEdges f).theNumContainers := by
  by_cases hf : f = e
  · subst hf
    simp [toMu]
  · simp [toMu, hf]

@[simp] theorem toLambda_numContainers (s : Scenario B E A) (a : Fin A) (f : Fin (E + 1)) :
    ((s.toLambda a).theEdges f).theNumContainers = (s.theEdges f).theNumContainers := by
  by_cases hf : f = (s.theApps a).theEdge
  · subst hf
    simp [toLambda]
  · simp [toLambda, hf]

/-- What holds of each lambda app still does when one of them becomes a mu app. -/
theorem lambda_toMu {P : App B E → Prop}
    (h : ∀ b, (s.theApps b).theType = .Lambda → P (s.theApps b)) (a : Fin A) (e : Fin (E + 1)) :
    ∀ b, ((s.toMu a e).theApps b).theType = .Lambda → P ((s.toMu a e).theApps b) := by
  intro b hb
  by_cases hba : b = a
  · subst hba
    rw [toMu_changed] at hb
    cases hb
  · rw [toMu_other s e hba] at hb ⊢
    exact h b hb

/-- And when a mu app becomes one of them, if it holds of it. -/
theorem lambda_toLambda {P : App B E → Prop}
    (h : ∀ b, (s.theApps b).theType = .Lambda → P (s.theApps b)) {a : Fin A}
    (ha : P ((s.toLambda a).theApps a)) :
    ∀ b, ((s.toLambda a).theApps b).theType = .Lambda → P ((s.toLambda a).theApps b) := by
  intro b hb
  by_cases hba : b = a
  · subst hba
    exact ha
  · rw [toLambda_other s hba] at hb ⊢
    exact h b hb

/-- The mu apps of an edge and an app that is not one of them. -/
theorem length_lt_of_notMem {l : List (Fin A)} (hl : l.Nodup) {a : Fin A} (ha : a ∉ l) :
    l.length < A := by
  have hlen := (List.nodup_cons.mpr ⟨ha, hl⟩).length_le_card
  rw [Fintype.card_fin] at hlen
  exact hlen

/-- A container of an edge is free for a mu app. -/
def Free (s : Scenario B E A) (aAlpha : ℚ) (e : Fin (E + 1)) : Prop :=
  0 < s.usableMuContainers aAlpha e - (s.theEdges e).theMuApps.length

/-- The loop ends with one of the edges that have a free container, if any. -/
theorem candidate_some (a : Fin A) (hfree : ∃ e, s.Free aAlpha e) :
    ∃ e, (s.candidate a aAlpha).1 = some e ∧ s.Free aAlpha e := by
  -- as long as there is no candidate its cost is infinite
  have hloop : ∀ (l : List (Fin (E + 1))) (my : Option (Fin (E + 1)) × WithTop ℚ),
      (my.1 = none → my.2 = ⊤) → (∀ e, my.1 = some e → s.Free aAlpha e) →
      (my.1 ≠ none ∨ ∃ e ∈ l, s.Free aAlpha e) →
      ∃ e, (l.foldl (s.closer a aAlpha) my).1 = some e ∧ s.Free aAlpha e := by
    intro l
    induction l with
    | nil =>
      intro my _ hsome hor
      obtain ⟨e, he⟩ := Option.ne_none_iff_exists'.mp (hor.resolve_right (by simp))
      exact ⟨e, he, hsome e he⟩
    | cons f l ih =>
      intro my htop hsome hor
      rw [List.foldl_cons, closer]
      by_cases hf : 0 < s.usableMuContainers aAlpha f - (s.theEdges f).theMuApps.length
      · rw [if_pos hf]
        split
        · refine ih _ (fun h => by cases h) (fun e he => ?_) (.inl (Option.some_ne_none f))
          cases he
          exact hf
        · rename_i hlt
          refine ih my htop hsome (.inl fun hnone => hlt ?_)
          rw [htop hnone]
          exact WithTop.coe_lt_top _
      · rw [if_neg hf]
        refine ih my htop hsome (hor.imp_right ?_)
        rintro ⟨e, he, hfe⟩
        rcases List.mem_cons.mp he with rfl | he
        · exact absurd hfe hf
        · exact ⟨e, he, hfe⟩
  obtain ⟨e, he⟩ := hfree
  exact hloop _ _ (fun _ => rfl) (fun _ h => by cases h) (.inr ⟨e, List.mem_finRange e, he⟩)

/-- A lambda app always finds a free container, in the cloud if nowhere else. -/
theorem migrateLambdaToMu_spec (h : s.Assigned aAlpha) {a : Fin A}
    (ha : (s.theApps a).theType = .Lambda) (hcloud : A ≤ (s.theEdges CLOUD).theNumContainers) :
    ∃ e, s.Free aAlpha e ∧ s.migrateLambdaToMu a aAlpha =
      .ok ((s.lambdaCost a, (s.toMu a e).muCost a), s.toMu a e) := by
  have hfree : s.Free aAlpha CLOUD := by
    have hlen := length_lt_of_notMem (h.once CLOUD) (h.lambda a ha CLOUD)
    unfold Free usableMuContainers
    rw [if_pos rfl]
    omega
  obtain ⟨e, he, hfe⟩ := candidate_some a ⟨CLOUD, hfree⟩
  have hnot : ¬ ∃ e, s.usableMuContainers aAlpha e < (s.theEdges e).theMuApps.length := by
    rintro ⟨e, hlt⟩
    have := h.le_usable e
    omega
  refine ⟨e, hfe, ?_⟩
  simp only [migrateLambdaToMu, if_neg hnot, he]

theorem Assigned.toMu (h : s.Assigned aAlpha) {a : Fin A} (ha : (s.theApps a).theType = .Lambda)
    {e : Fin (E + 1)} (hfree : s.Free aAlpha e) : (s.toMu a e).Assigned aAlpha := by
  have hedge : (s.toMu a e).theEdges e =
      { s.theEdges e with theMuApps := (s.theEdges e).theMuApps ++ [a] } :=
    Function.update_self ..
  have hedges : ∀ f, f ≠ e → (s.toMu a e).theEdges f = s.theEdges f :=
    fun f hf => Function.update_of_ne hf ..
  have hnot := h.lambda a ha
  have hmem : ∀ f b, b ∈ ((s.toMu a e).theEdges f).theMuApps ↔
      b ∈ (s.theEdges f).theMuApps ∨ b = a ∧ f = e := by
    intro f b
    by_cases hf : f = e
    · subst hf
      simp [hedge]
    · simp [hedges f hf, hf]
  have hlen : ((s.theEdges e).theMuApps ++ [a]).length ≤ s.usableMuContainers aAlpha e := by
    unfold Free at hfree
    rw [List.length_append, List.length_singleton]
    omega
  refine ⟨?_, ?_, ?_, ?_, ?_, ?_⟩
  · intro b hb f
    rw [hmem]
    by_cases hba : b = a
    · subst hba
      rw [toMu_changed]
      constructor
      · rintro (hin | ⟨-, rfl⟩)
        · exact absurd hin (hnot f)
        · rfl
      · rintro rfl
        exact .inr ⟨rfl, rfl⟩
    · rw [toMu_other s e hba] at hb ⊢
      rw [← h.mu b hb f]
      exact or_iff_left fun hb => hba hb.1
  · intro f
    by_cases hf : f = e
    · subst hf
      rw [hedge]
      exact List.nodup_append_comm.mp (List.nodup_cons.mpr ⟨hnot f, h.once f⟩)
    · rw [hedges f hf]
      exact h.once f
  · intro b hb f hin
    have hba : b ≠ a := by
      rintro rfl
      rw [toMu_changed] at hb
      cases hb
    rw [toMu_other s e hba] at hb
    rcases (hmem f b).mp hin with hin | hb'
    · exact h.lambda b hb f hin
    · exact hba hb'.1
  · intro b hb
    by_cases hba : b = a
    · subst hba
      rw [toMu_changed]
    · rw [toMu_other s e hba] at hb ⊢
      exact h.weights b hb
  · intro f hf
    by_cases hfe : f = e
    · subst hfe
      rw [usableMuContainers, if_neg hf] at hlen
      rw [hedge]
      exact hlen
    · rw [hedges f hfe]
      exact h.edge_le f hf
  · by_cases hce : CLOUD = e
    · subst hce
      rw [usableMuContainers, if_pos rfl] at hlen
      rw [hedge]
      exact hlen
    · rw [hedges CLOUD hce]
      exact h.cloud_le

theorem Assigned.toLambda (h : s.Assigned aAlpha) {a : Fin A}
    (ha : (s.theApps a).theType = .Mu) : (s.toLambda a).Assigned aAlpha := by
  have hmem : ∀ f b, b ∈ ((s.toLambda a).theEdges f).theMuApps ↔
      b ∈ (s.theEdges f).theMuApps ∧ b ≠ a := by
    intro f b
    by_cases hf : f = (s.theApps a).theEdge
    · subst hf
      simp [Scenario.toLambda]
    · have hout : a ∉ (s.theEdges f).theMuApps := fun hin => hf ((h.mu a ha f).mp hin).symm
      have hsame : ((s.toLambda a).theEdges f).theMuApps = (s.theEdges f).theMuApps := by
        simp [Scenario.toLambda, hf]
      rw [hsame]
      refine ⟨fun hin => ⟨hin, ?_⟩, And.left⟩
      rintro rfl
      exact hout hin
  have hsub : ∀ f, ((s.toLambda a).theEdges f).theMuApps.Sublist (s.theEdges f).theMuApps := by
    intro f
    by_cases hf : f = (s.theApps a).theEdge
    · subst hf
      simp [Scenario.toLambda]
    · simp [Scenario.toLambda, hf]
  refine ⟨?_, ?_, ?_, ?_, ?_, ?_⟩
  · intro b hb f
    have hba : b ≠ a := by
      rintro rfl
      rw [toLambda_changed] at hb
      cases hb
    rw [hmem, toLambda_other s hba]
    rw [toLambda_other s hba] at hb
    rw [← h.mu b hb f]
    exact and_iff_left hba
  · intro f
    exact (h.once f).sublist (hsub f)
  · intro b hb f hin
    obtain ⟨hin, hba⟩ := (hmem f b).mp hin
    rw [toLambda_other s hba] at hb
    exact h.lambda b hb f hin
  · intro b hb
    have hba : b ≠ a := by
      rintro rfl
      rw [toLambda_changed] at hb
      cases hb
    rw [toLambda_other s hba] at hb ⊢
    exact h.weights b hb
  · intro f hf
    rw [toLambda_numContainers]
    exact (hsub f).length_le.trans (h.edge_le f hf)
  · rw [toLambda_numContainers]
    exact (hsub CLOUD).length_le.trans h.cloud_le

end Migration

end Scenario

end ServerlessEdge.LambdaMuSim
