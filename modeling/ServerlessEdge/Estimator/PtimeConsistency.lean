import ServerlessEdge.Estimator.Tracking
import Mathlib.Data.List.Induction

/-! What the estimators of a dispatcher know against its table: three of them
follow the table, the probing one never forgets a destination. -/
namespace ServerlessEdge.Estimator
open Std Library Rows Triple

namespace PtimeEstimator

variable {D : Type} [Derived D] [Tracking D]

/-- The pairs of the table. -/
def pairs (e : PtimeEstimator D) : Pairs := fun l d => (lookup e.theTable l d).isSome

/-- The derived class knows the pairs of the table, and theLambdas its rows. -/
structure Consistent (e : PtimeEstimator D) : Prop where
  full : Full e.theTable
  lambdas : ∀ l, l ∈ e.theLambdas ↔ l ∈ e.theTable
  tracks : Tracking.Tracks e.theDerived e.pairs

/-- A call that takes a pair out of the table, if it is there. -/
def Removes (aLambda aDest : String) : Call → Prop
  | .remove l d => l = aLambda ∧ d = aDest
  | .removeLambda l => l = aLambda
  | .processFailure _ q d => q.name = aLambda ∧ d = aDest
  | _ => False

/-- A destination was added by one of the calls and not removed after that. -/
def Added (aCalls : List Call) (aLambda aDest : String) : Prop :=
  ∃ before after w f, aCalls = before ++ .change aLambda aDest w f :: after ∧
    ∀ a ∈ after, ¬ Removes aLambda aDest a

/-- After any number of the calls the estimators agree with the table, and the
destinations chosen are among those added and not removed since; the empty string
is returned where no value beats the initial one. -/
def Follows (e : PtimeEstimator D) (aCalls : List Call) : Prop :=
  ∀ pre, pre <+: aCalls → Consistent (Runs.final step e pre) ∧
    ∀ r k q d e', operator r k q (Runs.final step e pre) = .ok d e' → d ≠ "" →
      Added pre q.name d

/-- The call removes a pair that is in the table. -/
def RemovesPair (e : PtimeEstimator D) (a : Call) : Prop := ∃ l d, e.pairs l d ∧ Removes l d a

section Table

variable {D : Type} [Derived D] {e : PtimeEstimator D}

theorem pairs_change (l d : String) (w : ℚ) (f : Bool) :
    (change l d w f e).pairs = e.pairs.with l d := by
  funext l' d'
  have hput (v : ℚ × Bool) : (lookup (put e.theTable l d v) l' d').isSome ↔ e.pairs.with l d l' d' := by
    rw [lookup_put, Pairs.with, pairs]
    split <;> simp [*]
  apply propext
  unfold change
  cases hr : e.theTable[l]? with
  | none =>
    rw [← hput (1, f), put, ExtTreeMap.getD_eq_getD_getElem?, hr]
    rfl
  | some r =>
    dsimp only
    split
    · next hd =>
      have hknown : e.pairs l d := by
        rw [pairs, lookup_of_row hr, ← ExtTreeMap.mem_iff_isSome_getElem?]
        exact hd
      constructor
      · exact .inr
      · rintro (⟨rfl, rfl⟩ | h)
        · exact hknown
        · exact h
    · rw [← hput (1, f), put, ExtTreeMap.getD_eq_getD_getElem?, hr]
      rfl

theorem theTable_internalRemove (l d : String) :
    (internalRemove l d e).theTable = drop e.theTable l d := by
  unfold internalRemove drop
  cases e.theTable[l]? with
  | none => rfl
  | some r =>
    dsimp only
    split
    · rfl
    · rfl

theorem pairs_internalRemove (l d : String) :
    (internalRemove l d e).pairs = e.pairs.without l d := by
  funext l' d'
  apply propext
  rw [pairs, theTable_internalRemove, lookup_drop, Pairs.without, pairs]
  split <;> simp [*]

instance (l d : String) : Decidable (e.pairs l d) :=
  inferInstanceAs (Decidable ((lookup e.theTable l d).isSome = true))

/-- The derived class hears of the removal of a pair that is there. -/
theorem theDerived_internalRemove (l d : String) : (internalRemove l d e).theDerived =
    if e.pairs l d then Derived.privateRemove l d e.theDerived else e.theDerived := by
  unfold internalRemove
  cases hr : e.theTable[l]? with
  | none =>
    have hp : ¬ e.pairs l d := by simp [pairs, lookup, hr]
    rw [if_neg hp]
  | some r =>
    have hp : e.pairs l d ↔ d ∈ r := by
      rw [pairs, lookup_of_row hr, ← ExtTreeMap.mem_iff_isSome_getElem?]
    simp only [hp]
    split
    · rfl
    · rfl

theorem pairs_removeLambda (l : String) :
    (removeLambda l e).pairs = fun l' d => l' ≠ l ∧ e.pairs l' d := by
  funext l' d'
  apply propext
  rw [pairs, removeLambda, lookup_erase_row]
  split <;> simp [*, pairs]

theorem theTable_operator (r : Readings) (k : Nat) (q : Rpc.LambdaRequest) :
    (after (operator r k q) e).theTable = e.theTable := by
  unfold after operator
  cases Derived.choose r q e.theDerived <;> rfl

theorem theTable_processSuccess (r : Readings) (k : Nat) (q : Rpc.LambdaRequest) (d : String)
    (p : LambdaResponse) (t : ℚ) : (after (processSuccess r k q d p t) e).theTable = e.theTable := by
  unfold after processSuccess
  dsimp only
  cases Derived.learn r q d p t e.theDerived <;> rfl

/-- A pair is in the table because it was there or has just been added. -/
theorem pairs_step {a : Call} {l d : String} (h : (step e a).pairs l d) :
    (∃ w f, a = .change l d w f) ∨ e.pairs l d ∧ ¬ Removes l d a := by
  cases a with
  | change l' d' w f =>
    rw [step, pairs_change] at h
    rcases h with ⟨rfl, rfl⟩ | h
    · exact .inl ⟨w, f, rfl⟩
    · exact .inr ⟨h, id⟩
  | changeWeight l' d' w => exact .inr ⟨h, id⟩
  | remove l' d' =>
    rw [step, remove, pairs_internalRemove] at h
    refine .inr ⟨h.2, ?_⟩
    rintro ⟨rfl, rfl⟩
    exact h.1 ⟨rfl, rfl⟩
  | removeLambda l' =>
    rw [step, pairs_removeLambda] at h
    exact .inr ⟨h.2, fun heq => h.1 heq.symm⟩
  | operator r k q =>
    rw [step, pairs, theTable_operator] at h
    exact .inr ⟨h, id⟩
  | processSuccess r k q x p t =>
    rw [step, pairs, theTable_processSuccess] at h
    exact .inr ⟨h, id⟩
  | processFailure k q x =>
    rw [step, processFailure, pairs_internalRemove] at h
    refine .inr ⟨h.2, ?_⟩
    rintro ⟨rfl, rfl⟩
    exact h.1 ⟨rfl, rfl⟩

/-- By induction on the calls, the last one first. -/
theorem added_of_pairs (d₀ : D) (aCalls : List Call) {l d : String}
    (h : (Runs.final step (new d₀) aCalls).pairs l d) : Added aCalls l d := by
  induction aCalls using List.reverseRecOn with
  | nil => simp [pairs, Runs.final, new] at h
  | append_singleton as a ih =>
    rw [Runs.final_append] at h
    rcases pairs_step h with ⟨w, f, rfl⟩ | ⟨h, hkept⟩
    · exact ⟨as, [], w, f, rfl, by simp⟩
    · obtain ⟨before, after, w, f, rfl, hafter⟩ := ih h
      refine ⟨before, after ++ [a], w, f, by simp, fun b hb => ?_⟩
      rcases List.mem_append.mp hb with hb | hb
      · exact hafter b hb
      · rw [List.mem_singleton.mp hb]
        exact hkept

end Table

section Consistency

variable {D : Type} [Derived D] [Tracking D] {e : PtimeEstimator D}

omit [Derived D] in
theorem Consistent.new {d₀ : D} (h : Tracking.Tracks d₀ fun _ _ => False) :
    Consistent (PtimeEstimator.new d₀) := by
  have hpairs : (PtimeEstimator.new d₀).pairs = fun _ _ => False := by
    funext l d
    simp [pairs, PtimeEstimator.new]
  refine ⟨full_empty, ?_, ?_⟩
  · simp [PtimeEstimator.new]
  · rw [hpairs]
    exact h

theorem Consistent.change [LawfulDerived D] (h : Consistent e) (l d : String) (w : ℚ) (f : Bool) :
    Consistent (change l d w f e) := by
  have hpairs := pairs_change (e := e) l d w f
  unfold PtimeEstimator.change at hpairs ⊢
  cases hr : e.theTable[l]? with
  | none =>
    rw [hr] at hpairs
    refine ⟨?_, fun l' => ?_, ?_⟩
    · have hput : put e.theTable l d (1, f) = e.theTable.insert l
          ((∅ : ExtTreeMap String (ℚ × Bool)).insert d (1, f)) := by
        rw [put, ExtTreeMap.getD_eq_getD_getElem?, hr, Option.getD_none]
      exact hput ▸ Full.put h.full l d (1, f)
    · rw [ExtTreeSet.mem_insert, h.lambdas, Maps.mem_insert, LawfulEqCmp.compare_eq_iff_eq,
        eq_comm (a := l)]
    · rw [hpairs]
      exact LawfulDerived.add h.tracks l d
  | some r =>
    rw [hr] at hpairs
    dsimp only at hpairs ⊢
    split
    · exact h
    · next hd =>
      rw [if_neg hd] at hpairs
      refine ⟨?_, fun l' => ?_, ?_⟩
      · have hput : put e.theTable l d (1, f) = e.theTable.insert l (r.insert d (1, f)) := by
          rw [put, ExtTreeMap.getD_eq_getD_getElem?, hr, Option.getD_some]
        exact hput ▸ Full.put h.full l d (1, f)
      · rw [h.lambdas, Maps.mem_insert]
        constructor
        · exact .inr
        · rintro (rfl | hl)
          · exact Maps.mem_of_lookup hr
          · exact hl
      · rw [hpairs]
        exact LawfulDerived.add h.tracks l d

/-- A pair leaves the table and the estimators, or it was in neither. -/
theorem Consistent.internalRemove (h : Consistent e) {l d : String}
    (hforget : e.pairs l d → Forgets D) : Consistent (internalRemove l d e) := by
  refine ⟨?_, fun l' => ?_, ?_⟩
  · rw [theTable_internalRemove]
    exact Full.drop h.full l d
  · unfold PtimeEstimator.internalRemove
    cases hr : e.theTable[l]? with
    | none => exact h.lambdas l'
    | some r =>
      dsimp only
      split
      · rw [ExtTreeSet.mem_erase, h.lambdas, Maps.mem_erase]
        simp [eq_comm (a := l)]
      · rw [h.lambdas, Maps.mem_insert]
        constructor
        · exact .inr
        · rintro (rfl | hl)
          · exact Maps.mem_of_lookup hr
          · exact hl
  · rw [pairs_internalRemove, theDerived_internalRemove]
    by_cases hp : e.pairs l d
    · rw [if_pos hp]
      exact hforget hp h.tracks l d
    · rw [if_neg hp, Pairs.without_of_not hp]
      exact h.tracks

theorem Consistent.removeLambda (h : Consistent e) {l : String}
    (hforget : (∃ d, e.pairs l d) → Forgets D) : Consistent (removeLambda l e) := by
  refine ⟨Full.erase h.full l, fun l' => ?_, ?_⟩
  · simp only [PtimeEstimator.removeLambda, ExtTreeSet.mem_erase, h.lambdas, Maps.mem_erase,
      LawfulEqCmp.compare_eq_iff_eq, ne_eq, eq_comm (a := l)]
  -- all the destinations of the row in turn
  have hfold : ∀ (ds : List String) (x : D) (P : Pairs), (∀ d ∈ ds, Forgets D) →
      Tracking.Tracks x P → Tracking.Tracks (ds.foldl (fun x d => Derived.privateRemove l d x) x)
        fun l' d => ¬ (l' = l ∧ d ∈ ds) ∧ P l' d := by
    intro ds
    induction ds with
    | nil =>
      intro x P _ hx
      simpa using hx
    | cons d ds ih =>
      intro x P hds hx
      have hnext := ih _ _ (fun d hd => hds d (List.mem_cons_of_mem _ hd))
        (hds d List.mem_cons_self hx l d)
      have hsame : (fun l' d' => ¬ (l' = l ∧ d' ∈ ds) ∧ P.without l d l' d') =
          fun l' d' => ¬ (l' = l ∧ d' ∈ d :: ds) ∧ P l' d' := by
        funext l' d'
        apply propext
        simp only [Pairs.without, List.mem_cons]
        tauto
      exact hsame ▸ hnext
  have hkeys (d : String) : d ∈ (e.theTable.getD l ∅).keys ↔ e.pairs l d := by
    rw [ExtTreeMap.mem_keys, ExtTreeMap.mem_iff_isSome_getElem?, lookup_getD, pairs]
  have htracks := hfold (e.theTable.getD l ∅).keys e.theDerived e.pairs
    (fun d hd => hforget ⟨d, (hkeys d).mp hd⟩) h.tracks
  have hsame : (fun l' d => ¬ (l' = l ∧ d ∈ (e.theTable.getD l ∅).keys) ∧ e.pairs l' d) =
      (PtimeEstimator.removeLambda l e).pairs := by
    rw [pairs_removeLambda]
    funext l' d
    apply propext
    rw [hkeys]
    constructor
    · rintro ⟨hn, hp⟩
      refine ⟨?_, hp⟩
      rintro rfl
      exact hn ⟨rfl, hp⟩
    · rintro ⟨hl, hp⟩
      exact ⟨fun h => hl h.1, hp⟩
  exact hsame ▸ htracks

variable [LawfulDerived D]

theorem Consistent.operator (h : Consistent e) (r : Readings) (k : Nat) (q : Rpc.LambdaRequest) :
    Consistent (after (operator r k q) e) := by
  have hwp := LawfulDerived.choose h.tracks r q
  unfold after PtimeEstimator.operator
  unfold wp at hwp
  cases hc : Derived.choose r q e.theDerived with
  | error err d =>
    rw [hc] at hwp
    exact ⟨h.full, h.lambdas, hwp.resolve_left id⟩
  | ok x d =>
    rw [hc] at hwp
    exact ⟨h.full, h.lambdas, (hwp.resolve_left id).2⟩

/-- The destination chosen is one of the table. -/
theorem Consistent.chosen (h : Consistent e) {r : Readings} {k : Nat} {q : Rpc.LambdaRequest}
    {d : String} {e' : PtimeEstimator D} (hrun : PtimeEstimator.operator r k q e = .ok d e') :
    d = "" ∨ e.pairs q.name d := by
  have hwp := LawfulDerived.choose h.tracks r q
  unfold PtimeEstimator.operator at hrun
  unfold wp at hwp
  cases hc : Derived.choose r q e.theDerived with
  | error err d =>
    rw [hc] at hrun
    cases hrun
  | ok x d =>
    rw [hc] at hrun hwp
    cases hrun
    exact (hwp.resolve_left id).1

theorem Consistent.processSuccess (h : Consistent e) (r : Readings) (k : Nat)
    (q : Rpc.LambdaRequest) (d : String) (p : LambdaResponse) (t : ℚ) :
    Consistent (after (processSuccess r k q d p t) e) := by
  have hlearn := LawfulDerived.learn h.tracks r q d p t
  unfold after PtimeEstimator.processSuccess
  unfold after at hlearn
  dsimp only
  cases hc : Derived.learn r q d p t e.theDerived with
  | error err x =>
    rw [hc] at hlearn
    exact ⟨h.full, h.lambdas, hlearn⟩
  | ok _ x =>
    rw [hc] at hlearn
    exact ⟨h.full, h.lambdas, hlearn⟩

/-- Every call keeps the estimators consistent with the table, removals only if
the derived class forgets what is removed. -/
theorem Consistent.step (h : Consistent e) {a : Call} (hforget : RemovesPair e a → Forgets D) :
    Consistent (step e a) := by
  cases a with
  | change l d w f => exact h.change l d w f
  | changeWeight l d w => exact h
  | remove l d => exact h.internalRemove fun hp => hforget ⟨l, d, hp, rfl, rfl⟩
  | removeLambda l =>
    apply h.removeLambda
    rintro ⟨d, hp⟩
    exact hforget ⟨l, d, hp, rfl⟩
  | operator r k q => exact h.operator r k q
  | processSuccess r k q d p t => exact h.processSuccess r k q d p t
  | processFailure k q d =>
    have herased : Consistent { e with theEstimates := e.theEstimates.erase k } :=
      ⟨h.full, h.lambdas, h.tracks⟩
    exact herased.internalRemove fun hp => hforget ⟨q.name, d, hp, rfl, rfl⟩

/-- Where every state reached is consistent the destinations chosen have been
added and not removed. -/
theorem follows_of_consistent {d₀ : D} {aCalls : List Call}
    (h : ∀ e ∈ Runs.states PtimeEstimator.step (PtimeEstimator.new d₀) aCalls, Consistent e) :
    Follows (PtimeEstimator.new d₀) aCalls := by
  intro pre hpre
  have hcons : Consistent (Runs.final PtimeEstimator.step (PtimeEstimator.new d₀) pre) :=
    h _ (Runs.mem_states_iff.mpr ⟨pre, hpre, rfl⟩)
  refine ⟨hcons, fun r k q d e' hrun hne => ?_⟩
  exact added_of_pairs d₀ pre ((hcons.chosen hrun).resolve_left hne)

theorem follows_of_forgets (hforget : Forgets D) {d₀ : D} (h₀ : Tracking.Tracks d₀ fun _ _ => False)
    (aCalls : List Call) : Follows (PtimeEstimator.new d₀) aCalls :=
  follows_of_consistent (Runs.invariant (fun _ _ h => h.step fun _ => hforget) aCalls
    (Consistent.new h₀))

end Consistency

/-- The probing estimator knows a pair for ever. -/
theorem known_forever {e : PtimeEstimator PtimeEstimatorProbe} {l d : String}
    (h : e.theDerived.theDestinations.Known l d) (l' d' : String) :
    (internalRemove l' d' e).theDerived.theDestinations.Known l d := by
  rw [theDerived_internalRemove]
  split
  · exact (DestinationTable.known_add _ _ _ _ _).mpr (.inr h)
  · exact h

/-- Once it has removed a pair the probing estimator is no longer consistent. -/
theorem not_consistent_probe {e : PtimeEstimator PtimeEstimatorProbe} (h : Consistent e) {a : Call}
    (ha : RemovesPair e a) : ¬ Consistent (step e a) := by
  obtain ⟨l, d, hp, hremoves⟩ := ha
  have hknown : e.theDerived.theDestinations.Known l d := (h.tracks l d).mpr hp
  -- the pair is no longer in the table, but it is still known
  suffices hkept : (step e a).theDerived.theDestinations.Known l d by
    intro h'
    have hp' : (step e a).pairs l d := (h'.tracks l d).mp hkept
    rcases pairs_step hp' with ⟨w, f, rfl⟩ | ⟨-, hn⟩
    · exact hremoves
    · exact hn hremoves
  cases a with
  | remove l' d' => exact known_forever hknown l' d'
  | removeLambda l' =>
    have hfold : ∀ (ds : List String) (x : PtimeEstimatorProbe), x.theDestinations.Known l d →
        (ds.foldl (fun x d => Derived.privateRemove l' d x) x).theDestinations.Known l d := by
      intro ds
      induction ds with
      | nil => exact fun _ hx => hx
      | cons d' ds ih =>
        exact fun x hx => ih _ ((DestinationTable.known_add _ _ _ _ _).mpr (.inr hx))
    exact hfold _ _ hknown
  | processFailure k q d' =>
    have herased : { e with theEstimates := e.theEstimates.erase k }.theDerived.theDestinations.Known
      l d := hknown
    exact known_forever herased q.name d'
  | _ => exact hremoves.elim

/-- The estimators that keep one of the others follow the table in every run, the
probing one in those that never remove a pair from it. -/
theorem estimators_follow (E : Type) [LinearEstimator E] (aCalls : List Call) :
    (∀ aWindowSize aStalePeriod,
      Follows (new (PtimeEstimatorRtt.new aWindowSize aStalePeriod : PtimeEstimatorRtt E)) aCalls) ∧
    (∀ aRttWindowSize aRttStalePeriod aUtilLoadTimeout aUtilWindowSize,
      Follows (new (PtimeEstimatorUtil.new aRttWindowSize aRttStalePeriod aUtilLoadTimeout
        aUtilWindowSize : PtimeEstimatorUtil E)) aCalls) ∧
    (∀ aUtilLoadTimeout aUtilWindowSize, Follows (new (PtimeEstimatorDelay.new aUtilLoadTimeout
      aUtilWindowSize : PtimeEstimatorDelay E)) aCalls) ∧
    (Follows (new PtimeEstimatorProbe.new) aCalls ↔
      Runs.Along step (fun e a => ¬ RemovesPair e a) (new PtimeEstimatorProbe.new) aCalls) := by
  have hrtt (w : Nat) (s : ℚ) (l d : String) :
      (RttEstimator.new w s : RttEstimator E).theTable.Known l d ↔ False := by
    simp [RttEstimator.new]
  have hprobe : Consistent (new PtimeEstimatorProbe.new) := by
    apply Consistent.new
    intro l d
    simp [PtimeEstimatorProbe.new]
  refine ⟨fun w s => ?_, fun w s t u => ?_, fun t u => ?_, ?_⟩
  · exact follows_of_forgets forgets_rtt (hrtt w s) aCalls
  · exact follows_of_forgets forgets_util ⟨hrtt w s, UtilEstimator.Tracks.new t u⟩ aCalls
  · exact follows_of_forgets forgets_delay (UtilEstimator.Tracks.new t u) aCalls
  · have hstep (e : PtimeEstimator PtimeEstimatorProbe) (a : Call) (h : Consistent e) :
        Consistent (step e a) ↔ ¬ RemovesPair e a := by
      constructor
      · exact fun h' ha => not_consistent_probe h ha h'
      · exact fun hn => h.step fun ha => absurd ha hn
    rw [← Runs.invariant_iff_along hstep hprobe]
    constructor
    · intro h e he
      obtain ⟨pre, hpre, rfl⟩ := Runs.mem_states_iff.mp he
      exact (h pre hpre).1
    · exact follows_of_consistent

/-- After the only destination of a lambda has been removed it is still polled,
and chosen. -/
theorem removed_and_chosen : ¬ ∀ aCalls, Follows (new PtimeEstimatorProbe.new) aCalls := by
  intro h
  let aCalls : List Call := [.change "lambda0" "a:1" 1 true, .remove "lambda0" "a:1"]
  let r : Readings := ⟨fun _ => 0, fun _ => .ok { retcode := "OK", ptime := 5 }⟩
  let q : Rpc.LambdaRequest := { name := "lambda0" }
  let e := Runs.final step (new PtimeEstimatorProbe.new) aCalls
  have hchosen : (match operator r 0 q e with
    | .ok d _ => d
    | .error err _ => err) = "a:1" := by decide +kernel
  cases hrun : operator r 0 q e with
  | error err e' =>
    rw [hrun] at hchosen
    have hok : (match operator r 0 q e with
      | .ok _ _ => true
      | .error _ _ => false) = true := by decide +kernel
    rw [hrun] at hok
    cases hok
  | ok d e' =>
    rw [hrun] at hchosen
    obtain rfl : d = "a:1" := hchosen
    obtain ⟨before, after, w, f, heq, hafter⟩ :=
      (h aCalls aCalls (List.prefix_refl _)).2 r 0 q "a:1" e' hrun (by decide)
    have hlast : Call.remove "lambda0" "a:1" ∈ after := by
      change [Call.change "lambda0" "a:1" 1 true, Call.remove "lambda0" "a:1"] =
        before ++ Call.change "lambda0" "a:1" w f :: after at heq
      match before with
      | [] =>
        cases heq
        exact List.mem_cons_self
      | [b] => cases heq
      | b :: b' :: bs =>
        have hlength := congrArg List.length heq
        simp only [List.cons_append, List.length_cons, List.length_append,
          List.length_nil] at hlength
        omega
    exact hafter _ hlast ⟨rfl, rfl⟩

end PtimeEstimator

end ServerlessEdge.Estimator
