import ServerlessEdge.Library.Leaders
import ServerlessEdge.Forwarding.Handles

/-! The deficits of an entry that takes turns. A weight update brings the smallest
deficit of the active destinations down to zero, and takes as much from all the others. -/
namespace ServerlessEdge.Forwarding
open Library
open Std (ExtTreeMap)

namespace EntryRoundRobin

variable {W : Type} [Field W] [LinearOrder W]

/-- The stale timer of the element expires. -/
def CacheElement.expires (isGood : Bool) (myNow : W) (c : CacheElement W) : Prop :=
  isGood = false ∧ 0 ≤ c.theLastUpdated ∧
    (if c.theProbing then c.updateStalePeriod else c).theStalePeriod ≤ myNow - c.theLastUpdated

instance (isGood : Bool) (myNow : W) (c : CacheElement W) : Decidable (c.expires isGood myNow) :=
  inferInstanceAs (Decidable (_ ∧ _ ∧ _))

theorem CacheElement.expires_deficit (isGood : Bool) (myNow x : W) (c : CacheElement W) :
    CacheElement.expires isGood myNow { c with theDeficit := x } ↔ c.expires isGood myNow := by
  unfold expires
  cases hprobing : c.theProbing <;> exact Iff.rfl

/-- Only an element whose timer expires gets another deficit. -/
theorem CacheElement.refresh_deficit (isGood : Bool) (myNow myMinDeficit : W) (c : CacheElement W) :
    (c.refresh isGood myNow myMinDeficit).1.theDeficit =
      if c.expires isGood myNow then myMinDeficit else c.theDeficit := by
  cases isGood with
  | true =>
    rw [if_neg fun h => absurd h.1 nofun]
    change (if c.theProbing then { c with theProbing := false }.resetStalePeriod else c).theDeficit = _
    split <;> rfl
  | false =>
    by_cases hnever : c.theLastUpdated < 0
    · rw [refresh, if_neg Bool.false_ne_true, if_pos hnever, if_neg fun h => not_lt.mpr h.2.1 hnever]
    have hperiod : (if c.theProbing then { c with theProbing := false }.updateStalePeriod
        else c).theStalePeriod = (if c.theProbing then c.updateStalePeriod else c).theStalePeriod := by
      split <;> rfl
    rw [refresh, if_neg Bool.false_ne_true, if_neg hnever]
    dsimp only
    rw [hperiod]
    by_cases hexpired : myNow - c.theLastUpdated ≥
        (if c.theProbing then c.updateStalePeriod else c).theStalePeriod
    · have hexpires : c.expires false myNow := ⟨rfl, not_lt.mp hnever, hexpired⟩
      rw [if_pos hexpired, if_pos hexpires]
    · have hrunning : ¬ c.expires false myNow := fun h => hexpired h.2.2
      rw [if_neg hexpired, if_neg hrunning]
      split <;> rfl

section Minimum

variable {theMax : W} {r : Reading W} {s : State W}

omit [Field W] in
/-- The minimum computed is that of the active destinations, or the largest number. -/
theorem le_minDeficit {v : W} :
    v ≤ minDeficit theMax r s ↔ v ≤ theMax ∧ ∀ k ∈ s.theQueue, v ≤ deficit r s k :=
  Leaders.le_foldl_min

omit [Field W] in
theorem minDeficit_le (theMax : W) (r : Reading W) (s : State W) {k : String} (h : k ∈ s.theQueue) : minDeficit theMax r s ≤ deficit r s k :=
  (le_minDeficit.mp le_rfl).2 k h

omit [Field W] in
theorem minDeficit_cases (theMax : W) (r : Reading W) (s : State W) :
    minDeficit theMax r s = theMax ∨ ∃ k ∈ s.theQueue, minDeficit theMax r s = deficit r s k :=
  Leaders.foldl_min_cases (deficit r s) s.theQueue theMax

omit [Field W] [LinearOrder W] in
theorem deficit_of_lookup {k : String} {c : CacheElement W} (h : s.theCache[k]? = some c) :
    deficit r s k = c.theDeficit := by
  rw [deficit, h]

end Minimum

/-- The state in which a weight update looks for the minimum. -/
def touched (r : Reading W) (aDest : String) (aWeight : W) (s : State W) : State W :=
  { s with theCache := s.theCache.modify aDest (.touch aWeight r.myUpdate) }

/-- The state once the minimum is subtracted. -/
def lowered (m : W) (s : State W) : State W :=
  { s with theCache := s.theCache.map fun _ c => { c with theDeficit := c.theDeficit - m } }

variable (aStat : SummaryStat W) (theMax : W)

/-- The stale timer of an element expires in an update of the active set. -/
def Expires (r : Reading W) (s : State W) (c : CacheElement W) : Prop :=
  c.expires (good aStat (updateStat aStat s) c.theWeight) r.myNow

instance (r : Reading W) (s : State W) (c : CacheElement W) : Decidable (Expires aStat r s c) :=
  inferInstanceAs (Decidable (c.expires _ _))

/-- No deficit is negative and the smallest one is zero. -/
def Level (s : State W) : Prop :=
  (∀ (k : String) (c : CacheElement W), s.theCache[k]? = some c → 0 ≤ c.theDeficit) ∧
    ∃ (k : String) (c : CacheElement W), s.theCache[k]? = some c ∧ c.theDeficit = 0

/-- The minimum that a weight update computes is the smallest deficit in the cache, where
an inactive destination whose stale timer expires in this very update does not count. -/
def Least (r : Reading W) (aDest : String) (aWeight : W) (s : State W) : Prop :=
  let s := touched r aDest aWeight s
  (∀ (k : String) (c : CacheElement W), s.theCache[k]? = some c → ¬ Expires aStat r s c →
    minDeficit theMax r s ≤ c.theDeficit) ∧
  ∃ (k : String) (c : CacheElement W), s.theCache[k]? = some c ∧
    (k ∈ s.theQueue ∨ ¬ Expires aStat r s c) ∧ c.theDeficit = minDeficit theMax r s

variable {aStat theMax} {r : Reading W} {s : State W}

theorem lookup_updateActiveSet (k : String) : (updateActiveSet aStat theMax r s).theCache[k]? =
    (s.theCache[k]?).map fun c => (c.refresh (good aStat (updateStat aStat s) c.theWeight) r.myNow
      (minDeficit theMax r s)).1 :=
  ExtTreeMap.getElem?_map

/-- The deficits after an update of the active set. -/
theorem deficit_updateActiveSet (aStat : SummaryStat W) (theMax : W) (r : Reading W) {k : String} {c : CacheElement W} (h : s.theCache[k]? = some c) :
    ∃ c', (updateActiveSet aStat theMax r s).theCache[k]? = some c' ∧ c'.theDeficit =
      if c.expires (good aStat (updateStat aStat s) c.theWeight) r.myNow then minDeficit theMax r s
      else c.theDeficit := by
  refine ⟨_, by rw [lookup_updateActiveSet, h, Option.map_some], ?_⟩
  exact CacheElement.refresh_deficit _ _ _ c

theorem updateStat_lowered (m : W) : updateStat aStat (lowered m s) = updateStat aStat s := by
  rw [updateStat, updateStat, lowered, ExtTreeMap.toList_map, List.filter_map, List.map_map]
  rfl

section Update

variable [IsStrictOrderedRing W]

/-- Once the minimum is subtracted, what is left of it is not negative, and it is zero
exactly if an active destination has it. -/
theorem minDeficit_lowered (hmax : 0 < theMax) (h : Handles.Live s.theCache s.theQueue) :
    0 ≤ minDeficit theMax r (lowered (minDeficit theMax r s) s) ∧
      (minDeficit theMax r (lowered (minDeficit theMax r s) s) = 0 ↔
        ∃ k ∈ s.theQueue, deficit r s k = minDeficit theMax r s) := by
  have hlowered {k : String} (hk : k ∈ s.theQueue) :
      deficit r (lowered (minDeficit theMax r s) s) k = deficit r s k - minDeficit theMax r s := by
    obtain ⟨c, hc⟩ := Maps.lookup_of_mem (h k hk)
    have hc' : (lowered (minDeficit theMax r s) s).theCache[k]? =
        some { c with theDeficit := c.theDeficit - minDeficit theMax r s } := by
      rw [lowered, ExtTreeMap.getElem?_map, hc, Option.map_some]
    rw [deficit_of_lookup hc', deficit_of_lookup hc]
  have hnonneg : 0 ≤ minDeficit theMax r (lowered (minDeficit theMax r s) s) := by
    refine le_minDeficit.mpr ⟨hmax.le, fun k hk => ?_⟩
    rw [hlowered hk]
    exact sub_nonneg.mpr (minDeficit_le theMax r s hk)
  refine ⟨hnonneg, fun hzero => ?_, fun ⟨k, hk, hleast⟩ => ?_⟩
  · rcases minDeficit_cases theMax r (lowered (minDeficit theMax r s) s) with htop | ⟨k, hk, hleast⟩
    · exact absurd (htop.symm.trans hzero) hmax.ne'
    · rw [hlowered hk] at hleast
      exact ⟨k, hk, sub_eq_zero.mp (hleast.symm.trans hzero)⟩
  · refine le_antisymm ?_ hnonneg
    have hle := minDeficit_le theMax r (lowered (minDeficit theMax r s) s) hk
    rw [hlowered hk, hleast, sub_self] at hle
    exact hle

/-- A weight update levels the deficits exactly if it finds the smallest one. -/
theorem level_updateWeight_iff (hmax : 0 < theMax) (h : Handles.Live s.theCache s.theQueue)
    (r : Reading W) (aDest : String) (aWeight : W) :
    Level (updateWeight aStat theMax r aDest aWeight s) ↔ Least aStat theMax r aDest aWeight s := by
  have hlive : Handles.Live (touched r aDest aWeight s).theCache (touched r aDest aWeight s).theQueue :=
    h.of_mem fun k hk => ExtTreeMap.mem_modify.mpr hk
  change Level (updateActiveSet aStat theMax r
    (lowered (minDeficit theMax r (touched r aDest aWeight s)) (touched r aDest aWeight s))) ↔ _
  rw [Least]
  generalize touched r aDest aWeight s = s at hlive ⊢
  obtain ⟨hnonneg, hzero⟩ := minDeficit_lowered (r := r) hmax hlive
  let m := minDeficit theMax r s
  let after := updateActiveSet aStat theMax r (lowered m s)
  have hafter {k : String} {c : CacheElement W} (hc : s.theCache[k]? = some c) :
      ∃ c', after.theCache[k]? = some c' ∧ c'.theDeficit =
        if Expires aStat r s c then minDeficit theMax r (lowered m s) else c.theDeficit - m := by
    have hc' : (lowered m s).theCache[k]? = some { c with theDeficit := c.theDeficit - m } := by
      rw [lowered, ExtTreeMap.getElem?_map, hc, Option.map_some]
    obtain ⟨c', hlookup, hdeficit⟩ := deficit_updateActiveSet aStat theMax r hc'
    refine ⟨c', hlookup, hdeficit.trans ?_⟩
    rw [updateStat_lowered]
    exact if_congr (CacheElement.expires_deficit _ _ _ c) rfl rfl
  have hbefore {k : String} {c' : CacheElement W} (hc' : after.theCache[k]? = some c') :
      ∃ c, s.theCache[k]? = some c := by
    have hmem : k ∈ after.theCache := Maps.mem_of_lookup hc'
    exact Maps.lookup_of_mem (ExtTreeMap.mem_map.mp (ExtTreeMap.mem_map.mp hmem))
  constructor
  · rintro ⟨hall, k, c', hc', hlevel⟩
    obtain ⟨c, hc⟩ := hbefore hc'
    obtain ⟨c'', hc'', hdeficit⟩ := hafter hc
    cases hc'.symm.trans hc''
    refine ⟨fun k c hc hrunning => ?_, ?_⟩
    · obtain ⟨c', hc', hdeficit⟩ := hafter hc
      have hle := hall k c' hc'
      rw [hdeficit, if_neg hrunning] at hle
      exact sub_nonneg.mp hle
    · rw [hdeficit] at hlevel
      by_cases hexpires : Expires aStat r s c
      · rw [if_pos hexpires] at hlevel
        obtain ⟨k', hk', hleast⟩ := hzero.mp hlevel
        obtain ⟨c', hc'⟩ := Maps.lookup_of_mem (hlive k' hk')
        rw [deficit_of_lookup hc'] at hleast
        exact ⟨k', c', hc', .inl hk', hleast⟩
      · rw [if_neg hexpires] at hlevel
        exact ⟨k, c, hc, .inr hexpires, sub_eq_zero.mp hlevel⟩
  · rintro ⟨hall, k, c, hc, hcounts, hleast⟩
    refine ⟨fun k c' hc' => ?_, ?_⟩
    · obtain ⟨c, hc⟩ := hbefore hc'
      obtain ⟨c'', hc'', hdeficit⟩ := hafter hc
      cases hc'.symm.trans hc''
      rw [hdeficit]
      split
      · exact hnonneg
      · next hrunning => exact sub_nonneg.mpr (hall k c hc hrunning)
    · obtain ⟨c', hc', hdeficit⟩ := hafter hc
      refine ⟨k, c', hc', hdeficit.trans ?_⟩
      split
      · next hexpires =>
        have hactive := hcounts.resolve_right (not_not.mpr hexpires)
        exact hzero.mpr ⟨k, hactive, (deficit_of_lookup hc).trans hleast⟩
      · exact sub_eq_zero.mpr hleast

end Update

/-- No deficit is negative. -/
def Solvent (theCache : ExtTreeMap String (CacheElement W)) : Prop :=
  ∀ (k : String) (c : CacheElement W), theCache[k]? = some c → 0 ≤ c.theDeficit

section Solvent

theorem Solvent.minDeficit (h : Solvent s.theCache) (hmax : 0 ≤ theMax) (hlive : Handles.Live s.theCache s.theQueue) :
    0 ≤ EntryRoundRobin.minDeficit theMax r s := by
  refine le_minDeficit.mpr ⟨hmax, fun k hk => ?_⟩
  obtain ⟨c, hc⟩ := Maps.lookup_of_mem (hlive k hk)
  rw [deficit_of_lookup hc]
  exact h k c hc

theorem Solvent.updateActiveSet (h : Solvent s.theCache) (hmax : 0 ≤ theMax)
    (hlive : Handles.Live s.theCache s.theQueue) :
    Solvent (EntryRoundRobin.updateActiveSet aStat theMax r s).theCache := by
  intro k c' hc'
  obtain ⟨c, hc⟩ := Maps.lookup_of_mem (ExtTreeMap.mem_map.mp (Maps.mem_of_lookup hc'))
  obtain ⟨c'', hc'', hdeficit⟩ := deficit_updateActiveSet aStat theMax r hc
  cases hc'.symm.trans hc''
  rw [hdeficit]
  split
  · exact Solvent.minDeficit h hmax hlive
  · exact h k c hc

omit [LinearOrder W] in
/-- What holds of new elements, and does not depend on weights and marks, holds of all those
inserted. -/
theorem forall_insertElement {Q : String → CacheElement W → Prop} {m : W}
    (hnew : ∀ k w, Q k (.new w m))
    (hweight : ∀ k c w, Q k c → Q k { c with theRemoved := false, theWeight := w })
    (xs : List (Element W)) {theCache : ExtTreeMap String (CacheElement W)}
    (h : ∀ (k : String) (c : CacheElement W), theCache[k]? = some c → Q k c) :
    ∀ (k : String) (c : CacheElement W), (xs.foldl (insertElement m) theCache)[k]? = some c → Q k c := by
  induction xs generalizing theCache with
  | nil => exact h
  | cons x xs ih =>
    rw [List.foldl_cons]
    apply ih
    intro k c hc
    unfold insertElement at hc
    split at hc
    · rw [Maps.lookup_insert] at hc
      split at hc
      · cases hc
        exact hnew k x.theWeight
      · exact h k c hc
    · next c' hc' =>
      rw [Maps.lookup_insert] at hc
      split at hc
      · next hk =>
        cases hc
        exact hweight k c' x.theWeight (h k c' (hk ▸ hc'))
      · exact h k c hc

/-- As long as no active destination is erased, new ones start with what is the least. -/
theorem Solvent.updateList (h : Solvent s.theCache) (hmax : 0 ≤ theMax)
    (hlive : Handles.Live s.theCache s.theQueue) {e : Entry W}
    (hpos : ∀ aDest x, e.find aDest = some x → 0 < x.theWeight)
    (hlisted : ∀ k ∈ s.theQueue, (e.find k).isSome) :
    Solvent (EntryRoundRobin.updateList aStat theMax r e s).theCache := by
  unfold EntryRoundRobin.updateList
  split
  · intro k c hc
    simp at hc
  let marked : State W :=
    { s with theCache := s.theCache.map fun _ c => { c with theRemoved := true } }
  have hmarked : Solvent marked.theCache := by
    intro k c hc
    simp only [marked, ExtTreeMap.getElem?_map] at hc
    obtain ⟨c', hc', rfl⟩ := Option.map_eq_some_iff.mp hc
    exact h k c' hc'
  have hm : 0 ≤ EntryRoundRobin.minDeficit theMax r marked :=
    Solvent.minDeficit hmarked hmax (hlive.of_mem fun k hk => ExtTreeMap.mem_map.mpr hk)
  apply Solvent.updateActiveSet _ hmax
  · exact (Handles.live_iff_listed (caches_updateList e hpos s.theCache _)).mpr hlisted
  · intro k c hc
    rw [ExtTreeMap.getElem?_filter', Option.filter_eq_some_iff] at hc
    exact forall_insertElement (Q := fun _ c => 0 ≤ c.theDeficit) (fun _ _ => hm) (fun _ _ _ h => h)
      e.theDestinations hmarked k c hc.1

variable [IsStrictOrderedRing W]

theorem Solvent.operator {e : Entry W} {s' : State W} {d : String} (h : Solvent s.theCache)
    (hfits : Fits e s) (hop : EntryRoundRobin.operator r s = .ok (d, s')) : Solvent s'.theCache := by
  unfold EntryRoundRobin.operator at hop
  split at hop
  · cases hop
  cases hop
  intro k c hc
  rw [Maps.lookup_modify] at hc
  split at hc
  · obtain ⟨c', hc', rfl⟩ := Option.map_eq_some_iff.mp hc
    obtain ⟨x, hx, hweight⟩ := hfits.caches.listed hc'
    have hpos := hfits.caches.positive k x hx
    exact add_nonneg (h k c' hc') (hweight ▸ hpos.le)
  · exact h k c hc

end Solvent

section Calls

variable [IsStrictOrderedRing W] (aStat theMax)

/-- The weight update that a call makes, if any: what it reads, of which destination and
to which weight. -/
def weightUpdate (e : PolicyEntry (policy aStat theMax)) :
    PolicyEntry.Call (policy aStat theMax) → Option (Reading W × String × W)
  | .change r aDest aWeight _ | .changeWeight r aDest aWeight =>
    if ¬ (aDest = "" ∨ aWeight ≤ 0) ∧ (e.entry.find aDest).isSome then some (r, aDest, aWeight)
    else none
  | .remove _ _ | .operator _ => none

/-- After a weight update the deficits are level, and no destination is chosen with a
negative one. -/
def Settles (e : PolicyEntry (policy aStat theMax)) (c : PolicyEntry.Call (policy aStat theMax)) : Prop :=
  (∀ u ∈ weightUpdate aStat theMax e c, Level (e.step c).state) ∧
  ∀ r, c = .operator r → ∀ d s, operator r e.state = .ok (d, s) → 0 ≤ deficit r e.state d

/-- A weight update finds the smallest deficit. -/
def Finds (e : PolicyEntry (policy aStat theMax)) (c : PolicyEntry.Call (policy aStat theMax)) : Prop :=
  ∀ u ∈ weightUpdate aStat theMax e c, Least aStat theMax u.1 u.2.1 u.2.2 e.state

variable {aStat theMax} {e : PolicyEntry (policy aStat theMax)} {c : PolicyEntry.Call (policy aStat theMax)}

/-- A call that updates a weight does no more than that to what is kept. -/
theorem state_of_weightUpdate {u : Reading W × String × W} (h : weightUpdate aStat theMax e c = some u) :
    (e.step c).state = updateWeight aStat theMax u.1 u.2.1 u.2.2 e.state := by
  cases c with
  | change r d w f =>
    rw [weightUpdate] at h
    split at h
    case isFalse => cases h
    next hu =>
    cases h
    obtain ⟨hr, -⟩ | ⟨-, hpos, ⟨x, hx, hstep⟩ | ⟨hx, -⟩⟩ := e.change_cases r d w f
    · exact absurd hr hu.1
    · rw [hstep]
      rfl
    · rw [hx] at hu
      exact absurd hu.2 nofun
  | changeWeight r d w =>
    rw [weightUpdate] at h
    split at h
    case isFalse => cases h
    next hu =>
    cases h
    obtain ⟨hr, -⟩ | ⟨-, hpos, x, hx, hstep⟩ := e.changeWeight_cases r d w
    · rcases hr with hd | hw | hx
      · exact absurd (.inl hd) hu.1
      · exact absurd (.inr hw) hu.1
      · rw [hx] at hu
        exact absurd hu.2 nofun
    · rw [hstep]
      rfl
  | remove r d => cases h
  | operator r => cases h

theorem level_step_iff (hmax : 0 < theMax) (h : Handles.Fresh e) :
    (∀ u ∈ weightUpdate aStat theMax e c, Level (e.step c).state) ↔ Finds aStat theMax e c := by
  refine forall₂_congr fun u hu => ?_
  rw [state_of_weightUpdate hu]
  exact level_updateWeight_iff hmax h u.1 u.2.1 u.2.2

/-- Where the smallest deficit is found and nothing is removed, none becomes negative. -/
theorem solvent_step (hmax : 0 < theMax) (h : Handles.Fresh e) (hs : Solvent (State.theCache e.state))
    (hfinds : Finds aStat theMax e c) (hkeeps : ∀ r d, c ≠ .remove r d) :
    Solvent (State.theCache (e.step c).state) := by
  cases hu : weightUpdate aStat theMax e c with
  | some u => exact ((level_step_iff hmax h).mpr hfinds u hu).1
  | none =>
    cases c with
    | change r d w f =>
      obtain ⟨-, hstep⟩ | ⟨hr, hpos, ⟨x, hx, -⟩ | ⟨hx, hstep⟩⟩ := e.change_cases r d w f
      · rw [hstep]
        exact hs
      · rw [weightUpdate, if_pos ⟨hr, by rw [hx]; rfl⟩] at hu
        cases hu
      · rw [hstep]
        have hfits := (e.append r ⟨d, w, f⟩ hx hpos).fits
        refine Solvent.updateList hs hmax.le h hfits.caches.positive fun k hk => ?_
        rw [Entry.find_append]
        split
        · rfl
        · exact h.listed k hk
    | changeWeight r d w =>
      obtain ⟨-, hstep⟩ | ⟨hr, hpos, x, hx, -⟩ := e.changeWeight_cases r d w
      · rw [hstep]
        exact hs
      · rw [weightUpdate, if_pos ⟨hr, by rw [hx]; rfl⟩] at hu
        cases hu
    | remove r d => exact absurd rfl (hkeeps r d)
    | operator r =>
      obtain ⟨-, hstep⟩ | ⟨d, s, hop, -, hstate⟩ := e.choice_cases r
      · rw [hstep]
        exact hs
      · rw [hstate]
        exact Solvent.operator hs e.fits hop

/-- The destination chosen is in the cache. -/
theorem choice_solvent (h : Handles.Fresh e) (hs : Solvent (State.theCache e.state)) {r : Reading W}
    {d : String} {s : State W} (hop : operator r e.state = .ok (d, s)) : 0 ≤ deficit r e.state d := by
  unfold operator at hop
  split at hop
  · cases hop
  next d' hd =>
  cases hop
  obtain ⟨c, hc⟩ := Maps.lookup_of_mem (h d (List.mem_rotate.mp (List.argmin_mem hd)))
  rw [deficit_of_lookup hc]
  exact hs d c hc

end Calls

/-- Two destinations; the second one is inactive while the first one is chosen and its
weight is learnt again. -/
private def frozen (theWeights : List (String × ℚ)) :
    List (PolicyEntry.Call (policy TypedTable.rationals.aStat TypedTable.rationals.theMax)) :=
  let r : Reading ℚ := ⟨0, 0, fun _ => 0, 0⟩
  [.change r "dest1:666" 1 true, .change r "dest2:666" 1 true] ++
    theWeights.flatMap fun p => [.changeWeight r p.1 p.2, .operator r]

private theorem frozen_keeps (theWeights : List (String × ℚ)) :
    ∀ c ∈ frozen theWeights, ∀ r d, c ≠ .remove r d := by
  intro c hc r d
  rcases List.mem_append.mp hc with hc | hc
  · simp only [List.mem_cons, List.not_mem_nil, or_false] at hc
    rintro rfl
    rcases hc with hc | hc <;> cases hc
  · obtain ⟨p, -, hp⟩ := List.mem_flatMap.mp hc
    simp only [List.mem_cons, List.not_mem_nil, or_false] at hp
    rintro rfl
    rcases hp with hp | hp <;> cases hp

/-- The entry before the last weight update. -/
private def beforeUpdate : PolicyEntry (policy TypedTable.rationals.aStat TypedTable.rationals.theMax) :=
  Runs.final PolicyEntry.step .new (frozen [("dest2:666", 10)])

private def lastUpdate :
    PolicyEntry.Call (policy TypedTable.rationals.aStat TypedTable.rationals.theMax) :=
  .changeWeight (⟨0, 0, fun _ => 0, 0⟩ : Reading ℚ) "dest1:666" 1

private theorem lastUpdate_deficit : ((State.theCache (beforeUpdate.step lastUpdate).state)["dest2:666"]?).map
    CacheElement.theDeficit = some (-1) := by
  decide +kernel

private theorem lastUpdate_listed : (beforeUpdate.entry.find "dest1:666").isSome := by
  decide +kernel

/-- After two more rounds the destination is active again, four choices behind. -/
example : let e := Runs.final PolicyEntry.step .new (frozen [("dest2:666", 10), ("dest1:666", 1),
      ("dest1:666", 1), ("dest1:666", 1)] ++
      [.changeWeight (⟨0, 0, fun _ => 0, 0⟩ : Reading ℚ) "dest2:666" 1])
    ((State.theCache e.state)["dest1:666"]?.map CacheElement.theDeficit,
      (State.theCache e.state)["dest2:666"]?.map CacheElement.theDeficit,
      State.theQueue e.state) = (some 0, some (-4), ["dest1:666", "dest2:666"]) := by
  decide +kernel

end EntryRoundRobin
end ServerlessEdge.Forwarding
