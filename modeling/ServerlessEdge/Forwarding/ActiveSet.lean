import ServerlessEdge.Forwarding.Deficits

/-! The active destinations of an entry that takes turns: which ones they are after every
call, and which of them is chosen. -/
namespace ServerlessEdge.Forwarding
open Library
open Std (ExtTreeMap)

namespace EntryRoundRobin

variable {W : Type} [Field W] [LinearOrder W]

/-- What the cache and the queue are for a list of destinations, some of which were updated
since they were added. -/
structure Active (e : Entry W) (theUpdated : List String) (s : State W) : Prop where
  cached (d : String) :
    (s.theCache[d]?).map CacheElement.theWeight = (e.find d).map Element.theWeight
  nodup : s.theQueue.Nodup
  listed : ∀ d ∈ s.theQueue, (e.find d).isSome
  empty : s.theQueue = [] ↔ e.theDestinations = []
  good : ∀ x ∈ e.theDestinations, (∀ y ∈ e.theDestinations, x.theWeight ≤ y.theWeight * 2) →
    x.theDestination ∈ s.theQueue
  unused (d : String) (c : CacheElement W) : s.theCache[d]? = some c → d ∉ theUpdated →
    c.theLastUpdated < 0
  new : ∀ x ∈ e.theDestinations, x.theDestination ∉ theUpdated → x.theDestination ∈ s.theQueue
  probing (d : String) (c : CacheElement W) : s.theCache[d]? = some c → c.theProbing = true →
    d ∈ s.theQueue

/-- An element that is not active was used and is not under probing any more. -/
theorem CacheElement.refresh_cases (isGood : Bool) (myNow m : W) (c : CacheElement W) :
    (c.refresh isGood myNow m).2 = true ∨
      (c.refresh isGood myNow m).1.theLastUpdated = c.theLastUpdated ∧ 0 ≤ c.theLastUpdated ∧
        (c.refresh isGood myNow m).1.theProbing = false := by
  cases isGood with
  | true => exact .inl rfl
  | false =>
    by_cases hnever : c.theLastUpdated < 0
    · rw [refresh, if_neg Bool.false_ne_true, if_pos hnever]
      exact .inl rfl
    rw [refresh, if_neg Bool.false_ne_true, if_neg hnever]
    by_cases hexpired : myNow - c.theLastUpdated ≥
        (if c.theProbing then { c with theProbing := false }.updateStalePeriod else c).theStalePeriod
    · exact .inl (by rw [if_pos hexpired])
    · refine .inr ?_
      rw [if_neg hexpired]
      cases hprobing : c.theProbing with
      | true => exact ⟨rfl, not_lt.mp hnever, rfl⟩
      | false => exact ⟨rfl, not_lt.mp hnever, hprobing⟩

/-- An element that was never used, or is under probing, is active. -/
theorem CacheElement.refresh_waiting {isGood : Bool} {myNow m : W} {c : CacheElement W}
    (h : c.theLastUpdated < 0 ∨ (c.refresh isGood myNow m).1.theProbing = true) :
    (c.refresh isGood myNow m).2 = true := by
  rcases c.refresh_cases isGood myNow m with hactive | ⟨-, hused, hprobing⟩
  · exact hactive
  · rcases h with hnever | hp
    · exact absurd hnever (not_lt.mpr hused)
    · exact absurd (hprobing.symm.trans hp) nofun

theorem CacheElement.refresh_lastUpdated {isGood : Bool} {myNow m : W} {c : CacheElement W}
    (h : c.theLastUpdated < 0) : (c.refresh isGood myNow m).1.theLastUpdated = c.theLastUpdated := by
  cases isGood with
  | true =>
    change (if c.theProbing then { c with theProbing := false }.resetStalePeriod else c).theLastUpdated = _
    split <;> rfl
  | false => rw [refresh, if_neg Bool.false_ne_true, if_pos h]

section Update

variable {aStat : SummaryStat W} {theMax : W} {r : Reading W} {s : State W} {e : Entry W}

/-- An element is active if it is found so when it is looked at. -/
theorem mem_queue_updateActiveSet {d : String} : d ∈ (updateActiveSet aStat theMax r s).theQueue ↔
    ∃ c, s.theCache[d]? = some c ∧ (c.refresh (good aStat (updateStat aStat s) c.theWeight) r.myNow
      (minDeficit theMax r s)).2 = true := by
  rw [updateActiveSet]
  constructor
  · intro hd
    obtain ⟨p, hp, rfl⟩ := List.mem_map.mp hd
    obtain ⟨hcached, hactive⟩ := List.mem_filter.mp hp
    exact ⟨p.2, Maps.mem_toList.mp hcached, hactive⟩
  · rintro ⟨c, hc, hactive⟩
    exact List.mem_map.mpr ⟨(d, c), List.mem_filter.mpr ⟨Maps.mem_toList.mpr hc, hactive⟩, rfl⟩

theorem nodup_updateActiveSet : (updateActiveSet aStat theMax r s).theQueue.Nodup := by
  rw [updateActiveSet]
  exact (Maps.nodup_keys s.theCache).sublist (List.filter_sublist.map Prod.fst)

theorem good_of_least (h : Caches e s.theCache) {w : W}
    (hw : ∀ y ∈ e.theDestinations, w ≤ y.theWeight * 2) {d : String} (hd : d ∈ s.theCache) :
    good aStat (updateStat aStat s) w = true := by
  obtain ⟨k, c, hc, hmin⟩ := min_updateStat aStat h hd
  obtain ⟨x, hx, hxw⟩ := h.listed hc
  rw [good, decide_eq_true_iff, hmin, ← hxw]
  exact .inr (hw x (List.mem_of_find?_eq_some hx))

/-- What a new active set consists of. -/
theorem active_updateActiveSet [IsStrictOrderedRing W] {theUpdated : List String}
    (h : Caches e s.theCache) (hnew : ∀ (d : String) (c : CacheElement W), s.theCache[d]? = some c →
      d ∉ theUpdated → c.theLastUpdated < 0) :
    Active e theUpdated (updateActiveSet aStat theMax r s) := by
  have hfits : Fits e (updateActiveSet aStat theMax r s) := fits_updateActiveSet h r
  have hactive {d : String} {c : CacheElement W} (hc : s.theCache[d]? = some c)
      (hc' : (c.refresh (good aStat (updateStat aStat s) c.theWeight) r.myNow
        (minDeficit theMax r s)).2 = true) :
      d ∈ (updateActiveSet aStat theMax r s).theQueue := mem_queue_updateActiveSet.mpr ⟨c, hc, hc'⟩
  have hcached {x : Element W} (hx : x ∈ e.theDestinations) :
      ∃ c, s.theCache[x.theDestination]? = some c ∧ c.theWeight = x.theWeight := by
    obtain ⟨c, hc⟩ := h.cached (Entry.find_of_mem hx)
    obtain ⟨y, hy, hweight⟩ := h.listed hc
    rw [Entry.find_of_mem hx, Option.some.injEq] at hy
    exact ⟨c, hc, hy ▸ hweight.symm⟩
  refine ⟨hfits.caches.weights, nodup_updateActiveSet, fun d hd => ?_, ?_, fun x hx hleast => ?_,
    fun d c' hc' hnever => ?_, fun x hx hnever => ?_, fun d c' hc' hprobing => ?_⟩
  · obtain ⟨c, hc, -⟩ := mem_queue_updateActiveSet.mp hd
    obtain ⟨x, hx, -⟩ := h.listed hc
    rw [hx]
    rfl
  · rw [← hfits.active, Entry.empty, List.isEmpty_iff]
  · obtain ⟨c, hc, hweight⟩ := hcached hx
    refine hactive hc ?_
    rw [good_of_least h (hweight ▸ hleast) (Maps.mem_of_lookup hc)]
    exact CacheElement.refresh_good _ _ c
  · rw [lookup_updateActiveSet] at hc'
    obtain ⟨c, hc, rfl⟩ := Option.map_eq_some_iff.mp hc'
    rw [CacheElement.refresh_lastUpdated (hnew d c hc hnever)]
    exact hnew d c hc hnever
  · obtain ⟨c, hc, -⟩ := hcached hx
    exact hactive hc (CacheElement.refresh_waiting (.inl (hnew _ c hc hnever)))
  · rw [lookup_updateActiveSet] at hc'
    obtain ⟨c, hc, rfl⟩ := Option.map_eq_some_iff.mp hc'
    exact hactive hc (CacheElement.refresh_waiting (.inr hprobing))

/-- Destinations that are not listed do not matter. -/
theorem Active.congr {us us' : List String} (h : Active e us s)
    (hsame : ∀ d, (e.find d).isSome → d ∉ us' → d ∉ us) : Active e us' s where
  cached := h.cached
  nodup := h.nodup
  listed := h.listed
  empty := h.empty
  good := h.good
  unused d c hc hd := by
    refine h.unused d c hc (hsame d ?_ hd)
    rw [← Option.isSome_map (f := Element.theWeight), ← h.cached, hc]
    rfl
  new x hx hd := h.new x hx (hsame _ ((e.find_isSome_iff _).mpr (List.mem_map_of_mem hx)) hd)
  probing := h.probing

variable [IsStrictOrderedRing W]

theorem active_updateWeight {us : List String} (h : Active e us s) (hfits : Fits e s) {d : String}
    {f : Element W → Element W} (hf : ∀ x, (f x).theDestination = x.theDestination) {w : W}
    (hw : ∀ x, (f x).theWeight = w) (hpos : 0 < w) :
    Active (e.rewrite d f hf) (d :: us) (updateWeight aStat theMax r d w s) := by
  refine active_updateActiveSet ((hfits.caches.rewrite hf hw hpos r.myUpdate).of_map fun _ _ => rfl) ?_
  intro k c hc hk
  rw [List.mem_cons, not_or] at hk
  rw [ExtTreeMap.getElem?_map, Maps.lookup_modify, if_neg hk.1] at hc
  obtain ⟨c', hc', rfl⟩ := Option.map_eq_some_iff.mp hc
  exact h.unused k c' hc' hk.2

theorem active_updateList {e' : Entry W} {us : List String} (h : Active e us s)
    (hpos : ∀ aDest x, e'.find aDest = some x → 0 < x.theWeight) :
    Active e' us (updateList aStat theMax r e' s) := by
  unfold updateList
  split
  · next hempty =>
    have hnone := (Entry.empty_iff e').mp hempty
    rw [Entry.empty, List.isEmpty_iff] at hempty
    refine ⟨fun d => ?_, List.nodup_nil, nofun, by simp [hempty], by simp [hempty], fun d c hc => ?_,
      by simp [hempty], fun d c hc => ?_⟩
    · rw [hnone, ExtTreeMap.getElem?_empty]
      rfl
    · rw [ExtTreeMap.getElem?_empty] at hc
      cases hc
    · rw [ExtTreeMap.getElem?_empty] at hc
      cases hc
  · refine active_updateActiveSet (caches_updateList e' hpos s.theCache _) fun k c hc => ?_
    rw [ExtTreeMap.getElem?_filter', Option.filter_eq_some_iff] at hc
    refine forall_insertElement (Q := fun k c => k ∉ us → c.theLastUpdated < 0)
      (fun _ _ _ => neg_one_lt_zero) (fun _ _ _ hc => hc) e'.theDestinations ?_ k c hc.1
    intro k c hc
    rw [ExtTreeMap.getElem?_map] at hc
    obtain ⟨c', hc', rfl⟩ := Option.map_eq_some_iff.mp hc
    exact h.unused k c' hc'

/-- A choice is of an active destination with the least deficit, which grows by its weight
while nothing else changes. -/
structure Charges (s : State W) (d : String) (s' : State W) (c : CacheElement W) : Prop where
  cached : s.theCache[d]? = some c
  active : d ∈ s.theQueue
  least : ∀ k ∈ s.theQueue, ∀ c' ∈ s.theCache[k]?, c.theDeficit ≤ c'.theDeficit
  queue : s'.theQueue = s.theQueue
  charged (k : String) : s'.theCache[k]? =
    if k = d then some { c with theDeficit := c.theDeficit + c.theWeight } else s.theCache[k]?

omit [IsStrictOrderedRing W] in
theorem charges_of_operator {s' : State W} {d : String} (h : ∀ k ∈ s.theQueue, k ∈ s.theCache)
    (hop : operator r s = .ok (d, s')) : ∃ c, Charges s d s' c := by
  unfold operator at hop
  split at hop
  · cases hop
  next d' hd =>
  cases hop
  have hactive := List.mem_rotate.mp (List.argmin_mem hd)
  obtain ⟨c, hc⟩ := Maps.lookup_of_mem (h d hactive)
  refine ⟨c, hc, hactive, fun k hk c' hc' => ?_, rfl, fun k => ?_⟩
  · have hle := List.le_of_mem_argmin (List.mem_rotate.mpr hk) hd
    rw [deficit_of_lookup hc, deficit_of_lookup hc'] at hle
    exact hle
  · rw [Maps.lookup_modify]
    split
    · next hk => rw [hk, hc, Option.map_some]
    · rfl

omit [IsStrictOrderedRing W] in
theorem Active.live {us : List String} (h : Active e us s) : ∀ k ∈ s.theQueue, k ∈ s.theCache := by
  intro k hk
  have hlisted := h.listed k hk
  rw [← Option.isSome_map (f := Element.theWeight), ← h.cached, Option.isSome_map] at hlisted
  exact ExtTreeMap.isSome_getElem?_iff_mem.mp hlisted

omit [IsStrictOrderedRing W] in
/-- Nothing that makes a destination active depends on its deficit. -/
theorem Active.charged {us : List String} {s' : State W} {d : String} {c : CacheElement W}
    (h : Active e us s) (hcharges : Charges s d s' c) : Active e us s' := by
  have hbefore {k : String} {c' : CacheElement W} (hc' : s'.theCache[k]? = some c') :
      ∃ c'', s.theCache[k]? = some c'' ∧ c''.theWeight = c'.theWeight ∧
        c''.theLastUpdated = c'.theLastUpdated ∧ c''.theProbing = c'.theProbing := by
    rw [hcharges.charged] at hc'
    split at hc'
    · next hk =>
      cases hc'
      exact ⟨c, hk ▸ hcharges.cached, rfl, rfl, rfl⟩
    · exact ⟨c', hc', rfl, rfl, rfl⟩
  refine ⟨fun k => ?_, hcharges.queue ▸ h.nodup, hcharges.queue ▸ h.listed, hcharges.queue ▸ h.empty,
    hcharges.queue ▸ h.good, fun k c' hc' => ?_, hcharges.queue ▸ h.new, fun k c' hc' hprobing => ?_⟩
  · rw [hcharges.charged, ← h.cached]
    split
    · next hk => rw [hk, hcharges.cached, Option.map_some, Option.map_some]
    · rfl
  · obtain ⟨c'', hc'', -, hlast, -⟩ := hbefore hc'
    exact hlast ▸ h.unused k c'' hc''
  · obtain ⟨c'', hc'', -, -, hp⟩ := hbefore hc'
    rw [hcharges.queue]
    exact h.probing k c'' hc'' (hp.trans hprobing)

end Update

section Calls

variable [IsStrictOrderedRing W] (aStat : SummaryStat W) (theMax : W)

/-- The destinations updated since they were added, after one more call. -/
def record (e : PolicyEntry (policy aStat theMax)) (c : PolicyEntry.Call (policy aStat theMax))
    (theUpdated : List String) : List String :=
  match weightUpdate aStat theMax e c with
  | some u => u.2.1 :: theUpdated
  | none => match c with
    | .remove _ aDest => theUpdated.filter fun d => d ≠ aDest
    | _ => theUpdated

/-- An entry with the destinations updated since they were added. -/
def watch (p : PolicyEntry (policy aStat theMax) × List String)
    (c : PolicyEntry.Call (policy aStat theMax)) : PolicyEntry (policy aStat theMax) × List String :=
  (p.1.step c, record aStat theMax p.1 c p.2)

/-- Where the call is a choice, there is one exactly if there are destinations, and then
it is charged. -/
def Turns (p : PolicyEntry (policy aStat theMax) × List String) :
    PolicyEntry.Call (policy aStat theMax) → Prop
  | .operator r =>
    p.1.entry.theDestinations = [] ∧ p.1.operator r = .error (.noDestinations none) ∨
    ∃ d e' c, p.1.operator r = .ok (d, e') ∧ e'.entry = p.1.entry ∧ Charges p.1.state d e'.state c
  | _ => True

variable {aStat theMax} {p : PolicyEntry (policy aStat theMax) × List String}
  {e : PolicyEntry (policy aStat theMax)} {us : List String}

/-- An accepted weight of a listed destination is an update. -/
theorem record_change (r : Reading W) (d : String) (w : W) (f : Bool) :
    record aStat theMax e (.change r d w f) us =
      if ¬ (d = "" ∨ w ≤ 0) ∧ (e.entry.find d).isSome then d :: us else us := by
  have hupdate : weightUpdate aStat theMax e (.change r d w f) =
      if ¬ (d = "" ∨ w ≤ 0) ∧ (e.entry.find d).isSome then some (r, d, w) else none := rfl
  rw [record, hupdate]
  by_cases hu : ¬ (d = "" ∨ w ≤ 0) ∧ (e.entry.find d).isSome
  · rw [if_pos hu, if_pos hu]
  · rw [if_neg hu, if_neg hu]
  · exact nofun

theorem record_changeWeight (r : Reading W) (d : String) (w : W) :
    record aStat theMax e (.changeWeight r d w) us =
      if ¬ (d = "" ∨ w ≤ 0) ∧ (e.entry.find d).isSome then d :: us else us :=
  record_change r d w true

theorem active_change (h : Active e.entry us e.state) (r : Reading W) (d : String) (w : W) (f : Bool) :
    Active (e.step (.change r d w f)).entry (record aStat theMax e (.change r d w f) us)
      (e.step (.change r d w f)).state := by
  rw [record_change]
  obtain ⟨hr, hstep⟩ | ⟨hr, hpos, ⟨x, hx, hstep⟩ | ⟨hx, hstep⟩⟩ := e.change_cases r d w f
  · rw [if_neg fun hu => hu.1 hr, hstep]
    exact h
  · rw [if_pos ⟨hr, by rw [hx]; rfl⟩, hstep]
    exact active_updateWeight (f := fun x => { x with theWeight := w, theFinal := f }) h e.fits
      (fun _ => rfl) (fun _ => rfl) hpos
  · have hpositive : ∀ (k : String) (x : Element W),
        (e.entry.append ⟨d, w, f⟩ hx).find k = some x → 0 < x.theWeight :=
      (e.append r ⟨d, w, f⟩ hx hpos).fits.caches.positive
    rw [if_neg fun hu => by rw [hx] at hu; exact absurd hu.2 nofun, hstep]
    exact active_updateList h hpositive

theorem active_changeWeight (h : Active e.entry us e.state) (r : Reading W) (d : String) (w : W) :
    Active (e.step (.changeWeight r d w)).entry (record aStat theMax e (.changeWeight r d w) us)
      (e.step (.changeWeight r d w)).state := by
  rw [record_changeWeight]
  obtain ⟨hr, hstep⟩ | ⟨hr, hpos, x, hx, hstep⟩ := e.changeWeight_cases r d w
  · rw [if_neg, hstep]
    · exact h
    · rintro ⟨haccepted, hlisted⟩
      rcases hr with hd | hw | hx
      · exact haccepted (.inl hd)
      · exact haccepted (.inr hw)
      · rw [hx] at hlisted
        cases hlisted
  · rw [if_pos ⟨hr, by rw [hx]; rfl⟩, hstep]
    exact active_updateWeight (f := fun x => { x with theWeight := w }) h e.fits (fun _ => rfl)
      (fun _ => rfl) hpos

theorem active_remove (h : Active e.entry us e.state) (r : Reading W) (d : String) :
    Active (e.step (.remove r d)).entry (record aStat theMax e (.remove r d) us)
      (e.step (.remove r d)).state := by
  have hrecord : record aStat theMax e (.remove r d) us = us.filter fun k => k ≠ d := rfl
  rw [hrecord]
  have hgone : (e.step (.remove r d)).entry.find d = none := by
    obtain ⟨hx, hstep⟩ | ⟨x, -, hentry, -⟩ := e.remove_cases r d
    · rw [hstep, hx]
    · rw [hentry, Entry.find_remove, if_pos rfl]
  have hactive : Active (e.step (.remove r d)).entry us (e.step (.remove r d)).state := by
    have hpos := (e.step (.remove r d)).fits.caches.positive
    obtain ⟨-, hstep⟩ | ⟨x, -, hentry, hstate⟩ := e.remove_cases r d
    · rw [hstep]
      exact h
    · rw [hentry] at hpos
      rw [hentry, hstate]
      exact active_updateList h hpos
  refine hactive.congr fun k hk hfiltered hmem => hfiltered (List.mem_filter.mpr ⟨hmem, ?_⟩)
  rw [decide_eq_true_iff]
  rintro rfl
  rw [hgone] at hk
  cases hk

theorem active_choice (h : Active e.entry us e.state) (r : Reading W) :
    Active (e.step (.operator r)).entry us (e.step (.operator r)).state := by
  obtain ⟨-, hstep⟩ | ⟨d, s, hop, hentry, hstate⟩ := e.choice_cases r
  · rw [hstep]
    exact h
  · obtain ⟨c, hcharges⟩ := charges_of_operator h.live hop
    rw [hentry, hstate]
    exact h.charged hcharges

theorem active_watch (h : Active p.1.entry p.2 p.1.state) (c : PolicyEntry.Call (policy aStat theMax)) :
    Active (watch aStat theMax p c).1.entry (watch aStat theMax p c).2 (watch aStat theMax p c).1.state := by
  cases c with
  | change r d w f => exact active_change h r d w f
  | changeWeight r d w => exact active_changeWeight h r d w
  | remove r d => exact active_remove h r d
  | operator r => exact active_choice h r

omit [IsStrictOrderedRing W] in
theorem active_new : Active Entry.new [] (⟨∅, []⟩ : State W) := by
  refine ⟨fun d => ?_, List.nodup_nil, nofun, iff_of_true rfl rfl, nofun, fun d c hc => ?_, nofun,
    fun d c hc => ?_⟩
  · rw [ExtTreeMap.getElem?_empty]
    rfl
  · rw [ExtTreeMap.getElem?_empty] at hc
    cases hc
  · rw [ExtTreeMap.getElem?_empty] at hc
    cases hc

theorem turns_of_active (h : Active p.1.entry p.2 p.1.state)
    (c : PolicyEntry.Call (policy aStat theMax)) : Turns aStat theMax p c := by
  cases c with
  | operator r =>
    obtain ⟨hempty, hop⟩ | ⟨-, d, e', hop, hentry⟩ := p.1.operator_cases r
    · exact .inl ⟨List.isEmpty_iff.mp hempty, hop⟩
    · refine .inr ⟨d, e', ?_⟩
      have hchosen := hop
      unfold PolicyEntry.operator at hchosen
      split at hchosen
      · next d' s hs =>
        cases hchosen
        obtain ⟨c, hcharges⟩ := charges_of_operator h.live hs
        exact ⟨c, hop, hentry, hcharges⟩
      · cases hchosen
  | change r d w f | changeWeight r d w | remove r d => trivial

end Calls

/-- A destination goes out of the active set and comes back under probing. -/
private def probed : List (PolicyEntry.Call
    (policy TypedTable.rationals.aStat TypedTable.rationals.theMax)) :=
  let r (t : ℚ) : Reading ℚ := ⟨t, t, fun _ => 0, 0⟩
  [.change (r 0) "dest1:666" 1 true, .change (r 0) "dest2:666" 1 true,
    .changeWeight (r 1) "dest2:666" 10, .operator (r 1), .changeWeight (r 2) "dest1:666" 1,
    .operator (r 2), .remove (r 3) "dest1:666"]

end EntryRoundRobin
end ServerlessEdge.Forwarding
