import ServerlessEdge.Forwarding.EntryPolicy
import ServerlessEdge.Library.Maps
import Mathlib.Algebra.Order.Field.Basic
import Mathlib.Tactic.Linarith
import Mathlib.Data.List.MinMax
import Mathlib.Data.List.Rotate

/-! Entries that take turns. The destinations whose weight is at most twice the
smallest one are active, and of these the one with the least deficit is chosen. -/
namespace ServerlessEdge.Forwarding
open Std Library

/-- A summary of the values recorded since the last reset. -/
structure SummaryStat (W : Type) [LinearOrder W] where
  State : Type
  reset : State
  record : W → State → State
  count : State → ℕ
  min : State → W
  count_record (ws : List W) : count (ws.foldl (fun s w => record w s) reset) = ws.length
  min_record (ws : List W) : ∀ w ∈ ws.min?, min (ws.foldl (fun s w => record w s) reset) = w

namespace EntryRoundRobin

/-- What is kept of a destination; a negative time means that it was not used. -/
structure CacheElement (W : Type) where
  theWeight : W
  theLastUpdated : W
  theRemoved : Bool
  theDeficit : W
  theStalePeriod : W
  theProbing : Bool

/-- The queue is the collection of its handles into the cache. -/
structure State (W : Type) where
  theCache : ExtTreeMap String (CacheElement W)
  theQueue : List String

/-- The readings of the clock when an element is updated and when the active set
is, what a handle to an erased element reads as its deficit, and which one of
several least elements is on top of the queue. -/
structure Reading (W : Type) where
  myUpdate : W
  myNow : W
  erased : String → W
  top : ℕ

variable {W : Type} [Field W] [LinearOrder W]

def initialStalePeriod : W := 1
def backoffCoefficient : W := 2
def maximumStalePeriod : W := 30

namespace CacheElement

def new (aWeight aDeficit : W) : CacheElement W where
  theWeight := aWeight
  theLastUpdated := -1
  theRemoved := false
  theDeficit := aDeficit
  theStalePeriod := initialStalePeriod
  theProbing := false

def resetStalePeriod (c : CacheElement W) : CacheElement W :=
  { c with theStalePeriod := initialStalePeriod }

def updateStalePeriod (c : CacheElement W) : CacheElement W :=
  { c with theStalePeriod := min maximumStalePeriod (backoffCoefficient * c.theStalePeriod) }

/-- The destination was used again: its new weight and when it was learnt. -/
def touch (aWeight myUpdate : W) (c : CacheElement W) : CacheElement W :=
  { c with theWeight := aWeight, theLastUpdated := myUpdate }

/-- The weight of an element and whether it is marked for removal. -/
def mark (c : CacheElement W) : W × Bool := (c.theWeight, c.theRemoved)

/-- What updating the active set makes of an element, and whether it is active. -/
def refresh (isGood : Bool) (myNow myMinDeficit : W) (c : CacheElement W) : CacheElement W × Bool :=
  if isGood then
    (if c.theProbing then { c with theProbing := false }.resetStalePeriod else c, true)
  else if c.theLastUpdated < 0 then (c, true)
  else
    let c' := if c.theProbing then { c with theProbing := false }.updateStalePeriod else c
    if myNow - c.theLastUpdated ≥ c'.theStalePeriod then
      ({ c' with theLastUpdated := -1, theDeficit := myMinDeficit, theProbing := true }, true)
    else (c', false)

theorem refresh_mark (isGood : Bool) (myNow myMinDeficit : W) (c : CacheElement W) :
    (c.refresh isGood myNow myMinDeficit).1.mark = c.mark := by
  unfold refresh resetStalePeriod updateStalePeriod
  split
  · split <;> rfl
  split
  · rfl
  dsimp only
  split <;> split <;> rfl

theorem refresh_good (myNow myMinDeficit : W) (c : CacheElement W) :
    (c.refresh true myNow myMinDeficit).2 = true := rfl

end CacheElement

/-- The deficit read through a handle. -/
def deficit (r : Reading W) (s : State W) (aHandle : String) : W :=
  match s.theCache[aHandle]? with
  | some c => c.theDeficit
  | none => r.erased aHandle

variable (aStat : SummaryStat W) (theMax : W)

/-- The least deficit in the queue, or the largest number if that is empty. -/
def minDeficit (r : Reading W) (s : State W) : W :=
  s.theQueue.foldl (fun myMin aHandle => min myMin (deficit r s aHandle)) theMax

/-- Record the weights of the elements that stay. -/
def updateStat (s : State W) : aStat.State :=
  ((s.theCache.toList.filter fun p => !p.2.theRemoved).map fun p => p.2.theWeight).foldl
    (fun s w => aStat.record w s) aStat.reset

def good (theStat : aStat.State) (aWeight : W) : Bool :=
  aStat.count theStat = 1 ∨ aWeight ≤ aStat.min theStat * 2

/-- Rebuild the queue from the cache. -/
def updateActiveSet (r : Reading W) (s : State W) : State W :=
  let theStat := updateStat aStat s
  let myMinDeficit := minDeficit theMax r s
  let refreshed (c : CacheElement W) := c.refresh (good aStat theStat c.theWeight) r.myNow myMinDeficit
  { theCache := s.theCache.map fun _ c => (refreshed c).1
    theQueue := (s.theCache.toList.filter fun p => (refreshed p.2).2).map Prod.fst }

/-- The smallest deficit is brought down to zero. -/
def updateWeight (r : Reading W) (aDest : String) (aWeight : W) (s : State W) : State W :=
  let s := { s with theCache := s.theCache.modify aDest (.touch aWeight r.myUpdate) }
  let myMinDeficit := minDeficit theMax r s
  let theCache := s.theCache.map fun _ c => { c with theDeficit := c.theDeficit - myMinDeficit }
  updateActiveSet aStat theMax r { s with theCache }

/-- Add the element of a destination or take over its weight. -/
def insertElement (myMinDeficit : W) (theCache : ExtTreeMap String (CacheElement W))
    (x : Element W) : ExtTreeMap String (CacheElement W) :=
  match theCache[x.theDestination]? with
  | none => theCache.insert x.theDestination (.new x.theWeight myMinDeficit)
  | some c =>
    theCache.insert x.theDestination { c with theRemoved := false, theWeight := x.theWeight }

/-- Make the cache hold the destinations of the list. The handles of the old
queue are read once more after their elements were erased. -/
def updateList (r : Reading W) (e : Entry W) (s : State W) : State W :=
  if e.empty then ⟨∅, []⟩
  else
    let s := { s with theCache := s.theCache.map fun _ c => { c with theRemoved := true } }
    let myMinDeficit := minDeficit theMax r s
    let theCache := e.theDestinations.foldl (insertElement myMinDeficit) s.theCache
    let theCache := theCache.filter fun _ c => !c.theRemoved
    updateActiveSet aStat theMax r { s with theCache }

/-- Choose the top of the queue and charge its weight to it. -/
def operator (r : Reading W) (s : State W) : Except (TableError W) (String × State W) :=
  match (s.theQueue.rotate r.top).argmin (deficit r s) with
  | none => .error (.noDestinations none)
  | some myDestination =>
    let theCache := s.theCache.modify myDestination fun c =>
      { c with theDeficit := c.theDeficit + c.theWeight }
    .ok (myDestination, { s with theCache })

/-- The cache holds the destinations of the list with their weights, all of them
positive, and none is marked. -/
structure Caches (e : Entry W) (theCache : ExtTreeMap String (CacheElement W)) : Prop where
  weights (aDest : String) :
    (theCache[aDest]?).map CacheElement.theWeight = (e.find aDest).map Element.theWeight
  positive (aDest : String) (x : Element W) (h : e.find aDest = some x) : 0 < x.theWeight
  unmarked (aDest : String) (c : CacheElement W) (h : theCache[aDest]? = some c) :
    c.theRemoved = false

/-- Besides, there is an active destination if there is any. -/
structure Fits (e : Entry W) (s : State W) : Prop where
  caches : Caches e s.theCache
  active : e.empty = true ↔ s.theQueue = []

section Caches

variable {e : Entry W} {theCache : ExtTreeMap String (CacheElement W)}

/-- Nothing else of the elements matters. -/
theorem Caches.congr {theCache' : ExtTreeMap String (CacheElement W)} (h : Caches e theCache)
    (hsame : ∀ k : String, (theCache'[k]?).map CacheElement.mark = (theCache[k]?).map CacheElement.mark) :
    Caches e theCache' where
  positive := h.positive
  weights k := by
    have hfst := congrArg (Option.map Prod.fst) (hsame k)
    rw [Option.map_map, Option.map_map] at hfst
    exact hfst.trans (h.weights k)
  unmarked k c hc := by
    have hk := hsame k
    rw [hc, Option.map_some, eq_comm, Option.map_eq_some_iff] at hk
    obtain ⟨c', hc', hmark⟩ := hk
    exact (congrArg Prod.snd hmark).symm.trans (h.unmarked k c' hc')

theorem Caches.of_map (h : Caches e theCache) {f : String → CacheElement W → CacheElement W}
    (hf : ∀ k c, (f k c).mark = c.mark) : Caches e (theCache.map f) := by
  apply h.congr
  intro k
  rw [ExtTreeMap.getElem?_map, Option.map_map]
  exact Option.map_congr fun c _ => hf k c

theorem Caches.of_modify (h : Caches e theCache) (aDest : String)
    {f : CacheElement W → CacheElement W} (hf : ∀ c, (f c).mark = c.mark) :
    Caches e (theCache.modify aDest f) := by
  apply h.congr
  intro k
  rw [Maps.lookup_modify]
  split
  · rw [Option.map_map]
    exact Option.map_congr fun c _ => hf c
  · rfl

/-- An element that is in the cache is in the list, with its weight. -/
theorem Caches.listed (h : Caches e theCache) {k : String} {c : CacheElement W}
    (hc : theCache[k]? = some c) : ∃ x, e.find k = some x ∧ x.theWeight = c.theWeight := by
  have hweights := h.weights k
  rw [hc, Option.map_some, eq_comm, Option.map_eq_some_iff] at hweights
  exact hweights

theorem Caches.cached (h : Caches e theCache) {k : String} {x : Element W}
    (hx : e.find k = some x) : ∃ c, theCache[k]? = some c := by
  have hweights := h.weights k
  rw [hx, Option.map_some, Option.map_eq_some_iff] at hweights
  obtain ⟨c, hc, _⟩ := hweights
  exact ⟨c, hc⟩

theorem Caches.rewrite (h : Caches e theCache) {aDest : String} {f : Element W → Element W}
    (hf : ∀ x, (f x).theDestination = x.theDestination) {aWeight : W}
    (hw : ∀ x, (f x).theWeight = aWeight) (hpos : 0 < aWeight) (myUpdate : W) :
    Caches (e.rewrite aDest f hf) (theCache.modify aDest (.touch aWeight myUpdate)) where
  weights k := by
    rw [Entry.find_rewrite, Maps.lookup_modify]
    split
    · next hk =>
      subst hk
      have hsome : (theCache[k]?).isSome = (e.find k).isSome := by
        simpa using congrArg Option.isSome (h.weights k)
      cases hc : theCache[k]? <;> cases hx : e.find k <;> simp_all [CacheElement.touch]
    · exact h.weights k
  positive k x hx := by
    rw [Entry.find_rewrite] at hx
    split at hx
    · obtain ⟨y, _, rfl⟩ := Option.map_eq_some_iff.mp hx
      rw [hw]
      exact hpos
    · exact h.positive k x hx
  unmarked k c hc := by
    rw [Maps.lookup_modify] at hc
    split at hc
    · obtain ⟨c', hc', rfl⟩ := Option.map_eq_some_iff.mp hc
      exact h.unmarked k c' hc'
    · exact h.unmarked k c hc

omit [LinearOrder W] in
/-- Marking every element, adding those of the list and dropping the rest. -/
theorem foldl_insertElement (theCache : ExtTreeMap String (CacheElement W)) (myMinDeficit : W)
    (l : List (Element W))
    (hl : (l.map Element.theDestination).Nodup) (k : String) :
    ((l.foldl (insertElement myMinDeficit) theCache)[k]?).map CacheElement.mark =
      match l.find? fun x => x.theDestination = k with
      | some x => some (x.theWeight, false)
      | none => (theCache[k]?).map CacheElement.mark := by
  induction l generalizing theCache with
  | nil => rfl
  | cons x xs ih =>
    rw [List.map_cons, List.nodup_cons] at hl
    have hinsert : ((insertElement myMinDeficit theCache x)[k]?).map CacheElement.mark =
        if k = x.theDestination then some (x.theWeight, false) else (theCache[k]?).map CacheElement.mark := by
      unfold insertElement
      split <;> rw [Maps.lookup_insert] <;> split <;> rfl
    rw [List.foldl_cons, ih _ hl.2, hinsert, List.find?_cons]
    by_cases hk : k = x.theDestination
    · have hnone : xs.find? (fun y => y.theDestination = k) = none := by
        apply List.find?_eq_none.mpr
        intro y hy
        have hne : y.theDestination ≠ x.theDestination := fun h =>
          hl.1 (h ▸ List.mem_map_of_mem hy)
        simpa [hk] using hne
      simp [hk, hk ▸ hnone]
    · simp [hk, Ne.symm hk]

theorem caches_updateList (e : Entry W) (hpos : ∀ aDest x, e.find aDest = some x → 0 < x.theWeight)
    (theCache : ExtTreeMap String (CacheElement W)) (myMinDeficit : W) :
    Caches e ((e.theDestinations.foldl (insertElement myMinDeficit)
      (theCache.map fun _ (c : CacheElement W) => { c with theRemoved := true })).filter
        fun _ c => !c.theRemoved) where
  positive := hpos
  weights k := by
    have hfold := foldl_insertElement (theCache.map fun _ c =>
      { c with theRemoved := true }) myMinDeficit e.theDestinations e.distinct k
    rw [ExtTreeMap.getElem?_map] at hfold
    rw [ExtTreeMap.getElem?_filter', Entry.find]
    split at hfold
    · next x hx =>
      obtain ⟨c, hc, hcx⟩ := Option.map_eq_some_iff.mp hfold
      rw [CacheElement.mark, Prod.mk.injEq] at hcx
      simp [hc, hx, hcx]
    · next hx =>
      rw [hx, Option.map_none, Option.map_eq_none_iff, Option.filter_eq_none_iff]
      intro c hc
      rw [hc, Option.map_some, eq_comm, Option.map_map, Option.map_eq_some_iff] at hfold
      obtain ⟨c', _, hc'⟩ := hfold
      rw [Function.comp_apply, CacheElement.mark, CacheElement.mark, Prod.mk.injEq] at hc'
      simp [← hc'.2]
  unmarked k c hc := by
    rw [ExtTreeMap.getElem?_filter', Option.filter_eq_some_iff] at hc
    simpa using hc.2

end Caches

/-- The least weight is that of a destination. -/
theorem min_updateStat (aStat : SummaryStat W) {e : Entry W} {s : State W} (h : Caches e s.theCache)
    {d : String} (hd : d ∈ s.theCache) : ∃ (k : String) (c : CacheElement W),
      s.theCache[k]? = some c ∧ aStat.min (updateStat aStat s) = c.theWeight := by
  have hkept : (s.theCache.toList.filter fun p => !p.2.theRemoved) = s.theCache.toList := by
    apply List.filter_eq_self.mpr
    intro p hp
    simpa using h.unmarked p.1 p.2 (Maps.mem_toList.mp hp)
  have hne : s.theCache.toList.map (fun p => p.2.theWeight) ≠ [] := by
    obtain ⟨c, hc⟩ := Maps.lookup_of_mem hd
    have hmem := List.mem_map_of_mem (f := fun p => p.2.theWeight) (Maps.mem_toList.mpr hc)
    exact List.ne_nil_of_mem hmem
  obtain ⟨w, hw⟩ := Option.isSome_iff_exists.mp (List.isSome_min?_of_ne_nil hne)
  obtain ⟨⟨k, c⟩, hmem, hcw⟩ := List.mem_map.mp (List.min?_mem hw)
  refine ⟨k, c, Maps.mem_toList.mp hmem, ?_⟩
  rw [updateStat, hkept]
  exact (aStat.min_record _ w hw).trans hcw.symm

section Active

variable [IsStrictOrderedRing W] {aStat : SummaryStat W} {theMax : W} {e : Entry W} {s : State W}

/-- The least weight is good. -/
theorem exists_good (aStat : SummaryStat W) (h : Caches e s.theCache) (he : e.empty = false) :
    ∃ (k : String) (c : CacheElement W), s.theCache[k]? = some c ∧ good aStat (updateStat aStat s) c.theWeight = true := by
  rw [Entry.empty_eq_false_iff] at he
  obtain ⟨x, hx⟩ := List.exists_mem_of_ne_nil _ he
  have hlisted := (e.find_isSome_iff x.theDestination).mpr (List.mem_map_of_mem hx)
  obtain ⟨y, hy⟩ := Option.isSome_iff_exists.mp hlisted
  obtain ⟨c, hc⟩ := h.cached hy
  obtain ⟨k, c, hc, hmin⟩ := min_updateStat aStat h (Maps.mem_of_lookup hc)
  refine ⟨k, c, hc, ?_⟩
  obtain ⟨x, hx, hxw⟩ := h.listed hc
  have hpos : 0 < c.theWeight := hxw ▸ h.positive k x hx
  have htwice : c.theWeight ≤ c.theWeight * 2 := by linarith
  rw [good, decide_eq_true_iff, hmin]
  exact .inr htwice

theorem fits_updateActiveSet (h : Caches e s.theCache) (r : Reading W) :
    Fits e (updateActiveSet aStat theMax r s) where
  caches := h.of_map fun _ c => CacheElement.refresh_mark _ _ _ c
  active := by
    constructor
    · intro he
      rw [updateActiveSet, List.map_eq_nil_iff, List.filter_eq_nil_iff]
      intro p hp
      obtain ⟨x, hx, _⟩ := h.listed (Maps.mem_toList.mp hp)
      rw [(Entry.empty_iff e).mp he] at hx
      cases hx
    · intro hq
      by_contra he
      rw [Bool.not_eq_true] at he
      obtain ⟨k, c, hc, hgood⟩ := exists_good aStat h he
      rw [updateActiveSet, List.map_eq_nil_iff, List.filter_eq_nil_iff] at hq
      have hidle := hq (k, c) (Maps.mem_toList.mpr hc)
      simp only [hgood] at hidle
      exact hidle (CacheElement.refresh_good _ _ c)

theorem fits_updateWeight (h : Fits e s) {aDest : String} {f : Element W → Element W}
    (hf : ∀ x, (f x).theDestination = x.theDestination) {aWeight : W}
    (hw : ∀ x, (f x).theWeight = aWeight) (hpos : 0 < aWeight) (r : Reading W) :
    Fits (e.rewrite aDest f hf) (updateWeight aStat theMax r aDest aWeight s) := by
  apply fits_updateActiveSet
  apply Caches.of_map (h.caches.rewrite hf hw hpos r.myUpdate)
  intro k c
  rfl

theorem fits_updateList (hpos : ∀ aDest x, e.find aDest = some x → 0 < x.theWeight)
    (r : Reading W) (s : State W) : Fits e (updateList aStat theMax r e s) := by
  unfold updateList
  split
  · next he =>
    have hnone := (Entry.empty_iff e).mp he
    refine ⟨⟨fun k => ?_, hpos, fun k c hc => ?_⟩, by simp [he]⟩
    · simp [hnone]
    · simp at hc
  · exact fits_updateActiveSet (caches_updateList e hpos s.theCache _) r

omit [IsStrictOrderedRing W] in
/-- A choice leaves every weight alone. -/
theorem fits_operator {s' : State W} (h : Fits e s) {r : Reading W} {aDest : String}
    (hs : operator r s = .ok (aDest, s')) : Fits e s' := by
  unfold operator at hs
  split at hs
  · cases hs
  · cases hs
    exact ⟨h.caches.of_modify _ fun _ => rfl, h.active⟩

/-- Any number will do for the largest one. -/
def policy (aStat : SummaryStat W) (theMax : W) : Policy W where
  State := State W
  Reading := Reading W
  init := ⟨∅, []⟩
  updateWeight r _ aDest _ aNewWeight := updateWeight aStat theMax r aDest aNewWeight
  updateAddDest r e _ _ := updateList aStat theMax r e
  updateDelDest r e _ _ := updateList aStat theMax r e
  operator r _ := operator r
  Fits := Fits
  fits_init := ⟨⟨by simp, nofun, by simp⟩, by simp [Entry.new, Entry.empty]⟩
  fits_updateWeight h _ _ _ _ hf _ hw hpos r := fits_updateWeight h hf hw hpos r
  fits_updateAddDest {e s} h x hx hpos r := by
    apply fits_updateList
    intro k y hy
    rw [Entry.find_append] at hy
    split at hy
    · cases hy
      exact hpos
    · exact h.caches.positive k y hy
  fits_updateDelDest {e s} h {aDest x} hx r := by
    apply fits_updateList
    intro k y hy
    rw [Entry.find_remove] at hy
    split at hy
    · cases hy
    · exact h.caches.positive k y hy
  operator_empty {e s} h he r := by
    rw [operator, h.active.mp he]
    rfl
  operator_chooses {e s} h he r := by
    have hne : s.theQueue.rotate r.top ≠ [] := by
      intro hnil
      rw [h.active.mpr (List.rotate_eq_nil_iff.mp hnil)] at he
      cases he
    unfold operator
    cases htop : (s.theQueue.rotate r.top).argmin (deficit r s) with
    | none => exact absurd (List.argmin_eq_none.mp htop) hne
    | some aDest => exact ⟨_, _, rfl⟩
  fits_operator := fits_operator

end Active

end EntryRoundRobin
end ServerlessEdge.Forwarding
