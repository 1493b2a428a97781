import ServerlessEdge.Forwarding.TypedTable
import ServerlessEdge.Forwarding.Listed

/-! The handles of the queue of active destinations. Here a handle is no good any more
once its element is erased from the cache, and a call that reads through such a handle
has no result. -/
namespace ServerlessEdge.Forwarding
open Library
open Std (ExtTreeMap)

namespace EntryRoundRobin.Handles

variable {W : Type} [Field W] [LinearOrder W] (aStat : SummaryStat W) (theMax : W)

/-- The element of a handle, unless it was erased. -/
def deref (theCache : ExtTreeMap String (CacheElement W)) (aHandle : String) :
    Option (CacheElement W) := theCache[aHandle]?

/-- The handles of the queue are compared, perhaps each of them. -/
def compareAll (theCache : ExtTreeMap String (CacheElement W)) (theQueue : List String) : Option Unit :=
  theQueue.forM fun aHandle => do
    let _ ← deref theCache aHandle

/-- A handle is compared with those in the queue. -/
def push (theCache : ExtTreeMap String (CacheElement W)) (theQueue : List String) (aHandle : String) :
    Option (List String) := do
  compareAll theCache (theQueue ++ [aHandle])
  return theQueue ++ [aHandle]

/-- All the handles of the queue are popped and read. -/
def minDeficit (s : State W) : Option W :=
  s.theQueue.foldlM (fun myMin aHandle => do
    let myElem ← deref s.theCache aHandle
    return min myMin myElem.theDeficit) theMax

def updateActiveSet (r : Reading W) (s : State W) : Option (State W) := do
  let theStat := updateStat aStat s
  let myMinDeficit ← minDeficit theMax s
  let refreshed (c : CacheElement W) := c.refresh (good aStat theStat c.theWeight) r.myNow myMinDeficit
  let myNewQueue ← (s.theCache.toList.filter fun p => (refreshed p.2).2).foldlM
    (fun myNewQueue p => push s.theCache myNewQueue p.1) []
  return { theCache := s.theCache.map fun _ c => (refreshed c).1, theQueue := myNewQueue }

def updateWeight (r : Reading W) (aDest : String) (aWeight : W) (s : State W) : Option (State W) := do
  let s := { s with theCache := s.theCache.modify aDest (.touch aWeight r.myUpdate) }
  let myMinDeficit ← minDeficit theMax s
  let theCache := s.theCache.map fun _ c => { c with theDeficit := c.theDeficit - myMinDeficit }
  updateActiveSet aStat theMax r { s with theCache }

def updateList (r : Reading W) (e : Entry W) (s : State W) : Option (State W) :=
  if e.empty then some ⟨∅, []⟩
  else do
    let s := { s with theCache := s.theCache.map fun _ c => { c with theRemoved := true } }
    let myMinDeficit ← minDeficit theMax s
    let theCache := e.theDestinations.foldl (insertElement myMinDeficit) s.theCache
    let theCache := theCache.filter fun _ c => !c.theRemoved
    updateActiveSet aStat theMax r { s with theCache }

/-- The top is popped and, with its new deficit, pushed again. -/
def operator (r : Reading W) (s : State W) : Option (Except (TableError W) (String × State W)) := do
  compareAll s.theCache s.theQueue
  return EntryRoundRobin.operator r s

/-- No handle of the queue is stale. -/
def Live (theCache : ExtTreeMap String (CacheElement W)) (theQueue : List String) : Prop :=
  ∀ aHandle ∈ theQueue, aHandle ∈ theCache

instance (theCache : ExtTreeMap String (CacheElement W)) (theQueue : List String) :
    Decidable (Live theCache theQueue) :=
  inferInstanceAs (Decidable (∀ aHandle ∈ theQueue, aHandle ∈ theCache))

section Reads

variable {theCache theCache' : ExtTreeMap String (CacheElement W)} {theQueue : List String}

omit [Field W] [LinearOrder W] in
theorem deref_of_mem {aHandle : String} (h : aHandle ∈ theCache) :
    ∃ c, deref theCache aHandle = some c := Maps.lookup_of_mem h

omit [Field W] [LinearOrder W] in
theorem deref_of_not_mem {aHandle : String} (h : aHandle ∉ theCache) :
    deref theCache aHandle = none := ExtTreeMap.getElem?_eq_none h

omit [Field W] [LinearOrder W] in
theorem live_cons {aHandle : String} :
    Live theCache (aHandle :: theQueue) ↔ aHandle ∈ theCache ∧ Live theCache theQueue :=
  List.forall_mem_cons

omit [Field W] [LinearOrder W] in
theorem Live.of_mem (h : Live theCache theQueue) (hmem : ∀ k, k ∈ theCache → k ∈ theCache') :
    Live theCache' theQueue := fun aHandle hh => hmem aHandle (h aHandle hh)

omit [Field W] [LinearOrder W] in
theorem compareAll_of_live (h : Live theCache theQueue) : compareAll theCache theQueue = some () := by
  induction theQueue with
  | nil => rfl
  | cons aHandle theQueue ih =>
    obtain ⟨hhandle, hrest⟩ := live_cons.mp h
    obtain ⟨c, hc⟩ := deref_of_mem hhandle
    rw [compareAll, List.forM_eq_forM, List.forM_cons, hc]
    exact ih hrest

omit [Field W] in
/-- The scan of the queue ends exactly if no handle is stale. -/
theorem minDeficit_eq (r : Reading W) (s : State W) : minDeficit theMax s =
    if Live s.theCache s.theQueue then some (EntryRoundRobin.minDeficit theMax r s) else none := by
  obtain ⟨theCache, theQueue⟩ := s
  unfold minDeficit EntryRoundRobin.minDeficit
  dsimp only
  induction theQueue generalizing theMax with
  | nil => rw [if_pos nofun]; rfl
  | cons aHandle theQueue ih =>
    rw [List.foldlM_cons, List.foldl_cons]
    by_cases hhandle : aHandle ∈ theCache
    · obtain ⟨c, hc⟩ := deref_of_mem hhandle
      have hdeficit : deficit r ⟨theCache, aHandle :: theQueue⟩ aHandle = c.theDeficit := by
        rw [deref] at hc
        rw [deficit, hc]
      rw [hc, hdeficit]
      simp only [live_cons, hhandle, true_and]
      exact ih (min theMax c.theDeficit)
    · rw [deref_of_not_mem hhandle, if_neg fun h => hhandle (live_cons.mp h).1]
      rfl

omit [Field W] [LinearOrder W] in
/-- The handles of elements of the cache are pushed one after the other. -/
theorem foldlM_push (ps : List (String × CacheElement W)) (hps : ∀ p ∈ ps, p.1 ∈ theCache)
    (h : Live theCache theQueue) :
    ps.foldlM (fun myNewQueue p => push theCache myNewQueue p.1) theQueue =
      some (theQueue ++ ps.map Prod.fst) := by
  induction ps generalizing theQueue with
  | nil => rw [List.map_nil, List.append_nil]; rfl
  | cons p ps ih =>
    have hlive : Live theCache (theQueue ++ [p.1]) := by
      intro aHandle hmem
      rcases List.mem_append.mp hmem with hmem | hmem
      · exact h aHandle hmem
      · rw [List.mem_singleton.mp hmem]
        exact hps p List.mem_cons_self
    have hpush : push theCache theQueue p.1 = some (theQueue ++ [p.1]) := by
      rw [push, compareAll_of_live hlive]
      rfl
    rw [List.foldlM_cons, hpush]
    exact (ih (fun p' hp' => hps p' (List.mem_cons_of_mem _ hp')) hlive).trans (by simp)

/-- The handles that are not stale are those of the listed destinations. -/
theorem live_iff_listed {e : Entry W} (h : Caches e theCache) :
    Live theCache theQueue ↔ ∀ aHandle ∈ theQueue, (e.find aHandle).isSome := by
  refine forall₂_congr fun aHandle _ => ⟨fun hmem => ?_, fun hfound => ?_⟩
  · obtain ⟨c, hc⟩ := Maps.lookup_of_mem hmem
    obtain ⟨x, hx, -⟩ := h.listed hc
    rw [hx]
    rfl
  · obtain ⟨x, hx⟩ := Option.isSome_iff_exists.mp hfound
    obtain ⟨c, hc⟩ := h.cached hx
    exact Maps.mem_of_lookup hc

end Reads

section Calls

variable {aStat theMax} {s : State W}

/-- Without stale handles each function does what it does when it may read anything. -/
theorem updateActiveSet_eq (r : Reading W) : updateActiveSet aStat theMax r s =
    if Live s.theCache s.theQueue then some (EntryRoundRobin.updateActiveSet aStat theMax r s)
    else none := by
  rw [updateActiveSet, minDeficit_eq theMax r]
  split
  · have hnil : Live s.theCache [] := nofun
    have hpush := foldlM_push
      (s.theCache.toList.filter fun p => (p.2.refresh (good aStat (updateStat aStat s) p.2.theWeight)
        r.myNow (EntryRoundRobin.minDeficit theMax r s)).2)
      (fun p hp => Maps.mem_of_lookup (Maps.mem_toList.mp (List.mem_filter.mp hp).1)) hnil
    simp only [Option.bind_eq_bind, Option.bind_some]
    rw [hpush]
    rfl
  · rfl

theorem updateWeight_eq (h : Live s.theCache s.theQueue) (r : Reading W) (aDest : String) (aWeight : W) :
    updateWeight aStat theMax r aDest aWeight s =
      some (EntryRoundRobin.updateWeight aStat theMax r aDest aWeight s) := by
  have htouched : Live (s.theCache.modify aDest (.touch aWeight r.myUpdate)) s.theQueue :=
    h.of_mem fun k hk => ExtTreeMap.mem_modify.mpr hk
  rw [updateWeight, minDeficit_eq theMax r, if_pos htouched]
  simp only [Option.bind_eq_bind, Option.bind_some]
  rw [updateActiveSet_eq, if_pos (htouched.of_mem fun k hk => ExtTreeMap.mem_map.mpr hk)]
  rfl

/-- The elements that are not in the list any more are erased, and then the queue is
read again. -/
theorem updateList_eq (h : Live s.theCache s.theQueue) {e : Entry W}
    (hpos : ∀ aDest x, e.find aDest = some x → 0 < x.theWeight) (r : Reading W) :
    updateList aStat theMax r e s =
      if e.empty ∨ ∀ aHandle ∈ s.theQueue, (e.find aHandle).isSome then
        some (EntryRoundRobin.updateList aStat theMax r e s)
      else none := by
  unfold updateList EntryRoundRobin.updateList
  by_cases he : e.empty
  · rw [if_pos he, if_pos he, if_pos (.inl he)]
  have hmarked : Live (s.theCache.map fun _ (c : CacheElement W) => { c with theRemoved := true })
      s.theQueue := h.of_mem fun k hk => ExtTreeMap.mem_map.mpr hk
  rw [if_neg he, if_neg he]
  dsimp only
  rw [minDeficit_eq theMax r, if_pos hmarked]
  simp only [Option.bind_eq_bind, Option.bind_some]
  rw [updateActiveSet_eq]
  have hcaches := caches_updateList e hpos s.theCache (EntryRoundRobin.minDeficit theMax r
    { s with theCache := s.theCache.map fun _ c => { c with theRemoved := true } })
  by_cases hlisted : ∀ aHandle ∈ s.theQueue, (e.find aHandle).isSome
  · rw [if_pos ((live_iff_listed hcaches).mpr hlisted), if_pos (.inr hlisted)]
  · rw [if_neg fun hlive => hlisted ((live_iff_listed hcaches).mp hlive), if_neg (not_or.mpr ⟨he, hlisted⟩)]

theorem operator_eq (h : Live s.theCache s.theQueue) (r : Reading W) :
    operator r s = some (EntryRoundRobin.operator r s) := by
  rw [operator, compareAll_of_live h]
  rfl

end Calls

section Entries

variable [IsStrictOrderedRing W]

/-- The calls of an entry. Each gives what becomes of the list and of the rest, and one
that throws leaves both as they were. -/
def change (r : Reading W) (aDest : String) (aWeight : W) (aFinal : Bool) (e : Entry W) (s : State W) :
    Option (Entry W × State W) :=
  if aDest = "" ∨ aWeight ≤ 0 then some (e, s)
  else match hx : e.find aDest with
    | some _ =>
      let e := e.rewrite aDest (fun x => { x with theWeight := aWeight, theFinal := aFinal })
        (Entry.flagged_destination aWeight aFinal)
      (updateWeight aStat theMax r aDest aWeight s).map fun s => (e, s)
    | none =>
      let e := e.append ⟨aDest, aWeight, aFinal⟩ hx
      (updateList aStat theMax r e s).map fun s => (e, s)

def changeWeight (r : Reading W) (aDest : String) (aWeight : W) (e : Entry W) (s : State W) :
    Option (Entry W × State W) :=
  if aDest = "" then some (e, s)
  else if aWeight ≤ 0 then some (e, s)
  else match e.find aDest with
    | some _ =>
      let e := e.rewrite aDest (fun x => { x with theWeight := aWeight })
        (Entry.weighed_destination aWeight)
      (updateWeight aStat theMax r aDest aWeight s).map fun s => (e, s)
    | none => some (e, s)

def remove (r : Reading W) (aDest : String) (e : Entry W) (s : State W) : Option (Entry W × State W) :=
  match e.find aDest with
  | some _ =>
    let e := (e.remove aDest).2
    (updateList aStat theMax r e s).map fun s => (e, s)
  | none => some (e, s)

def choose (r : Reading W) (e : Entry W) (s : State W) : Option (Entry W × State W) :=
  (operator r s).map fun myChoice => match myChoice with
    | .ok (_, s) => (e, s)
    | .error _ => (e, s)

def step (p : Entry W × State W) : PolicyEntry.Call (policy aStat theMax) → Option (Entry W × State W)
  | .change r aDest aWeight aFinal => change aStat theMax r aDest aWeight aFinal p.1 p.2
  | .changeWeight r aDest aWeight => changeWeight aStat theMax r aDest aWeight p.1 p.2
  | .remove r aDest => remove aStat theMax r aDest p.1 p.2
  | .operator r => choose r p.1 p.2

/-- The calls made on a new entry. -/
def run (calls : List (PolicyEntry.Call (policy aStat theMax))) : Option (Entry W × State W) :=
  calls.foldlM (step aStat theMax) (.new, ⟨∅, []⟩)

/-- The call removes an active destination, and it is not the last one of the entry. -/
def Erases (e : PolicyEntry (policy aStat theMax)) : PolicyEntry.Call (policy aStat theMax) → Prop
  | .remove _ aDest => aDest ∈ State.theQueue e.state ∧ (e.entry.remove aDest).2.empty = false
  | _ => False

/-- The list and the rest of an entry. -/
def parts (e : PolicyEntry (policy aStat theMax)) : Entry W × State W := (e.entry, e.state)

variable {aStat theMax} {e : PolicyEntry (policy aStat theMax)}

/-- No handle of the queue of an entry is stale. -/
def Fresh (e : PolicyEntry (policy aStat theMax)) : Prop :=
  Live (State.theCache e.state) (State.theQueue e.state)

theorem Fresh.listed (h : Fresh e) :
    ∀ aHandle ∈ State.theQueue e.state, (e.entry.find aHandle).isSome :=
  (live_iff_listed e.fits.caches).mp h

/-- Reads of a weight update are those of live handles. -/
theorem rewrite_eq (h : Fresh e) {r : Reading W}
    {aDest : String} {x : Element W} {hx : e.entry.find aDest = some x} {aWeight : W}
    {hpos : 0 < aWeight} {f : Element W → Element W}
    {hf : ∀ x, (f x).theDestination = x.theDestination} {hw : ∀ x, (f x).theWeight = aWeight} :
    ((updateWeight aStat theMax r aDest aWeight e.state).map fun s =>
      (e.entry.rewrite aDest f hf, s)) = some (parts aStat theMax
        (e.rewrite r aDest x hx aWeight hpos f hf hw)) := by
  rw [updateWeight_eq h]
  rfl

theorem change_eq (h : Fresh e) (r : Reading W)
    (aDest : String) (aWeight : W) (aFinal : Bool) :
    change aStat theMax r aDest aWeight aFinal e.entry e.state =
      some (parts aStat theMax (e.step (.change r aDest aWeight aFinal))) := by
  unfold change
  obtain ⟨hr, hstep⟩ | ⟨hr, hpos, ⟨x, hx, hstep⟩ | ⟨hx, hstep⟩⟩ := e.change_cases r aDest aWeight aFinal
  · rw [if_pos hr, hstep]
    rfl
  · rw [if_neg hr, hstep]
    split
    · exact rewrite_eq h
    · next hnone => exact absurd (hx.symm.trans hnone) (Option.some_ne_none _)
  · rw [if_neg hr, hstep]
    split
    · next hsome => exact absurd (hsome.symm.trans hx) (Option.some_ne_none _)
    · have happended : ∀ (d : String) (x : Element W),
          (e.entry.append ⟨aDest, aWeight, aFinal⟩ hx).find d = some x → 0 < x.theWeight :=
        (e.append r ⟨aDest, aWeight, aFinal⟩ hx hpos).fits.caches.positive
      have hlisted : ∀ aHandle ∈ State.theQueue e.state,
          ((e.entry.append ⟨aDest, aWeight, aFinal⟩ hx).find aHandle).isSome := by
        intro aHandle hmem
        rw [Entry.find_append]
        split
        · rfl
        · exact h.listed aHandle hmem
      dsimp only
      rw [updateList_eq h happended, if_pos (.inr hlisted)]
      rfl

theorem changeWeight_eq (h : Fresh e) (r : Reading W)
    (aDest : String) (aWeight : W) :
    changeWeight aStat theMax r aDest aWeight e.entry e.state =
      some (parts aStat theMax (e.step (.changeWeight r aDest aWeight))) := by
  unfold changeWeight
  obtain ⟨hr, hstep⟩ | ⟨hr, hpos, x, hx, hstep⟩ := e.changeWeight_cases r aDest aWeight
  · rw [hstep]
    split
    · rfl
    split
    · rfl
    next hd hw =>
    rw [(hr.resolve_left hd).resolve_left hw]
    rfl
  · rw [if_neg (not_or.mp hr).1, if_neg (not_or.mp hr).2, hstep, hx]
    exact rewrite_eq h

/-- A removal reads a stale handle exactly if it erases one from the queue. -/
theorem remove_eq (h : Fresh e) (r : Reading W)
    (aDest : String) : remove aStat theMax r aDest e.entry e.state =
      if aDest ∈ State.theQueue e.state ∧ (e.entry.remove aDest).2.empty = false then none
      else some (parts aStat theMax (e.step (.remove r aDest))) := by
  unfold remove
  obtain ⟨hx, hstep⟩ | ⟨x, hx, hentry, hstate⟩ := e.remove_cases r aDest
  · have hidle : aDest ∉ State.theQueue e.state := by
      intro hmem
      have hlisted := h.listed aDest hmem
      rw [hx] at hlisted
      cases hlisted
    rw [hx, hstep, if_neg fun hc => hidle hc.1]
    rfl
  have hremoved : ∀ (d : String) (x : Element W),
      (e.entry.remove aDest).2.find d = some x → 0 < x.theWeight := by
    intro d x hd
    rw [Entry.find_remove] at hd
    split at hd
    · cases hd
    · exact e.fits.caches.positive d x hd
  have hleft : (∀ aHandle ∈ State.theQueue e.state, ((e.entry.remove aDest).2.find aHandle).isSome) ↔
      aDest ∉ State.theQueue e.state := by
    constructor
    · intro hall hmem
      have hlisted := hall aDest hmem
      rw [Entry.find_remove, if_pos rfl] at hlisted
      cases hlisted
    · intro hidle aHandle hmem
      rw [Entry.find_remove, if_neg fun heq : aHandle = aDest => hidle (heq ▸ hmem)]
      exact h.listed aHandle hmem
  rw [hx]
  dsimp only
  rw [updateList_eq h hremoved]
  by_cases hc : aDest ∈ State.theQueue e.state ∧ (e.entry.remove aDest).2.empty = false
  · rw [if_pos hc, if_neg]
    · rfl
    · rintro (hempty | hall)
      · rw [hc.2] at hempty
        cases hempty
      · exact hleft.mp hall hc.1
  · rw [if_neg hc, if_pos, parts, hentry, hstate]
    · rfl
    · rw [hleft, or_iff_not_imp_right, not_not]
      intro hmem
      rw [not_and, Bool.not_eq_false] at hc
      exact hc hmem

theorem choose_eq (h : Fresh e) (r : Reading W) :
    choose r e.entry e.state = some (parts aStat theMax (e.step (.operator r))) := by
  unfold choose
  rw [operator_eq h, Option.map_some]
  obtain ⟨⟨err, hop⟩, hstep⟩ | ⟨d, s, hop, hentry, hstate⟩ := e.choice_cases r
  · have hop' : EntryRoundRobin.operator r e.state = .error err := hop
    rw [hop', hstep]
    rfl
  · have hop' : EntryRoundRobin.operator r e.state = .ok (d, s) := hop
    rw [hop', parts, hentry, hstate]

variable {c : PolicyEntry.Call (policy aStat theMax)}

theorem step_of_not_erases (h : Fresh e)
    (hc : ¬ Erases aStat theMax e c) :
    step aStat theMax (parts aStat theMax e) c = some (parts aStat theMax (e.step c)) := by
  cases c with
  | change r d w f => exact change_eq h r d w f
  | changeWeight r d w => exact changeWeight_eq h r d w
  | remove r d => exact (remove_eq h r d).trans (if_neg hc)
  | operator r => exact choose_eq h r

theorem step_of_erases (h : Fresh e)
    (hc : Erases aStat theMax e c) : step aStat theMax (parts aStat theMax e) c = none := by
  cases c with
  | remove r d => exact (remove_eq h r d).trans (if_pos hc)
  | change r d w f | changeWeight r d w | operator r => exact hc.elim

theorem Fresh.step (h : Fresh e) (c : PolicyEntry.Call (policy aStat theMax)) : Fresh (e.step c) :=
  PolicyEntry.good_step (L := lists aStat theMax) h c

theorem fresh_new : Fresh (.new : PolicyEntry (policy aStat theMax)) := nofun

end Entries

variable [IsStrictOrderedRing W]

/-- For every run of calls on an entry, no stale handle is read exactly when no call
removes an active destination while another destination stays; then the entry ends as if
it could read anything. -/
theorem no_stale_handle_iff (calls : List (PolicyEntry.Call (policy aStat theMax))) :
    ((run aStat theMax calls).isSome ↔
      Runs.Along PolicyEntry.step (fun e c => ¬ Erases aStat theMax e c) .new calls) ∧
    ((run aStat theMax calls).isSome → run aStat theMax calls =
      some (parts aStat theMax (Runs.final PolicyEntry.step .new calls))) := by
  have hiff : (run aStat theMax calls).isSome ↔
      Runs.Along PolicyEntry.step (fun e c => ¬ Erases aStat theMax e c) .new calls :=
    Runs.foldlM_isSome_iff_along (f := parts aStat theMax) (I := Fresh)
      (P := fun e c => ¬ Erases aStat theMax e c) (fun _ c h _ => h.step c)
      (fun _ _ h hc => step_of_not_erases h hc) (fun _ _ h hc => step_of_erases h (not_not.mp hc))
      fresh_new
  refine ⟨hiff, fun hrun => ?_⟩
  exact Runs.foldlM_of_along (f := parts aStat theMax) (I := Fresh)
    (P := fun e c => ¬ Erases aStat theMax e c) (fun _ c h _ => h.step c)
    (fun _ _ h hc => step_of_not_erases h hc) fresh_new (hiff.mp hrun)

/-- A destination whose weight has become too large is not active any more when it is
removed. -/
private def inactiveRemoved : List (PolicyEntry.Call
    (policy TypedTable.rationals.aStat TypedTable.rationals.theMax)) :=
  let r : Reading ℚ := ⟨0, 0, fun _ => 0, 0⟩
  [.change r "dest1:666" 1 true, .change r "dest2:666" 1 true, .changeWeight r "dest2:666" 10,
    .operator r, .remove r "dest2:666"]

theorem no_stale_handle_iff_inactive :
    ((run TypedTable.rationals.aStat TypedTable.rationals.theMax inactiveRemoved).isSome ↔
      Runs.Along PolicyEntry.step (fun e c => ¬ Erases TypedTable.rationals.aStat
        TypedTable.rationals.theMax e c) .new inactiveRemoved) ∧
    ((run TypedTable.rationals.aStat TypedTable.rationals.theMax inactiveRemoved).isSome →
      run TypedTable.rationals.aStat TypedTable.rationals.theMax inactiveRemoved =
        some (parts TypedTable.rationals.aStat TypedTable.rationals.theMax
          (Runs.final PolicyEntry.step .new inactiveRemoved))) :=
  no_stale_handle_iff _ _ inactiveRemoved

example : (run TypedTable.rationals.aStat TypedTable.rationals.theMax inactiveRemoved).isSome := by
  decide +kernel

/-- One of two destinations is removed: the queue is read with its handle still there. -/
theorem removed_handle_read : ¬ ∀ calls : List (PolicyEntry.Call (policy TypedTable.rationals.aStat
    TypedTable.rationals.theMax)),
    (run TypedTable.rationals.aStat TypedTable.rationals.theMax calls).isSome := by
  intro h
  let r : Reading ℚ := ⟨0, 0, fun _ => 0, 0⟩
  have hrun := h [.change r "dest1:666" 1 true, .change r "dest2:666" 1 true, .remove r "dest1:666"]
  revert hrun
  decide +kernel

end EntryRoundRobin.Handles
end ServerlessEdge.Forwarding
