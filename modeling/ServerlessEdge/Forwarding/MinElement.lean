import ServerlessEdge.Forwarding.Entries
import ServerlessEdge.Library.Runs
import Mathlib.Algebra.Order.Ring.Rat

/-! The iterator to the smallest weight. Here it is no good any more once its element is
erased from the list, and a call that reads through it then has no result. -/
namespace ServerlessEdge.Forwarding
open Library

namespace EntryLeastImpedance.MinElement

variable {W : Type} [Zero W] [LinearOrder W]

/-- The element of an iterator; there is none past the end and none once it was erased. -/
def deref (e : Entry W) : Iterator → Option (Element W)
  | .element aDest => e.find aDest
  | _ => none

def updateWeight (e : Entry W) (aOldWeight aNewWeight : W) (s : State) : Option State := do
  let myMin ← deref e s.theMinElement
  return if aNewWeight ≤ myMin.theWeight ∨ aOldWeight = myMin.theWeight then update e else s

def updateAddDest (e : Entry W) (aWeight : W) (s : State) : Option State :=
  if s.theMinElement = .past then some ⟨.at? e.theDestinations.head?⟩
  else do
    let myMin ← deref e s.theMinElement
    return if aWeight < myMin.theWeight then update e else s

/-- The element was erased before this is called. -/
def updateDelDest (e : Entry W) (aDest : String) (aWeight : W) (s : State) : Option State := do
  let s := { s with theMinElement := s.theMinElement.erase aDest }
  let myMin ← deref e s.theMinElement
  return if myMin.theWeight = aWeight then update e else s

def operator (e : Entry W) (s : State) : Option (Except (TableError W) (String × State)) :=
  if e.empty then some (.error (.noDestinations none))
  else (deref e s.theMinElement).map fun myMin => .ok (myMin.theDestination, s)

/-- The calls of an entry. Each gives what becomes of the list and of the iterator, and one
that throws leaves both as they were. -/
def change (aDest : String) (aWeight : W) (aFinal : Bool) (e : Entry W) (s : State) :
    Option (Entry W × State) :=
  if aDest = "" ∨ aWeight ≤ 0 then some (e, s)
  else match hx : e.find aDest with
    | some x =>
      let e := e.rewrite aDest (fun x => { x with theWeight := aWeight, theFinal := aFinal })
        (Entry.flagged_destination aWeight aFinal)
      (updateWeight e x.theWeight aWeight s).map fun s => (e, s)
    | none =>
      let e := e.append ⟨aDest, aWeight, aFinal⟩ hx
      (updateAddDest e aWeight s).map fun s => (e, s)

def changeWeight (aDest : String) (aWeight : W) (e : Entry W) (s : State) : Option (Entry W × State) :=
  if aDest = "" then some (e, s)
  else if aWeight ≤ 0 then some (e, s)
  else match e.find aDest with
    | some x =>
      let e := e.rewrite aDest (fun x => { x with theWeight := aWeight })
        (Entry.weighed_destination aWeight)
      (updateWeight e x.theWeight aWeight s).map fun s => (e, s)
    | none => some (e, s)

def remove (aDest : String) (e : Entry W) (s : State) : Option (Entry W × State) :=
  match e.find aDest with
  | some x =>
    let e := (e.remove aDest).2
    (updateDelDest e aDest x.theWeight s).map fun s => (e, s)
  | none => some (e, s)

def choose (e : Entry W) (s : State) : Option (Entry W × State) :=
  (operator e s).map fun myChoice => match myChoice with
    | .ok (_, s) => (e, s)
    | .error _ => (e, s)

def step (p : Entry W × State) : PolicyEntry.Call (policy (W := W)) → Option (Entry W × State)
  | .change _ aDest aWeight aFinal => change aDest aWeight aFinal p.1 p.2
  | .changeWeight _ aDest aWeight => changeWeight aDest aWeight p.1 p.2
  | .remove _ aDest => remove aDest p.1 p.2
  | .operator _ => choose p.1 p.2

/-- The calls made on a new entry. -/
def run (calls : List (PolicyEntry.Call (policy (W := W)))) : Option (Entry W × State) :=
  calls.foldlM step (.new, ⟨.past⟩)

/-- No listed destination has a smaller weight. -/
def Minimal (e : Entry W) (x : Element W) : Prop :=
  x ∈ e.theDestinations ∧ ∀ y ∈ e.theDestinations, x.theWeight ≤ y.theWeight

/-- The iterator is at a destination of minimal weight, or past the end of an empty list. -/
def Designates (e : Entry W) : Iterator → Prop
  | .past => e.empty = true
  | .element aDest => ∃ x, e.find aDest = some x ∧ Minimal e x
  | .erased => False

section Reads

variable {e : Entry W} {x y : Element W} {s : State}

omit [Zero W] [LinearOrder W] in
/-- Through a good iterator the same is read whatever the memory holds. -/
theorem deref_eq {it : Iterator} (h : deref e it = some x) (aMemory : Element W) :
    it.deref e aMemory = x := by
  cases it with
  | element d =>
    have hx : e.find d = some x := h
    rw [Iterator.deref, hx, Option.getD_some]
  | past | erased => cases h

omit [Zero W] in
theorem updateWeight_eq (h : deref e s.theMinElement = some x) (aMemory : Element W)
    (aOldWeight aNewWeight : W) : updateWeight e aOldWeight aNewWeight s =
      some (EntryLeastImpedance.updateWeight aMemory e aOldWeight aNewWeight s) := by
  rw [updateWeight, h, EntryLeastImpedance.updateWeight, deref_eq h]
  rfl

omit [Zero W] in
theorem updateAddDest_eq (h : s.theMinElement = .past ∨ ∃ x, deref e s.theMinElement = some x)
    (aMemory : Element W) (aWeight : W) :
    updateAddDest e aWeight s = some (EntryLeastImpedance.updateAddDest aMemory e aWeight s) := by
  unfold updateAddDest EntryLeastImpedance.updateAddDest
  by_cases hpast : s.theMinElement = .past
  · rw [if_pos hpast, if_pos hpast]
  · obtain ⟨x, hx⟩ := h.resolve_left hpast
    rw [if_neg hpast, if_neg hpast, hx, deref_eq hx]
    rfl

omit [Zero W] in
theorem updateDelDest_eq {aDest : String} (h : deref e (s.theMinElement.erase aDest) = some x)
    (aMemory : Element W) (aWeight : W) : updateDelDest e aDest aWeight s =
      some (EntryLeastImpedance.updateDelDest aMemory e aDest aWeight s) := by
  rw [updateDelDest, EntryLeastImpedance.updateDelDest]
  simp only [h, deref_eq h, Option.bind_eq_bind, Option.bind_some]
  rfl

omit [Zero W] [LinearOrder W] in
theorem operator_eq (h : e.empty = true ∨ ∃ x, deref e s.theMinElement = some x) (aMemory : Element W) :
    operator e s = some (EntryLeastImpedance.operator aMemory e s) := by
  unfold operator EntryLeastImpedance.operator
  split
  · rfl
  · next he =>
    obtain ⟨x, hx⟩ := h.resolve_left he
    rw [hx, deref_eq hx]
    rfl

end Reads

section Minima

variable {e : Entry W} {x : Element W} {s : State} {it : Iterator}

omit [Zero W] in
theorem Minimal.deref (h : Minimal e x) : deref e (.element x.theDestination) = some x :=
  Entry.find_of_mem h.1

omit [Zero W] in
/-- What the iterator is at, unless there is nothing to be at. -/
theorem designates_iff : Designates e it ↔
    it = .past ∧ e.empty = true ∨ ∃ x, it = .element x.theDestination ∧ Minimal e x := by
  cases it with
  | past => simp [Designates]
  | erased => simp [Designates]
  | element d =>
    simp only [Designates, reduceCtorEq, false_and, false_or, Iterator.element.injEq]
    refine exists_congr fun x => and_congr_left fun hmin => ?_
    constructor
    · exact fun hx => (Entry.find_dest hx).symm
    · rintro rfl
      exact Entry.find_of_mem hmin.1

omit [Zero W] in
theorem Designates.of_minimal (h : Minimal e x) : Designates e (.element x.theDestination) :=
  ⟨x, Entry.find_of_mem h.1, h⟩

omit [Zero W] in
/-- A search finds an element of minimal weight. -/
theorem designates_update (e : Entry W) : Designates e (update e).theMinElement := by
  rw [update]
  cases hmin : e.theDestinations.argmin Element.theWeight with
  | none =>
    have hnil := List.argmin_eq_none.mp hmin
    exact List.isEmpty_iff.mpr hnil
  | some x =>
    apply Designates.of_minimal
    exact ⟨List.argmin_mem hmin, fun y hy => List.le_of_mem_argmin hy hmin⟩

omit [Zero W] in
theorem Minimal.updateWeight (h : Minimal e x) (hs : s.theMinElement = .element x.theDestination)
    (aDest : String) {f : Element W → Element W} (hf : ∀ x, (f x).theDestination = x.theDestination)
    (aOldWeight : W) {aNewWeight : W} (hw : ∀ x, (f x).theWeight = aNewWeight) (aMemory : Element W) :
    (∃ y, MinElement.deref (e.rewrite aDest f hf) s.theMinElement = some y) ∧
    Designates (e.rewrite aDest f hf) (EntryLeastImpedance.updateWeight aMemory
      (e.rewrite aDest f hf) aOldWeight aNewWeight s).theMinElement := by
  have hx : e.find x.theDestination = some x := Entry.find_of_mem h.1
  by_cases hd : x.theDestination = aDest
  · have hread : MinElement.deref (e.rewrite aDest f hf) s.theMinElement = some (f x) := by
      rw [hs, MinElement.deref, Entry.find_rewrite, if_pos hd, hx, Option.map_some]
    refine ⟨⟨f x, hread⟩, ?_⟩
    rw [EntryLeastImpedance.updateWeight, deref_eq hread, hw, if_pos (.inl le_rfl)]
    exact designates_update _
  · have hread : MinElement.deref (e.rewrite aDest f hf) s.theMinElement = some x := by
      rw [hs, MinElement.deref, Entry.find_rewrite, if_neg hd, hx]
    refine ⟨⟨x, hread⟩, ?_⟩
    rw [EntryLeastImpedance.updateWeight, deref_eq hread]
    split
    · exact designates_update _
    · next hkept =>
      -- the new weight is too large to be minimal
      rw [hs] at hread ⊢
      refine ⟨x, hread, List.mem_of_find?_eq_some hread, ?_⟩
      · intro y hy
        obtain ⟨y, hy', rfl⟩ := List.mem_map.mp hy
        split
        · rw [hw]
          exact (not_le.mp (not_or.mp hkept).1).le
        · exact h.2 y hy'

omit [Zero W] in
theorem Designates.updateAddDest (h : Designates e s.theMinElement) (z : Element W)
    (hz : e.find z.theDestination = none) (aMemory : Element W) :
    (s.theMinElement = .past ∨ ∃ y, MinElement.deref (e.append z hz) s.theMinElement = some y) ∧
    Designates (e.append z hz) (EntryLeastImpedance.updateAddDest aMemory (e.append z hz)
      z.theWeight s).theMinElement := by
  rw [designates_iff] at h
  obtain ⟨hpast, hempty⟩ | ⟨x, hs, hmin⟩ := h
  · refine ⟨.inl hpast, ?_⟩
    have hlist : (e.append z hz).theDestinations = [z] := by
      simp [Entry.append, List.isEmpty_iff.mp hempty]
    rw [EntryLeastImpedance.updateAddDest, if_pos hpast, hlist]
    apply Designates.of_minimal
    rw [Minimal, hlist]
    simp
  · have hne : x.theDestination ≠ z.theDestination := by
      intro heq
      have hx := Entry.find_of_mem hmin.1
      rw [heq, hz] at hx
      cases hx
    have hread : MinElement.deref (e.append z hz) s.theMinElement = some x := by
      rw [hs, MinElement.deref, Entry.find_append, if_neg hne]
      exact Entry.find_of_mem hmin.1
    refine ⟨.inr ⟨x, hread⟩, ?_⟩
    rw [EntryLeastImpedance.updateAddDest, if_neg (by rw [hs]; intro heq; cases heq), deref_eq hread]
    split
    · exact designates_update _
    · next hkept =>
      rw [hs]
      apply Designates.of_minimal
      refine ⟨List.mem_append_left _ hmin.1, fun y hy => ?_⟩
      rcases List.mem_append.mp hy with hy | hy
      · exact hmin.2 y hy
      · rw [List.mem_singleton.mp hy]
        exact not_lt.mp hkept

omit [Zero W] in
/-- Another element than the one designated is erased. -/
theorem Designates.updateDelDest (h : Designates e s.theMinElement) {aDest : String} {z : Element W}
    (hz : e.find aDest = some z) (hother : s.theMinElement ≠ .element aDest) (aMemory : Element W) :
    (∃ y, MinElement.deref (e.remove aDest).2 (s.theMinElement.erase aDest) = some y) ∧
    Designates (e.remove aDest).2 (EntryLeastImpedance.updateDelDest aMemory (e.remove aDest).2
      aDest z.theWeight s).theMinElement := by
  rw [designates_iff] at h
  obtain ⟨-, hempty⟩ | ⟨x, hs, hmin⟩ := h
  · have hnone := e.empty_iff.mp hempty aDest
    rw [hz] at hnone
    cases hnone
  · have hne : x.theDestination ≠ aDest := by
      rintro rfl
      exact hother hs
    have hkept : s.theMinElement.erase aDest = .element x.theDestination := by
      rw [Iterator.erase, if_neg hother, hs]
    have hread : MinElement.deref (e.remove aDest).2 (s.theMinElement.erase aDest) = some x := by
      rw [hkept, MinElement.deref, Entry.find_remove, if_neg hne]
      exact Entry.find_of_mem hmin.1
    refine ⟨⟨x, hread⟩, ?_⟩
    rw [EntryLeastImpedance.updateDelDest]
    dsimp only
    split
    · exact designates_update _
    · rw [hkept]
      apply Designates.of_minimal
      refine ⟨?_, fun y hy => hmin.2 y (List.mem_of_mem_eraseP hy)⟩
      rw [hkept] at hread
      exact List.mem_of_find?_eq_some hread

end Minima

section Entries

variable {e : PolicyEntry (policy (W := W))} {c : PolicyEntry.Call (policy (W := W))}

/-- The list and the iterator of an entry. -/
def parts (e : PolicyEntry (policy (W := W))) : Entry W × State := (e.entry, e.state)

/-- The iterator of an entry is a good one. -/
def Good (e : PolicyEntry (policy (W := W))) : Prop :=
  Designates e.entry (State.theMinElement e.state)

/-- The call removes the destination that the iterator is at. -/
def Removes (e : PolicyEntry (policy (W := W))) : PolicyEntry.Call (policy (W := W)) → Prop
  | .remove _ aDest => State.theMinElement e.state = .element aDest
  | _ => False

theorem good_new : Good (.new : PolicyEntry (policy (W := W))) := rfl

/-- A listed element is overwritten. -/
theorem rewrite_spec (h : Good e) {r : Element W} {aDest : String} {x : Element W}
    {hx : e.entry.find aDest = some x} {aWeight : W} {hpos : 0 < aWeight} {f : Element W → Element W}
    {hf : ∀ x, (f x).theDestination = x.theDestination} {hw : ∀ x, (f x).theWeight = aWeight} :
    (updateWeight (e.entry.rewrite aDest f hf) x.theWeight aWeight e.state).map
        (fun s => (e.entry.rewrite aDest f hf, s)) =
      some (parts (e.rewrite r aDest x hx aWeight hpos f hf hw)) ∧
    Good (e.rewrite r aDest x hx aWeight hpos f hf hw) := by
  obtain ⟨-, hempty⟩ | ⟨y, hs, hmin⟩ := designates_iff.mp h
  · have hnone := e.entry.empty_iff.mp hempty aDest
    rw [hx] at hnone
    cases hnone
  · obtain ⟨⟨z, hread⟩, hgood⟩ := hmin.updateWeight hs aDest hf x.theWeight hw r
    refine ⟨?_, hgood⟩
    rw [updateWeight_eq hread r]
    rfl

theorem change_spec (h : Good e) (r : Element W) (aDest : String) (aWeight : W) (aFinal : Bool) :
    change aDest aWeight aFinal e.entry e.state =
        some (parts (e.step (.change r aDest aWeight aFinal))) ∧
      Good (e.step (.change r aDest aWeight aFinal)) := by
  unfold change
  obtain ⟨hr, hstep⟩ | ⟨hr, hpos, ⟨x, hx, hstep⟩ | ⟨hx, hstep⟩⟩ := e.change_cases r aDest aWeight aFinal
  · rw [if_pos hr, hstep]
    exact ⟨rfl, h⟩
  · rw [if_neg hr, hstep]
    split
    · next y hy =>
      cases hx.symm.trans hy
      exact rewrite_spec h
    · next hnone => exact absurd (hx.symm.trans hnone) (Option.some_ne_none _)
  · rw [if_neg hr, hstep]
    split
    · next hsome => exact absurd (hsome.symm.trans hx) (Option.some_ne_none _)
    · obtain ⟨hread, hgood⟩ := h.updateAddDest ⟨aDest, aWeight, aFinal⟩ hx r
      refine ⟨?_, hgood⟩
      dsimp only
      rw [updateAddDest_eq hread r]
      rfl

theorem changeWeight_spec (h : Good e) (r : Element W) (aDest : String) (aWeight : W) :
    changeWeight aDest aWeight e.entry e.state =
        some (parts (e.step (.changeWeight r aDest aWeight))) ∧
      Good (e.step (.changeWeight r aDest aWeight)) := by
  unfold changeWeight
  obtain ⟨hr, hstep⟩ | ⟨hr, hpos, x, hx, hstep⟩ := e.changeWeight_cases r aDest aWeight
  · rw [hstep]
    refine ⟨?_, h⟩
    split
    · rfl
    next hd =>
    split
    · rfl
    next hw =>
    have hx := (hr.resolve_left hd).resolve_left hw
    rw [hx]
    rfl
  · rw [if_neg (not_or.mp hr).1, if_neg (not_or.mp hr).2, hx, hstep]
    exact rewrite_spec h

/-- The iterator is read right after the element was erased. -/
theorem remove_none (h : Good e) {aDest : String}
    (hat : State.theMinElement e.state = .element aDest) : remove aDest e.entry e.state = none := by
  have hdesignated : Designates e.entry (.element aDest) := hat ▸ h
  obtain ⟨x, hx, -⟩ := hdesignated
  unfold remove
  rw [hx]
  dsimp only
  have hread : updateDelDest (e.entry.remove aDest).2 aDest x.theWeight e.state = none := by
    unfold updateDelDest
    rw [hat, Iterator.erase, if_pos rfl]
    rfl
  rw [hread, Option.map_none]

theorem remove_spec (h : Good e) (r : Element W) {aDest : String}
    (hother : State.theMinElement e.state ≠ .element aDest) :
    remove aDest e.entry e.state = some (parts (e.step (.remove r aDest))) ∧
      Good (e.step (.remove r aDest)) := by
  unfold remove
  obtain ⟨hx, hstep⟩ | ⟨x, hx, hentry, hstate⟩ := e.remove_cases r aDest
  · rw [hx, hstep]
    exact ⟨rfl, h⟩
  · obtain ⟨⟨y, hread⟩, hgood⟩ := h.updateDelDest hx hother r
    rw [hx, Good, parts, hentry, hstate]
    refine ⟨?_, hgood⟩
    dsimp only
    rw [updateDelDest_eq hread r]
    rfl

/-- What is chosen has minimal weight. -/
theorem operator_spec (h : Good e) : e.entry.empty = true ∨ ∃ x, Minimal e.entry x ∧
    operator e.entry e.state = some (.ok (x.theDestination, e.state)) := by
  obtain ⟨-, hempty⟩ | ⟨x, hs, hmin⟩ := designates_iff.mp h
  · exact .inl hempty
  · refine .inr ⟨x, hmin, ?_⟩
    have hlisted : e.entry.empty = false := by
      rw [Entry.empty_eq_false_iff]
      exact List.ne_nil_of_mem hmin.1
    unfold operator
    rw [hlisted, hs, hmin.deref]
    rfl

theorem choose_spec (h : Good e) (r : Element W) :
    choose e.entry e.state = some (parts (e.step (.operator r))) ∧ Good (e.step (.operator r)) := by
  have hread : e.entry.empty = true ∨
      ∃ x, deref e.entry (State.theMinElement e.state) = some x := by
    obtain ⟨-, hempty⟩ | ⟨x, hs, hmin⟩ := designates_iff.mp h
    · exact .inl hempty
    · exact .inr ⟨x, hs ▸ hmin.deref⟩
  unfold choose
  rw [operator_eq hread r]
  obtain ⟨⟨err, hop⟩, hstep⟩ | ⟨d, s, hop, hentry, hstate⟩ := e.choice_cases r
  · have hop' : EntryLeastImpedance.operator r e.entry e.state = .error err := hop
    rw [hop', hstep]
    exact ⟨rfl, h⟩
  · have hop' : EntryLeastImpedance.operator r e.entry e.state = .ok (d, s) := hop
    have hsame : s = e.state := by
      unfold EntryLeastImpedance.operator at hop'
      split at hop'
      · cases hop'
      · cases hop'
        rfl
    rw [hop', Good, parts, hentry, hstate, hsame]
    exact ⟨rfl, h⟩

theorem step_spec (h : Good e) (hc : ¬ Removes e c) :
    step (parts e) c = some (parts (e.step c)) ∧ Good (e.step c) := by
  cases c with
  | change r d w f => exact change_spec h r d w f
  | changeWeight r d w => exact changeWeight_spec h r d w
  | remove r d => exact remove_spec h r hc
  | operator r => exact choose_spec h r

theorem step_of_removes (h : Good e) (hc : Removes e c) : step (parts e) c = none := by
  cases c with
  | remove r d => exact remove_none h hc
  | change r d w f | changeWeight r d w | operator r => exact hc.elim

end Entries

/-- For every run of calls on a new entry, the iterator is read at listed elements only and
the choices are of minimal weight exactly when no call removes the destination that the
iterator is at. -/
theorem min_element_iff (calls : List (PolicyEntry.Call (policy (W := W)))) :
    ((run calls).isSome ∧ ∀ pre, pre <+: calls → ∀ e s, run pre = some (e, s) → e.empty = false →
      ∃ x, Minimal e x ∧ operator e s = some (.ok (x.theDestination, s))) ↔
    Runs.Along PolicyEntry.step (fun e c => ¬ Removes e c) .new calls := by
  have hsome : ∀ calls : List (PolicyEntry.Call (policy (W := W))), (run calls).isSome ↔
      Runs.Along PolicyEntry.step (fun e c => ¬ Removes e c) .new calls := fun calls =>
    Runs.foldlM_isSome_iff_along (f := parts) (I := Good) (P := fun e c => ¬ Removes e c)
      (fun _ _ h hc => (step_spec h hc).2) (fun _ _ h hc => (step_spec h hc).1)
      (fun _ _ h hc => step_of_removes h (not_not.mp hc)) good_new
  refine ⟨fun h => (hsome calls).mp h.1, fun h => ⟨(hsome calls).mpr h, ?_⟩⟩
  rintro pre ⟨post, rfl⟩ e s hrun he
  have hpre := (Runs.Along.append.mp h).1
  have hend : run pre = some (parts (Runs.final PolicyEntry.step .new pre)) :=
    Runs.foldlM_of_along (f := parts) (I := Good) (P := fun e c => ¬ Removes e c)
      (fun _ _ h hc => (step_spec h hc).2) (fun _ _ h hc => (step_spec h hc).1) good_new hpre
  have hgood : Good (Runs.final PolicyEntry.step .new pre) :=
    Runs.invariant_along (I := Good) (P := fun e c => ¬ Removes e c)
      (fun _ _ h hc => (step_spec h hc).2) good_new hpre _ (Runs.final_mem_states _ _ _)
  cases hrun.symm.trans hend
  exact (operator_spec hgood).resolve_left (by rw [he]; exact nofun)

/-- The cheapest of two destinations is removed. -/
theorem removed_minimum_read : ¬ ∀ calls : List (PolicyEntry.Call (policy (W := ℚ))),
    (run calls).isSome ∧ ∀ pre, pre <+: calls → ∀ e s, run pre = some (e, s) → e.empty = false →
      ∃ x, Minimal e x ∧ operator e s = some (.ok (x.theDestination, s)) := by
  intro h
  let r : Element ℚ := ⟨"", 0, false⟩
  have hrun := (h [.change r "dest1:666" 1 true, .change r "dest2:666" 2 true,
    .remove r "dest1:666"]).1
  revert hrun
  decide +kernel

end EntryLeastImpedance.MinElement
end ServerlessEdge.Forwarding
