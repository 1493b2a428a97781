import ServerlessEdge.Forwarding.Entry
import Mathlib.Order.Lattice

/-! The kinds of entries. An entry keeps its list of destinations and tells its
kind of every change to it; the kind keeps what it needs to choose one of them. -/
namespace ServerlessEdge.Forwarding

/-- A kind of entry: its own state, what it does when it is told of a change to
the list, and its choice. The list it gets is the changed one. A reading is what
a call finds outside the entry, such as the time or a random number. -/
structure Policy (W : Type) [Zero W] [LinearOrder W] where
  State : Type
  Reading : Type
  init : State
  updateWeight (r : Reading) (e : Entry W) (aDest : String) (aOldWeight aNewWeight : W) :
    State → State
  updateAddDest (r : Reading) (e : Entry W) (aDest : String) (aWeight : W) : State → State
  updateDelDest (r : Reading) (e : Entry W) (aDest : String) (aWeight : W) : State → State
  operator (r : Reading) (e : Entry W) : State → Except (TableError W) (String × State)
  /-- The state is one for this list. -/
  Fits : Entry W → State → Prop
  fits_init : Fits .new init
  fits_updateWeight {e : Entry W} {s : State} (h : Fits e s) {aDest : String} {x : Element W}
    (hx : e.find aDest = some x) {f : Element W → Element W}
    (hf : ∀ x, (f x).theDestination = x.theDestination) {aNewWeight : W}
    (hw : ∀ x, (f x).theWeight = aNewWeight) (hpos : 0 < aNewWeight) (r : Reading) :
    Fits (e.rewrite aDest f hf)
      (updateWeight r (e.rewrite aDest f hf) aDest x.theWeight aNewWeight s)
  fits_updateAddDest {e : Entry W} {s : State} (h : Fits e s) (x : Element W)
    (hx : e.find x.theDestination = none) (hpos : 0 < x.theWeight) (r : Reading) :
    Fits (e.append x hx) (updateAddDest r (e.append x hx) x.theDestination x.theWeight s)
  fits_updateDelDest {e : Entry W} {s : State} (h : Fits e s) {aDest : String} {x : Element W}
    (hx : e.find aDest = some x) (r : Reading) :
    Fits (e.remove aDest).2 (updateDelDest r (e.remove aDest).2 aDest x.theWeight s)
  /-- Nothing is chosen from an empty list only, and the list stays as it is. -/
  operator_empty {e : Entry W} {s : State} (h : Fits e s) (he : e.empty = true) (r : Reading) :
    operator r e s = .error (.noDestinations none)
  operator_chooses {e : Entry W} {s : State} (h : Fits e s) (he : e.empty = false) (r : Reading) :
    ∃ aDest s', operator r e s = .ok (aDest, s')
  fits_operator {e : Entry W} {s s' : State} (h : Fits e s) {r : Reading} {aDest : String}
    (hs : operator r e s = .ok (aDest, s')) : Fits e s'

variable {W : Type} [Zero W] [LinearOrder W]

/-- An entry of some kind. -/
structure PolicyEntry (P : Policy W) where
  entry : Entry W
  state : P.State
  fits : P.Fits entry state

namespace PolicyEntry

variable {P : Policy W}

def new : PolicyEntry P := ⟨.new, P.init, P.fits_init⟩

def empty (e : PolicyEntry P) : Bool := e.entry.empty

/-- Overwrite a listed element, and tell the kind of its new weight. -/
def rewrite (r : P.Reading) (e : PolicyEntry P) (aDest : String) (x : Element W)
    (hx : e.entry.find aDest = some x) (aWeight : W) (hpos : 0 < aWeight)
    (f : Element W → Element W) (hf : ∀ x, (f x).theDestination = x.theDestination)
    (hw : ∀ x, (f x).theWeight = aWeight) : PolicyEntry P where
  entry := e.entry.rewrite aDest f hf
  state := P.updateWeight r (e.entry.rewrite aDest f hf) aDest x.theWeight aWeight e.state
  fits := P.fits_updateWeight e.fits hx hf hw hpos r

/-- Append an element, and tell the kind. -/
def append (r : P.Reading) (e : PolicyEntry P) (x : Element W)
    (hx : e.entry.find x.theDestination = none) (hpos : 0 < x.theWeight) : PolicyEntry P where
  entry := e.entry.append x hx
  state := P.updateAddDest r (e.entry.append x hx) x.theDestination x.theWeight e.state
  fits := P.fits_updateAddDest e.fits x hx hpos r

/-- Add a new destination or overwrite the weight and the flag of a listed one. -/
def change (r : P.Reading) (e : PolicyEntry P) (aDest : String) (aWeight : W) (aFinal : Bool) :
    Except (TableError W) (PolicyEntry P) :=
  if hr : aDest = "" ∨ aWeight ≤ 0 then .error (.invalidDestination aDest aWeight)
  else
    have hpos : 0 < aWeight := not_le.mp (not_or.mp hr).2
    match hx : e.entry.find aDest with
    | some x => .ok (e.rewrite r aDest x hx aWeight hpos
        (fun x => { x with theWeight := aWeight, theFinal := aFinal })
        (Entry.flagged_destination aWeight aFinal) fun _ => rfl)
    | none => .ok (e.append r ⟨aDest, aWeight, aFinal⟩ hx hpos)

/-- Change the weight of a listed destination. -/
def changeWeight (r : P.Reading) (e : PolicyEntry P) (aDest : String) (aWeight : W) :
    Except (TableError W) (PolicyEntry P) :=
  if aDest = "" then .error (.noDestinations none)
  else if hr : aWeight ≤ 0 then .error (.invalidDestination aDest aWeight)
  else match hx : e.entry.find aDest with
    | some x => .ok (e.rewrite r aDest x hx aWeight (not_le.mp hr)
        (fun x => { x with theWeight := aWeight }) (Entry.weighed_destination aWeight) fun _ => rfl)
    | none => .error (.noDestinations (some aDest))

/-- Remove a destination, and tell the kind; the flag tells if one was actually
removed. -/
def remove (r : P.Reading) (e : PolicyEntry P) (aDest : String) : Bool × PolicyEntry P :=
  match hx : e.entry.find aDest with
  | some x => (true,
      { entry := (e.entry.remove aDest).2
        state := P.updateDelDest r (e.entry.remove aDest).2 aDest x.theWeight e.state
        fits := P.fits_updateDelDest e.fits hx r })
  | none => (false, e)

/-- Choose a destination. -/
def operator (r : P.Reading) (e : PolicyEntry P) : Except (TableError W) (String × PolicyEntry P) :=
  match hx : P.operator r e.entry e.state with
  | .ok (aDest, s) => .ok (aDest, { entry := e.entry, state := s, fits := P.fits_operator e.fits hx })
  | .error err => .error err

theorem change_of_listed {r : P.Reading} {e : PolicyEntry P} {aDest : String} {aWeight : W}
    {aFinal : Bool} (hr : ¬ (aDest = "" ∨ aWeight ≤ 0)) {x : Element W}
    (hx : e.entry.find aDest = some x) :
    e.change r aDest aWeight aFinal =
      .ok (e.rewrite r aDest x hx aWeight (not_le.mp (not_or.mp hr).2)
        (fun x => { x with theWeight := aWeight, theFinal := aFinal }) (fun _ => rfl) fun _ => rfl) := by
  rw [change, dif_neg hr]
  split
  · next y hy =>
    cases hx.symm.trans hy
    rfl
  · next hnone => exact absurd (hx.symm.trans hnone) nofun

theorem change_of_not_listed {r : P.Reading} {e : PolicyEntry P} {aDest : String} {aWeight : W}
    {aFinal : Bool} (hr : ¬ (aDest = "" ∨ aWeight ≤ 0)) (hx : e.entry.find aDest = none) :
    e.change r aDest aWeight aFinal =
      .ok (e.append r ⟨aDest, aWeight, aFinal⟩ hx (not_le.mp (not_or.mp hr).2)) := by
  rw [change, dif_neg hr]
  split
  · next hsome => exact absurd (hx.symm.trans hsome) nofun
  · rfl

/-- Under any kind of entry the list changes alike. -/
theorem change_entry (r : P.Reading) (e : PolicyEntry P) (aDest : String) (aWeight : W)
    (aFinal : Bool) :
    (e.change r aDest aWeight aFinal).map entry = e.entry.change aDest aWeight aFinal := by
  by_cases hr : aDest = "" ∨ aWeight ≤ 0
  · rw [change, Entry.change, dif_pos hr, if_pos hr]
    rfl
  · cases hx : e.entry.find aDest with
    | none =>
      rw [change_of_not_listed hr hx, Entry.change_of_not_listed hr hx]
      rfl
    | some x =>
      rw [change_of_listed hr hx, Entry.change_of_listed hr hx]
      rfl

theorem refused_of_error {r : P.Reading} {e : PolicyEntry P} {aDest : String} {aWeight : W}
    {aFinal : Bool} {err : TableError W} (h : e.change r aDest aWeight aFinal = .error err) :
    aDest = "" ∨ aWeight ≤ 0 := by
  by_contra hr
  rw [change, dif_neg hr] at h
  split at h <;> cases h

theorem changeWeight_entry (r : P.Reading) (e : PolicyEntry P) (aDest : String) (aWeight : W) :
    (e.changeWeight r aDest aWeight).map entry = e.entry.changeWeight aDest aWeight := by
  unfold changeWeight Entry.changeWeight
  by_cases hd : aDest = ""
  · rw [if_pos hd, if_pos hd]
    rfl
  by_cases hr : aWeight ≤ 0
  · rw [if_neg hd, if_neg hd, dif_pos hr, if_pos hr]
    rfl
  rw [if_neg hd, if_neg hd, dif_neg hr, if_neg hr]
  split <;> split
  · rfl
  · next hsome _ hnone => exact absurd (hsome.symm.trans hnone) (Option.some_ne_none _)
  · next hnone _ _ hsome => exact absurd (hsome.symm.trans hnone) (Option.some_ne_none _)
  · rfl

theorem remove_entry (r : P.Reading) (e : PolicyEntry P) (aDest : String) :
    (e.remove r aDest).2.entry = (e.entry.remove aDest).2 := by
  unfold remove
  split
  · rfl
  · next hnone => exact (Entry.remove_of_not_listed hnone).symm

/-- A choice is made exactly from a list that is not empty, and leaves it alone. -/
theorem operator_cases (r : P.Reading) (e : PolicyEntry P) :
    e.empty = true ∧ e.operator r = .error (.noDestinations none) ∨
      e.empty = false ∧ ∃ aDest e', e.operator r = .ok (aDest, e') ∧ e'.entry = e.entry := by
  cases he : e.empty with
  | true =>
    refine .inl ⟨rfl, ?_⟩
    have herror := P.operator_empty e.fits he r
    unfold operator
    split
    · next hok => rw [herror] at hok; cases hok
    · next herr => rw [herror] at herr; cases herr; rfl
  | false =>
    refine .inr ⟨rfl, ?_⟩
    obtain ⟨aDest, s', hchoose⟩ := P.operator_chooses e.fits he r
    unfold operator
    split
    · exact ⟨_, _, rfl, rfl⟩
    · next herr => rw [hchoose] at herr; cases herr

/-- The destinations chosen are those that the kind chooses. -/
theorem operator_ok_iff {r : P.Reading} {e : PolicyEntry P} {aDest : String} :
    (∃ e', e.operator r = .ok (aDest, e')) ↔ ∃ s, P.operator r e.entry e.state = .ok (aDest, s) := by
  unfold operator
  split
  · next d s hs =>
    constructor
    · rintro ⟨e', h⟩
      cases h
      exact ⟨s, hs⟩
    · rintro ⟨s', h⟩
      cases hs.symm.trans h
      exact ⟨_, rfl⟩
  · next err herr =>
    refine iff_of_false (fun h => ?_) fun h => ?_
    · obtain ⟨e', h⟩ := h
      cases h
    · obtain ⟨s, h⟩ := h
      cases herr.symm.trans h

/-- A call of an entry, with what it reads from outside. -/
inductive Call (P : Policy W) where
  | change (r : P.Reading) (aDest : String) (aWeight : W) (aFinal : Bool)
  | changeWeight (r : P.Reading) (aDest : String) (aWeight : W)
  | remove (r : P.Reading) (aDest : String)
  | operator (r : P.Reading)

/-- The entry after a call; one that throws leaves it as it was. -/
def step (e : PolicyEntry P) : Call P → PolicyEntry P
  | .change r aDest aWeight aFinal => match e.change r aDest aWeight aFinal with
    | .ok e => e
    | .error _ => e
  | .changeWeight r aDest aWeight => match e.changeWeight r aDest aWeight with
    | .ok e => e
    | .error _ => e
  | .remove r aDest => (e.remove r aDest).2
  | .operator r => match e.operator r with
    | .ok (_, e) => e
    | .error _ => e

/-- A change is refused, or overwrites a listed element, or appends one. -/
theorem change_cases (r : P.Reading) (e : PolicyEntry P) (aDest : String) (aWeight : W)
    (aFinal : Bool) :
    (aDest = "" ∨ aWeight ≤ 0) ∧ e.step (.change r aDest aWeight aFinal) = e ∨
    ¬ (aDest = "" ∨ aWeight ≤ 0) ∧ ∃ hpos : 0 < aWeight,
      (∃ x, ∃ hx : e.entry.find aDest = some x, e.step (.change r aDest aWeight aFinal) =
        e.rewrite r aDest x hx aWeight hpos
          (fun x => { x with theWeight := aWeight, theFinal := aFinal }) (fun _ => rfl) fun _ => rfl) ∨
      ∃ hx : e.entry.find aDest = none, e.step (.change r aDest aWeight aFinal) =
        e.append r ⟨aDest, aWeight, aFinal⟩ hx hpos := by
  have hstep : e.step (.change r aDest aWeight aFinal) =
      match e.change r aDest aWeight aFinal with
      | .ok e => e
      | .error _ => e := rfl
  rw [hstep]
  by_cases hr : aDest = "" ∨ aWeight ≤ 0
  · refine .inl ⟨hr, ?_⟩
    rw [change, dif_pos hr]
  · refine .inr ⟨hr, not_le.mp (not_or.mp hr).2, ?_⟩
    rw [change, dif_neg hr]
    dsimp only
    split
    · next e' hok =>
      split at hok
      · next x hx =>
        cases hok
        exact .inl ⟨x, hx, rfl⟩
      · next hx =>
        cases hok
        exact .inr ⟨hx, rfl⟩
    · next err herr =>
      split at herr
      · cases herr
      · cases herr

theorem changeWeight_cases (r : P.Reading) (e : PolicyEntry P) (aDest : String) (aWeight : W) :
    (aDest = "" ∨ aWeight ≤ 0 ∨ e.entry.find aDest = none) ∧
        e.step (.changeWeight r aDest aWeight) = e ∨
      ¬ (aDest = "" ∨ aWeight ≤ 0) ∧ ∃ hpos : 0 < aWeight, ∃ x, ∃ hx : e.entry.find aDest = some x,
        e.step (.changeWeight r aDest aWeight) = e.rewrite r aDest x hx aWeight hpos
          (fun x => { x with theWeight := aWeight }) (fun _ => rfl) fun _ => rfl := by
  have hstep : e.step (.changeWeight r aDest aWeight) =
      match e.changeWeight r aDest aWeight with
      | .ok e => e
      | .error _ => e := rfl
  rw [hstep]
  by_cases hd : aDest = ""
  · refine .inl ⟨.inl hd, ?_⟩
    rw [changeWeight, if_pos hd]
  by_cases hr : aWeight ≤ 0
  · refine .inl ⟨.inr (.inl hr), ?_⟩
    rw [changeWeight, if_neg hd, dif_pos hr]
  rw [changeWeight, if_neg hd, dif_neg hr]
  split
  · next e' hok =>
    split at hok
    · next x hx =>
      cases hok
      exact .inr ⟨not_or.mpr ⟨hd, hr⟩, not_le.mp hr, x, hx, rfl⟩
    · cases hok
  · next err herr =>
    split at herr
    · cases herr
    · next hx => exact .inl ⟨.inr (.inr hx), rfl⟩

theorem remove_cases (r : P.Reading) (e : PolicyEntry P) (aDest : String) :
    e.entry.find aDest = none ∧ e.step (.remove r aDest) = e ∨
      ∃ x, e.entry.find aDest = some x ∧ (e.step (.remove r aDest)).entry = (e.entry.remove aDest).2 ∧
        (e.step (.remove r aDest)).state =
          P.updateDelDest r (e.entry.remove aDest).2 aDest x.theWeight e.state := by
  have hstep : e.step (.remove r aDest) = (e.remove r aDest).2 := rfl
  rw [hstep]
  unfold remove
  split
  · next x hx => exact .inr ⟨x, hx, rfl, rfl⟩
  · next hx => exact .inl ⟨hx, rfl⟩

/-- A choice changes no more than the state of the kind. -/
theorem choice_cases (r : P.Reading) (e : PolicyEntry P) :
    (∃ err, P.operator r e.entry e.state = .error err) ∧ e.step (.operator r) = e ∨
      ∃ aDest s, P.operator r e.entry e.state = .ok (aDest, s) ∧
        (e.step (.operator r)).entry = e.entry ∧ (e.step (.operator r)).state = s := by
  have hstep : e.step (.operator r) = match e.operator r with
      | .ok (_, e) => e
      | .error _ => e := rfl
  rw [hstep]
  unfold operator
  split
  · next d e' hok =>
    split at hok
    · next d' s hs =>
      cases hok
      exact .inr ⟨d, s, hs, rfl, rfl⟩
    · cases hok
  · next err herr =>
    split at herr
    · cases herr
    · next err' hs => exact .inl ⟨⟨err', hs⟩, rfl⟩

end PolicyEntry
end ServerlessEdge.Forwarding
