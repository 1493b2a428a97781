import ServerlessEdge.Forwarding.EntryPolicy
import ServerlessEdge.Library.Maps
import Mathlib.Algebra.Field.Defs
import Mathlib.Data.List.MinMax

/-! The kinds of entries that need no queue: a random choice, the smallest weight
and proportional fairness. -/
namespace ServerlessEdge.Forwarding
open Std Library

variable {W : Type}

namespace EntryRandom

variable [Field W] [LinearOrder W]

/-- The sum of the inverses of the weights, kept up to date change by change. -/
structure State (W : Type) where
  theInvSum : W

/-- Walk along the list until the random number is reached; the last element
needs no test. -/
def pick (myRand mySum : W) : Element W → List (Element W) → String
  | x, [] => x.theDestination
  | x, y :: rest =>
    let mySum := mySum + 1 / x.theWeight
    if myRand ≤ mySum then x.theDestination else pick myRand mySum y rest

/-- The reading is a random number in [0,1). -/
def operator (random : W) (e : Entry W) (s : State W) : Except (TableError W) (String × State W) :=
  match e.theDestinations with
  | [] => .error (.noDestinations none)
  | [x] => .ok (x.theDestination, s)
  | x :: rest => .ok (pick (random * s.theInvSum) 0 x rest, s)

def policy : Policy W where
  State := State W
  Reading := W
  init := ⟨0⟩
  updateWeight _ _ _ aOldWeight aNewWeight s := ⟨s.theInvSum + (1 / aNewWeight - 1 / aOldWeight)⟩
  updateAddDest _ _ _ aWeight s := ⟨s.theInvSum + 1 / aWeight⟩
  updateDelDest _ _ _ aWeight s := ⟨s.theInvSum - 1 / aWeight⟩
  operator := operator
  Fits _ _ := True
  fits_init := trivial
  fits_updateWeight := by intros; trivial
  fits_updateAddDest := by intros; trivial
  fits_updateDelDest := by intros; trivial
  operator_empty {e s} _ he r := by
    rw [operator, List.isEmpty_iff.mp he]
  operator_chooses {e s} _ he r := by
    rw [Entry.empty_eq_false_iff] at he
    unfold operator
    split
    · next hnil => exact absurd hnil he
    · exact ⟨_, _, rfl⟩
    · exact ⟨_, _, rfl⟩
  fits_operator := by intros; trivial

end EntryRandom

/-- An iterator into the list of an entry: past its end, at an element, or at one
that was erased since. -/
inductive Iterator where
  | past
  | element (aDest : String)
  | erased
  deriving DecidableEq, Repr

namespace Iterator

/-- What is read through an iterator; one that designates no element reads
whatever the memory holds. -/
def deref (e : Entry W) (aMemory : Element W) : Iterator → Element W
  | .element aDest => (e.find aDest).getD aMemory
  | _ => aMemory

/-- Erasing an element leaves the iterators at it dangling. -/
def erase (aDest : String) (it : Iterator) : Iterator :=
  if it = .element aDest then .erased else it

/-- An iterator at an element, past the end if there is none. -/
def at? : Option (Element W) → Iterator
  | none => .past
  | some x => .element x.theDestination

end Iterator

namespace EntryLeastImpedance

variable [LinearOrder W]

structure State where
  theMinElement : Iterator
  deriving DecidableEq, Repr

/-- Point at the first element of smallest weight. -/
def update (e : Entry W) : State := ⟨.at? (e.theDestinations.argmin Element.theWeight)⟩

/-- The list was changed before this is called, the reading is the memory that a
dangling iterator reads. -/
def updateWeight (aMemory : Element W) (e : Entry W) (aOldWeight aNewWeight : W) (s : State) :
    State :=
  let myMin := s.theMinElement.deref e aMemory
  if aNewWeight ≤ myMin.theWeight ∨ aOldWeight = myMin.theWeight then update e else s

def updateAddDest (aMemory : Element W) (e : Entry W) (aWeight : W) (s : State) : State :=
  if s.theMinElement = .past then ⟨.at? e.theDestinations.head?⟩
  else if aWeight < (s.theMinElement.deref e aMemory).theWeight then update e
  else s

def updateDelDest (aMemory : Element W) (e : Entry W) (aDest : String) (aWeight : W) (s : State) :
    State :=
  let s := { s with theMinElement := s.theMinElement.erase aDest }
  if (s.theMinElement.deref e aMemory).theWeight = aWeight then update e else s

def operator (aMemory : Element W) (e : Entry W) (s : State) :
    Except (TableError W) (String × State) :=
  if e.empty then .error (.noDestinations none)
  else .ok ((s.theMinElement.deref e aMemory).theDestination, s)

theorem update_ne_past {e : Entry W} (he : e.empty = false) :
    (update e).theMinElement ≠ .past := by
  rw [update]
  cases hmin : e.theDestinations.argmin Element.theWeight with
  | none =>
    rw [Entry.empty_eq_false_iff] at he
    exact absurd (List.argmin_eq_none.mp hmin) he
  | some x => exact nofun

/-- The minimum is looked for as soon as there is an element. -/
def policy [Zero W] : Policy W where
  State := State
  Reading := Element W
  init := ⟨.past⟩
  updateWeight aMemory e _ := updateWeight aMemory e
  updateAddDest aMemory e _ := updateAddDest aMemory e
  updateDelDest := updateDelDest
  operator := operator
  Fits e s := e.empty = false → s.theMinElement ≠ .past
  fits_init := nofun
  fits_updateWeight {e s} h {aDest x} hx {f} hf {w} hw hpos r := by
    intro he
    unfold updateWeight
    dsimp only
    split
    · exact update_ne_past he
    · apply h
      simpa [Entry.empty, Entry.rewrite] using he
  fits_updateAddDest {e s} h x hx hpos r := by
    intro he
    unfold updateAddDest
    split
    · rw [Entry.empty_eq_false_iff] at he
      cases hd : (e.append x hx).theDestinations with
      | nil => exact absurd hd he
      | cons y ys => exact nofun
    · next hpast =>
      split
      · exact update_ne_past he
      · exact hpast
  fits_updateDelDest {e s} h {aDest x} hx r := by
    intro he
    unfold updateDelDest
    dsimp only
    split
    · exact update_ne_past he
    · have hne : s.theMinElement ≠ .past := by
        apply h
        rw [Entry.empty_eq_false_iff] at he ⊢
        intro hnil
        exact he (by simp [Entry.remove, hnil])
      rw [Iterator.erase]
      split
      · exact nofun
      · exact hne
  operator_empty {e s} _ he r := by rw [operator, if_pos he]
  operator_chooses {e s} _ he r := ⟨_, _, by rw [operator, if_neg (by simp [he])]⟩
  fits_operator {e s s'} h r aDest hs := by
    unfold operator at hs
    split at hs
    · cases hs
    · cases hs
      exact h

end EntryLeastImpedance

namespace EntryProportionalFairness

/-- For each destination, how often it served and when it last did. -/
structure State (W : Type) where
  thePFstats : ExtTreeMap String (ℕ × W)

variable [Field W] [LinearOrder W] (pow : W → W → W) (theAlpha theBeta : W)

def computeWeight (experiencedLatency : W) (theLambdaServedCount : ℕ)
    (theDestinationTimestamp curTimestamp : W) : W :=
  pow (1 / experiencedLatency) theAlpha /
    pow (theLambdaServedCount / (curTimestamp - theDestinationTimestamp)) theBeta

/-- The destination with the greatest coefficient, an earlier one first. -/
def select (myNow : W) (s : State W) (e : Entry W) : String × W :=
  e.theDestinations.foldl
    (fun (ret, myMaxWeight) x =>
      let myStats := (s.thePFstats[x.theDestination]?).getD (0, 0)
      let myCurWeight := computeWeight pow theAlpha theBeta x.theWeight myStats.1 myStats.2 myNow
      if ret = "" ∨ myCurWeight > myMaxWeight then (x.theDestination, myCurWeight)
      else (ret, myMaxWeight)) ("", 0)

def operator (myNow : W) (e : Entry W) (s : State W) : Except (TableError W) (String × State W) :=
  if e.empty then .error (.noDestinations none)
  else .ok ((select pow theAlpha theBeta myNow s e).1, s)

/-- The destination has served once more. -/
def updateWeight (myNow : W) (aDest : String) (s : State W) : State W :=
  match s.thePFstats[aDest]? with
  | none => s
  | some myStats => ⟨s.thePFstats.insert aDest (myStats.1 + 1, myNow)⟩

/-- The readings are those of the clock of the entry. The statistics are those of
the listed destinations, as its assertions say. -/
def policy : Policy W where
  State := State W
  Reading := W
  init := ⟨∅⟩
  updateWeight myNow _ aDest _ _ := updateWeight myNow aDest
  updateAddDest myNow _ aDest _ s := ⟨s.thePFstats.insertIfNew aDest (1, myNow)⟩
  updateDelDest _ _ aDest _ s := ⟨s.thePFstats.erase aDest⟩
  operator := operator pow theAlpha theBeta
  Fits e s := ∀ aDest, aDest ∈ s.thePFstats ↔ (e.find aDest).isSome
  fits_init := by simp
  fits_updateWeight {e s} h {aDest x} hx {f} hf {w} hw hpos r := by
    intro d
    have hlisted : ((e.rewrite aDest f hf).find d).isSome = (e.find d).isSome := by
      rw [Entry.find_rewrite]
      split <;> simp
    have hmem : aDest ∈ s.thePFstats := (h aDest).mpr (by simp [hx])
    obtain ⟨v, hv⟩ := Maps.lookup_of_mem hmem
    rw [hlisted, ← h, updateWeight, hv, Maps.mem_insert]
    constructor
    · rintro (rfl | hd)
      · exact hmem
      · exact hd
    · exact .inr
  fits_updateAddDest {e s} h x hx hpos r := by
    intro d
    rw [Entry.find_append, ExtTreeMap.mem_insertIfNew, LawfulEqCmp.compare_eq_iff_eq, h]
    by_cases hd : d = x.theDestination
    · simp [hd]
    · simp [hd, Ne.symm hd]
  fits_updateDelDest {e s} h {aDest x} hx r := by
    intro d
    rw [Entry.find_remove, Maps.mem_erase, h]
    by_cases hd : d = aDest <;> simp [hd]
  operator_empty {e s} _ he r := by rw [operator, if_pos he]
  operator_chooses {e s} _ he r := ⟨_, _, by rw [operator, if_neg (by simp [he])]⟩
  fits_operator {e s s'} h r aDest hs := by
    unfold operator at hs
    split at hs
    · cases hs
    · cases hs
      exact h

end EntryProportionalFairness
end ServerlessEdge.Forwarding
