import ServerlessEdge.Library.Maps
import ServerlessEdge.Library.Triple
import ServerlessEdge.Forwarding.Entry
import Mathlib.Data.Set.Basic

/-! The forwarding table of an edge router: a map from lambdas to entries. An
operation that throws keeps what it did to the table before the exception. -/
namespace ServerlessEdge.Forwarding
open Std Library Triple

structure ForwardingTable (W : Type) where
  theTable : ExtTreeMap String (Entry W)

namespace ForwardingTable

variable {W : Type}

def new : ForwardingTable W := ⟨∅⟩

/-- The element of a pair lambda, destination. -/
def find (t : ForwardingTable W) (aLambda aDest : String) : Option (Element W) :=
  t.theTable[aLambda]?.bind fun e => e.find aDest

/-- What the table says of each pair lambda, destination: its final flag, or
nothing if the pair is not in the table. -/
def flags (t : ForwardingTable W) (p : String × String) : Option Bool :=
  (t.find p.1 p.2).map Element.theFinal

/-- The pairs lambda, destination in the table. -/
def pairs (t : ForwardingTable W) : Set (String × String) := {p | (t.flags p).isSome}

/-- Replace the entry of a lambda. -/
def setEntry (t : ForwardingTable W) (aLambda : String) (e : Entry W) : ForwardingTable W :=
  ⟨t.theTable.insert aLambda e⟩

def eraseEntry (t : ForwardingTable W) (aLambda : String) : ForwardingTable W :=
  ⟨t.theTable.erase aLambda⟩

def lambdas (t : ForwardingTable W) : List String := t.theTable.keys

section Operations

variable [Zero W] [LT W] [LE W] [DecidableLT W] [DecidableLE W]

/-- Add a destination or overwrite its weight and flag. The row of a new lambda
is created before the entry checks its arguments, and stays if they are refused. -/
def change (aLambda aDest : String) (aWeight : W) (aFinal : Bool) :
    EStateM (TableError W) (ForwardingTable W) Unit := fun t =>
  if aWeight < 0 then .error (.invalidWeight aWeight) t
  else
    let myEntry := (t.theTable[aLambda]?).getD Entry.new
    match myEntry.change aDest aWeight aFinal with
    | .ok e => .ok () (t.setEntry aLambda e)
    | .error err => .error err (t.setEntry aLambda myEntry)

/-- Change the weight of a listed destination. -/
def changeWeight (aLambda aDest : String) (aWeight : W) :
    EStateM (TableError W) (ForwardingTable W) Unit := fun t =>
  if aDest = "" then .error (.noDestinations none) t
  else if aWeight < 0 then .error (.invalidWeight aWeight) t
  else match t.theTable[aLambda]? with
    | none => .error (.noDestinations none) t
    | some myEntry => match myEntry.changeWeight aDest aWeight with
      | .ok e => .ok () (t.setEntry aLambda e)
      | .error err => .error err t

/-- Multiply the weight of a listed destination. -/
def multiply [Mul W] (aLambda aDest : String) (aFactor : W) :
    EStateM (TableError W) (ForwardingTable W) Unit := fun t =>
  if aDest = "" then .error (.noDestinations none) t
  else if aFactor ≤ 0 then .error (.invalidWeightFactor aFactor) t
  else match t.theTable[aLambda]? with
    | none => .error (.noDestinations none) t
    | some myEntry => match myEntry.weight aDest with
      | .error err => .error err t
      | .ok myWeight => match myEntry.changeWeight aDest (myWeight * aFactor) with
        | .ok e => .ok () (t.setEntry aLambda e)
        | .error err => .error err t

end Operations

/-- Remove one destination, and the row of its lambda once that is empty. -/
def remove (t : ForwardingTable W) (aLambda aDest : String) : ForwardingTable W :=
  match t.theTable[aLambda]? with
  | none => t
  | some myEntry =>
    let e := (myEntry.remove aDest).2
    if e.empty then t.eraseEntry aLambda else t.setEntry aLambda e

/-- Remove all the destinations of a lambda. -/
def removeLambda (t : ForwardingTable W) (aLambda : String) : ForwardingTable W :=
  t.eraseEntry aLambda

@[simp] theorem find_new (l d : String) : (new : ForwardingTable W).find l d = none := by
  simp [find, new]

@[simp] theorem flags_new : (new : ForwardingTable W).flags = fun _ => none := by
  funext p
  simp [flags]

theorem mem_lambdas (t : ForwardingTable W) (l : String) : l ∈ t.lambdas ↔ l ∈ t.theTable :=
  ExtTreeMap.mem_keys

theorem find_setEntry (t : ForwardingTable W) (aLambda : String) (e : Entry W) (l d : String) :
    (t.setEntry aLambda e).find l d = if l = aLambda then e.find d else t.find l d := by
  simp only [find, setEntry, ExtTreeMap.getElem?_insert, LawfulEqCmp.compare_eq_iff_eq,
    eq_comm (a := aLambda)]
  split <;> rfl

theorem find_eraseEntry (t : ForwardingTable W) (aLambda l d : String) :
    (t.eraseEntry aLambda).find l d = if l = aLambda then none else t.find l d := by
  simp only [find, eraseEntry, ExtTreeMap.getElem?_erase, LawfulEqCmp.compare_eq_iff_eq,
    eq_comm (a := aLambda)]
  split <;> rfl

theorem setEntry_self {t : ForwardingTable W} {l : String} {e : Entry W}
    (h : t.theTable[l]? = some e) : t.setEntry l e = t := by
  obtain ⟨m⟩ := t
  rw [setEntry, mk.injEq]
  exact Maps.insert_self h

theorem find_of_entry {t : ForwardingTable W} {l : String} {e : Entry W}
    (h : t.theTable[l]? = some e) (d : String) : t.find l d = e.find d := by
  simp [find, h]

theorem find_getD (t : ForwardingTable W) (l d : String) :
    ((t.theTable[l]?).getD Entry.new).find d = t.find l d := by
  cases h : t.theTable[l]? <;> simp [find, h]

/-- Putting entries with the same flags in a row is not seen by flags. -/
theorem flags_setEntry_of_same {t : ForwardingTable W} {aLambda : String} {e : Entry W}
    (hsame : ∀ d, (e.find d).map Element.theFinal = t.flags (aLambda, d)) :
    (t.setEntry aLambda e).flags = t.flags := by
  funext ⟨l, d⟩
  rw [flags, find_setEntry]
  split
  · next hl =>
    obtain rfl : l = aLambda := hl
    exact hsame d
  · rfl

/-- Removing a pair takes that pair out and leaves every other one alone. -/
theorem find_remove (t : ForwardingTable W) (aLambda aDest l d : String) :
    (t.remove aLambda aDest).find l d =
      if l = aLambda ∧ d = aDest then none else t.find l d := by
  unfold remove
  cases he : t.theTable[aLambda]? with
  | none =>
    dsimp only
    rw [right_eq_ite_iff]
    rintro ⟨rfl, rfl⟩
    simp [find, he]
  | some e =>
    have hrow (d : String) : (e.remove aDest).2.find d =
        if aLambda = aLambda ∧ d = aDest then none else t.find aLambda d := by
      rw [Entry.find_remove, find_of_entry he]
      simp
    have hsame (d : String) (h : l ≠ aLambda) : t.find l d =
        if l = aLambda ∧ d = aDest then none else t.find l d := by simp [h]
    dsimp only
    split
    · next hempty =>
      rw [find_eraseEntry]
      split
      · next hl => rw [hl, ← hrow, (Entry.empty_iff _).mp hempty d]
      · next hl => exact hsame d hl
    · rw [find_setEntry]
      split
      · next hl => rw [hl, hrow]
      · next hl => exact hsame d hl

theorem flags_remove (t : ForwardingTable W) (aLambda aDest : String) :
    (t.remove aLambda aDest).flags = Function.update t.flags (aLambda, aDest) none := by
  funext ⟨l, d⟩
  rw [flags, find_remove, Function.update_apply]
  simp only [Prod.mk.injEq]
  split <;> rfl

theorem flags_removeLambda (t : ForwardingTable W) (aLambda : String) (p : String × String) :
    (t.removeLambda aLambda).flags p = if p.1 = aLambda then none else t.flags p := by
  rw [flags, removeLambda, find_eraseEntry]
  split <;> rfl

theorem flags_eq_none_of_not_mem {t : ForwardingTable W} {p : String × String}
    (h : p.1 ∉ t.lambdas) : t.flags p = none := by
  rw [mem_lambdas] at h
  simp [flags, find, ExtTreeMap.getElem?_eq_none h]

section Operations

variable [Zero W] [LT W] [LE W] [DecidableLT W] [DecidableLE W]

/-- The arguments that change refuses. -/
def Refused (aDest : String) (aWeight : W) : Prop := aWeight < 0 ∨ aDest = "" ∨ aWeight ≤ 0

instance (aDest : String) (aWeight : W) : Decidable (Refused aDest aWeight) :=
  inferInstanceAs (Decidable (_ ∨ _ ∨ _))

/-- A refused change leaves every pair as it was; an accepted one sets the flag
of its own pair only. -/
theorem change_cases (t : ForwardingTable W) (aLambda aDest : String) (aWeight : W)
    (aFinal : Bool) :
    Refused aDest aWeight ∧
        (∃ err t', change aLambda aDest aWeight aFinal t = .error err t' ∧ t'.flags = t.flags) ∨
      ¬ Refused aDest aWeight ∧
        ∃ t', change aLambda aDest aWeight aFinal t = .ok () t' ∧
          t'.flags = Function.update t.flags (aLambda, aDest) (some aFinal) := by
  unfold change
  by_cases hw : aWeight < 0
  · exact .inl ⟨.inl hw, _, t, by rw [if_pos hw], rfl⟩
  rw [if_neg hw]
  dsimp only
  rcases Entry.change_cases ((t.theTable[aLambda]?).getD Entry.new) aDest aWeight aFinal with
    ⟨hr, he⟩ | ⟨hr, e', he, hf⟩
  · refine .inl ⟨.inr hr, _, _, by rw [he], flags_setEntry_of_same fun d => ?_⟩
    rw [find_getD, flags]
  · refine .inr ⟨fun h => h.elim hw hr, _, by rw [he], ?_⟩
    funext ⟨l, d⟩
    rw [flags, find_setEntry, Function.update_apply]
    simp only [Prod.mk.injEq]
    split
    · next hl =>
      subst hl
      rw [hf, find_getD]
      simp only [true_and]
      split <;> rfl
    · next hl => simp [hl, flags]

/-- Re-weighting never touches a pair or its flag, whether it throws or not. -/
theorem changeWeight_cases (t : ForwardingTable W) (aLambda aDest : String) (aWeight : W) :
    ∃ t', (changeWeight aLambda aDest aWeight t = .ok () t' ∨
        ∃ err, changeWeight aLambda aDest aWeight t = .error err t') ∧ t'.flags = t.flags := by
  unfold changeWeight
  split
  · exact ⟨t, .inr ⟨_, rfl⟩, rfl⟩
  split
  · exact ⟨t, .inr ⟨_, rfl⟩, rfl⟩
  split
  · exact ⟨t, .inr ⟨_, rfl⟩, rfl⟩
  · next e he =>
    split
    · next e' hok =>
      refine ⟨_, .inl rfl, flags_setEntry_of_same fun d => ?_⟩
      rw [Entry.changeWeight_final hok, flags, find_of_entry he]
    · exact ⟨t, .inr ⟨_, rfl⟩, rfl⟩

omit [LT W] [DecidableLT W] in
theorem multiply_cases [Mul W] (t : ForwardingTable W) (aLambda aDest : String) (aFactor : W) :
    ∃ t', (multiply aLambda aDest aFactor t = .ok () t' ∨
        ∃ err, multiply aLambda aDest aFactor t = .error err t') ∧ t'.flags = t.flags := by
  unfold multiply
  split
  · exact ⟨t, .inr ⟨_, rfl⟩, rfl⟩
  split
  · exact ⟨t, .inr ⟨_, rfl⟩, rfl⟩
  split
  · exact ⟨t, .inr ⟨_, rfl⟩, rfl⟩
  next e he =>
  split
  · exact ⟨t, .inr ⟨_, rfl⟩, rfl⟩
  split
  · next e' hok =>
    refine ⟨_, .inl rfl, flags_setEntry_of_same fun d => ?_⟩
    rw [Entry.changeWeight_final hok, flags, find_of_entry he]
  · exact ⟨t, .inr ⟨_, rfl⟩, rfl⟩

/-- A weight can be changed exactly for a pair of the table. -/
theorem changeWeight_isOk_iff (t : ForwardingTable W) (aLambda aDest : String) (aWeight : W) :
    (∃ t', changeWeight aLambda aDest aWeight t = .ok () t') ↔
      ¬ Refused aDest aWeight ∧ (t.find aLambda aDest).isSome := by
  have hthrow {err : TableError W} (hrefused : ¬ (¬ Refused aDest aWeight ∧
      (t.find aLambda aDest).isSome)) : (∃ t', EStateM.Result.error err t =
        (.ok () t' : EStateM.Result (TableError W) (ForwardingTable W) Unit)) ↔
        ¬ Refused aDest aWeight ∧ (t.find aLambda aDest).isSome := by
    refine iff_of_false ?_ hrefused
    rintro ⟨_, h⟩
    cases h
  unfold changeWeight
  split
  · next hd => exact hthrow fun h => h.1 (.inr (.inl hd))
  split
  · next hneg => exact hthrow fun h => h.1 (.inl hneg)
  next hd hneg =>
  split
  · next hrow => exact hthrow fun h => by simp [find, hrow] at h
  next e hrow =>
  rw [find_of_entry hrow] at hthrow ⊢
  unfold Entry.changeWeight
  rw [if_neg hd]
  by_cases hpos : aWeight ≤ 0
  · rw [if_pos hpos]
    exact hthrow fun h => h.1 (.inr (.inr hpos))
  rw [if_neg hpos]
  cases hx : e.find aDest with
  | none =>
    refine iff_of_false ?_ fun h => by simp at h
    rintro ⟨_, h⟩
    cases h
  | some x =>
    refine iff_of_true ⟨_, rfl⟩ ⟨?_, rfl⟩
    rintro (h | h | h)
    · exact hneg h
    · exact hd h
    · exact hpos h

end Operations

section Full

variable {t : ForwardingTable W}

/-- No row is empty. -/
def Full (t : ForwardingTable W) : Prop :=
  ∀ (l : String) (e : Entry W), t.theTable[l]? = some e → e.empty = false

theorem full_setEntry (h : t.Full) (l : String) {e : Entry W} :
    (t.setEntry l e).Full ↔ e.empty = false := by
  constructor
  · intro hfull
    exact hfull l e (by simp [setEntry])
  · intro he l' e' hl'
    rw [setEntry, Maps.lookup_insert] at hl'
    split at hl'
    · cases hl'
      exact he
    · exact h l' e' hl'

theorem full_eraseEntry (h : t.Full) (l : String) : (t.eraseEntry l).Full := by
  intro l' e' hl'
  rw [eraseEntry, Maps.lookup_erase] at hl'
  split at hl'
  · cases hl'
  · exact h l' e' hl'

theorem full_remove (h : t.Full) (l d : String) : (t.remove l d).Full := by
  unfold remove
  split
  · exact h
  · dsimp only
    split
    · exact full_eraseEntry h l
    · next he =>
      rw [full_setEntry h]
      exact Bool.eq_false_iff.mpr he

variable [Zero W] [LT W] [LE W] [DecidableLT W] [DecidableLE W]

/-- A change refused by the entry creates an empty row for a new lambda. -/
def Slips (t : ForwardingTable W) (aLambda aDest : String) (aWeight : W) : Prop :=
  ¬ aWeight < 0 ∧ (aDest = "" ∨ aWeight ≤ 0) ∧ aLambda ∉ t.theTable

theorem full_change_iff (h : t.Full) (l d : String) (w : W) (f : Bool) :
    (after (change l d w f) t).Full ↔ ¬ t.Slips l d w := by
  rw [after, change, Slips]
  by_cases hw : w < 0
  · simp only [if_pos hw, not_not.mpr hw, false_and, not_false_eq_true, iff_true]
    exact h
  rw [if_neg hw]
  obtain ⟨hr, he⟩ | ⟨hr, e', he, hf⟩ :=
    Entry.change_cases ((t.theTable[l]?).getD Entry.new) d w f
  · simp only [he, full_setEntry h, hw, hr, not_false_eq_true, true_and, not_not]
    constructor
    · intro hne
      by_contra hl
      rw [ExtTreeMap.getElem?_eq_none hl] at hne
      cases hne
    · intro hl
      obtain ⟨e, hrow⟩ := Maps.lookup_of_mem hl
      rw [hrow]
      exact h l e hrow
  · simp only [he, full_setEntry h, hr, false_and, and_false, not_false_eq_true, iff_true]
    rw [Bool.eq_false_iff, Ne, Entry.empty_iff]
    intro hempty
    have hd := hf d
    rw [hempty d, if_pos rfl] at hd
    cases hd

omit [LT W] [DecidableLT W] in
theorem full_reweigh (h : t.Full) {l : String} {e e' : Entry W} (he : t.theTable[l]? = some e)
    {d : String} {w : W} (hok : e.changeWeight d w = .ok e') : (t.setEntry l e').Full := by
  rw [full_setEntry h, Bool.eq_false_iff, Ne, Entry.empty_iff]
  intro hempty
  have hne := h l e he
  rw [Bool.eq_false_iff, Ne, Entry.empty_iff] at hne
  apply hne
  intro d'
  have hfinal := Entry.changeWeight_final hok d'
  rw [hempty, Option.map_none, eq_comm, Option.map_eq_none_iff] at hfinal
  exact hfinal

theorem full_changeWeight (h : t.Full) (l d : String) (w : W) :
    (after (changeWeight l d w) t).Full := by
  unfold after changeWeight
  split_ifs
  · exact h
  · exact h
  cases he : t.theTable[l]? with
  | none => exact h
  | some e =>
    dsimp only
    cases hok : e.changeWeight d w with
    | ok e' => exact full_reweigh h he hok
    | error err => exact h

omit [LT W] [DecidableLT W] in
theorem full_multiply [Mul W] (h : t.Full) (l d : String) (w : W) :
    (after (multiply l d w) t).Full := by
  unfold after multiply
  split_ifs
  · exact h
  · exact h
  cases he : t.theTable[l]? with
  | none => exact h
  | some e =>
    dsimp only
    cases e.weight d with
    | error err => exact h
    | ok myWeight =>
      dsimp only
      cases hok : e.changeWeight d (myWeight * w) with
      | ok e' => exact full_reweigh h he hok
      | error err => exact h

end Full
end ForwardingTable
end ServerlessEdge.Forwarding
