import Mathlib.Data.List.Nodup
import Mathlib.Order.Defs.Unbundled

/-! One row of a forwarding table: the weighted destinations of a lambda.
The weight type is left open; no law is assumed of its comparisons, so that
weights which compare with nothing are covered as well. -/
namespace ServerlessEdge.Forwarding

/-- The exceptions thrown by the tables and their entries. -/
inductive TableError (W : Type) where
  | noDestinations (aEntry : Option String)
  | invalidDestination (aDest : String) (aWeight : W)
  | invalidWeight (aWeight : W)
  | invalidWeightFactor (aFactor : W)
  deriving DecidableEq, Repr

/-- The text carried by an exception. -/
def TableError.what {W : Type} [ToString W] : TableError W → String
  | .noDestinations none => "No destinations found for the entry"
  | .noDestinations (some aEntry) => "No destinations found for the entry: " ++ aEntry
  | .invalidDestination aDest aWeight =>
    "Invalid destination towards '" ++ aDest ++ "' with weight " ++ toString aWeight
  | .invalidWeight aWeight => "Invalid weight '" ++ toString aWeight ++ "', must be > 0"
  | .invalidWeightFactor aFactor =>
    "Invalid weight factor '" ++ toString aFactor ++ "', must be > 0"

/-- A text that goes on after its first three characters is not the one that
stands for a success. -/
theorem append_ne_ok {t : String} (h : 2 < t.length) (aRest : String) :
    t ++ aRest ≠ "OK" := by
  intro heq
  have hlen := congrArg String.length heq
  rw [String.length_append] at hlen
  have hok : "OK".length = 2 := by decide
  omega

theorem TableError.what_ne_ok {W : Type} [ToString W] : ∀ err : TableError W, err.what ≠ "OK"
  | .noDestinations none => by
    have h : "No destinations found for the entry" ≠ "OK" := by decide +kernel
    exact h
  | .noDestinations (some aEntry) =>
    append_ne_ok (t := "No destinations found for the entry: ") (by decide +kernel) aEntry
  | .invalidDestination aDest aWeight => by
    have h := append_ne_ok (t := "Invalid destination towards '") (by decide +kernel)
      (aDest ++ ("' with weight " ++ toString aWeight))
    rw [← String.append_assoc, ← String.append_assoc] at h
    exact h
  | .invalidWeight aWeight => by
    have h := append_ne_ok (t := "Invalid weight '") (by decide +kernel)
      (toString aWeight ++ "', must be > 0")
    rw [← String.append_assoc] at h
    exact h
  | .invalidWeightFactor aFactor => by
    have h := append_ne_ok (t := "Invalid weight factor '") (by decide +kernel)
      (toString aFactor ++ "', must be > 0")
    rw [← String.append_assoc] at h
    exact h

structure Element (W : Type) where
  theDestination : String
  theWeight : W
  theFinal : Bool
  deriving DecidableEq, Repr

/-- An entry never lists a destination twice: change looks a destination up
before it appends one. -/
structure Entry (W : Type) where
  theDestinations : List (Element W)
  distinct : (theDestinations.map Element.theDestination).Nodup

namespace Entry

variable {W : Type}

/-- An entry with no destinations. -/
def new : Entry W := ⟨[], List.nodup_nil⟩

def empty (e : Entry W) : Bool := e.theDestinations.isEmpty

/-- The element of a destination, as std::find_if returns it. -/
def find (e : Entry W) (aDest : String) : Option (Element W) :=
  e.theDestinations.find? fun x => x.theDestination = aDest

/-- Overwrite the elements of one destination. -/
def rewrite (e : Entry W) (aDest : String) (f : Element W → Element W)
    (hf : ∀ x, (f x).theDestination = x.theDestination) : Entry W where
  theDestinations := e.theDestinations.map fun x => if x.theDestination = aDest then f x else x
  distinct := by
    have hn : (e.theDestinations.map fun x => if x.theDestination = aDest then f x else x).map
        Element.theDestination = e.theDestinations.map Element.theDestination := by
      rw [List.map_map]
      apply List.map_congr_left
      intro x _
      simp only [Function.comp_apply]
      split <;> simp [hf]
    rw [hn]
    exact e.distinct

/-- Append a destination that is not listed yet. -/
def append (e : Entry W) (x : Element W) (hx : e.find x.theDestination = none) : Entry W where
  theDestinations := e.theDestinations ++ [x]
  distinct := by
    rw [List.map_append, List.nodup_append]
    refine ⟨e.distinct, by simp, ?_⟩
    intro a ha b hb
    obtain ⟨y, hy, rfl⟩ := List.mem_map.mp ha
    have hne := List.find?_eq_none.mp hx y hy
    simp only [List.map_cons, List.map_nil, List.mem_singleton] at hb
    subst hb
    simpa using hne

/-- A new weight and a new flag leave the destination as it is. -/
theorem flagged_destination (aWeight : W) (aFinal : Bool) (x : Element W) :
    ({ x with theWeight := aWeight, theFinal := aFinal } : Element W).theDestination =
      x.theDestination := rfl

theorem weighed_destination (aWeight : W) (x : Element W) :
    ({ x with theWeight := aWeight } : Element W).theDestination = x.theDestination := rfl

section Change

variable [Zero W] [LE W] [DecidableLE W]

/-- Add a new destination or overwrite the weight and the flag of a listed one. -/
def change (e : Entry W) (aDest : String) (aWeight : W) (aFinal : Bool) :
    Except (TableError W) (Entry W) :=
  if aDest = "" ∨ aWeight ≤ 0 then .error (.invalidDestination aDest aWeight)
  else match hx : e.find aDest with
    | some _ => .ok (e.rewrite aDest
        (fun x => { x with theWeight := aWeight, theFinal := aFinal })
        (flagged_destination aWeight aFinal))
    | none => .ok (e.append ⟨aDest, aWeight, aFinal⟩ hx)

/-- Change the weight of a listed destination. -/
def changeWeight (e : Entry W) (aDest : String) (aWeight : W) :
    Except (TableError W) (Entry W) :=
  if aDest = "" then .error (.noDestinations none)
  else if aWeight ≤ 0 then .error (.invalidDestination aDest aWeight)
  else match e.find aDest with
    | some _ => .ok (e.rewrite aDest (fun x => { x with theWeight := aWeight })
        (weighed_destination aWeight))
    | none => .error (.noDestinations (some aDest))

end Change

/-- The weight of a destination. -/
def weight (e : Entry W) (aDest : String) : Except (TableError W) W :=
  if aDest = "" then .error (.noDestinations none)
  else match e.find aDest with
    | some x => .ok x.theWeight
    | none => .error (.noDestinations (some aDest))

/-- Remove a destination; the flag tells if one was actually removed. -/
def remove (e : Entry W) (aDest : String) : Bool × Entry W :=
  ((e.find aDest).isSome,
    { theDestinations := e.theDestinations.eraseP fun x => x.theDestination = aDest
      distinct := e.distinct.sublist (List.eraseP_sublist.map _) })

@[simp] theorem find_new (aDest : String) : (new : Entry W).find aDest = none := rfl

theorem find_dest {e : Entry W} {aDest : String} {x : Element W} (h : e.find aDest = some x) :
    x.theDestination = aDest := by
  simpa using List.find?_some h

theorem find_of_mem {e : Entry W} {x : Element W} (h : x ∈ e.theDestinations) :
    e.find x.theDestination = some x := by
  cases hfind : e.find x.theDestination with
  | none =>
    have hdiffers := List.find?_eq_none.mp hfind x h
    simp at hdiffers
  | some y =>
    have hmem : y ∈ e.theDestinations := List.mem_of_find?_eq_some hfind
    rw [List.inj_on_of_nodup_map e.distinct hmem h (find_dest hfind)]

theorem find_isSome_iff (e : Entry W) (aDest : String) :
    (e.find aDest).isSome ↔ aDest ∈ e.theDestinations.map Element.theDestination := by
  simp [find, List.find?_isSome]

theorem empty_iff (e : Entry W) : e.empty = true ↔ ∀ aDest, e.find aDest = none := by
  cases hd : e.theDestinations with
  | nil => simp [empty, find, hd]
  | cons x xs =>
    simp only [empty, find, hd, List.isEmpty_cons, Bool.false_eq_true, false_iff, not_forall]
    exact ⟨x.theDestination, by simp⟩

theorem empty_eq_false_iff (e : Entry W) : e.empty = false ↔ e.theDestinations ≠ [] := by
  simp [empty]

theorem remove_of_not_listed {e : Entry W} {aDest : String} (h : e.find aDest = none) :
    (e.remove aDest).2 = e := by
  obtain ⟨l, hl⟩ := e
  simp only [remove, mk.injEq]
  exact List.eraseP_of_forall_not (List.find?_eq_none.mp h)

theorem find_rewrite (e : Entry W) (aDest : String) (f : Element W → Element W)
    (hf : ∀ x, (f x).theDestination = x.theDestination) (d : String) :
    (e.rewrite aDest f hf).find d = if d = aDest then (e.find d).map f else e.find d := by
  have hp : ((fun x : Element W => decide (x.theDestination = d)) ∘
      fun x => if x.theDestination = aDest then f x else x) =
        fun x : Element W => decide (x.theDestination = d) := by
    funext x
    simp only [Function.comp_apply]
    split <;> simp [hf]
  simp only [find, rewrite, List.find?_map, hp]
  cases hd : List.find? (fun x : Element W => decide (x.theDestination = d)) e.theDestinations with
  | none => simp
  | some x =>
    have hx : x.theDestination = d := by simpa using List.find?_some hd
    by_cases h : d = aDest <;> simp [hx, h]

theorem find_append (e : Entry W) (x : Element W) (hx : e.find x.theDestination = none)
    (d : String) :
    (e.append x hx).find d = if d = x.theDestination then some x else e.find d := by
  simp only [find, append, List.find?_append]
  by_cases h : d = x.theDestination
  · subst h
    have hn : e.theDestinations.find? (fun y => y.theDestination = x.theDestination) = none := hx
    simp [hn]
  · simp [h, Ne.symm h]

theorem find_remove (e : Entry W) (aDest d : String) :
    (e.remove aDest).2.find d = if d = aDest then none else e.find d := by
  obtain ⟨l, hl⟩ := e
  simp only [find, remove]
  induction l with
  | nil => simp
  | cons x xs ih =>
    rw [List.map_cons, List.nodup_cons] at hl
    by_cases hx : x.theDestination = aDest
    · subst hx
      rw [List.eraseP_cons_of_pos (by simp)]
      by_cases hd : d = x.theDestination
      · subst hd
        rw [if_pos rfl, List.find?_eq_none]
        intro y hy
        have hne : y.theDestination ≠ x.theDestination := fun h =>
          hl.1 (h ▸ List.mem_map_of_mem hy)
        simpa using hne
      · simp [hd, Ne.symm hd]
    · rw [List.eraseP_cons_of_neg (by simpa using hx)]
      by_cases hd : x.theDestination = d
      · subst hd
        simp [hx]
      · simp only [List.find?_cons, hd, decide_false]
        exact ih hl.2

/-- The list splits at a destination; an overwriting and a removal touch no other part. -/
theorem split_of_find {e : Entry W} {aDest : String} {x : Element W} (h : e.find aDest = some x) :
    ∃ l₁ l₂, e.theDestinations = l₁ ++ x :: l₂ ∧
      (∀ f hf, (e.rewrite aDest f hf).theDestinations = l₁ ++ f x :: l₂) ∧
      (e.remove aDest).2.theDestinations = l₁ ++ l₂ := by
  have hx := find_dest h
  subst hx
  obtain ⟨l₁, l₂, hl⟩ := List.append_of_mem (List.mem_of_find?_eq_some h)
  have hother : (∀ y ∈ l₁, y.theDestination ≠ x.theDestination) ∧
      ∀ y ∈ l₂, y.theDestination ≠ x.theDestination := by
    have hdistinct := e.distinct
    rw [hl, List.map_append, List.map_cons, List.nodup_middle, List.nodup_cons, List.mem_append,
      not_or] at hdistinct
    refine ⟨fun y hy heq => ?_, fun y hy heq => ?_⟩
    · exact hdistinct.1.1 (heq ▸ List.mem_map_of_mem hy)
    · exact hdistinct.1.2 (heq ▸ List.mem_map_of_mem hy)
  refine ⟨l₁, l₂, hl, fun f hf => ?_, ?_⟩
  · have hkept : ∀ l : List (Element W), (∀ y ∈ l, y.theDestination ≠ x.theDestination) →
        l.map (fun y => if y.theDestination = x.theDestination then f y else y) = l := by
      intro l hne
      refine (List.map_congr_left fun y hy => if_neg (hne y hy)).trans (List.map_id' l)
    change e.theDestinations.map (fun y => if y.theDestination = x.theDestination then f y else y) = _
    rw [hl, List.map_append, List.map_cons, hkept l₁ hother.1, hkept l₂ hother.2, if_pos rfl]
  · change e.theDestinations.eraseP (fun y => y.theDestination = x.theDestination) = _
    rw [hl, List.eraseP_append_right _ (by simpa using hother.1), List.eraseP_cons_of_pos (by simp)]

section Change

variable [Zero W] [LE W] [DecidableLE W]

theorem change_of_listed {e : Entry W} {aDest : String} {aWeight : W} {aFinal : Bool}
    (hr : ¬ (aDest = "" ∨ aWeight ≤ 0)) {x : Element W} (hx : e.find aDest = some x) :
    e.change aDest aWeight aFinal = .ok (e.rewrite aDest
      (fun x => { x with theWeight := aWeight, theFinal := aFinal }) fun _ => rfl) := by
  rw [change, if_neg hr]
  split
  · rfl
  · next hnone => exact absurd (hx.symm.trans hnone) nofun

theorem change_of_not_listed {e : Entry W} {aDest : String} {aWeight : W} {aFinal : Bool}
    (hr : ¬ (aDest = "" ∨ aWeight ≤ 0)) (hx : e.find aDest = none) :
    e.change aDest aWeight aFinal = .ok (e.append ⟨aDest, aWeight, aFinal⟩ hx) := by
  rw [change, if_neg hr]
  split
  · next hsome => exact absurd (hx.symm.trans hsome) nofun
  · rfl

/-- A change is accepted exactly for a named destination and a weight that is
not below or equal to zero; it then touches that destination only. -/
theorem change_cases (e : Entry W) (aDest : String) (aWeight : W) (aFinal : Bool) :
    (aDest = "" ∨ aWeight ≤ 0) ∧
      e.change aDest aWeight aFinal = .error (.invalidDestination aDest aWeight) ∨
    ¬ (aDest = "" ∨ aWeight ≤ 0) ∧ ∃ e', e.change aDest aWeight aFinal = .ok e' ∧
      ∀ d, e'.find d = if d = aDest then some ⟨aDest, aWeight, aFinal⟩ else e.find d := by
  by_cases hr : aDest = "" ∨ aWeight ≤ 0
  · exact .inl ⟨hr, by rw [change, if_pos hr]⟩
  · refine .inr ⟨hr, ?_⟩
    cases hx : e.find aDest with
    | some x =>
      refine ⟨_, change_of_listed hr hx, fun d => ?_⟩
      rw [find_rewrite]
      by_cases hd : d = aDest
      · subst hd
        simp [hx, find_dest hx]
      · simp [hd]
    | none => exact ⟨_, change_of_not_listed hr hx, fun d => find_append e _ hx d⟩

/-- Re-weighting leaves the destinations and their flags as they are. -/
theorem changeWeight_final {e e' : Entry W} {aDest : String} {aWeight : W}
    (h : e.changeWeight aDest aWeight = .ok e') (d : String) :
    (e'.find d).map Element.theFinal = (e.find d).map Element.theFinal := by
  unfold changeWeight at h
  split at h
  · cases h
  split at h
  · cases h
  split at h
  · cases h
    rw [find_rewrite]
    split <;> simp [Option.map_map, Function.comp_def]
  · cases h

end Change
end Entry
end ServerlessEdge.Forwarding
