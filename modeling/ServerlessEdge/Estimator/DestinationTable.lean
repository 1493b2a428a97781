import ServerlessEdge.Library.Rows
import Mathlib.Algebra.Order.Ring.Rat

/-! The descriptors of the destinations of each lambda, and the choice among them
by an objective function. -/
namespace ServerlessEdge.Estimator
open Std Library Rows

/-- The text of NoDestinations when thrown without an entry. -/
def noDestinations : String := "No destinations found for the entry"

def invalidDestination (aLambda aDest : String) : String :=
  "Invalid destination towards '" ++ aDest ++ "' for lambda function '" ++ aLambda ++ "'"

/-- The lowest and the largest finite value of a float. -/
def lowest : ℚ := -(2 ^ 128 - 2 ^ 104)

def largest : ℚ := 2 ^ 128 - 2 ^ 104

structure DestinationTable (T : Type) where
  theCtorFunc : String → String → T
  theDescriptors : ExtTreeMap String (ExtTreeMap String T)

/-- The value of a descriptor; asking for it may change the descriptor, and
other data that it looks at. -/
abbrev ObjFunc (S T : Type) := T → S → (ℚ × T) × S

/-- The values of some destinations, in their order, with the descriptors left. -/
def evaluate {S T : Type} (aObjFunc : ObjFunc S T) :
    List (String × T) → S → List (String × ℚ × T) × S
  | [], s => ([], s)
  | x :: xs, s =>
    let myRet := aObjFunc x.2 s
    let myRest := evaluate aObjFunc xs myRet.2
    ((x.1, myRet.1) :: myRest.1, myRest.2)

/-- The row with the descriptors left by an evaluation. -/
def refreshed {T : Type} (aRow : ExtTreeMap String T) (aValues : List (String × ℚ × T)) :
    ExtTreeMap String T :=
  aValues.foldl (fun r x => r.insert x.1 x.2.2) aRow

namespace DestinationTable

variable {S T : Type}

def new (aCtorFunc : String → String → T) : DestinationTable T := ⟨aCtorFunc, ∅⟩

def setRow (t : DestinationTable T) (aLambda : String) (aRow : ExtTreeMap String T) :
    DestinationTable T :=
  { t with theDescriptors := t.theDescriptors.insert aLambda aRow }

/-- The pairs lambda, destination with a descriptor. -/
def Known (t : DestinationTable T) (aLambda aDestination : String) : Prop :=
  (lookup t.theDescriptors aLambda aDestination).isSome

/-- Change a descriptor in place. -/
def update (t : DestinationTable T) (aLambda aDestination : String) (f : T → T) :
    Except String (DestinationTable T) :=
  match lookup t.theDescriptors aLambda aDestination with
  | none => throw (invalidDestination aLambda aDestination)
  | some x => return { t with theDescriptors := put t.theDescriptors aLambda aDestination (f x) }

/-- The first destination with the largest value, above the lowest one. -/
def largestOf (aValues : List (String × ℚ × T)) : String × ℚ :=
  aValues.foldl (fun b x => if b.2 < x.2.1 then (x.1, x.2.1) else b) ("", lowest)

def best (t : DestinationTable T) (aLambda : String) (aObjFunc : ObjFunc S T) (s : S) :
    Except String ((String × ℚ) × DestinationTable T × S) :=
  match t.theDescriptors[aLambda]? with
  | none => throw noDestinations
  | some r =>
    let myValues := evaluate aObjFunc r.toList s
    return (largestOf myValues.1, t.setRow aLambda (refreshed r myValues.1), myValues.2)

/-- All the values, in the order of the destinations. -/
def all (t : DestinationTable T) (aLambda : String) (aObjFunc : ObjFunc S T) (s : S) :
    Except String (List (String × ℚ) × DestinationTable T × S) :=
  match t.theDescriptors[aLambda]? with
  | none => throw noDestinations
  | some r =>
    let myValues := evaluate aObjFunc r.toList s
    return (myValues.1.map fun x => (x.1, x.2.1), t.setRow aLambda (refreshed r myValues.1),
      myValues.2)

def add (t : DestinationTable T) (aLambda aDestination : String) : Bool × DestinationTable T :=
  let myRow := t.theDescriptors.getD aLambda ∅
  if aDestination ∈ myRow then (false, t)
  else (true, t.setRow aLambda (myRow.insert aDestination (t.theCtorFunc aLambda aDestination)))

def remove (t : DestinationTable T) (aLambda aDestination : String) : Bool × DestinationTable T :=
  match t.theDescriptors[aLambda]? with
  | none => (false, t)
  | some r =>
    if aDestination ∉ r then (false, t)
    else
      let myLeft := r.erase aDestination
      (true, { t with theDescriptors := if myLeft.isEmpty then t.theDescriptors.erase aLambda
        else t.theDescriptors.insert aLambda myLeft })

theorem known_iff_row {t : DestinationTable T} {l : String} {r : ExtTreeMap String T}
    (h : t.theDescriptors[l]? = some r) (d : String) : t.Known l d ↔ d ∈ r := by
  rw [Known, lookup_of_row h, ExtTreeMap.mem_iff_isSome_getElem?]

@[simp] theorem not_known_new (f : String → String → T) (l d : String) : ¬ (new f).Known l d := by
  simp [Known, new]

theorem known_add (t : DestinationTable T) (l d l' d' : String) :
    (t.add l d).2.Known l' d' ↔ l' = l ∧ d' = d ∨ t.Known l' d' := by
  have hrow : d ∈ t.theDescriptors.getD l ∅ ↔ t.Known l d := by
    rw [Known, ExtTreeMap.mem_iff_isSome_getElem?, lookup_getD]
  unfold add
  dsimp only
  split
  · next hd =>
    constructor
    · exact .inr
    · rintro (⟨rfl, rfl⟩ | h)
      · exact hrow.mp hd
      · exact h
  · change (lookup (put _ _ _ _) l' d').isSome ↔ _
    rw [lookup_put, Known]
    split <;> simp [*]

theorem known_remove (t : DestinationTable T) (l d l' d' : String) :
    (t.remove l d).2.Known l' d' ↔ ¬ (l' = l ∧ d' = d) ∧ t.Known l' d' := by
  have hunknown (h : ¬ t.Known l d) : t.Known l' d' ↔ ¬ (l' = l ∧ d' = d) ∧ t.Known l' d' := by
    constructor
    · intro h'
      refine ⟨?_, h'⟩
      rintro ⟨rfl, rfl⟩
      exact h h'
    · exact And.right
  unfold remove
  cases hr : t.theDescriptors[l]? with
  | none =>
    apply hunknown
    simp [Known, lookup, hr]
  | some r =>
    dsimp only
    split
    · next hd =>
      apply hunknown
      rw [known_iff_row hr]
      exact hd
    · have hdrop : (if (r.erase d).isEmpty then t.theDescriptors.erase l
          else t.theDescriptors.insert l (r.erase d)) = drop t.theDescriptors l d := by
        simp only [drop, hr]
      rw [Known, hdrop, lookup_drop, Known]
      split <;> simp [*]

section Evaluation

variable {f : ObjFunc S T}

theorem evaluate_keys (xs : List (String × T)) (s : S) :
    (evaluate f xs s).1.map Prod.fst = xs.map Prod.fst := by
  induction xs generalizing s with
  | nil => rfl
  | cons x xs ih => simp only [evaluate, List.map_cons, ih]

/-- What an objective function keeps, an evaluation keeps. -/
theorem evaluate_keeps {P : S → Prop} (hf : ∀ x s, P s → P (f x s).2) (xs : List (String × T))
    {s : S} (hs : P s) : P (evaluate f xs s).2 := by
  induction xs generalizing s with
  | nil => exact hs
  | cons x xs ih => exact ih (hf x.2 s hs)

theorem mem_refreshed (r : ExtTreeMap String T) (ys : List (String × ℚ × T)) (k : String) :
    k ∈ refreshed r ys ↔ k ∈ r ∨ k ∈ ys.map Prod.fst := by
  induction ys generalizing r with
  | nil => simp [refreshed]
  | cons y ys ih =>
    have hstep : refreshed r (y :: ys) = refreshed (r.insert y.1 y.2.2) ys := rfl
    rw [hstep, ih, Maps.mem_insert, List.map_cons, List.mem_cons]
    tauto

/-- An evaluation leaves the same destinations in the row. -/
theorem known_refreshed {t : DestinationTable T} {l : String} {r : ExtTreeMap String T}
    (hr : t.theDescriptors[l]? = some r) (s : S) (l' d' : String) :
    (t.setRow l (refreshed r (evaluate f r.toList s).1)).Known l' d' ↔ t.Known l' d' := by
  rw [Known, setRow, lookup_insert_row]
  split
  · next hl =>
    subst hl
    rw [known_iff_row hr, ← ExtTreeMap.mem_iff_isSome_getElem?, mem_refreshed, evaluate_keys,
      ExtTreeMap.map_fst_toList_eq_keys, ExtTreeMap.mem_keys, or_self]
  · rfl

/-- The destination chosen is one of those evaluated, or none was. -/
theorem largestOf_mem (ys : List (String × ℚ × T)) :
    (largestOf ys).1 = "" ∨ (largestOf ys).1 ∈ ys.map Prod.fst := by
  have h : ∀ (ys : List (String × ℚ × T)) (b : String × ℚ),
      (ys.foldl (fun b x => if b.2 < x.2.1 then (x.1, x.2.1) else b) b).1 = b.1 ∨
        (ys.foldl (fun b x => if b.2 < x.2.1 then (x.1, x.2.1) else b) b).1 ∈ ys.map Prod.fst := by
    intro ys
    induction ys with
    | nil => exact fun b => .inl rfl
    | cons y ys ih =>
      intro b
      rw [List.foldl_cons, List.map_cons, List.mem_cons]
      rcases ih (if b.2 < y.2.1 then (y.1, y.2.1) else b) with h | h
      · rw [h]
        split
        · exact .inr (.inl rfl)
        · exact .inl rfl
      · exact .inr (.inr h)
  exact h ys ("", lowest)

theorem best_spec (t : DestinationTable T) (l : String) {P : S → Prop}
    (hf : ∀ x s, P s → P (f x s).2) {s : S} (hs : P s) {b : String × ℚ} {t' : DestinationTable T}
    {s' : S} (h : t.best l f s = .ok (b, t', s')) :
    (b.1 = "" ∨ t.Known l b.1) ∧ (∀ l' d', t'.Known l' d' ↔ t.Known l' d') ∧ P s' := by
  unfold best at h
  cases hr : t.theDescriptors[l]? with
  | none =>
    rw [hr] at h
    cases h
  | some r =>
    rw [hr] at h
    cases h
    refine ⟨?_, known_refreshed hr s, evaluate_keeps hf _ hs⟩
    have hmem := largestOf_mem (evaluate f r.toList s).1
    rw [evaluate_keys, ExtTreeMap.map_fst_toList_eq_keys, ExtTreeMap.mem_keys] at hmem
    exact hmem.imp_right (known_iff_row hr _).mpr

theorem all_spec (t : DestinationTable T) (l : String) {P : S → Prop}
    (hf : ∀ x s, P s → P (f x s).2) {s : S} (hs : P s) {vs : List (String × ℚ)}
    {t' : DestinationTable T} {s' : S} (h : t.all l f s = .ok (vs, t', s')) :
    (∀ d, d ∈ vs.map Prod.fst ↔ t.Known l d) ∧ (∀ l' d', t'.Known l' d' ↔ t.Known l' d') ∧ P s' := by
  unfold all at h
  cases hr : t.theDescriptors[l]? with
  | none =>
    rw [hr] at h
    cases h
  | some r =>
    rw [hr] at h
    cases h
    refine ⟨fun d => ?_, known_refreshed hr s, evaluate_keeps hf _ hs⟩
    have hkeys : ((evaluate f r.toList s).1.map fun x => (x.1, x.2.1)).map Prod.fst =
        (evaluate f r.toList s).1.map Prod.fst := by
      rw [List.map_map]
      rfl
    rw [hkeys, evaluate_keys, ExtTreeMap.map_fst_toList_eq_keys, ExtTreeMap.mem_keys,
      known_iff_row hr]

end Evaluation

theorem update_spec {t t' : DestinationTable T} {l d : String} {f : T → T}
    (h : t.update l d f = .ok t') (l' d' : String) : t'.Known l' d' ↔ t.Known l' d' := by
  unfold update at h
  cases hx : lookup t.theDescriptors l d with
  | none =>
    rw [hx] at h
    cases h
  | some x =>
    rw [hx] at h
    cases h
    rw [Known, lookup_put, Known]
    split
    · next heq =>
      obtain ⟨rfl, rfl⟩ := heq
      simp [hx]
    · rfl

end DestinationTable
end ServerlessEdge.Estimator
