import ServerlessEdge.Library.Checks

/-! Values of a JSON document, built by a program element by element: a value that was
never assigned is null, and becomes an array or an object upon the first element. -/
namespace ServerlessEdge.Library

inductive Json where
  | null
  | number (n : ℕ)
  | string (s : String)
  | array (xs : List Json)
  | object (fields : List (String × Json))

namespace Json
open Checks

def typeName : Json → String
  | null => "null"
  | number _ => "number"
  | string _ => "string"
  | array _ => "array"
  | object _ => "object"

def pushBack : Json → Json → Except String Json
  | null, x => return array [x]
  | array xs, x => return array (xs ++ [x])
  | j, _ => throw ("cannot use push_back() with " ++ j.typeName)

/-- The fields are sorted by their keys. -/
def insertField (k : String) (v : Json) : List (String × Json) → List (String × Json)
  | [] => [(k, v)]
  | x :: fields => match compare k x.1 with
    | .lt => (k, v) :: x :: fields
    | .eq => (k, v) :: fields
    | .gt => x :: insertField k v fields

/-- The value at the key becomes v. -/
def assign : Json → String → Json → Except String Json
  | null, k, v => return object [(k, v)]
  | object fields, k, v => return object (insertField k v fields)
  | j, _, _ => throw ("cannot use operator[] with a string argument with " ++ j.typeName)

/-- The value at the key, if this is an object that has it. -/
def find (k : String) : Json → Option Json
  | object fields => (fields.find? fun x => x.1 = k).map Prod.snd
  | _ => none

/-- What a loop over the value goes through. -/
def elements : Json → List Json
  | null => []
  | array xs => xs
  | object fields => fields.map Prod.snd
  | j => [j]

/-- What a loop over the value goes through, with the keys. -/
def items : Json → List (String × Json)
  | null => []
  | array xs => xs.zipIdx.map fun x => (toString x.2, x.1)
  | object fields => fields
  | j => [("", j)]

def toNumber : Json → Except String ℕ
  | number n => return n
  | j => throw ("type must be number, but is " ++ j.typeName)

def toString : Json → Except String String
  | string s => return s
  | j => throw ("type must be string, but is " ++ j.typeName)

/-- The conversion to a vector; null is not an array. -/
def toVector {α : Type} (convert : Json → Except String α) : Json → Except String (List α)
  | array xs => xs.mapM convert
  | j => throw ("type must be array, but is " ++ j.typeName)

variable {α : Type}

/-- What is left of a value that was never assigned when elements are added. -/
def ofElements : List Json → Json
  | [] => null
  | x :: xs => array (x :: xs)

def ofItems : List (String × Json) → Json
  | [] => null
  | x :: xs => object (x :: xs)

@[simp] theorem elements_ofElements (xs : List Json) : (ofElements xs).elements = xs := by
  cases xs with
  | nil => rfl
  | cons x xs => rfl

@[simp] theorem items_ofItems (xs : List (String × Json)) : (ofItems xs).items = xs := by
  cases xs with
  | nil => rfl
  | cons x xs => rfl

private theorem pushBack_array (f : α → Json) (as : List α) (xs : List Json) :
    as.foldlM (fun j a => j.pushBack (f a)) (array xs) = .ok (array (xs ++ as.map f)) := by
  induction as generalizing xs with
  | nil => simp [pure, Except.pure]
  | cons a as ih =>
    rw [List.foldlM_cons, pushBack]
    exact (ih (xs ++ [f a])).trans (by simp)

theorem pushBack_all (f : α → Json) (as : List α) :
    as.foldlM (fun j a => j.pushBack (f a)) null = .ok (ofElements (as.map f)) := by
  cases as with
  | nil => rfl
  | cons a as => exact pushBack_array f as [f a]

/-- Elements are added to an empty array as they are to null. -/
theorem pushBack_all_array (f : α → Json) (as : List α) :
    as.foldlM (fun j a => j.pushBack (f a)) (array []) = .ok (array (as.map f)) :=
  pushBack_array f as []

theorem assign_null (k : String) (v : Json) : assign null k v = .ok (object [(k, v)]) := rfl

/-- A field in front of the others. -/
theorem assign_first {k k' : String} {v v' : Json} {fields : List (String × Json)}
    (h : compare k k' = .lt) :
    assign (object ((k', v') :: fields)) k v = .ok (object ((k, v) :: (k', v') :: fields)) := by
  rw [assign, insertField, h]
  rfl

theorem insertField_last {k : String} {v : Json} {fields : List (String × Json)}
    (h : ∀ x ∈ fields, compare x.1 k = .lt) : insertField k v fields = fields ++ [(k, v)] := by
  induction fields with
  | nil => rfl
  | cons x fields ih =>
    rw [List.forall_mem_cons] at h
    have hgt : compare k x.1 = .gt := Std.OrientedCmp.gt_iff_lt.mpr h.1
    rw [insertField, hgt, ih h.2]
    rfl

private theorem assign_object (f : α → Json) {as : List (String × α)} {fields : List (String × Json)}
    (hnew : ∀ a ∈ as, ∀ x ∈ fields, compare x.1 a.1 = .lt)
    (hsorted : as.Pairwise fun a b => compare a.1 b.1 = .lt) :
    as.foldlM (fun j a => j.assign a.1 (f a.2)) (object fields) =
      .ok (object (fields ++ as.map fun a => (a.1, f a.2))) := by
  induction as generalizing fields with
  | nil => simp [pure, Except.pure]
  | cons a as ih =>
    obtain ⟨hfirst, hrest⟩ := List.pairwise_cons.mp hsorted
    rw [List.foldlM_cons, assign, insertField_last (hnew a List.mem_cons_self)]
    have hnext : ∀ b ∈ as, ∀ x ∈ fields ++ [(a.1, f a.2)], compare x.1 b.1 = .lt := by
      intro b hb x hx
      rcases List.mem_append.mp hx with hx | hx
      · exact hnew b (List.mem_cons_of_mem a hb) x hx
      · rw [List.mem_singleton.mp hx]
        exact hfirst b hb
    exact (ih hnext hrest).trans (by simp)

/-- Fields assigned in the order of their keys stay in it. -/
theorem assign_all (f : α → Json) {as : List (String × α)}
    (hsorted : as.Pairwise fun a b => compare a.1 b.1 = .lt) :
    as.foldlM (fun j a => j.assign a.1 (f a.2)) null =
      .ok (ofItems (as.map fun a => (a.1, f a.2))) := by
  cases as with
  | nil => rfl
  | cons a as =>
    obtain ⟨hfirst, hrest⟩ := List.pairwise_cons.mp hsorted
    refine assign_object f (fun b hb x hx => ?_) hrest
    rw [List.mem_singleton.mp hx]
    exact hfirst b hb

theorem mapM_convert {f : α → Json} {convert : Json → Except String α}
    (h : ∀ a, convert (f a) = .ok a) (as : List α) : (as.map f).mapM convert = .ok as := by
  rw [List.mapM_map]
  exact (mapM_of_ok fun a _ => h a).trans (congrArg Except.ok (List.map_id as))

/-- An array converts back; without elements there is only null. -/
theorem toVector_ofElements {f : α → Json} {convert : Json → Except String α}
    (h : ∀ a, convert (f a) = .ok a) (as : List α) :
    toVector convert (ofElements (as.map f)) =
      if as = [] then .error "type must be array, but is null" else .ok as := by
  cases as with
  | nil => rfl
  | cons a as => exact mapM_convert h (a :: as)

end Json

end ServerlessEdge.Library
