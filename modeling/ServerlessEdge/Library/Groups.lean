import Mathlib.Data.Finset.Card
import ServerlessEdge.Library.Maps

/-! Groups of members, one for each key, and what is heard of the groups that
become occupied or vacant while members join and leave. -/
namespace ServerlessEdge.Library.Groups

/-- A member joins or leaves the group of a key. -/
inductive Change (K V : Type*) where
  | join (v : V) (k : K)
  | leave (v : V) (k : K)
  deriving DecidableEq, Repr

/-- The group of a key is no longer vacant, or is vacant again. -/
inductive Edge (K : Type*) where
  | occupied (k : K)
  | vacant (k : K)
  deriving DecidableEq, Repr

/-- The members of each group. -/
abbrev Grouping (K V : Type*) := K → Finset V

section Alternation

/-- The values alternate, and the first one is the one given. -/
def Alternates : Bool → List Bool → Prop
  | _, [] => True
  | b, x :: xs => x = b ∧ Alternates (!b) xs

/-- The group of a key becomes occupied (true) or vacant (false). -/
def Edge.at? {K : Type*} [DecidableEq K] (k : K) : Edge K → Option Bool
  | .occupied k' => if k' = k then some true else none
  | .vacant k' => if k' = k then some false else none

end Alternation

variable {K V : Type*} [DecidableEq K] [DecidableEq V]

def Change.key : Change K V → K
  | .join _ k => k
  | .leave _ k => k

def Change.apply : Change K V → Grouping K V → Grouping K V
  | .join v k, g => Function.update g k (insert v (g k))
  | .leave v k, g => Function.update g k ((g k).erase v)

/-- A change is heard of when the size of its group goes from zero to one or
from one to zero. -/
def Change.heard (x : Change K V) (g : Grouping K V) : List (Edge K) :=
  if (g x.key).card = 0 ∧ (x.apply g x.key).card = 1 then [.occupied x.key]
  else if (g x.key).card = 1 ∧ (x.apply g x.key).card = 0 then [.vacant x.key]
  else []

/-- The groups after some changes. -/
def applyAll (g : Grouping K V) (xs : List (Change K V)) : Grouping K V :=
  xs.foldl (fun g x => x.apply g) g

/-- All that is heard of some changes, in their order. -/
def edges : Grouping K V → List (Change K V) → List (Edge K)
  | _, [] => []
  | g, x :: xs => x.heard g ++ edges (x.apply g) xs

theorem applyAll_append (g : Grouping K V) (xs ys : List (Change K V)) :
    applyAll g (xs ++ ys) = applyAll (applyAll g xs) ys := List.foldl_append

theorem edges_append (g : Grouping K V) (xs ys : List (Change K V)) :
    edges g (xs ++ ys) = edges g xs ++ edges (applyAll g xs) ys := by
  induction xs generalizing g with
  | nil => rfl
  | cons x xs ih =>
    rw [List.cons_append, edges, edges, ih, List.append_assoc]
    rfl

theorem heard_join (v : V) (k : K) (g : Grouping K V) :
    (Change.join v k).heard g = if g k = ∅ then [.occupied k] else [] := by
  simp only [Change.heard, Change.key, Change.apply, Function.update_self, Finset.card_eq_zero,
    Finset.insert_ne_empty, and_false, if_false]
  by_cases h : g k = ∅ <;> simp [h]

theorem heard_leave (v : V) (k : K) (g : Grouping K V) :
    (Change.leave v k).heard g = if g k = {v} then [.vacant k] else [] := by
  simp only [Change.heard, Change.key, Change.apply, Function.update_self]
  by_cases h : g k = {v}
  · simp [h]
  · have hzero : ¬ ((g k).card = 0 ∧ ((g k).erase v).card = 1) := by
      rintro ⟨h0, h1⟩
      have hle := Finset.card_erase_le (s := g k) (a := v)
      omega
    have hone : ¬ ((g k).card = 1 ∧ ((g k).erase v).card = 0) := by
      rintro ⟨h1, h0⟩
      obtain ⟨w, hw⟩ := Finset.card_eq_one.mp h1
      rw [hw] at h h0
      have hvw : v ≠ w := fun hvw => h (by rw [hvw])
      rw [Finset.erase_eq_of_notMem (by simpa using hvw), Finset.card_singleton] at h0
      cases h0
    rw [if_neg hzero, if_neg hone, if_neg h]

theorem join_eq_empty (v : V) (k k' : K) (g : Grouping K V) :
    (Change.join v k').apply g k = ∅ ↔ k' ≠ k ∧ g k = ∅ := by
  rw [Change.apply]
  by_cases hk : k = k'
  · subst hk
    simp
  · rw [Function.update_of_ne hk]
    simp [Ne.symm hk]

theorem leave_eq_empty (v : V) (k k' : K) (g : Grouping K V) :
    (Change.leave v k').apply g k = ∅ ↔ g k = ∅ ∨ k' = k ∧ g k = {v} := by
  rw [Change.apply]
  by_cases hk : k = k'
  · subst hk
    rw [Function.update_self, Finset.erase_eq_empty_iff]
    simp
  · rw [Function.update_of_ne hk]
    simp [Ne.symm hk]

/-- For each key the edges alternate, and they begin with the group becoming
occupied if it is vacant at first. -/
theorem edges_alternate (k : K) (g : Grouping K V) (xs : List (Change K V)) :
    Alternates (decide (g k = ∅)) ((edges g xs).filterMap (Edge.at? k)) := by
  induction xs generalizing g with
  | nil => trivial
  | cons x xs ih =>
    have hrest := ih (x.apply g)
    rw [edges, List.filterMap_append]
    cases x with
    | join v k' =>
      rw [heard_join]
      simp only [join_eq_empty] at hrest
      by_cases hk : k' = k
      · subst hk
        by_cases hg : g k' = ∅
        · simpa [hg, Edge.at?, Alternates] using hrest
        · simpa [hg, Edge.at?] using hrest
      · by_cases hg : g k' = ∅ <;> simpa [hg, Edge.at?, hk] using hrest
    | leave v k' =>
      rw [heard_leave]
      simp only [leave_eq_empty] at hrest
      by_cases hk : k' = k
      · subst hk
        by_cases hg : g k' = {v}
        · simpa [hg, Edge.at?, Alternates] using hrest
        · simpa [hg, Edge.at?] using hrest
      · by_cases hg : g k' = {v} <;> simpa [hg, Edge.at?, hk] using hrest

theorem mem_joins (v : V) (ks : List K) (g : Grouping K V) (w : V) (k : K) :
    w ∈ applyAll g (ks.map (.join v)) k ↔ w ∈ g k ∨ w = v ∧ k ∈ ks := by
  induction ks generalizing g with
  | nil => simp [applyAll]
  | cons k' ks ih =>
    rw [List.map_cons, applyAll, List.foldl_cons]
    refine (ih _).trans ?_
    rw [Change.apply, List.mem_cons]
    by_cases hk : k = k'
    · subst hk
      rw [Function.update_self, Finset.mem_insert]
      tauto
    · rw [Function.update_of_ne hk]
      tauto

theorem mem_leaves (v : V) (ks : List K) (g : Grouping K V) (w : V) (k : K) :
    w ∈ applyAll g (ks.map (.leave v)) k ↔ w ∈ g k ∧ ¬ (w = v ∧ k ∈ ks) := by
  induction ks generalizing g with
  | nil => simp [applyAll]
  | cons k' ks ih =>
    rw [List.map_cons, applyAll, List.foldl_cons]
    refine (ih _).trans ?_
    rw [Change.apply, List.mem_cons]
    by_cases hk : k = k'
    · subst hk
      rw [Function.update_self, Finset.mem_erase]
      tauto
    · rw [Function.update_of_ne hk]
      tauto

section Rows

open Std Maps

variable {K V : Type} [DecidableEq K] [DecidableEq V] {cmp : K → K → Ordering}
  {cmp' : V → V → Ordering} [TransCmp cmp] [TransCmp cmp'] [LawfulEqCmp cmp] [LawfulEqCmp cmp']

/-- The groups that a map from keys to sets stands for. -/
def groups (m : ExtTreeMap K (ExtTreeSet V cmp') cmp) : Grouping K V :=
  fun k => (m.getD k ∅).toList.toFinset

/-- No key is mapped to an empty set. -/
def Occupied (m : ExtTreeMap K (ExtTreeSet V cmp') cmp) : Prop :=
  ∀ (k : K) (r : ExtTreeSet V cmp'), m[k]? = some r → r.isEmpty = false

def rowsJoin (v : V) (m : ExtTreeMap K (ExtTreeSet V cmp') cmp) (k : K) :
    ExtTreeMap K (ExtTreeSet V cmp') cmp := m.insert k ((m.getD k ∅).insert v)

/-- A row that is left empty is erased. -/
def rowsLeave (v : V) (m : ExtTreeMap K (ExtTreeSet V cmp') cmp) (k : K) :
    ExtTreeMap K (ExtTreeSet V cmp') cmp :=
  match m[k]? with
  | none => m
  | some r => if (r.erase v).isEmpty then m.erase k else m.insert k (r.erase v)

variable {m : ExtTreeMap K (ExtTreeSet V cmp') cmp}

omit [DecidableEq K] [LawfulEqCmp cmp] in
theorem mem_groups {v : V} {k : K} : v ∈ groups m k ↔ v ∈ m.getD k ∅ := by
  rw [groups, List.mem_toFinset, ExtTreeSet.mem_toList]

omit [DecidableEq K] [LawfulEqCmp cmp] in
theorem groups_eq_empty {k : K} : groups m k = ∅ ↔ (m.getD k ∅).isEmpty = true := by
  rw [set_isEmpty_iff, Finset.eq_empty_iff_forall_notMem]
  simp only [mem_groups]

omit [DecidableEq K] [LawfulEqCmp cmp] in
/-- A row that is left empty by v has v as its only member. -/
theorem groups_eq_singleton (hm : Occupied m) {v : V} {k : K} :
    groups m k = {v} ↔ ∃ r, m[k]? = some r ∧ (r.erase v).isEmpty = true := by
  have hmem (w : V) : w ∈ groups m k ↔ w ∈ (m[k]?).getD ∅ := by
    rw [mem_groups, ExtTreeMap.getD_eq_getD_getElem?]
  constructor
  · intro hg
    have hv : v ∈ (m[k]?).getD ∅ := by
      rw [← hmem, hg]
      exact Finset.mem_singleton_self v
    cases hr : m[k]? with
    | none =>
      rw [hr, Option.getD_none] at hv
      exact absurd hv ExtTreeSet.not_mem_empty
    | some r =>
      refine ⟨r, rfl, set_isEmpty_iff.mpr fun w hw => ?_⟩
      obtain ⟨hne, hw⟩ := mem_set_erase.mp hw
      have hw' : w ∈ groups m k := by rw [hmem, hr]; exact hw
      rw [hg, Finset.mem_singleton] at hw'
      exact hne hw'
  · rintro ⟨r, hr, herase⟩
    have hsub : ∀ w ∈ r, w = v := by
      intro w hw
      by_contra hne
      exact set_isEmpty_iff.mp herase w (mem_set_erase.mpr ⟨hne, hw⟩)
    obtain ⟨w, hw⟩ : ∃ w, w ∈ r := by
      by_contra hnone
      have hempty : r.isEmpty = true := set_isEmpty_iff.mpr fun w hw => hnone ⟨w, hw⟩
      rw [hm k r hr] at hempty
      cases hempty
    have hvr : v ∈ r := hsub w hw ▸ hw
    ext w
    rw [hmem, hr, Option.getD_some, Finset.mem_singleton]
    exact ⟨hsub w, fun hw => hw ▸ hvr⟩

theorem groups_rowsJoin (v : V) (k : K) :
    groups (rowsJoin v m k) = (Change.join v k).apply (groups m) := by
  funext k'
  ext w
  rw [mem_groups, rowsJoin, ExtTreeMap.getD_eq_getD_getElem?, lookup_insert, Change.apply]
  by_cases hk : k' = k
  · subst hk
    rw [if_pos rfl, Option.getD_some, Function.update_self, Finset.mem_insert, mem_set_insert,
      mem_groups]
  · rw [if_neg hk, Function.update_of_ne hk, mem_groups, ExtTreeMap.getD_eq_getD_getElem?]

omit [DecidableEq V] [LawfulEqCmp cmp'] in
theorem lookup_rowsLeave (v : V) (k k' : K) : (rowsLeave v m k)[k']? =
    if k' = k then (m[k]?).bind fun r => if (r.erase v).isEmpty then none else some (r.erase v)
    else m[k']? := by
  cases hr : m[k]? with
  | none =>
    simp only [rowsLeave, hr, Option.bind_none]
    by_cases hk : k' = k
    · rw [if_pos hk, hk, hr]
    · rw [if_neg hk]
  | some r =>
    simp only [rowsLeave, hr, Option.bind_some]
    by_cases hempty : (r.erase v).isEmpty = true
    · simp only [if_pos hempty, lookup_erase]
    · simp only [if_neg hempty, lookup_insert]

theorem groups_rowsLeave (v : V) (k : K) :
    groups (rowsLeave v m k) = (Change.leave v k).apply (groups m) := by
  funext k'
  ext w
  rw [mem_groups, ExtTreeMap.getD_eq_getD_getElem?, lookup_rowsLeave, Change.apply]
  by_cases hk : k' = k
  · subst hk
    rw [if_pos rfl, Function.update_self, Finset.mem_erase, mem_groups,
      ExtTreeMap.getD_eq_getD_getElem?]
    cases hr : m[k']? with
    | none => simp [ExtTreeSet.not_mem_empty]
    | some r =>
      rw [Option.bind_some, Option.getD_some, ← mem_set_erase]
      split
      · next hempty =>
        exact iff_of_false ExtTreeSet.not_mem_empty (set_isEmpty_iff.mp hempty w)
      · rfl
  · rw [if_neg hk, Function.update_of_ne hk, mem_groups, ExtTreeMap.getD_eq_getD_getElem?]

omit [DecidableEq V] in
theorem Occupied.rowsJoin (hm : Occupied m) (v : V) (k : K) : Occupied (rowsJoin v m k) := by
  intro k' r hr
  rw [Groups.rowsJoin, lookup_insert] at hr
  split at hr
  · cases hr
    apply Bool.eq_false_iff.mpr
    intro hempty
    exact set_isEmpty_iff.mp hempty v (mem_set_insert.mpr (.inl rfl))
  · exact hm k' r hr

omit [DecidableEq V] [LawfulEqCmp cmp'] in
theorem Occupied.rowsLeave (hm : Occupied m) (v : V) (k : K) : Occupied (rowsLeave v m k) := by
  intro k' r hr
  rw [lookup_rowsLeave] at hr
  split at hr
  · obtain ⟨r', _, hr⟩ := Option.bind_eq_some_iff.mp hr
    split at hr
    · cases hr
    · next hempty =>
      cases hr
      exact Bool.eq_false_iff.mpr hempty
  · exact hm k' r hr

end Rows

end ServerlessEdge.Library.Groups
