import Std.Data.ExtTreeMap.Lemmas
import Std.Data.ExtTreeSet.Lemmas
import Mathlib.Algebra.BigOperators.Group.List.Basic
import Mathlib.Data.List.Sort
import Mathlib.Algebra.GroupWithZero.Nat

/-! Look-ups in maps and sets whose keys compare as equal only when they are
equal. -/
namespace ServerlessEdge.Library.Maps
open Std

variable {α β : Type} {cmp : α → α → Ordering} [TransCmp cmp]
  {m : ExtTreeMap α β cmp} {k : α}

theorem mem_of_lookup {v : β} (h : m[k]? = some v) : k ∈ m := by
  rw [ExtTreeMap.mem_iff_isSome_getElem?, h]
  rfl

theorem lookup_of_mem (h : k ∈ m) : ∃ v, m[k]? = some v :=
  Option.isSome_iff_exists.mp (ExtTreeMap.mem_iff_isSome_getElem?.mp h)

variable [LawfulEqCmp cmp] [DecidableEq α]

theorem lookup_insert (m : ExtTreeMap α β cmp) (k : α) (v : β) (k' : α) :
    (m.insert k v)[k']? = if k' = k then some v else m[k']? := by
  simp only [ExtTreeMap.getElem?_insert, LawfulEqCmp.compare_eq_iff_eq, eq_comm (a := k)]

theorem lookup_insertIfNew (h : k ∉ m) (v : β) (k' : α) :
    (m.insertIfNew k v)[k']? = if k' = k then some v else m[k']? := by
  simp only [ExtTreeMap.getElem?_insertIfNew, LawfulEqCmp.compare_eq_iff_eq, eq_comm (a := k), h,
    not_false_eq_true, and_true]

/-- An entry that is there already stays. -/
theorem lookup_emplace (m : ExtTreeMap α β cmp) (k : α) (v : β) (k' : α) :
    (m.insertIfNew k v)[k']? = if k' = k then some ((m[k]?).getD v) else m[k']? := by
  by_cases h : k ∈ m
  · obtain ⟨w, hw⟩ := lookup_of_mem h
    simp only [ExtTreeMap.getElem?_insertIfNew, h, not_true_eq_false, and_false, if_false, hw,
      Option.getD_some]
    split
    · next hk => rw [hk, hw]
    · rfl
  · rw [lookup_insertIfNew h, ExtTreeMap.getElem?_eq_none h]
    rfl

theorem lookup_erase (m : ExtTreeMap α β cmp) (k k' : α) :
    (m.erase k)[k']? = if k' = k then none else m[k']? := by
  simp only [ExtTreeMap.getElem?_erase, LawfulEqCmp.compare_eq_iff_eq, eq_comm (a := k)]

theorem insert_self {v : β} (h : m[k]? = some v) : m.insert k v = m := by
  apply ExtTreeMap.ext_getElem?
  intro k'
  rw [lookup_insert]
  split
  · next hk => rw [hk, h]
  · rfl

theorem insert_erase (m : ExtTreeMap α β cmp) (k : α) (v : β) :
    (m.erase k).insert k v = m.insert k v := by
  apply ExtTreeMap.ext_getElem?
  intro k'
  simp only [lookup_insert, lookup_erase]
  split <;> rfl

theorem erase_of_not_mem (h : k ∉ m) : m.erase k = m := by
  refine ExtTreeMap.ext_getElem? fun k' => ?_
  rw [lookup_erase]
  split
  · rename_i hk
    subst hk
    cases hm : m[k']? with
    | none => rfl
    | some v => exact absurd (mem_of_lookup hm) h
  · rfl

theorem lookup_modify (m : ExtTreeMap α β cmp) (k : α) (f : β → β) (k' : α) :
    (m.modify k f)[k']? = if k' = k then (m[k']?).map f else m[k']? := by
  simp only [ExtTreeMap.getElem?_modify, LawfulEqCmp.compare_eq_iff_eq, eq_comm (a := k)]
  split
  · next hk => rw [hk]
  · rfl

theorem mem_erase {k' : α} : k' ∈ m.erase k ↔ k' ≠ k ∧ k' ∈ m := by
  simp only [ExtTreeMap.mem_iff_isSome_getElem?, lookup_erase]
  split <;> simp [*]

theorem mem_insert {v : β} {k' : α} : k' ∈ m.insert k v ↔ k' = k ∨ k' ∈ m := by
  simp only [ExtTreeMap.mem_iff_isSome_getElem?, lookup_insert]
  split <;> simp [*]

omit [DecidableEq α] in
theorem mem_toList {v : β} : (k, v) ∈ m.toList ↔ m[k]? = some v :=
  ExtTreeMap.mem_toList_iff_getElem?_eq_some

omit [DecidableEq α] in
/-- What a loop over a map meets is in the map. -/
theorem lookup_of_split {v : β} {l r : List (α × β)} (h : m.toList = l ++ (k, v) :: r) :
    m[k]? = some v := by
  apply mem_toList.mp
  rw [h]
  exact List.mem_append_right _ List.mem_cons_self

omit [DecidableEq α] in
/-- A key comes once in the list of a map. -/
theorem not_mem_keys_of_split {v : β} {l r : List (α × β)} (h : m.toList = l ++ (k, v) :: r) :
    k ∉ l.map Prod.fst := by
  intro hk
  obtain ⟨x, hx, hxk⟩ := List.mem_map.mp hk
  have hdistinct := ExtTreeMap.distinct_keys_toList (t := m)
  rw [h, List.pairwise_append] at hdistinct
  have hne := hdistinct.2.2 x hx (k, v) List.mem_cons_self
  exact hne (LawfulEqCmp.compare_eq_iff_eq.mpr hxk)

omit [DecidableEq α] in
theorem nodup_keys (m : ExtTreeMap α β cmp) : (m.toList.map Prod.fst).Nodup := by
  apply List.Pairwise.map Prod.fst _ ExtTreeMap.distinct_keys_toList
  intro x y hne heq
  exact hne (LawfulEqCmp.compare_eq_iff_eq.mpr heq)

private theorem lookup_foldl_insertIfNew {xs : List (α × β)} {acc : ExtTreeMap α β cmp}
    (hnodup : (xs.map Prod.fst).Nodup) (hnew : ∀ x ∈ xs, x.1 ∉ acc) {v : β} :
    (xs.foldl (fun acc x => acc.insertIfNew x.1 x.2) acc)[k]? = some v ↔
      (k, v) ∈ xs ∨ acc[k]? = some v := by
  induction xs generalizing acc with
  | nil => simp
  | cons x xs ih =>
    rw [List.map_cons, List.nodup_cons] at hnodup
    have hx : x.1 ∉ acc := hnew x List.mem_cons_self
    have hrest : ∀ y ∈ xs, y.1 ∉ acc.insertIfNew x.1 x.2 := by
      intro y hy hmem
      rw [ExtTreeMap.mem_insertIfNew, LawfulEqCmp.compare_eq_iff_eq] at hmem
      rcases hmem with heq | hmem
      · exact hnodup.1 (heq ▸ List.mem_map_of_mem hy)
      · exact hnew y (List.mem_cons_of_mem x hy) hmem
    rw [List.foldl_cons, ih hnodup.2 hrest, lookup_insertIfNew hx, List.mem_cons]
    split
    · next hk =>
      subst hk
      have hout : (x.1, v) ∉ xs := fun hmem => hnodup.1 (List.mem_map.mpr ⟨(x.1, v), hmem, rfl⟩)
      have hnone : acc[x.1]? = none := ExtTreeMap.getElem?_eq_none hx
      rw [hnone, Option.some.injEq, Prod.ext_iff]
      simp [hout, eq_comm]
    · next hk =>
      rw [Prod.ext_iff]
      simp [hk]

/-- A map is the one into which its entries are put again. -/
theorem foldl_insertIfNew (m : ExtTreeMap α β cmp) :
    m.toList.foldl (fun acc x => acc.insertIfNew x.1 x.2) ∅ = m := by
  apply ExtTreeMap.ext_getElem?
  intro k
  apply Option.ext
  intro v
  rw [lookup_foldl_insertIfNew (nodup_keys m) fun x _ => ExtTreeMap.not_mem_empty, mem_toList,
    ExtTreeMap.getElem?_empty]
  exact or_iff_left nofun

theorem toList_perm {v : β} (h : m[k]? = some v) : m.toList.Perm ((k, v) :: (m.erase k).toList) := by
  have hnodup : ∀ m : ExtTreeMap α β cmp, m.toList.Nodup := by
    intro m
    refine ExtTreeMap.distinct_keys_toList.imp fun {x y} hne heq => ?_
    exact hne (LawfulEqCmp.compare_eq_iff_eq.mpr (congrArg Prod.fst heq))
  have hnew : (k, v) ∉ (m.erase k).toList := by
    rw [mem_toList, lookup_erase, if_pos rfl]
    exact nofun
  refine (List.perm_ext_iff_of_nodup (hnodup m) (List.nodup_cons.mpr ⟨hnew, hnodup _⟩)).mpr ?_
  rintro ⟨k', v'⟩
  rw [mem_toList, List.mem_cons, mem_toList, lookup_erase, Prod.mk.injEq]
  by_cases hk : k' = k
  · simp [hk, h, eq_comm]
  · simp [hk]

section Sizes

omit [LawfulEqCmp cmp] [DecidableEq α]

theorem size_insert_of_not_mem (h : k ∉ m) (v : β) : (m.insert k v).size = m.size + 1 := by
  rw [ExtTreeMap.size_insert, if_neg fun hk => h (ExtTreeMap.mem_iff_contains.mpr hk)]

theorem size_insert_of_mem (h : k ∈ m) (v : β) : (m.insert k v).size = m.size := by
  rw [ExtTreeMap.size_insert, if_pos (ExtTreeMap.mem_iff_contains.mp h)]

theorem size_erase_of_mem (h : k ∈ m) : (m.erase k).size = m.size - 1 := by
  rw [ExtTreeMap.size_erase, if_pos (ExtTreeMap.mem_iff_contains.mp h)]

end Sizes

section Sets

variable {t : ExtTreeSet α cmp} {x y : α}

omit [DecidableEq α] in
theorem mem_set_insert : x ∈ t.insert y ↔ x = y ∨ x ∈ t := by
  rw [ExtTreeSet.mem_insert, LawfulEqCmp.compare_eq_iff_eq, eq_comm]

omit [DecidableEq α] in
theorem mem_set_erase : x ∈ t.erase y ↔ x ≠ y ∧ x ∈ t := by
  rw [ExtTreeSet.mem_erase, Ne, LawfulEqCmp.compare_eq_iff_eq, eq_comm]

omit [LawfulEqCmp cmp] [DecidableEq α] in
theorem set_isEmpty_iff : t.isEmpty = true ↔ ∀ x, x ∉ t := by
  rw [ExtTreeSet.isEmpty_iff, ExtTreeSet.eq_empty_iff_forall_not_mem]

end Sets

section Keys

omit [DecidableEq α] in
/-- Lists in increasing order are given by their elements. -/
theorem ordered_unique {xs ys : List α} (hx : xs.Pairwise fun x y => cmp x y = .lt)
    (hy : ys.Pairwise fun x y => cmp x y = .lt) (h : ∀ x, x ∈ xs ↔ x ∈ ys) : xs = ys := by
  have hirrefl : Std.Irrefl fun x y : α => cmp x y = .lt := by
    refine ⟨fun x hlt => ?_⟩
    have hself : cmp x x = .eq := ReflCmp.compare_self
    rw [hself] at hlt
    cases hlt
  have hasymm : Std.Asymm fun x y : α => cmp x y = .lt := by
    refine ⟨fun x y h h' => ?_⟩
    have hswap : cmp y x = (cmp x y).swap := OrientedCmp.eq_swap
    rw [h, h'] at hswap
    cases hswap
  exact hx.eq_of_mem_iff hy h

omit [DecidableEq α] in
theorem keys_eq {m' : ExtTreeMap α β cmp} (h : ∀ k, k ∈ m ↔ k ∈ m') : m.keys = m'.keys := by
  refine @ordered_unique α cmp _ _ _ _ ExtTreeMap.ordered_keys ExtTreeMap.ordered_keys fun k => ?_
  rw [ExtTreeMap.mem_keys, ExtTreeMap.mem_keys, h]

end Keys

section Total

variable (f : α → β → ℕ)

/-- The sum of what each entry counts for. -/
def total (m : ExtTreeMap α β cmp) : ℕ := (m.toList.map fun e => f e.1 e.2).sum

theorem total_of_lookup {v : β} (h : m[k]? = some v) : total f m = f k v + total f (m.erase k) := by
  rw [total, ((toList_perm h).map fun e => f e.1 e.2).sum_eq]
  rfl

theorem erase_insert (m : ExtTreeMap α β cmp) (k : α) (v : β) :
    (m.insert k v).erase k = m.erase k := by
  refine ExtTreeMap.ext_getElem? fun k' => ?_
  simp only [lookup_erase, lookup_insert]
  split <;> rfl

theorem total_insert (m : ExtTreeMap α β cmp) (k : α) (v : β) :
    total f (m.insert k v) = f k v + total f (m.erase k) := by
  rw [total_of_lookup f (show (m.insert k v)[k]? = some v by rw [lookup_insert, if_pos rfl]),
    erase_insert]

theorem total_erase_of_not_mem (h : k ∉ m) : total f (m.erase k) = total f m := by
  rw [erase_of_not_mem h]

omit [DecidableEq α] in
theorem total_eq_zero (h : ∀ k v, m[k]? = some v → f k v = 0) : total f m = 0 := by
  refine List.sum_eq_zero fun n hn => ?_
  obtain ⟨⟨k, v⟩, he, rfl⟩ := List.mem_map.mp hn
  exact h k v (mem_toList.mp he)

end Total

section Lists

variable {γ : Type} (f : α × β → List γ)

/-- The members that each entry stands for, one entry taken out. -/
theorem flatMap_of_lookup {v : β} (h : m[k]? = some v) :
    (m.toList.flatMap f).Perm (f (k, v) ++ (m.erase k).toList.flatMap f) :=
  (toList_perm h).flatMap_right f

theorem flatMap_insert (m : ExtTreeMap α β cmp) (k : α) (v : β) :
    ((m.insert k v).toList.flatMap f).Perm (f (k, v) ++ (m.erase k).toList.flatMap f) := by
  have hlookup : (m.insert k v)[k]? = some v := by rw [lookup_insert, if_pos rfl]
  have hperm := flatMap_of_lookup f hlookup
  rwa [erase_insert] at hperm

end Lists

end ServerlessEdge.Library.Maps
