import Mathlib.Data.List.Basic

/-! Lists of which one element is replaced, and what is selected from their elements. -/
namespace ServerlessEdge.Library.Slots

variable {α β : Type*} {f : β → Option α} {l : List β} {w : ℕ} {x y : β}

theorem filterMap_cons_toList (z : β) (t : List β) :
    (z :: t).filterMap f = (f z).toList ++ t.filterMap f := by
  cases hz : f z <;> simp [hz]

/-- What is selected from one element gives way to what is selected from another. -/
theorem filterMap_set_perm (h : l[w]? = some x) :
    ((f x).toList ++ (l.set w y).filterMap f).Perm ((f y).toList ++ l.filterMap f) := by
  induction l generalizing w with
  | nil => simp at h
  | cons z l ih =>
    cases w with
    | zero =>
      cases h
      rw [List.set_cons_zero, filterMap_cons_toList, filterMap_cons_toList]
      exact List.perm_append_comm_assoc _ _ _
    | succ w =>
      rw [List.set_cons_succ, filterMap_cons_toList, filterMap_cons_toList]
      calc (f x).toList ++ ((f z).toList ++ (l.set w y).filterMap f)
        _ |>.Perm ((f z).toList ++ ((f x).toList ++ (l.set w y).filterMap f)) :=
            List.perm_append_comm_assoc _ _ _
        _ |>.Perm ((f z).toList ++ ((f y).toList ++ l.filterMap f)) := (ih h).append_left _
        _ |>.Perm ((f y).toList ++ ((f z).toList ++ l.filterMap f)) :=
            List.perm_append_comm_assoc _ _ _

theorem count_filterMap_set [BEq α] (h : l[w]? = some x) (a : α) :
    (f x).toList.count a + ((l.set w y).filterMap f).count a =
      (f y).toList.count a + (l.filterMap f).count a := by
  have hperm := (filterMap_set_perm h (f := f) (y := y)).count_eq a
  rwa [List.count_append, List.count_append] at hperm

theorem length_filterMap_set (h : l[w]? = some x) :
    (f x).toList.length + ((l.set w y).filterMap f).length =
      (f y).toList.length + (l.filterMap f).length := by
  have hperm := (filterMap_set_perm h (f := f) (y := y)).length_eq
  rwa [List.length_append, List.length_append] at hperm

/-- A function of the elements that does not tell the new one from the old one. -/
theorem map_set_of_eq {γ : Type*} {g : β → γ} (h : l[w]? = some x) (hg : g y = g x) :
    (l.set w y).map g = l.map g := by
  obtain ⟨hw, rfl⟩ := List.getElem?_eq_some_iff.mp h
  rw [List.map_set, hg, ← List.getElem_map g (h := by rwa [List.length_map]), List.set_getElem_self]

end ServerlessEdge.Library.Slots
