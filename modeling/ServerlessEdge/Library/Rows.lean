import ServerlessEdge.Library.Maps

/-! Maps of maps: the values of some pairs of keys, kept in one row for each first
key. A row is erased with its last value. -/
namespace ServerlessEdge.Library.Rows
open Std Maps

variable {α β V : Type} {cmp : α → α → Ordering} {cmp' : β → β → Ordering} [TransCmp cmp]
  [TransCmp cmp']

/-- The value of a pair of keys. -/
def lookup (m : ExtTreeMap α (ExtTreeMap β V cmp') cmp) (a : α) (b : β) : Option V :=
  m[a]?.bind fun r => r[b]?

/-- No row is empty. -/
def Full (m : ExtTreeMap α (ExtTreeMap β V cmp') cmp) : Prop :=
  ∀ (a : α) (r : ExtTreeMap β V cmp'), m[a]? = some r → r.isEmpty = false

def put (m : ExtTreeMap α (ExtTreeMap β V cmp') cmp) (a : α) (b : β) (v : V) :
    ExtTreeMap α (ExtTreeMap β V cmp') cmp := m.insert a ((m.getD a ∅).insert b v)

def drop (m : ExtTreeMap α (ExtTreeMap β V cmp') cmp) (a : α) (b : β) :
    ExtTreeMap α (ExtTreeMap β V cmp') cmp :=
  match m[a]? with
  | none => m
  | some r => if (r.erase b).isEmpty then m.erase a else m.insert a (r.erase b)

variable {m : ExtTreeMap α (ExtTreeMap β V cmp') cmp}

@[simp] theorem lookup_empty (a : α) (b : β) :
    lookup (∅ : ExtTreeMap α (ExtTreeMap β V cmp') cmp) a b = none := by
  simp [lookup]

omit [TransCmp cmp'] in
theorem full_empty : Full (∅ : ExtTreeMap α (ExtTreeMap β V cmp') cmp) := by
  intro a r h
  simp at h

theorem lookup_of_row {a : α} {r : ExtTreeMap β V cmp'} (h : m[a]? = some r) (b : β) :
    lookup m a b = r[b]? := by
  simp [lookup, h]

theorem lookup_getD (a : α) (b : β) : (m.getD a ∅)[b]? = lookup m a b := by
  rw [ExtTreeMap.getD_eq_getD_getElem?, lookup]
  cases m[a]? <;> simp

section Lawful

variable [LawfulEqCmp cmp] [LawfulEqCmp cmp'] [DecidableEq α] [DecidableEq β]

omit [LawfulEqCmp cmp'] [DecidableEq β] in
/-- What a new row makes of the pairs. -/
theorem lookup_insert_row (m : ExtTreeMap α (ExtTreeMap β V cmp') cmp) (a : α)
    (r : ExtTreeMap β V cmp') (a' : α) (b' : β) :
    lookup (m.insert a r) a' b' = if a' = a then r[b']? else lookup m a' b' := by
  rw [lookup, Maps.lookup_insert]
  split
  · simp
  · rfl

omit [LawfulEqCmp cmp'] [DecidableEq β] in
theorem lookup_erase_row (m : ExtTreeMap α (ExtTreeMap β V cmp') cmp) (a a' : α) (b' : β) :
    lookup (m.erase a) a' b' = if a' = a then none else lookup m a' b' := by
  rw [lookup, Maps.lookup_erase]
  split
  · simp
  · rfl

theorem lookup_put (m : ExtTreeMap α (ExtTreeMap β V cmp') cmp) (a : α) (b : β) (v : V) (a' : α)
    (b' : β) : lookup (put m a b v) a' b' = if a' = a ∧ b' = b then some v else lookup m a' b' := by
  rw [put, lookup_insert_row, Maps.lookup_insert, lookup_getD]
  by_cases ha : a' = a
  · subst ha
    simp
  · simp [ha]

theorem lookup_drop (m : ExtTreeMap α (ExtTreeMap β V cmp') cmp) (a : α) (b : β) (a' : α)
    (b' : β) : lookup (drop m a b) a' b' = if a' = a ∧ b' = b then none else lookup m a' b' := by
  unfold drop
  cases hr : m[a]? with
  | none =>
    dsimp only
    rw [right_eq_ite_iff]
    rintro ⟨rfl, rfl⟩
    simp [lookup, hr]
  | some r =>
    -- the row of a without b, erased or not
    have hrow : (r.erase b)[b']? = if a = a ∧ b' = b then none else lookup m a b' := by
      rw [Maps.lookup_erase, lookup_of_row hr]
      simp
    dsimp only
    split
    · next hempty =>
      rw [lookup_erase_row]
      by_cases ha : a' = a
      · subst ha
        rw [if_pos rfl, ← hrow, ExtTreeMap.isEmpty_iff.mp hempty]
        simp
      · simp [ha]
    · rw [lookup_insert_row]
      by_cases ha : a' = a
      · subst ha
        rw [if_pos rfl, hrow]
      · simp [ha]

omit [LawfulEqCmp cmp'] [DecidableEq α] [DecidableEq β] in
theorem Full.put (h : Full m) (a : α) (b : β) (v : V) : Full (put m a b v) := by
  classical
  intro a' r hr
  rw [Rows.put, Maps.lookup_insert] at hr
  split at hr
  · cases hr
    simp
  · exact h a' r hr

omit [TransCmp cmp'] [LawfulEqCmp cmp'] [DecidableEq α] [DecidableEq β] in
theorem Full.erase (h : Full m) (a : α) : Full (m.erase a) := by
  classical
  intro a' r hr
  rw [Maps.lookup_erase] at hr
  split at hr
  · cases hr
  · exact h a' r hr

omit [LawfulEqCmp cmp'] [DecidableEq α] [DecidableEq β] in
theorem Full.drop (h : Full m) (a : α) (b : β) : Full (drop m a b) := by
  classical
  unfold Rows.drop
  split
  · exact h
  split
  · exact h.erase a
  · next hne =>
    intro a' r' hr'
    rw [Maps.lookup_insert] at hr'
    split at hr'
    · cases hr'
      exact Bool.eq_false_iff.mpr hne
    · exact h a' r' hr'

end Lawful

end ServerlessEdge.Library.Rows
