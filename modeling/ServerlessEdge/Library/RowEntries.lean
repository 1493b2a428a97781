import ServerlessEdge.Library.Rows

/-! A map of maps as the list of its values with their keys, and back. -/
namespace ServerlessEdge.Library.Rows
open Std Maps

variable {α β V : Type} {cmp : α → α → Ordering} {cmp' : β → β → Ordering} [TransCmp cmp]
  [TransCmp cmp'] {m : ExtTreeMap α (ExtTreeMap β V cmp') cmp}

/-- Row by row, the values with their keys. -/
def entries (m : ExtTreeMap α (ExtTreeMap β V cmp') cmp) : List (α × β × V) :=
  m.toList.flatMap fun r => r.2.toList.map fun c => (r.1, c.1, c.2)

/-- Add a value unless there is one for its keys already. -/
def emplace (m : ExtTreeMap α (ExtTreeMap β V cmp') cmp) (x : α × β × V) :
    ExtTreeMap α (ExtTreeMap β V cmp') cmp :=
  match m[x.1]? with
  | none => m.insert x.1 ((∅ : ExtTreeMap β V cmp').insert x.2.1 x.2.2)
  | some r => m.insert x.1 (r.insertIfNew x.2.1 x.2.2)

variable [LawfulEqCmp cmp] [LawfulEqCmp cmp'] [DecidableEq α] [DecidableEq β]

omit [DecidableEq α] [DecidableEq β] in
theorem mem_entries {a : α} {b : β} {v : V} : (a, b, v) ∈ entries m ↔ lookup m a b = some v := by
  simp only [entries, List.mem_flatMap, List.mem_map, Prod.mk.injEq, Prod.exists, lookup,
    Option.bind_eq_some_iff]
  constructor
  · rintro ⟨a, r, hr, b, v, hv, rfl, rfl, rfl⟩
    exact ⟨r, mem_toList.mp hr, mem_toList.mp hv⟩
  · rintro ⟨r, hr, hv⟩
    exact ⟨a, r, mem_toList.mpr hr, b, v, mem_toList.mpr hv, rfl, rfl, rfl⟩

theorem lookup_emplace (m : ExtTreeMap α (ExtTreeMap β V cmp') cmp) (x : α × β × V) (a : α) (b : β) :
    lookup (emplace m x) a b =
      if a = x.1 ∧ b = x.2.1 then some ((lookup m a b).getD x.2.2) else lookup m a b := by
  rw [emplace]
  split
  · next hrow =>
    rw [lookup_insert_row, Maps.lookup_insert]
    by_cases ha : a = x.1
    · subst ha
      simp [lookup, hrow]
    · simp [ha]
  · next r hrow =>
    rw [lookup_insert_row, Maps.lookup_emplace]
    by_cases ha : a = x.1
    · subst ha
      by_cases hb : b = x.2.1
      · subst hb
        simp [lookup, hrow]
      · simp [lookup, hrow, hb]
    · simp [ha]

omit [LawfulEqCmp cmp'] [DecidableEq α] [DecidableEq β] in
theorem Full.emplace (h : Full m) (x : α × β × V) : Full (emplace m x) := by
  classical
  intro a r hr
  rw [Rows.emplace] at hr
  split at hr
  all_goals
    rw [Maps.lookup_insert] at hr
    split at hr
    · cases hr
      simp
    · exact h a r hr

/-- Of the values for the same keys, the first one is kept. -/
theorem lookup_emplaces (xs : List (α × β × V)) (m : ExtTreeMap α (ExtTreeMap β V cmp') cmp) (a : α)
    (b : β) : lookup (xs.foldl emplace m) a b =
      (lookup m a b).or ((xs.find? fun x => a = x.1 ∧ b = x.2.1).map fun x => x.2.2) := by
  induction xs generalizing m with
  | nil => simp
  | cons x xs ih =>
    rw [List.foldl_cons, ih, lookup_emplace, List.find?_cons]
    by_cases hx : a = x.1 ∧ b = x.2.1
    · cases lookup m a b <;> simp [hx]
    · simp [hx]

/-- Of the values for the same keys, the last one is kept. -/
theorem lookup_puts (xs : List (α × β × V)) (m : ExtTreeMap α (ExtTreeMap β V cmp') cmp) (a : α)
    (b : β) : lookup (xs.foldl (fun m x => put m x.1 x.2.1 x.2.2) m) a b =
      ((xs.reverse.find? fun x => a = x.1 ∧ b = x.2.1).map fun x => x.2.2).or (lookup m a b) := by
  induction xs generalizing m with
  | nil => simp
  | cons x xs ih =>
    rw [List.foldl_cons, ih, lookup_put, List.reverse_cons, List.find?_append]
    by_cases hx : a = x.1 ∧ b = x.2.1
    · cases List.find? (fun x => decide (a = x.1 ∧ b = x.2.1)) xs.reverse <;> simp [hx]
    · simp [hx]

omit [TransCmp cmp'] [LawfulEqCmp cmp] [LawfulEqCmp cmp'] [DecidableEq α] [DecidableEq β] in
theorem full_foldl {f : ExtTreeMap α (ExtTreeMap β V cmp') cmp → α × β × V →
    ExtTreeMap α (ExtTreeMap β V cmp') cmp} (hf : ∀ m x, Full m → Full (f m x)) {xs : List (α × β × V)}
    (h : Full m) : Full (xs.foldl f m) := by
  induction xs generalizing m with
  | nil => exact h
  | cons x xs ih => exact ih (hf m x h)

omit [DecidableEq α] [DecidableEq β] in
/-- Maps without empty rows are the same where they have the same values. -/
theorem Full.ext {m' : ExtTreeMap α (ExtTreeMap β V cmp') cmp} (h : Full m) (h' : Full m')
    (hsame : ∀ a b, lookup m a b = lookup m' a b) : m = m' := by
  have hrow {m : ExtTreeMap α (ExtTreeMap β V cmp') cmp} {a : α} (h : Full m) :
      m[a]? = none ↔ ∀ b, lookup m a b = none := by
    constructor
    · intro hnone b
      rw [lookup, hnone, Option.bind_none]
    · intro hnone
      cases hr : m[a]? with
      | none => rfl
      | some r =>
        have hempty : r = ∅ := by
          apply ExtTreeMap.ext_getElem?
          intro b
          rw [← lookup_of_row hr, hnone, ExtTreeMap.getElem?_empty]
        have hfull := h a r hr
        rw [hempty] at hfull
        cases hfull
  apply ExtTreeMap.ext_getElem?
  intro a
  cases hr : m[a]? with
  | none =>
    rw [hrow h] at hr
    exact ((hrow h').mpr fun b => (hsame a b).symm.trans (hr b)).symm
  | some r =>
    cases hr' : m'[a]? with
    | none =>
      rw [hrow h'] at hr'
      rw [(hrow h).mpr fun b => (hsame a b).trans (hr' b)] at hr
      cases hr
    | some r' =>
      congr 1
      apply ExtTreeMap.ext_getElem?
      intro b
      rw [← lookup_of_row hr, ← lookup_of_row hr', hsame]

theorem find?_entries {l : List (α × β × V)} (hl : ∀ x, x ∈ l ↔ x ∈ entries m) (a : α) (b : β) :
    (l.find? fun x => a = x.1 ∧ b = x.2.1).map (fun x => x.2.2) = lookup m a b := by
  cases hfind : l.find? fun x => a = x.1 ∧ b = x.2.1 with
  | none =>
    cases hv : lookup m a b with
    | none => rfl
    | some v =>
      have hmem := (hl (a, b, v)).mpr (mem_entries.mpr hv)
      simpa using List.find?_eq_none.mp hfind _ hmem
  | some x =>
    obtain ⟨a', b', v⟩ := x
    obtain ⟨rfl, rfl⟩ : a = a' ∧ b = b' := by simpa using List.find?_some hfind
    exact (mem_entries.mp ((hl _).mp (List.mem_of_find?_eq_some hfind))).symm

/-- The list of its values gives a map without empty rows back. -/
theorem emplaces_entries (h : Full m) : (entries m).foldl emplace ∅ = m := by
  have hfull : Full ((entries m).foldl emplace (∅ : ExtTreeMap α (ExtTreeMap β V cmp') cmp)) :=
    full_foldl (fun _ x h => h.emplace x) full_empty
  refine hfull.ext h fun a b => ?_
  rw [lookup_emplaces, lookup_empty, Option.none_or, find?_entries (m := m) fun _ => Iff.rfl]

theorem lookup_puts_entries (a : α) (b : β) :
    lookup ((entries m).foldl (fun m x => put m x.1 x.2.1 x.2.2)
      (∅ : ExtTreeMap α (ExtTreeMap β V cmp') cmp)) a b = lookup m a b := by
  rw [lookup_puts, lookup_empty, Option.or_none, find?_entries (m := m) fun x => List.mem_reverse]

end ServerlessEdge.Library.Rows
