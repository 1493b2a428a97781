import Mathlib.Data.Finset.Card
import Mathlib.Data.Finset.Image
import Mathlib.Data.Finset.Range
import Mathlib.Data.Nat.Find
import Mathlib.Logic.Function.Iterate

/-! Walks along pointers to parents until the root comes next: which of them end, and that
those end soon. -/
namespace ServerlessEdge.Library.Parents

variable {α : Type*} [DecidableEq α] {parent : α → α} {root cur : α}

/-- The vertices that the walk goes to before the root comes next, unless there are as many
as that. -/
def walk (parent : α → α) (root : α) : ℕ → α → Option (List α)
  | 0, _ => none
  | n + 1, cur =>
    if parent cur = root then some []
    else (walk parent root n (parent cur)).map (parent cur :: ·)

/-- The walk comes to an end. -/
def Ends (parent : α → α) (root cur : α) : Prop := ∃ n, (walk parent root n cur).isSome

theorem walk_isSome_iff {n : ℕ} :
    (walk parent root n cur).isSome ↔ ∃ k < n, parent^[k + 1] cur = root := by
  induction n generalizing cur with
  | zero => simp [walk]
  | succ n ih =>
    rw [walk]
    split
    · rename_i hroot
      exact iff_of_true rfl ⟨0, n.succ_pos, hroot⟩
    · rename_i hroot
      rw [Option.isSome_map, ih]
      constructor
      · rintro ⟨k, hk, hend⟩
        exact ⟨k + 1, Nat.succ_lt_succ hk, hend⟩
      · rintro ⟨k, hk, hend⟩
        cases k with
        | zero => exact absurd hend hroot
        | succ k => exact ⟨k, Nat.lt_of_succ_lt_succ hk, hend⟩

theorem ends_iff : Ends parent root cur ↔ ∃ k, parent^[k + 1] cur = root := by
  constructor
  · rintro ⟨n, hn⟩
    obtain ⟨k, -, hend⟩ := walk_isSome_iff.mp hn
    exact ⟨k, hend⟩
  · rintro ⟨k, hend⟩
    exact ⟨k + 1, walk_isSome_iff.mpr ⟨k, k.lt_succ_self, hend⟩⟩

/-- A walk that has ended goes to the same vertices when it could have been longer. -/
theorem walk_mono {n m : ℕ} {path : List α} (h : walk parent root n cur = some path) (hle : n ≤ m) :
    walk parent root m cur = some path := by
  induction n generalizing cur m path with
  | zero => cases h
  | succ n ih =>
    obtain ⟨m, rfl⟩ : ∃ k, m = k + 1 := ⟨m - 1, by omega⟩
    rw [walk] at h ⊢
    split at h
    · rename_i hroot
      rw [if_pos hroot]
      exact h
    · rename_i hroot
      obtain ⟨rest, hrest, rfl⟩ := Option.map_eq_some_iff.mp h
      rw [if_neg hroot, ih hrest (by omega), Option.map_some]

/-- The walk stays where parents are, and does not go to the root. -/
theorem mem_walk {P : α → Prop} (hparent : ∀ v, P v → parent v ≠ root → P (parent v)) (hcur : P cur)
    {n : ℕ} {path : List α} (h : walk parent root n cur = some path) : ∀ v ∈ path, P v := by
  induction n generalizing cur path with
  | zero => cases h
  | succ n ih =>
    rw [walk] at h
    split at h
    · cases h
      exact fun v hv => absurd hv List.not_mem_nil
    · rename_i hroot
      obtain ⟨rest, hrest, rfl⟩ := Option.map_eq_some_iff.mp h
      have hnext := hparent cur hcur hroot
      exact List.forall_mem_cons.mpr ⟨hnext, ih hnext hrest⟩

omit [DecidableEq α] in
/-- The first time that the root comes next, no vertex has been met twice. -/
private theorem iterate_injOn {k : ℕ} (hend : parent^[k + 1] cur = root)
    (hmin : ∀ j < k, parent^[j + 1] cur ≠ root) {i j : ℕ} (hij : i < j) (hj : j ≤ k) :
    parent^[i] cur ≠ parent^[j] cur := by
  intro heq
  -- from the first of the two on, the walk would end sooner
  refine hmin (k - (j - i)) (by omega) ?_
  have hsplit : ∀ n, n ≤ k + 1 → parent^[k + 1 - n] (parent^[n] cur) = root := by
    intro n hn
    rw [← Function.iterate_add_apply, Nat.sub_add_cancel hn]
    exact hend
  have hearly : parent^[k + 1 - j] (parent^[i] cur) = root := by
    rw [heq]
    exact hsplit j (by omega)
  rw [← Function.iterate_add_apply] at hearly
  have hsum : k + 1 - j + i = k - (j - i) + 1 := by omega
  rwa [hsum] at hearly

/-- In a finite set the walk ends within as many steps as there are vertices. -/
theorem Ends.bounded (h : Ends parent root cur) (s : Finset α) (hcur : cur ∈ s)
    (hparent : ∀ v ∈ s, parent v ∈ s) : (walk parent root s.card cur).isSome := by
  have hex := ends_iff.mp h
  classical
  have hend := Nat.find_spec hex
  have hmin : ∀ j < Nat.find hex, parent^[j + 1] cur ≠ root := fun j hj => Nat.find_min hex hj
  have hmem : ∀ k, parent^[k] cur ∈ s := by
    intro k
    induction k with
    | zero => exact hcur
    | succ k ih =>
      rw [Function.iterate_succ_apply']
      exact hparent _ ih
  have hcard : ((Finset.range (Nat.find hex + 1)).image fun k => parent^[k] cur).card =
      Nat.find hex + 1 := by
    rw [Finset.card_image_of_injOn, Finset.card_range]
    intro i hi j hj heq
    have hi' := Finset.mem_range.mp hi
    have hj' := Finset.mem_range.mp hj
    rcases lt_trichotomy i j with hlt | rfl | hgt
    · exact absurd heq (iterate_injOn hend hmin hlt (by omega))
    · rfl
    · exact absurd heq.symm (iterate_injOn hend hmin hgt (by omega))
  have hle : Nat.find hex + 1 ≤ s.card := by
    rw [← hcard]
    refine Finset.card_le_card fun v hv => ?_
    obtain ⟨k, -, rfl⟩ := Finset.mem_image.mp hv
    exact hmem k
  exact walk_isSome_iff.mpr ⟨Nat.find hex, by omega, hend⟩

/-- A vertex that is its own parent and not the root is never left. -/
theorem not_ends_of_fixed (hself : parent cur = cur) (hne : cur ≠ root) : ¬ Ends parent root cur := by
  rw [ends_iff]
  rintro ⟨k, hend⟩
  rw [Function.iterate_fixed hself] at hend
  exact hne hend

/-- The walk ends where parents are less deep. -/
theorem ends_of_depth {P : α → Prop} (depth : α → ℕ) (hroot : parent root = root)
    (hparent : ∀ v, P v → v ≠ root → P (parent v) ∧ depth (parent v) < depth v) (hcur : P cur) :
    Ends parent root cur := by
  rw [ends_iff]
  induction hn : depth cur using Nat.strong_induction_on generalizing cur with
  | h n ih =>
    by_cases hcurroot : cur = root
    · exact ⟨0, by rw [hcurroot]; exact hroot⟩
    · obtain ⟨hP, hlt⟩ := hparent cur hcur hcurroot
      obtain ⟨k, hend⟩ := ih _ (hn ▸ hlt) hP rfl
      exact ⟨k + 1, hend⟩

end ServerlessEdge.Library.Parents
