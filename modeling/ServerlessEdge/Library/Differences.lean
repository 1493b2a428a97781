import Mathlib.Algebra.Group.Subgroup.Defs
import Mathlib.Algebra.Order.Group.Defs
import Mathlib.Tactic.Abel
import Mathlib.Data.List.Perm.Basic

/-! Differential lists over an ordered group: each element holds the time left
after the one before it. An element found to be earlier is inserted in front. -/
namespace ServerlessEdge.Library.Differences

variable {α G : Type*} [AddCommGroup G]

/-- The elements with their times, those of the list being counted from s. -/
def absolute : G → List (α × G) → List (α × G)
  | _, [] => []
  | s, d :: l => (d.1, s + d.2) :: absolute (s + d.2) l

/-- The elements with the time between each one and the one before it. -/
def between : G → List (α × G) → List (α × G)
  | _, [] => []
  | s, t :: l => (t.1, t.2 - s) :: between t.2 l

theorem absolute_between (s : G) (l : List (α × G)) : absolute s (between s l) = l := by
  induction l generalizing s with
  | nil => rfl
  | cons t l ih => simp only [between, absolute, add_sub_cancel, ih]

theorem map_fst_absolute (s : G) (l : List (α × G)) :
    (absolute s l).map Prod.fst = l.map Prod.fst := by
  induction l generalizing s with
  | nil => rfl
  | cons d l ih => simp only [absolute, List.map_cons, ih]

/-- Time that passes is taken from the first element only. -/
theorem absolute_passed (s r : G) (d : α × G) (l : List (α × G)) :
    absolute (s + r) ((d.1, d.2 - r) :: l) = absolute s (d :: l) := by
  have hsum : s + r + (d.2 - r) = s + d.2 := by abel
  simp only [absolute, hsum]

variable [LinearOrder G]

/-- Insertion in front of the first element that is not earlier. -/
def insert (t : α × G) : List (α × G) → List (α × G)
  | [] => [t]
  | d :: l => if t.2 ≤ d.2 then t :: (d.1, d.2 - t.2) :: l else d :: insert (t.1, t.2 - d.2) l

/-- The element gets its own time and the others keep theirs. -/
theorem absolute_insert (s : G) (t : α × G) (l : List (α × G)) :
    (absolute s (insert t l)).Perm ((t.1, s + t.2) :: absolute s l) := by
  induction l generalizing s t with
  | nil => exact .refl _
  | cons d l ih =>
    unfold insert
    split
    · have hsum : s + t.2 + (d.2 - t.2) = s + d.2 := by abel
      simp only [absolute, hsum]
      exact .refl _
    · have hsum : s + d.2 + (t.2 - d.2) = s + t.2 := by abel
      have hrest := ih (s + d.2) (t.1, t.2 - d.2)
      rw [hsum] at hrest
      exact (hrest.cons _).trans (.swap _ _ _)

theorem map_fst_insert (t : α × G) (l : List (α × G)) :
    ((insert t l).map Prod.fst).Perm (t.1 :: l.map Prod.fst) := by
  have h := (absolute_insert 0 t l).map Prod.fst
  rwa [map_fst_absolute, List.map_cons, map_fst_absolute] at h

theorem insert_mem {H : AddSubgroup G} {t : α × G} {l : List (α × G)} (ht : t.2 ∈ H)
    (hl : ∀ d ∈ l, d.2 ∈ H) : ∀ d ∈ insert t l, d.2 ∈ H := by
  induction l generalizing t with
  | nil =>
    intro d hd
    rw [List.mem_singleton.mp hd]
    exact ht
  | cons d l ih =>
    obtain ⟨hhead, htail⟩ := List.forall_mem_cons.mp hl
    rw [insert]
    split
    · exact List.forall_mem_cons.mpr
        ⟨ht, List.forall_mem_cons.mpr ⟨H.sub_mem hhead ht, htail⟩⟩
    · exact List.forall_mem_cons.mpr ⟨hhead, ih (H.sub_mem ht hhead) htail⟩

variable [IsOrderedAddMonoid G]

theorem insert_nonneg {t : α × G} {l : List (α × G)} (ht : 0 ≤ t.2) (hl : ∀ d ∈ l, 0 ≤ d.2) :
    ∀ d ∈ insert t l, 0 ≤ d.2 := by
  induction l generalizing t with
  | nil =>
    intro d hd
    rw [List.mem_singleton.mp hd]
    exact ht
  | cons d l ih =>
    have hhead := hl d List.mem_cons_self
    have htail : ∀ e ∈ l, 0 ≤ e.2 := fun e he => hl e (List.mem_cons_of_mem _ he)
    unfold insert
    split
    · rename_i hle
      intro e he
      rcases List.mem_cons.mp he with rfl | he
      · exact ht
      · rcases List.mem_cons.mp he with rfl | he
        · exact sub_nonneg.mpr hle
        · exact htail e he
    · rename_i hlt
      have hlater : 0 ≤ t.2 - d.2 := sub_nonneg.mpr (le_of_lt (not_le.mp hlt))
      intro e he
      rcases List.mem_cons.mp he with rfl | he
      · exact hhead
      · exact ih hlater htail e he

/-- Whatever is inserted, all elements but the first one are in order. -/
theorem insert_tail_nonneg (t : α × G) {l : List (α × G)} (hl : ∀ d ∈ l, 0 ≤ d.2) :
    ∀ d ∈ (insert t l).tail, 0 ≤ d.2 := by
  cases l with
  | nil => exact fun d hd => nomatch hd
  | cons d l =>
    obtain ⟨-, htail⟩ := List.forall_mem_cons.mp hl
    rw [insert]
    split
    · rename_i hle
      exact List.forall_mem_cons.mpr ⟨sub_nonneg.mpr hle, htail⟩
    · rename_i hlt
      exact insert_nonneg (sub_nonneg.mpr (le_of_lt (not_le.mp hlt))) htail

theorem le_of_mem_absolute {s : G} {l : List (α × G)} (hl : ∀ d ∈ l, 0 ≤ d.2) :
    ∀ t ∈ absolute s l, s ≤ t.2 := by
  induction l generalizing s with
  | nil => intro t ht; cases ht
  | cons d l ih =>
    have hle : s ≤ s + d.2 := le_add_of_nonneg_right (hl d List.mem_cons_self)
    intro t ht
    rcases List.mem_cons.mp ht with rfl | ht
    · exact hle
    · exact hle.trans (ih (fun e he => hl e (List.mem_cons_of_mem _ he)) t ht)

/-- The first element is the earliest one. -/
theorem first_le {s : G} {d : α × G} {l : List (α × G)} (hl : ∀ e ∈ d :: l, 0 ≤ e.2) :
    ∀ t ∈ absolute s (d :: l), s + d.2 ≤ t.2 := by
  intro t ht
  rcases List.mem_cons.mp ht with rfl | ht
  · exact le_refl _
  · exact le_of_mem_absolute (fun e he => hl e (List.mem_cons_of_mem _ he)) t ht

end ServerlessEdge.Library.Differences
