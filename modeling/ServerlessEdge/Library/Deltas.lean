import Mathlib.Data.List.Find
import Mathlib.Order.Lattice.Nat
import Mathlib.Algebra.GroupWithZero.Nat

/-! Queues ordered by time, kept as the differences between one element and the
next, and the plain queues that they stand for. -/
namespace ServerlessEdge.Library.Deltas

variable {α : Type*}

/-- The elements with their times from now, of which s is left to the first. -/
def absolute : ℕ → List (ℕ × α) → List (ℕ × α)
  | _, [] => []
  | s, d :: l => (s + d.1, d.2) :: absolute (s + d.1) l

/-- Insertion with two patches, of the new element and of the one after it. -/
def insert (t : ℕ × α) : ℕ → List (ℕ × α) → List (ℕ × α)
  | s, [] => [(t.1 - s, t.2)]
  | s, d :: l =>
    if t.1 < s + d.1 then (t.1 - s, t.2) :: (d.1 - (t.1 - s), d.2) :: l
    else d :: insert t (s + d.1) l

/-- Insertion after all elements that are not later. -/
def enqueue (t : ℕ × α) : List (ℕ × α) → List (ℕ × α)
  | [] => [t]
  | u :: l => if t.1 < u.1 then t :: u :: l else u :: enqueue t l

/-- All elements come r earlier. -/
def earlier (r : ℕ) (l : List (ℕ × α)) : List (ℕ × α) := l.map fun t => (t.1 - r, t.2)

/-- The first of the elements with the least time. -/
def nearest (l : List (ℕ × α)) : Option (ℕ × α) :=
  l.find? fun t => l.all fun u => t.1 ≤ u.1

theorem mem_enqueue {t u : ℕ × α} {l : List (ℕ × α)} : u ∈ enqueue t l ↔ u = t ∨ u ∈ l := by
  induction l with
  | nil => simp [enqueue]
  | cons v l ih =>
    unfold enqueue
    split
    · simp
    · simp only [List.mem_cons, ih]
      tauto

theorem length_absolute (s : ℕ) (l : List (ℕ × α)) : (absolute s l).length = l.length := by
  induction l generalizing s with
  | nil => rfl
  | cons d l ih => simp only [absolute, List.length_cons, ih]

theorem absolute_insert {t : ℕ × α} {s : ℕ} (l : List (ℕ × α)) (h : s ≤ t.1) :
    absolute s (insert t s l) = enqueue t (absolute s l) := by
  induction l generalizing s with
  | nil => simp [insert, absolute, enqueue, Nat.add_sub_cancel' h]
  | cons d l ih =>
    simp only [insert, absolute, enqueue]
    split
    · have hd : t.1 + (d.1 - (t.1 - s)) = s + d.1 := by omega
      simp only [absolute, Nat.add_sub_cancel' h, hd]
    · simp only [absolute, ih (show s + d.1 ≤ t.1 by omega)]

theorem le_of_mem_absolute {s : ℕ} {l : List (ℕ × α)} {t : ℕ × α} (h : t ∈ absolute s l) :
    s ≤ t.1 := by
  induction l generalizing s with
  | nil => simp [absolute] at h
  | cons d l ih =>
    rcases List.mem_cons.mp h with rfl | h
    · exact Nat.le_add_right _ _
    · exact Nat.le_trans (Nat.le_add_right _ _) (ih h)

theorem absolute_earlier (s r : ℕ) (l : List (ℕ × α)) :
    earlier r (absolute (s + r) l) = absolute s l := by
  induction l generalizing s with
  | nil => rfl
  | cons d l ih =>
    have hs : s + r + d.1 = s + d.1 + r := by omega
    simp only [earlier, absolute, List.map_cons, hs, Nat.add_sub_cancel, List.cons.injEq, true_and]
    exact ih (s + d.1)

/-- The last time, up to which the differences add up. -/
def latest (l : List (ℕ × α)) : ℕ := (l.map Prod.fst).sum

theorem latest_insert {t : ℕ × α} {s : ℕ} (l : List (ℕ × α)) (h : s ≤ t.1) :
    s + latest (insert t s l) = max t.1 (s + latest l) := by
  induction l generalizing s with
  | nil =>
    simp only [insert, latest, List.map_cons, List.map_nil, List.sum_cons, List.sum_nil]
    omega
  | cons d l ih =>
    have hl : latest (d :: l) = d.1 + latest l := List.sum_cons
    unfold insert
    split
    · simp only [latest, List.map_cons, List.sum_cons]
      omega
    · have hc : latest (d :: insert t (s + d.1) l) = d.1 + latest (insert t (s + d.1) l) :=
        List.sum_cons
      have := ih (show s + d.1 ≤ t.1 by omega)
      omega

/-- The first list is the second one in the order of the times, and elements
of the same time are in the order of the second one. -/
structure Orders (l p : List (ℕ × α)) : Prop where
  sorted : l.Pairwise fun t u => t.1 ≤ u.1
  same : ∀ k, l.filter (fun t => t.1 = k) = p.filter fun t => t.1 = k

theorem Orders.nil : Orders ([] : List (ℕ × α)) [] := ⟨.nil, fun _ => rfl⟩

namespace Orders

variable {l p : List (ℕ × α)} {t : ℕ × α}

theorem perm (h : Orders l p) : l.Perm p := by
  classical
  refine List.perm_iff_count.mpr fun t => ?_
  have hcount : ∀ q : List (ℕ × α), q.count t = (q.filter fun u => u.1 = t.1).count t := by
    intro q
    rw [List.count_filter (by simp)]
  rw [hcount l, hcount p, h.same]

private theorem filter_enqueue (t : ℕ × α) (k : ℕ) (hs : l.Pairwise fun t u => t.1 ≤ u.1) :
    (enqueue t l).filter (fun u => u.1 = k) =
      l.filter (fun u => u.1 = k) ++ if t.1 = k then [t] else [] := by
  induction l with
  | nil => simp [enqueue, List.filter_cons]
  | cons u l ih =>
    rw [List.pairwise_cons] at hs
    unfold enqueue
    split
    · rename_i hlt
      have hnone : t.1 = k → (u :: l).filter (fun v => v.1 = k) = [] := by
        intro hk
        rw [List.filter_eq_nil_iff]
        intro v hv
        have huv : u.1 ≤ v.1 := by
          rcases List.mem_cons.mp hv with rfl | hv
          · exact Nat.le_refl _
          · exact hs.1 v hv
        simp only [decide_eq_true_eq]
        omega
      rw [List.filter_cons]
      by_cases hk : t.1 = k
      · simp [hk, hnone hk]
      · simp [hk]
    · rw [List.filter_cons, ih hs.2, List.filter_cons]
      split <;> simp

/-- A new element comes after those of the same time. -/
theorem enqueue (h : Orders l p) (t : ℕ × α) : Orders (Deltas.enqueue t l) (p ++ [t]) where
  sorted := by
    have hs := h.sorted
    clear h
    induction l with
    | nil => exact .cons (by simp) .nil
    | cons u l ih =>
      rw [List.pairwise_cons] at hs
      unfold Deltas.enqueue
      split
      · rename_i hlt
        refine .cons (fun v hv => ?_) (.cons hs.1 hs.2)
        rcases List.mem_cons.mp hv with rfl | hv
        · omega
        · have := hs.1 v hv
          omega
      · refine .cons (fun v hv => ?_) (ih hs.2)
        rcases mem_enqueue.mp hv with rfl | hv
        · omega
        · exact hs.1 v hv
  same k := by
    rw [filter_enqueue t k h.sorted, List.filter_append, h.same, List.filter_cons]
    simp

/-- The first element in order is the first one with the least time. -/
theorem nearest (h : Orders (t :: l) p) : Deltas.nearest p = some t := by
  have hs := List.pairwise_cons.mp h.sorted
  have hmin : ∀ u ∈ p, t.1 ≤ u.1 := by
    intro u hu
    rcases List.mem_cons.mp (h.perm.mem_iff.mpr hu) with rfl | hu
    · exact Nat.le_refl _
    · exact hs.1 u hu
  have ht : t ∈ p := h.perm.mem_iff.mp List.mem_cons_self
  -- in p only the elements with the time of t come before all others
  have hpred : ∀ u ∈ p, (p.all fun v => u.1 ≤ v.1) = decide (u.1 = t.1) := by
    intro u hu
    rw [Bool.eq_iff_iff]
    simp only [List.all_eq_true, decide_eq_true_eq]
    constructor
    · intro hall
      exact Nat.le_antisymm (hall t ht) (hmin u hu)
    · intro hut v hv
      rw [hut]
      exact hmin v hv
  have hfind : Deltas.nearest p = p.find? fun u => decide (u.1 = t.1) := List.find?_congr hpred
  rw [hfind, ← List.head?_filter, ← h.same]
  simp

/-- Without its first element it orders what is left without the nearest one. -/
theorem tail (h : Orders (t :: l) p) : Orders l (p.eraseP fun u => u.1 = t.1) where
  sorted := (List.pairwise_cons.mp h.sorted).2
  same k := by
    have hk := h.same k
    have herase : (p.eraseP fun u => u.1 = t.1).filter (fun u => u.1 = k) =
        if t.1 = k then (p.filter fun u => u.1 = k).tail else p.filter fun u => u.1 = k := by
      clear h hk
      induction p with
      | nil => simp
      | cons u p ih =>
        by_cases hu : u.1 = t.1
        · rw [List.eraseP_cons_of_pos (by simpa using hu)]
          by_cases htk : t.1 = k <;> simp [hu, htk]
        · rw [List.eraseP_cons_of_neg (by simpa using hu), List.filter_cons, ih, List.filter_cons]
          by_cases htk : t.1 = k
          · have huk : u.1 ≠ k := fun h => hu (h.trans htk.symm)
            simp [htk, huk]
          · simp [htk]
    rw [herase, ← hk, List.filter_cons]
    by_cases htk : t.1 = k <;> simp [htk]

/-- Time that passes for all elements alike leaves them in order. -/
theorem earlier {r : ℕ} (h : Orders l p) (hr : ∀ t ∈ l, r ≤ t.1) :
    Orders (Deltas.earlier r l) (Deltas.earlier r p) where
  sorted := by
    refine List.pairwise_map.mpr (h.sorted.imp fun hle => ?_)
    exact Nat.sub_le_sub_right hle r
  same k := by
    have hfilter : ∀ q : List (ℕ × α), (∀ t ∈ q, r ≤ t.1) →
        (Deltas.earlier r q).filter (fun t => t.1 = k) =
          Deltas.earlier r (q.filter fun t => t.1 = k + r) := by
      intro q hq
      unfold Deltas.earlier
      rw [List.filter_map]
      refine congrArg _ (List.filter_congr fun t ht => ?_)
      have := hq t ht
      simp only [Function.comp_apply, decide_eq_decide]
      omega
    rw [hfilter l hr, hfilter p fun t ht => hr t (h.perm.mem_iff.mpr ht), h.same]

end Orders

end ServerlessEdge.Library.Deltas
