import Mathlib.Algebra.BigOperators.Fin
import Mathlib.Algebra.Order.BigOperators.Group.Finset
import Mathlib.Data.List.FinRange
import Mathlib.Data.Fintype.Basic

/-! Units of work given to workers one by one: how many units of each kind go to
each worker, against what is requested and what the workers can take. -/
namespace ServerlessEdge.Library.Allotments

/-- Each index as many times as it has units, in order. -/
def units {n : ℕ} (amount : Fin n → ℕ) : List (Fin n) :=
  (List.finRange n).flatMap fun i => List.replicate (amount i) i

theorem count_units {n : ℕ} (amount : Fin n → ℕ) (i : Fin n) :
    (units amount).count i = amount i := by
  have hone : ∀ l : List (Fin n), l.Nodup →
      (l.flatMap fun j => List.replicate (amount j) j).count i = if i ∈ l then amount i else 0 := by
    intro l hl
    induction l with
    | nil => rfl
    | cons j l ih =>
      obtain ⟨hj, hnodup⟩ := List.nodup_cons.mp hl
      rw [List.flatMap_cons, List.count_append, ih hnodup, List.count_replicate]
      by_cases hij : j = i
      · subst hij
        simp [hj]
      · simp [hij, Ne.symm hij]
  rw [units, hone _ (List.nodup_finRange n), if_pos (List.mem_finRange i)]

theorem length_units {n : ℕ} (amount : Fin n → ℕ) : (units amount).length = ∑ i, amount i := by
  rw [units, List.length_flatMap, ← List.ofFn_eq_map, List.sum_ofFn]
  simp only [List.length_replicate]

variable {α β : Type*} [DecidableEq α] [DecidableEq β]

/-- How many units of each kind go to each worker. -/
def tally (l : List (α × β)) (a : α) (b : β) : ℕ := l.count (a, b)

theorem tally_cons (e : α × β) (l : List (α × β)) (a : α) (b : β) :
    tally (e :: l) a b = tally l a b + if e.1 = a ∧ e.2 = b then 1 else 0 := by
  rw [tally, List.count_cons, tally]
  simp only [beq_iff_eq, Prod.ext_iff]

theorem sum_tally_right [Fintype β] (l : List (α × β)) (a : α) :
    ∑ b, tally l a b = (l.map Prod.fst).count a := by
  induction l with
  | nil => simp [tally]
  | cons e l ih =>
    simp only [tally_cons, Finset.sum_add_distrib, ih, List.map_cons, List.count_cons, beq_iff_eq]
    by_cases ha : e.1 = a <;> simp [ha]

theorem sum_tally_left [Fintype α] (l : List (α × β)) (b : β) :
    ∑ a, tally l a b = (l.map Prod.snd).count b := by
  induction l with
  | nil => simp [tally]
  | cons e l ih =>
    simp only [tally_cons, Finset.sum_add_distrib, ih, List.map_cons, List.count_cons, beq_iff_eq]
    by_cases hb : e.2 = b <;> simp [hb]

theorem sum_count [Fintype α] (l : List α) : ∑ a, l.count a = l.length := by
  induction l with
  | nil => simp
  | cons b l ih =>
    simp only [List.count_cons, Finset.sum_add_distrib, ih, beq_iff_eq, Finset.sum_ite_eq,
      Finset.mem_univ, if_true, List.length_cons]

theorem sum_tally [Fintype α] [Fintype β] (l : List (α × β)) :
    ∑ a, ∑ b, tally l a b = l.length := by
  simp only [sum_tally_right, sum_count, List.length_map]

omit [DecidableEq α] [DecidableEq β] in
theorem zip_fst_initial (l : List α) (p : List β) : (l.zip p).map Prod.fst <+: l := by
  induction l generalizing p with
  | nil => exact List.nil_prefix
  | cons a l ih =>
    cases p with
    | nil => exact List.nil_prefix
    | cons b p => exact List.cons_prefix_cons.mpr ⟨rfl, ih p⟩

omit [DecidableEq α] [DecidableEq β] in
theorem zip_snd_initial (l : List α) (p : List β) : (l.zip p).map Prod.snd <+: p := by
  induction p generalizing l with
  | nil =>
    rw [List.zip_nil_right]
    exact List.nil_prefix
  | cons b p ih =>
    cases l with
    | nil => exact List.nil_prefix
    | cons a l => exact List.cons_prefix_cons.mpr ⟨rfl, ih l⟩

variable [Fintype α] [Fintype β]

/-- No kind gets more than it requests and no worker more than it can take, and
something is left out only when all workers are full. -/
structure Allots (requests : α → ℕ) (capacities : β → ℕ) (w : α → β → ℕ) : Prop where
  row_le : ∀ a, ∑ b, w a b ≤ requests a
  col_le : ∀ b, ∑ a, w a b ≤ capacities b
  total : ∑ a, ∑ b, w a b = min (∑ a, requests a) (∑ b, capacities b)

namespace Allots

variable {requests : α → ℕ} {capacities : β → ℕ} {w : α → β → ℕ}

omit [DecidableEq α] [DecidableEq β] in
/-- All requests are met if and only if the workers can take so much. -/
theorem rows_iff (h : Allots requests capacities w) :
    (∀ a, ∑ b, w a b = requests a) ↔ ∑ a, requests a ≤ ∑ b, capacities b := by
  constructor
  · intro hrows
    have htotal := h.total
    rw [Finset.sum_congr rfl fun a _ => hrows a] at htotal
    exact left_eq_inf.mp htotal
  · intro hle
    have htotal : ∑ a, ∑ b, w a b = ∑ a, requests a := by
      rw [h.total, Nat.min_eq_left hle]
    intro a
    exact (Finset.sum_eq_sum_iff_of_le fun a _ => h.row_le a).mp htotal a (Finset.mem_univ a)

omit [DecidableEq α] [DecidableEq β] in
theorem entry_le (h : Allots requests capacities w) (a : α) (b : β) : w a b ≤ capacities b :=
  le_trans (Finset.single_le_sum (f := fun a => w a b) (fun _ _ => Nat.zero_le _)
    (Finset.mem_univ a)) (h.col_le b)

end Allots

/-- Units that are given until there are none left or all workers are full. -/
theorem allots_of_full {requests : α → ℕ} {capacities : β → ℕ} {l : List (α × β)}
    (hrow : ∀ a, (l.map Prod.fst).count a ≤ requests a)
    (hcol : ∀ b, (l.map Prod.snd).count b ≤ capacities b)
    (hfull : (∀ a, (l.map Prod.fst).count a = requests a) ∨
      ∀ b, (l.map Prod.snd).count b = capacities b) : Allots requests capacities (tally l) where
  row_le a := (sum_tally_right l a).trans_le (hrow a)
  col_le b := (sum_tally_left l b).trans_le (hcol b)
  total := by
    have hrows : l.length ≤ ∑ a, requests a := by
      rw [← List.length_map Prod.fst, ← sum_count]
      exact Finset.sum_le_sum fun a _ => hrow a
    have hcols : l.length ≤ ∑ b, capacities b := by
      rw [← List.length_map Prod.snd, ← sum_count]
      exact Finset.sum_le_sum fun b _ => hcol b
    rw [sum_tally]
    refine le_antisymm (le_min hrows hcols) ?_
    rcases hfull with h | h
    · have htotal : ∑ a, requests a = l.length := by
        rw [← Finset.sum_congr rfl fun a _ => h a, sum_count, List.length_map]
      exact (min_le_left _ _).trans htotal.le
    · have htotal : ∑ b, capacities b = l.length := by
        rw [← Finset.sum_congr rfl fun b _ => h b, sum_count, List.length_map]
      exact (min_le_right _ _).trans htotal.le

/-- Units in some order that are given to places in some order. -/
theorem allots_zip {requests : α → ℕ} {capacities : β → ℕ} {l : List α} {p : List β}
    (hl : ∀ a, l.count a = requests a) (hp : ∀ b, p.count b = capacities b) :
    Allots requests capacities (tally (l.zip p)) := by
  refine allots_of_full (fun a => ?_) (fun b => ?_) ?_
  · rw [← hl a]
    exact (zip_fst_initial l p).sublist.count_le a
  · rw [← hp b]
    exact (zip_snd_initial l p).sublist.count_le b
  · rcases Nat.le_total l.length p.length with hle | hle
    · refine .inl fun a => ?_
      rw [List.map_fst_zip hle, hl]
    · refine .inr fun b => ?_
      rw [List.map_snd_zip hle, hp]

theorem exists_allots {n m : ℕ} (requests : Fin n → ℕ) (capacities : Fin m → ℕ) :
    ∃ w, Allots requests capacities w :=
  ⟨_, allots_zip (count_units requests) (count_units capacities)⟩

end ServerlessEdge.Library.Allotments
