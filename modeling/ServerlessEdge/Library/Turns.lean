import Mathlib.Algebra.Order.Archimedean.Basic
import Mathlib.Algebra.BigOperators.Group.Finset.Basic
import Mathlib.Algebra.Order.BigOperators.Group.Finset

/-! Taking turns by deficits: always one with the least deficit, which then grows by the weight of
the one whose turn it was. -/
namespace ServerlessEdge.Library.Turns

variable {ι K : Type*} [DecidableEq ι] [AddCommGroup K] [LinearOrder K] [IsOrderedAddMonoid K]

/-- The turns of a run, and the deficits after it. -/
inductive Picks (S : List ι) (w : ι → K) : (ι → K) → List ι → (ι → K) → Prop where
  | nil (d : ι → K) : Picks S w d [] d
  | cons {d d' : ι → K} {i : ι} {is : List ι} (hi : i ∈ S) (hleast : ∀ j ∈ S, d i ≤ d j)
      (rest : Picks S w (Function.update d i (d i + w i)) is d') : Picks S w d (i :: is) d'

namespace Picks

variable {S : List ι} {w d d' : ι → K} {is : List ι}

omit [IsOrderedAddMonoid K] in
/-- A deficit counts the turns. -/
theorem eq_add_count (h : Picks S w d is d') (i : ι) : d' i = d i + is.count i • w i := by
  induction h with
  | nil => rw [List.count_nil, zero_nsmul, add_zero]
  | @cons d d' k is _ _ _ ih =>
    rw [ih, List.count_cons, Function.update_apply]
    by_cases hk : i = k
    · subst hk
      rw [if_pos rfl, beq_self_eq_true, if_pos rfl, add_nsmul, one_nsmul, add_assoc,
        add_comm (w i)]
    · rw [if_neg hk, if_neg (by simpa using fun heq => hk heq.symm), Nat.add_zero]

theorem le (h : Picks S w d is d') (hw : ∀ i ∈ S, 0 ≤ w i) {i : ι} (hi : i ∈ S) : d i ≤ d' i := by
  rw [h.eq_add_count]
  exact le_add_of_nonneg_right (nsmul_nonneg (hw i hi) _)

/-- One that has had a turn is ahead of the others by its own weight at most. -/
theorem ahead (h : Picks S w d is d') (hw : ∀ i ∈ S, 0 ≤ w i) {i j : ι} (hj : j ∈ S)
    (hturn : i ∈ is) : d' i ≤ d' j + w i := by
  induction h with
  | nil => cases hturn
  | @cons d d' k is hk hleast rest ih =>
    by_cases hagain : i ∈ is
    · exact ih hagain
    · -- this is its last turn
      obtain rfl : i = k := (List.mem_cons.mp hturn).resolve_right hagain
      have hlast := rest.eq_add_count i
      rw [List.count_eq_zero_of_not_mem hagain, zero_nsmul, add_zero, Function.update_self] at hlast
      have hbefore : d i ≤ d' j := by
        refine (hleast j hj).trans (le_trans ?_ (rest.le hw hj))
        rw [Function.update_apply]
        split
        · next heq =>
          subst heq
          exact le_add_of_nonneg_right (hw j hj)
        · exact le_refl _
      rw [hlast]
      exact add_le_add_left hbefore (w i)

omit [IsOrderedAddMonoid K] in
theorem mem_of_mem (h : Picks S w d is d') {i : ι} (hi : i ∈ is) : i ∈ S := by
  induction h with
  | nil => cases hi
  | cons hk _ _ ih =>
    rcases List.mem_cons.mp hi with rfl | hi
    · exact hk
    · exact ih hi

/-- One that may have a turn has one before long. -/
theorem exists_turn [Archimedean K] (hw : ∀ i ∈ S, 0 < w i) {j : ι} (hj : j ∈ S) (d : ι → K) :
    ∃ n, ∀ is d', Picks S w d is d' → n < is.length → j ∈ is := by
  have hturns : ∀ i, ∃ n : ℕ, i ∈ S → d j + w i < d i + (n + 1) • w i := by
    intro i
    by_cases hi : i ∈ S
    · obtain ⟨n, hn⟩ := Archimedean.arch (d j + w i - d i) (hw i hi)
      refine ⟨n, fun _ => ?_⟩
      rw [sub_le_iff_le_add'] at hn
      refine lt_of_le_of_lt hn (add_lt_add_right ?_ _)
      rw [add_nsmul, one_nsmul]
      exact lt_add_of_pos_right _ (hw i hi)
    · exact ⟨0, fun h => absurd h hi⟩
  choose n hn using hturns
  refine ⟨∑ i ∈ S.toFinset, n i, fun is d' h hlength => ?_⟩
  by_contra hnone
  have hcount : ∀ i ∈ S, is.count i ≤ n i := by
    intro i hi
    by_contra hlt
    have hturn : i ∈ is := List.count_pos_iff.mp (Nat.zero_lt_of_lt (Nat.not_le.mp hlt))
    have hahead := h.ahead (fun k hk => (hw k hk).le) hj hturn
    rw [h.eq_add_count, h.eq_add_count, List.count_eq_zero_of_not_mem hnone, zero_nsmul,
      add_zero] at hahead
    have hmore := nsmul_le_nsmul_left (hw i hi).le (Nat.succ_le_of_lt (Nat.not_le.mp hlt))
    exact absurd (hn i hi) (not_lt.mpr ((add_le_add_right hmore _).trans hahead))
  have hsubset : is.toFinset ⊆ S.toFinset := by
    intro i hi
    rw [List.mem_toFinset] at hi ⊢
    exact h.mem_of_mem hi
  have hsum : is.length ≤ ∑ i ∈ S.toFinset, n i := by
    calc is.length
      _ = ∑ i ∈ is.toFinset, is.count i := (List.sum_toFinset_count_eq_length is).symm
      _ ≤ ∑ i ∈ S.toFinset, is.count i := Finset.sum_le_sum_of_subset hsubset
      _ ≤ ∑ i ∈ S.toFinset, n i :=
        Finset.sum_le_sum fun i hi => hcount i (List.mem_toFinset.mp hi)
  omega

end Picks

end ServerlessEdge.Library.Turns
