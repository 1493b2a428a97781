import Mathlib.Algebra.Group.Subgroup.ZPowers.Basic
import Mathlib.Algebra.Order.Floor.Semiring
import Mathlib.Data.Prod.Lex
import Mathlib.Data.Rat.Floor
import Mathlib.Order.WellFounded
import Mathlib.Tactic.FieldSimp
import Mathlib.Tactic.Linarith

/-! Loops whose body may fail, and when they end: by a measure that falls, or by a
clock that goes on by at least one unit whenever it goes on. -/
namespace ServerlessEdge.Library.Loops

section Rules

variable {S ε : Type*} (g : S → Prop) [DecidablePred g] (step : S → Except ε S)

/-- The loop after a number of iterations, unless it ends before. -/
def loop : ℕ → S → Except ε S
  | 0, s => .ok s
  | n + 1, s => if g s then (step s).bind (loop n) else .ok s

variable {g step}

theorem loop_succ {s s' : S} (hg : g s) (hs : step s = .ok s') (n : ℕ) :
    loop g step (n + 1) s = loop g step n s' := by
  rw [loop, if_pos hg, hs]
  rfl

/-- What each iteration keeps is kept by the loop. -/
theorem loop_invariant {I : S → Prop} (hI : ∀ s s', I s → g s → step s = .ok s' → I s') {n : ℕ}
    {s t : S} (hs : I s) (ht : loop g step n s = .ok t) : I t := by
  induction n generalizing s with
  | zero =>
    cases ht
    exact hs
  | succ n ih =>
    by_cases hg : g s
    · cases hok : step s with
      | error e =>
        rw [loop, if_pos hg, hok] at ht
        cases ht
      | ok s' =>
        rw [loop_succ hg hok] at ht
        exact ih (hI s s' hs hg hok) ht
    · rw [loop, if_neg hg] at ht
      cases ht
      exact hs

/-- A loop ends if no iteration fails and each one makes a measure fall. -/
theorem exists_loop_of_measure {β : Type*} [LT β] [WellFoundedLT β] {I : S → Prop} (μ : S → β)
    (hstep : ∀ s, I s → g s → ∃ s', step s = .ok s' ∧ I s' ∧ μ s' < μ s) {s : S} (hs : I s) :
    ∃ n t, loop g step n s = .ok t ∧ I t ∧ ¬ g t := by
  induction h : μ s using WellFoundedLT.induction generalizing s with
  | ind m ih =>
    by_cases hg : g s
    · obtain ⟨s', hok, hs', hlt⟩ := hstep s hs hg
      obtain ⟨n, t, hloop, ht, hend⟩ := ih (μ s') (h ▸ hlt) hs' rfl
      exact ⟨n + 1, t, (loop_succ hg hok n).trans hloop, ht, hend⟩
    · exact ⟨0, s, rfl, hs, hg⟩

end Rules

section Clocks

variable {S ε K : Type*} [Field K] [LinearOrder K] [IsStrictOrderedRing K] [FloorSemiring K]
  {step : S → Except ε S} {clock : S → K} {duration u : K}

/-- A clock reaches any time if it goes on by at least one unit whenever it goes on, and
if it stands still only while something is used up. -/
theorem exists_loop_of_clock {I : S → Prop} (left : S → ℕ) (hu : 0 < u)
    (hstep : ∀ s, I s → clock s < duration → ∃ s', step s = .ok s' ∧ I s' ∧
      (clock s + u ≤ clock s' ∨ clock s' = clock s ∧ left s' < left s)) {s : S} (hs : I s) :
    ∃ n t, loop (fun s => clock s < duration) step n s = .ok t ∧ duration ≤ clock t := by
  -- the units to go, and for as long as they stay the same what is left to use up
  let μ : S → ℕ ×ₗ ℕ := fun s => toLex (⌈(duration - clock s) / u⌉₊, left s)
  have hfalls : ∀ s, I s → clock s < duration →
      ∃ s', step s = .ok s' ∧ I s' ∧ μ s' < μ s := by
    intro s hs hg
    obtain ⟨s', hok, hs', hgo⟩ := hstep s hs hg
    refine ⟨s', hok, hs', Prod.Lex.toLex_lt_toLex.mpr ?_⟩
    rcases hgo with hgo | ⟨hstill, hleft⟩
    · left
      have hpos : 0 < ⌈(duration - clock s) / u⌉₊ :=
        Nat.ceil_pos.mpr (div_pos (sub_pos.mpr hg) hu)
      have hless : (duration - clock s') / u ≤ (duration - clock s) / u - 1 := by
        rw [div_sub_one hu.ne', div_le_div_iff_of_pos_right hu]
        linarith
      have hle : ⌈(duration - clock s') / u⌉₊ ≤ ⌈(duration - clock s) / u⌉₊ - 1 := by
        rw [← Nat.ceil_sub_one]
        exact Nat.ceil_le_ceil hless
      omega
    · right
      exact ⟨by rw [hstill], hleft⟩
  obtain ⟨n, t, hloop, -, hend⟩ := exists_loop_of_measure μ hfalls hs
  exact ⟨n, t, hloop, not_lt.mp hend⟩

end Clocks

section Units

/-- Rational numbers have a unit in common. -/
theorem exists_unit (l : List ℚ) : ∃ u : ℚ, 0 < u ∧ ∀ x ∈ l, x ∈ AddSubgroup.zmultiples u := by
  suffices h : ∃ q : ℕ, 0 < q ∧ ∀ x ∈ l, x ∈ AddSubgroup.zmultiples (q : ℚ)⁻¹ by
    obtain ⟨q, hq, hl⟩ := h
    exact ⟨(q : ℚ)⁻¹, inv_pos.mpr (Nat.cast_pos.mpr hq), hl⟩
  induction l with
  | nil => exact ⟨1, one_pos, fun x hx => nomatch hx⟩
  | cons x l ih =>
    obtain ⟨q, hq, hl⟩ := ih
    have hq' : (q : ℚ) ≠ 0 := Nat.cast_ne_zero.mpr hq.ne'
    have hden : (x.den : ℚ) ≠ 0 := Nat.cast_ne_zero.mpr x.den_nz
    refine ⟨q * x.den, Nat.mul_pos hq x.den_pos, fun y hy => ?_⟩
    rcases List.mem_cons.mp hy with rfl | hy
    · refine AddSubgroup.mem_zmultiples_iff.mpr ⟨y.num * q, ?_⟩
      rw [zsmul_eq_mul]
      push_cast
      field_simp
      rw [mul_comm, Rat.mul_den_eq_num]
    · obtain ⟨k, rfl⟩ := AddSubgroup.mem_zmultiples_iff.mp (hl y hy)
      refine AddSubgroup.mem_zmultiples_iff.mpr ⟨k * x.den, ?_⟩
      rw [zsmul_eq_mul, zsmul_eq_mul]
      push_cast
      field_simp

/-- What takes time takes at least one unit. -/
theorem le_of_mem_zmultiples {K : Type*} [Ring K] [LinearOrder K] [IsStrictOrderedRing K] {u x : K}
    (hu : 0 < u) (hx : x ∈ AddSubgroup.zmultiples u) (hpos : 0 < x) : u ≤ x := by
  obtain ⟨k, rfl⟩ := AddSubgroup.mem_zmultiples_iff.mp hx
  rw [zsmul_eq_mul] at hpos ⊢
  have hk : 0 < k := Int.cast_pos.mp (pos_of_mul_pos_left hpos hu.le)
  have hone : (1 : K) ≤ k := by exact_mod_cast hk
  exact le_mul_of_one_le_left hu.le hone

end Units

end ServerlessEdge.Library.Loops
