import Mathlib.Analysis.Convex.Birkhoff
import Mathlib.Algebra.Order.Ring.Star
import Mathlib.Data.Rat.Star
import ServerlessEdge.Library.Allotments

/-! Shares against units: what is given to workers in shares costs no less than some
way of giving it in units, by the decomposition of doubly stochastic matrices. -/
namespace ServerlessEdge.Library.Allotments

section Choice

variable {ρ β : Type*} [Fintype ρ] [DecidableEq ρ] [Fintype β] [DecidableEq β]
  {C : β → ℕ} {y : ρ → β → ℚ}

/-- The share of each row, spread over the units of each column. -/
private def spread (y : ρ → β → ℚ) (e : ρ ≃ Σ b, Fin (C b)) : Matrix ρ ρ ℚ :=
  fun r r' => y r (e r').1 / C (e r').1

omit [DecidableEq ρ] [DecidableEq β] in
private theorem sum_spread (hy : ∀ r b, 0 ≤ y r b) (hcol : ∀ b, ∑ r, y r b = C b)
    (e : ρ ≃ Σ b, Fin (C b)) (r : ρ) (v : β → ℚ) :
    ∑ r', spread y e r r' * v (e r').1 = ∑ b, y r b * v b := by
  have hmove : ∑ r', spread y e r r' * v (e r').1 =
      ∑ j : Σ b, Fin (C b), y r j.1 / C j.1 * v j.1 :=
    Equiv.sum_comp e fun j => y r j.1 / C j.1 * v j.1
  rw [hmove, Fintype.sum_sigma]
  refine Finset.sum_congr rfl fun b _ => ?_
  simp only [Finset.sum_const, Finset.card_univ, Fintype.card_fin, nsmul_eq_mul]
  by_cases hb : C b = 0
  · -- no share is left of a column without units
    have hzero : y r b = 0 := by
      have hsum := hcol b
      rw [hb, Nat.cast_zero] at hsum
      exact (Finset.sum_eq_zero_iff_of_nonneg fun r _ => hy r b).mp hsum r (Finset.mem_univ r)
    rw [hb, hzero]
    simp
  · have hpos : (C b : ℚ) ≠ 0 := Nat.cast_ne_zero.mpr hb
    field_simp

omit [DecidableEq β] in
private theorem spread_mem (hy : ∀ r b, 0 ≤ y r b) (hrow : ∀ r, ∑ b, y r b = 1)
    (hcol : ∀ b, ∑ r, y r b = C b) (e : ρ ≃ Σ b, Fin (C b)) :
    spread y e ∈ doublyStochastic ℚ ρ := by
  rw [mem_doublyStochastic_iff_sum]
  refine ⟨fun r r' => div_nonneg (hy _ _) (Nat.cast_nonneg _), fun r => ?_, fun r' => ?_⟩
  · have hone := sum_spread hy hcol e r fun _ => 1
    simp only [mul_one] at hone
    rw [hone, hrow]
  · have hpos : (C (e r').1 : ℚ) ≠ 0 := Nat.cast_ne_zero.mpr (Nat.ne_of_gt (e r').2.pos)
    simp only [spread]
    rw [← Finset.sum_div, hcol, div_self hpos]

/-- Rows that share out one unit each can take one unit each, at no higher cost. -/
theorem exists_choice (hy : ∀ r b, 0 ≤ y r b) (hrow : ∀ r, ∑ b, y r b = 1)
    (hcol : ∀ b, ∑ r, y r b = C b) (cost : ρ → β → ℚ) : ∃ f : ρ → β,
      (∀ b, (Finset.univ.filter fun r => f r = b).card = C b) ∧
      ∑ r, cost r (f r) ≤ ∑ r, ∑ b, y r b * cost r b := by
  have hcard : Fintype.card ρ = Fintype.card (Σ b, Fin (C b)) := by
    have htotal : (Fintype.card ρ : ℚ) = ((∑ b, C b : ℕ) : ℚ) := by
      rw [Nat.cast_sum, ← Finset.sum_congr rfl fun b _ => hcol b, Finset.sum_comm,
        Finset.sum_congr rfl fun r _ => hrow r]
      simp
    rw [Fintype.card_sigma]
    simp only [Fintype.card_fin]
    exact_mod_cast htotal
  let e : ρ ≃ Σ b, Fin (C b) := Fintype.equivOfCardEq hcard
  obtain ⟨w, hw, hsum, hM⟩ := exists_eq_sum_perm_of_mem_doublyStochastic (spread_mem hy hrow hcol e)
  let total : Equiv.Perm ρ → ℚ := fun σ => ∑ r, cost r (e (σ r)).1
  -- the cost of the shares is the mean of the costs of the permutations
  have hmean : ∑ r, ∑ b, y r b * cost r b = ∑ σ, w σ * total σ := by
    have hentry : ∀ r r', spread y e r r' = ∑ σ : Equiv.Perm ρ, if σ r = r' then w σ else 0 := by
      intro r r'
      rw [← hM, Matrix.sum_apply]
      refine Finset.sum_congr rfl fun σ _ => ?_
      rw [Matrix.smul_apply, Equiv.Perm.permMatrix, PEquiv.toMatrix_apply, Equiv.toPEquiv_apply]
      simp only [Option.mem_def, Option.some.injEq, smul_eq_mul, mul_ite, mul_one, mul_zero]
    have hline : ∀ r, ∑ b, y r b * cost r b = ∑ σ, w σ * cost r (e (σ r)).1 := by
      intro r
      rw [← sum_spread hy hcol e r (cost r)]
      simp only [hentry, Finset.sum_mul, ite_mul, zero_mul]
      rw [Finset.sum_comm]
      simp
    rw [Finset.sum_congr rfl fun r _ => hline r, Finset.sum_comm]
    simp only [total, Finset.mul_sum]
  obtain ⟨σ, -, hleast⟩ := Finset.exists_min_image Finset.univ total Finset.univ_nonempty
  refine ⟨fun r => (e (σ r)).1, fun b => ?_, ?_⟩
  · have hbij : (Finset.univ.filter fun r => (e (σ r)).1 = b).card =
        (Finset.univ.filter fun j : Σ b, Fin (C b) => j.1 = b).card := by
      refine Finset.card_equiv (σ.trans e) fun r => ?_
      simp
    have hfiber : (Finset.univ.filter fun j : Σ b, Fin (C b) => j.1 = b).card =
        (Finset.univ : Finset (Fin (C b))).card := by
      refine (Finset.card_bij (fun i _ => ⟨b, i⟩) (fun i _ => ?_) (fun i _ j _ h => ?_)
        fun j hj => ?_).symm
      · simp
      · exact eq_of_heq (Sigma.mk.inj h).2
      · obtain ⟨b', i⟩ := j
        obtain rfl := (Finset.mem_filter.mp hj).2
        exact ⟨i, Finset.mem_univ i, rfl⟩
    rw [hbij, hfiber, Finset.card_univ, Fintype.card_fin]
  · rw [hmean]
    calc total σ = ∑ τ, w τ * total σ := by rw [← Finset.sum_mul, hsum, one_mul]
      _ ≤ ∑ τ, w τ * total τ := Finset.sum_le_sum fun τ _ =>
          mul_le_mul_of_nonneg_left (hleast τ (Finset.mem_univ τ)) (hw τ)

end Choice

section Units

variable {α β : Type*} [Fintype α] [DecidableEq α] [Fintype β] [DecidableEq β]
  {R : α → ℕ} {C : β → ℕ} {x : α → β → ℚ}

/-- What the units of all kinds and the units left over of the workers get. -/
private def shares (R : α → ℕ) (C : β → ℕ) (x : α → β → ℚ) (K : ℕ) :
    (Σ a, Fin (R a)) ⊕ Fin K → β → ℚ
  | .inl i, b => x i.1 b / R i.1
  | .inr _, b => (C b - ∑ a, x a b) / K

omit [DecidableEq α] [DecidableEq β] in
private theorem sum_shares_units (hx : ∀ a b, 0 ≤ x a b) (hrow : ∀ a, ∑ b, x a b = R a) (K : ℕ)
    (b : β) (v : α → ℚ) :
    ∑ i : Σ a, Fin (R a), shares R C x K (.inl i) b * v i.1 = ∑ a, x a b * v a := by
  rw [Fintype.sum_sigma]
  refine Finset.sum_congr rfl fun a _ => ?_
  simp only [shares, Finset.sum_const, Finset.card_univ, Fintype.card_fin, nsmul_eq_mul]
  by_cases ha : R a = 0
  · have hzero : x a b = 0 := by
      have hsum := hrow a
      rw [ha, Nat.cast_zero] at hsum
      exact (Finset.sum_eq_zero_iff_of_nonneg fun b _ => hx a b).mp hsum b (Finset.mem_univ b)
    rw [ha, hzero]
    simp
  · have hpos : (R a : ℚ) ≠ 0 := Nat.cast_ne_zero.mpr ha
    field_simp

/-- Where all requests are met in shares they can be met in units. -/
private theorem exists_units_of_rows (hx : ∀ a b, 0 ≤ x a b) (hrow : ∀ a, ∑ b, x a b = R a)
    (hcol : ∀ b, ∑ a, x a b ≤ C b) (cost : α → β → ℚ) : ∃ n : α → β → ℕ,
      (∀ a, ∑ b, n a b = R a) ∧ (∀ b, ∑ a, n a b ≤ C b) ∧
      ∑ a, ∑ b, n a b * cost a b ≤ ∑ a, ∑ b, x a b * cost a b := by
  have htotal : ∑ b, ∑ a, x a b = ((∑ a, R a : ℕ) : ℚ) := by
    rw [Finset.sum_comm, Finset.sum_congr rfl fun a _ => hrow a, Nat.cast_sum]
  have hle : ∑ a, R a ≤ ∑ b, C b := by
    have hsum := Finset.sum_le_sum fun b (_ : b ∈ Finset.univ) => hcol b
    rw [htotal, ← Nat.cast_sum] at hsum
    exact_mod_cast hsum
  -- the units of the workers that stay free
  obtain ⟨K, hK⟩ := Nat.exists_eq_add_of_le hle
  have hfree : ∑ b, ((C b : ℚ) - ∑ a, x a b) = K := by
    rw [Finset.sum_sub_distrib, htotal, ← Nat.cast_sum, hK, Nat.cast_add, add_sub_cancel_left]
  have hnonneg : ∀ b, 0 ≤ (C b : ℚ) - ∑ a, x a b := fun b => sub_nonneg.mpr (hcol b)
  have hshares : ∀ r b, 0 ≤ shares R C x K r b := by
    rintro (i | k) b
    · exact div_nonneg (hx _ _) (Nat.cast_nonneg _)
    · exact div_nonneg (hnonneg b) (Nat.cast_nonneg _)
  have hrows : ∀ r, ∑ b, shares R C x K r b = 1 := by
    rintro (i | k)
    · have hpos : (R i.1 : ℚ) ≠ 0 := Nat.cast_ne_zero.mpr (Nat.ne_of_gt i.2.pos)
      simp only [shares]
      rw [← Finset.sum_div, hrow, div_self hpos]
    · have hpos : (K : ℚ) ≠ 0 := Nat.cast_ne_zero.mpr (Nat.ne_of_gt k.pos)
      simp only [shares]
      rw [← Finset.sum_div, hfree, div_self hpos]
  have hcols : ∀ b, ∑ r, shares R C x K r b = C b := by
    intro b
    have hunits := sum_shares_units (C := C) hx hrow K b fun _ => 1
    simp only [mul_one] at hunits
    rw [Fintype.sum_sum_type, hunits]
    simp only [shares, Finset.sum_const, Finset.card_univ, Fintype.card_fin, nsmul_eq_mul]
    by_cases hzero : K = 0
    · rw [hzero, Nat.cast_zero] at hfree
      have hb := (Finset.sum_eq_zero_iff_of_nonneg fun b _ => hnonneg b).mp hfree b (Finset.mem_univ b)
      rw [hzero]
      simp only [Nat.cast_zero, zero_mul]
      linarith
    · have hpos : (K : ℚ) ≠ 0 := Nat.cast_ne_zero.mpr hzero
      field_simp
      ring
  obtain ⟨f, hf, hcost⟩ := exists_choice hshares hrows hcols fun r b =>
    Sum.elim (fun i : Σ a, Fin (R a) => cost i.1 b) (fun _ => 0) r
  refine ⟨fun a b => (Finset.univ.filter fun i : Fin (R a) => f (.inl ⟨a, i⟩) = b).card,
    fun a => ?_, fun b => ?_, ?_⟩
  · have hcount := Finset.card_eq_sum_card_fiberwise (s := (Finset.univ : Finset (Fin (R a))))
      (t := Finset.univ) (f := fun i => f (.inl ⟨a, i⟩)) fun i _ => Finset.mem_univ _
    rw [Finset.card_univ, Fintype.card_fin] at hcount
    exact hcount.symm
  · rw [← hf b]
    simp only [Finset.card_filter]
    rw [Fintype.sum_sum_type, Fintype.sum_sigma]
    exact Nat.le_add_right _ _
  · have hunits : ∑ a, ∑ b, (((Finset.univ.filter fun i : Fin (R a) => f (.inl ⟨a, i⟩) = b).card :
        ℕ) : ℚ) * cost a b = ∑ i : Σ a, Fin (R a), cost i.1 (f (.inl i)) := by
      rw [Fintype.sum_sigma]
      refine Finset.sum_congr rfl fun a _ => ?_
      rw [← Finset.sum_fiberwise Finset.univ fun i => f (.inl ⟨a, i⟩)]
      refine Finset.sum_congr rfl fun b _ => ?_
      rw [← nsmul_eq_mul, ← Finset.sum_const]
      exact Finset.sum_congr rfl fun i hi => by rw [(Finset.mem_filter.mp hi).2]
    have hshared : ∑ i : Σ a, Fin (R a), ∑ b, shares R C x K (.inl i) b * cost i.1 b =
        ∑ a, ∑ b, x a b * cost a b := by
      rw [Finset.sum_comm, Finset.sum_comm (f := fun a b => x a b * cost a b)]
      exact Finset.sum_congr rfl fun b _ => sum_shares_units hx hrow K b fun a => cost a b
    rw [Fintype.sum_sum_type, Fintype.sum_sum_type] at hcost
    simp only [Sum.elim_inl, Sum.elim_inr, Finset.sum_const_zero, mul_zero, add_zero] at hcost
    rw [hunits, ← hshared]
    exact hcost

/-- As much as possible given in shares costs no less than some units. -/
theorem exists_units_le (hx : ∀ a b, 0 ≤ x a b) (hrow : ∀ a, ∑ b, x a b ≤ R a)
    (hcol : ∀ b, ∑ a, x a b ≤ C b)
    (htotal : ∑ a, ∑ b, x a b = min (∑ a, (R a : ℚ)) (∑ b, (C b : ℚ))) (cost : α → β → ℚ) :
    ∃ n, Allots R C n ∧ ∑ a, ∑ b, n a b * cost a b ≤ ∑ a, ∑ b, x a b * cost a b := by
  rcases le_total (∑ a, R a) (∑ b, C b) with hle | hle
  · have hleq : ∑ a, (R a : ℚ) ≤ ∑ b, (C b : ℚ) := by exact_mod_cast hle
    rw [min_eq_left hleq] at htotal
    have hfull : ∀ a, ∑ b, x a b = R a := fun a =>
      (Finset.sum_eq_sum_iff_of_le fun a _ => hrow a).mp htotal a (Finset.mem_univ a)
    obtain ⟨n, hrows, hcols, hcost⟩ := exists_units_of_rows hx hfull hcol cost
    refine ⟨n, ⟨fun a => (hrows a).le, hcols, ?_⟩, hcost⟩
    rw [Finset.sum_congr rfl fun a _ => hrows a, Nat.min_eq_left hle]
  · -- all the workers are full, so that their units stand for the requests
    have hleq : ∑ b, (C b : ℚ) ≤ ∑ a, (R a : ℚ) := by exact_mod_cast hle
    rw [min_eq_right hleq, Finset.sum_comm] at htotal
    have hfull : ∀ b, ∑ a, x a b = C b := fun b =>
      (Finset.sum_eq_sum_iff_of_le fun b _ => hcol b).mp htotal b (Finset.mem_univ b)
    obtain ⟨n, hcols, hrows, hcost⟩ := exists_units_of_rows (x := fun b a => x a b)
      (fun b a => hx a b) hfull hrow fun b a => cost a b
    refine ⟨fun a b => n b a, ⟨hrows, fun b => (hcols b).le, ?_⟩, ?_⟩
    · rw [Finset.sum_comm, Finset.sum_congr rfl fun b _ => hcols b, Nat.min_eq_right hle]
    · rw [Finset.sum_comm, Finset.sum_comm (f := fun a b => x a b * cost a b)]
      exact hcost

end Units

end ServerlessEdge.Library.Allotments
