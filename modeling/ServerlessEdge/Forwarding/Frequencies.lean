import ServerlessEdge.Forwarding.Listed
import Mathlib.Algebra.Order.BigOperators.Group.List
import Mathlib.Order.CompletePartialOrder
import Mathlib.Order.Interval.Set.OrdConnected
import Mathlib.Tactic.Linarith
import Mathlib.Tactic.Ring

/-! How often a random entry chooses each of its destinations: the numbers that lead to
one of them make an interval, as long as the inverse of its weight requires. -/
namespace ServerlessEdge.Forwarding
open Library

namespace EntryRandom

variable {W : Type} [Field W] [LinearOrder W]

/-- The sum of the inverses of the weights of some elements. -/
def invSum (l : List (Element W)) : W := (l.map fun x => 1 / x.theWeight).sum

/-- The random numbers that make an entry choose a destination. -/
def chosen (e : PolicyEntry (policy (W := W))) (aDest : String) : Set W :=
  {r | r ∈ Set.Ico 0 1 ∧ ∃ e', e.operator r = .ok (aDest, e')}

/-- An interval with these ends, each of which may belong to it or not. -/
structure IsInterval (lo hi : W) (I : Set W) : Prop where
  connected : I.OrdConnected
  inner : Set.Ioo lo hi ⊆ I
  outer : I ⊆ Set.Icc lo hi

section Sums

omit [LinearOrder W] in
@[simp] theorem invSum_append (l₁ l₂ : List (Element W)) :
    invSum (l₁ ++ l₂) = invSum l₁ + invSum l₂ := by
  simp [invSum]

omit [LinearOrder W] in
@[simp] theorem invSum_cons (x : Element W) (l : List (Element W)) :
    invSum (x :: l) = 1 / x.theWeight + invSum l := by
  simp [invSum]

omit [LinearOrder W] in
@[simp] theorem invSum_nil : invSum ([] : List (Element W)) = 0 := rfl

/-- The sum that is kept is the one of the listed weights, all of which are positive. -/
def sums : Lists (policy (W := W)) where
  Good e s := State.theInvSum s = invSum e.theDestinations ∧ ∀ x ∈ e.theDestinations, 0 < x.theWeight
  good_init := ⟨rfl, nofun⟩
  good_updateWeight {e s} _ hg {aDest x} hx {f} hf {aNewWeight} hw hpos r := by
    obtain ⟨l₁, l₂, hl, hrewrite, -⟩ := Entry.split_of_find hx
    rw [hl, invSum_append, invSum_cons] at hg
    rw [hrewrite f hf, invSum_append, invSum_cons, hw]
    constructor
    · change State.theInvSum s + _ = _
      rw [hg.1]
      ring
    · intro y hy
      rcases List.mem_append.mp hy with hy | hy
      · exact hg.2 y (List.mem_append_left _ hy)
      rcases List.mem_cons.mp hy with rfl | hy
      · rw [hw]
        exact hpos
      · exact hg.2 y (List.mem_append_right _ (List.mem_cons_of_mem _ hy))
  good_updateAddDest {e s} _ hg x hx hpos r := by
    constructor
    · change State.theInvSum s + 1 / x.theWeight = invSum (e.theDestinations ++ [x])
      rw [hg.1, invSum_append, invSum_cons, invSum_nil, add_zero]
    · intro y hy
      rcases List.mem_append.mp hy with hy | hy
      · exact hg.2 y hy
      · rw [List.mem_singleton.mp hy]
        exact hpos
  good_updateDelDest {e s} _ hg {aDest x} hx r := by
    obtain ⟨l₁, l₂, hl, -, hremove⟩ := Entry.split_of_find hx
    rw [hl, invSum_append, invSum_cons] at hg
    rw [hremove, invSum_append]
    constructor
    · change State.theInvSum s - _ = _
      rw [hg.1]
      ring
    · intro y hy
      apply hg.2 y
      simp only [List.mem_append, List.mem_cons] at hy ⊢
      tauto
  good_operator {e s s'} _ hg {r aDest} hs := by
    refine ⟨operator_listed hs, ?_⟩
    have hsame : s' = s := by
      have hop : operator (W := W) r e s = .ok (aDest, s') := hs
      unfold operator at hop
      split at hop
      · cases hop
      · cases hop
        rfl
      · cases hop
        rfl
    rw [hsame]
    exact hg

end Sums

section Choices

variable [IsStrictOrderedRing W] {l₁ l₂ : List (Element W)} {y : Element W}

theorem invSum_nonneg {l : List (Element W)} (h : ∀ x ∈ l, 0 < x.theWeight) : 0 ≤ invSum l := by
  apply List.sum_nonneg
  intro v hv
  obtain ⟨x, hx, rfl⟩ := List.mem_map.mp hv
  exact (one_div_pos.mpr (h x hx)).le

/-- The walk ends at an element if the number is beyond those before it, but not beyond
itself; there is nothing to test before the first and behind the last. -/
theorem pick_eq_iff (hpos : ∀ x ∈ l₁ ++ y :: l₂, 0 < x.theWeight)
    (hdistinct : ((l₁ ++ y :: l₂).map Element.theDestination).Nodup) (myRand mySum : W)
    {x : Element W} {rest : List (Element W)} (hl : l₁ ++ y :: l₂ = x :: rest) :
    pick myRand mySum x rest = y.theDestination ↔ (l₁ = [] ∨ mySum + invSum l₁ < myRand) ∧
      (l₂ = [] ∨ myRand ≤ mySum + invSum l₁ + 1 / y.theWeight) := by
  induction l₁ generalizing mySum x rest with
  | nil =>
    obtain ⟨rfl, rfl⟩ := List.cons_eq_cons.mp hl
    cases l₂ with
    | nil => simp [pick]
    | cons z l₂ =>
      have hother : pick myRand (mySum + 1 / y.theWeight) z l₂ ≠ y.theDestination := by
        intro heq
        have hmem := pick_mem myRand (mySum + 1 / y.theWeight) z l₂
        rw [heq] at hmem
        exact (List.nodup_cons.mp hdistinct).1 hmem
      rw [pick]
      split
      · next hle => simpa using hle
      · next hlt => exact iff_of_false hother fun h => hlt (by simpa using h.2)
  | cons a l₁ ih =>
    rw [List.cons_append] at hl
    obtain ⟨rfl, rfl⟩ := List.cons_eq_cons.mp hl
    rw [List.cons_append, List.map_cons, List.nodup_cons] at hdistinct
    rw [List.cons_append] at hpos
    obtain ⟨ha, hrest⟩ := List.forall_mem_cons.mp hpos
    have hbefore : 0 ≤ invSum l₁ := invSum_nonneg fun x hx => hrest x (List.mem_append_left _ hx)
    obtain ⟨z, l, hz⟩ := List.exists_cons_of_ne_nil (List.append_ne_nil_of_right_ne_nil l₁
      (List.cons_ne_nil y l₂))
    have hstep := ih hrest hdistinct.2 (mySum + 1 / a.theWeight) hz
    rw [hz, pick, invSum_cons]
    split
    · next hle =>
      have hother : a.theDestination ≠ y.theDestination := by
        intro heq
        exact hdistinct.1 (heq ▸ List.mem_map_of_mem (by simp))
      refine iff_of_false hother fun h => ?_
      have hlt := h.1.resolve_left (List.cons_ne_nil a l₁)
      linarith
    · next hlt =>
      rw [hstep, ← add_assoc]
      refine and_congr_left fun _ => ?_
      constructor
      · rintro (rfl | hsum)
        · exact .inr (by simpa using hlt)
        · exact .inr hsum
      · exact fun h => .inr (h.resolve_left (List.cons_ne_nil a l₁))

omit [IsStrictOrderedRing W] in
theorem operator_ok_iff {e : Entry W} {s : State W} {x : Element W} {rest : List (Element W)}
    (h : e.theDestinations = x :: rest) (r : W) (aDest : String) :
    (∃ s', operator r e s = .ok (aDest, s')) ↔ pick (r * s.theInvSum) 0 x rest = aDest := by
  have hop : operator r e s = .ok (pick (r * s.theInvSum) 0 x rest, s) := by
    unfold operator
    rw [h]
    cases rest with
    | nil => rfl
    | cons y rest => rfl
  rw [hop]
  simp

/-- The parts of the sum before an element, of itself and behind it. -/
theorem invSum_parts (hpos : ∀ x ∈ l₁ ++ y :: l₂, 0 < x.theWeight) :
    0 ≤ invSum l₁ ∧ 0 < 1 / y.theWeight ∧ 0 ≤ invSum l₂ := by
  refine ⟨invSum_nonneg fun z hz => ?_, one_div_pos.mpr ?_, invSum_nonneg fun z hz => ?_⟩
  · exact hpos z (List.mem_append_left _ hz)
  · exact hpos y (List.mem_append_right _ List.mem_cons_self)
  · exact hpos z (List.mem_append_right _ (List.mem_cons_of_mem _ hz))

/-- Which numbers lead to an element: the bounds are those of its part of the sum. -/
theorem mem_chosen_iff {e : PolicyEntry (policy (W := W))} (hg : sums.Good e.entry e.state)
    (hl : e.entry.theDestinations = l₁ ++ y :: l₂) (r : W) :
    r ∈ chosen e y.theDestination ↔ r ∈ Set.Ico 0 1 ∧
      (l₁ = [] ∨ invSum l₁ / invSum e.entry.theDestinations < r) ∧
      (l₂ = [] ∨ r ≤ (invSum l₁ + 1 / y.theWeight) / invSum e.entry.theDestinations) := by
  obtain ⟨hsum, hpos⟩ := hg
  have hdistinct := e.entry.distinct
  obtain ⟨x, rest, hx⟩ := List.exists_cons_of_ne_nil (List.append_ne_nil_of_right_ne_nil l₁
    (List.cons_ne_nil y l₂))
  rw [hl] at hpos hdistinct
  obtain ⟨hbefore, hself, hbehind⟩ := invSum_parts hpos
  have htotal : 0 < invSum e.entry.theDestinations := by
    rw [hl, invSum_append, invSum_cons]
    linarith
  have hop : (∃ e', e.operator r = .ok (y.theDestination, e')) ↔
      pick (r * invSum e.entry.theDestinations) 0 x rest = y.theDestination := by
    refine PolicyEntry.operator_ok_iff.trans ((operator_ok_iff (hl.trans hx) r _).trans ?_)
    rw [← hsum]
  rw [chosen, Set.mem_ofPred_eq, hop, pick_eq_iff hpos hdistinct _ _ hx, zero_add,
    div_lt_iff₀ htotal, le_div_iff₀ htotal]

theorem chosen_interval {e : PolicyEntry (policy (W := W))} (hg : sums.Good e.entry e.state)
    (hl : e.entry.theDestinations = l₁ ++ y :: l₂) :
    IsInterval (invSum l₁ / invSum e.entry.theDestinations)
      ((invSum l₁ + 1 / y.theWeight) / invSum e.entry.theDestinations)
      (chosen e y.theDestination) := by
  have hmem := mem_chosen_iff hg hl
  have hpos := hg.2
  rw [hl] at hpos
  obtain ⟨hbefore, hself, hbehind⟩ := invSum_parts hpos
  have htotal : invSum e.entry.theDestinations = invSum l₁ + 1 / y.theWeight + invSum l₂ := by
    rw [hl, invSum_append, invSum_cons, add_assoc]
  have htotal_pos : 0 < invSum e.entry.theDestinations := by linarith
  have hbounds : 0 ≤ invSum l₁ / invSum e.entry.theDestinations ∧
      (invSum l₁ + 1 / y.theWeight) / invSum e.entry.theDestinations ≤ 1 := by
    refine ⟨div_nonneg hbefore htotal_pos.le, (div_le_one htotal_pos).mpr ?_⟩
    linarith
  refine ⟨⟨fun a ha b hb c hc => ?_⟩, fun r hr => ?_, fun r hr => ?_⟩
  · obtain ⟨haunit, halo, -⟩ := (hmem a).mp ha
    obtain ⟨hbunit, -, hbhi⟩ := (hmem b).mp hb
    refine (hmem c).mpr ⟨⟨haunit.1.trans hc.1, hc.2.trans_lt hbunit.2⟩, ?_, ?_⟩
    · exact halo.imp_right fun h => h.trans_le hc.1
    · exact hbhi.imp_right fun h => hc.2.trans h
  · exact (hmem r).mpr ⟨⟨hbounds.1.trans hr.1.le, hr.2.trans_le hbounds.2⟩, .inr hr.1, .inr hr.2.le⟩
  · obtain ⟨hunit, hlo, hhi⟩ := (hmem r).mp hr
    constructor
    · rcases hlo with rfl | hlo
      · rw [invSum_nil, zero_div]
        exact hunit.1
      · exact hlo.le
    · rcases hhi with rfl | hhi
      · rw [invSum_nil, add_zero] at htotal
        rw [← htotal, div_self htotal_pos.ne']
        exact hunit.2.le
      · exact hhi

end Choices

variable [IsStrictOrderedRing W]

/-- After every run of calls the sum is the one of the listed destinations, and the numbers
in [0,1) are shared out among them: each has an interval as long as the share of the inverse
of its weight. -/
theorem frequencies (calls : List (PolicyEntry.Call (policy (W := W)))) :
    let e := Runs.final PolicyEntry.step .new calls
    State.theInvSum e.state = invSum e.entry.theDestinations ∧
    (e.entry.empty = false →
      (∀ x ∈ e.entry.theDestinations, ∃ lo hi, IsInterval lo hi (chosen e x.theDestination) ∧
        hi - lo = (1 / x.theWeight) / invSum e.entry.theDestinations) ∧
      (⋃ x ∈ e.entry.theDestinations, chosen e x.theDestination) = Set.Ico 0 1 ∧
      e.entry.theDestinations.Pairwise fun x y =>
        Disjoint (chosen e x.theDestination) (chosen e y.theDestination)) := by
  intro e
  have hg : sums.Good e.entry e.state :=
    Runs.invariant (I := fun e => sums.Good e.entry e.state)
      (fun _ c h => PolicyEntry.good_step (L := sums) h c) calls sums.good_init e
      (Runs.final_mem_states _ _ _)
  refine ⟨hg.1, fun he => ⟨fun x hx => ?_, ?_, ?_⟩⟩
  · obtain ⟨l₁, l₂, hl⟩ := List.append_of_mem hx
    refine ⟨_, _, chosen_interval hg hl, ?_⟩
    rw [← sub_div, add_sub_cancel_left]
  · apply Set.Subset.antisymm
    · exact Set.iUnion₂_subset fun x _ r hr => hr.1
    · intro r hr
      obtain ⟨hempty, -⟩ | ⟨-, d, e', hop, -⟩ := e.operator_cases r
      · exact absurd (hempty.symm.trans he) nofun
      have hlisted : (e.entry.find d).isSome := (PolicyEntry.good_operator (L := sums) hg hop).1
      obtain ⟨x, hx⟩ := Option.isSome_iff_exists.mp hlisted
      refine Set.mem_iUnion₂.mpr ⟨x, List.mem_of_find?_eq_some hx, hr, e', ?_⟩
      rw [Entry.find_dest hx]
      exact hop
  · refine (List.pairwise_map.mp e.entry.distinct).imp fun hne => Set.disjoint_left.mpr ?_
    rintro r ⟨-, e₁, hx⟩ ⟨-, e₂, hy⟩
    exact hne (congrArg Prod.fst (Except.ok.inj (hx.symm.trans hy)))

/-- A destination is added, weighed again and removed while another one stays. -/
private def reweighted : List (PolicyEntry.Call (policy (W := ℚ))) :=
  [.change (0 : ℚ) "dest1:666" 1 true, .change (0 : ℚ) "dest2:666" 2 true,
    .change (0 : ℚ) "dest3:666" 3 true, .changeWeight (0 : ℚ) "dest2:666" 4, .remove (0 : ℚ) "dest3:666"]

theorem frequencies_reweighted :
    let e := Runs.final PolicyEntry.step .new reweighted
    State.theInvSum e.state = invSum e.entry.theDestinations ∧
    (e.entry.empty = false →
      (∀ x ∈ e.entry.theDestinations, ∃ lo hi, IsInterval lo hi (chosen e x.theDestination) ∧
        hi - lo = (1 / x.theWeight) / invSum e.entry.theDestinations) ∧
      (⋃ x ∈ e.entry.theDestinations, chosen e x.theDestination) = Set.Ico 0 1 ∧
      e.entry.theDestinations.Pairwise fun x y =>
        Disjoint (chosen e x.theDestination) (chosen e y.theDestination)) :=
  frequencies reweighted

example : State.theInvSum (Runs.final PolicyEntry.step .new reweighted).state = (5 / 4 : ℚ) := by
  decide +kernel

end EntryRandom
end ServerlessEdge.Forwarding
