import ServerlessEdge.LambdaMuSim.Mcfp
import Mathlib.Tactic.Linarith

/-! What the solvers serve: no task more than it requests, no worker more than
its capacity, and all tasks unless the capacities of all workers are used up. -/
namespace ServerlessEdge.LambdaMuSim.Mcfp
open Library Allotments

variable {T W : ℕ}

/-- A solution in which every unit served has gone to a worker, and in which so
much is served as the workers can take. -/
structure Serves (aCosts : Costs T W) (aRequests : Requests T) (offered : Fin W → ℕ)
    (r : ℚ × Weights T W) : Prop where
  cost : r.1 = ∑ t, ∑ w, r.2 t w * aCosts t w
  weights : ∃ n, Allots (fun t => (aRequests t).toNat) offered n ∧ ∀ t w, r.2 t w = n t w

/-- The tasks are all served if and only if the workers offer enough. -/
theorem Serves.rows_iff {aCosts : Costs T W} {aRequests : Requests T} {offered : Fin W → ℕ}
    {r : ℚ × Weights T W} (h : Serves aCosts aRequests offered r) (hpos : ∀ t, 0 ≤ aRequests t) :
    (∀ t, ∑ w, r.2 t w = aRequests t) ↔ ∑ t, aRequests t ≤ ∑ w, (offered w : ℤ) := by
  obtain ⟨n, hn, hr⟩ := h.weights
  have hrow : ∀ t, ∑ w, r.2 t w = aRequests t ↔ ∑ w, n t w = (aRequests t).toNat := by
    intro t
    have hsum : ∑ w, r.2 t w = ((∑ w, n t w : ℕ) : ℚ) := by
      rw [Finset.sum_congr rfl fun w _ => hr t w, Nat.cast_sum]
    rw [hsum]
    constructor
    · intro heq
      have hint : ((∑ w, n t w : ℕ) : ℤ) = aRequests t := by exact_mod_cast heq
      omega
    · intro heq
      have hint : ((∑ w, n t w : ℕ) : ℤ) = aRequests t := by
        have := hpos t
        omega
      exact_mod_cast hint
  have hnat : (∑ t, aRequests t ≤ ∑ w, (offered w : ℤ)) ↔
      ∑ t, (aRequests t).toNat ≤ ∑ w, offered w := by
    have hcast : ∑ t, aRequests t = ((∑ t, (aRequests t).toNat : ℕ) : ℤ) := by
      rw [Nat.cast_sum]
      exact Finset.sum_congr rfl fun t _ => (Int.toNat_of_nonneg (hpos t)).symm
    rw [hcast, ← Nat.cast_sum]
    exact Nat.cast_le
  rw [hnat, ← hn.rows_iff]
  exact forall_congr' hrow

/-- The outcome of units given to workers in some order. -/
def outcome (aCosts : Costs T W) (l : List (Fin T × Fin W)) : ℚ × Weights T W :=
  ((l.map fun e => aCosts e.1 e.2).sum, fun t w => tally l t w)

theorem increment_apply (aWeights : Weights T W) (i : Fin T) (j : Fin W) (t : Fin T) (w : Fin W) :
    increment aWeights i j t w = aWeights t w + if i = t ∧ j = w then 1 else 0 := by
  unfold increment
  by_cases ht : t = i
  · subst ht
    by_cases hw : w = j
    · subst hw
      simp
    · simp [hw, Ne.symm hw]
  · simp [ht, Ne.symm ht]

theorem outcome_cost (aCosts : Costs T W) (l : List (Fin T × Fin W)) :
    (outcome aCosts l).1 = ∑ t, ∑ w, (outcome aCosts l).2 t w * aCosts t w := by
  induction l with
  | nil => simp [outcome, tally]
  | cons e l ih =>
    obtain ⟨i, j⟩ := e
    simp only [outcome] at ih
    have hunit : ∑ t, ∑ w, (if i = t ∧ j = w then (1 : ℚ) else 0) * aCosts t w = aCosts i j := by
      rw [Finset.sum_eq_single i, Finset.sum_eq_single j]
      · simp
      · intro w _ hw
        simp [Ne.symm hw]
      · simp
      · intro t _ ht
        exact Finset.sum_eq_zero fun w _ => by simp [Ne.symm ht]
      · simp
    simp only [outcome, List.map_cons, List.sum_cons, ih, tally_cons, Nat.cast_add, Nat.cast_ite,
      Nat.cast_one, Nat.cast_zero, add_mul, Finset.sum_add_distrib, hunit]
    exact add_comm _ _

theorem outcome_serves (aCosts : Costs T W) {aRequests : Requests T} {offered : Fin W → ℕ}
    {l : List (Fin T × Fin W)}
    (h : Allots (fun t => (aRequests t).toNat) offered (tally l)) :
    Serves aCosts aRequests offered (outcome aCosts l) :=
  ⟨outcome_cost aCosts l, tally l, h, fun _ _ => rfl⟩

theorem outcome_append_singleton (aCosts : Costs T W) (l : List (Fin T × Fin W)) (i : Fin T)
    (j : Fin W) : outcome aCosts (l ++ [(i, j)]) =
      ((outcome aCosts l).1 + aCosts i j, increment (outcome aCosts l).2 i j) := by
  refine Prod.ext ?_ ?_
  · simp [outcome]
  · funext t w
    simp only [outcome, increment_apply, tally, List.count_append, List.count_singleton, beq_iff_eq,
      Prod.mk.injEq]
    push_cast
    rfl

section Random

theorem sortAtRandom_perm {α : Type} (aRnd : ℕ → ℚ) (l : List α) :
    (sortAtRandom aRnd l).Perm l := by
  have hsort := (List.perm_insertionSort (fun x y : ℚ × α => x.1 ≤ y.1)
    (l.zipIdx.map fun e => (aRnd e.2, e.1))).map Prod.snd
  have hvalues : (l.zipIdx.map fun e => (aRnd e.2, e.1)).map Prod.snd = l := by
    rw [List.map_map]
    exact List.zipIdx_map_fst 0 l
  rw [hvalues] at hsort
  exact hsort

theorem matchRequests_eq (aCosts : Costs T W) (l : List (Fin T × Fin W)) (is : List (Fin T))
    (js : List (Fin W)) :
    matchRequests aCosts is js (outcome aCosts l) = outcome aCosts (l ++ is.zip js) := by
  induction is generalizing js l with
  | nil => simp [matchRequests]
  | cons i is ih =>
    cases js with
    | nil => simp [matchRequests]
    | cons j js =>
      have hnext := ih (l ++ [(i, j)]) js
      rw [outcome_append_singleton, List.append_assoc] at hnext
      exact hnext

theorem count_unitsOf {n : ℕ} (amount : Fin n → ℤ) (i : Fin n) :
    (unitsOf amount).count i = (amount i).toNat :=
  count_units _ i

theorem solveRandom_serves (aCosts : Costs T W) (aRequests : Requests T)
    (aCapacities : Capacities W) (aRnd : ℕ → ℚ) :
    Serves aCosts aRequests (fun w => (aCapacities w).toNat)
      (solveRandom aCosts aRequests aCapacities aRnd) := by
  have hstart : ((0, 0) : ℚ × Weights T W) = outcome aCosts [] := by
    refine Prod.ext rfl ?_
    funext t w
    simp [outcome, tally]
  unfold solveRandom
  rw [hstart, matchRequests_eq, List.nil_append]
  refine outcome_serves aCosts (allots_zip (fun t => ?_) fun w => ?_)
  · rw [(sortAtRandom_perm _ _).count_eq, count_unitsOf]
  · rw [(sortAtRandom_perm _ _).count_eq, count_unitsOf]

end Random

namespace Greedy

/-- The solver after some units have been given to workers, with the units of
some tasks still to come. -/
structure Follows (aCosts : Costs T W) (aCapacities : Capacities W) (l : List (Fin T × Fin W))
    (us : List (Fin T)) (g : Greedy T W) : Prop where
  outcome : (g.myCost, g.aWeights) = outcome aCosts l
  left : ∀ w, g.myCapacities w = aCapacities w - (l.map Prod.snd).count w
  count_le : ∀ w, (l.map Prod.snd).count w ≤ (aCapacities w).toNat
  costs : ∀ t ∈ us, ∀ w, g.myCosts t w = if g.myCapacities w ≤ 0 then ⊤ else (aCosts t w : WithTop ℚ)

theorem start_follows (aCosts : Costs T W) (aCapacities : Capacities W) (us : List (Fin T)) :
    Follows aCosts aCapacities [] us (start (fun t w => aCosts t w) aCapacities) where
  outcome := by
    refine Prod.ext rfl ?_
    funext t w
    simp [start, Mcfp.outcome, tally]
  left w := by simp [start]
  count_le w := Nat.zero_le _
  costs t _ w := rfl

variable {aCosts : Costs T W} {aCapacities : Capacities W} {l : List (Fin T × Fin W)}
  {us : List (Fin T)} {g : Greedy T W} {i : Fin T}

/-- Where no worker has capacity left, all are full. -/
theorem Follows.full (h : Follows aCosts aCapacities l us g)
    (hnone : ∀ w, g.myCapacities w ≤ 0) (w : Fin W) :
    (l.map Prod.snd).count w = (aCapacities w).toNat := by
  have hleft := h.left w
  have hle := h.count_le w
  have hzero := hnone w
  omega

theorem Follows.finished (h : Follows aCosts aCapacities l us g) :
    Follows aCosts aCapacities (l ++ []) [] g := by
  rw [List.append_nil]
  exact ⟨h.outcome, h.left, h.count_le, fun t ht => by cases ht⟩

/-- A unit goes to a worker with capacity left, at the cost of this worker. -/
theorem Follows.assign (h : Follows aCosts aCapacities l (i :: us) g)
    (hsorted : ∀ t ∈ us, i ≤ t) {j : Fin W} {cost : ℚ} (hcost : g.myCosts i j = cost) :
    Follows aCosts aCapacities (l ++ [(i, j)]) us (g.assign i j cost) := by
  have hrow := h.costs i List.mem_cons_self j
  rw [hcost] at hrow
  have hpos : 0 < g.myCapacities j := by
    by_contra hneg
    rw [if_pos (by omega)] at hrow
    exact WithTop.coe_ne_top hrow
  have hsame : cost = aCosts i j := by
    rw [if_neg (by omega)] at hrow
    exact WithTop.coe_injective hrow
  have hleft : ∀ w, (g.assign i j cost).myCapacities w =
      aCapacities w - ((l ++ [(i, j)]).map Prod.snd).count w := by
    intro w
    have hw := h.left w
    by_cases hwj : w = j
    · subst hwj
      simp only [Greedy.assign, Function.update_self, List.map_append, List.map_cons, List.map_nil,
        List.count_append, List.count_singleton_self]
      push_cast
      omega
    · have hcount : List.count w [j] = 0 := List.count_eq_zero.mpr (by simp [hwj])
      simp only [Greedy.assign, Function.update_of_ne hwj, List.map_append, List.map_cons,
        List.map_nil, List.count_append, hcount]
      exact hw
  refine ⟨?_, hleft, ?_, ?_⟩
  · rw [outcome_append_singleton, ← h.outcome, hsame]
    rfl
  · intro w
    have hw := h.left w
    have hle := h.count_le w
    by_cases hwj : w = j
    · subst hwj
      simp only [List.map_append, List.map_cons, List.map_nil, List.count_append,
        List.count_singleton_self]
      omega
    · have hcount : List.count w [j] = 0 := List.count_eq_zero.mpr (by simp [hwj])
      simp only [List.map_append, List.map_cons, List.map_nil, List.count_append, hcount]
      exact hle
  · intro t ht w
    have hold := h.costs t (List.mem_cons_of_mem _ ht) w
    by_cases hwj : w = j
    · subst hwj
      simp only [Greedy.assign, hsorted t ht, true_and, Function.update_self]
      rw [if_neg (by omega)] at hold
      by_cases hlast : g.myCapacities w - 1 = 0
      · rw [if_pos hlast, if_pos (by omega)]
      · rw [if_neg hlast, if_neg (by omega)]
        exact hold
    · simp only [Greedy.assign, hwj, false_and, if_false, Function.update_of_ne hwj]
      exact hold

/-- After some units, the worker of the next one is a cheapest one among those with
capacity left. -/
def Cheapest (aCosts : Costs T W) (aCapacities : Capacities W) (l : List (Fin T × Fin W))
    (e : Fin T × Fin W) : Prop :=
  ((l.map Prod.snd).count e.2 : ℤ) < aCapacities e.2 ∧
    ∀ w, ((l.map Prod.snd).count w : ℤ) < aCapacities w → aCosts e.1 e.2 ≤ aCosts e.1 w

theorem Follows.cheapest (h : Follows aCosts aCapacities l (i :: us) g) {j : Fin W} {cost : ℚ}
    (hmin : g.minElement i = some j) (hcost : g.myCosts i j = cost) :
    Cheapest aCosts aCapacities l (i, j) := by
  have hrow := h.costs i List.mem_cons_self
  have hj := hrow j
  rw [hcost] at hj
  split at hj
  · exact absurd hj WithTop.coe_ne_top
  · rename_i hleft
    have hcount := h.left j
    refine ⟨by simp only; omega, fun w hw => ?_⟩
    have hcount' := h.left w
    have hle := List.le_of_mem_argmin (List.mem_finRange w) hmin
    rw [hcost, hrow w, if_neg (by omega), hj] at hle
    exact WithTop.coe_le_coe.mp hle

/-- The units are given in order until there are none left or all workers are full. -/
theorem Follows.run (h : Follows aCosts aCapacities l us g) (hsorted : us.Pairwise (· ≤ ·)) :
    ∃ p, Follows aCosts aCapacities (l ++ p) [] (g.run us) ∧ p.map Prod.fst <+: us ∧
      (p.map Prod.fst = us ∨
        ∀ w, ((l ++ p).map Prod.snd).count w = (aCapacities w).toNat) ∧
      ∀ a e b, p = a ++ e :: b → Cheapest aCosts aCapacities (l ++ a) e := by
  have hempty : ∀ a (e : Fin T × Fin W) b, [] = a ++ e :: b → Cheapest aCosts aCapacities (l ++ a) e :=
    fun a e b hsplit => by simp at hsplit
  induction us generalizing l g with
  | nil => exact ⟨[], h.finished, List.prefix_refl _, .inl rfl, hempty⟩
  | cons i us ih =>
    obtain ⟨hfirst, hrest⟩ := List.pairwise_cons.mp hsorted
    have hstop : (∀ w, g.myCapacities w ≤ 0) → ∃ p, Follows aCosts aCapacities (l ++ p) [] g ∧
        p.map Prod.fst <+: i :: us ∧ (p.map Prod.fst = i :: us ∨
          ∀ w, ((l ++ p).map Prod.snd).count w = (aCapacities w).toNat) ∧
        ∀ a e b, p = a ++ e :: b → Cheapest aCosts aCapacities (l ++ a) e := by
      intro hnone
      refine ⟨[], h.finished, List.nil_prefix, .inr fun w => ?_, hempty⟩
      rw [List.append_nil]
      exact h.full hnone w
    simp only [Greedy.run]
    split
    · rename_i hend
      have hW : List.finRange W = [] := List.argmin_eq_none.mp hend
      exact hstop fun w => absurd (List.mem_finRange w) (by rw [hW]; exact List.not_mem_nil)
    · rename_i j hmin
      split
      · rename_i htop
        refine hstop fun w => ?_
        -- the least cost is infinite only if all costs are
        have hle := List.le_of_mem_argmin (List.mem_finRange w) hmin
        rw [htop, h.costs i List.mem_cons_self w] at hle
        by_contra hpos
        rw [if_neg hpos] at hle
        exact WithTop.coe_ne_top (top_le_iff.mp hle)
      · rename_i cost hcost
        have hnext := h.assign hfirst hcost
        obtain ⟨p, hp, hprefix, hfull, hcheapest⟩ := ih hnext hrest fun a e b hsplit => by
          simp at hsplit
        rw [List.append_assoc] at hp hfull
        refine ⟨(i, j) :: p, hp, List.cons_prefix_cons.mpr ⟨rfl, hprefix⟩, ?_, fun a e b hsplit => ?_⟩
        · rcases hfull with hall | hfull
          · exact .inl (congrArg (i :: ·) hall)
          · exact .inr hfull
        · cases a with
          | nil =>
            obtain ⟨rfl, -⟩ := List.cons.inj hsplit
            rw [List.append_nil]
            exact h.cheapest hmin hcost
          | cons x a =>
            obtain ⟨rfl, htail⟩ := List.cons.inj hsplit
            have hlater := hcheapest a e b htail
            rwa [List.append_assoc] at hlater

end Greedy

theorem unitsOf_sorted {n : ℕ} (amount : Fin n → ℤ) : (unitsOf amount).Pairwise (· ≤ ·) := by
  unfold unitsOf units
  rw [List.pairwise_flatMap]
  refine ⟨fun i _ => ?_, ?_⟩
  · exact List.pairwise_replicate.mpr (.inr (le_refl i))
  · refine (List.pairwise_lt_finRange n).imp fun hlt i hi j hj => ?_
    rw [List.eq_of_mem_replicate hi, List.eq_of_mem_replicate hj]
    exact le_of_lt hlt

/-- A solution whose units go one after the other, in the order of the tasks, to a
cheapest worker among those with capacity left. -/
def InTaskOrder (aCosts : Costs T W) (aRequests : Requests T) (aCapacities : Capacities W)
    (r : ℚ × Weights T W) : Prop :=
  ∃ l : List (Fin T × Fin W), r = outcome aCosts l ∧ l.map Prod.fst <+: unitsOf aRequests ∧
    ∀ a e b, l = a ++ e :: b → Greedy.Cheapest aCosts aCapacities a e

theorem solveGreedy_spec (aCosts : Costs T W) (aRequests : Requests T) (aCapacities : Capacities W) :
    Serves aCosts aRequests (fun w => (aCapacities w).toNat)
        (solveGreedy aCosts aRequests aCapacities) ∧
      InTaskOrder aCosts aRequests aCapacities (solveGreedy aCosts aRequests aCapacities) := by
  obtain ⟨p, hp, hprefix, hfull, hcheapest⟩ :=
    (Greedy.start_follows aCosts aCapacities (unitsOf aRequests)).run (unitsOf_sorted aRequests)
  simp only [List.nil_append] at hp hfull hcheapest
  have hsolution : solveGreedy aCosts aRequests aCapacities = outcome aCosts p := hp.outcome
  refine ⟨?_, p, hsolution, hprefix, hcheapest⟩
  rw [hsolution]
  refine outcome_serves aCosts (allots_of_full (fun t => ?_) hp.count_le ?_)
  · rw [← count_unitsOf]
    exact hprefix.sublist.count_le t
  · refine hfull.imp_left fun hall t => ?_
    rw [hall, count_unitsOf]

theorem solveGreedy_serves (aCosts : Costs T W) (aRequests : Requests T)
    (aCapacities : Capacities W) :
    Serves aCosts aRequests (fun w => (aCapacities w).toNat)
      (solveGreedy aCosts aRequests aCapacities) :=
  (solveGreedy_spec aCosts aRequests aCapacities).1

end ServerlessEdge.LambdaMuSim.Mcfp
