import Mathlib.Order.Lattice.Nat
import ServerlessEdge.Library.Loops
import ServerlessEdge.LambdaMuSim.Averages

/-! When the loop of the dynamic simulation ends: the epochs must take time, and no app
may go on from period to period without any. -/
namespace ServerlessEdge.LambdaMuSim
open Library

namespace App

/-- Every period comes again. -/
theorem exists_cyclic (a : App) {t : ℚ} (ht : t ∈ a.thePeriods) : ∃ k, a.cyclic (k + 1) = t := by
  obtain ⟨j, rfl⟩ := List.get_of_mem ht
  have hj := j.isLt
  have hcurrent := a.theCurrent.isLt
  refine ⟨a.thePeriods.length - a.theCurrent - 1 + j, ?_⟩
  have hpos : ((a.theCurrent : ℕ) + (a.thePeriods.length - a.theCurrent - 1 + j + 1)) %
      a.thePeriods.length = j := by
    have hsum : (a.theCurrent : ℕ) + (a.thePeriods.length - a.theCurrent - 1 + j + 1) =
        j + a.thePeriods.length := by omega
    rw [hsum, Nat.add_mod_right, Nat.mod_eq_of_lt hj]
  exact congrArg a.thePeriods.get (Fin.ext hpos)

/-- How many periods without time follow the current one. -/
noncomputable def waits (a : App) : ℕ := sInf {k | a.cyclic (k + 1) ≠ 0}

theorem waits_advance {a : App} (hsome : ∃ t ∈ a.thePeriods, t ≠ 0) (hzero : a.advance.period = 0) :
    a.advance.waits < a.waits := by
  obtain ⟨t, ht, hne⟩ := hsome
  obtain ⟨k, rfl⟩ := a.exists_cyclic ht
  have hmem : a.waits ∈ {k | a.cyclic (k + 1) ≠ 0} := Nat.sInf_mem ⟨k, hne⟩
  rw [← cyclic_zero, cyclic_advance] at hzero
  cases hwaits : a.waits with
  | zero =>
    rw [hwaits] at hmem
    exact absurd hzero hmem
  | succ j =>
    rw [hwaits] at hmem
    have hle : a.advance.waits ≤ j := by
      apply Nat.sInf_le
      change a.advance.cyclic (j + 1) ≠ 0
      rw [cyclic_advance]
      exact hmem
    omega

end App

section Descriptors

variable {n : ℕ} {d : Desc n} {l : List (Desc n)}

theorem insertDesc_nonneg (hd : 0 ≤ d.theRemaining) (hl : ∀ e ∈ l, 0 ≤ e.theRemaining) :
    ∀ e ∈ insertDesc d l, 0 ≤ e.theRemaining := by
  refine forall_timed.mp ?_
  rw [map_insertDesc]
  exact Differences.insert_nonneg hd (forall_timed.mpr hl)

theorem insertDesc_tail_nonneg (d : Desc n) (hl : ∀ e ∈ l, 0 ≤ e.theRemaining) :
    ∀ e ∈ (insertDesc d l).tail, 0 ≤ e.theRemaining := by
  refine forall_timed.mp ?_
  rw [List.map_tail, map_insertDesc]
  exact Differences.insert_tail_nonneg d.timed (forall_timed.mpr hl)

theorem insertDesc_mem {H : AddSubgroup ℚ} (hd : d.theRemaining ∈ H)
    (hl : ∀ e ∈ l, e.theRemaining ∈ H) : ∀ e ∈ insertDesc d l, e.theRemaining ∈ H := by
  refine forall_timed.mp ?_
  rw [map_insertDesc]
  exact Differences.insert_mem hd (forall_timed.mpr hl)

/-- A descriptor that is late already comes first. -/
theorem insertDesc_late (hd : d.theRemaining < 0) (hl : ∀ e ∈ l, 0 ≤ e.theRemaining) :
    ∃ l', insertDesc d l = d :: l' := by
  cases l with
  | nil => exact ⟨[], rfl⟩
  | cons e l =>
    rw [insertDesc, if_pos (hd.le.trans (hl e List.mem_cons_self))]
    exact ⟨_, rfl⟩

theorem subtractPrevious_mem {H : AddSubgroup ℚ} {prev : ℚ} (hprev : prev ∈ H)
    (hl : ∀ e ∈ l, e.theRemaining ∈ H) : ∀ e ∈ subtractPrevious prev l, e.theRemaining ∈ H := by
  induction l generalizing prev with
  | nil => exact fun e he => nomatch he
  | cons e l ih =>
    obtain ⟨hhead, htail⟩ := List.forall_mem_cons.mp hl
    have hnow := H.sub_mem hhead hprev
    exact List.forall_mem_cons.mpr ⟨hnow, ih hnow htail⟩

/-- The apps at the front that have no time left. -/
def dueNow (l : List (Desc n)) : List (Fin n) :=
  (l.takeWhile fun e => e.theRemaining = 0).map Desc.theAppId

theorem dueNow_cons (d : Desc n) (l : List (Desc n)) :
    dueNow (d :: l) = if d.theRemaining = 0 then d.theAppId :: dueNow l else [] := by
  rw [dueNow, List.takeWhile_cons]
  by_cases hzero : d.theRemaining = 0
  · simp [hzero, dueNow]
  · simp [hzero]

theorem dueNow_subset (l : List (Desc n)) : dueNow l ⊆ l.map Desc.theAppId :=
  List.map_subset _ (List.takeWhile_subset _)

/-- An app is put back behind all those that have no time left, unless it has none either. -/
theorem dueNow_insertDesc (hd : 0 ≤ d.theRemaining) (hl : ∀ e ∈ l, 0 ≤ e.theRemaining) :
    dueNow (insertDesc d l) = if d.theRemaining = 0 then d.theAppId :: dueNow l else dueNow l := by
  by_cases hzero : d.theRemaining = 0
  · rw [if_pos hzero]
    cases l with
    | nil => rw [insertDesc, dueNow_cons, if_pos hzero]
    | cons e l =>
      have hle : d.theRemaining ≤ e.theRemaining := hzero.le.trans (hl e List.mem_cons_self)
      rw [insertDesc, if_pos hle, dueNow_cons, if_pos hzero, hzero, sub_zero]
  · rw [if_neg hzero]
    induction l generalizing d with
    | nil => rw [insertDesc, dueNow_cons, if_neg hzero]; rfl
    | cons e l ih =>
      obtain ⟨hhead, htail⟩ := List.forall_mem_cons.mp hl
      rw [insertDesc, dueNow_cons e]
      by_cases he : e.theRemaining = 0
      · have hpos : 0 < d.theRemaining := lt_of_le_of_ne hd (Ne.symm hzero)
        rw [if_pos he, if_neg (not_le.mpr (he.trans_lt hpos)), dueNow_cons, if_pos he, he, sub_zero,
          ih hd htail hzero]
      · rw [if_neg he]
        split
        · rw [dueNow_cons, if_neg hzero]
        · rw [dueNow_cons, if_neg he]

theorem mem_dueNow_subtractPrevious
    (hsorted : l.Pairwise fun e e' => e.theRemaining ≤ e'.theRemaining)
    (hl : ∀ e ∈ l, 0 ≤ e.theRemaining) (hd : d ∈ l) (hzero : d.theRemaining = 0) :
    d.theAppId ∈ dueNow (subtractPrevious 0 l) := by
  induction l with
  | nil => cases hd
  | cons e l ih =>
    obtain ⟨hfirst, hrest⟩ := List.pairwise_cons.mp hsorted
    obtain ⟨hhead, htail⟩ := List.forall_mem_cons.mp hl
    have he : e.theRemaining = 0 := by
      rcases List.mem_cons.mp hd with rfl | hd
      · exact hzero
      · exact le_antisymm ((hfirst d hd).trans hzero.le) hhead
    simp only [subtractPrevious, dueNow_cons, he, sub_zero, if_true]
    rcases List.mem_cons.mp hd with rfl | hd
    · exact List.mem_cons_self
    · exact List.mem_cons_of_mem _ (ih hrest htail hd)

end Descriptors

namespace AppPool

variable {n : ℕ} {p : AppPool n}

theorem forall_remaining {P : ℚ → Prop} : (∀ e ∈ p.theDesc, P e.theRemaining) ↔
    P p.next ∧ ∀ e ∈ p.theDesc.tail, P e.theRemaining := by
  calc (∀ e ∈ p.theDesc, P e.theRemaining)
      ↔ ∀ e ∈ p.front :: p.theDesc.tail, P e.theRemaining := by rw [p.front_cons_tail]
    _ ↔ P p.next ∧ ∀ e ∈ p.theDesc.tail, P e.theRemaining := List.forall_mem_cons

theorem next_of_cons {d : Desc n} {l : List (Desc n)} (h : p.theDesc = d :: l) :
    p.next = d.theRemaining := by
  have hfront : p.front = d := (List.cons.inj (p.front_cons_tail.trans h)).1
  rw [next, hfront]

theorem elapse_zero (p : AppPool n) : (p.elapse 0).theDesc = p.theDesc := by
  simp only [elapse, sub_zero]
  exact p.front_cons_tail

theorem advance_thePeriods (p : AppPool n) (i : Fin n) :
    (p.advance.2.thePool i).thePeriods = (p.thePool i).thePeriods := by
  simp only [advance]
  by_cases hi : i = p.front.theAppId
  · subst hi
    rw [Function.update_self]
    rfl
  · rw [Function.update_of_ne hi]

theorem dueNow_of_next (h : p.next = 0) :
    dueNow p.theDesc = p.front.theAppId :: dueNow p.theDesc.tail := by
  calc dueNow p.theDesc = dueNow (p.front :: p.theDesc.tail) := by rw [p.front_cons_tail]
    _ = p.front.theAppId :: dueNow p.theDesc.tail := by rw [dueNow_cons]; exact if_pos h

theorem next_of_dueNow {i : Fin n} (h : i ∈ dueNow p.theDesc) : p.next = 0 := by
  rw [← p.front_cons_tail, dueNow_cons] at h
  split at h
  · assumption
  · cases h

/-- A transition that takes no time, after which no app is late. -/
theorem dueNow_advance (hnow : p.next = 0) (hlater : ∀ e ∈ p.theDesc.tail, 0 ≤ e.theRemaining)
    (hnext : 0 ≤ p.advance.2.next) : dueNow p.advance.2.theDesc =
      if p.selected.period = 0 then p.front.theAppId :: dueNow p.theDesc.tail
      else dueNow p.theDesc.tail := by
  have hnew : p.myNewDesc.theRemaining = p.selected.period := by
    change p.next + p.selected.period = p.selected.period
    rw [hnow, zero_add]
  have hpos : 0 ≤ p.myNewDesc.theRemaining := by
    by_contra hlate
    obtain ⟨l, hl⟩ := insertDesc_late (not_le.mp hlate) hlater
    rw [next_of_cons (p := p.advance.2) hl] at hnext
    exact hlate hnext
  rw [← hnew]
  exact dueNow_insertDesc hpos hlater

/-- The transitions that may come before the next one that takes time. -/
noncomputable def pending (p : AppPool n) : ℕ :=
  ((dueNow p.theDesc).map fun i => (p.thePool i).waits + 1).sum

theorem pending_elapse_zero (p : AppPool n) : (p.elapse 0).pending = p.pending := by
  rw [pending, elapse_zero]
  rfl

theorem pending_advance (hnow : p.next = 0) (hlater : ∀ e ∈ p.theDesc.tail, 0 ≤ e.theRemaining)
    (hnext : 0 ≤ p.advance.2.next)
    (hsome : ∃ t ∈ (p.thePool p.front.theAppId).thePeriods, t ≠ 0) :
    p.advance.2.pending < p.pending := by
  have hothers : ((dueNow p.theDesc.tail).map fun i => (p.advance.2.thePool i).waits + 1) =
      (dueNow p.theDesc.tail).map fun i => (p.thePool i).waits + 1 := by
    refine List.map_congr_left fun i hi => ?_
    have hnodup := p.front_ids.nodup_iff.mpr (List.nodup_finRange n)
    have hne : i ≠ p.front.theAppId := by
      rintro rfl
      exact (List.nodup_cons.mp hnodup).1 (dueNow_subset _ hi)
    simp only [advance, Function.update_of_ne hne]
  have hself : p.advance.2.thePool p.front.theAppId = p.selected := Function.update_self ..
  rw [pending, pending, dueNow_advance hnow hlater hnext, dueNow_of_next hnow]
  by_cases hzero : p.selected.period = 0
  · have hless : p.selected.waits < (p.thePool p.front.theAppId).waits :=
      App.waits_advance hsome hzero
    rw [if_pos hzero, List.map_cons, List.map_cons, List.sum_cons, List.sum_cons, hothers, hself]
    omega
  · rw [if_neg hzero, List.map_cons, List.sum_cons, hothers]
    omega

section Create

variable {aPeriods : List (List ℚ)} {draws : Draws aPeriods n} {h : n ≠ 0}

/-- If the first app is not late at the start, then none is. -/
theorem create_nonneg (hnext : 0 ≤ (create draws h).next) :
    (∀ e ∈ draws.sorted, 0 ≤ e.theRemaining) ∧
      ∀ e ∈ (create draws h).theDesc, 0 ≤ e.theRemaining := by
  have hsorted := draws.sorted_pairwise
  have hnonneg : ∀ e ∈ draws.sorted, 0 ≤ e.theRemaining := by
    cases hl : draws.sorted with
    | nil => exact fun e he => nomatch he
    | cons d l =>
      have hdesc : (create draws h).theDesc = subtractPrevious 0 (d :: l) :=
        congrArg (subtractPrevious 0) hl
      rw [next_of_cons hdesc, sub_zero] at hnext
      rw [hl] at hsorted
      exact List.forall_mem_cons.mpr
        ⟨hnext, fun e he => hnext.trans ((List.pairwise_cons.mp hsorted).1 e he)⟩
  exact ⟨hnonneg, subtractPrevious_nonneg le_rfl le_rfl hsorted hnonneg⟩

/-- An app without any period that takes time is due from the start. -/
theorem create_dueNow (hnext : 0 ≤ (create draws h).next) {i : Fin n}
    (hi : ∀ t ∈ (draws.app i).thePeriods, t = 0) : i ∈ dueNow (create draws h).theDesc := by
  obtain ⟨hnonneg, -⟩ := create_nonneg hnext
  have hmem : (⟨i, (draws.app i).period⟩ : Desc n) ∈ draws.sorted :=
    draws.sorted_perm.mem_iff.mpr (List.mem_map.mpr ⟨i, List.mem_finRange i, rfl⟩)
  exact mem_dueNow_subtractPrevious draws.sorted_pairwise hnonneg hmem (hi _ (List.get_mem _ _))

theorem create_mem {H : AddSubgroup ℚ} (hH : ∀ i, ∀ t ∈ (draws.app i).thePeriods, t ∈ H) :
    ∀ e ∈ (create draws h).theDesc, e.theRemaining ∈ H := by
  refine subtractPrevious_mem H.zero_mem fun e he => ?_
  rw [draws.sorted_period e he]
  exact hH _ _ (List.get_mem _ _)

end Create

end AppPool

namespace Dynamic

open Scenario

variable {B E A : ℕ} {env : Env} {args : DynamicArgs} {d d' : Dynamic B E A}

theorem after_eq_loop (env : Env) (args : DynamicArgs) (n : ℕ) (d : Dynamic B E A) :
    after env args n d =
      Loops.loop (fun d => d.myClock < args.aDuration) (step env args) n d := by
  induction n generalizing d with
  | zero => rfl
  | succ n ih =>
    have hrest : after env args n =
        Loops.loop (fun d : Dynamic B E A => d.myClock < args.aDuration) (step env args) n := by
      funext d
      exact ih d
    rw [after, Loops.loop, hrest]

/-- What an iteration does to the times: the rest of the epoch passes, or the time to the
next transition. -/
theorem step_time (h : d.step env args = .ok d') :
    (d.myNextEpoch ≤ d.myAppPool.next ∧ d'.myAppPool = d.myAppPool.elapse d.myNextEpoch ∧
      d'.myClock = d.myClock + d.myNextEpoch ∧ d'.myNextEpoch = args.aEpoch) ∨
    (d.myAppPool.next < d.myNextEpoch ∧ d'.myAppPool = d.myAppPool.advance.2 ∧
      d'.myClock = d.myClock + d.myAppPool.next ∧
      d'.myNextEpoch = d.myNextEpoch - d.myAppPool.next) := by
  rcases step_cases h with ⟨hopt, data, data', s, s', -, -, rfl⟩ | ⟨-, hchange, rfl⟩ |
    ⟨hchange, m, hm, rfl⟩
  · exact .inl ⟨hopt.1, rfl, rfl, rfl⟩
  · exact .inl ⟨not_not.mp hchange, rfl, rfl, rfl⟩
  · obtain ⟨-, hclock, hepoch, hpool⟩ := migrate_frame hm
    refine .inr ⟨not_le.mp hchange, hpool, ?_, hepoch⟩
    exact congrArg (· + d.myAppPool.next) hclock

/-- After some iterations the clock has reached the duration. -/
def Terminates (env : Env) (args : DynamicArgs) (d : Dynamic B E A) : Prop :=
  ∃ n d', after env args n d = .ok d' ∧ args.aDuration ≤ d'.myClock

/-- No transition is late when an iteration begins, as the loop asserts. -/
def Asserted (env : Env) (args : DynamicArgs) (d : Dynamic B E A) : Prop :=
  ∀ n, Through env args (fun d' => 0 ≤ d'.myAppPool.next) n d

theorem Asserted.now (h : Asserted env args d) (hclock : d.myClock < args.aDuration) :
    0 ≤ d.myAppPool.next :=
  ((h 1) hclock).1

theorem Asserted.step (h : Asserted env args d) (hclock : d.myClock < args.aDuration)
    (hstep : d.step env args = .ok d') : Asserted env args d' := by
  intro n
  exact ((h (n + 1)) hclock).2 d' hstep

theorem not_terminates {I : Dynamic B E A → Prop}
    (hI : ∀ d d', I d → d.myClock < args.aDuration → d.step env args = .ok d' → I d')
    (hend : ∀ d, I d → d.myClock < args.aDuration) (hd : I d) : ¬ Terminates env args d := by
  rintro ⟨n, d', hok, hreached⟩
  rw [after_eq_loop] at hok
  exact not_lt.mpr hreached (hend d' (Loops.loop_invariant hI hd hok))

/-- Without time in the epochs the clock never goes on from zero. -/
theorem not_terminates_of_epoch (hepoch : args.aEpoch ≤ 0) (hduration : 0 < args.aDuration)
    (hclock : d.myClock ≤ 0) (hnext : d.myClock + d.myNextEpoch ≤ 0) :
    ¬ Terminates env args d := by
  refine not_terminates (I := fun d => d.myClock ≤ 0 ∧ d.myClock + d.myNextEpoch ≤ 0) ?_
    (fun d h => h.1.trans_lt hduration) ⟨hclock, hnext⟩
  rintro d d' ⟨hclock, hnext⟩ - hstep
  rcases step_time hstep with ⟨-, -, hclock', hnext'⟩ | ⟨hlt, -, hclock', hnext'⟩
  · rw [hclock', hnext']
    constructor <;> linarith
  · rw [hclock', hnext']
    constructor <;> linarith

/-- An app that is due has no period that takes time. -/
structure Stuck (i : Fin A) (d : Dynamic B E A) : Prop where
  clock : d.myClock ≤ 0
  epoch : 0 ≤ d.myNextEpoch
  later : ∀ e ∈ d.myAppPool.theDesc.tail, 0 ≤ e.theRemaining
  due : i ∈ dueNow d.myAppPool.theDesc
  periods : ∀ t ∈ (d.myAppPool.thePool i).thePeriods, t = 0

theorem Stuck.step {i : Fin A} (h : Stuck i d) (hepoch : 0 ≤ args.aEpoch)
    (hstep : d.step env args = .ok d') (hnext : d'.myClock ≤ 0 → 0 ≤ d'.myAppPool.next) :
    Stuck i d' := by
  have hnow := AppPool.next_of_dueNow h.due
  rcases step_time hstep with ⟨hle, hpool, hclock, hnext'⟩ | ⟨-, hpool, hclock, hnext'⟩
  · have hzero : d.myNextEpoch = 0 := le_antisymm (hle.trans hnow.le) h.epoch
    rw [hzero] at hpool hclock
    have hdesc : d'.myAppPool.theDesc = d.myAppPool.theDesc := by
      rw [hpool, AppPool.elapse_zero]
    refine ⟨?_, ?_, ?_, ?_, ?_⟩
    · rw [hclock, add_zero]
      exact h.clock
    · rw [hnext']
      exact hepoch
    · rw [hdesc]
      exact h.later
    · rw [hdesc]
      exact h.due
    · rw [hpool]
      exact h.periods
  · rw [hnow, add_zero] at hclock
    have hlate := hnext (hclock.trans_le h.clock)
    rw [hpool] at hlate
    refine ⟨hclock.trans_le h.clock, ?_, ?_, ?_, ?_⟩
    · rw [hnext', hnow, sub_zero]
      exact h.epoch
    · rw [hpool]
      exact insertDesc_tail_nonneg _ h.later
    · rw [hpool, AppPool.dueNow_advance hnow h.later hlate]
      have hdue := h.due
      rw [AppPool.dueNow_of_next hnow] at hdue
      rcases List.mem_cons.mp hdue with rfl | hdue
      · -- it enters another period without time
        have hself : d.myAppPool.selected.period = 0 := h.periods _ (List.get_mem _ _)
        rw [if_pos hself]
        exact List.mem_cons_self
      · split
        · exact List.mem_cons_of_mem _ hdue
        · exact hdue
    · rw [hpool, AppPool.advance_thePeriods]
      exact h.periods

theorem not_terminates_of_stuck {i : Fin A} (h : Stuck i d) (hasserted : Asserted env args d)
    (hepoch : 0 ≤ args.aEpoch) (hduration : 0 < args.aDuration) : ¬ Terminates env args d := by
  refine not_terminates (I := fun d => Stuck i d ∧ Asserted env args d) ?_
    (fun d h => h.1.clock.trans_lt hduration) ⟨h, hasserted⟩
  rintro d d' ⟨h, hasserted⟩ hclock hstep
  have hasserted' := hasserted.step hclock hstep
  exact ⟨h.step hepoch hstep fun hclock' => hasserted'.now (hclock'.trans_lt hduration),
    hasserted'⟩

/-- All times are whole units, no app but the first one is late, and each app has a period
that takes time. -/
structure Advancing (u : ℚ) (d : Dynamic B E A) : Prop where
  epoch : 0 ≤ d.myNextEpoch ∧ d.myNextEpoch ∈ AddSubgroup.zmultiples u
  later : ∀ e ∈ d.myAppPool.theDesc.tail, 0 ≤ e.theRemaining
  units : ∀ e ∈ d.myAppPool.theDesc, e.theRemaining ∈ AddSubgroup.zmultiples u
  periods : ∀ i, ∀ t ∈ (d.myAppPool.thePool i).thePeriods, t ∈ AddSubgroup.zmultiples u
  takesTime : ∀ i, ∃ t ∈ (d.myAppPool.thePool i).thePeriods, t ≠ 0

namespace Advancing

variable {u : ℚ}

theorem next_mem (h : Advancing u d) : d.myAppPool.next ∈ AddSubgroup.zmultiples u :=
  (AppPool.forall_remaining.mp h.units).1

theorem step (h : Advancing u d)
    (hepoch : 0 ≤ args.aEpoch ∧ args.aEpoch ∈ AddSubgroup.zmultiples u)
    (hstep : d.step env args = .ok d') : Advancing u d' := by
  have htail := (AppPool.forall_remaining.mp h.units).2
  rcases step_time hstep with ⟨-, hpool, -, hnext⟩ | ⟨hlt, hpool, -, hnext⟩
  · refine ⟨?_, ?_, ?_, ?_, ?_⟩
    · rw [hnext]
      exact hepoch
    · rw [hpool]
      exact h.later
    · rw [hpool]
      exact AppPool.forall_remaining.mpr ⟨sub_mem h.next_mem h.epoch.2, htail⟩
    · rw [hpool]
      exact h.periods
    · rw [hpool]
      exact h.takesTime
  · have hperiod : d.myAppPool.selected.period ∈ AddSubgroup.zmultiples u :=
      h.periods _ _ (List.get_mem _ _)
    refine ⟨?_, ?_, ?_, fun i => ?_, fun i => ?_⟩
    · rw [hnext]
      exact ⟨(sub_pos.mpr hlt).le, sub_mem h.epoch.2 h.next_mem⟩
    · rw [hpool]
      exact insertDesc_tail_nonneg _ h.later
    · rw [hpool]
      exact insertDesc_mem (add_mem h.next_mem hperiod) htail
    · rw [hpool, AppPool.advance_thePeriods]
      exact h.periods i
    · rw [hpool, AppPool.advance_thePeriods]
      exact h.takesTime i

end Advancing

/-- The iterations that may come before the next one that takes time. -/
noncomputable def idle (d : Dynamic B E A) : ℕ :=
  d.myAppPool.pending + if d.myNextEpoch = 0 then 1 else 0

/-- An iteration takes at least one unit, or it leaves fewer that take no time. -/
theorem Advancing.progress {u : ℚ} (h : Advancing u d) (hu : 0 < u) (hepoch : 0 < args.aEpoch)
    (hstep : d.step env args = .ok d') (hnow : 0 ≤ d.myAppPool.next)
    (hnext : d'.myClock = d.myClock → 0 ≤ d'.myAppPool.next) :
    d.myClock + u ≤ d'.myClock ∨ d'.myClock = d.myClock ∧ d'.idle < d.idle := by
  rcases step_time hstep with ⟨-, hpool, hclock, hnext'⟩ | ⟨hlt, hpool, hclock, hnext'⟩
  · rcases h.epoch.1.eq_or_lt with hzero | hpos
    · right
      rw [← hzero] at hpool hclock
      refine ⟨hclock.trans (add_zero _), ?_⟩
      rw [idle, idle, hpool, hnext', AppPool.pending_elapse_zero, if_neg hepoch.ne',
        if_pos hzero.symm]
      exact Nat.lt_succ_self _
    · left
      rw [hclock]
      exact add_le_add_right (Loops.le_of_mem_zmultiples hu h.epoch.2 hpos) _
  · rcases hnow.eq_or_lt with hzero | hpos
    · right
      rw [← hzero] at hclock
      have hstill := hclock.trans (add_zero _)
      have hlate := hnext hstill
      rw [hpool] at hlate
      refine ⟨hstill, ?_⟩
      rw [idle, idle, hpool, hnext', ← hzero, sub_zero]
      exact Nat.add_lt_add_right
        (AppPool.pending_advance hzero.symm h.later hlate (h.takesTime _)) _
    · left
      rw [hclock]
      exact add_le_add_right (Loops.le_of_mem_zmultiples hu h.next_mem hpos) _

theorem Advancing.terminates {u : ℚ} (h : Advancing u d) (henv : env.AssignsAll)
    (halpha : args.aAlpha ≤ 1) (hsound : Sound args d.view) (hasserted : Asserted env args d)
    (hu : 0 < u) (hepoch : 0 < args.aEpoch ∧ args.aEpoch ∈ AddSubgroup.zmultiples u) :
    Terminates env args d := by
  have hprogress : ∀ d : Dynamic B E A,
      Sound args d.view ∧ Asserted env args d ∧ Advancing u d → d.myClock < args.aDuration →
      ∃ d', d.step env args = .ok d' ∧
        (Sound args d'.view ∧ Asserted env args d' ∧ Advancing u d') ∧
        (d.myClock + u ≤ d'.myClock ∨ d'.myClock = d.myClock ∧ d'.idle < d.idle) := by
    rintro d ⟨hsound, hasserted, h⟩ hclock
    obtain ⟨d', hok, hnext⟩ := step_ok henv halpha hsound
    have hasserted' := hasserted.step hclock hok
    refine ⟨d', hok, ⟨hsound.next henv halpha hnext, hasserted',
      h.step ⟨hepoch.1.le, hepoch.2⟩ hok⟩, ?_⟩
    refine h.progress hu hepoch.1 hok (hasserted.now hclock) fun hstill => ?_
    exact hasserted'.now (hstill.trans_lt hclock)
  obtain ⟨n, d', hok, hreached⟩ :=
    Loops.exists_loop_of_clock idle hu hprogress ⟨hsound, hasserted, h⟩
  exact ⟨n, d', (after_eq_loop env args n d).trans hok, hreached⟩

/-- Nothing takes a negative time. -/
structure InTime (d : Dynamic B E A) : Prop where
  remaining : ∀ e ∈ d.myAppPool.theDesc, 0 ≤ e.theRemaining
  periods : ∀ i, ∀ t ∈ (d.myAppPool.thePool i).thePeriods, 0 ≤ t

theorem InTime.step (h : InTime d) (hstep : d.step env args = .ok d') : InTime d' := by
  obtain ⟨hnow, hlater⟩ := AppPool.forall_remaining.mp h.remaining
  rcases step_time hstep with ⟨hle, hpool, -, -⟩ | ⟨-, hpool, -, -⟩
  · refine ⟨?_, ?_⟩
    · rw [hpool]
      exact AppPool.forall_remaining.mpr ⟨sub_nonneg.mpr hle, hlater⟩
    · rw [hpool]
      exact h.periods
  · have hperiod : 0 ≤ d.myAppPool.selected.period := h.periods _ _ (List.get_mem _ _)
    refine ⟨?_, fun i => ?_⟩
    · rw [hpool]
      exact insertDesc_nonneg (add_nonneg hnow hperiod) hlater
    · rw [hpool, AppPool.advance_thePeriods]
      exact h.periods i

theorem InTime.asserted (h : InTime d) : Asserted env args d :=
  through_of_invariant (fun _ _ h hstep => h.step hstep)
    (fun _ h => (AppPool.forall_remaining.mp h.remaining).1) h

section Start

variable {A' : ℕ} {s : Scenario B E A'} {aPeriods : List (List ℚ)} {apps : Population B A}
  {draws : Draws aPeriods A}

theorem start_eq_initial (hd : start env s args aPeriods apps draws = .ok d) :
    0 ≤ args.aDuration ∧ ∃ h, d = initial env s args apps draws h := by
  obtain ⟨hargs, hduration, hwarmUp, s', pool, -, -⟩ := start_spec hd
  have happs : A ≠ 0 := pool.front.theAppId.pos.ne'
  have hinitial : start env s args aPeriods apps draws =
      .ok (initial env s args apps draws happs) :=
    start_initial s apps draws (checkArgs_ok_iff.mp hargs) hduration hwarmUp happs
  exact ⟨hduration, happs, Except.ok.inj (hd.symm.trans hinitial)⟩

theorem initial_inTime {h : A ≠ 0} (hperiods : ∀ i, ∀ t ∈ (draws.app i).thePeriods, 0 ≤ t) :
    InTime (initial env s args apps draws h) where
  remaining := by
    refine subtractPrevious_nonneg le_rfl le_rfl draws.sorted_pairwise fun e he => ?_
    rw [draws.sorted_period e he]
    exact hperiods _ _ (List.get_mem _ _)
  periods := hperiods

/-- An app without any period that takes time is stuck at the start. -/
theorem initial_stuck {h : A ≠ 0} (hnext : 0 ≤ (AppPool.create draws h).next) {i : Fin A}
    (hi : ∀ t ∈ (draws.app i).thePeriods, t = 0) :
    Stuck i (initial env s args apps draws h) where
  clock := le_refl 0
  epoch := le_refl 0
  later := (AppPool.forall_remaining.mp (AppPool.create_nonneg hnext).2).2
  due := AppPool.create_dueNow hnext hi
  periods := hi

/-- If every app has a period that takes time, then there is a unit of time. -/
theorem initial_advancing {h : A ≠ 0} (hnext : 0 ≤ (AppPool.create draws h).next)
    (hsome : ∀ i, ∃ t ∈ (draws.app i).thePeriods, t ≠ 0) :
    ∃ u, 0 < u ∧ args.aEpoch ∈ AddSubgroup.zmultiples u ∧
      Advancing u (initial env s args apps draws h) := by
  obtain ⟨u, hu, hall⟩ := Loops.exists_unit (args.aEpoch :: aPeriods.flatten)
  obtain ⟨hepoch, hflat⟩ := List.forall_mem_cons.mp hall
  have hperiods : ∀ i, ∀ t ∈ (draws.app i).thePeriods, t ∈ AddSubgroup.zmultiples u := by
    intro i t ht
    exact hflat t (List.mem_flatten.mpr ⟨_, List.get_mem _ _, ht⟩)
  exact ⟨u, hu, hepoch, ⟨le_refl 0, zero_mem _⟩,
    (AppPool.forall_remaining.mp (AppPool.create_nonneg hnext).2).2,
    AppPool.create_mem (h := h) hperiods, hperiods, hsome⟩

end Start

end Dynamic

end ServerlessEdge.LambdaMuSim
