import Mathlib.Data.Fintype.Basic
import Mathlib.Data.Finset.Card
import Mathlib.Order.Bounds.Basic
import ServerlessEdge.Library.Runs
import ServerlessEdge.LambdaMuSim.AppPool

/-! The transitions that a pool of apps reports, against a naive simulation in
which each app makes its next transition one period after the previous one. -/
namespace ServerlessEdge.LambdaMuSim
open Library

/-- The times of the transitions of an app, in the order in which it makes them. -/
def App.due (a : App) : ℕ → ℚ
  | 0 => a.cyclic 0
  | k + 1 => a.due k + a.cyclic (k + 1)

variable {n : ℕ}

/-- How many of the transitions are of one app. -/
def made (i : Fin n) (l : List (Fin n × ℚ)) : ℕ := l.countP fun r => r.1 = i

/-- The naive simulation, by the transitions made so far, the last one first. -/
inductive Naive (apps : Fin n → App) : List (Fin n × ℚ) → Prop where
  | start : Naive apps []
  | transition {l : List (Fin n × ℚ)} (i : Fin n) (h : Naive apps l)
      (hfirst : ∀ j, (apps i).due (made i l) ≤ (apps j).due (made j l)) :
      Naive apps ((i, (apps i).due (made i l)) :: l)

/-- The two forms of `advance`. -/
inductive Call where
  | advance
  | elapse (aTime : ℚ)

/-- A pool in use, with the time elapsed and the transitions reported, the last
one first. -/
structure Observed (n : ℕ) where
  pool : AppPool n
  clock : ℚ
  transitions : List (Fin n × ℚ)

namespace Observed

def start (pool : AppPool n) : Observed n := ⟨pool, 0, []⟩

def step (s : Observed n) : Call → Observed n
  | .advance =>
    let clock := s.clock + s.pool.advance.1.2
    ⟨s.pool.advance.2, clock, (s.pool.advance.1.1, clock) :: s.transitions⟩
  | .elapse aTime => ⟨s.pool.elapse aTime, s.clock + aTime, s.transitions⟩

/-- The calls that a user may make. -/
def Requested (s : Observed n) : Call → Prop
  | .advance => True
  | .elapse aTime => 0 ≤ aTime ∧ aTime ≤ s.pool.next

/-- The transitions are made only when it is time for them. -/
def OnTime (s : Observed n) : Call → Prop
  | .advance => s.pool.front.theRemaining = 0
  | .elapse aTime => 0 ≤ aTime ∧ aTime ≤ s.pool.next

instance (s : Observed n) : (c : Call) → Decidable (s.Requested c)
  | .advance => inferInstanceAs (Decidable True)
  | .elapse aTime => inferInstanceAs (Decidable (0 ≤ aTime ∧ aTime ≤ s.pool.next))

instance (s : Observed n) : (c : Call) → Decidable (s.OnTime c)
  | .advance => inferInstanceAs (Decidable (s.pool.front.theRemaining = 0))
  | .elapse aTime => inferInstanceAs (Decidable (0 ≤ aTime ∧ aTime ≤ s.pool.next))

/-- What the naive simulation does is reported, and the earliest transition is
the next one. -/
structure Right (apps : Fin n → App) (s : Observed n) : Prop where
  naive : Naive apps s.transitions
  next : IsLeast (Set.range fun i => (apps i).due (made i s.transitions)) (s.clock + s.pool.next)

/-- The times of the descriptors, if they add up from the clock. -/
def times (s : Observed n) : List (Fin n × ℚ) :=
  Differences.absolute s.clock (s.pool.theDesc.map Desc.timed)

/-- The pool has come as far as the transitions reported. -/
structure Sync (apps : Fin n → App) (s : Observed n) : Prop where
  pool : ∀ i, s.pool.thePool i = App.advance^[made i s.transitions] (apps i)
  nonneg : ∀ d ∈ s.pool.theDesc, 0 ≤ d.theRemaining
  times : ∀ t ∈ s.times, t.2 = (apps t.1).due (made t.1 s.transitions)
  naive : Naive apps s.transitions

theorem times_ids (s : Observed n) : (s.times.map Prod.fst).Perm (List.finRange n) := by
  rw [times, Differences.map_fst_absolute, map_timed_fst]
  exact s.pool.complete

theorem exists_mem_times (s : Observed n) (i : Fin n) : ∃ t ∈ s.times, t.1 = i :=
  List.mem_map.mp (s.times_ids.mem_iff.mpr (List.mem_finRange i))

theorem times_cons (s : Observed n) : s.times =
    Differences.absolute s.clock (s.pool.front.timed :: s.pool.theDesc.tail.map Desc.timed) := by
  rw [times, ← s.pool.front_cons_tail]
  rfl

theorem times_front (s : Observed n) : s.times = (s.pool.front.theAppId, s.clock + s.pool.next) ::
    Differences.absolute (s.clock + s.pool.next) (s.pool.theDesc.tail.map Desc.timed) :=
  s.times_cons

namespace Sync

variable {apps : Fin n → App} {s : Observed n}

theorem front_due (h : Sync apps s) : s.clock + s.pool.next =
    (apps s.pool.front.theAppId).due (made s.pool.front.theAppId s.transitions) := by
  have hmem : (s.pool.front.theAppId, s.clock + s.pool.next) ∈ s.times := by
    rw [times_front]
    exact List.mem_cons_self
  exact h.times _ hmem

theorem next_le (h : Sync apps s) (j : Fin n) :
    s.clock + s.pool.next ≤ (apps j).due (made j s.transitions) := by
  obtain ⟨t, ht, rfl⟩ := s.exists_mem_times j
  rw [← h.times t ht]
  rw [times_cons] at ht
  refine Differences.first_le (fun e he => ?_) t ht
  have hmap : s.pool.front.timed :: s.pool.theDesc.tail.map Desc.timed =
      s.pool.theDesc.map Desc.timed := by
    rw [← List.map_cons, s.pool.front_cons_tail]
  rw [hmap] at he
  exact forall_timed.mpr h.nonneg e he

theorem right (h : Sync apps s) : Right apps s where
  naive := h.naive
  next := by
    refine ⟨⟨s.pool.front.theAppId, h.front_due.symm⟩, ?_⟩
    rintro t ⟨j, rfl⟩
    exact h.next_le j

/-- Time that passes before the next transition. -/
theorem elapse (h : Sync apps s) {aTime : ℚ} (hle : aTime ≤ s.pool.next) :
    Sync apps (s.step (.elapse aTime)) where
  pool := h.pool
  nonneg := by
    intro d hd
    rcases List.mem_cons.mp hd with rfl | hd
    · exact sub_nonneg.mpr hle
    · exact h.nonneg d (List.mem_of_mem_tail hd)
  times := by
    have hsame : (s.step (.elapse aTime)).times = s.times := by
      rw [times_cons s]
      exact Differences.absolute_passed s.clock aTime s.pool.front.timed _
    rw [hsame]
    exact h.times
  naive := h.naive

/-- A transition that is made when it is time for it. -/
theorem advance (hperiods : ∀ i, ∀ t ∈ (apps i).thePeriods, 0 ≤ t) (h : Sync apps s)
    (hnow : s.pool.front.theRemaining = 0) : Sync apps (s.step .advance) := by
  have hclock : s.clock + s.pool.next = s.clock := by
    rw [AppPool.next, hnow, add_zero]
  have hdue := h.front_due
  have htimes := s.times_front
  rw [hclock] at hdue htimes
  -- the app enters its next period, which begins now
  have hselected : s.pool.selected = App.advance^[made s.pool.front.theAppId s.transitions + 1]
      (apps s.pool.front.theAppId) := by
    rw [Function.iterate_succ_apply', ← h.pool]
    rfl
  have hperiod : s.pool.selected.period =
      (apps s.pool.front.theAppId).cyclic (made s.pool.front.theAppId s.transitions + 1) := by
    rw [hselected, App.period_iterate]
  have hnew : s.pool.myNewDesc.theRemaining = s.pool.selected.period := by
    simp only [AppPool.myNewDesc, hnow, zero_add]
  have hmade : made s.pool.front.theAppId (s.step .advance).transitions =
      made s.pool.front.theAppId s.transitions + 1 := by
    simp [made, step, AppPool.advance]
  have hothers : ∀ j, j ≠ s.pool.front.theAppId →
      made j (s.step .advance).transitions = made j s.transitions := by
    intro j hj
    simp [made, step, AppPool.advance, Ne.symm hj]
  refine ⟨?_, ?_, ?_, ?_⟩
  · intro j
    by_cases hj : j = s.pool.front.theAppId
    · subst hj
      rw [hmade, ← hselected]
      exact Function.update_self ..
    · rw [hothers j hj, ← h.pool]
      exact Function.update_of_ne hj ..
  · have hcyclic : 0 ≤ s.pool.myNewDesc.theRemaining := by
      rw [hnew, hperiod]
      exact hperiods _ _ (List.get_mem _ _)
    refine forall_timed.mp ?_
    simp only [step, AppPool.advance, map_insertDesc]
    refine Differences.insert_nonneg hcyclic (forall_timed.mpr fun d hd => ?_)
    exact h.nonneg d (List.mem_of_mem_tail hd)
  · intro t ht
    have hperm : (s.step .advance).times.Perm
        ((s.pool.front.theAppId, s.clock + s.pool.selected.period) ::
          Differences.absolute s.clock (s.pool.theDesc.tail.map Desc.timed)) := by
      have hins := Differences.absolute_insert (s.clock + s.pool.next) s.pool.myNewDesc.timed
        (s.pool.theDesc.tail.map Desc.timed)
      rw [← map_insertDesc, hclock] at hins
      simp only [step, AppPool.advance, hnow, add_zero]
      rw [← hnew]
      exact hins
    rcases List.mem_cons.mp (hperm.mem_iff.mp ht) with rfl | ht
    · simp only [hmade, App.due, ← hdue, hperiod]
    · have hmem : t ∈ s.times := by
        rw [htimes]
        exact List.mem_cons_of_mem _ ht
      have hne : t.1 ≠ s.pool.front.theAppId := by
        have hnodup := (s.times_ids.nodup_iff).mpr (List.nodup_finRange n)
        rw [htimes, List.map_cons, List.nodup_cons] at hnodup
        intro heq
        exact hnodup.1 (List.mem_map.mpr ⟨t, ht, heq⟩)
      rw [hothers t.1 hne]
      exact h.times t hmem
  · have hfirst : ∀ j, (apps s.pool.front.theAppId).due
        (made s.pool.front.theAppId s.transitions) ≤ (apps j).due (made j s.transitions) := by
      intro j
      rw [← hdue, ← hclock]
      exact h.next_le j
    have hnaive := h.naive.transition _ hfirst
    simp only [step, AppPool.advance, hnow, add_zero]
    rwa [← hdue] at hnaive

end Sync

end Observed

namespace Draws

variable {aPeriods : List (List ℚ)}

/-- At most two apps have time left in the period in which they begin. -/
def AtMostTwoWait (draws : Draws aPeriods n) : Prop :=
  (List.finRange n).countP (fun i => (draws.app i).period ≠ 0) ≤ 2

instance (draws : Draws aPeriods n) : Decidable draws.AtMostTwoWait :=
  inferInstanceAs (Decidable (_ ≤ _))

theorem sorted_filter_length (draws : Draws aPeriods n) :
    (draws.sorted.filter fun d => d.theRemaining ≠ 0).length =
      (List.finRange n).countP fun i => (draws.app i).period ≠ 0 := by
  rw [← List.countP_eq_length_filter, draws.sorted_perm.countP_eq, descs, List.countP_map]
  rfl

theorem app_periods (hperiods : ∀ l ∈ aPeriods, ∀ t ∈ l, 0 ≤ t) (draws : Draws aPeriods n)
    (i : Fin n) : ∀ t ∈ (draws.app i).thePeriods, 0 ≤ t :=
  hperiods _ (List.get_mem _ _)

theorem sorted_period (draws : Draws aPeriods n) :
    ∀ d ∈ draws.sorted, d.theRemaining = (draws.app d.theAppId).period := by
  intro d hd
  obtain ⟨i, -, rfl⟩ := List.mem_map.mp (draws.sorted_perm.mem_iff.mp hd)
  rfl

theorem sorted_nonneg (hperiods : ∀ l ∈ aPeriods, ∀ t ∈ l, 0 ≤ t) (draws : Draws aPeriods n) :
    ∀ d ∈ draws.sorted, 0 ≤ d.theRemaining := by
  intro d hd
  rw [draws.sorted_period d hd]
  exact draws.app_periods hperiods _ _ (List.get_mem _ _)

end Draws

theorem subtractPrevious_nonneg {s prev : ℚ} {l : List (Desc n)} (hs : prev ≤ s)
    (hprev : 0 ≤ prev) (hsorted : l.Pairwise fun d e => d.theRemaining ≤ e.theRemaining)
    (hl : ∀ d ∈ l, s ≤ d.theRemaining) : ∀ d ∈ subtractPrevious prev l, 0 ≤ d.theRemaining := by
  induction l generalizing s prev with
  | nil => intro d hd; cases hd
  | cons d l ih =>
    obtain ⟨hd, hrest⟩ := List.pairwise_cons.mp hsorted
    have hnow : 0 ≤ d.theRemaining - prev :=
      sub_nonneg.mpr (hs.trans (hl d List.mem_cons_self))
    intro e he
    rcases List.mem_cons.mp he with rfl | he
    · exact hnow
    · exact ih (sub_le_self _ hprev) hnow hrest hd e he

namespace AppPool

variable {aPeriods : List (List ℚ)} {draws : Draws aPeriods n} {p : AppPool n}

theorem new_sync (hperiods : ∀ l ∈ aPeriods, ∀ t ∈ l, 0 ≤ t) (hwait : draws.AtMostTwoWait)
    (hp : AppPool.new aPeriods n draws = .ok p) :
    Observed.Sync draws.app (Observed.start p) := by
  obtain ⟨hpos, rfl⟩ := new_ok hp
  have hnonneg := draws.sorted_nonneg hperiods
  refine ⟨fun i => rfl, ?_, ?_, .start⟩
  · intro d hd
    exact subtractPrevious_nonneg le_rfl le_rfl draws.sorted_pairwise hnonneg d hd
  · have hlen : (draws.sorted.filter fun d => d.theRemaining ≠ 0).length ≤ 2 := by
      rw [draws.sorted_filter_length]
      exact hwait
    have htimes : (Observed.start (create draws hpos)).times = draws.sorted.map Desc.timed := by
      rw [Observed.times, Observed.start, create,
        (subtractPrevious_iff draws.sorted_pairwise hnonneg).mpr hlen]
      exact Differences.absolute_between 0 _
    rw [htimes]
    intro t ht
    obtain ⟨d, hd, rfl⟩ := List.mem_map.mp ht
    exact (draws.sorted_period d hd).trans (App.cyclic_zero _).symm

/-- A pool in which at most two apps wait at the start, and whose transitions are
made only when the time left to them is over, follows the naive simulation. -/
theorem transitions_on_time (aPeriods : List (List ℚ)) (draws : Draws aPeriods n)
    (calls : List Call) (p : AppPool n) (hperiods : ∀ l ∈ aPeriods, ∀ t ∈ l, 0 ≤ t)
    (hp : AppPool.new aPeriods n draws = .ok p) (hwait : draws.AtMostTwoWait)
    (hcalls : Runs.Along Observed.step Observed.OnTime (Observed.start p) calls) :
    ∀ s ∈ Runs.states Observed.step (Observed.start p) calls, s.Right draws.app := by
  have hstep : ∀ (s : Observed n) (c : Call), s.Sync draws.app → s.OnTime c →
      (s.step c).Sync draws.app := by
    intro s c hs hc
    cases c with
    | advance => exact hs.advance (draws.app_periods hperiods) hc
    | elapse aTime => exact hs.elapse hc.2
  intro s hs
  exact (Runs.invariant_along hstep (new_sync hperiods hwait hp) hcalls s hs).right

/-- Each app has a sequence of its own and begins at the start of it. -/
def inTurn (aPeriods : List (List ℚ)) (h : ∀ i, 0 < (aPeriods.get i).length / 2) :
    Draws aPeriods aPeriods.length where
  myPeriodId := id
  half := fun i => ⟨0, h i⟩

theorem transitions_on_time_pair :
    Runs.Along Observed.step Observed.OnTime
        (Observed.start (create (inTurn [[5, 10], [8, 10]] (by decide)) (by decide)))
        [.elapse 5, .advance, .elapse 3, .advance] ∧
    ∀ s ∈ Runs.states Observed.step
        (Observed.start (create (inTurn [[5, 10], [8, 10]] (by decide)) (by decide)))
        [.elapse 5, .advance, .elapse 3, .advance],
      s.Right (inTurn [[5, 10], [8, 10]] (by decide)).app := by
  have hcalls : Runs.Along Observed.step Observed.OnTime
      (Observed.start (create (inTurn [[5, 10], [8, 10]] (by decide)) (by decide)))
      [.elapse 5, .advance, .elapse 3, .advance] := by
    decide +kernel
  exact ⟨hcalls, transitions_on_time [[5, 10], [8, 10]] _ _ _ (by decide +kernel) rfl
    (by decide +kernel) hcalls⟩

/-- A transition that is made early: the time left to it is counted again in the
time to the one that follows. And the third app to begin is late from the start. -/
theorem transitions_wrong :
    (¬ ∀ (n : ℕ) (aPeriods : List (List ℚ)) (draws : Draws aPeriods n) (calls : List Call)
      (p : AppPool n), (∀ l ∈ aPeriods, ∀ t ∈ l, 0 ≤ t) → AppPool.new aPeriods n draws = .ok p →
      draws.AtMostTwoWait → Runs.Along Observed.step Observed.Requested (Observed.start p) calls →
      ∀ s ∈ Runs.states Observed.step (Observed.start p) calls, s.Right draws.app) ∧
    ¬ ∀ (n : ℕ) (aPeriods : List (List ℚ)) (draws : Draws aPeriods n) (calls : List Call)
      (p : AppPool n), (∀ l ∈ aPeriods, ∀ t ∈ l, 0 ≤ t) → AppPool.new aPeriods n draws = .ok p →
      Runs.Along Observed.step Observed.OnTime (Observed.start p) calls →
      ∀ s ∈ Runs.states Observed.step (Observed.start p) calls, s.Right draws.app := by
  constructor
  · intro h
    have hright := h 1 [[5, 10]] (inTurn [[5, 10]] (by decide)) [.advance] _ (by decide +kernel) rfl
      (by decide +kernel) (by decide +kernel) _ (Runs.final_mem_states _ _ _)
    exact absurd (hright.next.2 ⟨0, rfl⟩) (by decide +kernel)
  · intro h
    have hright := h 3 [[1, 9], [1, 9], [1, 9]] (inTurn [[1, 9], [1, 9], [1, 9]] (by decide))
      [.elapse 1, .advance, .advance] _ (by decide +kernel) rfl (by decide +kernel) _
      (Runs.final_mem_states _ _ _)
    exact absurd (hright.next.2 ⟨2, rfl⟩) (by decide +kernel)

end AppPool

end ServerlessEdge.LambdaMuSim
