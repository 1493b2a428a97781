import ServerlessEdge.Simulation.FunctionDag

/-! The runs of a client with an acyclic workflow end, with every function invoked once
and after all its predecessors. -/
namespace ServerlessEdge.Simulation
open Std (ExtTreeMap)
open Library Checks Messages Model Relation
open Estimator (LambdaResponse)

namespace DagClient

variable {c : DagClient} {fuel : ℕ} {l l' : Loop} {as : List Action}

/-- How many steps the main thread can still make if no thread fails. -/
def Loop.iterations (n : ℕ) (l : Loop) : ℕ :=
  match l.phase with
  | .testing => (n - l.myCompleted.card) * (n + 3) + 2
  | .starting myIndices => (n - (l.myCompleted.card + 1)) * (n + 3) + myIndices.length + 4
  | .popping => (n - (l.myCompleted.card + 1)) * (n + 3) + 3
  | .joining _ => 1
  | .returned _ => 0
  | .stopped _ => 0

/-- How many steps are left, those of the threads that have not been started included. -/
def Loop.remaining (n : ℕ) (l : Loop) : ℕ :=
  2 * (n - l.myCalled.card) + 2 * l.myThreads.length + l.theCalls.length + l.iterations n

theorem Scheduled.main_remaining (h : Scheduled c as l) (hstep : MainStep c l l') :
    l'.remaining c.theDag.numFunctions < l.remaining c.theDag.numFunctions := by
  have hcompleted := Finset.card_le_card h.completed_range
  rw [Finset.card_range] at hcompleted
  unfold Loop.remaining
  cases hstep with
  | again myIndices hphase hcard hready hlength =>
    have hleft : c.theDag.numFunctions - l.myCompleted.card =
        c.theDag.numFunctions - (l.myCompleted.card + 1) + 1 := by omega
    simp only [Loop.iterations, hphase, hleft, Nat.add_mul]
    omega
  | leave hphase hcard =>
    simp only [Loop.iterations, hphase]
    omega
  | wait hphase =>
    simp only [Loop.iterations, hphase]
    omega
  | skip i is hphase hi =>
    simp only [Loop.iterations, hphase, List.length_cons]
    omega
  | start i is hphase hi =>
    have hcalled := Finset.card_le_card (h.main (.start i is hphase hi)).called_subset
    rw [Finset.card_range, Finset.card_insert_of_notMem hi] at hcalled
    simp only [Loop.iterations, hphase, List.length_cons, List.length_append,
      List.length_nil, Finset.card_insert_of_notMem hi]
    omega
  | pop i q hphase hq hnew =>
    simp only [Loop.iterations, hphase, Finset.card_insert_of_notMem hnew]
    omega
  | finish hphase hjoined =>
    simp only [Loop.iterations, hphase]
    omega

/-- Every step is one of those that were left. -/
theorem Scheduled.remaining (h : Scheduled c as l) {a : Action} (hsucceeds : Succeeds c a)
    (hl : c.step fuel l a = some l') :
    l'.remaining c.theDag.numFunctions < l.remaining c.theDag.numFunctions := by
  unfold DagClient.step at hl
  split at hl
  · cases hl
  · exact h.main_remaining (h.main_cases hl)
  · next i _ =>
    obtain ⟨myReq, hreq⟩ := hsucceeds
    unfold DagClient.invoke at hl
    rw [hreq] at hl
    split at hl
    · cases hl
    · next hmem =>
      rw [not_not] at hmem
      cases hl
      have hpos := List.length_pos_of_mem hmem
      simp only [Loop.remaining, Loop.iterations, List.length_erase_of_mem hmem,
        List.length_append, List.length_singleton]
      omega
  · next i myResp _ =>
    unfold DagClient.respond at hl
    split at hl
    · cases hl
    · next hmem =>
      rw [not_not] at hmem
      cases hl
      have hpos := List.length_pos_of_mem hmem
      simp only [Loop.remaining, Loop.iterations, List.length_erase_of_mem hmem]
      omega

/-- The main thread waits only for functions that are on their way. -/
theorem Scheduled.progress (h : Scheduled c as l) (hd : c.theDag.Acyclic)
    (hfuel : c.theDag.numFunctions ≤ fuel) :
    (∃ myResp, l.phase = .returned myResp) ∨ Proceeds c fuel l := by
  have hknown := h.known
  cases hphase : l.phase with
  | testing =>
    obtain ⟨myIndices, hcallable⟩ := Dag.callable_of_acyclic hd hfuel l.myCompleted
    refine .inr (.inl ?_)
    simp only [DagClient.step, DagClient.main, hphase, hcallable]
    split
    · rfl
    · rfl
  | starting myIndices =>
    refine .inr (.inl ?_)
    cases myIndices with
    | nil => simp [DagClient.step, DagClient.main, hphase]
    | cons i is =>
      simp only [DagClient.step, DagClient.main, hphase]
      split
      · rfl
      · rfl
  | popping =>
    cases hq : l.myQueue with
    | cons x q =>
      refine .inr (.inl ?_)
      simp only [DagClient.step, DagClient.main, hphase, hq]
      split
      · rfl
      · split
        · rfl
        · rfl
    | nil =>
      rw [hphase] at hknown
      obtain ⟨hcard, hready⟩ := hknown
      -- there is a function left, hence one that can be called, and it has been
      obtain ⟨i, hi, hnew⟩ : ∃ i < c.theDag.numFunctions, i ∉ l.myCompleted := by
        by_contra hall
        push Not at hall
        refine hcard ?_
        rw [← Finset.card_range c.theDag.numFunctions]
        exact congrArg _ (Finset.Subset.antisymm h.completed_range
          fun i hi => hall i (Finset.mem_range.mp hi))
      obtain ⟨u, hu, huC, hfirst⟩ := Dag.exists_callable hd hi hnew
      have hplaced := h.placed u
      rw [Loop.places, if_pos (hready u ⟨hu, huC, hfirst⟩), if_neg huC, hq] at hplaced
      by_cases hthread : u ∈ l.myThreads
      · refine .inr (.inr (.inl ⟨u, ?_⟩))
        simp only [DagClient.step, hphase, DagClient.invoke, hthread, not_true_eq_false, if_false]
        split
        · rfl
        · rfl
      · rw [List.count_eq_zero_of_not_mem hthread] at hplaced
        have hcall : u ∈ l.theCalls := List.count_pos_iff.mp (by simp at hplaced; omega)
        refine .inr (.inr (.inr ⟨u, fun myResp => ?_⟩))
        simp [DagClient.step, hphase, DagClient.respond, hcall]
  | joining failed =>
    rw [hphase] at hknown
    obtain ⟨rfl, hcard⟩ := hknown
    obtain ⟨-, hthreads, hcalls, -⟩ := h.all_completed hcard
    refine .inr (.inl ?_)
    simp [DagClient.step, DagClient.main, hphase, hthreads, hcalls]
  | returned myResp => exact .inl ⟨myResp, rfl⟩
  | stopped err =>
    rw [hphase] at hknown
    exact hknown.elim

/-- The invariant, and how many steps there can be, over a whole run. -/
theorem scheduled (h : c.functionDag fuel as = some l) (hsucceeds : ∀ a ∈ as, Succeeds c a) :
    Scheduled c as l ∧ as.length + l.remaining c.theDag.numFunctions ≤
      c.theDag.numFunctions * (c.theDag.numFunctions + 5) + 2 := by
  induction as using List.reverseRecOn generalizing l with
  | nil =>
    cases h
    refine ⟨scheduled_initial c, le_of_eq ?_⟩
    simp [Loop.remaining, Loop.iterations, Loop.initial, Nat.mul_add]
    omega
  | append_singleton as a ih =>
    unfold functionDag at h
    rw [List.foldlM_append, Option.bind_eq_bind, Option.bind_eq_some_iff] at h
    obtain ⟨lmid, hmid, hlast⟩ := h
    rw [List.foldlM_cons, Option.bind_eq_bind, Option.bind_eq_some_iff] at hlast
    obtain ⟨lnext, hnext, heq⟩ := hlast
    cases heq
    obtain ⟨hscheduled, hlength⟩ := ih hmid fun b hb => hsucceeds b (List.mem_append_left _ hb)
    have ha := hsucceeds a (List.mem_append_right _ (List.mem_singleton_self a))
    have hless := hscheduled.remaining ha hnext
    refine ⟨hscheduled.step ha hnext, ?_⟩
    rw [List.length_append, List.length_singleton]
    omega

theorem Scheduled.invoked_perm (h : Scheduled c as l) {myResp : LambdaResponse}
    (hphase : l.phase = .returned myResp) :
    myResp.retcode = "OK" ∧ (invoked as).Perm (List.range c.theDag.numFunctions) := by
  have hknown := h.known
  rw [hphase] at hknown
  obtain ⟨hok, hcard, -⟩ := hknown
  obtain ⟨hall, hthreads, hcalls, hqueue⟩ := h.all_completed hcard
  refine ⟨hok, List.perm_iff_count.mpr fun i => ?_⟩
  have hinvoked := h.invocations i
  rw [Loop.places, hthreads, hcalls, hqueue, hall] at hinvoked
  simp only [List.count_nil, Nat.add_zero, Nat.zero_add, Finset.mem_range] at hinvoked
  rw [hinvoked, List.nodup_range.count]
  simp

/-- What can be called, in an acyclic workflow, and that the client with it gets to the
end whatever the order of the responses. -/
theorem functionDag_completes (c : DagClient) (hd : c.theDag.Acyclic) {fuel : ℕ}
    (hfuel : c.theDag.numFunctions ≤ fuel) :
    (∀ C : Finset ℕ, ∃ ret, c.theDag.callable fuel C = some ret ∧
      (∀ i, i ∈ ret ↔ i < c.theDag.numFunctions ∧ i ∉ C ∧
        ∀ p, TransGen c.theDag.Follows p i → p ∈ C) ∧
      (ret = ∅ → Finset.range c.theDag.numFunctions ⊆ C)) ∧
    ∀ (as : List Action) (l : Loop), c.functionDag fuel as = some l → (∀ a ∈ as, Succeeds c a) →
      as.length ≤ c.theDag.numFunctions * (c.theDag.numFunctions + 5) + 2 ∧
      Ordered c as ∧ (invoked as).Nodup ∧
      ((∃ myResp, l.phase = .returned myResp ∧ myResp.retcode = "OK" ∧
        (invoked as).Perm (List.range c.theDag.numFunctions)) ∨ Proceeds c fuel l) := by
  refine ⟨fun C => ?_, fun as l hrun hsucceeds => ?_⟩
  · obtain ⟨ret, hret⟩ := Dag.callable_of_acyclic hd hfuel C
    refine ⟨ret, hret, fun i => Dag.mem_callable hret, fun hempty i hi => ?_⟩
    by_contra hnew
    obtain ⟨u, hu⟩ := Dag.exists_callable hd (Finset.mem_range.mp hi) hnew
    have hmem := (Dag.mem_callable hret).mpr hu
    rw [hempty] at hmem
    exact Finset.notMem_empty u hmem
  · obtain ⟨hscheduled, hlength⟩ := scheduled hrun hsucceeds
    refine ⟨by omega, hscheduled.ordered, List.nodup_iff_count_le_one.mpr fun i => ?_, ?_⟩
    · have hinvoked := hscheduled.invocations i
      rw [hscheduled.placed] at hinvoked
      split at hinvoked
      · omega
      · omega
    · rcases hscheduled.progress hd hfuel with ⟨myResp, hphase⟩ | hnext
      · exact .inl ⟨myResp, hphase, hscheduled.invoked_perm hphase⟩
      · exact .inr hnext

def exampleClient : DagClient where
  theDag := exampleDag
  theLastStates := 
    let myState : State := ⟨"", "A"⟩
    .ofList [("s0", myState), ("s1", myState), ("s2", myState)]
  aInput := "input"
  aUuids := toString

/-- The second of the two branches is the first to respond. -/
def exampleRun : List Action :=
  let ok : LambdaResponse := { retcode := "OK", hops := 1, ptime := 10 }
  [.main, .main, .main, .invoke 0, .respond 0 ok, .main,
    .main, .main, .main, .main, .invoke 1, .invoke 2, .respond 2 ok, .main,
    .main, .main, .main, .respond 1 ok, .main,
    .main, .main, .main, .invoke 3, .respond 3 ok, .main, .main, .main]

theorem functionDag_completes_example : ∃ l, exampleClient.functionDag 4 exampleRun = some l ∧
    exampleRun.length ≤ 38 ∧ Ordered exampleClient exampleRun ∧ (invoked exampleRun).Nodup ∧
    ((∃ myResp, l.phase = .returned myResp ∧ myResp.retcode = "OK" ∧
      (invoked exampleRun).Perm (List.range 4)) ∨ Proceeds exampleClient 4 l) := by
  have hd : exampleClient.theDag.Acyclic := fun j hcycle => Nat.lt_irrefl j (exampleDag_lt hcycle)
  have hrun : (exampleClient.functionDag 4 exampleRun).isSome := by decide +kernel
  obtain ⟨l, hl⟩ := Option.isSome_iff_exists.mp hrun
  have hstates : ∀ x ∈ exampleClient.theDag.theStates.allStates false,
      x ∈ exampleClient.theLastStates := by decide +kernel
  refine ⟨l, hl, (functionDag_completes exampleClient hd le_rfl).2 exampleRun l hl fun a ha => ?_⟩
  cases a with
  | main => trivial
  | invoke i => exact functionRequest_ok hstates i
  | respond i myResp =>
    simp only [exampleRun, List.mem_cons, Action.respond.injEq, reduceCtorEq, false_or,
      List.not_mem_nil, or_false] at ha
    rcases ha with ⟨-, rfl⟩ | ⟨-, rfl⟩ | ⟨-, rfl⟩ | ⟨-, rfl⟩
    all_goals rfl

end DagClient

end ServerlessEdge.Simulation
