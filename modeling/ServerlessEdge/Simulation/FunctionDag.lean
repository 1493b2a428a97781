import ServerlessEdge.Model.Callable
import ServerlessEdge.Estimator.PtimeEstimator
import ServerlessEdge.Simulation.Client
import Mathlib.Data.Finset.Lattice.Fold
import Mathlib.Order.Lattice.Nat

/-! A client with a workflow: it starts a thread for each function that can be called,
and waits for the threads on a queue. -/
namespace ServerlessEdge.Simulation
open Std (ExtTreeMap)
open Library Checks Messages Model Relation
open Estimator (LambdaResponse)

/-- The variables of functionDag() that do not change, theLastStates being up to date. -/
structure DagClient where
  theDag : Dag
  theLastStates : ExtTreeMap String State
  aInput : String
  aUuids : ℕ → String

namespace DagClient

/-- The request for one function of the workflow. -/
def functionRequest (c : DagClient) (myIndex : ℕ) : Except String LambdaRequest := do
  let myFunction := c.theDag.toName myIndex
  let myStates ← Client.requestStates c.theLastStates (c.theDag.theStates.states myFunction)
  let myDag ← c.theDag.singleFunctionDag myFunction
  return {
    theName := myFunction
    theInput := c.aInput
    theDataIn := ""
    theForward := false
    theHops := 0
    theStates := myStates
    theCallback := ""
    theChain := none
    theDag := some myDag
    theNextFunctionIndex := 0
    theUuid := c.aUuids myIndex }

/-- Where the main thread is. -/
inductive Phase where
  /-- about to test the condition of the loop -/
  | testing
  /-- in the inner loop, with the functions left -/
  | starting (myIndices : List ℕ)
  | popping
  | joining (failed : Bool)
  | returned (myResp : LambdaResponse)
  /-- an exception was thrown, or an assertion failed -/
  | stopped (err : String)
  deriving DecidableEq

/-- The threads started are first in myThreads, and in theCalls from when they have
sent their request to when they have the response. -/
structure Loop where
  phase : Phase
  myCompleted : Finset ℕ
  myCalled : Finset ℕ
  myQueue : List ℤ
  myThreads : List ℕ
  theCalls : List ℕ
  myHops : ℕ
  myPtime : ℕ
  deriving DecidableEq

def Loop.initial : Loop := ⟨.testing, ∅, ∅, [], [], [], 0, 0⟩

inductive Action where
  | main
  | invoke (myIndex : ℕ)
  | respond (myIndex : ℕ) (myResp : LambdaResponse)
  deriving DecidableEq

/-- The elements of a set in ascending order. -/
def ascending (s : Finset ℕ) : List ℕ := (List.range (s.sup id + 1)).filter (· ∈ s)

/-- The final response. -/
def finalResponse (c : DagClient) (l : Loop) : LambdaResponse where
  retcode := "OK"
  output := c.aInput
  states := serializeStates c.theLastStates
  hops := l.myHops
  ptime := l.myPtime

/-- The next step of the main thread, if it can make one. -/
def main (c : DagClient) (fuel : ℕ) (l : Loop) : Option Loop :=
  match l.phase with
  | .testing =>
    if l.myCompleted.card ≠ c.theDag.numFunctions then do
      let myIndices ← c.theDag.callable fuel l.myCompleted
      return { l with phase := .starting (ascending myIndices) }
    else return { l with phase := .joining false }
  | .starting [] => return { l with phase := .popping }
  | .starting (myIndex :: myIndices) =>
    -- skip functions already called
    if myIndex ∈ l.myCalled then return { l with phase := .starting myIndices }
    else return { l with
      phase := .starting myIndices
      myCalled := insert myIndex l.myCalled
      myThreads := l.myThreads ++ [myIndex] }
  | .popping => match l.myQueue with
    | [] => none
    | myFunction :: myQueue =>
      if myFunction < 0 then return { l with phase := .joining true, myQueue := myQueue }
      else if myFunction.toNat ∈ l.myCompleted then
        return { l with phase := .stopped "ret.second == true", myQueue := myQueue }
      else return { l with
        phase := .testing
        myQueue := myQueue
        myCompleted := insert myFunction.toNat l.myCompleted }
  | .joining failed =>
    if l.myThreads ≠ [] ∨ l.theCalls ≠ [] then none
    else if failed then
      return { l with phase := .stopped "Error received while executing a function in a DAG" }
    else return { l with phase := .returned (finalResponse c l) }
  | .returned _ => none
  | .stopped _ => none

/-- A step of a thread after that it has been started. An assertion that fails in it
stops the program. -/
def invoke (c : DagClient) (myIndex : ℕ) (l : Loop) : Option Loop :=
  if myIndex ∉ l.myThreads then none
  else match c.functionRequest myIndex with
    | .error err => return { l with phase := .stopped err }
    | .ok _ => return { l with
        myThreads := l.myThreads.erase myIndex
        theCalls := l.theCalls ++ [myIndex] }

/-- The end of the thread; upon failure an invalid index goes to the queue before its own. -/
def respond (myIndex : ℕ) (myResp : LambdaResponse) (l : Loop) : Option Loop :=
  if myIndex ∉ l.theCalls then none
  else return { l with
    theCalls := l.theCalls.erase myIndex
    myQueue := l.myQueue ++ (if myResp.retcode ≠ "OK" then [-1] else []) ++ [(myIndex : ℤ)]
    myHops := (l.myHops + myResp.hops) % 2 ^ 32
    myPtime := (l.myPtime + myResp.ptime) % 2 ^ 32 }

/-- One step of any of the threads, unless the program has been stopped. -/
def step (c : DagClient) (fuel : ℕ) (l : Loop) (a : Action) : Option Loop :=
  match l.phase, a with
  | .stopped _, _ => none
  | _, .main => c.main fuel l
  | _, .invoke myIndex => c.invoke myIndex l
  | _, .respond myIndex myResp => respond myIndex myResp l

def functionDag (c : DagClient) (fuel : ℕ) (as : List Action) : Option Loop :=
  as.foldlM (c.step fuel) .initial

/-- The indices of the functions invoked in a run. -/
def invoked (as : List Action) : List ℕ :=
  as.filterMap fun
    | .invoke myIndex => some myIndex
    | _ => none

/-- The indices of the functions completed in a run. -/
def responded (as : List Action) : List ℕ :=
  as.filterMap fun
    | .respond myIndex _ => some myIndex
    | _ => none

/-- The step is not a failure: the client has the states of the request, and
the response is a success. -/
def Succeeds (c : DagClient) : Action → Prop
  | .main => True
  | .invoke myIndex => ∃ myReq, c.functionRequest myIndex = .ok myReq
  | .respond _ myResp => myResp.retcode = "OK"

/-- Some thread can make a step, unless a response is awaited, and then any will do. -/
def Proceeds (c : DagClient) (fuel : ℕ) (l : Loop) : Prop :=
  (c.step fuel l .main).isSome ∨ (∃ i, (c.step fuel l (.invoke i)).isSome) ∨
    ∃ i, ∀ myResp, (c.step fuel l (.respond i myResp)).isSome

/-- A client that has all the states does not fail before it sends a request. -/
theorem functionRequest_ok {c : DagClient}
    (h : ∀ x ∈ c.theDag.theStates.allStates false, x ∈ c.theLastStates) (i : ℕ) :
    ∃ myReq, c.functionRequest i = .ok myReq := by
  have hall : ∀ x ∈ c.theDag.theStates.states (c.theDag.toName i), x ∈ c.theLastStates :=
    fun x hx => h x (States.mem_allStates.mpr (List.ne_nil_of_mem (States.mem_states.mp hx)))
  obtain ⟨myStates, hstates, -⟩ := Client.requestStates_ok hall
  obtain ⟨myDag, hdag⟩ := c.theDag.singleFunctionDag_ok (c.theDag.toName i)
  unfold functionRequest
  simp only [hstates, hdag, ok_bind]
  exact ⟨_, rfl⟩

theorem mem_ascending {s : Finset ℕ} {i : ℕ} : i ∈ ascending s ↔ i ∈ s := by
  unfold ascending
  rw [List.mem_filter, List.mem_range, decide_eq_true_eq, and_iff_right_iff_imp]
  exact fun hi => Nat.lt_succ_of_le (Finset.le_sup (f := id) hi)

theorem length_ascending (s : Finset ℕ) : (ascending s).length = s.card := by
  have hset : (ascending s).toFinset = s := by
    ext i
    rw [List.mem_toFinset, mem_ascending]
  have hnodup : (ascending s).Nodup := List.nodup_range.filter _
  rw [← List.toFinset_card_of_nodup hnodup, hset]

theorem invoked_append (as : List Action) (a : Action) :
    invoked (as ++ [a]) = invoked as ++ invoked [a] := List.filterMap_append

theorem responded_append (as : List Action) (a : Action) :
    responded (as ++ [a]) = responded as ++ responded [a] := List.filterMap_append

/-- A function that has not been completed, though all before it have. -/
def Ready (c : DagClient) (myCompleted : Finset ℕ) (i : ℕ) : Prop :=
  i < c.theDag.numFunctions ∧ i ∉ myCompleted ∧
    ∀ p, TransGen c.theDag.Follows p i → p ∈ myCompleted

/-- What the main thread knows where it is. -/
def Known (c : DagClient) (l : Loop) : Phase → Prop
  | .testing => True
  | .starting myIndices => l.myCompleted.card ≠ c.theDag.numFunctions ∧
      (∀ i ∈ myIndices, Ready c l.myCompleted i) ∧
      ∀ i, Ready c l.myCompleted i → i ∈ l.myCalled ∨ i ∈ myIndices
  | .popping => l.myCompleted.card ≠ c.theDag.numFunctions ∧
      ∀ i, Ready c l.myCompleted i → i ∈ l.myCalled
  | .joining failed => failed = false ∧ l.myCompleted.card = c.theDag.numFunctions
  | .returned myResp => myResp.retcode = "OK" ∧ l.myCompleted.card = c.theDag.numFunctions ∧
      l.myThreads = [] ∧ l.theCalls = []
  | .stopped _ => False

/-- In how many places a function is on its way from being called to being completed. -/
def Loop.places (l : Loop) (i : ℕ) : ℕ :=
  l.myThreads.count i + l.theCalls.count i + l.myQueue.count (i : ℤ) +
    if i ∈ l.myCompleted then 1 else 0

/-- Each function is invoked after the responses of all its transitive predecessors. -/
def Ordered (c : DagClient) (as : List Action) : Prop :=
  ∀ pre i post, as = pre ++ .invoke i :: post →
    ∀ p, TransGen c.theDag.Follows p i → p ∈ responded pre

/-- What holds after steps none of which is a failure. -/
structure Scheduled (c : DagClient) (as : List Action) (l : Loop) : Prop where
  placed : ∀ i, l.places i = if i ∈ l.myCalled then 1 else 0
  queued : ∀ x ∈ l.myQueue, 0 ≤ x
  called : ∀ i ∈ l.myCalled, i < c.theDag.numFunctions ∧
    ∀ p, TransGen c.theDag.Follows p i → p ∈ l.myCompleted
  invocations : ∀ i, (invoked as).count i + l.myThreads.count i = l.places i
  responses : ∀ i, i ∈ l.myCompleted ∨ (i : ℤ) ∈ l.myQueue → i ∈ responded as
  ordered : Ordered c as
  known : Known c l l.phase

variable {c : DagClient} {fuel : ℕ} {l l' : Loop} {as : List Action}

theorem Ordered.append {a : Action} (h : Ordered c as) (ha : ∀ i, a = .invoke i →
    ∀ p, TransGen c.theDag.Follows p i → p ∈ responded as) : Ordered c (as ++ [a]) := by
  intro pre i post heq
  rcases List.eq_nil_or_concat post with rfl | ⟨post, b, rfl⟩
  · obtain ⟨rfl, hlast⟩ := List.append_inj' heq rfl
    exact ha i (List.singleton_inj.mp hlast)
  · rw [List.concat_eq_append, ← List.cons_append, ← List.append_assoc] at heq
    exact h pre i post (List.append_inj' heq rfl).1

theorem Scheduled.completed_subset (h : Scheduled c as l) : l.myCompleted ⊆ l.myCalled := by
  intro i hi
  have hplaced := h.placed i
  rw [Loop.places, if_pos hi] at hplaced
  by_contra hcalled
  rw [if_neg hcalled] at hplaced
  omega

theorem Scheduled.called_subset (h : Scheduled c as l) :
    l.myCalled ⊆ Finset.range c.theDag.numFunctions :=
  fun i hi => Finset.mem_range.mpr (h.called i hi).1

theorem Scheduled.completed_range (h : Scheduled c as l) :
    l.myCompleted ⊆ Finset.range c.theDag.numFunctions :=
  h.completed_subset.trans h.called_subset

/-- With all functions completed there is no thread left. -/
theorem Scheduled.all_completed (h : Scheduled c as l)
    (hcard : l.myCompleted.card = c.theDag.numFunctions) :
    l.myCompleted = Finset.range c.theDag.numFunctions ∧ l.myThreads = [] ∧ l.theCalls = [] ∧
      l.myQueue = [] := by
  have hall : l.myCompleted = Finset.range c.theDag.numFunctions :=
    Finset.eq_of_subset_of_card_le h.completed_range (by rw [Finset.card_range, hcard])
  have hcalled (i : ℕ) : l.myThreads.count i + l.theCalls.count i + l.myQueue.count (i : ℤ) = 0 := by
    have hplaced := h.placed i
    rw [Loop.places] at hplaced
    by_cases hi : i ∈ l.myCalled
    · rw [if_pos hi, if_pos (hall ▸ h.called_subset hi)] at hplaced
      omega
    · rw [if_neg hi] at hplaced
      omega
  refine ⟨hall, ?_, ?_, ?_⟩
  · refine List.eq_nil_iff_forall_not_mem.mpr fun i hi => ?_
    have hpos := List.count_pos_iff.mpr hi
    have hzero := hcalled i
    omega
  · refine List.eq_nil_iff_forall_not_mem.mpr fun i hi => ?_
    have hpos := List.count_pos_iff.mpr hi
    have hzero := hcalled i
    omega
  · refine List.eq_nil_iff_forall_not_mem.mpr fun x hx => ?_
    have hpos := List.count_pos_iff.mpr hx
    have hzero := hcalled x.toNat
    rw [Int.toNat_of_nonneg (h.queued x hx)] at hzero
    omega

/-- Steps that only move the main thread. -/
theorem Scheduled.goto (h : Scheduled c as l) (phase : Phase)
    (hknown : Known c { l with phase := phase } phase) :
    Scheduled c (as ++ [.main]) { l with phase := phase } where
  placed := h.placed
  queued := h.queued
  called := h.called
  invocations i := by
    rw [invoked_append]
    exact (congrArg (List.count i · + _) (List.append_nil _)).trans (h.invocations i)
  responses i hi := by
    rw [responded_append]
    exact List.mem_append_left _ (h.responses i hi)
  ordered := h.ordered.append nofun
  known := hknown

/-- A thread is started for a function that has not been called. -/
theorem Scheduled.start (h : Scheduled c as l) {i : ℕ} {is : List ℕ}
    (hknown : Known c l (.starting (i :: is))) (hi : i ∉ l.myCalled) :
    Scheduled c (as ++ [.main]) { l with
      phase := .starting is
      myCalled := insert i l.myCalled
      myThreads := l.myThreads ++ [i] } where
  placed j := by
    have hplaced := h.placed j
    simp only [Loop.places, List.count_append, List.count_singleton, Finset.mem_insert,
      beq_iff_eq, eq_comm (a := i)] at hplaced ⊢
    by_cases hj : j = i
    · subst hj
      simp only [hi, if_false, if_true, true_or] at hplaced ⊢
      omega
    · simp only [hj, if_false, false_or] at hplaced ⊢
      omega
  queued := h.queued
  called j hj := by
    obtain ⟨-, hready, -⟩ := hknown
    rcases Finset.mem_insert.mp hj with rfl | hj
    · obtain ⟨hrange, -, hall⟩ := hready j List.mem_cons_self
      exact ⟨hrange, hall⟩
    · exact h.called j hj
  invocations j := by
    have hinvoked := h.invocations j
    rw [invoked_append]
    simp only [Loop.places, List.count_append] at hinvoked ⊢
    have hmain : invoked [.main] = [] := rfl
    rw [hmain, List.count_nil]
    omega
  responses j hj := by
    rw [responded_append]
    exact List.mem_append_left _ (h.responses j hj)
  ordered := h.ordered.append nofun
  known := by
    obtain ⟨hcard, hready, hall⟩ := hknown
    refine ⟨hcard, fun j hj => hready j (List.mem_cons_of_mem i hj), fun j hj => ?_⟩
    rcases hall j hj with hcalled | hmem
    · exact .inl (Finset.mem_insert_of_mem hcalled)
    · rcases List.mem_cons.mp hmem with rfl | hmem
      · exact .inl (Finset.mem_insert_self j _)
      · exact .inr hmem

/-- The index of a function completed comes out of the queue. -/
theorem Scheduled.pop (h : Scheduled c as l) {i : ℕ} {q : List ℤ} (hq : l.myQueue = (i : ℤ) :: q) :
    i ∉ l.myCompleted ∧ Scheduled c (as ++ [.main]) { l with
      phase := .testing
      myQueue := q
      myCompleted := insert i l.myCompleted } := by
  have hnew : i ∉ l.myCompleted ∧ i ∈ l.myCalled := by
    have hplaced := h.placed i
    rw [Loop.places, hq, List.count_cons_self] at hplaced
    by_cases hcalled : i ∈ l.myCalled
    · refine ⟨fun hi => ?_, hcalled⟩
      rw [if_pos hi, if_pos hcalled] at hplaced
      omega
    · rw [if_neg hcalled] at hplaced
      omega
  have hplaces (j : ℕ) : Loop.places { l with
      phase := .testing, myQueue := q, myCompleted := insert i l.myCompleted } j = l.places j := by
    simp only [Loop.places, hq, List.count_cons, Finset.mem_insert, beq_iff_eq, Nat.cast_inj]
    by_cases hj : i = j
    · subst hj
      simp [hnew.1, Nat.add_assoc]
    · simp [hj, Ne.symm hj]
  refine ⟨hnew.1, ?_⟩
  constructor
  · intro j
    rw [hplaces]
    exact h.placed j
  · exact fun x hx => h.queued x (hq ▸ List.mem_cons_of_mem _ hx)
  · intro j hj
    obtain ⟨hrange, hall⟩ := h.called j hj
    exact ⟨hrange, fun p hp => Finset.mem_insert_of_mem (hall p hp)⟩
  · intro j
    rw [hplaces, invoked_append]
    exact (congrArg (List.count j · + _) (List.append_nil _)).trans (h.invocations j)
  · intro j hj
    rw [responded_append]
    refine List.mem_append_left _ (h.responses j ?_)
    rcases hj with hj | hj
    · rcases Finset.mem_insert.mp hj with rfl | hj
      · exact .inr (hq ▸ List.mem_cons_self)
      · exact .inl hj
    · exact .inr (hq ▸ List.mem_cons_of_mem _ hj)
  · exact h.ordered.append nofun
  · trivial

/-- The steps of the main thread that are left when no thread has failed. -/
inductive MainStep (c : DagClient) (l : Loop) : Loop → Prop where
  | again (myIndices : List ℕ) (hphase : l.phase = .testing)
      (hcard : l.myCompleted.card ≠ c.theDag.numFunctions)
      (hready : ∀ i, i ∈ myIndices ↔ Ready c l.myCompleted i)
      (hlength : myIndices.length ≤ c.theDag.numFunctions) :
      MainStep c l { l with phase := .starting myIndices }
  | leave (hphase : l.phase = .testing) (hcard : l.myCompleted.card = c.theDag.numFunctions) :
      MainStep c l { l with phase := .joining false }
  | wait (hphase : l.phase = .starting []) : MainStep c l { l with phase := .popping }
  | skip (i : ℕ) (is : List ℕ) (hphase : l.phase = .starting (i :: is)) (hi : i ∈ l.myCalled) :
      MainStep c l { l with phase := .starting is }
  | start (i : ℕ) (is : List ℕ) (hphase : l.phase = .starting (i :: is)) (hi : i ∉ l.myCalled) :
      MainStep c l { l with
        phase := .starting is
        myCalled := insert i l.myCalled
        myThreads := l.myThreads ++ [i] }
  | pop (i : ℕ) (q : List ℤ) (hphase : l.phase = .popping) (hq : l.myQueue = (i : ℤ) :: q)
      (hnew : i ∉ l.myCompleted) :
      MainStep c l { l with
        phase := .testing
        myQueue := q
        myCompleted := insert i l.myCompleted }
  | finish (hphase : l.phase = .joining false)
      (hjoined : l.myThreads = [] ∧ l.theCalls = []) :
      MainStep c l { l with phase := .returned (finalResponse c l) }

theorem Scheduled.main_cases (h : Scheduled c as l) (hl : c.main fuel l = some l') :
    MainStep c l l' := by
  unfold DagClient.main at hl
  cases hphase : l.phase with
  | testing =>
    simp only [hphase] at hl
    split at hl
    · next hcard =>
      obtain ⟨myIndices, hcallable, heq⟩ := Option.bind_eq_some_iff.mp hl
      cases heq
      have hready (i : ℕ) : i ∈ ascending myIndices ↔ Ready c l.myCompleted i := by
        rw [mem_ascending]
        exact Dag.mem_callable hcallable
      refine .again _ hphase hcard hready ?_
      rw [length_ascending, ← Finset.card_range c.theDag.numFunctions]
      exact Finset.card_le_card fun i hi =>
        Finset.mem_range.mpr ((Dag.mem_callable hcallable).mp hi).1
    · next hcard =>
      cases hl
      exact .leave hphase (not_not.mp hcard)
  | starting myIndices =>
    cases myIndices with
    | nil =>
      simp only [hphase] at hl
      cases hl
      exact .wait hphase
    | cons i is =>
      simp only [hphase] at hl
      split at hl
      · next hi =>
        cases hl
        exact .skip i is hphase hi
      · next hi =>
        cases hl
        exact .start i is hphase hi
  | popping =>
    simp only [hphase] at hl
    split at hl
    · cases hl
    · next x q hq =>
      have hx : 0 ≤ x := h.queued x (hq ▸ List.mem_cons_self)
      obtain ⟨i, rfl⟩ := Int.eq_ofNat_of_zero_le hx
      have hnew := (h.pop hq).1
      rw [if_neg (not_lt.mpr hx), Int.toNat_natCast, if_neg hnew] at hl
      cases hl
      exact .pop i q hphase hq hnew
  | joining failed =>
    have hknown := h.known
    rw [hphase] at hknown
    obtain ⟨rfl, -⟩ := hknown
    simp only [hphase] at hl
    split at hl
    · cases hl
    · next hjoined =>
      cases hl
      rw [not_or, not_not, not_not] at hjoined
      exact .finish hphase hjoined
  | returned myResp =>
    simp only [hphase] at hl
    cases hl
  | stopped err =>
    simp only [hphase] at hl
    cases hl

theorem Scheduled.main (h : Scheduled c as l) (hstep : MainStep c l l') :
    Scheduled c (as ++ [.main]) l' := by
  have hknown := h.known
  cases hstep with
  | again myIndices hphase hcard hready hlength =>
    exact h.goto _ ⟨hcard, fun i hi => (hready i).mp hi, fun i hi => .inr ((hready i).mpr hi)⟩
  | leave hphase hcard => exact h.goto _ ⟨rfl, hcard⟩
  | wait hphase =>
    rw [hphase] at hknown
    exact h.goto _ ⟨hknown.1, fun i hi => (hknown.2.2 i hi).resolve_right List.not_mem_nil⟩
  | skip i is hphase hi =>
    rw [hphase] at hknown
    obtain ⟨hcard, hready, hall⟩ := hknown
    refine h.goto _ ⟨hcard, fun j hj => hready j (List.mem_cons_of_mem i hj), fun j hj => ?_⟩
    rcases hall j hj with hcalled | hmem
    · exact .inl hcalled
    · rcases List.mem_cons.mp hmem with rfl | hmem
      · exact .inl hi
      · exact .inr hmem
  | start i is hphase hi =>
    rw [hphase] at hknown
    exact h.start hknown hi
  | pop i q hphase hq hnew => exact (h.pop hq).2
  | finish hphase hjoined =>
    rw [hphase] at hknown
    exact h.goto _ ⟨rfl, hknown.2, hjoined⟩

/-- What is taken out of a list once. -/
theorem count_erase_add {l : List ℕ} {i : ℕ} (h : i ∈ l) (j : ℕ) :
    (l.erase i).count j + [i].count j = l.count j := by
  by_cases hj : j = i
  · subst hj
    have hpos := List.count_pos_iff.mpr h
    rw [List.count_erase_self, List.count_singleton_self]
    omega
  · rw [List.count_erase_of_ne hj, List.count_singleton, if_neg (by simpa using Ne.symm hj),
      Nat.add_zero]

theorem Scheduled.invoke (h : Scheduled c as l) {i : ℕ}
    (hsucceeds : Succeeds c (.invoke i)) (hl : c.invoke i l = some l') :
    Scheduled c (as ++ [.invoke i]) l' := by
  obtain ⟨myReq, hreq⟩ := hsucceeds
  unfold DagClient.invoke at hl
  rw [hreq] at hl
  split at hl
  · cases hl
  · next hmem =>
    rw [not_not] at hmem
    cases hl
    have hcalled : i ∈ l.myCalled := by
      have hplaced := h.placed i
      have hpos := List.count_pos_iff.mpr hmem
      rw [Loop.places] at hplaced
      by_contra hi
      rw [if_neg hi] at hplaced
      omega
    have hthreads := count_erase_add hmem
    have hplaces (j : ℕ) : Loop.places { l with
        myThreads := l.myThreads.erase i, theCalls := l.theCalls ++ [i] } j = l.places j := by
      have hcount := hthreads j
      simp only [Loop.places, List.count_append]
      omega
    constructor
    · intro j
      rw [hplaces]
      exact h.placed j
    · exact h.queued
    · exact h.called
    · intro j
      have hcount := hthreads j
      have hinvoked := h.invocations j
      rw [hplaces, invoked_append, List.count_append]
      have hone : invoked [.invoke i] = [i] := rfl
      rw [hone]
      simp only
      omega
    · intro j hj
      rw [responded_append]
      exact List.mem_append_left _ (h.responses j hj)
    · refine h.ordered.append fun j hj p hp => ?_
      cases hj
      exact h.responses p (.inl ((h.called i hcalled).2 p hp))
    · -- a thread started is not joined yet
      have hknown := h.known
      cases hphase : l.phase with
      | returned myResp =>
        rw [hphase] at hknown
        rw [hknown.2.2.1] at hmem
        cases hmem
      | _ =>
        rw [hphase] at hknown
        exact hknown

theorem Scheduled.respond (h : Scheduled c as l) {i : ℕ} {myResp : LambdaResponse}
    (hsucceeds : Succeeds c (.respond i myResp)) (hl : DagClient.respond i myResp l = some l') :
    Scheduled c (as ++ [.respond i myResp]) l' := by
  have hok : myResp.retcode = "OK" := hsucceeds
  unfold DagClient.respond at hl
  split at hl
  · cases hl
  · next hmem =>
    rw [not_not] at hmem
    rw [if_neg (not_not.mpr hok), List.append_nil] at hl
    cases hl
    have hcalls (j : ℕ) : (l.theCalls.erase i).count j + [(i : ℤ)].count (j : ℤ) = l.theCalls.count j := by
      rw [← count_erase_add hmem j, ← List.map_singleton (f := Nat.cast),
        List.count_map_of_injective _ _ Nat.cast_injective]
    have hplaces (j : ℕ) : Loop.places { l with
        theCalls := l.theCalls.erase i
        myQueue := l.myQueue ++ [(i : ℤ)]
        myHops := (l.myHops + myResp.hops) % 2 ^ 32
        myPtime := (l.myPtime + myResp.ptime) % 2 ^ 32 } j = l.places j := by
      have hcount := hcalls j
      simp only [Loop.places, List.count_append]
      omega
    constructor
    · intro j
      rw [hplaces]
      exact h.placed j
    · intro x hx
      rcases List.mem_append.mp hx with hx | hx
      · exact h.queued x hx
      · rw [List.mem_singleton.mp hx]
        exact Int.natCast_nonneg i
    · exact h.called
    · intro j
      rw [hplaces, invoked_append]
      exact (congrArg (List.count j · + _) (List.append_nil _)).trans (h.invocations j)
    · intro j hj
      rw [responded_append, List.mem_append]
      have hone : responded [.respond i myResp] = [i] := rfl
      rcases hj with hj | hj
      · exact .inl (h.responses j (.inl hj))
      · rcases List.mem_append.mp hj with hj | hj
        · exact .inl (h.responses j (.inr hj))
        · rw [List.mem_singleton, Nat.cast_inj] at hj
          exact .inr (hone ▸ List.mem_singleton.mpr hj)
    · exact h.ordered.append nofun
    · have hknown := h.known
      cases hphase : l.phase with
      | returned r =>
        rw [hphase] at hknown
        rw [hknown.2.2.2] at hmem
        cases hmem
      | _ =>
        rw [hphase] at hknown
        exact hknown

theorem Scheduled.step (h : Scheduled c as l) {a : Action} (hsucceeds : Succeeds c a)
    (hl : c.step fuel l a = some l') : Scheduled c (as ++ [a]) l' := by
  unfold DagClient.step at hl
  split at hl
  · cases hl
  · exact h.main (h.main_cases hl)
  · exact h.invoke hsucceeds hl
  · exact h.respond hsucceeds hl

theorem scheduled_initial (c : DagClient) : Scheduled c [] .initial where
  placed i := by simp [Loop.places, Loop.initial]
  queued := nofun
  called i hi := absurd hi (Finset.notMem_empty i)
  invocations i := by simp [Loop.places, Loop.initial, invoked]
  responses i hi := by simp [Loop.initial] at hi
  ordered pre i post heq := by simp at heq
  known := trivial

end DagClient

end ServerlessEdge.Simulation
