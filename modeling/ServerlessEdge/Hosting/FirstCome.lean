import Mathlib.Data.List.Nodup
import Mathlib.Logic.Function.Basic
import ServerlessEdge.Hosting.Accounting
import ServerlessEdge.Library.Runs

/-! The order in which the tasks of a container become active, among calls on all
containers that share a processor. -/
namespace ServerlessEdge.Hosting
open Std Library Messages
open scoped List
open ServerlessEdge.Computer (exampleRequest)

variable {R : Type}

namespace Container

/-- The task that a container accepts for a request, if any. -/
def newTasks (p : Processor R) (c : Container R) (aReq : LambdaRequest) (aId : UInt64) : List Task :=
  match c.requirements p aReq with
  | .error _ => []
  | .ok q => [c.newTask q aReq aId]

/-- The task that becomes active when it is pushed, if any. -/
def startedByPush (p : Processor R) (c : Container R) (aReq : LambdaRequest) (aId : UInt64) :
    List Task :=
  match c.requirements p aReq with
  | .error _ => []
  | .ok q =>
    if c.theActive.length = c.theNumWorkers ∨ p.memAvailable < q.theMemory then []
    else [c.newTask q aReq aId]

/-- The pending tasks that a call of pop erases from the front of their list. -/
def startedByPop (p : Processor R) (c : Container R) : List Task :=
  c.thePending.take (c.thePending.length - (c.pop .wrapping p).2.2.thePending.length)

variable {p : Processor R} {c : Container R}

/-- The loop at the end of pop moves pending tasks, from the front on. -/
theorem promote_moves (n : ℕ) (p : Processor R) (l pending : List Task) :
    ∃ q l' moved rest, promote .wrapping n p l pending = .ok (q, l', rest) ∧
      pending = moved ++ rest ∧ l'.map Task.kept ~ (moved ++ l).map Task.kept := by
  induction pending generalizing p l with
  | nil => exact ⟨p, l, [], [], rfl, rfl, .refl _⟩
  | cons t pending ih =>
    rw [promote]
    by_cases hstop : l.length = n ∨ p.memAvailable < t.theMemory
    · rw [if_pos hstop]
      exact ⟨p, l, [], t :: pending, rfl, rfl, .refl _⟩
    · obtain ⟨l₁, hok, hperm₁⟩ := makeActive_perm t 0 l
      obtain ⟨q, l', moved, rest, hpromote, hsplit, hperm⟩ := ih (p.allocated t.theMemory) l₁
      rw [if_neg hstop, Processor.allocate_of_le fun hlt => hstop (.inr hlt)]
      simp only [Checks.ok_bind, hok]
      refine ⟨q, l', t :: moved, rest, hpromote, congrArg (t :: ·) hsplit, ?_⟩
      rw [List.map_append] at hperm
      calc l'.map Task.kept
        _ ~ moved.map Task.kept ++ l₁.map Task.kept := hperm
        _ ~ moved.map Task.kept ++ (t :: l).map Task.kept := hperm₁.append_left _
        _ ~ t.kept :: (moved.map Task.kept ++ l.map Task.kept) := List.perm_middle
        _ = (t :: moved ++ l).map Task.kept := by rw [List.cons_append, List.map_cons, List.map_append]

/-- A request is refused, or its task waits behind the others or becomes active. -/
theorem push_order (aReq : LambdaRequest) (aId : UInt64) :
    (∃ e, c.push .wrapping p aReq aId = .error e) ∧ c.newTasks p aReq aId = [] ∧
      c.startedByPush p aReq aId = [] ∨
    ∃ q c' x, c.push .wrapping p aReq aId = .ok (q, c') ∧ c.newTasks p aReq aId = [x] ∧
      x.theId = aId ∧
      (c.startedByPush p aReq aId = [] ∧ c'.thePending = c.thePending ++ [x] ∧
          c'.theActive = c.theActive ∨
        c.startedByPush p aReq aId = [x] ∧ c'.thePending = c.thePending ∧
          c'.theActive.map Task.kept ~ (x :: c.theActive).map Task.kept) := by
  rcases push_spec aReq aId with ⟨e, hreq, herr⟩ | ⟨q, hreq, ⟨hwait, hok⟩ | ⟨hroom, l', hperm, hok⟩⟩
  · refine .inl ⟨⟨e, herr⟩, ?_, ?_⟩
    · rw [newTasks, hreq]
    · rw [startedByPush, hreq]
  · refine .inr ⟨_, _, c.newTask q aReq aId, hok, ?_, rfl, .inl ⟨?_, rfl, rfl⟩⟩
    · rw [newTasks, hreq]
    · simp only [startedByPush, hreq, if_pos hwait]
  · refine .inr ⟨_, _, c.newTask q aReq aId, hok, ?_, rfl, .inr ⟨?_, rfl, hperm⟩⟩
    · rw [newTasks, hreq]
    · simp only [startedByPush, hreq, if_neg hroom]

/-- Whatever becomes of the completed task, the pending tasks are taken from the front,
and they become active. -/
theorem pop_order : c.thePending = c.startedByPop p ++ (c.pop .wrapping p).2.2.thePending ∧
    (c.pop .wrapping p).2.2.theActive.map Task.kept ~
      (c.startedByPop p ++ c.theActive.tail).map Task.kept := by
  have hnone : (c.pop .wrapping p).2.2.thePending = c.thePending → c.startedByPop p = [] := by
    intro h
    rw [startedByPop, h, Nat.sub_self, List.take_zero]
  cases hl : c.theActive with
  | nil =>
    have hpop : c.pop .wrapping p = (.error "No active tasks", p, c) := by
      rw [pop, hl]
      rfl
    rw [hnone (by rw [hpop]), hpop, hl]
    exact ⟨rfl, .refl _⟩
  | cons t l =>
    cases hfree : p.free t.theMemory with
    | error e =>
      have hpop : c.pop .wrapping p = (.error e, p, { c with theActive := l }) := by
        rw [pop, hl]
        simp only [hfree]
        rfl
      rw [hnone (by rw [hpop]), hpop]
      exact ⟨rfl, .refl _⟩
    | ok q =>
      obtain ⟨q', l', moved, rest, hok, hsplit, hperm⟩ :=
        promote_moves c.theNumWorkers q l c.thePending
      have hpop : c.pop .wrapping p =
          (.ok t, q', { c with theActive := l', thePending := rest }) := by
        rw [pop, hl]
        simp only [hfree, hok]
        rfl
      have hstarted : c.startedByPop p = moved := by
        rw [startedByPop, hpop, hsplit, List.length_append, Nat.add_sub_cancel, List.take_left]
      rw [hstarted, hpop]
      exact ⟨hsplit, hperm⟩

end Container

/-- A processor and its containers, and for each of them the tasks pushed and the tasks
that have become active so far. -/
structure Shared (R ι : Type) where
  theProcessor : Processor R
  theContainers : ι → Container R
  pushed : ι → List Task
  started : ι → List Task

/-- The calls on the containers. -/
inductive Use (ι : Type) where
  | push (i : ι) (aReq : LambdaRequest) (aId : UInt64)
  | pop (i : ι)

namespace Shared

variable {ι : Type} [DecidableEq ι]

/-- Containers without tasks on a processor. -/
def start (p : Processor R) (c : ι → Container R) : Shared R ι where
  theProcessor := p
  theContainers i := { c i with theActive := [], thePending := [] }
  pushed _ := []
  started _ := []

/-- A call on a container has changed it and the processor. -/
def update (s : Shared R ι) (i : ι) (t : Processor R × Container R) (pushed started : List Task) :
    Shared R ι where
  theProcessor := t.1
  theContainers := Function.update s.theContainers i t.2
  pushed := Function.update s.pushed i (s.pushed i ++ pushed)
  started := Function.update s.started i (s.started i ++ started)

def step (s : Shared R ι) : Use ι → Shared R ι
  | .push i aReq aId =>
    let c := s.theContainers i
    match c.push .wrapping s.theProcessor aReq aId with
    | .error _ => s
    | .ok t => s.update i t (c.newTasks s.theProcessor aReq aId)
      (c.startedByPush s.theProcessor aReq aId)
  | .pop i =>
    let c := s.theContainers i
    s.update i (c.pop .wrapping s.theProcessor).2 [] (c.startedByPop s.theProcessor)

/-- The tasks of each container become active in the order in which they were pushed:
those that have are the first ones, and the others are pending. -/
def InOrder (s : Shared R ι) : Prop :=
  ∀ i, s.pushed i = s.started i ++ (s.theContainers i).thePending

/-- A request finds a worker and memory while other tasks of the container wait. -/
def Overtakes (s : Shared R ι) : Use ι → Prop
  | .push i aReq _ => (s.theContainers i).thePending ≠ [] ∧
    ∃ q, (s.theContainers i).requirements s.theProcessor aReq = .ok q ∧
      (s.theContainers i).theActive.length ≠ (s.theContainers i).theNumWorkers ∧
      ¬ s.theProcessor.memAvailable < q.theMemory
  | .pop _ => False

variable {s : Shared R ι}

omit [DecidableEq ι] in
theorem overtakes_iff (i : ι) (aReq : LambdaRequest) (aId : UInt64) :
    s.Overtakes (.push i aReq aId) ↔ (s.theContainers i).thePending ≠ [] ∧
      (s.theContainers i).startedByPush s.theProcessor aReq aId ≠ [] := by
  refine and_congr_right fun _ => ?_
  unfold Container.startedByPush
  cases hreq : (s.theContainers i).requirements s.theProcessor aReq with
  | error e => simp
  | ok q =>
    simp only [Except.ok.injEq, exists_eq_left', ne_eq]
    split
    · rename_i hwait
      simp only [not_true_eq_false, iff_false, not_and, not_not]
      exact fun hne => hwait.resolve_left hne
    · rename_i hroom
      rw [not_or] at hroom
      simp [hroom]

instance (s : Shared R ι) : ∀ e, Decidable (s.Overtakes e)
  | .push i aReq aId => decidable_of_iff _ (overtakes_iff i aReq aId).symm
  | .pop _ => .isFalse id

theorem inOrder_update (h : s.InOrder) (i : ι) (t : Processor R × Container R)
    (pushed started : List Task) : (s.update i t pushed started).InOrder ↔
      (s.theContainers i).thePending ++ pushed = started ++ t.2.thePending := by
  have hi : s.pushed i ++ pushed = s.started i ++ started ++ t.2.thePending ↔
      (s.theContainers i).thePending ++ pushed = started ++ t.2.thePending := by
    rw [h i, List.append_assoc, List.append_assoc, List.append_cancel_left_eq]
  rw [← hi]
  constructor
  · intro hall
    have := hall i
    simpa only [update, Function.update_self] using this
  · intro heq j
    by_cases hj : j = i
    · subst hj
      simpa only [update, Function.update_self] using heq
    · simpa only [update, Function.update_of_ne hj] using h j

/-- A call keeps the order unless it overtakes. -/
theorem InOrder.step (h : s.InOrder) {e : Use ι} (he : ¬ s.Overtakes e) : (s.step e).InOrder := by
  cases e with
  | push i aReq aId =>
    rw [overtakes_iff, not_and, not_not] at he
    rcases Container.push_order (p := s.theProcessor) (c := s.theContainers i) aReq aId with
      ⟨⟨e, herr⟩, -, -⟩ | ⟨q, c', x, hok, hnew, -, ⟨hwait, hpending, -⟩ | ⟨hstart, hpending, -⟩⟩
    · simp only [Shared.step, herr]
      exact h
    · simp only [Shared.step, hok, hnew, hwait, inOrder_update h, hpending]
      rfl
    · have hnone : (s.theContainers i).thePending = [] := by
        by_contra hne
        rw [he hne] at hstart
        cases hstart
      simp only [Shared.step, hok, hnew, hstart, inOrder_update h, hpending, hnone]
      rfl
  | pop i =>
    rw [Shared.step, inOrder_update h, List.append_nil]
    exact Container.pop_order.1

/-- The identifier of the task of a call. -/
def Use.ids : Use ι → List UInt64
  | .push _ _ aId => [aId]
  | .pop _ => []

/-- A task that overtakes others with other identifiers breaks the order. -/
theorem InOrder.not_overtakes (h : s.InOrder) {e : Use ι} (hnext : (s.step e).InOrder)
    (hnew : ∀ i, ∀ t ∈ s.pushed i, ∀ aId ∈ Use.ids e, t.theId ≠ aId) : ¬ s.Overtakes e := by
  cases e with
  | pop i => exact id
  | push i aReq aId =>
    rw [overtakes_iff]
    rintro ⟨hpending, hstarted⟩
    rcases Container.push_order (p := s.theProcessor) (c := s.theContainers i) aReq aId with
      ⟨-, -, hnone⟩ | ⟨q, c', x, hok, hnews, hid, ⟨hwait, -⟩ | ⟨hstart, hsame, -⟩⟩
    · exact hstarted hnone
    · exact hstarted hwait
    · simp only [Shared.step, hok, hnews, hstart, inOrder_update h, hsame] at hnext
      -- the first of those that wait would be the new task
      obtain ⟨y, rest, hy⟩ := List.exists_cons_of_ne_nil hpending
      rw [hy, List.cons_append, List.singleton_append, List.cons.injEq] at hnext
      have hmem : y ∈ s.pushed i := by
        rw [h i, hy]
        exact List.mem_append_right _ List.mem_cons_self
      exact hnew i y hmem aId List.mem_cons_self (hnext.1 ▸ hid)

theorem pushed_step (e : Use ι) (i : ι) :
    ∀ t ∈ (s.step e).pushed i, t ∈ s.pushed i ∨ t.theId ∈ Use.ids e := by
  intro t ht
  cases e with
  | push j aReq aId =>
    rcases Container.push_order (p := s.theProcessor) (c := s.theContainers j) aReq aId with
      ⟨⟨e, herr⟩, -, -⟩ | ⟨q, c', x, hok, hnew, hid, -⟩
    · simp only [Shared.step, herr] at ht
      exact .inl ht
    · simp only [Shared.step, hok, hnew, update] at ht
      by_cases hi : i = j
      · subst hi
        rw [Function.update_self] at ht
        rcases List.mem_append.mp ht with ht | ht
        · exact .inl ht
        · cases List.mem_singleton.mp ht
          exact .inr (hid ▸ List.mem_cons_self)
      · rw [Function.update_of_ne hi] at ht
        exact .inl ht
  | pop j =>
    simp only [Shared.step, update] at ht
    by_cases hi : i = j
    · subst hi
      rw [Function.update_self, List.append_nil] at ht
      exact .inl ht
    · rw [Function.update_of_ne hi] at ht
      exact .inl ht

/-- Where all identifiers differ, a run in order has nothing that overtakes. -/
theorem along_of_inOrder {events : List (Use ι)} (hids : (events.flatMap Use.ids).Nodup)
    (hnew : ∀ i, ∀ t ∈ s.pushed i, t.theId ∉ events.flatMap Use.ids)
    (h : ∀ t ∈ Runs.states step s events, t.InOrder) :
    Runs.Along step (fun s e => ¬ s.Overtakes e) s events := by
  induction events generalizing s with
  | nil => trivial
  | cons e events ih =>
    rw [List.flatMap_cons, List.nodup_append] at hids
    obtain ⟨-, hrest, hdiffer⟩ := hids
    have hs : s.InOrder := h s List.mem_cons_self
    have hnext : (s.step e).InOrder :=
      h _ (List.mem_cons_of_mem _ (by cases events <;> simp [Runs.states]))
    refine ⟨hs.not_overtakes hnext fun i t ht aId hid heq => ?_, ih hrest (fun i t ht hin => ?_)
      fun t ht => h t (List.mem_cons_of_mem _ ht)⟩
    · refine hnew i t ht ?_
      rw [List.flatMap_cons, heq]
      exact List.mem_append_left _ hid
    · rcases pushed_step e i t ht with ht | ht
      · refine hnew i t ht ?_
        rw [List.flatMap_cons]
        exact List.mem_append_right _ hin
      · exact hdiffer _ ht _ hin rfl

/-- In every run without a request that overtakes tasks the tasks of each container
become active in the order in which they were pushed, and no other run is in order. -/
theorem first_come_first_served (p : Processor R) (c : ι → Container R) (events : List (Use ι)) :
    (Runs.Along step (fun s e => ¬ s.Overtakes e) (start p c) events →
      ∀ s ∈ Runs.states step (start p c) events, s.InOrder) ∧
    ((events.flatMap Use.ids).Nodup → (∀ s ∈ Runs.states step (start p c) events, s.InOrder) →
      Runs.Along step (fun s e => ¬ s.Overtakes e) (start p c) events) := by
  constructor
  · intro h
    exact Runs.invariant_along (fun _ _ hs he => hs.step he) (fun _ => rfl) h
  · intro hids h
    exact along_of_inOrder hids (fun _ _ ht => by cases ht) h

/-- Two functions whose tasks need so much memory of a processor with ten bytes. -/
def exampleShared (aMem : UInt64) : Shared ℚ (Fin 2) :=
  start ⟨1, 1, 10, 0, 0⟩ fun _ =>
    ⟨"container", "cpu0", ⟨⟨true, ""⟩, "f0", fixedRequirements 1 aMem⟩, 1, [], []⟩

/-- While a task of the first function is active one of the second is pushed, and
another one when the first task is completed. -/
def exampleUses : List (Use (Fin 2)) :=
  let first : Fin 2 := ⟨0, Nat.two_pos⟩
  let second : Fin 2 := ⟨1, Nat.one_lt_two⟩
  [.push first (exampleRequest "" ∅) 0, .push second (exampleRequest "" ∅) 1, .pop first,
    .push second (exampleRequest "" ∅) 2]

theorem first_come_first_served_example :
    ∀ s ∈ Runs.states step (exampleShared 5) exampleUses, s.InOrder :=
  (first_come_first_served _ _ exampleUses).1 (by decide +kernel)

/-- The memory of the first task is free when the last one comes, and the one that has
waited for it keeps waiting. -/
theorem overtaken : ¬ ∀ s ∈ Runs.states step (exampleShared 10) exampleUses, s.InOrder := by
  intro h
  have hfinal := h _ (Runs.final_mem_states step _ _) 1
  have hids : (Runs.final step (exampleShared 10) exampleUses).pushed 1 ≠
      (Runs.final step (exampleShared 10) exampleUses).started 1 ++
        ((Runs.final step (exampleShared 10) exampleUses).theContainers 1).thePending := by
    decide +kernel
  exact hids hfinal

end Shared

end ServerlessEdge.Hosting
