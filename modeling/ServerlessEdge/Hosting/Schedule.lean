import ServerlessEdge.Hosting.Container
import ServerlessEdge.Library.Deltas
import ServerlessEdge.Library.Runs

/-! What the list of active tasks of a container stands for: tasks in the order
of their activation, each with its own residual operations. -/
namespace ServerlessEdge.Hosting
open Std Library Messages Deltas
open ServerlessEdge.Computer (Lambda exampleRequest)

variable {R : Type} [Speed R] [DecidableLT R]

structure Job where
  theId : UInt64
  theMemory : UInt64
  theResp : Rpc.LambdaResponse
  deriving DecidableEq

def Task.timed (t : Task) : ℕ × Job :=
  (t.theResidualOps.toNat, ⟨t.theId, t.theMemory, t.theResp⟩)

structure Schedule (R : Type) where
  theProcessor : Processor R
  active : List (ℕ × Job)
  pending : List (ℕ × Job)

/-- Calls on a container. The other containers change the processor in between. -/
inductive Call (R : Type) where
  | push (aReq : LambdaRequest) (aId : UInt64)
  | pop
  | advance (aElapsed : R)
  | others (theMemUsed : UInt64) (theRunning : Nat)

/-- The task returned, if any, or the exception, and the state after the call. -/
def Container.call (A : Arithmetic) (s : Processor R × Container R) :
    Call R → Except String (Option (ℕ × Job)) × Processor R × Container R
  | .push aReq aId =>
    match s.2.push A s.1 aReq aId with
    | .error e => (throw e, s)
    | .ok t => (return none, t)
  | .pop =>
    let (myRet, t) := s.2.pop A s.1
    (myRet.map fun t => some t.timed, t)
  | .advance aElapsed =>
    match s.2.advance A s.1 aElapsed with
    | .error e => (throw e, s)
    | .ok c => (return none, s.1, c)
  | .others m n => (return none, { s.1 with theMemUsed := m, theRunning := n }, s.2)

namespace Schedule

/-- A task that becomes active has its own residual operations, and so have the
tasks that were active before it. -/
def push (c : Container R) (s : Schedule R) (aReq : LambdaRequest) (aId : UInt64) :
    Except String (Schedule R) := do
  let q ← c.requirements s.theProcessor aReq
  let job := (q.theOperations.toNat, Job.mk aId q.theMemory (c.theLambda.execute aReq))
  if s.active.length = c.theNumWorkers ∨ s.theProcessor.memAvailable < q.theMemory then
    return { s with pending := s.pending ++ [job] }
  else
    return { s with
      theProcessor := s.theProcessor.allocated q.theMemory
      active := s.active ++ [job] }

/-- Pending tasks become active first come first served. -/
def promote (n : Nat) : Processor R → List (ℕ × Job) → List (ℕ × Job) → Schedule R
  | p, active, [] => ⟨p, active, []⟩
  | p, active, job :: pending =>
    if active.length = n ∨ p.memAvailable < job.2.theMemory then ⟨p, active, job :: pending⟩
    else promote n (p.allocated job.2.theMemory) (active ++ [job]) pending

/-- The first task with the least residual operations is taken away, and its
operations need no longer be done for the others. -/
def pop (c : Container R) (s : Schedule R) : Except String (Option (ℕ × Job)) × Schedule R :=
  match nearest s.active with
  | none => (throw "No active tasks", s)
  | some t =>
    let others := earlier t.1 (s.active.eraseP fun u => u.1 = t.1)
    match s.theProcessor.free t.2.theMemory with
    | .error e => (throw e, { s with active := others })
    | .ok p => (return some t, promote c.theNumWorkers p others s.pending)

def advance (s : Schedule R) (aOps : ℕ) : Schedule R :=
  match nearest s.active with
  | none => s
  | some t => { s with active := earlier (min t.1 aOps) s.active }

/-- The plain schedule of a container with the name, function and workers of c. -/
def call (c : Container R) (s : Schedule R) :
    Call R → Except String (Option (ℕ × Job)) × Schedule R
  | .push aReq aId =>
    match s.push c aReq aId with
    | .error e => (throw e, s)
    | .ok t => (return none, t)
  | .pop => s.pop c
  | .advance aElapsed =>
    if aElapsed < 0 then
      (throw ("cannot advance a container in the past by " ++ Speed.negated aElapsed ++ " s"), s)
    else (return none, s.advance (s.theProcessor.timeToOps aElapsed).toNat)
  | .others m n => (return none, { s with
      theProcessor := { s.theProcessor with theMemUsed := m, theRunning := n } })

end Schedule

/-- A list of active tasks stands for jobs in the order of their activation,
and its residual operations add up to an unsigned integer. -/
structure Active (l : List Task) (jobs : List (ℕ × Job)) : Prop where
  orders : Orders (absolute 0 (l.map Task.timed)) jobs
  bounded : latest (l.map Task.timed) < 2 ^ 64

/-- The state of a container made as c₀ stands for a plain schedule. -/
structure Represents (c₀ : Container R) (t : Processor R × Container R) (s : Schedule R) :
    Prop where
  processor : t.1 = s.theProcessor
  same : t.2 = { c₀ with theActive := t.2.theActive, thePending := t.2.thePending }
  active : Active t.2.theActive s.active
  pending : t.2.thePending.map Task.timed = s.pending

section Refinement

variable (A : Arithmetic)

/-- No operation on the residuals wraps when a task is put in its place. -/
theorem makeActive_ok (t : Task) {mySum : UInt64} (l : List Task)
    (hsum : mySum ≤ t.theResidualOps)
    (hl : mySum.toNat + latest (l.map Task.timed) < 2 ^ 64) :
    ∃ l', Container.makeActive A t mySum l = .ok l' ∧
      l'.map Task.timed = Deltas.insert t.timed mySum.toNat (l.map Task.timed) := by
  induction l generalizing mySum with
  | nil =>
    refine ⟨_, by rw [Container.makeActive, A.sub_ok hsum]; rfl, ?_⟩
    simp only [List.map_cons, List.map_nil, Task.timed, Deltas.insert, UInt64.toNat_sub_of_le _ _ hsum]
  | cons it l ih =>
    have hlatest : latest ((it :: l).map Task.timed) =
        it.theResidualOps.toNat + latest (l.map Task.timed) := List.sum_cons
    have hadd : mySum.toNat + it.theResidualOps.toNat < 2 ^ 64 := by omega
    have hnext : (mySum + it.theResidualOps).toNat = mySum.toNat + it.theResidualOps.toNat := by
      rw [UInt64.toNat_add, Nat.mod_eq_of_lt hadd]
    rw [Container.makeActive, A.add_ok hadd]
    by_cases hgt : mySum + it.theResidualOps > t.theResidualOps
    · have hlt : t.theResidualOps.toNat < mySum.toNat + it.theResidualOps.toNat :=
        hnext ▸ UInt64.lt_iff_toNat_lt.mp hgt
      have hres : (t.theResidualOps - mySum).toNat = t.theResidualOps.toNat - mySum.toNat :=
        UInt64.toNat_sub_of_le _ _ hsum
      have hsum' := UInt64.le_iff_toNat_le.mp hsum
      have hpatch : t.theResidualOps - mySum ≤ it.theResidualOps := by
        rw [UInt64.le_iff_toNat_le, hres]
        omega
      refine ⟨_, by simp only [Checks.ok_bind, hgt, if_true, A.sub_ok hsum, A.sub_ok hpatch]; rfl, ?_⟩
      simp only [List.map_cons, Task.timed, Deltas.insert, hlt, if_true, hres,
        UInt64.toNat_sub_of_le _ _ hpatch]
    · have hle : mySum.toNat + it.theResidualOps.toNat ≤ t.theResidualOps.toNat :=
        hnext ▸ UInt64.not_lt.mp hgt
      obtain ⟨l', hok, htimed⟩ := ih (UInt64.not_lt.mp hgt) (by rw [hnext]; omega)
      refine ⟨it :: l', by simp only [Checks.ok_bind, hgt, if_false, hok]; rfl, ?_⟩
      have hnot : ¬ t.theResidualOps.toNat < mySum.toNat + it.theResidualOps.toNat :=
        Nat.not_lt.mpr hle
      simp only [List.map_cons, Task.timed, Deltas.insert, hnot, if_false]
      rw [hnext] at htimed
      exact congrArg _ htimed

private theorem Active.length {l : List Task} {jobs : List (ℕ × Job)} (h : Active l jobs) :
    l.length = jobs.length := by
  rw [← h.orders.perm.length_eq, length_absolute, List.length_map]

private theorem Active.makeActive {l : List Task} {jobs : List (ℕ × Job)} (h : Active l jobs)
    (t : Task) : ∃ l', Container.makeActive A t 0 l = .ok l' ∧ Active l' (jobs ++ [t.timed]) := by
  obtain ⟨l', hok, htimed⟩ := makeActive_ok A t l UInt64.zero_le
    (by rw [UInt64.toNat_zero, Nat.zero_add]; exact h.bounded)
  refine ⟨l', hok, ?_, ?_⟩
  · rw [htimed, UInt64.toNat_zero, absolute_insert _ (Nat.zero_le _)]
    exact h.orders.enqueue t.timed
  · have hlatest := latest_insert (t := t.timed) (l.map Task.timed) (Nat.zero_le _)
    have ht : t.timed.1 < 2 ^ 64 := t.theResidualOps.toNat_lt
    have hl := h.bounded
    rw [htimed, UInt64.toNat_zero]
    omega

omit [Speed R] [DecidableLT R] in
private theorem promote_ok (n : Nat) {p : Processor R} {l : List Task} (pending : List Task)
    {jobs : List (ℕ × Job)} (h : Active l jobs) :
    ∃ q l' rest, Container.promote A n p l pending = .ok (q, l', rest) ∧
      ∃ jobs', Schedule.promote n p jobs (pending.map Task.timed) =
        ⟨q, jobs', rest.map Task.timed⟩ ∧ Active l' jobs' := by
  induction pending generalizing p l jobs with
  | nil => exact ⟨p, l, [], rfl, jobs, rfl, h⟩
  | cons t pending ih =>
    rw [List.map_cons, Container.promote, Schedule.promote]
    by_cases hstop : l.length = n ∨ p.memAvailable < t.theMemory
    · have hstop' : jobs.length = n ∨ p.memAvailable < t.timed.2.theMemory := h.length ▸ hstop
      rw [if_pos hstop, if_pos hstop']
      exact ⟨p, l, t :: pending, rfl, jobs, rfl, h⟩
    · have hstop' : ¬ (jobs.length = n ∨ p.memAvailable < t.timed.2.theMemory) :=
        h.length ▸ hstop
      rw [if_neg hstop, if_neg hstop', Processor.allocate_of_le fun hlt => hstop (.inr hlt)]
      obtain ⟨l', hok, hl'⟩ := h.makeActive A t
      simp only [Checks.ok_bind, hok]
      exact ih hl'

private theorem Active.front {t : Task} {l : List Task} {jobs : List (ℕ × Job)}
    (h : Active (t :: l) jobs) : nearest jobs = some t.timed ∧
      Active l (earlier t.timed.1 (jobs.eraseP fun u => u.1 = t.timed.1)) := by
  have horders := h.orders
  have hlatest : latest ((t :: l).map Task.timed) = t.timed.1 + latest (l.map Task.timed) :=
    List.sum_cons
  have hb := h.bounded
  simp only [List.map_cons, absolute, Nat.zero_add] at horders
  refine ⟨horders.nearest, ?_, by omega⟩
  have hrest := horders.tail.earlier fun u hu => le_of_mem_absolute hu
  rw [← absolute_earlier 0 t.timed.1, Nat.zero_add]
  exact hrest

private theorem Active.advance {t : Task} {l : List Task} {jobs : List (ℕ × Job)}
    (h : Active (t :: l) jobs) {k : UInt64} (hk : k ≤ t.theResidualOps) :
    Active ({ t with theResidualOps := t.theResidualOps - k } :: l) (earlier k.toNat jobs) := by
  have hk' := UInt64.le_iff_toNat_le.mp hk
  have hsub := UInt64.toNat_sub_of_le _ _ hk
  have horders := h.orders
  have hb := h.bounded
  simp only [List.map_cons, absolute, Nat.zero_add, Task.timed] at horders
  constructor
  · have hrest := horders.earlier (r := k.toNat) (by
      intro u hu
      rcases List.mem_cons.mp hu with rfl | hu
      · exact hk'
      · exact Nat.le_trans hk' (le_of_mem_absolute hu))
    simp only [List.map_cons, absolute, Nat.zero_add, Task.timed, hsub]
    rw [← absolute_earlier _ k.toNat, Nat.sub_add_cancel hk']
    exact hrest
  · simp only [latest, List.map_cons, List.sum_cons, Task.timed, hsub] at hb ⊢
    omega

omit [Speed R] [DecidableLT R] in
private theorem push_spec {c₀ : Container R} {p : Processor R} {c : Container R} {s : Schedule R}
    (h : Represents c₀ (p, c) s) (aReq : LambdaRequest) (aId : UInt64) :
    (∃ e, c.push A p aReq aId = .error e ∧ s.push c₀ aReq aId = .error e) ∨
    ∃ t s', c.push A p aReq aId = .ok t ∧ s.push c₀ aReq aId = .ok s' ∧ Represents c₀ t s' := by
  obtain ⟨hprocessor, hsame, hactive, hpending⟩ := h
  obtain ⟨q, jobs, pending⟩ := s
  dsimp only at hprocessor hsame hactive hpending
  subst hprocessor
  have hreq : c.requirements p aReq = c₀.requirements p aReq := by rw [hsame]; rfl
  have hworkers : c.theNumWorkers = c₀.theNumWorkers := by rw [hsame]
  have hexecute : c.theLambda = c₀.theLambda := by rw [hsame]
  simp only [Container.push, Schedule.push, hreq, hworkers, hexecute, hactive.length]
  cases c₀.requirements p aReq with
  | error e => exact .inl ⟨e, rfl, rfl⟩
  | ok myRequirements =>
    simp only [Checks.ok_bind]
    by_cases hwait : jobs.length = c₀.theNumWorkers ∨ p.memAvailable < myRequirements.theMemory
    · rw [if_pos hwait, if_pos hwait]
      refine .inr ⟨_, _, rfl, rfl, rfl, ?_, hactive, ?_⟩
      · rw [hsame]
      · rw [List.map_append, hpending]
        rfl
    · rw [if_neg hwait, if_neg hwait, Processor.allocate_of_le fun hlt => hwait (.inr hlt)]
      let myTask : Task := ⟨aId, myRequirements.theMemory, myRequirements.theOperations,
        c₀.theLambda.execute aReq⟩
      obtain ⟨l', hok, hl'⟩ := hactive.makeActive A myTask
      simp only [Checks.ok_bind, hok, myTask]
      refine .inr ⟨_, _, rfl, rfl, rfl, ?_, hl', hpending⟩
      rw [hsame]

omit [Speed R] [DecidableLT R] in
private theorem pop_spec {c₀ : Container R} {p : Processor R} {c : Container R} {s : Schedule R}
    (h : Represents c₀ (p, c) s) :
    ((c.pop A p).1.map fun t => some t.timed) = (s.pop c₀).1 ∧
      Represents c₀ (c.pop A p).2 (s.pop c₀).2 := by
  obtain ⟨hprocessor, hsame, hactive, hpending⟩ := h
  obtain ⟨q, jobs, pending⟩ := s
  dsimp only at hprocessor hsame hactive hpending
  subst hprocessor
  have hworkers : c.theNumWorkers = c₀.theNumWorkers := by rw [hsame]
  cases hl : c.theActive with
  | nil =>
    rw [hl] at hactive
    have hjobs : jobs = [] := List.length_eq_zero_iff.mp hactive.length.symm
    subst hjobs
    have hpop : c.pop A p = (throw "No active tasks", p, c) := by rw [Container.pop, hl]
    rw [hpop]
    exact ⟨rfl, rfl, hsame, hl ▸ hactive, hpending⟩
  | cons t l =>
    rw [hl] at hactive
    obtain ⟨hnearest, hrest⟩ := hactive.front
    rw [Container.pop, hl, Schedule.pop]
    simp only [hnearest]
    have hmemory : t.timed.2.theMemory = t.theMemory := rfl
    rw [hmemory]
    cases p.free t.theMemory with
    | error e =>
      refine ⟨rfl, rfl, ?_, hrest, hpending⟩
      rw [hsame]
    | ok q =>
      obtain ⟨q', l', rest, hok, jobs', hjobs, hl'⟩ :=
        promote_ok A c₀.theNumWorkers (p := q) c.thePending hrest
      simp only [hworkers, hok, ← hpending, hjobs]
      refine ⟨rfl, rfl, ?_, hl', rfl⟩
      rw [hsame]

private theorem advance_spec {c₀ : Container R} {p : Processor R} {c : Container R}
    {s : Schedule R} (h : Represents c₀ (p, c) s) {aElapsed : R} (he : ¬ aElapsed < 0) :
    ∃ c', c.advance A p aElapsed = .ok c' ∧
      Represents c₀ (p, c') (s.advance (s.theProcessor.timeToOps aElapsed).toNat) := by
  obtain ⟨hprocessor, hsame, hactive, hpending⟩ := h
  obtain ⟨q, jobs, pending⟩ := s
  dsimp only at hprocessor hsame hactive hpending
  subst hprocessor
  rw [Container.advance, if_neg he]
  cases hl : c.theActive with
  | nil =>
    rw [hl] at hactive
    have hjobs : jobs = [] := List.length_eq_zero_iff.mp hactive.length.symm
    subst hjobs
    exact ⟨c, rfl, rfl, hsame, hl ▸ hactive, hpending⟩
  | cons t l =>
    rw [hl] at hactive
    have hk : min t.theResidualOps (p.timeToOps aElapsed) ≤ t.theResidualOps := by
      rw [UInt64.le_iff_toNat_le, UInt64.toNat_min]
      exact Nat.min_le_left _ _
    have hadvance := hactive.advance hk
    rw [Schedule.advance, hactive.front.1]
    have hmin : min t.timed.1 (p.timeToOps aElapsed).toNat =
        (min t.theResidualOps (p.timeToOps aElapsed)).toNat := (UInt64.toNat_min ..).symm
    simp only [hmin]
    by_cases hzero : min t.theResidualOps (p.timeToOps aElapsed) = 0
    · refine ⟨c, by simp only [hzero, if_true]; rfl, rfl, hsame, ?_, hpending⟩
      rw [hzero, UInt64.sub_zero] at hadvance
      rw [hl, hzero]
      exact hadvance
    · simp only [hzero, if_false, A.sub_ok hk, Checks.ok_bind]
      refine ⟨_, rfl, rfl, ?_, hadvance, hpending⟩
      rw [hsame]

theorem call_spec {c₀ : Container R} {t : Processor R × Container R} {s : Schedule R}
    (h : Represents c₀ t s) (a : Call R) :
    (Container.call A t a).1 = (s.call c₀ a).1 ∧
      Represents c₀ (Container.call A t a).2 (s.call c₀ a).2 := by
  obtain ⟨p, c⟩ := t
  cases a with
  | push aReq aId =>
    rw [Container.call, Schedule.call]
    rcases push_spec A h aReq aId with ⟨e, hc, hs⟩ | ⟨t', s', hc, hs, h'⟩
    · rw [hc, hs]
      exact ⟨rfl, h⟩
    · rw [hc, hs]
      exact ⟨rfl, h'⟩
  | pop => exact pop_spec A h
  | advance aElapsed =>
    rw [Container.call, Schedule.call]
    by_cases he : aElapsed < 0
    · rw [Container.advance, if_pos he, if_pos he]
      exact ⟨rfl, h⟩
    · obtain ⟨c', hc, h'⟩ := advance_spec A h he
      rw [if_neg he, hc]
      exact ⟨rfl, h'⟩
  | others m n =>
    refine ⟨rfl, ?_, h.same, h.active, h.pending⟩
    rw [Container.call, Schedule.call, h.processor]

omit [Speed R] [DecidableLT R] in
theorem Represents.new {aName aProcessor : String} {aLambda : HostedLambda R} {aNumWorkers : Nat}
    {c₀ : Container R} (h : Container.new aName aProcessor aLambda aNumWorkers = .ok c₀)
    (p : Processor R) : Represents c₀ (p, c₀) ⟨p, [], []⟩ := by
  unfold Container.new at h
  split at h
  · cases h
  · cases h
    exact ⟨rfl, rfl, ⟨.nil, Nat.two_pow_pos 64⟩, rfl⟩

/-- A container serves its tasks like the plain schedule it stands for, whatever
the other containers do to the processor, in any arithmetic: in the machine's
own, as in checked arithmetic, where an operation that wraps is answered by an error. -/
theorem container_schedules {aName aProcessor : String} {aLambda : HostedLambda R}
    {aNumWorkers : Nat} {c₀ : Container R}
    (h : Container.new aName aProcessor aLambda aNumWorkers = .ok c₀) (p : Processor R)
    (calls : List (Call R)) :
    Runs.answers (Container.call A) (p, c₀) calls =
      Runs.answers (Schedule.call c₀) ⟨p, [], []⟩ calls ∧
    Represents c₀ (Runs.final (fun t a => (Container.call A t a).2) (p, c₀) calls)
      (Runs.final (fun s a => (Schedule.call c₀ s a).2) ⟨p, [], []⟩ calls) :=
  Runs.simulation (R := Represents c₀) (fun _ _ a hR => call_spec A hR a) (.new h p) calls

end Refinement

/-- A function that needs one byte and as many operations as its input is long. -/
def exampleLambda : HostedLambda ℚ where
  theName := "f0"
  theCopyInput := true
  theOutput := ""
  theConverter _ aReq := ⟨aReq.theInput.length.toUInt64, 1⟩

def exampleProcessor : Processor ℚ := ⟨10, 2, 100, 0, 0⟩

def exampleContainer : Container ℚ := ⟨"container0", "cpu0", exampleLambda, 2, [], []⟩

def exampleCalls : List (Call ℚ) :=
  [.push (exampleRequest "" ∅) 0, .advance (1 / 2), .push (exampleRequest "" ∅) 1, .pop]

theorem container_schedules_example :
    Runs.answers (Container.call .checked) (exampleProcessor, exampleContainer) exampleCalls =
      Runs.answers (Schedule.call exampleContainer) ⟨exampleProcessor, [], []⟩ exampleCalls :=
  have h : Container.new "container0" "cpu0" exampleLambda 2 = .ok exampleContainer := rfl
  (container_schedules .checked h exampleProcessor exampleCalls).1

end ServerlessEdge.Hosting
