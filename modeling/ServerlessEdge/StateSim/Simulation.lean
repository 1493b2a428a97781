import ServerlessEdge.Library.PoolProgress
import ServerlessEdge.StateSim.Loads

/-! Simulations in a pool of threads: each scenario of a batch is run by one of them, and the
performance of all is saved once all have ended. -/
namespace ServerlessEdge.StateSim
open Library Pools
open Std (ExtTreeMap)

/-- The scenario of a replication, under two policies, with the numbers it draws to shuffle its
jobs, and its output. -/
structure Desc where
  theScenario : Scenario
  theAllocPolicy : AllocPolicy
  theExecPolicy : ExecPolicy
  theRnd : ℕ → ℚ
  thePerformanceData : PerformanceData ℚ ℕ

namespace Simulation

/-- The scenarios whose performance is saved, in the order of their numbers. -/
def save (theDesc : List Desc) : List (PerformanceData ℚ ℕ) :=
  theDesc.map Desc.thePerformanceData

variable (dijkstra : Dijkstra)

/-- A scenario is run: the answer is whether no exception has been thrown, and there is none if
the run does not end, or does something that is not defined. -/
def execute (myDesc : Desc) : Option (Bool × Desc) :=
  match myDesc.theScenario.allocateTasks dijkstra myDesc.theAllocPolicy myDesc.theRnd with
  | .error (.thrown _) s => some (false, { myDesc with theScenario := s })
  | .error _ _ => none
  | .ok _ s =>
    match s.performance dijkstra myDesc.theExecPolicy with
    | .error (.thrown _) => some (false, { myDesc with theScenario := s })
    | .error _ => none
    | .ok d => some (true, { myDesc with theScenario := s, thePerformanceData := d })

/-- What a thread does with a number from the queue. -/
def work (myId : ℕ) (theDesc : List Desc) : Option (Bool × List Desc) :=
  match theDesc[myId]? with
  | none => none
  | some myDesc =>
    match execute dijkstra myDesc with
    | none => none
    | some done => some (done.1, theDesc.set myId done.2)

/-- No exception is thrown when the scenario is run. -/
def succeeds (myDesc : Desc) : Bool := (execute dijkstra myDesc).any Prod.fst

/-- The performance of a scenario that is run alone. -/
def alone (myDesc : Desc) : PerformanceData ℚ ℕ :=
  match execute dijkstra myDesc with
  | some done => done.2.thePerformanceData
  | none => myDesc.thePerformanceData

/-- Running the scenario comes to an end, with or without an exception. -/
def Ends (myDesc : Desc) : Prop := (execute dijkstra myDesc).isSome = true

/-- The verdict on a scenario of a batch. -/
def verdict (c : Pools.Call (List Desc)) (i : ℕ) : Bool := c.memory[i]?.any (succeeds dijkstra)

variable {dijkstra}

theorem work_eq_some {i : ℕ} {theDesc theDesc' : List Desc} {good : Bool} :
    work dijkstra i theDesc = some (good, theDesc') ↔ ∃ myDesc done, theDesc[i]? = some myDesc ∧
      execute dijkstra myDesc = some (good, done) ∧ theDesc' = theDesc.set i done := by
  constructor
  · intro h
    rw [work] at h
    split at h
    · cases h
    · rename_i myDesc hdesc
      split at h
      · cases h
      · rename_i done hrun
        cases h
        exact ⟨myDesc, done.2, hdesc, hrun, rfl⟩
  · rintro ⟨myDesc, done, hdesc, hrun, rfl⟩
    simp only [work, hdesc, hrun]

variable (dijkstra) in
/-- Where each scenario has been run at most once, it has been run as if alone. -/
structure Ran (theDesc : List Desc) (ran : List (ℕ × Bool)) (theDesc' : List Desc) : Prop where
  length : theDesc'.length = theDesc.length
  other : ∀ i, i ∉ ran.map Prod.fst → theDesc'[i]? = theDesc[i]?
  done : ∀ x ∈ ran, ∃ myDesc done, theDesc[x.1]? = some myDesc ∧
    execute dijkstra myDesc = some (x.2, done) ∧ theDesc'[x.1]? = some done

theorem performs_ran {theDesc theDesc' : List Desc} {ran : List (ℕ × Bool)}
    (h : Pool.Performs (work dijkstra) theDesc ran theDesc') (hnodup : (ran.map Prod.fst).Nodup) :
    Ran dijkstra theDesc ran theDesc' := by
  induction h with
  | nil => exact ⟨rfl, fun i _ => rfl, List.forall_mem_nil _⟩
  | @snoc ran m m' i good h hwork ih =>
    obtain ⟨myDesc, done, hdesc, hrun, rfl⟩ := work_eq_some.mp hwork
    rw [List.map_append, List.nodup_append] at hnodup
    obtain ⟨hbefore, -, hnew⟩ := hnodup
    have hran := ih hbefore
    have hnot : i ∉ ran.map Prod.fst := fun hin => hnew i hin i (by simp) rfl
    obtain ⟨hlt, -⟩ := List.getElem?_eq_some_iff.mp hdesc
    refine ⟨by rw [List.length_set, hran.length], fun j hj => ?_, fun x hx => ?_⟩
    · rw [List.map_append, List.mem_append, not_or] at hj
      have hne : i ≠ j := by
        rintro rfl
        exact hj.2 (by simp)
      rw [List.getElem?_set_ne hne, hran.other j hj.1]
    · rcases List.mem_append.mp hx with hold | hx
      · obtain ⟨d, r, hd, hr, hget⟩ := hran.done x hold
        have hne : i ≠ x.1 := by
          rintro rfl
          exact hnot (List.mem_map_of_mem hold)
        exact ⟨d, r, hd, hr, by rw [List.getElem?_set_ne hne, hget]⟩
      · rw [List.mem_singleton] at hx
        subst hx
        refine ⟨myDesc, done, by rw [← hran.other i hnot, hdesc], hrun, ?_⟩
        rw [List.getElem?_set_self hlt]

theorem steady : Pool.Steady (work dijkstra) (verdict dijkstra) := by
  intro c ran m h hnodup _ x hx
  obtain ⟨myDesc, done, hdesc, hrun, -⟩ := (performs_ran h hnodup).done x hx
  rw [verdict, hdesc, Option.any_some, succeeds, hrun, Option.any_some]

theorem allGood_eq {c : Pools.Call (List Desc)} (htotal : c.total = c.memory.length) :
    Pool.AllGood (verdict dijkstra) c = c.memory.all (succeeds dijkstra) := by
  rw [Bool.eq_iff_iff, Pool.AllGood, List.all_eq_true, List.all_eq_true, htotal]
  constructor
  · intro h d hd
    obtain ⟨i, hi⟩ := List.mem_iff_getElem?.mp hd
    obtain ⟨hlt, -⟩ := List.getElem?_eq_some_iff.mp hi
    have hgood := h i (List.mem_range.mpr hlt)
    rwa [verdict, hi, Option.any_some] at hgood
  · intro h i hi
    have hget := List.getElem?_eq_getElem (List.mem_range.mp hi)
    rw [verdict, hget, Option.any_some]
    exact h _ (List.getElem_mem _)

/-- All scenarios of the batch have been run, each as if alone. -/
theorem save_done {c : Pools.Call (List Desc)} (htotal : c.total = c.memory.length) {m : List Desc}
    (h : Pool.Done (work dijkstra) c m) : save m = c.memory.map (alone dijkstra) := by
  obtain ⟨ran, hperforms, hperm⟩ := h
  have hran := performs_ran hperforms (hperm.nodup_iff.mpr List.nodup_range)
  apply List.ext_getElem?
  intro i
  rw [save, List.getElem?_map, List.getElem?_map]
  by_cases hi : i < c.memory.length
  · have hmem : i ∈ ran.map Prod.fst := hperm.mem_iff.mpr (List.mem_range.mpr (htotal ▸ hi))
    obtain ⟨x, hx, rfl⟩ := List.mem_map.mp hmem
    obtain ⟨myDesc, done, hdesc, hrun, hget⟩ := hran.done x hx
    rw [hget, hdesc, Option.map_some, Option.map_some, alone, hrun]
  · have hlen := hran.length
    rw [List.getElem?_eq_none (by omega), List.getElem?_eq_none (by omega)]
    rfl

theorem forall₂_save {cs : List (Pools.Call (List Desc))} {saved : List (List Desc)}
    (h : List.Forall₂ (Pool.Done (work dijkstra)) cs saved)
    (htotal : ∀ c ∈ cs, c.total = c.memory.length) :
    saved.map save = cs.map fun c => c.memory.map (alone dijkstra) := by
  induction h with
  | nil => rfl
  | cons hdone _ ih =>
    obtain ⟨hhead, htail⟩ := List.forall_mem_cons.mp htotal
    rw [List.map_cons, List.map_cons, save_done hhead hdone, ih htail]

theorem completes {c : Pools.Call (List Desc)} (htotal : c.total = c.memory.length)
    (hends : ∀ d ∈ c.memory, Ends dijkstra d) : Pool.Completes (work dijkstra) c := by
  intro ran m i h hnodup hi hlt
  have hran := performs_ran h hnodup
  have hget := List.getElem?_eq_getElem (htotal ▸ hlt)
  obtain ⟨done, hdone⟩ := Option.isSome_iff_exists.mp (hends _ (List.getElem_mem (htotal ▸ hlt)))
  rw [Option.isSome_iff_exists]
  exact ⟨_, work_eq_some.mpr ⟨_, _, (hran.other i hi).trans hget, hdone, rfl⟩⟩

section Samples

/-- Two scenarios that differ in how their tasks are executed. -/
def twoDescs (s : Scenario) : List Desc :=
  [⟨s, .ProcNet, .PureFaaS, fun _ => 0, ⟨[], []⟩⟩, ⟨s, .ProcNet, .StateLocal, fun _ => 0, ⟨[], []⟩⟩]

/-- The second of two threads takes the first scenario, and is slower than the first thread. -/
def outOfTurn (theDesc : List Desc) : List (Pools.Event (List Desc)) :=
  [.call ⟨2, theDesc⟩, .dispatch, .take 1 0, .dispatch, .take 0 1, .work 0, .report 0, .work 1,
    .collect true, .report 1, .collect true, .finish]

def twoThreads : Except Failure (Scenario × Pool (List Desc)) := do
  let s ← sampleScenario [twoTasks]
  match (outOfTurn (twoDescs s)).foldlM (Pool.step (work joinedPaths)) (Pool.new 2 []) with
  | some p => pure (s, p)
  | none => .error .endless

theorem twoThreads_ends : ∃ s p,
    Pool.Reaches (work joinedPaths) (Pool.new 2 []) (outOfTurn (twoDescs s)) p ∧ p.main = .idle ∧
      (twoDescs s).all (succeeds joinedPaths) = true := by
  obtain ⟨⟨s, p⟩, hrun, hparts⟩ := Checks.ok_of_toOption (m := twoThreads)
    (f := fun r => (r.2.main, (twoDescs r.1).all (succeeds joinedPaths))) (b := (.idle, true))
    (by decide +kernel)
  simp only [Prod.mk.injEq] at hparts
  obtain ⟨s', -, hrun⟩ := Checks.bind_ok.mp hrun
  split at hrun
  · rename_i p' hp
    cases hrun
    exact ⟨s, p, hp, hparts⟩
  · cases hrun

end Samples

end Simulation

end ServerlessEdge.StateSim
