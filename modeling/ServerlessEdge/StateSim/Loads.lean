import ServerlessEdge.StateSim.Measures
import ServerlessEdge.StateSim.Termination

/-! The loads after an allocation: the numbers of the tasks on the nodes. -/
namespace ServerlessEdge.StateSim
open Library Checks Triple

theorem length_allTasks (theJobs : List Job) :
    (allTasks theJobs).length = (theJobs.map fun myJob => myJob.theTasks.length).sum := by
  rw [allTasks, List.length_flatMap]
  congr 1
  apply List.ext_getElem
  · rw [List.length_map, List.length_range, List.length_map]
  · intro i hi hi'
    rw [List.length_map] at hi'
    rw [List.getElem_map, List.getElem_range, List.getElem_map, tasksOfJob,
      List.getElem?_eq_getElem hi']
    simp only [List.length_map, List.length_range]

theorem loadOf_eq_zero {choices : List Choice} {i : ℕ} (h : ∀ c ∈ choices, c.myNode.theId ≠ i) :
    loadOf choices i = 0 := by
  rw [loadOf, List.countP_eq_zero]
  intro c hc
  simp only [decide_eq_true_eq]
  exact h c hc

namespace Scenario

variable {dijkstra : Dijkstra} {aPolicy : AllocPolicy} {s₀ s : Scenario} {choices : List Choice}

theorem Follows.network (h : Follows dijkstra aPolicy s₀ choices s) : s.theNetwork = s₀.theNetwork := by
  obtain ⟨l, a, rfl⟩ := h.frame
  rfl

/-- Tasks are allocated to processing nodes only. -/
theorem Follows.processing (h : Follows dijkstra aPolicy s₀ choices s) {c : Choice} (hc : c ∈ choices) :
    c.myNode ∈ s₀.theNetwork.theProcessing := by
  obtain ⟨k, hk⟩ := List.mem_iff_getElem?.mp hc
  obtain ⟨myJob, myClient, myTask, -, -, -, hbest⟩ := h.chosen k c hk
  exact hbest.1.1

/-- The load of a node, or 0 if its identifier is beyond the loads. -/
theorem Follows.load_eq (h : Follows dijkstra aPolicy s₀ choices s) (i : ℕ) :
    s.theLoad[i]?.getD 0 = loadOf choices i := by
  cases hget : s.theLoad[i]? with
  | some load => exact h.loads i load hget
  | none =>
    refine (loadOf_eq_zero fun c hc => ?_).symm
    exact ne_of_lt ((h.inside c hc).trans_le (List.getElem?_eq_none_iff.mp hget))

/-- The nodes of tasks have loads. -/
theorem Follows.load_pos (h : Follows dijkstra aPolicy s₀ choices s) {c : Choice} (hc : c ∈ choices) :
    ∃ load, s.theLoad[c.myNode.theId]? = some load ∧ 0 < load := by
  refine ⟨_, List.getElem?_eq_getElem (h.inside c hc), ?_⟩
  rw [h.loads _ _ (List.getElem?_eq_getElem (h.inside c hc)), loadOf, List.countP_pos_iff]
  exact ⟨c, hc, decide_eq_true rfl⟩

/-- The load of a node against the table of the allocation. -/
theorem Follows.count_eq (h : Follows dijkstra aPolicy s₀ choices s) (hnet : s₀.theNetwork.WellFormed)
    (hids : ById s₀.theJobs) (htasks : (choices.map Choice.task).Perm (allTasks s₀.theJobs)) {n : Node}
    (hn : n ∈ s₀.theNetwork.nodes) :
    loadOf choices n.theId =
      (allTasks s₀.theJobs).countP fun x => (s.nodeOf x.1 x.2).toOption = some n := by
  rw [← htasks.countP_eq, List.countP_map, loadOf]
  apply List.countP_congr
  intro c hc
  have hstored : s.nodeOf c.myJobId c.myTaskId = .ok c.myNode := (h.stored hids _ _ _).mpr hc
  simp only [Function.comp_apply, Choice.task, hstored, Except.toOption, decide_eq_true_eq,
    Option.some_inj]
  refine ⟨fun hid => ?_, congrArg Node.theId⟩
  have hat := hnet.ids _ (hnet.processing _ (h.processing hc))
  rw [hid, hnet.ids n hn, Option.some_inj] at hat
  exact (Element.node.inj hat).symm

end Scenario

section Samples

/-- A scenario on two nodes joined by edges, one of which is a client. -/
def sampleScenario (theJobs : List Job) : Except Failure Scenario := do
  let net ← fromSets [nodeA, nodeB] [] [("a", ["b"]), ("b", ["a"])] ["a"]
  Scenario.create ((∅ : Std.ExtTreeMap String Affinity).insert "f" .Cpu) net theJobs fun _ => 0

def twoTasks : Job := ⟨0, 0, [⟨0, 1, 1, "f", []⟩, ⟨1, 1, 1, "f", []⟩], [], 1⟩

/-- The allocation of the tasks of some jobs on the two nodes. -/
def sampleAllocation (theJobs : List Job) : Except Failure (Scenario × Scenario) := do
  let s ← sampleScenario theJobs
  match Scenario.allocateTasks joinedPaths .ProcNet (fun _ => 0) s with
  | .ok _ s' => pure (s, s')
  | .error e _ => .error e

theorem sampleScenario_ok {theJobs : List Job} {s : Scenario} (h : sampleScenario theJobs = .ok s) :
    Accepted plainEnv s.theNetwork ∧ s.theJobs = theJobs := by
  obtain ⟨net, hnet, h⟩ := bind_ok.mp h
  obtain ⟨theClients, -, h⟩ := bind_ok.mp h
  cases h
  exact ⟨.sets hnet, rfl⟩

theorem sampleAllocation_ok {theJobs : List Job} {s s' : Scenario}
    (h : sampleAllocation theJobs = .ok (s, s')) : sampleScenario theJobs = .ok s ∧
      Scenario.allocateTasks joinedPaths .ProcNet (fun _ => 0) s = .ok () s' := by
  obtain ⟨s₁, hs₁, h⟩ := bind_ok.mp h
  split at h
  · rename_i hrun
    cases h
    exact ⟨hs₁, hrun⟩
  · cases h

theorem byId_twoTasks : ById [twoTasks] := by
  intro i myJob h
  cases i with
  | zero =>
    cases h
    rfl
  | succ i => cases h

end Samples

end ServerlessEdge.StateSim
