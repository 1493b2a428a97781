import Mathlib.Algebra.Order.BigOperators.Group.List
import ServerlessEdge.StateSim.FailedAllocation

/-! Three policies for the states of the functions: they stay where the functions are, go back
and forth between the client and a function that depends on them, or all go along with every
call. The processing is the same, the transfers grow. -/
namespace ServerlessEdge.StateSim
open Library Checks Triple

/-- The tasks of a job are identified by their positions, and depend on different states of it. -/
structure Job.Regular (job : Job) : Prop where
  taskIds : ∀ (i : ℕ) (myTask : Task), job.theTasks[i]? = some myTask → myTask.theId = i
  distinct : ∀ myTask ∈ job.theTasks, myTask.theDeps.Nodup
  deps : ∀ myTask ∈ job.theTasks, ∀ dep ∈ myTask.theDeps, dep < job.theStateSizes.length

/-- Every node reaches every other one. -/
def Network.Connected (net : Network) : Prop :=
  ∀ a ∈ net.nodes, ∀ b ∈ net.nodes, net.theGraph.Reachable a.theId b.theId

/-- The same processing, and no more network delay and data transferred. -/
structure AtMost (a b : JobStat) : Prop where
  proc : a.theProcDelay = b.theProcDelay
  net : a.theNetDelay ≤ b.theNetDelay
  data : a.theDataTransfer ≤ b.theDataTransfer

theorem AtMost.refl (a : JobStat) : AtMost a a := ⟨rfl, le_rfl, le_rfl⟩

theorem AtMost.merge {a b c d : JobStat} (h : AtMost a b) (h' : AtMost c d) :
    AtMost (merge a c) (merge b d) :=
  ⟨congrArg₂ (· + ·) h.proc h'.proc, add_le_add h.net h'.net, add_le_add h.data h'.data⟩

section Sizes

theorem Element.txTime_zero (e : Element) : e.txTime 0 = 0 := by
  cases e with
  | node myNode => rfl
  | link myLink => rw [Element.txTime, Nat.cast_zero, zero_mul, zero_div]

theorem Element.txTime_mono (e : Element) : Monotone fun aBytes => e.txTime aBytes := by
  intro m n hmn
  cases e with
  | node myNode => exact le_rfl
  | link myLink =>
    have hcapacity := myLink.capacity_pos
    have hle : (m : ℚ) ≤ n := Nat.cast_le.mpr hmn
    simp only [Element.txTime]
    gcongr

/-- States that differ and exist have no more than the size of all states. -/
theorem sum_deps_le {sizes deps : List ℕ} (hnodup : deps.Nodup) (hlt : ∀ dep ∈ deps, dep < sizes.length) :
    (deps.map fun dep => sizes.getD dep 0).sum ≤ sizes.sum := by
  have hsub : deps ⊆ List.range sizes.length := fun dep hdep => List.mem_range.mpr (hlt dep hdep)
  obtain ⟨l, hperm, hl⟩ := hnodup.subperm hsub
  have hall : (List.range sizes.length).map (fun i => sizes.getD i 0) = sizes := by
    apply List.ext_getElem
    · rw [List.length_map, List.length_range]
    · intro i hi hi'
      rw [List.getElem_map, List.getElem_range, List.getD_eq_getElem?_getD,
        List.getElem?_eq_getElem hi', Option.getD_some]
  calc (deps.map fun dep => sizes.getD dep 0).sum
      = (l.map fun dep => sizes.getD dep 0).sum := (hperm.map _).sum_eq.symm
    _ ≤ ((List.range sizes.length).map fun dep => sizes.getD dep 0).sum :=
        (hl.map _).sum_le_sum fun _ _ => Nat.zero_le _
    _ = sizes.sum := by rw [hall]

variable {job : Job} {myTask : Task}

theorem stateSize_le (hjob : job.Regular) (htask : myTask ∈ job.theTasks) :
    ∃ k, stateSize job myTask false = .ok k ∧ k ≤ job.theStateSizes.sum := by
  have hsizes : myTask.theDeps.mapM (access job.theStateSizes) =
      .ok (myTask.theDeps.map fun dep => job.theStateSizes.getD dep 0) :=
    mapM_of_ok fun dep hdep => access_ok 0 (hjob.deps _ htask dep hdep)
  refine ⟨_, ?_, sum_deps_le (hjob.distinct _ htask) (hjob.deps _ htask)⟩
  rw [stateSize, if_neg Bool.false_ne_true, hsizes]
  rfl

/-- The size of the return value: that of the argument of the next task, if there is one. -/
def outSize (job : Job) (i : ℕ) : ℕ := ((job.theTasks[i + 1]?).map Task.theSize).getD job.theRetSize

/-- The next task is the same, whether found by position or by identifier. -/
theorem allStatesArgSizes_ok (hjob : job.Regular) {i : ℕ} (htask : job.theTasks[i]? = some myTask)
    {aAll : Bool} {k : ℕ} (hk : stateSize job myTask aAll = .ok k) :
    allStatesArgSizes job myTask aAll = .ok (k + myTask.theSize, k + outSize job i) := by
  have hlt := (List.getElem?_eq_some_iff.mp htask).1
  rw [allStatesArgSizes, hk, ok_bind, hjob.taskIds i myTask htask, outSize]
  by_cases hlast : i + 1 = job.theTasks.length
  · rw [if_pos hlast, List.getElem?_eq_none hlast.ge]
    rfl
  · have hnext : i + 1 < job.theTasks.length := by omega
    rw [if_neg hlast, access, List.getElem?_eq_getElem hnext]
    rfl

end Sizes

namespace Scenario

variable {dijkstra : Dijkstra} {s : Scenario}

/-- A node of the network with a load. -/
def Works (s : Scenario) (n : Node) : Prop :=
  n ∈ s.theNetwork.nodes ∧ ∃ load, s.theLoad[n.theId]? = some load ∧ 0 < load

/-- There are a client for each job and a node with a load for each task. -/
structure Allocated (s : Scenario) : Prop where
  clients : ∀ myJob ∈ s.theJobs, ∃ n ∈ s.theNetwork.nodes, s.theClients[myJob.theId]? = some n
  nodes : ∀ myJob ∈ s.theJobs, ∀ myTask ∈ myJob.theTasks,
    ∃ n, s.nodeOf myJob.theId myTask.theId = .ok n ∧ s.Works n

/-- The setting of the comparison. -/
structure Comparable (dijkstra : Dijkstra) (s : Scenario) : Prop where
  network : s.theNetwork.WellFormed
  finds : Finds s.theNetwork dijkstra
  connected : s.theNetwork.Connected
  jobs : ∀ myJob ∈ s.theJobs, myJob.Regular
  allocated : s.Allocated

section Costs

variable {a b : Node} (h : Comparable dijkstra s) (ha : a ∈ s.theNetwork.nodes)
  (hb : b ∈ s.theNetwork.nodes)
include h ha hb

theorem wayTo_ok : ∃ way, s.theNetwork.wayTo s.theNetwork.theElements.length
    (dijkstra s.theNetwork.theGraph b.theId) a.theId b.theId = .ok way :=
  wayTo_of_reachable h.network (h.finds.tree h.network hb) (node_lt h.network hb)
    (h.connected b hb a ha) le_rfl

/-- The transmission time between two nodes grows with the number of bytes. -/
theorem txTime_cost : ∃ cost : ℕ → ℚ, Monotone cost ∧
    ∀ aBytes, s.txTime dijkstra a b aBytes = .ok (cost aBytes) := by
  obtain ⟨way, hway⟩ := wayTo_ok h ha hb
  by_cases hname : a.theName = b.theName
  · refine ⟨fun _ => 0, monotone_const, fun aBytes => ?_⟩
    rw [txTime, txTimeOf, if_pos (.inr hname)]
  · refine ⟨fun aBytes => (way.map (Element.txTime aBytes)).sum, fun m n hmn => ?_, fun aBytes => ?_⟩
    · exact List.sum_le_sum fun e _ => e.txTime_mono hmn
    · rw [txTime, txTimeOf]
      split
      · rename_i hzero
        have hbytes : aBytes = 0 := hzero.resolve_right hname
        have hnone : (way.map (Element.txTime 0)).sum = 0 := by
          apply List.sum_eq_zero
          intro t ht
          obtain ⟨e, -, rfl⟩ := List.mem_map.mp ht
          exact e.txTime_zero
        rw [hbytes]
        exact congrArg Except.ok hnone.symm
      · rw [hway, ok_bind]
        rfl

theorem hops_ok : ∃ n, s.hops dijkstra a b = .ok n := by
  obtain ⟨way, hway⟩ := wayTo_ok h ha hb
  rw [hops, hopsOf, hway, ok_bind]
  exact ⟨_, rfl⟩

end Costs

theorem procTime_ok {n : Node} (hn : s.Works n) (aOps : ℕ) : ∃ t, s.procTime aOps n = .ok t := by
  obtain ⟨load, hload, hpos⟩ := hn.2
  rw [procTime]
  split
  · exact ⟨0, rfl⟩
  · rw [access_eq_ok.mpr hload, ok_bind, if_neg hpos.ne']
    exact ⟨_, rfl⟩

/-- More bytes cost no less, at the same processing. -/
theorem execStatsTwoWay_atMost (h : Comparable dijkstra s) {a b : Node} (ha : a ∈ s.theNetwork.nodes)
    (hb : s.Works b) (aOps : ℕ) {i i' o o' : ℕ} (hi : i ≤ i') (ho : o ≤ o') :
    ∃ stat stat', s.execStatsTwoWay dijkstra aOps i o a b = .ok stat ∧
      s.execStatsTwoWay dijkstra aOps i' o' a b = .ok stat' ∧ AtMost stat stat' := by
  obtain ⟨t, ht⟩ := procTime_ok hb aOps
  obtain ⟨there, hthere, htx⟩ := txTime_cost h ha hb.1
  obtain ⟨back, hback, htx'⟩ := txTime_cost h hb.1 ha
  obtain ⟨n, hn⟩ := hops_ok h ha hb.1
  obtain ⟨m, hm⟩ := hops_ok h hb.1 ha
  have hstat : ∀ i o, s.execStatsTwoWay dijkstra aOps i o a b =
      .ok ⟨t, there i + back o, n * i + m * o, 0⟩ := by
    intro i o
    rw [execStatsTwoWay, ht, ok_bind, htx, ok_bind, htx', ok_bind, hn, ok_bind, hm, ok_bind]
    rfl
  refine ⟨_, _, hstat i o, hstat i' o', rfl, add_le_add (hthere hi) (hback ho), ?_⟩
  exact add_le_add (Nat.mul_le_mul_left n hi) (Nat.mul_le_mul_left m ho)

/-- Whatever a task adds to the performance under the first policy, it adds no less under the
second one. -/
def Cheaper (dijkstra : Dijkstra) (s : Scenario) (aPolicy aOther : ExecPolicy) : Prop :=
  ∀ myJob ∈ s.theJobs, ∀ i myTask, myJob.theTasks[i]? = some myTask →
    ∀ myClient ∈ s.theNetwork.nodes, ∀ myNode, s.Works myNode →
    ∀ p q : Progress, AtMost p.myExecStat q.myExecStat →
    ∃ r r', s.execute dijkstra aPolicy myJob myClient myNode myTask myJob.theTasks[i + 1]? p = .ok r ∧
      s.execute dijkstra aOther myJob myClient myNode myTask myJob.theTasks[i + 1]? q = .ok r' ∧
      AtMost r.1 r'.1

theorem inFunction_cheaper (h : Comparable dijkstra s) :
    s.Cheaper dijkstra .UnchainedInFunction .UnchainedInClient := by
  intro myJob hjob i myTask htask myClient hclient myNode hnode p q hpq
  have hregular := h.jobs myJob hjob
  obtain ⟨k, hk, -⟩ := stateSize_le hregular (List.mem_of_getElem? htask)
  obtain ⟨stat, stat', hstat, hstat', hle⟩ := execStatsTwoWay_atMost h hclient hnode myTask.theOps
    (Nat.le_add_left myTask.theSize k) (Nat.le_add_left (outSize myJob i) k)
  refine ⟨(merge p.myExecStat stat, p.myStateLocation), (merge q.myExecStat stat', q.myStateLocation),
    ?_, ?_, hpq.merge hle⟩
  · rw [outSize] at hstat
    rw [execute, callFunction, hstat, ok_bind, hk]
    rfl
  · rw [execute, allStatesArgSizes_ok hregular htask hk, ok_bind, hstat', ok_bind]
    rfl

theorem inClient_cheaper (h : Comparable dijkstra s) :
    s.Cheaper dijkstra .UnchainedInClient .PureFaaS := by
  intro myJob hjob i myTask htask myClient hclient myNode hnode p q hpq
  have hregular := h.jobs myJob hjob
  obtain ⟨k, hk, hle⟩ := stateSize_le hregular (List.mem_of_getElem? htask)
  have hall : stateSize myJob myTask true = .ok myJob.theStateSizes.sum := rfl
  obtain ⟨stat, stat', hstat, hstat', hatMost⟩ := execStatsTwoWay_atMost h hclient hnode myTask.theOps
    (Nat.add_le_add_right hle myTask.theSize) (Nat.add_le_add_right hle (outSize myJob i))
  refine ⟨(merge p.myExecStat stat, p.myStateLocation), (merge q.myExecStat stat', q.myStateLocation),
    ?_, ?_, hpq.merge hatMost⟩
  · rw [execute, allStatesArgSizes_ok hregular htask hk, ok_bind, hstat, ok_bind]
    rfl
  · rw [execute, allStatesArgSizes_ok hregular htask hall, ok_bind, hstat', ok_bind]
    rfl

/-- A job, from its tasks. -/
theorem measureJob_atMost (h : Comparable dijkstra s) {aPolicy aOther : ExecPolicy}
    (hcheaper : s.Cheaper dijkstra aPolicy aOther) {myJob : Job} (hjob : myJob ∈ s.theJobs) :
    ∃ stat stat', s.measureJob dijkstra aPolicy myJob = .ok stat ∧
      s.measureJob dijkstra aOther myJob = .ok stat' ∧ AtMost stat stat' := by
  obtain ⟨myClient, hmem, hclient⟩ := h.allocated.clients myJob hjob
  have hloop := @foldlM_pair _ _ _ _ (s.measureTask dijkstra aPolicy myJob myClient)
    (s.measureTask dijkstra aOther myJob myClient)
    (fun p q => AtMost p.myExecStat q.myExecStat) myJob.theTasks.zipIdx ?_
    ⟨⟨0, 0, 0, myJob.theTasks.length⟩, none, List.replicate myJob.theStateSizes.length myClient⟩
    ⟨⟨0, 0, 0, myJob.theTasks.length⟩, none, List.replicate myJob.theStateSizes.length myClient⟩
    (AtMost.refl _)
  · obtain ⟨p, q, hp, hq, hpq⟩ := hloop
    refine ⟨p.myExecStat, q.myExecStat, ?_, ?_, hpq⟩
    · rw [measureJob, access_eq_ok.mpr hclient, ok_bind, hp]
      rfl
    · rw [measureJob, access_eq_ok.mpr hclient, ok_bind, hq]
      rfl
  · rintro ⟨myTask, i⟩ hx p q hpq
    have htask := List.mem_zipIdx_iff_getElem?.mp hx
    obtain ⟨myNode, hnode, hworks⟩ := h.allocated.nodes myJob hjob myTask (List.mem_of_getElem? htask)
    obtain ⟨r, r', hr, hr', hle⟩ :=
      hcheaper myJob hjob i myTask htask myClient hmem myNode hworks p q hpq
    refine ⟨⟨r.1, some myNode, r.2⟩, ⟨r'.1, some myNode, r'.2⟩, ?_, ?_, hle⟩
    · rw [measureTask, hnode, ok_bind, hr]
      rfl
    · rw [measureTask, hnode, ok_bind, hr']
      rfl

theorem performance_ok {aPolicy : ExecPolicy} {theJobData : List JobStat} (hload : s.theLoad ≠ [])
    (hcover : ∀ n ∈ s.theNetwork.theProcessing, n.theId < s.theLoad.length)
    (hjobs : s.theJobs.mapM (s.measureJob dijkstra aPolicy) = .ok theJobData) :
    ∃ d, s.performance dijkstra aPolicy = .ok d ∧ d.theJobData = theJobData := by
  have hloads : s.theNetwork.theProcessing.mapM (fun myNode => access s.theLoad myNode.theId) =
      .ok (s.theNetwork.theProcessing.map fun myNode => s.theLoad.getD myNode.theId 0) :=
    mapM_of_ok fun n hn => access_ok 0 (hcover n hn)
  rw [performance, if_neg hload, hjobs, ok_bind, hloads, ok_bind]
  exact ⟨_, rfl, rfl⟩

/-- What the allocation leaves when it returns. -/
theorem allocated_of_allocateTasks {env : Env} {last : Option Scenario} {aPolicy : AllocPolicy}
    {myRnd : ℕ → ℚ} {s' : Scenario} (hmade : Made env dijkstra s last) (hnet : s.theNetwork.WellFormed)
    (hids : ById s.theJobs) (hjobs : ∀ myJob ∈ s.theJobs, myJob.Regular)
    (h : allocateTasks dijkstra aPolicy myRnd s = .ok () s') : s'.Allocated := by
  obtain ⟨choices, htasks, hfollows⟩ := wp_of_ok (allocateTasks_spec myRnd s) h id
  have hsound := hmade.sound.of_follows hfollows
  have hids' : ById s'.theJobs := hfollows.jobs ▸ hids
  constructor
  · intro myJob hmem
    obtain ⟨i, hi⟩ := List.mem_iff_getElem?.mp hmem
    have hlt : i < s'.theClients.length := hsound.clients ▸ (List.getElem?_eq_some_iff.mp hi).1
    refine ⟨s'.theClients[i], hsound.nodes _ (List.getElem_mem hlt), ?_⟩
    rw [hids' i myJob hi, List.getElem?_eq_getElem hlt]
  · intro myJob hmem myTask htask
    obtain ⟨i, hi⟩ := List.mem_iff_getElem?.mp hmem
    obtain ⟨t, ht⟩ := List.mem_iff_getElem?.mp htask
    rw [hids' i myJob hi, (hjobs myJob (hfollows.jobs ▸ hmem)).taskIds t myTask ht]
    have hall : (i, t) ∈ choices.map Choice.task := by
      rw [htasks.mem_iff, allTasks, List.mem_flatMap]
      rw [hfollows.jobs] at hi
      refine ⟨i, List.mem_range.mpr (List.getElem?_eq_some_iff.mp hi).1, ?_⟩
      rw [tasksOfJob, hi]
      exact List.mem_map.mpr ⟨t, List.mem_range.mpr (List.getElem?_eq_some_iff.mp ht).1, rfl⟩
    obtain ⟨c, hc, hct⟩ := List.mem_map.mp hall
    obtain ⟨rfl, rfl⟩ := Prod.mk.inj hct
    refine ⟨c.myNode, (hfollows.stored hids _ _ _).mpr hc, ?_, hfollows.load_pos hc⟩
    rw [hfollows.network]
    exact hnet.processing _ (hfollows.processing hc)

/-- With states in the functions a job has no more network delay and transfers no more data than
with states at the client, and with these no more than with states in the arguments. The processing
delay is the same. -/
theorem policies_ordered (env : Env) (dijkstra : Dijkstra) (s : Scenario)
    (hnet : Accepted env s.theNetwork) (hfinds : Finds s.theNetwork dijkstra)
    (hconnected : s.theNetwork.Connected) (hjobs : ∀ myJob ∈ s.theJobs, myJob.Regular)
    (hallocated : s.Allocated) :
    (∀ myJob ∈ s.theJobs, ∃ f c p, s.measureJob dijkstra .UnchainedInFunction myJob = .ok f ∧
      s.measureJob dijkstra .UnchainedInClient myJob = .ok c ∧
      s.measureJob dijkstra .PureFaaS myJob = .ok p ∧ AtMost f c ∧ AtMost c p) ∧
    (s.theLoad ≠ [] → (∀ n ∈ s.theNetwork.theProcessing, n.theId < s.theLoad.length) →
      ∃ f c p, s.performance dijkstra .UnchainedInFunction = .ok f ∧
        s.performance dijkstra .UnchainedInClient = .ok c ∧ s.performance dijkstra .PureFaaS = .ok p ∧
        List.Forall₂ AtMost f.theJobData c.theJobData ∧
        List.Forall₂ AtMost c.theJobData p.theJobData) := by
  have h : Comparable dijkstra s := ⟨hnet.wellFormed, hfinds, hconnected, hjobs, hallocated⟩
  constructor
  · intro myJob hjob
    obtain ⟨f, c, hf, hc, hfc⟩ := measureJob_atMost h (inFunction_cheaper h) hjob
    obtain ⟨c', p, hc', hp, hcp⟩ := measureJob_atMost h (inClient_cheaper h) hjob
    obtain rfl : c = c' := Except.ok.inj (hc.symm.trans hc')
    exact ⟨f, c, p, hf, hc, hp, hfc, hcp⟩
  · intro hload hcover
    obtain ⟨fs, cs, hfs, hcs, hfc⟩ := mapM_pair fun myJob hjob =>
      measureJob_atMost h (inFunction_cheaper h) hjob
    obtain ⟨cs', ps, hcs', hps, hcp⟩ := mapM_pair fun myJob hjob =>
      measureJob_atMost h (inClient_cheaper h) hjob
    obtain rfl : cs = cs' := Except.ok.inj (hcs.symm.trans hcs')
    obtain ⟨f, hf, rfl⟩ := performance_ok hload hcover hfs
    obtain ⟨c, hc, rfl⟩ := performance_ok hload hcover hcs
    obtain ⟨p, hp, rfl⟩ := performance_ok hload hcover hps
    exact ⟨f, c, p, hf, hc, hp, hfc, hcp⟩

end Scenario

section Samples

/-- A job with two states, one for each of its tasks. -/
def twoStates : Job := ⟨0, 0, [⟨0, 1, 1, "f", [0]⟩, ⟨1, 1, 1, "f", [1]⟩], [5, 7], 1⟩

theorem regular_twoStates : twoStates.Regular := by
  refine ⟨fun i myTask h => ?_, by decide, by decide⟩
  match i, h with
  | 0, h =>
    cases h
    rfl
  | 1, h =>
    cases h
    rfl

theorem Scenario.policies_ordered_twoStates : ∃ s : Scenario, s.theJobs = [twoStates] ∧
    s.theLoad = [1, 1] ∧
    ∃ f c p, s.performance joinedPaths .UnchainedInFunction = .ok f ∧
      s.performance joinedPaths .UnchainedInClient = .ok c ∧ s.performance joinedPaths .PureFaaS = .ok p ∧
      List.Forall₂ AtMost f.theJobData c.theJobData ∧
      List.Forall₂ AtMost c.theJobData p.theJobData := by
  obtain ⟨⟨s, s'⟩, hrun, hparts⟩ := ok_of_toOption (m := sampleAllocation [twoStates])
    (f := fun r => ((r.2.theLoad, r.2.theNetwork.nodes),
      r.2.theNetwork.theGraph.vertices, r.2.theNetwork.theGraph.edges))
    (b := (([1, 1], [nodeA, nodeB]), 2, [(0, 1, 0), (1, 0, 0)])) (by decide +kernel)
  simp only [Prod.mk.injEq] at hparts
  obtain ⟨⟨hload, hnodes⟩, hvertices, hedges⟩ := hparts
  have hgraph : s'.theNetwork.theGraph = ⟨2, [(0, 1, 0), (1, 0, 0)]⟩ := by rw [← hvertices, ← hedges]
  obtain ⟨hs, hrun⟩ := sampleAllocation_ok hrun
  obtain ⟨hnet, hjobs⟩ := sampleScenario_ok hs
  obtain ⟨choices, -, hfollows⟩ := wp_of_ok (allocateTasks_spec _ s) hrun id
  have hids : ById s.theJobs := by
    rw [hjobs]
    intro i myJob hi
    obtain ⟨rfl, rfl⟩ : i = 0 ∧ myJob = twoStates := by
      cases i <;> cases hi
      exact ⟨rfl, rfl⟩
    rfl
  have hregular : ∀ myJob ∈ s.theJobs, myJob.Regular := by
    rw [hjobs]
    exact List.forall_mem_singleton.mpr regular_twoStates
  have hallocated := allocated_of_allocateTasks (sampleScenario_made hs) hnet.wellFormed hids hregular hrun
  have hfinds : Finds s'.theNetwork joinedPaths := by
    rw [Finds, hgraph]
    exact fun aDstId h => joinedPaths_tree h
  have hconnected : s'.theNetwork.Connected := by
    rw [Network.Connected, hnodes, hgraph]
    simp only [List.forall_mem_cons, List.not_mem_nil, false_implies, implies_true, and_true]
    have hab : Graph.Edge ⟨2, [(0, 1, 0), (1, 0, 0)]⟩ nodeA.theId nodeB.theId := ⟨0, by decide⟩
    have hba : Graph.Edge ⟨2, [(0, 1, 0), (1, 0, 0)]⟩ nodeB.theId nodeA.theId := ⟨0, by decide⟩
    exact ⟨⟨.refl, .single hab⟩, .single hba, .refl⟩
  rw [← hfollows.network] at hnet
  rw [← hfollows.jobs] at hregular
  obtain ⟨-, hmeasured⟩ := policies_ordered plainEnv joinedPaths s' hnet hfinds hconnected hregular hallocated
  refine ⟨s', hfollows.jobs.trans hjobs, hload, hmeasured ?_ ?_⟩
  · rw [hload]
    exact List.cons_ne_nil _ _
  · intro n hn
    have hmem := hnet.wellFormed.processing n hn
    rw [hnodes] at hmem
    rw [hload]
    exact (List.forall_mem_cons.mpr ⟨by decide, List.forall_mem_singleton.mpr (by decide)⟩ :
      ∀ n ∈ [nodeA, nodeB], n.theId < 2) n hmem

end Samples

end ServerlessEdge.StateSim
