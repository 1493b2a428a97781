import ServerlessEdge.StateSim.Allocation

/-! What measuring the performance may end with: an exception only for missing parameters of the
cloud, and no division by zero if all tasks are on nodes with a load. -/
namespace ServerlessEdge.StateSim
open Library Checks Triple

/-- The failures that are possible wherever the performance is measured. -/
structure Usual (E : Failure → Prop) : Prop where
  outOfRange : E .outOfRange
  endless : E .endless
  cloud : E (.thrown "Cloud parameters not set")

section Network

variable {E : Failure → Prop} (hE : Usual E) (net : Network) (dijkstra : Dijkstra) (steps : ℕ)
include hE

theorem access_usual {α : Type} (l : List α) (i : ℕ) : FailsOnly E (access l i) := by
  intro e he
  rw [access_fails e he]
  exact hE.outOfRange

theorem wayTo_usual (myCacheEntry : PredVec) (aSrcId aDstId : ℕ) :
    FailsOnly E (net.wayTo steps myCacheEntry aSrcId aDstId) := by
  rw [Network.wayTo]
  split
  · exact failsOnly_error hE.endless
  · exact failsOnly_mapM fun i _ => access_usual hE _ i

theorem txTimeOf_usual (aSrc aDst : Node) (aBytes : ℕ) :
    FailsOnly E (txTimeOf net dijkstra steps aSrc aDst aBytes) := by
  rw [txTimeOf]
  split
  · exact failsOnly_pure 0
  · apply failsOnly_bind (wayTo_usual hE net steps _ _ _)
    intro way hway
    exact failsOnly_pure _

theorem hopsOf_usual (aSrc aDst : Node) : FailsOnly E (hopsOf net dijkstra steps aSrc aDst) := by
  rw [hopsOf]
  apply failsOnly_bind (wayTo_usual hE net steps _ _ _)
  intro way hway
  exact failsOnly_pure _

theorem worstOf_usual (myCandidate : Node) : FailsOnly E (worstOf net dijkstra steps myCandidate) := by
  rw [worstOf]
  refine failsOnly_bind (failsOnly_mapM fun myTarget _ => ?_) fun ts _ => failsOnly_pure _
  apply failsOnly_bind (txTimeOf_usual hE net dijkstra steps _ _ _)
  intro there hthere
  apply failsOnly_bind (txTimeOf_usual hE net dijkstra steps _ _ _)
  intro back hback
  exact failsOnly_pure _

theorem centralOf_usual (s : Option Node) :
    wp (fun _ => False) (centralOf net dijkstra steps) (fun _ _ => True) (fun e _ => E e) s := by
  rw [centralOf]
  apply wp_get_bind
  cases s with
  | some myNode => exact wp_pure trivial
  | none =>
    refine wp_bind (fun _ _ => id) (wp_foldlM (fun _ _ _ => True) (fun _ _ _ => id) _ ?_
      (fun _ _ => id) trivial) fun _ _ _ => .inr trivial
    intro l x r b s' _ _
    rw [tryCandidateOf]
    refine wp_ofExcept_bind (worstOf_usual hE net dijkstra steps x) fun myWorst _ => ?_
    apply wp_get_bind
    split
    · exact wp_set_bind (wp_pure trivial)
    · exact wp_pure trivial

end Network

namespace Scenario

variable {E : Failure → Prop} (hE : Usual E) (dijkstra : Dijkstra) (s : Scenario)
include hE

omit hE in
/-- The time to process a task on the node may be computed. -/
def Served (E : Failure → Prop) (s : Scenario) (myNode : Node) : Prop :=
  E .divisionByZero ∨ s.theLoad[myNode.theId]? ≠ some 0

theorem txTime_usual (aSrc aDst : Node) (aBytes : ℕ) : FailsOnly E (s.txTime dijkstra aSrc aDst aBytes) :=
  txTimeOf_usual hE _ _ _ _ _ _

theorem hops_usual (aSrc aDst : Node) : FailsOnly E (s.hops dijkstra aSrc aDst) :=
  hopsOf_usual hE _ _ _ _ _

theorem central_usual : FailsOnly E (s.central dijkstra) := by
  have h := centralOf_usual hE s.theNetwork dijkstra s.theNetwork.theElements.length none
  rw [central]
  split
  · exact failsOnly_pure _
  · exact failsOnly_error hE.outOfRange
  · rename_i e s' hc
    exact failsOnly_error (wp_of_error h hc id)

theorem stateSize_usual (aJob : Job) (aTask : Task) (aAll : Bool) :
    FailsOnly E (stateSize aJob aTask aAll) := by
  rw [stateSize]
  split
  · exact failsOnly_pure _
  · refine failsOnly_bind (failsOnly_mapM fun i _ => access_usual hE _ i) fun mySizes _ => ?_
    exact failsOnly_pure _

theorem allStatesArgSizes_usual (aJob : Job) (aTask : Task) (aAll : Bool) :
    FailsOnly E (allStatesArgSizes aJob aTask aAll) := by
  rw [allStatesArgSizes]
  apply failsOnly_bind (stateSize_usual hE aJob aTask aAll)
  intro myStateSize hsize
  split
  · exact failsOnly_pure _
  · refine failsOnly_bind (access_usual hE _ _) fun myNext _ => failsOnly_pure _

theorem procTime_usual {aOps : ℕ} {aTarget : Node} (h : aOps = 0 ∨ s.Served E aTarget) :
    FailsOnly E (s.procTime aOps aTarget) := by
  rw [procTime]
  split
  · exact failsOnly_pure _
  · rename_i hops
    apply failsOnly_bind (access_usual hE _ _)
    intro load hload
    split
    · rename_i hzero
      rcases h.resolve_left hops with hdiv | hne
      · exact failsOnly_error hdiv
      · exact absurd (hzero ▸ access_eq_ok.mp hload) hne
    · exact failsOnly_pure _

theorem execStatsTwoWay_usual {aOps aInSize aOutSize : ℕ} {aOrigin aTarget : Node}
    (h : aOps = 0 ∨ s.Served E aTarget) :
    FailsOnly E (s.execStatsTwoWay dijkstra aOps aInSize aOutSize aOrigin aTarget) := by
  rw [execStatsTwoWay]
  refine failsOnly_bind (procTime_usual hE s h) fun _ _ => ?_
  refine failsOnly_bind (txTime_usual hE dijkstra s _ _ _) fun _ _ => ?_
  refine failsOnly_bind (txTime_usual hE dijkstra s _ _ _) fun _ _ => ?_
  refine failsOnly_bind (hops_usual hE dijkstra s _ _) fun _ _ => ?_
  refine failsOnly_bind (hops_usual hE dijkstra s _ _) fun _ _ => ?_
  exact failsOnly_pure _

theorem execStatsOneWay_usual {aOps aSize : ℕ} {aOrigin aTarget : Node}
    (h : aOps = 0 ∨ s.Served E aTarget) :
    FailsOnly E (s.execStatsOneWay dijkstra aOps aSize aOrigin aTarget) := by
  rw [execStatsOneWay]
  refine failsOnly_bind (procTime_usual hE s h) fun _ _ => ?_
  refine failsOnly_bind (txTime_usual hE dijkstra s _ _ _) fun _ _ => ?_
  refine failsOnly_bind (hops_usual hE dijkstra s _ _) fun _ _ => ?_
  exact failsOnly_pure _

theorem txTimeCloud_usual (aBytes : ℕ) : FailsOnly E (s.txTimeCloud aBytes) := by
  rw [txTimeCloud]
  split
  · exact failsOnly_pure _
  · split
    · exact failsOnly_error hE.cloud
    · exact failsOnly_pure _

theorem moveState_usual (myJob : Job) (myNode : Node) (p : JobStat × List Node) (myStateId : ℕ) :
    FailsOnly E (s.moveState dijkstra myJob myNode p myStateId) := by
  rw [moveState]
  refine failsOnly_bind (access_usual hE _ _) fun _ _ => ?_
  refine failsOnly_bind (access_usual hE _ _) fun _ _ => ?_
  refine failsOnly_bind (execStatsOneWay_usual hE dijkstra s (.inl rfl)) fun _ _ => ?_
  exact failsOnly_pure _

theorem returnValue_usual (myExecStat : JobStat) (myNextTask : Option Task) (aSize : ℕ)
    (myNode myClient : Node) :
    FailsOnly E (s.returnValue dijkstra myExecStat myNextTask aSize myNode myClient) := by
  cases myNextTask with
  | some myTask => exact failsOnly_pure _
  | none =>
    refine failsOnly_bind (execStatsOneWay_usual hE dijkstra s (.inl rfl)) fun _ _ => ?_
    exact failsOnly_pure _

theorem callFunction_usual {myNode : Node} (h : s.Served E myNode) (myJob : Job) (myClient : Node)
    (myTask : Task) (myNextTask : Option Task) (myExecStat : JobStat) :
    FailsOnly E (s.callFunction dijkstra myJob myClient myNode myTask myNextTask myExecStat) := by
  rw [callFunction]
  refine failsOnly_bind (execStatsTwoWay_usual hE dijkstra s (.inr h)) fun _ _ => ?_
  exact failsOnly_pure _

theorem execute_usual {myNode : Node} (h : s.Served E myNode) (aPolicy : ExecPolicy) (myJob : Job)
    (myClient : Node) (myTask : Task) (myNextTask : Option Task) (p : Progress) :
    FailsOnly E (s.execute dijkstra aPolicy myJob myClient myNode myTask myNextTask p) := by
  cases aPolicy with
  | PureFaaS =>
    refine failsOnly_bind (allStatesArgSizes_usual hE _ _ _) fun _ _ => ?_
    refine failsOnly_bind (execStatsTwoWay_usual hE dijkstra s (.inr h)) fun _ _ => ?_
    exact failsOnly_pure _
  | StatePropagate =>
    refine failsOnly_bind (allStatesArgSizes_usual hE _ _ _) fun _ _ => ?_
    refine failsOnly_bind (execStatsOneWay_usual hE dijkstra s (.inr h)) fun _ _ => ?_
    refine failsOnly_bind (returnValue_usual hE dijkstra s _ _ _ _ _) fun _ _ => ?_
    exact failsOnly_pure _
  | StateLocal =>
    refine failsOnly_bind (execStatsOneWay_usual hE dijkstra s (.inr h)) fun _ _ => ?_
    refine failsOnly_bind (failsOnly_foldlM (moveState_usual hE dijkstra s _ _) _ _) fun _ _ => ?_
    refine failsOnly_bind (returnValue_usual hE dijkstra s _ _ _ _ _) fun _ _ => ?_
    exact failsOnly_pure _
  | UnchainedExternal =>
    refine failsOnly_bind (callFunction_usual hE dijkstra s h _ _ _ _ _) fun _ _ => ?_
    refine failsOnly_bind (stateSize_usual hE _ _ _) fun _ _ => ?_
    refine failsOnly_bind (failsOnly_bind (txTimeCloud_usual hE s _) fun _ _ =>
      failsOnly_bind (txTimeCloud_usual hE s _) fun _ _ => failsOnly_pure _) fun _ _ => ?_
    exact failsOnly_pure _
  | UnchainedInEdge =>
    refine failsOnly_bind (callFunction_usual hE dijkstra s h _ _ _ _ _) fun _ _ => ?_
    refine failsOnly_bind (stateSize_usual hE _ _ _) fun _ _ => ?_
    refine failsOnly_bind (central_usual hE dijkstra s) fun _ _ => ?_
    refine failsOnly_bind (execStatsTwoWay_usual hE dijkstra s (.inl rfl)) fun _ _ => ?_
    exact failsOnly_pure _
  | UnchainedInFunction =>
    refine failsOnly_bind (callFunction_usual hE dijkstra s h _ _ _ _ _) fun _ _ => ?_
    refine failsOnly_bind (stateSize_usual hE _ _ _) fun _ _ => ?_
    exact failsOnly_pure _
  | UnchainedInClient =>
    refine failsOnly_bind (allStatesArgSizes_usual hE _ _ _) fun _ _ => ?_
    refine failsOnly_bind (execStatsTwoWay_usual hE dijkstra s (.inr h)) fun _ _ => ?_
    exact failsOnly_pure _

theorem nodeOf_usual (aJobId aTaskId : ℕ) : FailsOnly E (s.nodeOf aJobId aTaskId) := by
  rw [nodeOf]
  refine failsOnly_bind (access_usual hE _ _) fun row _ => ?_
  refine failsOnly_bind (access_usual hE _ _) fun entry _ => ?_
  cases entry with
  | none => exact failsOnly_error hE.outOfRange
  | some myNode => exact failsOnly_pure _

/-- Once there is an allocation, measuring ends with no other failure than the usual ones and,
unless all tasks are on nodes with a load, a division by zero. -/
theorem performance_usual (hload : s.theLoad ≠ [])
    (hserved : ∀ i t n, s.nodeOf i t = .ok n → s.Served E n) (aPolicy : ExecPolicy) :
    FailsOnly E (s.performance dijkstra aPolicy) := by
  rw [performance, if_neg hload]
  refine failsOnly_bind (failsOnly_mapM fun myJob _ => ?_) fun _ _ => ?_
  · refine failsOnly_bind (access_usual hE _ _) fun myClient _ => ?_
    refine failsOnly_bind (failsOnly_foldlM (fun p x => ?_) _ _) fun _ _ => failsOnly_pure _
    refine failsOnly_bind (nodeOf_usual hE s _ _) fun myNode hnode => ?_
    refine failsOnly_bind (execute_usual hE dijkstra s (hserved _ _ _ hnode) _ _ _ _ _ _) fun _ _ => ?_
    exact failsOnly_pure _
  · refine failsOnly_bind (failsOnly_mapM fun myNode _ => access_usual hE _ _) fun _ _ => ?_
    exact failsOnly_pure _

end Scenario

end ServerlessEdge.StateSim
