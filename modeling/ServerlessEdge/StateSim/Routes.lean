import Mathlib.Logic.Relation
import ServerlessEdge.Library.Triple
import ServerlessEdge.StateSim.Accepted

/-! The routes of a network: from which elements the way to a destination ends, if the graph
library finds shortest paths, and hence which of the calls on a network terminate. -/
namespace ServerlessEdge.StateSim
open Library Checks Triple Parents Relation

section Ways

def Graph.Edge (g : Graph) (u v : ℕ) : Prop := ∃ w, (u, v, w) ∈ g.edges

def Graph.Reachable (g : Graph) : ℕ → ℕ → Prop := ReflTransGen g.Edge

/-- The predecessors that the graph library sets for a destination: those of the vertices that
are reachable from it are their parents in a tree, and other vertices are left as their own. -/
structure Tree (g : Graph) (aDstId : ℕ) (myPred : PredVec) : Prop where
  length : myPred.length = g.vertices
  root : Network.nextOf myPred aDstId = aDstId
  parents : ∃ depth : ℕ → ℕ, ∀ v, g.Reachable aDstId v → v ≠ aDstId →
    g.Edge (Network.nextOf myPred v) v ∧ g.Reachable aDstId (Network.nextOf myPred v) ∧
      depth (Network.nextOf myPred v) < depth v
  apart : ∀ v < g.vertices, ¬ g.Reachable aDstId v → Network.nextOf myPred v = v

variable {net : Network} {myPred : PredVec} {aSrcId aDstId : ℕ}

theorem reachable_lt (hnet : net.WellFormed) (hdst : aDstId < net.theElements.length) {v : ℕ}
    (h : net.theGraph.Reachable aDstId v) : v < net.theElements.length := by
  cases h with
  | refl => exact hdst
  | tail _ hstep =>
    obtain ⟨w, hw⟩ := hstep
    exact (hnet.edges _ hw).2

/-- The way to a destination ends if and only if that reaches the source. -/
theorem ends_iff_reachable (hnet : net.WellFormed) (htree : Tree net.theGraph aDstId myPred)
    (hsrc : aSrcId < net.theElements.length) :
    Ends (Network.nextOf myPred) aDstId aSrcId ↔ net.theGraph.Reachable aDstId aSrcId := by
  obtain ⟨depth, hdepth⟩ := htree.parents
  constructor
  · intro h
    by_contra hnot
    refine not_ends_of_fixed (htree.apart aSrcId (hnet.vertices ▸ hsrc) hnot) ?_ h
    rintro rfl
    exact hnot .refl
  · intro h
    refine ends_of_depth depth htree.root (fun v hv hne => ?_) h
    obtain ⟨-, hreach, hlt⟩ := hdepth v hv hne
    exact ⟨hreach, hlt⟩

/-- A way goes through elements. -/
theorem access_of_walk (hnet : net.WellFormed) (htree : Tree net.theGraph aDstId myPred)
    (hdst : aDstId < net.theElements.length) (h : net.theGraph.Reachable aDstId aSrcId) {steps : ℕ}
    {path : List ℕ} (hpath : walk (Network.nextOf myPred) aDstId steps aSrcId = some path) :
    ∃ way, path.mapM (access net.theElements) = .ok way := by
  obtain ⟨depth, hdepth⟩ := htree.parents
  have hstays : ∀ v, net.theGraph.Reachable aDstId v → Network.nextOf myPred v ≠ aDstId →
      net.theGraph.Reachable aDstId (Network.nextOf myPred v) := by
    intro v hv hne
    refine (hdepth v hv ?_).2.1
    rintro rfl
    exact hne htree.root
  have hin : ∀ v ∈ path, ∃ e, access net.theElements v = .ok e := by
    intro v hv
    have hlt := reachable_lt hnet hdst (mem_walk hstays h hpath v hv)
    rw [access, List.getElem?_eq_getElem hlt]
    exact ⟨_, rfl⟩
  rcases @mapM_cases _ _ _ (access net.theElements) .endless path fun v hv => .inl (hin v hv) with
    ⟨hway, -⟩ | ⟨-, v, hv, hfail⟩
  · exact hway
  · obtain ⟨e, he⟩ := hin v hv
    rw [he] at hfail
    cases hfail

/-- Where there is a way it is found within as many steps as there are elements. -/
theorem wayTo_of_reachable (hnet : net.WellFormed) (htree : Tree net.theGraph aDstId myPred)
    (hdst : aDstId < net.theElements.length) (h : net.theGraph.Reachable aDstId aSrcId) {steps : ℕ}
    (hsteps : net.theElements.length ≤ steps) : ∃ way, net.wayTo steps myPred aSrcId aDstId = .ok way := by
  have hsrc := reachable_lt hnet hdst h
  obtain ⟨depth, hdepth⟩ := htree.parents
  have hparent : ∀ v ∈ Finset.range net.theElements.length,
      Network.nextOf myPred v ∈ Finset.range net.theElements.length := by
    intro v hv
    rw [Finset.mem_range] at hv ⊢
    by_cases hreach : net.theGraph.Reachable aDstId v
    · by_cases hroot : v = aDstId
      · rw [hroot, htree.root]
        exact hdst
      · exact reachable_lt hnet hdst (hdepth v hreach hroot).2.1
    · rw [htree.apart v (hnet.vertices ▸ hv) hreach]
      exact hv
  have hwalk := ((ends_iff_reachable hnet htree hsrc).mpr h).bounded
    (Finset.range net.theElements.length) (Finset.mem_range.mpr hsrc) hparent
  rw [Finset.card_range] at hwalk
  obtain ⟨path, hpath⟩ := Option.isSome_iff_exists.mp hwalk
  rw [Network.wayTo, walk_mono hpath hsteps]
  exact access_of_walk hnet htree hdst h hpath

theorem wayTo_of_not_reachable (hnet : net.WellFormed) (htree : Tree net.theGraph aDstId myPred)
    (hsrc : aSrcId < net.theElements.length) (h : ¬ net.theGraph.Reachable aDstId aSrcId) (steps : ℕ) :
    net.wayTo steps myPred aSrcId aDstId = .error .endless := by
  rw [Network.wayTo]
  cases hwalk : walk (Network.nextOf myPred) aDstId steps aSrcId with
  | none => rfl
  | some path =>
    refine absurd ((ends_iff_reachable hnet htree hsrc).mp ⟨steps, ?_⟩) h
    rw [hwalk]
    rfl

/-- The way is found, or it is not found within that many steps. -/
theorem wayTo_cases (hnet : net.WellFormed) (htree : Tree net.theGraph aDstId myPred)
    (hdst : aDstId < net.theElements.length) (hsrc : aSrcId < net.theElements.length) (steps : ℕ) :
    (∃ way, net.wayTo steps myPred aSrcId aDstId = .ok way) ∨
      net.wayTo steps myPred aSrcId aDstId = .error .endless := by
  rw [Network.wayTo]
  cases hwalk : walk (Network.nextOf myPred) aDstId steps aSrcId with
  | none => exact .inr rfl
  | some path =>
    have hreach := (ends_iff_reachable hnet htree hsrc).mp ⟨steps, by rw [hwalk]; rfl⟩
    exact .inl (access_of_walk hnet htree hdst hreach hwalk)

end Ways

section Answers

variable (net : Network) (dijkstra : Dijkstra) (steps : ℕ)

/-- The transmission time, as if no routes were stored. -/
def txTimeOf (aSrc aDst : Node) (aBytes : ℕ) : Except Failure ℚ :=
  if aBytes = 0 ∨ aSrc.theName = aDst.theName then .ok 0
  else do
    let way ← net.wayTo steps (dijkstra net.theGraph aDst.theId) aSrc.theId aDst.theId
    pure (way.map (Element.txTime aBytes)).sum

def hopsOf (aSrc aDst : Node) : Except Failure ℕ := do
  let way ← net.wayTo steps (dijkstra net.theGraph aDst.theId) aSrc.theId aDst.theId
  pure (way.countP fun myNext => myNext.device = .Link)

def worstOf (myCandidate : Node) : Except Failure ℚ := do
  let myTxTimes ← net.theProcessing.mapM fun myTarget => do
    let there ← txTimeOf net dijkstra steps myCandidate myTarget 1000
    let back ← txTimeOf net dijkstra steps myTarget myCandidate 1000
    pure (max there back)
  pure (myTxTimes.max?.getD 0)

/-- What is left of the loop in search of the central node if no routes are stored. -/
def tryCandidateOf (myLastWorst : ℚ) (myCandidate : Node) : EStateM Failure (Option Node) ℚ := do
  let myWorst ← MonadExcept.ofExcept (worstOf net dijkstra steps myCandidate)
  let theCentral ← get
  if theCentral = none ∨ myWorst < myLastWorst then
    set (some myCandidate)
    pure myWorst
  else pure myLastWorst

def centralOf : EStateM Failure (Option Node) (Option Node) := do
  match ← get with
  | some myNode => pure (some myNode)
  | none =>
    let _ ← net.theProcessing.foldlM (tryCandidateOf net dijkstra steps) 0
    get

/-- The routes that are stored are those that the graph library finds. -/
structure Coherent (s : Routing) : Prop where
  length : s.theCache.length = net.theElements.length
  entries : ∀ (i : ℕ) (e : PredVec), s.theCache[i]? = some (some e) → e = dijkstra net.theGraph i

/-- The network with its routes stored, against the one without. -/
structure Stores (s : Routing) (theCentral : Option Node) : Prop where
  coherent : Coherent net dijkstra s
  central : s.theCentral = theCentral

variable {net dijkstra steps}

theorem start_coherent : Coherent net dijkstra net.start := by
  refine ⟨List.length_replicate, fun i e h => ?_⟩
  rw [Network.start, List.getElem?_replicate] at h
  split at h <;> cases h

theorem cacheEntry_alike {aDstId : ℕ} (h : aDstId < net.theElements.length) :
    Alike (Stores net dijkstra) (net.cacheEntry dijkstra aDstId)
      (MonadExcept.ofExcept (.ok (dijkstra net.theGraph aDstId)) :
        EStateM Failure (Option Node) PredVec) := by
  intro s t hR
  have hlt : aDstId < s.theCache.length := hR.coherent.length ▸ h
  rw [Network.cacheEntry, get_bind_apply]
  cases hget : s.theCache[aDstId]? with
  | none => exact absurd (List.getElem?_eq_none_iff.mp hget) (not_le.mpr hlt)
  | some entry =>
    cases entry with
    | some e => exact ⟨hR.coherent.entries aDstId e hget, hR⟩
    | none =>
      refine ⟨rfl, ⟨?_, fun i e hi => ?_⟩, hR.central⟩
      · exact List.length_set.trans hR.coherent.length
      · rw [List.getElem?_set] at hi
        split at hi
        · rename_i hsame
          rw [← hsame]
          simpa [hlt] using hi.symm
        · exact hR.coherent.entries i e hi

theorem txTime_alike {aSrc aDst : Node} (h : aDst.theId < net.theElements.length) (aBytes : ℕ) :
    Alike (Stores net dijkstra) (net.txTime dijkstra steps aSrc aDst aBytes)
      (MonadExcept.ofExcept (txTimeOf net dijkstra steps aSrc aDst aBytes) :
        EStateM Failure (Option Node) ℚ) := by
  rw [Network.txTime, txTimeOf]
  split
  · exact alike_pure 0
  · apply alike_answer_bind (g := fun e => do
      let way ← net.wayTo steps e aSrc.theId aDst.theId
      pure (way.map (Element.txTime aBytes)).sum) (cacheEntry_alike h)
    intro e
    apply alike_answer_bind (alike_ofExcept _)
    intro way
    exact alike_pure _

theorem hops_alike {aSrc aDst : Node} (h : aDst.theId < net.theElements.length) :
    Alike (Stores net dijkstra) (net.hops dijkstra steps aSrc aDst)
      (MonadExcept.ofExcept (hopsOf net dijkstra steps aSrc aDst) :
        EStateM Failure (Option Node) ℕ) := by
  rw [Network.hops, hopsOf]
  apply alike_answer_bind (g := fun e => do
    let way ← net.wayTo steps e aSrc.theId aDst.theId
    pure (way.countP fun myNext => myNext.device = .Link)) (cacheEntry_alike h)
  intro e
  apply alike_answer_bind (alike_ofExcept _)
  intro way
  exact alike_pure _

theorem node_lt (hnet : net.WellFormed) {n : Node} (h : n ∈ net.nodes) :
    n.theId < net.theElements.length :=
  (List.getElem?_eq_some_iff.mp (hnet.ids n h)).1

theorem worst_alike (hnet : net.WellFormed) {myCandidate : Node}
    (h : myCandidate ∈ net.theProcessing) :
    Alike (Stores net dijkstra) (net.worst dijkstra steps myCandidate)
      (MonadExcept.ofExcept (worstOf net dijkstra steps myCandidate) :
        EStateM Failure (Option Node) ℚ) := by
  rw [Network.worst, worstOf]
  refine alike_answer_bind (alike_answer_mapM fun myTarget htarget => ?_) fun ts => alike_pure _
  apply alike_answer_bind (txTime_alike (node_lt hnet (hnet.processing _ htarget)) 1000)
  intro there
  apply alike_answer_bind (txTime_alike (node_lt hnet (hnet.processing _ h)) 1000)
  intro back
  exact alike_pure _

theorem tryCandidate_alike (hnet : net.WellFormed) (myLastWorst : ℚ) {myCandidate : Node}
    (h : myCandidate ∈ net.theProcessing) :
    Alike (Stores net dijkstra) (net.tryCandidate dijkstra steps myLastWorst myCandidate)
      (tryCandidateOf net dijkstra steps myLastWorst myCandidate) := by
  rw [Network.tryCandidate, tryCandidateOf]
  apply alike_bind (worst_alike hnet h)
  rintro myWorst s t hR
  rw [get_bind_apply, get_bind_apply, hR.central]
  split
  · exact ⟨rfl, ⟨hR.coherent.length, hR.coherent.entries⟩, rfl⟩
  · exact ⟨rfl, hR⟩

theorem central_alike (hnet : net.WellFormed) :
    Alike (Stores net dijkstra) (net.central dijkstra steps) (centralOf net dijkstra steps) := by
  intro s t hR
  rw [Network.central, centralOf, get_bind_apply, get_bind_apply, hR.central]
  cases t with
  | some myNode => exact ⟨rfl, hR⟩
  | none =>
    refine alike_bind (alike_foldlM_of_mem (fun b a ha => tryCandidate_alike hnet b ha) 0) ?_ s none hR
    rintro - s t hR
    exact ⟨hR.central, hR⟩

end Answers

end ServerlessEdge.StateSim
