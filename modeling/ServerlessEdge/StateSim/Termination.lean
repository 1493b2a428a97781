import Mathlib.Tactic.IntervalCases
import ServerlessEdge.StateSim.Routes
import ServerlessEdge.StateSim.WellFormed

/-! Which of the calls on a network terminate, in any state that calls lead to: those whose
ways lead from a destination that reaches the source. -/
namespace ServerlessEdge.StateSim
open Library Checks Triple Parents Relation

section Termination

variable {net : Network} {dijkstra : Dijkstra}

/-- The graph library finds the shortest paths of a network. -/
def Finds (net : Network) (dijkstra : Dijkstra) : Prop :=
  ∀ aDstId < net.theGraph.vertices, Tree net.theGraph aDstId (dijkstra net.theGraph aDstId)

theorem Finds.tree (hfinds : Finds net dijkstra) (hnet : net.WellFormed) {n : Node}
    (hn : n ∈ net.nodes) : Tree net.theGraph n.theId (dijkstra net.theGraph n.theId) :=
  hfinds n.theId (hnet.vertices ▸ node_lt hnet hn)

/-- Nodes of the same name are the same node. -/
theorem eq_of_name (hnet : net.WellFormed) {a b : Node} (ha : a ∈ net.nodes) (hb : b ∈ net.nodes)
    (h : a.theName = b.theName) : a = b := by
  obtain ⟨k, hk⟩ := Network.mem_nodes.mp ha
  obtain ⟨k', hk'⟩ := Network.mem_nodes.mp hb
  have hkey := hnet.named k a hk
  have hkey' := hnet.named k' b hk'
  rw [← hkey, h, hkey', hk'] at hk
  cases hk
  rfl

/-- The loop on the way from one node to another comes to an end. -/
def TxEnds (net : Network) (aSrc aDst : Node) (aBytes : ℕ) : Prop :=
  aBytes = 0 ∨ net.theGraph.Reachable aDst.theId aSrc.theId

theorem txTimeOf_cases (hnet : net.WellFormed) (hfinds : Finds net dijkstra) {a b : Node}
    (ha : a ∈ net.nodes) (hb : b ∈ net.nodes) (steps aBytes : ℕ) :
    (∃ t, txTimeOf net dijkstra steps a b aBytes = .ok t) ∨
      txTimeOf net dijkstra steps a b aBytes = .error .endless := by
  rw [txTimeOf]
  split
  · exact .inl ⟨0, rfl⟩
  · rcases wayTo_cases hnet (hfinds.tree hnet hb) (node_lt hnet hb) (node_lt hnet ha) steps with
      ⟨way, hway⟩ | hway
    · rw [hway]
      exact .inl ⟨_, rfl⟩
    · rw [hway]
      exact .inr rfl

theorem txTimeOf_ends (hnet : net.WellFormed) (hfinds : Finds net dijkstra) {a b : Node}
    (hb : b ∈ net.nodes) {steps aBytes : ℕ} (h : TxEnds net a b aBytes)
    (hsteps : net.theElements.length ≤ steps) : ∃ t, txTimeOf net dijkstra steps a b aBytes = .ok t := by
  rw [txTimeOf]
  split
  · exact ⟨0, rfl⟩
  · rename_i hnot
    rcases h with hzero | hreach
    · exact absurd (.inl hzero) hnot
    · obtain ⟨way, hway⟩ := wayTo_of_reachable hnet (hfinds.tree hnet hb) (node_lt hnet hb) hreach hsteps
      rw [hway]
      exact ⟨_, rfl⟩

theorem txTimeOf_endless (hnet : net.WellFormed) (hfinds : Finds net dijkstra) {a b : Node}
    (ha : a ∈ net.nodes) (hb : b ∈ net.nodes) {aBytes : ℕ} (h : ¬ TxEnds net a b aBytes) (steps : ℕ) :
    txTimeOf net dijkstra steps a b aBytes = .error .endless := by
  rw [TxEnds, not_or] at h
  have hname : ¬ a.theName = b.theName := by
    intro hsame
    rw [eq_of_name hnet ha hb hsame] at h
    exact h.2 .refl
  rw [txTimeOf, if_neg (not_or.mpr ⟨h.1, hname⟩),
    wayTo_of_not_reachable hnet (hfinds.tree hnet hb) (node_lt hnet ha) h.2]
  rfl

/-- A candidate is compared with all processing nodes, unless one of the ways does not end. -/
theorem worstOf_cases (hnet : net.WellFormed) (hfinds : Finds net dijkstra) {c : Node}
    (hc : c ∈ net.theProcessing) (steps : ℕ) :
    ((∃ w, worstOf net dijkstra steps c = .ok w) ∧ ∀ b ∈ net.theProcessing,
        (∃ t, txTimeOf net dijkstra steps c b 1000 = .ok t) ∧
          ∃ t, txTimeOf net dijkstra steps b c 1000 = .ok t) ∨
      (worstOf net dijkstra steps c = .error .endless ∧ ∃ b ∈ net.theProcessing,
        txTimeOf net dijkstra steps c b 1000 = .error .endless ∨
          txTimeOf net dijkstra steps b c 1000 = .error .endless) := by
  have hpair : ∀ b ∈ net.theProcessing,
      (∃ t, (do
        let there ← txTimeOf net dijkstra steps c b 1000
        let back ← txTimeOf net dijkstra steps b c 1000
        pure (max there back) : Except Failure ℚ) = .ok t ∧
          (∃ t, txTimeOf net dijkstra steps c b 1000 = .ok t) ∧
          ∃ t, txTimeOf net dijkstra steps b c 1000 = .ok t) ∨
      ((do
        let there ← txTimeOf net dijkstra steps c b 1000
        let back ← txTimeOf net dijkstra steps b c 1000
        pure (max there back) : Except Failure ℚ) = .error .endless ∧
          (txTimeOf net dijkstra steps c b 1000 = .error .endless ∨
            txTimeOf net dijkstra steps b c 1000 = .error .endless)) := by
    intro b hb
    rcases txTimeOf_cases hnet hfinds (hnet.processing c hc) (hnet.processing b hb) steps 1000 with
      ⟨t, ht⟩ | ht
    · rcases txTimeOf_cases hnet hfinds (hnet.processing b hb) (hnet.processing c hc) steps 1000 with
        ⟨t', ht'⟩ | ht'
      · rw [ht, ht']
        exact .inl ⟨_, rfl, ⟨t, rfl⟩, t', rfl⟩
      · rw [ht, ht']
        exact .inr ⟨rfl, .inr rfl⟩
    · rw [ht]
      exact .inr ⟨rfl, .inl rfl⟩
  rw [worstOf]
  rcases mapM_cases fun b hb => (hpair b hb).imp (Exists.imp fun _ => And.left) And.left with
    ⟨⟨ts, hts⟩, hall⟩ | ⟨hfail, b, hb, hbfail⟩
  · rw [hts]
    refine .inl ⟨⟨_, rfl⟩, fun b hb => ?_⟩
    rcases hpair b hb with ⟨-, -, hboth⟩ | ⟨hbfail, -⟩
    · exact hboth
    · obtain ⟨t, ht⟩ := hall b hb
      rw [hbfail] at ht
      cases ht
  · rw [hfail]
    refine .inr ⟨rfl, b, hb, ?_⟩
    rcases hpair b hb with ⟨t, ht, -⟩ | ⟨-, heither⟩
    · rw [hbfail] at ht
      cases ht
    · exact heither

theorem tryCandidateOf_ok {steps : ℕ} {c : Node} (h : ∃ w, worstOf net dijkstra steps c = .ok w)
    (b : ℚ) (t : Option Node) : ∃ b' t', tryCandidateOf net dijkstra steps b c t = .ok b' t' := by
  obtain ⟨w, hw⟩ := h
  rw [tryCandidateOf, hw]
  by_cases hbetter : t = none ∨ w < b
  · refine ⟨w, some c, ?_⟩
    simp only [MonadExcept.ofExcept, pure_bind, get_bind_apply, if_pos hbetter]
    rfl
  · refine ⟨b, t, ?_⟩
    simp only [MonadExcept.ofExcept, pure_bind, get_bind_apply, if_neg hbetter]
    rfl

/-- The loop over the candidates returns if all of them can be compared. -/
theorem foldlM_tryCandidateOf_ok {steps : ℕ} {l : List Node}
    (h : ∀ c ∈ l, ∃ w, worstOf net dijkstra steps c = .ok w) (b : ℚ) (t : Option Node) :
    ∃ b' t', l.foldlM (tryCandidateOf net dijkstra steps) b t = .ok b' t' := by
  induction l generalizing b t with
  | nil => exact ⟨b, t, rfl⟩
  | cons c l ih =>
    obtain ⟨hc, hrest⟩ := List.forall_mem_cons.mp h
    obtain ⟨b', t', hstep⟩ := tryCandidateOf_ok hc b t
    rw [List.foldlM_cons, bind_of_ok hstep]
    exact ih hrest b' t'

theorem foldlM_tryCandidateOf_endless {steps : ℕ} {l : List Node}
    (h : ∀ c ∈ l, (∃ w, worstOf net dijkstra steps c = .ok w) ∨
      worstOf net dijkstra steps c = .error .endless)
    (hfail : ∃ c ∈ l, worstOf net dijkstra steps c = .error .endless) (b : ℚ) (t : Option Node) :
    ∃ t', l.foldlM (tryCandidateOf net dijkstra steps) b t = .error .endless t' := by
  induction l generalizing b t with
  | nil =>
    obtain ⟨c, hc, -⟩ := hfail
    cases hc
  | cons c l ih =>
    obtain ⟨hc, hrest⟩ := List.forall_mem_cons.mp h
    rw [List.foldlM_cons]
    rcases hc with hok | herror
    · obtain ⟨b', t', hstep⟩ := tryCandidateOf_ok hok b t
      rw [bind_of_ok hstep]
      refine ih hrest ?_ b' t'
      obtain ⟨c', hc', hfail⟩ := hfail
      rcases List.mem_cons.mp hc' with rfl | hc'
      · obtain ⟨w, hw⟩ := hok
        rw [hw] at hfail
        cases hfail
      · exact ⟨c', hc', hfail⟩
    · refine ⟨t, bind_of_error ?_ _⟩
      rw [tryCandidateOf, herror]
      rfl

/-- Either the central node is found within that many steps, or a way does not end. -/
theorem centralOf_cases (hnet : net.WellFormed) (hfinds : Finds net dijkstra) (steps : ℕ) :
    ((∃ r t, centralOf net dijkstra steps none = .ok r t) ∧ ∀ a ∈ net.theProcessing,
        ∀ b ∈ net.theProcessing, ∃ t, txTimeOf net dijkstra steps a b 1000 = .ok t) ∨
      ((∃ t, centralOf net dijkstra steps none = .error .endless t) ∧ ∃ a ∈ net.theProcessing,
        ∃ b ∈ net.theProcessing, txTimeOf net dijkstra steps a b 1000 = .error .endless) := by
  have hcases : ∀ c ∈ net.theProcessing, (∃ w, worstOf net dijkstra steps c = .ok w) ∨
      worstOf net dijkstra steps c = .error .endless := fun c hc =>
    (worstOf_cases hnet hfinds hc steps).imp And.left And.left
  have hcentral : ∀ (t : Option Node), t = none → centralOf net dijkstra steps t =
      (net.theProcessing.foldlM (tryCandidateOf net dijkstra steps) 0 >>= fun _ => get) none := by
    rintro _ rfl
    rfl
  rw [hcentral none rfl]
  by_cases hall : ∀ c ∈ net.theProcessing, ∃ w, worstOf net dijkstra steps c = .ok w
  · obtain ⟨b, t, hloop⟩ := foldlM_tryCandidateOf_ok hall 0 none
    rw [bind_of_ok hloop]
    refine .inl ⟨⟨t, t, rfl⟩, fun a ha b hb => ?_⟩
    rcases worstOf_cases hnet hfinds ha steps with ⟨-, hboth⟩ | ⟨hfail, -⟩
    · exact (hboth b hb).1
    · obtain ⟨w, hw⟩ := hall a ha
      rw [hw] at hfail
      cases hfail
  · push Not at hall
    obtain ⟨c, hc, hnone⟩ := hall
    have hfail := (hcases c hc).resolve_left fun ⟨w, hw⟩ => hnone w hw
    obtain ⟨t, hloop⟩ := foldlM_tryCandidateOf_endless hcases ⟨c, hc, hfail⟩ 0 none
    rw [bind_of_error hloop]
    refine .inr ⟨⟨t, rfl⟩, ?_⟩
    rcases worstOf_cases hnet hfinds hc steps with ⟨⟨w, hw⟩, -⟩ | ⟨-, b, hb, hthere | hback⟩
    · exact absurd hw (hnone w)
    · exact ⟨c, hc, b, hb, hthere⟩
    · exact ⟨b, hb, c, hc, hback⟩

end Termination

section Calls

/-- The calls of a user of the network. -/
inductive Call where
  | txTime (aSrc aDst : Node) (aBytes : ℕ)
  | hops (aSrc aDst : Node)
  | central
  | nextHop (aSrc aDst : String)
  | cloud (aLatency aRate : ℚ)

variable (env : Env) (net : Network) (dijkstra : Dijkstra)

/-- A call, with at most that many steps of each loop. -/
def Network.call (steps : ℕ) : Call → EStateM Failure Routing Unit
  | .txTime aSrc aDst aBytes => do
    let _ ← net.txTime dijkstra steps aSrc aDst aBytes
  | .hops aSrc aDst => do
    let _ ← net.hops dijkstra steps aSrc aDst
  | .central => do
    let _ ← net.central dijkstra steps
  | .nextHop aSrc aDst => do
    let _ ← net.nextHop dijkstra aSrc aDst
  | .cloud aLatency aRate => Network.cloud env aLatency aRate

/-- For some number of steps no loop needs more. -/
def Terminates {α : Type} (m : ℕ → EStateM Failure Routing α) (s : Routing) : Prop :=
  ∃ steps, ∀ s', m steps s ≠ .error .endless s'

/-- The states of the network after calls that have terminated. -/
inductive Reached : Routing → Prop
  | start : Reached net.start
  | call {s : Routing} {steps : ℕ} (c : Call) :
    Reached s → (∀ s', net.call env dijkstra steps c s ≠ .error .endless s') →
      Reached (after (net.call env dijkstra steps c) s)

variable {env net dijkstra}

/-- The routes that are stored remain those that the graph library finds. -/
def Keeps (net : Network) (dijkstra : Dijkstra) (s s' : Routing) : Prop :=
  Coherent net dijkstra s → Coherent net dijkstra s'

instance : Std.Refl (Keeps net dijkstra) := ⟨fun _ h => h⟩

instance : IsTrans Routing (Keeps net dijkstra) := ⟨fun _ _ _ h h' hs => h' (h hs)⟩

theorem cacheEntry_keeps (aDstId : ℕ) : Moves (Keeps net dijkstra) (net.cacheEntry dijkstra aDstId) := by
  intro s hs
  by_cases hlt : aDstId < net.theElements.length
  · obtain ⟨s', hs', hR⟩ := ok_of_alike (cacheEntry_alike hlt) ⟨hs, rfl⟩ rfl
    rw [after, hs']
    exact hR.coherent
  · have hnone : s.theCache[aDstId]? = none :=
      List.getElem?_eq_none (hs.length ▸ not_lt.mp hlt)
    rw [after, Network.cacheEntry, get_bind_apply, hnone]
    exact hs

theorem ofExcept_moves {α : Type} (r : Except Failure α) :
    Moves (Keeps net dijkstra) (MonadExcept.ofExcept r : EStateM Failure Routing α) := by
  cases r with
  | error e => exact moves_throw e
  | ok a => exact moves_pure a

theorem txTime_keeps (steps : ℕ) (aSrc aDst : Node) (aBytes : ℕ) :
    Moves (Keeps net dijkstra) (net.txTime dijkstra steps aSrc aDst aBytes) := by
  rw [Network.txTime]
  split
  · exact moves_pure 0
  · apply moves_bind (cacheEntry_keeps _)
    intro e
    apply moves_bind (ofExcept_moves _)
    intro way
    exact moves_pure _

theorem hops_keeps (steps : ℕ) (aSrc aDst : Node) :
    Moves (Keeps net dijkstra) (net.hops dijkstra steps aSrc aDst) := by
  rw [Network.hops]
  apply moves_bind (cacheEntry_keeps _)
  intro e
  apply moves_bind (ofExcept_moves _)
  intro way
  exact moves_pure _

theorem nextHop_keeps (aSrc aDst : String) :
    Moves (Keeps net dijkstra) (net.nextHop dijkstra aSrc aDst) := by
  rw [Network.nextHop]
  apply moves_bind (ofExcept_moves _)
  intro i
  apply moves_bind (cacheEntry_keeps i)
  intro e
  apply moves_bind (ofExcept_moves _)
  intro j
  apply moves_bind (ofExcept_moves _)
  intro r
  apply moves_bind (ofExcept_moves _)
  intro x
  exact moves_pure _

theorem tryCandidate_keeps (steps : ℕ) (b : ℚ) (c : Node) :
    Moves (Keeps net dijkstra) (net.tryCandidate dijkstra steps b c) := by
  have hworst : Moves (Keeps net dijkstra) (net.worst dijkstra steps c) := by
    rw [Network.worst]
    refine moves_bind (moves_mapM (fun n => ?_) _) fun ts => moves_pure _
    apply moves_bind (txTime_keeps steps c n 1000)
    intro there
    apply moves_bind (txTime_keeps steps n c 1000)
    intro back
    exact moves_pure _
  rw [Network.tryCandidate]
  apply moves_bind hworst
  intro w s hs
  by_cases hbetter : s.theCentral = none ∨ w < b
  · rw [after, get_bind_apply, if_pos hbetter]
    exact ⟨hs.length, hs.entries⟩
  · rw [after, get_bind_apply, if_neg hbetter]
    exact hs

theorem call_keeps (steps : ℕ) (c : Call) : Moves (Keeps net dijkstra) (net.call env dijkstra steps c) := by
  cases c with
  | txTime aSrc aDst aBytes => exact moves_bind (txTime_keeps _ _ _ _) fun _ => moves_pure ()
  | hops aSrc aDst => exact moves_bind (hops_keeps _ _ _) fun _ => moves_pure ()
  | central =>
    refine moves_bind ?_ fun _ => moves_pure ()
    intro s hs
    rw [after, Network.central, get_bind_apply]
    cases hcentral : s.theCentral with
    | some n => exact hs
    | none =>
      exact moves_bind (moves_foldlM (fun b c => tryCandidate_keeps steps b c) _ 0)
        (fun _ => moves_bind moves_get fun s' => moves_pure s'.theCentral) s hs
  | nextHop aSrc aDst => exact moves_bind (nextHop_keeps _ _) fun _ => moves_pure ()
  | cloud aLatency aRate =>
    rw [Network.call, Network.cloud]
    split
    · exact moves_throw _
    · split
      · exact moves_throw _
      · exact moves_modify fun s hs => ⟨hs.length, hs.entries⟩

/-- In all runs the routes that are stored are those that the graph library finds. -/
theorem Reached.coherent {s : Routing} (h : Reached env net dijkstra s) : Coherent net dijkstra s := by
  induction h with
  | start => exact start_coherent
  | call c _ _ ih => exact call_keeps _ c _ ih

/-- A call terminates if what remains of it without routes does. -/
theorem terminates_iff {α : Type} {m : ℕ → EStateM Failure Routing α} {r : ℕ → Except Failure α}
    {s : Routing} {P : Prop} (hs : Coherent net dijkstra s)
    (hm : ∀ steps, Alike (Stores net dijkstra) (m steps)
      (MonadExcept.ofExcept (r steps) : EStateM Failure (Option Node) α))
    (hok : P → ∃ steps a, r steps = .ok a) (hnot : ¬ P → ∀ steps, r steps = .error .endless) :
    Terminates m s ↔ P := by
  constructor
  · rintro ⟨steps, hsteps⟩
    by_contra hP
    have hr : (MonadExcept.ofExcept (r steps) : EStateM Failure (Option Node) α) s.theCentral =
        .error .endless s.theCentral := by
      rw [hnot hP steps]
      rfl
    obtain ⟨s', hs', -⟩ := error_of_alike (hm steps) ⟨hs, rfl⟩ hr
    exact hsteps s' hs'
  · intro hP
    obtain ⟨steps, a, ha⟩ := hok hP
    refine ⟨steps, fun s' => ?_⟩
    have hr : (MonadExcept.ofExcept (r steps) : EStateM Failure (Option Node) α) s.theCentral =
        .ok a s.theCentral := by
      rw [ha]
      rfl
    obtain ⟨s'', hs'', -⟩ := ok_of_alike (hm steps) ⟨hs, rfl⟩ hr
    rw [hs'']
    exact fun h => nomatch h

theorem txTime_terminates_iff (hnet : net.WellFormed) (hfinds : Finds net dijkstra) {s : Routing}
    (hs : Coherent net dijkstra s) {a b : Node} (ha : a ∈ net.nodes) (hb : b ∈ net.nodes) (aBytes : ℕ) :
    Terminates (fun steps => net.txTime dijkstra steps a b aBytes) s ↔ TxEnds net a b aBytes := by
  refine terminates_iff hs (fun steps => txTime_alike (node_lt hnet hb) aBytes) (fun h => ?_)
    fun h steps => txTimeOf_endless hnet hfinds ha hb h steps
  obtain ⟨t, ht⟩ := txTimeOf_ends hnet hfinds hb h (le_refl _)
  exact ⟨_, t, ht⟩

theorem hops_terminates_iff (hnet : net.WellFormed) (hfinds : Finds net dijkstra) {s : Routing}
    (hs : Coherent net dijkstra s) {a b : Node} (ha : a ∈ net.nodes) (hb : b ∈ net.nodes) :
    Terminates (fun steps => net.hops dijkstra steps a b) s ↔
      net.theGraph.Reachable b.theId a.theId := by
  refine terminates_iff hs (fun steps => hops_alike (node_lt hnet hb)) (fun h => ?_) fun h steps => ?_
  · obtain ⟨way, hway⟩ := wayTo_of_reachable hnet (hfinds.tree hnet hb) (node_lt hnet hb) h (le_refl _)
    exact ⟨_, _, by rw [hopsOf, hway]; rfl⟩
  · rw [hopsOf, wayTo_of_not_reachable hnet (hfinds.tree hnet hb) (node_lt hnet ha) h]
    rfl

/-- The central node is not searched again. -/
theorem central_terminates_of_some (hnet : net.WellFormed) {s : Routing} (hs : Coherent net dijkstra s)
    (hsome : s.theCentral ≠ none) : Terminates (net.central dijkstra) s := by
  obtain ⟨n, hn⟩ := Option.ne_none_iff_exists'.mp hsome
  have hcentral : centralOf net dijkstra 0 (some n) = .ok (some n) (some n) := rfl
  obtain ⟨s', hs', -⟩ := ok_of_alike (central_alike hnet) ⟨hs, hn⟩ hcentral
  refine ⟨0, fun s'' => ?_⟩
  rw [hs']
  exact fun h => nomatch h

theorem central_terminates_iff (hnet : net.WellFormed) (hfinds : Finds net dijkstra) {s : Routing}
    (hs : Coherent net dijkstra s) : Terminates (net.central dijkstra) s ↔
      s.theCentral ≠ none ∨ ∀ a ∈ net.theProcessing, ∀ b ∈ net.theProcessing,
        net.theGraph.Reachable b.theId a.theId := by
  constructor
  · rintro ⟨steps, hsteps⟩
    rw [or_iff_not_imp_left, not_not]
    intro hnone a ha b hb
    rcases centralOf_cases hnet hfinds steps with ⟨-, hall⟩ | ⟨⟨t, ht⟩, -⟩
    · by_contra hnot
      have hends : ¬ TxEnds net a b 1000 := not_or.mpr ⟨by norm_num, hnot⟩
      obtain ⟨t, ht⟩ := hall a ha b hb
      rw [txTimeOf_endless hnet hfinds (hnet.processing a ha) (hnet.processing b hb) hends] at ht
      cases ht
    · obtain ⟨s', hs', -⟩ := error_of_alike (central_alike hnet) ⟨hs, hnone⟩ ht
      exact absurd hs' (hsteps s')
  · intro h
    by_cases hnone : s.theCentral = none
    · have hall := h.resolve_left (not_not.mpr hnone)
      refine ⟨net.theElements.length, fun s'' => ?_⟩
      rcases centralOf_cases hnet hfinds net.theElements.length with
        ⟨⟨r, t, ht⟩, -⟩ | ⟨-, a, ha, b, hb, hfail⟩
      · obtain ⟨s', hs', -⟩ := ok_of_alike (central_alike hnet) ⟨hs, hnone⟩ ht
        rw [hs']
        exact fun h => nomatch h
      · have hends : TxEnds net a b 1000 := .inr (hall a ha b hb)
        obtain ⟨t, ht⟩ := txTimeOf_ends hnet hfinds (hnet.processing b hb) hends (le_refl _)
        rw [ht] at hfail
        cases hfail
    · exact central_terminates_of_some hnet hs hnone

/-- After any calls that have terminated, a transmission time and a number of hops are found if
and only if the destination reaches the source (or there is nothing to transmit), and the central
node if it is known or all processing nodes reach each other. -/
theorem calls_terminate_iff (env : Env) (net : Network) (hnet : Accepted env net) (dijkstra : Dijkstra)
    (hfinds : Finds net dijkstra) (s : Routing) (hs : Reached env net dijkstra s) :
    (∀ aSrc ∈ net.nodes, ∀ aDst ∈ net.nodes,
      (∀ aBytes, Terminates (fun steps => net.txTime dijkstra steps aSrc aDst aBytes) s ↔
        aBytes = 0 ∨ net.theGraph.Reachable aDst.theId aSrc.theId) ∧
      (Terminates (fun steps => net.hops dijkstra steps aSrc aDst) s ↔
        net.theGraph.Reachable aDst.theId aSrc.theId)) ∧
    (Terminates (net.central dijkstra) s ↔
      s.theCentral ≠ none ∨ ∀ a ∈ net.theProcessing, ∀ b ∈ net.theProcessing,
        net.theGraph.Reachable b.theId a.theId) := by
  have hwf := hnet.wellFormed
  refine ⟨fun aSrc hsrc aDst hdst => ⟨fun aBytes => ?_, ?_⟩, ?_⟩
  · exact txTime_terminates_iff hwf hfinds hs.coherent hsrc hdst aBytes
  · exact hops_terminates_iff hwf hfinds hs.coherent hsrc hdst
  · exact central_terminates_iff hwf hfinds hs.coherent

end Calls

section Samples

def nodeA : Node := ⟨"a", 0, .Processing, 1, 1, .Cpu, true, by decide, fun _ => by norm_num⟩

def nodeB : Node := ⟨"b", 1, .Processing, 1, 1, .Cpu, true, by decide, fun _ => by norm_num⟩

/-- Two nodes with an edge in each direction. -/
theorem two_nodes_joined : ∃ net, fromSets [nodeA, nodeB] [] [("a", ["b"]), ("b", ["a"])] [] = .ok net ∧
    net.nodes = [nodeA, nodeB] ∧ net.theProcessing = [nodeA, nodeB] ∧
    net.theGraph = ⟨2, [(0, 1, 0), (1, 0, 0)]⟩ := by
  obtain ⟨net, hnet, hparts⟩ := ok_of_toOption
    (m := fromSets [nodeA, nodeB] [] [("a", ["b"]), ("b", ["a"])] [])
    (f := fun net => ((net.nodes, net.theProcessing), net.theGraph.vertices, net.theGraph.edges))
    (b := (([nodeA, nodeB], [nodeA, nodeB]), 2, [(0, 1, 0), (1, 0, 0)])) (by decide +kernel)
  simp only [Prod.mk.injEq] at hparts
  obtain ⟨⟨hnodes, hprocessing⟩, hvertices, hedges⟩ := hparts
  refine ⟨net, hnet, hnodes, hprocessing, ?_⟩
  rw [← hvertices, ← hedges]

/-- Two nodes without edges. -/
theorem two_nodes_apart : ∃ net, fromSets [nodeA, nodeB] [] [] [] = .ok net ∧
    net.nodes = [nodeA, nodeB] ∧ net.theProcessing = [nodeA, nodeB] ∧ net.theGraph = ⟨2, []⟩ := by
  obtain ⟨net, hnet, hparts⟩ := ok_of_toOption (m := fromSets [nodeA, nodeB] [] [] [])
    (f := fun net => ((net.nodes, net.theProcessing), net.theGraph.vertices, net.theGraph.edges))
    (b := (([nodeA, nodeB], [nodeA, nodeB]), 2, [])) (by decide +kernel)
  simp only [Prod.mk.injEq] at hparts
  obtain ⟨⟨hnodes, hprocessing⟩, hvertices, hedges⟩ := hparts
  refine ⟨net, hnet, hnodes, hprocessing, ?_⟩
  rw [← hvertices, ← hedges]

/-- The paths in a graph of two vertices joined in both directions. -/
def joinedPaths : Dijkstra := fun g aDstId => (List.range g.vertices).map fun _ => (0, aDstId)

theorem joinedPaths_tree {aDstId : ℕ} (h : aDstId < 2) :
    Tree ⟨2, [(0, 1, 0), (1, 0, 0)]⟩ aDstId (joinedPaths ⟨2, [(0, 1, 0), (1, 0, 0)]⟩ aDstId) := by
  have hnext : ∀ v < 2, Network.nextOf (joinedPaths ⟨2, [(0, 1, 0), (1, 0, 0)]⟩ aDstId) v = aDstId := by
    intro v hv
    interval_cases v <;> rfl
  have hedge : ∀ v < 2, v ≠ aDstId → Graph.Edge ⟨2, [(0, 1, 0), (1, 0, 0)]⟩ aDstId v := by
    intro v hv hne
    interval_cases v <;> interval_cases aDstId <;> simp_all [Graph.Edge]
  have hlt : ∀ v, Graph.Reachable ⟨2, [(0, 1, 0), (1, 0, 0)]⟩ aDstId v → v < 2 := by
    intro v hv
    cases hv with
    | refl => exact h
    | tail _ hstep =>
      obtain ⟨w, hw⟩ := hstep
      simp only [List.mem_cons, Prod.mk.injEq, List.not_mem_nil, or_false] at hw
      omega
  refine ⟨rfl, hnext aDstId h, ⟨fun v => if v = aDstId then 0 else 1, fun v hv hne => ?_⟩,
    fun v hv hnot => ?_⟩
  · rw [hnext v (hlt v hv)]
    refine ⟨hedge v (hlt v hv) hne, .refl, ?_⟩
    simp [hne]
  · by_cases hsame : v = aDstId
    · exact (hnot (hsame ▸ .refl)).elim
    · exact (hnot (.single (hedge v hv hsame))).elim

/-- The paths in a graph without edges. -/
def noPaths : Dijkstra := fun g _ => (List.range g.vertices).map fun v => (0, v)

theorem reachable_without_edges {n u v : ℕ} (h : Graph.Reachable ⟨n, []⟩ u v) : v = u := by
  cases h with
  | refl => rfl
  | tail _ hstep =>
    obtain ⟨w, hw⟩ := hstep
    cases hw

theorem noPaths_tree {aDstId : ℕ} (h : aDstId < 2) : Tree ⟨2, []⟩ aDstId (noPaths ⟨2, []⟩ aDstId) := by
  have hnext : ∀ v < 2, Network.nextOf (noPaths ⟨2, []⟩ aDstId) v = v := by
    intro v hv
    interval_cases v <;> rfl
  exact ⟨rfl, hnext aDstId h, ⟨fun _ => 0, fun v hv hne => absurd (reachable_without_edges hv) hne⟩,
    fun v hv _ => hnext v hv⟩

theorem calls_terminate_iff_twoNodes : ∃ net, Accepted plainEnv net ∧ nodeA ∈ net.nodes ∧
    (∀ aSrc ∈ net.nodes, ∀ aDst ∈ net.nodes,
      (∀ aBytes, Terminates (fun steps => net.txTime joinedPaths steps aSrc aDst aBytes) net.start ↔
        aBytes = 0 ∨ net.theGraph.Reachable aDst.theId aSrc.theId) ∧
      (Terminates (fun steps => net.hops joinedPaths steps aSrc aDst) net.start ↔
        net.theGraph.Reachable aDst.theId aSrc.theId)) ∧
    (Terminates (net.central joinedPaths) net.start ↔
      net.start.theCentral ≠ none ∨ ∀ a ∈ net.theProcessing, ∀ b ∈ net.theProcessing,
        net.theGraph.Reachable b.theId a.theId) := by
  obtain ⟨net, hnet, hnodes, -, hgraph⟩ := two_nodes_joined
  refine ⟨net, .sets hnet, by simp [hnodes], calls_terminate_iff plainEnv net (.sets hnet) joinedPaths
    ?_ net.start .start⟩
  rw [Finds, hgraph]
  exact fun aDstId h => joinedPaths_tree h

/-- Between two nodes without edges no call ends: each is left as its own predecessor. -/
theorem calls_without_end : ∃ net, Accepted plainEnv net ∧ Finds net noPaths ∧
    net.nodes = [nodeA, nodeB] ∧
    ¬ Terminates (fun steps => net.txTime noPaths steps nodeA nodeB 1) net.start ∧
    ¬ Terminates (fun steps => net.hops noPaths steps nodeA nodeB) net.start ∧
    ¬ Terminates (net.central noPaths) net.start := by
  obtain ⟨net, hnet, hnodes, hprocessing, hgraph⟩ := two_nodes_apart
  have hfinds : Finds net noPaths := by
    rw [Finds, hgraph]
    exact fun aDstId h => noPaths_tree h
  have hwf := fromSets_wellFormed hnet
  have hapart : ¬ net.theGraph.Reachable nodeB.theId nodeA.theId := by
    rw [hgraph]
    intro h
    exact absurd (reachable_without_edges h) (by decide)
  have ha : nodeA ∈ net.nodes := by simp [hnodes]
  have hb : nodeB ∈ net.nodes := by simp [hnodes]
  refine ⟨net, .sets hnet, hfinds, hnodes, ?_, ?_, ?_⟩
  · rw [txTime_terminates_iff hwf hfinds start_coherent ha hb, TxEnds]
    exact not_or.mpr ⟨one_ne_zero, hapart⟩
  · rw [hops_terminates_iff hwf hfinds start_coherent ha hb]
    exact hapart
  · rw [central_terminates_iff hwf hfinds start_coherent]
    refine not_or.mpr ⟨fun h => h rfl, fun hall => ?_⟩
    exact hapart (hall nodeA (by simp [hprocessing]) nodeB (by simp [hprocessing]))

end Samples


end ServerlessEdge.StateSim
