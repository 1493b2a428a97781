import ServerlessEdge.Computer.EdgeComputerSim
import ServerlessEdge.Computer.Executions

/-! When no work is left, a request has got exactly one response and left nothing
behind, provided that its workflow can be executed up to the last function. -/
namespace ServerlessEdge.Computer
open Std Library Messages EdgeComputer Joins Triple

/-- No work is left. -/
structure System.Idle (s : System) : Prop where
  messages : s.theMessages = []
  queue : s.theComputer.theAsyncQueue = []
  running : s.theRunning = []

/-- How many responses to a request have been delivered to a callback. -/
def replies (aCallback u : String) (es : List Event) : Nat :=
  es.countP fun
    | .responded e m _ => e = aCallback ∧ m.uuid = u
    | _ => false

/-- None of the states is remote. -/
def Embedded (aStates : ExtTreeMap String Rpc.State) : Prop :=
  ∀ (x : String) (st : Rpc.State), aStates[x]? = some st → st.location = ""

/-- The names of the functions that a request leads to. -/
def functions (r : LambdaRequest) : List String :=
  r.theName :: (r.toProtobuf.chain ++ r.toProtobuf.dag.names)

/-- Every function is deployed and executed without error, and makes no state remote. -/
def Deployed (env : Environment) (rs : List LambdaRequest) : Prop :=
  ∀ r ∈ rs, ∀ m, Belongs r m → m.name ∈ functions r → Embedded m.states →
    ∀ n, ∃ resp, env.realExecution n m = .ok resp ∧ Embedded resp.states

/-- The condition under which a request is executed up to the end. -/
def Completes (r : LambdaRequest) : Prop :=
  match r.theDag with
  | none => True
  | some d => d.Complete

section Graph

variable {r : LambdaRequest}

/-- The index of the last function. -/
def last (r : LambdaRequest) : Nat :=
  if 0 < r.toProtobuf.chain.length then r.toProtobuf.chain.length - 1 else (successors r).length

/-- The workflows that complete are those with a sound graph and a last function
that can be reached. -/
theorem completes_iff (h : Accepted r) : Completes r ↔
    (r.theDag = none ∨ successors r ≠ []) ∧
      Relation.ReflTransGen (Follows r) 0 (last r) ∧ Sound (edges r.toProtobuf) none := by
  rw [sound_iff]
  cases hd : r.theDag with
  | some d =>
    have hchain : ¬ 0 < r.toProtobuf.chain.length := by
      rw [h.chain_length hd]
      exact Nat.lt_irrefl 0
    simp only [Completes, hd, last, if_neg hchain, successors, follows_dag h hd]
    constructor
    · intro hd
      exact ⟨.inr hd.several, hd.last, hd.closed, hd.acyclic⟩
    · rintro ⟨hsome, hlast, hclosed, hacyclic⟩
      exact ⟨hsome.resolve_left (Option.some_ne_none d), hlast, hclosed, hacyclic⟩
  | none =>
    simp only [Completes, hd, true_or, true_and, true_iff]
    by_cases hc : 0 < r.toProtobuf.chain.length
    · -- a chain is a path
      have hreach : ∀ i, i < r.toProtobuf.chain.length → Relation.ReflTransGen (Follows r) 0 i := by
        intro i
        induction i with
        | zero => exact fun _ => .refl
        | succ i ih => exact fun hi => (ih (by omega)).tail ((follows_chain hc).mpr ⟨rfl, hi⟩)
      have hlt : ∀ i j, Relation.TransGen (Follows r) i j → i < j := by
        intro i j hij
        induction hij with
        | single he =>
          have hj := (follows_chain hc).mp he
          omega
        | tail _ he ih =>
          have hj := (follows_chain hc).mp he
          omega
      refine ⟨?_, fun i j hij _ => ?_, fun j _ hcycle => ?_⟩
      · rw [last, if_pos hc]
        exact hreach _ (by omega)
      · have hj := (follows_chain hc).mp hij
        exact hreach i (by omega)
      · exact Nat.lt_irrefl j (hlt j j hcycle)
    · refine ⟨?_, fun i j hij _ => absurd hij (follows_single hc hd), fun j _ hcycle => ?_⟩
      · rw [last, if_neg hc, successors, hd]
        exact .refl
      · obtain ⟨i, -, he⟩ := Relation.TransGen.tail'_iff.mp hcycle
        exact follows_single hc hd he

/-- A worker takes for the last function the last one, unless the DAG has a single
function: then there is none. -/
theorem lastFunction_iff {m : Rpc.LambdaRequest} (h : Accepted r) (hb : Belongs r m)
    (hreach : Relation.ReflTransGen (Follows r) 0 m.nextfunctionindex) :
    lastFunction m = true ↔
      (r.theDag = none ∨ successors r ≠ []) ∧ m.nextfunctionindex = last r := by
  have hsucc : r.toProtobuf.dag.successors = successors r := length_successors r
  rw [lastFunction, decide_eq_true_eq, hb.chain, hb.dag, hsucc]
  cases hd : r.theDag with
  | some d =>
    have hchain := h.chain_length hd
    have hnames : r.toProtobuf.dag.names = d.theFunctionNames := by
      simp only [LambdaRequest.toProtobuf, hd]
    have hsized := d.sized
    have hdag : successors r = d.theSuccessors := by simp only [successors, hd]
    have hpos : successors r ≠ [] ↔ 1 < d.theFunctionNames.length := by
      rw [hdag, ← List.length_pos_iff]
      omega
    rw [hnames, hchain, hpos, last, if_neg (by omega)]
    simp only [reduceCtorEq, false_or]
    omega
  | none =>
    have hnames : r.toProtobuf.dag.names = [] := by
      simp only [LambdaRequest.toProtobuf, hd]
    rw [hnames]
    by_cases hc : 0 < r.toProtobuf.chain.length
    · rw [last, if_pos hc]
      simp only [List.length_nil, true_or, true_and]
      omega
    · have hzero : m.nextfunctionindex = 0 := by
        rcases Relation.ReflTransGen.cases_tail hreach with heq | ⟨i, -, he⟩
        · exact heq
        · exact absurd he (follows_single hc hd)
      have hnil : successors r = [] := by simp only [successors, hd]
      have hlen : r.toProtobuf.chain.length = 0 := by omega
      rw [last, if_neg hc, hnil, hzero, hlen]
      simp

end Graph

section Success

variable {rs : List LambdaRequest} {env : Environment} {s s' : System}

/-- A request whose execution cannot fail. -/
structure Fit (r : LambdaRequest) (m : Rpc.LambdaRequest) : Prop where
  belongs : Belongs r m
  name : m.name ∈ functions r
  embedded : Embedded m.states

/-- Nothing has failed, and there is a response for each last function. -/
structure Reliable (rs : List LambdaRequest) (s : System) : Prop where
  coupled : Coupled rs s
  fit : ∀ m ∈ pending s, ∃ r ∈ rs, Fit r m
  failed : ∀ m, .failed m ∉ s.theLog
  completed : ∀ m, .completed m ∈ s.theLog → ∃ r ∈ rs, Belongs r m
  replied : ∀ r ∈ rs, replies r.theCallback r.theUuid s.theLog = s.theLog.countP fun
    | .completed m => m.uuid = r.theUuid ∧ lastFunction m
    | _ => false

theorem handleRemoteStates_embedded {m : Rpc.LambdaRequest} (h : Embedded m.states)
    (resp : Rpc.LambdaResponse) (s : System) : handleRemoteStates m resp s = .ok resp s := by
  have hall (xs : List (String × Rpc.State)) (hxs : ∀ x ∈ xs, x.2.location = "") :
      xs.foldlM (handleRemoteState m) resp s = .ok resp s := by
    induction xs with
    | nil => rfl
    | cons x xs ih =>
      have hx : handleRemoteState m resp x s = .ok resp s := by
        unfold handleRemoteState
        rw [if_pos (hxs x List.mem_cons_self)]
        rfl
      rw [List.foldlM_cons, bind_of_ok hx]
      exact ih fun y hy => hxs y (List.mem_cons_of_mem x hy)
  apply hall
  intro x hx
  exact h x.1 x.2 (Maps.mem_toList.mp hx)

theorem blockingExecution_embedded {m : Rpc.LambdaRequest} (h : Embedded m.states)
    {resp : Rpc.LambdaResponse} (hresp : env.realExecution s.theLog.length m = .ok resp) :
    blockingExecution env m s = .ok resp s := by
  unfold blockingExecution
  rw [get_bind_apply, hresp]
  exact handleRemoteStates_embedded h resp s

theorem blockingExecution_fit (henv : Deployed env rs) {r : LambdaRequest} (hr : r ∈ rs)
    {m : Rpc.LambdaRequest} (h : Fit r m) (s : System) :
    ∃ resp, blockingExecution env m s = .ok resp s ∧ Embedded resp.states := by
  obtain ⟨resp, hresp, hemb⟩ := henv r hr m h.belongs h.name h.embedded s.theLog.length
  exact ⟨resp, blockingExecution_embedded h.embedded hresp, hemb⟩

theorem embedded_received {aStates : ExtTreeMap String Rpc.State} (h : Embedded aStates) :
    Embedded (serializeStates (deserializeStates aStates)) := by
  intro x st hst
  simp only [serializeStates, deserializeStates, ExtTreeMap.getElem?_map, Option.map_map,
    Option.map_eq_some_iff] at hst
  obtain ⟨st', hst', rfl⟩ := hst
  exact h x st' hst'

private theorem name_of_next {r : LambdaRequest} {m : Rpc.LambdaRequest} (hb : Belongs r m)
    {x : Nat × String} (hx : x ∈ nextFunctions m) : x.2 ∈ functions r := by
  unfold nextFunctions at hx
  rw [hb.chain, hb.dag] at hx
  simp only [functions, List.mem_cons, List.mem_append]
  split at hx
  · split at hx
    · simp at hx
    · next f hf =>
      rw [List.mem_singleton.mp hx]
      exact .inr (.inl (List.mem_of_getElem? hf))
  · split at hx
    · simp at hx
    · next js hjs =>
      obtain ⟨j, -, hj⟩ := List.mem_filterMap.mp hx
      obtain ⟨f, hf, rfl⟩ := Option.map_eq_some_iff.mp hj
      exact .inr (.inr (List.mem_of_getElem? hf))

theorem reliable_change (hrs : ∀ r ∈ rs, Accepted r) (huuid : (rs.map LambdaRequest.theUuid).Nodup)
    (henv : Deployed env rs) (h : Reliable rs s) (hs : Change env rs s s') : Reliable rs s' := by
  have hrun : ∀ m ∈ s.theRunning, ∃ r ∈ rs, Fit r m := by
    intro m hm
    apply h.fit m
    simp only [pending, List.mem_append]
    exact .inr hm
  refine ⟨coupled_change hrs huuid h.coupled hs, fun x hx => ?_, ?_, fun m hm => ?_,
    fun r hr => ?_⟩
  · rcases pending_change hs hx with hx | ⟨hi, hr, hb, hok, hbel, hstates, hnext, -⟩
    · exact h.fit x hx
    · rename_i i m r resp c
      obtain ⟨r', hr', hfit⟩ := hrun m (List.mem_of_getElem? hi)
      obtain ⟨resp', hresp, hemb⟩ := blockingExecution_fit henv hr' hfit
        { s with theRunning := s.theRunning.eraseIdx i }
      rw [hok] at hresp
      cases hresp
      refine ⟨r, hr, hbel, name_of_next hb hnext, ?_⟩
      rw [hstates]
      exact embedded_received hemb
  · intro m hm
    cases hs with
    | idle => exact h.failed m hm
    | deliver hi hr hb he =>
      simp only [delivered, List.mem_cons, reduceCtorEq, false_or] at hm
      exact h.failed m hm
    | start hi hr hb =>
      simp only [started, List.mem_cons, reduceCtorEq, false_or] at hm
      exact h.failed m hm
    | finish hi hr hb hok hms hbel =>
      simp only [finished, responses, List.cons_append, List.mem_cons, reduceCtorEq, false_or,
        List.mem_append] at hm
      rcases hm with hm | hm
      · split at hm <;> simp at hm
      · exact h.failed m hm
    | fail hi hr hb herr =>
      rename_i i m' r err c
      obtain ⟨r', hr', hfit⟩ := hrun m' (List.mem_of_getElem? hi)
      obtain ⟨resp, hresp, -⟩ := blockingExecution_fit henv hr' hfit
        { s with theRunning := s.theRunning.eraseIdx i }
      rw [herr] at hresp
      cases hresp
  · cases hs with
    | idle => exact h.completed m hm
    | deliver hi hr hb he =>
      simp only [delivered, List.mem_cons, reduceCtorEq, false_or] at hm
      exact h.completed m hm
    | start hi hr hb =>
      simp only [started, List.mem_cons, reduceCtorEq, false_or] at hm
      exact h.completed m hm
    | finish hi hr hb hok hms hbel =>
      rename_i i m' r resp ms c
      simp only [finished, responses, List.cons_append, List.mem_cons, Event.completed.injEq,
        List.mem_append] at hm
      rcases hm with rfl | hm | hm
      · exact ⟨r, hr, hb⟩
      · split at hm <;> simp at hm
      · exact h.completed m hm
    | fail hi hr hb herr =>
      simp only [thrown, List.mem_cons, reduceCtorEq, false_or] at hm
      exact h.completed m hm
  · have hreplied := h.replied r hr
    unfold replies at hreplied ⊢
    cases hs with
    | idle => exact hreplied
    | deliver hi hr' hb he => exact hreplied
    | start hi hr' hb => exact hreplied
    | finish hi hr' hb hok hms hbel =>
      rename_i i m r' resp ms c
      simp only [finished, List.cons_append, List.countP_cons, List.countP_append, hreplied]
      by_cases hu : m.uuid = r.theUuid
      · have heq := eq_of_uuid huuid hr' hr (hb.uuid.symm.trans hu)
        subst heq
        by_cases hlast : lastFunction m = true
        · simp [responses, hlast, hu, hb.callback, Nat.add_comm]
        · simp [responses, hlast]
      · unfold responses
        split <;> simp [hu]
    | fail hi hr' hb herr => exact hreplied

theorem reliable_new (hrs : ∀ r ∈ rs, Accepted r) (huuid : (rs.map LambdaRequest.theUuid).Nodup)
    (hlocal : ∀ r ∈ rs, Embedded r.toProtobuf.states) (aServerEndpoint : String)
    (aStateClient : Option String) (aStateRepos : ExtTreeMap String (ExtTreeMap String String)) :
    Reliable rs (System.new aServerEndpoint aStateClient aStateRepos rs) := by
  refine ⟨coupled_new hrs huuid aServerEndpoint aStateClient aStateRepos, fun m hm => ?_,
    fun m hm => absurd hm List.not_mem_nil, fun m hm => absurd hm List.not_mem_nil, fun r hr => rfl⟩
  simp only [pending, System.new, List.map_map, List.append_nil, List.mem_map,
    Function.comp] at hm
  obtain ⟨r, hr, rfl⟩ := hm
  exact ⟨r, hr, .self r, List.mem_cons_self, hlocal r hr⟩

theorem reliable_run (hrs : ∀ r ∈ rs, Accepted r) (huuid : (rs.map LambdaRequest.theUuid).Nodup)
    (hlocal : ∀ r ∈ rs, Embedded r.toProtobuf.states) (henv : Deployed env rs)
    (aServerEndpoint : String) (aStateClient : Option String)
    (aStateRepos : ExtTreeMap String (ExtTreeMap String String)) (aActions : List Action) :
    ∀ s ∈ Runs.states (step env) (System.new aServerEndpoint aStateClient aStateRepos rs) aActions,
      Reliable rs s := by
  apply Runs.invariant
  · intro s a h
    exact reliable_change hrs huuid henv h (step_change hrs h.coupled a)
  · exact reliable_new hrs huuid hlocal aServerEndpoint aStateClient aStateRepos

/-- The responses to a request are the completions of its last function. -/
theorem replies_eq (hrs : ∀ r ∈ rs, Accepted r) (huuid : (rs.map LambdaRequest.theUuid).Nodup)
    (h : Reliable rs s) {r : LambdaRequest} (hr : r ∈ rs) :
    replies r.theCallback r.theUuid s.theLog = if r.theDag = none ∨ successors r ≠ [] then
      (marking r.theUuid s).done.count (some (last r)) else 0 := by
  have hlast : ∀ m, .completed m ∈ s.theLog → m.uuid = r.theUuid → (lastFunction m = true ↔
      (r.theDag = none ∨ successors r ≠ []) ∧ m.nextfunctionindex = last r) := by
    intro m hm hu
    obtain ⟨r', hr', hb⟩ := h.completed m hm
    have heq := eq_of_uuid huuid hr' hr (hb.uuid.symm.trans hu)
    subst heq
    have hdone : some m.nextfunctionindex ∈ (marking r'.theUuid s).done := by
      have hmem : some m.nextfunctionindex ∈ s.theLog.filterMap (completionOf r'.theUuid) :=
        List.mem_filterMap.mpr ⟨_, hm, if_pos hu⟩
      exact Multiset.mem_cons_of_mem (Multiset.mem_coe.mpr hmem)
    have hpath := ((h.coupled.accounted r' hr).fires _ (mem_visits_of_done hdone)).path
    exact lastFunction_iff (hrs r' hr) hb (path_iff.mp hpath)
  rw [h.replied r hr]
  split
  · next hsome =>
    have hdone : (marking r.theUuid s).done =
        none ::ₘ ↑(s.theLog.filterMap (completionOf r.theUuid)) := rfl
    rw [hdone, Multiset.count_cons_of_ne (Option.some_ne_none _), count_filterMap]
    apply List.countP_congr
    intro e he
    cases e with
    | completed m =>
      simp only [completionOf, nodeOf, decide_eq_true_eq]
      by_cases hu : m.uuid = r.theUuid
      · simp only [hu, hlast m he hu, hsome, true_and, if_true, Option.some.injEq,
          decide_eq_true_eq]
      · simp only [hu, false_and, if_false, reduceCtorEq, decide_eq_true_eq]
    | _ => simp [completionOf]
  · next hsome =>
    apply List.countP_eq_zero.mpr
    intro e he
    cases e with
    | completed m =>
      simp only [decide_eq_true_eq, not_and]
      intro hu hm
      exact hsome ((hlast m he hu).mp hm).1
    | _ => simp

/-- Once no work is left, exactly one response has been delivered and no invocation
is left waiting, just when the workflow can be executed up to the last function. -/
theorem replied_once_iff (hrs : ∀ r ∈ rs, Accepted r) (huuid : (rs.map LambdaRequest.theUuid).Nodup)
    (hlocal : ∀ r ∈ rs, Embedded r.toProtobuf.states) (henv : Deployed env rs)
    (aServerEndpoint : String) (aStateClient : Option String)
    (aStateRepos : ExtTreeMap String (ExtTreeMap String String)) (aActions : List Action)
    (hs : s ∈ Runs.states (step env) (System.new aServerEndpoint aStateClient aStateRepos rs) aActions)
    (hidle : s.Idle) {r : LambdaRequest} (hr : r ∈ rs) :
    replies r.theCallback r.theUuid s.theLog = 1 ∧
      (∀ v, s.theComputer.theInvocations[hash v r.theUuid]? = none) ↔ Completes r := by
  have h := reliable_run hrs huuid hlocal henv aServerEndpoint aStateClient aStateRepos aActions s hs
  have hacc := h.coupled.accounted r hr
  have hmidle : (marking r.theUuid s).Idle := by
    refine ⟨?_, ?_, ?_⟩
    · simp only [marking, hidle.messages, List.filterMap_nil, Multiset.coe_nil]
    · simp only [marking, hidle.queue, List.filterMap_nil, Multiset.coe_nil]
    · simp only [marking, hidle.running, List.filterMap_nil, Multiset.coe_nil]
  have hfailed : (marking r.theUuid s).failed = 0 := by
    have hnil : s.theLog.filterMap (failureOf r.theUuid) = [] := by
      apply List.filterMap_eq_nil_iff.mpr
      intro e he
      cases e with
      | failed m => exact absurd he (h.failed m)
      | _ => rfl
    simp only [marking, hnil, Multiset.coe_nil]
  have hempty : (∀ v, s.theComputer.theInvocations[hash v r.theUuid]? = none) ↔
      Sound (edges r.toProtobuf) none := by
    rw [← fires_iff_sound (edges_root _), ← fires_closed_iff,
      ← no_waiting_iff (edges_root _) hacc hmidle hfailed]
    constructor
    · intro hall v
      cases v with
      | none =>
        have hzero : into (marking r.theUuid s).arrived none = 0 := by
          apply Multiset.filter_eq_nil.mpr
          intro e he
          exact edges_root _ e (Multiset.mem_of_le hacc.arrived_le he)
        rw [hzero]
        exact Nat.dvd_zero _
      | some v =>
        have hv := hall v
        rw [h.coupled.counters r hr v, waiting] at hv
        by_contra hnot
        rw [if_neg hnot] at hv
        cases hv
    · intro hall v
      rw [h.coupled.counters r hr v, waiting, if_pos (hall (some v))]
  have hreplies : replies r.theCallback r.theUuid s.theLog = 1 ↔
      (r.theDag = none ∨ successors r ≠ []) ∧ Fires (edges r.toProtobuf) none (some (last r)) := by
    rw [replies_eq hrs huuid h hr]
    split
    · next hsome =>
      rw [← done_iff_fires hacc hmidle hfailed, and_iff_right hsome]
      have hone := Multiset.nodup_iff_count_le_one.mp hacc.once (some (last r))
      rw [← Multiset.count_pos]
      omega
    · next hsome => exact iff_of_false Nat.zero_ne_one fun hand => hsome hand.1
  rw [hreplies, hempty, completes_iff (hrs r hr), and_assoc]
  apply and_congr_right
  intro _
  rw [and_congr_left_iff]
  intro hsound
  rw [← path_iff]
  exact ⟨Fires.path, (fires_iff_sound (edges_root _)).mpr hsound _⟩

/-- The simulated functions are executed without error once they are in a container. -/
theorem EdgeComputerSim.deployed (c : EdgeComputerSim) (hrs : ∀ r ∈ rs, Accepted r)
    (hall : ∀ r ∈ rs, ∀ f ∈ functions r, f ∈ c.theContainers) : Deployed c.environment rs := by
  intro r hr m hb hname hemb n
  obtain ⟨theLambda, hlambda⟩ := Maps.lookup_of_mem (hall r hr m.name hname)
  have hreceived : ∃ q, LambdaRequest.ofProtobuf m = .ok q ∧ q.theName = m.name := by
    unfold LambdaRequest.ofProtobuf
    rw [chainOf_belongs (hrs r hr) hb, dagOf_belongs hb]
    exact ⟨_, rfl, rfl⟩
  obtain ⟨q, hq, hqn⟩ := hreceived
  have hrun : c.environment.realExecution n m = .ok (theLambda.execute q) := by
    simp only [environment, hq, addTask, hqn, hlambda, bind, Except.bind]
    rfl
  refine ⟨theLambda.execute q, hrun, ?_⟩
  rw [c.realExecution_states hrun]
  exact embedded_received hemb

end Success

section Examples

/-- The example DAG, with the functions of the two branches in the other order. -/
def allActions : List Action :=
  [.deliver 0, .start 0, .finish 0, .deliver 1, .deliver 0, .start 0, .start 0, .finish 1, .deliver 0,
    .finish 0, .deliver 0, .start 0, .finish 0]

theorem replied_once_example :
    let s := Runs.final (step exampleComputer.environment) (System.new "host0:6473" none ∅
      [exampleRequest "uuid0" ∅]) allActions
    s.Idle ∧ replies "client:6480" "uuid0" s.theLog = 1 ∧
      ∀ v, s.theComputer.theInvocations[hash v "uuid0"]? = none := by
  have hrs : ∀ r ∈ [exampleRequest "uuid0" ∅], Accepted r := by
    intro r hr
    rw [List.mem_singleton.mp hr]
    exact ⟨rfl, by decide, rfl⟩
  have hidle : (Runs.final (step exampleComputer.environment) (System.new "host0:6473" none ∅
      [exampleRequest "uuid0" ∅]) allActions).Idle := by
    refine ⟨?_, ?_, ?_⟩ <;> apply List.length_eq_zero_iff.mp <;> decide +kernel
  refine ⟨hidle, ?_⟩
  apply (replied_once_iff hrs (by decide) ?_ ?_ _ _ _ allActions (Runs.final_mem_states _ _ _) hidle
    (r := exampleRequest "uuid0" ∅) (by simp)).mpr Model.exampleDag_complete
  · intro r hr x st hst
    rw [List.mem_singleton.mp hr] at hst
    simp [exampleRequest, LambdaRequest.toProtobuf, serializeStates] at hst
  · apply exampleComputer.deployed hrs
    intro r hr f hf
    rw [List.mem_singleton.mp hr] at hf
    revert f
    decide +kernel

/-- The only function of a DAG is not taken for the last one. -/
theorem single_function_no_reply : ¬ ∀ (rs : List LambdaRequest) (env : Environment),
    (∀ r ∈ rs, Accepted r) → (rs.map LambdaRequest.theUuid).Nodup →
    (∀ r ∈ rs, Embedded r.toProtobuf.states) → Deployed env rs → ∀ aActions,
    ∀ s ∈ Runs.states (step env) (System.new "host0:6473" none ∅ rs) aActions, s.Idle →
    ∀ r ∈ rs, replies r.theCallback r.theUuid s.theLog = 1 ∧
      ∀ v, s.theComputer.theInvocations[hash v r.theUuid]? = none := by
  intro h
  let r : LambdaRequest := { LambdaRequest.singleFunction with theCallback := "client:6480" }
  have hrs : ∀ r' ∈ [r], Accepted r' := by
    intro r' hr
    rw [List.mem_singleton.mp hr]
    exact ⟨rfl, by decide, rfl⟩
  have hidle : (Runs.final (step exampleComputer.environment) (System.new "host0:6473" none ∅ [r])
      [.deliver 0, .start 0, .finish 0]).Idle := by
    refine ⟨?_, ?_, ?_⟩ <;> apply List.length_eq_zero_iff.mp <;> decide +kernel
  have hreply := (h [r] exampleComputer.environment hrs (by decide) (fun r' hr x st hst => ?_)
    (exampleComputer.deployed hrs fun r' hr f hf => ?_) _ _ (Runs.final_mem_states _ _ _) hidle r
    (by simp)).1
  · revert hreply
    decide +kernel
  · rw [List.mem_singleton.mp hr] at hst
    simp [r, LambdaRequest.singleFunction, LambdaRequest.toProtobuf, serializeStates] at hst
  · rw [List.mem_singleton.mp hr] at hf
    revert f
    decide +kernel

end Examples

end ServerlessEdge.Computer
