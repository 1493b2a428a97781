import ServerlessEdge.Computer.Workflows
import ServerlessEdge.Library.Runs

/-! Each execution is a run of tokens on the graph of its workflow, whatever the
other executions do: the map of the invocations keeps them apart. -/
namespace ServerlessEdge.Computer
open Std Library Messages EdgeComputer Joins Triple Checks

/-- A computer with workers, to which clients have sent requests. -/
def System.new (aServerEndpoint : String) (aStateClient : Option String)
    (aStateRepos : ExtTreeMap String (ExtTreeMap String String)) (aRequests : List LambdaRequest) :
    System where
  theComputer := ⟨aServerEndpoint, aStateClient, true, [], ∅⟩
  theStateRepos := aStateRepos
  theRunning := []
  theMessages := aRequests.map fun r => ⟨none, r.toProtobuf⟩
  theLog := []

/-- An invocation as a token, if it belongs to an execution. -/
def tokenOf (u : String) (m : Message) : Option (Option Nat × Option Nat) :=
  if m.request.uuid = u then some (m.source, some m.request.nextfunctionindex) else none

/-- A request as a node. -/
def nodeOf (u : String) (m : Rpc.LambdaRequest) : Option (Option Nat) :=
  if m.uuid = u then some (some m.nextfunctionindex) else none

def arrivalOf (u : String) : Event → Option (Option Nat × Option Nat)
  | .arrived m => tokenOf u m
  | _ => none

def completionOf (u : String) : Event → Option (Option Nat)
  | .completed m => nodeOf u m
  | _ => none

def failureOf (u : String) : Event → Option (Option Nat)
  | .failed m => nodeOf u m
  | _ => none

/-- The part of a system that is about one execution; the client is done with it. -/
def marking (u : String) (s : System) : Marking (Option Nat) where
  flying := ↑(s.theMessages.filterMap (tokenOf u))
  arrived := ↑(s.theLog.filterMap (arrivalOf u))
  ready := ↑(s.theComputer.theAsyncQueue.filterMap (nodeOf u))
  running := ↑(s.theRunning.filterMap (nodeOf u))
  done := none ::ₘ ↑(s.theLog.filterMap (completionOf u))
  failed := ↑(s.theLog.filterMap (failureOf u))

/-- The executions of a system are told apart by their identifiers. -/
structure Coupled (rs : List LambdaRequest) (s : System) : Prop where
  workers : s.theComputer.theAsyncWorkers = true
  messages : ∀ x ∈ s.theMessages, ∃ r ∈ rs, Belongs r x.request
  queue : ∀ m ∈ s.theComputer.theAsyncQueue, ∃ r ∈ rs, Belongs r m
  running : ∀ m ∈ s.theRunning, ∃ r ∈ rs, Belongs r m
  accounted : ∀ r ∈ rs, Accounted (edges r.toProtobuf) none (marking r.theUuid s)
  counters : ∀ r ∈ rs, ∀ v : Nat, s.theComputer.theInvocations[hash v r.theUuid]? =
    waiting (into (edges r.toProtobuf) (some v)).card
      (into (marking r.theUuid s).arrived (some v)).card

section Projection

variable {u : String} {s : System}

theorem count_filterMap {α β : Type} [DecidableEq β] (f : α → Option β) (l : List α)
    (b : β) : (↑(l.filterMap f) : Multiset β).count b = l.countP fun a => f a = some b := by
  rw [Multiset.coe_count, List.count, List.countP_filterMap]
  apply List.countP_congr
  intro a _
  cases f a <;> simp

private theorem filterMap_eraseIdx {α β : Type} (f : α → Option β) {l : List α} {i : Nat} {a : α}
    (h : l[i]? = some a) : (↑(l.filterMap f) : Multiset β) =
      ↑(f a).toList + ↑((l.eraseIdx i).filterMap f) := by
  induction l generalizing i with
  | nil => simp at h
  | cons b l ih =>
    cases i with
    | zero =>
      simp only [List.getElem?_cons_zero, Option.some.injEq] at h
      subst h
      rw [List.filterMap_cons, List.eraseIdx_cons_zero]
      cases f b <;> simp
    | succ i =>
      have hi := ih (i := i) (by simpa using h)
      rw [List.eraseIdx_cons_succ, List.filterMap_cons, List.filterMap_cons]
      cases f b with
      | none => exact hi
      | some c =>
        simp only [← Multiset.cons_coe]
        rw [hi, Multiset.add_cons]

private theorem tokenOf_eq {m : Message} (h : m.request.uuid = u) :
    tokenOf u m = some (m.source, some m.request.nextfunctionindex) := if_pos h

private theorem tokenOf_ne {m : Message} (h : m.request.uuid ≠ u) : tokenOf u m = none := if_neg h

private theorem nodeOf_eq {m : Rpc.LambdaRequest} (h : m.uuid = u) :
    nodeOf u m = some (some m.nextfunctionindex) := if_pos h

private theorem nodeOf_ne {m : Rpc.LambdaRequest} (h : m.uuid ≠ u) : nodeOf u m = none := if_neg h

end Projection

section Deliver

variable {rs : List LambdaRequest} {s : System} {m : Message} {i : Nat}

/-- The state after an invocation has arrived. -/
def delivered (i : Nat) (m : Message) (s : System) : System :=
  { s with
    theMessages := s.theMessages.eraseIdx i
    theLog := .arrived m :: s.theLog
    theComputer := { s.theComputer with
      theInvocations := (checkPreconditions m.request s.theComputer.theInvocations).2
      theAsyncQueue := if (checkPreconditions m.request s.theComputer.theInvocations).1 then
        s.theComputer.theAsyncQueue ++ [m.request] else s.theComputer.theAsyncQueue } }

/-- The others do not notice. -/
theorem marking_delivered_ne {u : String} (hi : s.theMessages[i]? = some m)
    (hu : m.request.uuid ≠ u) : marking u (delivered i m s) = marking u s := by
  have hflying := filterMap_eraseIdx (tokenOf u) hi
  rw [tokenOf_ne hu] at hflying
  have hready : (delivered i m s).theComputer.theAsyncQueue.filterMap (nodeOf u) =
      s.theComputer.theAsyncQueue.filterMap (nodeOf u) := by
    simp only [delivered]
    split
    · rw [List.filterMap_append, List.filterMap_cons, nodeOf_ne hu]
      simp
    · rfl
  unfold marking
  rw [hready]
  simp only [delivered, List.filterMap_cons, arrivalOf, completionOf, failureOf, tokenOf_ne hu]
  rw [hflying]
  simp

/-- One token arrives, and the function goes ahead if it was the last one. -/
theorem step_delivered {u : String} {E : Multiset (Option Nat × Option Nat)}
    (hi : s.theMessages[i]? = some m) (hu : m.request.uuid = u)
    (hready : (checkPreconditions m.request s.theComputer.theInvocations).1 = true ↔
      (into E (some m.request.nextfunctionindex)).card ∣
        (into (marking u s).arrived (some m.request.nextfunctionindex)).card + 1) :
    Step E (marking u s) (marking u (delivered i m s)) := by
  let e : Option Nat × Option Nat := (m.source, some m.request.nextfunctionindex)
  have hflying : (marking u s).flying = e ::ₘ (marking u (delivered i m s)).flying := by
    have h := filterMap_eraseIdx (tokenOf u) hi
    rw [tokenOf_eq hu] at h
    exact h
  have harrived : (marking u (delivered i m s)).arrived = e ::ₘ (marking u s).arrived := by
    simp only [marking, delivered, List.filterMap_cons, arrivalOf, tokenOf_eq hu]
    rfl
  have hqueue : (marking u (delivered i m s)).ready =
      wake E (marking u (delivered i m s)).arrived e.2 (marking u s).ready := by
    unfold wake
    rw [harrived, card_into_cons, if_pos rfl]
    by_cases hdvd : (into E e.2).card ∣ (into (marking u s).arrived e.2).card + 1
    · rw [if_pos hdvd]
      simp only [marking, delivered, hready.mpr hdvd, if_true, List.filterMap_append,
        List.filterMap_cons, nodeOf_eq hu, List.filterMap_nil]
      rw [← Multiset.coe_add, Multiset.add_comm]
      rfl
    · rw [if_neg hdvd]
      have hno : (checkPreconditions m.request s.theComputer.theInvocations).1 = false :=
        Bool.eq_false_iff.mpr fun h => hdvd (hready.mp h)
      simp only [marking, delivered, hno, Bool.false_eq_true, if_false]
  apply Step.arrive e hflying harrived hqueue rfl
  · simp only [marking, delivered, List.filterMap_cons, completionOf]
  · simp only [marking, delivered, List.filterMap_cons, failureOf]

end Deliver

section Workers

variable {rs : List LambdaRequest} {s : System} {m : Rpc.LambdaRequest} {i : Nat}

/-- The state after a worker has taken a request. -/
def started (i : Nat) (m : Rpc.LambdaRequest) (s : System) : System :=
  { s with
    theComputer := { s.theComputer with theAsyncQueue := s.theComputer.theAsyncQueue.eraseIdx i }
    theRunning := m :: s.theRunning
    theLog := .executed m :: s.theLog }

theorem marking_started_ne {u : String} (hi : s.theComputer.theAsyncQueue[i]? = some m)
    (hu : m.uuid ≠ u) : marking u (started i m s) = marking u s := by
  have hready := filterMap_eraseIdx (nodeOf u) hi
  rw [nodeOf_ne hu] at hready
  unfold marking
  simp only [started, List.filterMap_cons, arrivalOf, completionOf, failureOf, nodeOf_ne hu]
  rw [hready]
  simp

theorem step_started {u : String} {E : Multiset (Option Nat × Option Nat)}
    (hi : s.theComputer.theAsyncQueue[i]? = some m) (hu : m.uuid = u) :
    Step E (marking u s) (marking u (started i m s)) := by
  have hready := filterMap_eraseIdx (nodeOf u) hi
  rw [nodeOf_eq hu] at hready
  apply Step.start (m := marking u s) (some m.nextfunctionindex)
  · rfl
  · simp only [marking, started, List.filterMap_cons, arrivalOf]
  · exact hready
  · simp only [marking, started, List.filterMap_cons, nodeOf_eq hu]
    rfl
  · simp only [marking, started, List.filterMap_cons, completionOf]
  · simp only [marking, started, List.filterMap_cons, failureOf]

/-- An execution touches nothing but the contents of the state servers, and takes
none of them away. -/
def OnlyRepos (s s' : System) : Prop :=
  s' = { s with theStateRepos := s'.theStateRepos } ∧ ∀ e ∈ s.theStateRepos, e ∈ s'.theStateRepos

instance : Std.Refl OnlyRepos := ⟨fun _ => ⟨rfl, fun _ h => h⟩⟩

instance : IsTrans System OnlyRepos where
  trans s s' s'' h h' := by
    refine ⟨?_, fun e he => h'.2 e (h.2 e he)⟩
    rw [h'.1, h.1]

theorem moves_handleRemoteState (aReq : Rpc.LambdaRequest) (aResp : Rpc.LambdaResponse)
    (x : String × Rpc.State) : Moves OnlyRepos (handleRemoteState aReq aResp x) := by
  have hrepo (e : String) : Moves OnlyRepos (StateClient.repo e) := by
    refine moves_bind moves_get fun s => ?_
    split
    · exact moves_throw _
    · exact moves_pure _
  have hset (e : String) (c : ExtTreeMap String String) : Moves OnlyRepos (StateClient.setRepo e c) :=
    fun s => ⟨rfl, fun e' he' => Maps.mem_insert.mpr (.inr he')⟩
  have hclient : Moves OnlyRepos stateClient := by
    refine moves_bind moves_get fun s => ?_
    split
    · exact moves_throw _
    · exact moves_pure _
  have hget (e n : String) : Moves OnlyRepos (StateClient.Get e n) :=
    moves_bind (hrepo e) fun _ => moves_pure _
  have hput (e n c : String) : Moves OnlyRepos (StateClient.Put e n c) :=
    moves_bind (hrepo e) fun _ => hset e _
  have hdel (e n : String) : Moves OnlyRepos (StateClient.Del e n) :=
    moves_bind (hrepo e) fun _ => hset e _
  unfold handleRemoteState
  split
  · exact moves_pure _
  refine moves_bind hclient fun e => ?_
  split
  · exact moves_pure _
  split
  · exact moves_pure _
  refine moves_bind (hget _ _) fun c => ?_
  split
  · exact moves_throw _
  refine moves_bind (hput _ _ _) fun _ => moves_bind (hdel _ _) fun _ => ?_
  split
  · exact moves_throw _
  · exact moves_pure _

theorem moves_blockingExecution (env : Environment) (aReq : Rpc.LambdaRequest) :
    Moves OnlyRepos (blockingExecution env aReq) := by
  refine moves_bind moves_get fun s => ?_
  split
  · exact moves_throw _
  · exact moves_foldlM (moves_handleRemoteState aReq) _ _

variable {r : LambdaRequest}

/-- The last function is the one without any successors, in a DAG of more than
one function. -/
theorem lastFunction_next (h : Accepted r) (hb : Belongs r m) (hlast : lastFunction m = true) :
    nextFunctions m = [] := by
  simp only [lastFunction, decide_eq_true_eq] at hlast
  unfold nextFunctions
  rcases hlast with ⟨hc, hn⟩ | ⟨hc, hidx⟩ | ⟨hn, hidx⟩
  · have hnil : m.dag.successors = [] := by
      rw [hb.dag] at hn ⊢
      rw [length_successors, successors]
      cases hd : r.theDag with
      | none => rfl
      | some d =>
        simp only [LambdaRequest.toProtobuf, hd] at hn
        have hsized := d.sized
        omega
    simp [hc, hnil]
  · have hpos : 0 < m.chain.length := by omega
    have hnone : m.chain[m.nextfunctionindex + 1]? = none := List.getElem?_eq_none (by omega)
    simp only [hnone, hpos, if_true]
  · have hc : m.chain.length = 0 := by
      obtain ⟨hboth, -⟩ := checkRequest_ok.mp h.valid
      rw [hb.dag] at hn
      rw [hb.chain]
      omega
    have hnone : m.dag.successors[m.nextfunctionindex]? = none := List.getElem?_eq_none (by omega)
    simp only [hnone, hc, Nat.lt_irrefl, if_false]

/-- The responses that follow from an execution. -/
def responses (m : Rpc.LambdaRequest) (resp : Rpc.LambdaResponse) (s : System) : List Event :=
  if lastFunction m then [.responded m.callback m { resp with
    responder := s.theComputer.theServerEndpoint
    hops := (m.hops + 1) % 2 ^ 32
    retcode := "OK" }] else []

/-- A worker responds or invokes each of the next functions once. -/
theorem conclude_spec (h : Accepted r) (hb : Belongs r m) (resp : Rpc.LambdaResponse) (s : System) :
    ∃ ms : List Message, conclude m resp s =
        { s with theMessages := s.theMessages ++ ms, theLog := responses m resp s ++ s.theLog } ∧
      (ms.map fun x => (x.source, x.request.nextfunctionindex)) =
        (nextIndices m m.nextfunctionindex).map (fun j => (some m.nextfunctionindex, j)) ∧
      ∀ x ∈ ms, Belongs r x.request ∧ x.request.states = Messages.serializeStates
        (Messages.deserializeStates resp.states) ∧
        (x.request.nextfunctionindex, x.request.name) ∈ nextFunctions m := by
  by_cases hlast : lastFunction m = true
  · have hnil := lastFunction_next h hb hlast
    refine ⟨[], ?_, ?_, by simp⟩
    · simp only [conclude, responses, hlast, if_true, List.append_nil]
      rfl
    · have hnext : nextIndices m m.nextfunctionindex = (nextFunctions m).map Prod.fst := rfl
      rw [hnext, hnil]
      rfl
  · simp only [conclude, responses, hlast, if_false, Bool.false_eq_true]
    by_cases hnext : nextFunctions m = []
    · refine ⟨[], ?_, ?_, by simp⟩
      · rw [hnext]
        split <;> simp
      · have heq : nextIndices m m.nextfunctionindex = (nextFunctions m).map Prod.fst := rfl
        rw [heq, hnext]
        rfl
    · obtain ⟨q, hq, hbel⟩ := regenerate_belongs h hb hnext
      refine ⟨(nextFunctions m).map fun x =>
        ⟨some m.nextfunctionindex, (q.regenerate x.2 x.1 resp).toProtobuf⟩, ?_, ?_, fun x hx => ?_⟩
      · rw [hq]
        rfl
      · rw [List.map_map]
        have heq : nextIndices m m.nextfunctionindex = (nextFunctions m).map Prod.fst := rfl
        rw [heq, List.map_map]
        rfl
      · obtain ⟨⟨j, f⟩, hj, rfl⟩ := List.mem_map.mp hx
        exact ⟨hbel f j resp, rfl, hj⟩

/-- The state after an execution that has returned. -/
def finished (i : Nat) (m : Rpc.LambdaRequest) (resp : Rpc.LambdaResponse) (ms : List Message)
    (c : ExtTreeMap String (ExtTreeMap String String)) (s : System) : System :=
  { s with
    theStateRepos := c
    theRunning := s.theRunning.eraseIdx i
    theMessages := s.theMessages ++ ms
    theLog := .completed m :: responses m resp s ++ s.theLog }

/-- The state after one that has thrown. -/
def thrown (i : Nat) (m : Rpc.LambdaRequest) (c : ExtTreeMap String (ExtTreeMap String String))
    (s : System) : System :=
  { s with
    theStateRepos := c
    theRunning := s.theRunning.eraseIdx i
    theLog := .failed m :: s.theLog }

private theorem filterMap_responses {α : Type} (f : Event → Option α)
    (hf : ∀ e m resp, f (.responded e m resp) = none) (resp : Rpc.LambdaResponse) (s : System) :
    (responses m resp s).filterMap f = [] := by
  unfold responses
  split
  · rw [List.filterMap_cons, hf]
    rfl
  · rfl

theorem marking_finished_ne {u : String} (hi : s.theRunning[i]? = some m) (hu : m.uuid ≠ u)
    {ms : List Message} (hms : ∀ x ∈ ms, x.request.uuid ≠ u) (resp : Rpc.LambdaResponse)
    (c : ExtTreeMap String (ExtTreeMap String String)) :
    marking u (finished i m resp ms c s) = marking u s := by
  have hrunning := filterMap_eraseIdx (nodeOf u) hi
  rw [nodeOf_ne hu] at hrunning
  have hnone : ms.filterMap (tokenOf u) = [] := by
    apply List.filterMap_eq_nil_iff.mpr
    exact fun x hx => tokenOf_ne (hms x hx)
  unfold marking
  simp only [finished, List.cons_append, List.filterMap_cons, List.filterMap_append, arrivalOf,
    completionOf, failureOf, nodeOf_ne hu, hnone, List.append_nil,
    filterMap_responses (arrivalOf u) (fun _ _ _ => rfl),
    filterMap_responses (completionOf u) (fun _ _ _ => rfl),
    filterMap_responses (failureOf u) (fun _ _ _ => rfl), List.nil_append]
  rw [hrunning]
  simp

theorem step_finished {u : String} {E : Multiset (Option Nat × Option Nat)}
    (hi : s.theRunning[i]? = some m) (hu : m.uuid = u) {ms : List Message}
    (hms : ∀ x ∈ ms, x.request.uuid = u)
    (hout : out E (some m.nextfunctionindex) =
      ↑(ms.map fun x => (x.source, some x.request.nextfunctionindex)))
    (resp : Rpc.LambdaResponse) (c : ExtTreeMap String (ExtTreeMap String String)) :
    Step E (marking u s) (marking u (finished i m resp ms c s)) := by
  have hrunning := filterMap_eraseIdx (nodeOf u) hi
  rw [nodeOf_eq hu] at hrunning
  have hsent : ms.filterMap (tokenOf u) =
      ms.map fun x => (x.source, some x.request.nextfunctionindex) := by
    rw [← List.filterMap_eq_map]
    apply List.filterMap_congr
    exact fun x hx => tokenOf_eq (hms x hx)
  apply Step.finish (m := marking u s) (some m.nextfunctionindex)
  · rw [hout]
    simp only [marking, finished, List.filterMap_append, hsent]
    rw [← Multiset.coe_add, Multiset.add_comm]
  · simp only [marking, finished, List.cons_append, List.filterMap_cons, List.filterMap_append,
      arrivalOf, filterMap_responses (arrivalOf u) (fun _ _ _ => rfl), List.nil_append]
  · rfl
  · exact hrunning
  · simp only [marking, finished, List.cons_append, List.filterMap_cons, List.filterMap_append,
      completionOf, nodeOf_eq hu, filterMap_responses (completionOf u) (fun _ _ _ => rfl),
      List.nil_append]
    rw [Multiset.cons_swap]
    rfl
  · simp only [marking, finished, List.cons_append, List.filterMap_cons, List.filterMap_append,
      failureOf, filterMap_responses (failureOf u) (fun _ _ _ => rfl), List.nil_append]

theorem marking_thrown_ne {u : String} (hi : s.theRunning[i]? = some m) (hu : m.uuid ≠ u)
    (c : ExtTreeMap String (ExtTreeMap String String)) :
    marking u (thrown i m c s) = marking u s := by
  have hrunning := filterMap_eraseIdx (nodeOf u) hi
  rw [nodeOf_ne hu] at hrunning
  unfold marking
  simp only [thrown, List.filterMap_cons, arrivalOf, completionOf, failureOf, nodeOf_ne hu]
  rw [hrunning]
  simp

theorem step_thrown {u : String} {E : Multiset (Option Nat × Option Nat)}
    (hi : s.theRunning[i]? = some m) (hu : m.uuid = u)
    (c : ExtTreeMap String (ExtTreeMap String String)) :
    Step E (marking u s) (marking u (thrown i m c s)) := by
  have hrunning := filterMap_eraseIdx (nodeOf u) hi
  rw [nodeOf_eq hu] at hrunning
  apply Step.fail (m := marking u s) (some m.nextfunctionindex)
  · rfl
  · simp only [marking, thrown, List.filterMap_cons, arrivalOf]
  · rfl
  · exact hrunning
  · simp only [marking, thrown, List.filterMap_cons, completionOf]
  · simp only [marking, thrown, List.filterMap_cons, failureOf, nodeOf_eq hu]
    rfl

end Workers
section Steps

variable {rs : List LambdaRequest} {s : System} {env : Environment}

/-- All that a step can do to a system in which executions are told apart. -/
inductive Change (env : Environment) (rs : List LambdaRequest) (s : System) : System → Prop
  | idle : Change env rs s s
  | deliver {i : Nat} {m : Message} {r : LambdaRequest} (hi : s.theMessages[i]? = some m)
      (hr : r ∈ rs) (hb : Belongs r m.request)
      (he : (m.source, some m.request.nextfunctionindex) ∈ edges r.toProtobuf) :
      Change env rs s (delivered i m s)
  | start {i : Nat} {m : Rpc.LambdaRequest} {r : LambdaRequest}
      (hi : s.theComputer.theAsyncQueue[i]? = some m) (hr : r ∈ rs) (hb : Belongs r m) :
      Change env rs s (started i m s)
  | finish {i : Nat} {m : Rpc.LambdaRequest} {r : LambdaRequest} {resp : Rpc.LambdaResponse}
      {ms : List Message} {c : ExtTreeMap String (ExtTreeMap String String)}
      (hi : s.theRunning[i]? = some m) (hr : r ∈ rs) (hb : Belongs r m)
      (hrun : blockingExecution env m { s with theRunning := s.theRunning.eraseIdx i } =
        .ok resp { s with theRunning := s.theRunning.eraseIdx i, theStateRepos := c })
      (hms : (ms.map fun x => (x.source, x.request.nextfunctionindex)) =
        (nextIndices m m.nextfunctionindex).map fun j => (some m.nextfunctionindex, j))
      (hbel : ∀ x ∈ ms, Belongs r x.request ∧ x.request.states = Messages.serializeStates
        (Messages.deserializeStates resp.states) ∧
        (x.request.nextfunctionindex, x.request.name) ∈ nextFunctions m) :
      Change env rs s (finished i m resp ms c s)
  | fail {i : Nat} {m : Rpc.LambdaRequest} {r : LambdaRequest} {err : String}
      {c : ExtTreeMap String (ExtTreeMap String String)} (hi : s.theRunning[i]? = some m)
      (hr : r ∈ rs) (hb : Belongs r m)
      (hrun : blockingExecution env m { s with theRunning := s.theRunning.eraseIdx i } =
        .error err { s with theRunning := s.theRunning.eraseIdx i, theStateRepos := c }) :
      Change env rs s (thrown i m c s)

theorem step_deliver (env : Environment) (hrs : ∀ r ∈ rs, Accepted r) (h : Coupled rs s) {i : Nat}
    {m : Message} (hi : s.theMessages[i]? = some m) : step env s (.deliver i) = delivered i m s ∧
      ∃ r ∈ rs, Belongs r m.request ∧
        (m.source, some m.request.nextfunctionindex) ∈ edges r.toProtobuf := by
  obtain ⟨r, hr, hb⟩ := h.messages m (List.mem_of_getElem? hi)
  have he : (m.source, some m.request.nextfunctionindex) ∈ edges r.toProtobuf := by
    apply (h.accounted r hr).flying_subset
    have hmem : (m.source, some m.request.nextfunctionindex) ∈
        s.theMessages.filterMap (tokenOf r.theUuid) := by
      apply List.mem_filterMap.mpr
      exact ⟨m, List.mem_of_getElem? hi, tokenOf_eq hb.uuid⟩
    exact hmem
  have hprocess := process_accepted (hrs r hr) hb he env
    (s := ({ s with theMessages := s.theMessages.eraseIdx i }.record (.arrived m))) h.workers
  refine ⟨?_, r, hr, hb, he⟩
  simp only [step, hi]
  rw [hprocess]
  rfl

theorem step_start (env : Environment) {i : Nat} {m : Rpc.LambdaRequest}
    (hi : s.theComputer.theAsyncQueue[i]? = some m) : step env s (.start i) = started i m s := by
  simp only [step, hi]
  rfl

/-- An execution throws or returns, and touches only the contents of the state servers. -/
theorem step_finish (env : Environment) {i : Nat} {m : Rpc.LambdaRequest}
    (hi : s.theRunning[i]? = some m) :
    (∃ err c, blockingExecution env m { s with theRunning := s.theRunning.eraseIdx i } =
        .error err { s with theRunning := s.theRunning.eraseIdx i, theStateRepos := c } ∧
      step env s (.finish i) = thrown i m c s) ∨
    ∃ resp c, blockingExecution env m { s with theRunning := s.theRunning.eraseIdx i } =
        .ok resp { s with theRunning := s.theRunning.eraseIdx i, theStateRepos := c } ∧
      step env s (.finish i) = (conclude m resp
        { s with theRunning := s.theRunning.eraseIdx i, theStateRepos := c }).record (.completed m) := by
  have hmoves := moves_blockingExecution env m { s with theRunning := s.theRunning.eraseIdx i }
  unfold after at hmoves
  simp only [step, hi]
  cases hrun : blockingExecution env m { s with theRunning := s.theRunning.eraseIdx i } with
  | error err s' =>
    rw [hrun] at hmoves
    obtain ⟨c, rfl⟩ : ∃ c, s' =
        { s with theRunning := s.theRunning.eraseIdx i, theStateRepos := c } := ⟨_, hmoves.1⟩
    exact .inl ⟨err, c, rfl, rfl⟩
  | ok resp s' =>
    rw [hrun] at hmoves
    obtain ⟨c, rfl⟩ : ∃ c, s' =
        { s with theRunning := s.theRunning.eraseIdx i, theStateRepos := c } := ⟨_, hmoves.1⟩
    exact .inr ⟨resp, c, rfl, rfl⟩

theorem step_change (hrs : ∀ r ∈ rs, Accepted r) (h : Coupled rs s) (a : Action) :
    Change env rs s (step env s a) := by
  cases a with
  | deliver i =>
    cases hi : s.theMessages[i]? with
    | none =>
      simp only [step, hi]
      exact .idle
    | some m =>
      obtain ⟨hstep, r, hr, hb, he⟩ := step_deliver env hrs h hi
      rw [hstep]
      exact .deliver hi hr hb he
  | start i =>
    cases hi : s.theComputer.theAsyncQueue[i]? with
    | none =>
      simp only [step, hi]
      exact .idle
    | some m =>
      obtain ⟨r, hr, hb⟩ := h.queue m (List.mem_of_getElem? hi)
      rw [step_start env hi]
      exact .start hi hr hb
  | finish i =>
    cases hi : s.theRunning[i]? with
    | none =>
      simp only [step, hi]
      exact .idle
    | some m =>
      obtain ⟨r, hr, hb⟩ := h.running m (List.mem_of_getElem? hi)
      rcases step_finish env hi with ⟨err, c, hrun, hstep⟩ | ⟨resp, c, hrun, hstep⟩
      · rw [hstep]
        exact .fail hi hr hb hrun
      · obtain ⟨ms, hms, hidx, hbel⟩ := conclude_spec (hrs r hr) hb resp
          { s with theRunning := s.theRunning.eraseIdx i, theStateRepos := c }
        rw [hstep, hms]
        exact .finish hi hr hb hrun hidx hbel

/-- All the requests that are on their way, waiting for a worker or executed. -/
def pending (s : System) : List Rpc.LambdaRequest :=
  s.theMessages.map Message.request ++ s.theComputer.theAsyncQueue ++ s.theRunning

/-- A request that an execution leads to when it ends. -/
inductive Sent (env : Environment) (rs : List LambdaRequest) (s s' : System)
    (x : Rpc.LambdaRequest) : Prop
  | next {i : Nat} {m : Rpc.LambdaRequest} {r : LambdaRequest} {resp : Rpc.LambdaResponse}
      {c : ExtTreeMap String (ExtTreeMap String String)} (hi : s.theRunning[i]? = some m) (hr : r ∈ rs)
      (hb : Belongs r m) (hrun : blockingExecution env m { s with theRunning := s.theRunning.eraseIdx i } =
        .ok resp { s with theRunning := s.theRunning.eraseIdx i, theStateRepos := c })
      (hbel : Belongs r x) (hstates : x.states = Messages.serializeStates
        (Messages.deserializeStates resp.states))
      (hnext : (x.nextfunctionindex, x.name) ∈ nextFunctions m) (hrepos : s'.theStateRepos = c)

theorem pending_change {s' : System} (hs : Change env rs s s') {x : Rpc.LambdaRequest}
    (hx : x ∈ pending s') : x ∈ pending s ∨ Sent env rs s s' x := by
  cases hs with
  | idle => exact .inl hx
  | deliver hi hr hb he =>
    rename_i i m r
    left
    simp only [pending, delivered, List.mem_append, List.mem_map] at hx ⊢
    rcases hx with (⟨y, hy, rfl⟩ | hx) | hx
    · exact .inl (.inl ⟨y, List.mem_of_mem_eraseIdx hy, rfl⟩)
    · split at hx
      · rcases List.mem_append.mp hx with hx | hx
        · exact .inl (.inr hx)
        · rw [List.mem_singleton.mp hx]
          exact .inl (.inl ⟨m, List.mem_of_getElem? hi, rfl⟩)
      · exact .inl (.inr hx)
    · exact .inr hx
  | start hi hr hb =>
    left
    simp only [pending, started, List.mem_append, List.mem_cons] at hx ⊢
    rcases hx with (hx | hx) | rfl | hx
    · exact .inl (.inl hx)
    · exact .inl (.inr (List.mem_of_mem_eraseIdx hx))
    · exact .inl (.inr (List.mem_of_getElem? hi))
    · exact .inr hx
  | finish hi hr hb hrun hms hbel =>
    rename_i i m r resp ms c
    simp only [pending, finished, List.mem_append, List.map_append, List.mem_map] at hx ⊢
    rcases hx with ((hx | ⟨y, hy, rfl⟩) | hx) | hx
    · exact .inl (.inl (.inl hx))
    · obtain ⟨hbel, hstates, hnext⟩ := hbel y hy
      exact .inr (.next hi hr hb hrun hbel hstates hnext rfl)
    · exact .inl (.inl (.inr hx))
    · exact .inl (.inr (List.mem_of_mem_eraseIdx hx))
  | fail hi hr hb hrun =>
    left
    simp only [pending, thrown, List.mem_append] at hx ⊢
    rcases hx with hx | hx
    · exact .inl hx
    · exact .inr (List.mem_of_mem_eraseIdx hx)

/-- Requests with the same identifier are the same. -/
theorem eq_of_uuid (huuid : (rs.map LambdaRequest.theUuid).Nodup) {r r' : LambdaRequest}
    (hr : r ∈ rs) (hr' : r' ∈ rs) (h : r.theUuid = r'.theUuid) : r = r' :=
  List.inj_on_of_nodup_map huuid hr hr' h

/-- What a step does to one execution: nothing, or one step of its tokens. -/
theorem marking_change (hrs : ∀ r ∈ rs, Accepted r) (huuid : (rs.map LambdaRequest.theUuid).Nodup)
    (h : Coupled rs s) {s' : System} (hs : Change env rs s s') {r : LambdaRequest} (hr : r ∈ rs) :
    marking r.theUuid s' = marking r.theUuid s ∨
      Step (edges r.toProtobuf) (marking r.theUuid s) (marking r.theUuid s') := by
  cases hs with
  | idle => exact .inl rfl
  | deliver hi hr' hb he =>
    rename_i i m r'
    by_cases hu : m.request.uuid = r.theUuid
    · have heq := eq_of_uuid huuid hr' hr (hb.uuid.symm.trans hu)
      subst heq
      have hcount := h.counters r' hr m.request.nextfunctionindex
      rw [← hb.uuid] at hcount
      have hspec := checkPreconditions_spec (hrs r' hr) hb he _ hcount
      rw [hb.uuid] at hspec
      exact .inr (step_delivered hi hu hspec.1)
    · exact .inl (marking_delivered_ne hi hu)
  | start hi hr' hb =>
    rename_i i m r'
    by_cases hu : m.uuid = r.theUuid
    · exact .inr (step_started hi hu)
    · exact .inl (marking_started_ne hi hu)
  | finish hi hr' hb hrun hms hbel =>
    rename_i i m r' resp ms c
    by_cases hu : m.uuid = r.theUuid
    · have heq := eq_of_uuid huuid hr' hr (hb.uuid.symm.trans hu)
      subst heq
      refine .inr (step_finished hi hu (fun x hx => (hbel x hx).1.uuid) ?_ resp c)
      rw [out_edges, ← hb.nextIndices_eq]
      have hpairs := congrArg (List.map fun x : Option Nat × Nat => (x.1, some x.2)) hms
      rw [List.map_map, List.map_map] at hpairs
      exact congrArg _ hpairs.symm
    · refine .inl (marking_finished_ne hi hu (fun x hx hx' => hu ?_) resp c)
      exact hb.uuid.trans ((hbel x hx).1.uuid.symm.trans hx')
  | fail hi hr' hb hrun =>
    rename_i i m r' err c
    by_cases hu : m.uuid = r.theUuid
    · exact .inr (step_thrown hi hu c)
    · exact .inl (marking_thrown_ne hi hu c)

theorem coupled_change (hrs : ∀ r ∈ rs, Accepted r) (huuid : (rs.map LambdaRequest.theUuid).Nodup)
    (h : Coupled rs s) {s' : System} (hs : Change env rs s s') : Coupled rs s' := by
  have haccounted : ∀ r ∈ rs, Accounted (edges r.toProtobuf) none (marking r.theUuid s') := by
    intro r hr
    rcases marking_change hrs huuid h hs hr with heq | hstep
    · rw [heq]
      exact h.accounted r hr
    · exact (h.accounted r hr).step (edges_root _) hstep
  cases hs with
  | idle => exact h
  | deliver hi hr hb he =>
    rename_i i m r
    refine ⟨h.workers, fun x hx => h.messages x (List.mem_of_mem_eraseIdx hx), fun x hx => ?_,
      h.running, haccounted, fun r' hr' v => ?_⟩
    · simp only [delivered] at hx
      split at hx
      · rcases List.mem_append.mp hx with hx | hx
        · exact h.queue x hx
        · rw [List.mem_singleton.mp hx]
          exact ⟨r, hr, hb⟩
      · exact h.queue x hx
    · have hcount := h.counters r hr m.request.nextfunctionindex
      rw [← hb.uuid] at hcount
      have hspec := (checkPreconditions_spec (hrs r hr) hb he _ hcount).2 (hash v r'.theUuid)
      refine hspec.trans ?_
      by_cases hkey : hash v r'.theUuid = makeHash m.request
      · -- the function that the invocation is for
        obtain ⟨hv, hu⟩ := hash_inj hkey
        have heq := eq_of_uuid huuid hr' hr (hu.trans hb.uuid)
        subst heq
        rw [if_pos hkey, hv]
        have harrived : (marking r'.theUuid (delivered i m s)).arrived =
            (m.source, some m.request.nextfunctionindex) ::ₘ (marking r'.theUuid s).arrived := by
          simp only [marking, delivered, List.filterMap_cons, arrivalOf, tokenOf_eq hb.uuid]
          rfl
        rw [harrived, card_into_cons, if_pos rfl, hb.uuid]
      · rw [if_neg hkey, h.counters r' hr' v]
        by_cases hu : m.request.uuid = r'.theUuid
        · have hv : some m.request.nextfunctionindex ≠ some v := by
            intro hv
            apply hkey
            rw [← Option.some.inj hv, ← hu]
            rfl
          have harrived : (marking r'.theUuid (delivered i m s)).arrived =
              (m.source, some m.request.nextfunctionindex) ::ₘ (marking r'.theUuid s).arrived := by
            simp only [marking, delivered, List.filterMap_cons, arrivalOf, tokenOf_eq hu]
            rfl
          rw [harrived, card_into_cons, if_neg hv, Nat.add_zero]
        · rw [marking_delivered_ne hi hu]
  | start hi hr hb =>
    rename_i i m r
    refine ⟨h.workers, h.messages, fun x hx => h.queue x (List.mem_of_mem_eraseIdx hx),
      fun x hx => ?_, haccounted, fun r' hr' v => ?_⟩
    · rcases List.mem_cons.mp hx with rfl | hx
      · exact ⟨r, hr, hb⟩
      · exact h.running x hx
    · have harrived : (marking r'.theUuid (started i m s)).arrived =
          (marking r'.theUuid s).arrived := by
        simp only [marking, started, List.filterMap_cons, arrivalOf]
      rw [harrived]
      exact h.counters r' hr' v
  | finish hi hr hb hrun hms hbel =>
    rename_i i m r resp ms c
    refine ⟨h.workers, fun x hx => ?_, h.queue,
      fun x hx => h.running x (List.mem_of_mem_eraseIdx hx), haccounted, fun r' hr' v => ?_⟩
    · rcases List.mem_append.mp hx with hx | hx
      · exact h.messages x hx
      · exact ⟨r, hr, (hbel x hx).1⟩
    · have harrived : (marking r'.theUuid (finished i m resp ms c s)).arrived =
          (marking r'.theUuid s).arrived := by
        simp only [marking, finished, List.cons_append, List.filterMap_cons, List.filterMap_append,
          arrivalOf, filterMap_responses (arrivalOf r'.theUuid) (fun _ _ _ => rfl),
          List.nil_append]
      rw [harrived]
      exact h.counters r' hr' v
  | fail hi hr hb hrun =>
    rename_i i m r err c
    refine ⟨h.workers, h.messages, h.queue,
      fun x hx => h.running x (List.mem_of_mem_eraseIdx hx), haccounted, fun r' hr' v => ?_⟩
    have harrived : (marking r'.theUuid (thrown i m c s)).arrived =
        (marking r'.theUuid s).arrived := by
      simp only [marking, thrown, List.filterMap_cons, arrivalOf]
    rw [harrived]
    exact h.counters r' hr' v

/-- Of the messages that a client sends at first, one is of each request. -/
theorem requests_filter (huuid : (rs.map LambdaRequest.theUuid).Nodup) {r : LambdaRequest} (hr : r ∈ rs) :
    (rs.map fun r => (⟨none, r.toProtobuf⟩ : Message)).filter
      (fun x => x.request.uuid = r.theUuid) = [⟨none, r.toProtobuf⟩] := by
  have hown : rs.filter (fun r' => r'.theUuid = r.theUuid) = [r] := by
    have hsame : rs.filter (fun r' => r'.theUuid = r.theUuid) = rs.filter (fun r' => r' = r) := by
      refine List.filter_congr fun r' hr' => decide_eq_decide.mpr ⟨fun h => ?_, congrArg _⟩
      exact List.inj_on_of_nodup_map huuid hr' hr h
    rw [hsame, List.filter_eq, List.count_eq_one_of_mem huuid.of_map hr]
    rfl
  rw [List.filter_map]
  exact congrArg (List.map _) hown

private theorem tokens_new (hrs : ∀ r ∈ rs, Accepted r)
    (huuid : (rs.map LambdaRequest.theUuid).Nodup) {r : LambdaRequest} (hr : r ∈ rs) :
    (rs.map fun r => (⟨none, r.toProtobuf⟩ : Message)).filterMap (tokenOf r.theUuid) =
      [(none, some 0)] := by
  have hall : tokenOf r.theUuid = fun x : Message =>
      if decide (x.request.uuid = r.theUuid) = true then tokenOf r.theUuid x else none := by
    funext x
    by_cases hu : x.request.uuid = r.theUuid
    · rw [if_pos (decide_eq_true hu)]
    · rw [if_neg (by simpa using hu), tokenOf_ne hu]
  have hindex : r.toProtobuf.nextfunctionindex = 0 := (hrs r hr).index
  have htoken : tokenOf r.theUuid (⟨none, r.toProtobuf⟩ : Message) =
      some (none, some r.toProtobuf.nextfunctionindex) := if_pos rfl
  rw [hall, ← List.filterMap_filter, requests_filter huuid hr, List.filterMap_cons_some htoken, hindex]
  rfl

theorem coupled_new (hrs : ∀ r ∈ rs, Accepted r) (huuid : (rs.map LambdaRequest.theUuid).Nodup)
    (aServerEndpoint : String) (aStateClient : Option String)
    (aStateRepos : ExtTreeMap String (ExtTreeMap String String)) :
    Coupled rs (System.new aServerEndpoint aStateClient aStateRepos rs) := by
  have hmarking : ∀ r ∈ rs, marking r.theUuid (System.new aServerEndpoint aStateClient aStateRepos rs) =
      .initial (edges r.toProtobuf) none := by
    intro r hr
    have hflying := tokens_new hrs huuid hr
    unfold marking Marking.initial
    rw [out_edges_client]
    simp only [System.new, List.filterMap_nil, Multiset.coe_nil]
    rw [hflying]
    rfl
  refine ⟨rfl, fun x hx => ?_, fun x hx => absurd hx List.not_mem_nil,
    fun x hx => absurd hx List.not_mem_nil, fun r hr => ?_, fun r hr v => ?_⟩
  · obtain ⟨r, hr, rfl⟩ := List.mem_map.mp hx
    exact ⟨r, hr, .self r⟩
  · rw [hmarking r hr]
    exact accounted_initial _ _
  · have hzero : (into (Marking.initial (edges r.toProtobuf) none).arrived (some v)).card = 0 := by
      simp [Marking.initial, into]
    rw [hmarking r hr, hzero, waiting, if_pos (Nat.dvd_zero _)]
    exact ExtTreeMap.getElem?_empty

/-- In every state of a run the executions are told apart. -/
theorem coupled_run (hrs : ∀ r ∈ rs, Accepted r) (huuid : (rs.map LambdaRequest.theUuid).Nodup)
    (env : Environment) (aServerEndpoint : String) (aStateClient : Option String)
    (aStateRepos : ExtTreeMap String (ExtTreeMap String String)) (aActions : List Action) :
    ∀ s ∈ Runs.states (step env) (System.new aServerEndpoint aStateClient aStateRepos rs) aActions,
      Coupled rs s :=
  Runs.invariant (fun _ a h => coupled_change hrs huuid h (step_change hrs h a)) aActions
    (coupled_new hrs huuid aServerEndpoint aStateClient aStateRepos)

end Steps

end ServerlessEdge.Computer
