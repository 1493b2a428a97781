import ServerlessEdge.Computer.Completion

/-! A chain is executed function by function: each invocation carries what the
function before it has returned, and the callback gets what the last one has. -/
namespace ServerlessEdge.Computer
open Std (ExtTreeMap)
open Library Messages EdgeComputer

section Script

/-- The invocation that comes after those that have been responded to, the latest
response first. -/
def invocation (r : LambdaRequest) : List Rpc.LambdaResponse → Rpc.LambdaRequest
  | [] => r.toProtobuf
  | resp :: earlier => { invocation r earlier with
      name := r.toProtobuf.chain.getD (earlier.length + 1) ""
      input := resp.output
      datain := resp.dataout
      forward := false
      hops := ((invocation r earlier).hops + 1) % 2 ^ 32
      states := serializeStates (deserializeStates resp.states)
      nextfunctionindex := earlier.length + 1 }

/-- The message that it comes in. -/
def delivery (r : LambdaRequest) (resps : List Rpc.LambdaResponse) : Message where
  source := if resps = [] then none else some (resps.length - 1)
  request := invocation r resps

/-- The end of an execution, with the response to the callback after the last one. -/
def ending (aServerEndpoint : String) (r : LambdaRequest) (resp : Rpc.LambdaResponse)
    (earlier : List Rpc.LambdaResponse) : List Event :=
  .completed (invocation r earlier) :: if earlier.length + 1 = r.toProtobuf.chain.length then
    [.responded r.theCallback (invocation r earlier) { resp with
      responder := aServerEndpoint
      hops := ((invocation r earlier).hops + 1) % 2 ^ 32
      retcode := "OK" }] else []

/-- All that happens up to the latest response, latest first. -/
def script (aServerEndpoint : String) (r : LambdaRequest) : List Rpc.LambdaResponse → List Event
  | [] => []
  | resp :: earlier => ending aServerEndpoint r resp earlier ++ .executed (invocation r earlier) ::
      .arrived (delivery r earlier) :: script aServerEndpoint r earlier

/-- The responses are what the executions of the log have returned, each of which
has the number of the events before its end. -/
def Returned (env : Environment) (aServerEndpoint : String) (r : LambdaRequest) (es : List Event) :
    List Rpc.LambdaResponse → Prop
  | [] => True
  | resp :: earlier => (∃ es', ending aServerEndpoint r resp earlier ++ es' <:+ es ∧
      env.realExecution es'.length (invocation r earlier) = .ok resp) ∧
    Returned env aServerEndpoint r es earlier

/-- An event is about a request. -/
def about (u : String) : Event → Bool
  | .arrived m => m.request.uuid = u
  | .executed m => m.uuid = u
  | .completed m => m.uuid = u
  | .failed m => m.uuid = u
  | .responded _ m _ => m.uuid = u

variable {env : Environment} {e : String} {r : LambdaRequest} {resps : List Rpc.LambdaResponse}

theorem invocation_index (h : Accepted r) (resps : List Rpc.LambdaResponse) :
    (invocation r resps).nextfunctionindex = resps.length := by
  cases resps with
  | nil => exact h.index
  | cons resp earlier => rfl

theorem invocation_belongs (r : LambdaRequest) (resps : List Rpc.LambdaResponse) :
    Belongs r (invocation r resps) := by
  induction resps with
  | nil => exact .self r
  | cons resp earlier ih => exact ⟨ih.dry, ih.callback, ih.chain, ih.dag, ih.dependencies, ih.uuid⟩

/-- The client names the first function itself. -/
theorem invocation_name (r : LambdaRequest) (resps : List Rpc.LambdaResponse) :
    (invocation r resps).name = (r.theName :: r.toProtobuf.chain.tail).getD resps.length "" := by
  cases resps with
  | nil => rfl
  | cons resp earlier =>
    rw [List.length_cons, List.getD_cons_succ, List.getD_eq_getElem?_getD, List.getElem?_tail,
      ← List.getD_eq_getElem?_getD]
    rfl

theorem Returned.mono {es es' : List Event} (hes : es <:+ es') (h : Returned env e r es resps) :
    Returned env e r es' resps := by
  induction resps with
  | nil => trivial
  | cons resp earlier ih =>
    obtain ⟨⟨es'', hsuffix, hresp⟩, hrest⟩ := h
    exact ⟨⟨es'', hsuffix.trans hes, hresp⟩, ih hrest⟩

end Script

section Views

/-- The part of a system that is about one request. -/
structure View where
  flying : List Message
  queued : List Rpc.LambdaRequest
  running : List Rpc.LambdaRequest
  log : List Event

def view (u : String) (s : System) : View where
  flying := s.theMessages.filter fun x => x.request.uuid = u
  queued := s.theComputer.theAsyncQueue.filter fun m => m.uuid = u
  running := s.theRunning.filter fun m => m.uuid = u
  log := s.theLog.filter (about u)

/-- Where the invocation is that is under way, if there is any. -/
inductive Stage where
  | flying
  | queued
  | running
  | ended
  deriving DecidableEq

def Stage.view (e : String) (r : LambdaRequest) (resps : List Rpc.LambdaResponse) : Stage → View
  | .flying => ⟨[delivery r resps], [], [], script e r resps⟩
  | .queued => ⟨[], [invocation r resps], [], .arrived (delivery r resps) :: script e r resps⟩
  | .running => ⟨[], [], [invocation r resps],
      .executed (invocation r resps) :: .arrived (delivery r resps) :: script e r resps⟩
  | .ended => ⟨[], [], [], script e r resps⟩

variable {u e : String} {r : LambdaRequest} {resps : List Rpc.LambdaResponse} {s : System}
  {stage : Stage} {i : Nat}

private theorem filter_eraseIdx_of_neg {α : Type} {p : α → Bool} {l : List α} {i : Nat} {a : α}
    (h : l[i]? = some a) (ha : p a = false) : (l.eraseIdx i).filter p = l.filter p := by
  induction l generalizing i with
  | nil => rfl
  | cons b l ih =>
    cases i with
    | zero =>
      rw [List.getElem?_cons_zero, Option.some.injEq] at h
      rw [List.eraseIdx_cons_zero, List.filter_cons_of_neg (by simp [h, ha])]
    | succ i =>
      have hrest := ih (i := i) (by simpa using h)
      rw [List.eraseIdx_cons_succ, List.filter_cons, List.filter_cons, hrest]

private theorem filter_eraseIdx_of_pos {α : Type} {p : α → Bool} {l : List α} {i : Nat} {a b : α}
    (h : l[i]? = some a) (ha : p a = true) (hb : l.filter p = [b]) :
    a = b ∧ (l.eraseIdx i).filter p = [] := by
  induction l generalizing i with
  | nil => simp at h
  | cons c l ih =>
    cases i with
    | zero =>
      rw [List.getElem?_cons_zero, Option.some.injEq] at h
      subst h
      rw [List.filter_cons_of_pos ha] at hb
      exact ⟨(List.cons.inj hb).1, (List.cons.inj hb).2⟩
    | succ i =>
      have hi : l[i]? = some a := by simpa using h
      have hmem : a ∈ l.filter p := List.mem_filter.mpr ⟨List.mem_of_getElem? hi, ha⟩
      by_cases hc : p c = true
      · rw [List.filter_cons_of_pos hc] at hb
        rw [(List.cons.inj hb).2] at hmem
        exact absurd hmem List.not_mem_nil
      · rw [List.filter_cons_of_neg hc] at hb
        rw [List.eraseIdx_cons_succ, List.filter_cons_of_neg hc]
        exact ih hi hb

theorem view_delivered_ne {m : Message} (hi : s.theMessages[i]? = some m) (hu : m.request.uuid ≠ u) :
    view u (delivered i m s) = view u s := by
  have hqueued : (delivered i m s).theComputer.theAsyncQueue.filter (fun m => m.uuid = u) =
      s.theComputer.theAsyncQueue.filter fun m => m.uuid = u := by
    simp only [delivered]
    split
    · rw [List.filter_append, List.filter_cons_of_neg (by simp [hu]), List.filter_nil, List.append_nil]
    · rfl
  unfold view
  rw [hqueued]
  simp only [delivered, filter_eraseIdx_of_neg (p := fun x : Message => x.request.uuid = u) hi (by simp [hu])]
  rw [List.filter_cons_of_neg (by simp [about, hu])]

theorem view_started_ne {m : Rpc.LambdaRequest} (hi : s.theComputer.theAsyncQueue[i]? = some m)
    (hu : m.uuid ≠ u) : view u (started i m s) = view u s := by
  unfold view
  simp only [started, filter_eraseIdx_of_neg (p := fun m : Rpc.LambdaRequest => m.uuid = u) hi (by simp [hu])]
  rw [List.filter_cons_of_neg (by simp [hu]), List.filter_cons_of_neg (by simp [about, hu])]

theorem view_thrown_ne {m : Rpc.LambdaRequest} (hi : s.theRunning[i]? = some m) (hu : m.uuid ≠ u)
    (c : ExtTreeMap String (ExtTreeMap String String)) : view u (thrown i m c s) = view u s := by
  unfold view
  simp only [thrown, filter_eraseIdx_of_neg (p := fun m : Rpc.LambdaRequest => m.uuid = u) hi (by simp [hu])]
  rw [List.filter_cons_of_neg (by simp [about, hu])]

theorem view_finished_ne {m : Rpc.LambdaRequest} (hi : s.theRunning[i]? = some m) (hu : m.uuid ≠ u)
    {ms : List Message} (hms : ∀ x ∈ ms, x.request.uuid ≠ u) (resp : Rpc.LambdaResponse)
    (c : ExtTreeMap String (ExtTreeMap String String)) :
    view u (finished i m resp ms c s) = view u s := by
  have hsent : ms.filter (fun x => x.request.uuid = u) = [] := by
    apply List.filter_eq_nil_iff.mpr
    intro x hx
    simp [hms x hx]
  have hlog : (.completed m :: responses m resp s).filter (about u) = [] := by
    apply List.filter_eq_nil_iff.mpr
    intro a ha
    rcases List.mem_cons.mp ha with rfl | ha
    · simp [about, hu]
    · unfold responses at ha
      split at ha
      · rw [List.mem_singleton.mp ha]
        simp [about, hu]
      · simp at ha
  unfold view
  simp only [finished, filter_eraseIdx_of_neg (p := fun m : Rpc.LambdaRequest => m.uuid = u) hi (by simp [hu]),
    List.filter_append, hsent, hlog, List.append_nil, List.nil_append]

end Views

section Own

variable {rs : List LambdaRequest} {r : LambdaRequest} {m : Rpc.LambdaRequest} {e : String}
  {resps : List Rpc.LambdaResponse} {s : System} {env : Environment} {stage : Stage} {i : Nat}

theorem lastFunction_chain (h : Accepted r) (hc : 0 < r.toProtobuf.chain.length) (hb : Belongs r m) :
    lastFunction m = true ↔ m.nextfunctionindex + 1 = r.toProtobuf.chain.length := by
  have hdag := h.dag_eq_none hc
  have hnames : r.toProtobuf.dag.names = [] := by simp only [LambdaRequest.toProtobuf, hdag]
  rw [lastFunction, decide_eq_true_eq, hb.chain, hb.dag, hnames, List.length_nil]
  omega

theorem checkPreconditions_chain (h : Accepted r) (hc : 0 < r.toProtobuf.chain.length)
    (hb : Belongs r m) (theInvocations : ExtTreeMap String Nat) :
    checkPreconditions m theInvocations = (true, theInvocations) := by
  have hdag := h.dag_eq_none hc
  have hnames : r.toProtobuf.dag.names = [] := by simp only [LambdaRequest.toProtobuf, hdag]
  unfold checkPreconditions
  rw [if_pos]
  rw [hb.dag, hnames]
  exact .inl (Nat.zero_le 1)

/-- The chain itself survives the way from one function to the next. -/
theorem regenerate_chain (h : Accepted r) (hc : 0 < r.toProtobuf.chain.length) (hb : Belongs r m) :
    ∃ q, LambdaRequest.ofProtobuf m = .ok q ∧ ∀ f j resp, (q.regenerate f j resp).toProtobuf =
      { m with
        name := f
        input := resp.output
        datain := resp.dataout
        forward := false
        hops := (m.hops + 1) % 2 ^ 32
        states := serializeStates (deserializeStates resp.states)
        nextfunctionindex := j } := by
  have hdag := h.dag_eq_none hc
  have hchain := chainOf_belongs h hb
  rw [if_neg (List.length_pos_iff.mp hc)] at hchain
  have hnone := dagOf_belongs hb
  rw [hdag, ite_self] at hnone
  have hsame : m.chain = r.toProtobuf.chain ∧ m.dag = {} ∧
      m.dependencies = r.toProtobuf.dependencies := by
    refine ⟨hb.chain, hb.dag.trans ?_, hb.dependencies⟩
    simp only [LambdaRequest.toProtobuf, hdag]
  have hdry := hb.dry
  unfold LambdaRequest.ofProtobuf
  rw [hchain, hnone]
  refine ⟨_, rfl, fun f j resp => ?_⟩
  obtain ⟨hsame, hmdag, hdependencies⟩ := hsame
  obtain ⟨name, input, datain, dry, forward, hops, states, callback, chain, dag, dependencies, index,
    uuid⟩ := m
  simp only at hsame hmdag hdependencies hdry
  rw [hsame, hmdag, hdependencies, hdry]
  simp only [LambdaRequest.toProtobuf, LambdaRequest.regenerate, hdag]

/-- What a worker does when a function of a chain has returned. -/
theorem conclude_chain (h : Accepted r) (hlt : resps.length < r.toProtobuf.chain.length)
    (he : s.theComputer.theServerEndpoint = e) (resp : Rpc.LambdaResponse) :
    (conclude (invocation r resps) resp s).record (.completed (invocation r resps)) = { s with
      theMessages := s.theMessages ++
        if resps.length + 1 = r.toProtobuf.chain.length then [] else [delivery r (resp :: resps)]
      theLog := ending e r resp resps ++ s.theLog } := by
  have hc : 0 < r.toProtobuf.chain.length := by omega
  have hb := invocation_belongs r resps
  have hindex := invocation_index h resps
  have hlast := lastFunction_chain h hc hb
  rw [hindex] at hlast
  unfold conclude
  by_cases hn : resps.length + 1 = r.toProtobuf.chain.length
  · rw [if_pos (hlast.mpr hn)]
    simp only [System.record, ending, hn, if_true, he, hb.callback, List.append_nil]
    rfl
  · have hnot : ¬ lastFunction (invocation r resps) = true := fun h => hn (hlast.mp h)
    obtain ⟨q, hq, hregenerate⟩ := regenerate_chain h hc hb
    have hnext : nextFunctions (invocation r resps) =
        [(resps.length + 1, r.toProtobuf.chain.getD (resps.length + 1) "")] := by
      have hsome : r.toProtobuf.chain[resps.length + 1]? =
          some (r.toProtobuf.chain.getD (resps.length + 1) "") := by
        have hin : resps.length + 1 < r.toProtobuf.chain.length := by omega
        rw [List.getD_eq_getElem?_getD, List.getElem?_eq_getElem hin, Option.getD_some]
      unfold nextFunctions
      rw [hb.chain, if_pos hc, hindex, hsome]
    rw [if_neg hnot, hq, hnext]
    simp only [System.record, ending, hn, if_false, List.map_cons, List.map_nil, hregenerate, hindex]
    rfl

private theorem own_mem {α : Type} {p : α → Bool} {l l' : List α} {a : α} (h : l.filter p = l')
    (hi : l[i]? = some a) (ha : p a = true) : a ∈ l' := by
  rw [← h]
  exact List.mem_filter.mpr ⟨List.mem_of_getElem? hi, ha⟩

/-- The message of the request arrives only while there is one. -/
theorem own_deliver (env : Environment) (hrs : ∀ r ∈ rs, Accepted r) (h : Coupled rs s) (hr : r ∈ rs)
    (hc : 0 < r.toProtobuf.chain.length) (hv : view r.theUuid s = stage.view e r resps) {x : Message}
    (hi : s.theMessages[i]? = some x) (hu : x.request.uuid = r.theUuid) :
    stage = .flying ∧ x = delivery r resps ∧
      view r.theUuid (step env s (.deliver i)) = Stage.queued.view e r resps := by
  have hflying := congrArg View.flying hv
  have hmem := own_mem hflying hi (by simp [hu])
  cases stage with
  | flying =>
    obtain ⟨rfl, hrest⟩ := filter_eraseIdx_of_pos hi (by simp [hu]) hflying
    have hb := invocation_belongs r resps
    have hqueued := congrArg View.queued hv
    have hrunning := congrArg View.running hv
    have hlog := congrArg View.log hv
    have hpre := checkPreconditions_chain (hrs r hr) hc hb s.theComputer.theInvocations
    refine ⟨rfl, rfl, ?_⟩
    rw [(step_deliver env hrs h hi).1]
    simp only [view, Stage.view] at hqueued hrunning hlog ⊢
    have hrequest : (delivery r resps).request = invocation r resps := rfl
    simp only [delivered, hrequest, hpre, if_true, hrest, List.filter_append, hqueued, hrunning,
      List.filter_cons, about, hb.uuid, hlog, decide_true, List.filter_nil, List.nil_append]
  | queued => exact absurd hmem List.not_mem_nil
  | running => exact absurd hmem List.not_mem_nil
  | ended => exact absurd hmem List.not_mem_nil

theorem own_start (env : Environment) (hv : view r.theUuid s = stage.view e r resps)
    (hi : s.theComputer.theAsyncQueue[i]? = some m) (hu : m.uuid = r.theUuid) :
    stage = .queued ∧ m = invocation r resps ∧
      view r.theUuid (step env s (.start i)) = Stage.running.view e r resps := by
  have hqueued := congrArg View.queued hv
  have hmem := own_mem hqueued hi (by simp [hu])
  cases stage with
  | queued =>
    obtain ⟨rfl, hrest⟩ := filter_eraseIdx_of_pos hi (by simp [hu]) hqueued
    have hflying := congrArg View.flying hv
    have hrunning := congrArg View.running hv
    have hlog := congrArg View.log hv
    refine ⟨rfl, rfl, ?_⟩
    rw [step_start env hi]
    simp only [view, Stage.view] at hflying hrunning hlog ⊢
    simp only [started, hrest, hflying, List.filter_cons, hu, hrunning, about, hlog, decide_true,
      if_true]
  | flying => exact absurd hmem List.not_mem_nil
  | running => exact absurd hmem List.not_mem_nil
  | ended => exact absurd hmem List.not_mem_nil

/-- What comes after a function of the chain. -/
def Stage.next (r : LambdaRequest) (resps : List Rpc.LambdaResponse) : Stage :=
  if resps.length = r.toProtobuf.chain.length then .ended else .flying

theorem own_finish (hrs : ∀ r ∈ rs, Accepted r) (hr : r ∈ rs)
    (hlt : resps.length < r.toProtobuf.chain.length) (he : s.theComputer.theServerEndpoint = e)
    (hv : view r.theUuid s = Stage.running.view e r resps)
    (hi : s.theRunning[i]? = some (invocation r resps)) {resp : Rpc.LambdaResponse}
    {c : ExtTreeMap String (ExtTreeMap String String)}
    (hstep : step env s (.finish i) = (conclude (invocation r resps) resp { s with
      theRunning := s.theRunning.eraseIdx i, theStateRepos := c }).record
        (.completed (invocation r resps))) :
    view r.theUuid (step env s (.finish i)) = (Stage.next r (resp :: resps)).view e r (resp :: resps) ∧
      (step env s (.finish i)).theLog = ending e r resp resps ++ s.theLog := by
  have hb := invocation_belongs r resps
  have hrunning := congrArg View.running hv
  have hflying := congrArg View.flying hv
  have hqueued := congrArg View.queued hv
  have hlog := congrArg View.log hv
  obtain ⟨-, hrest⟩ := filter_eraseIdx_of_pos hi (by simp [hb.uuid]) hrunning
  have hconclude := conclude_chain (s := { s with
    theRunning := s.theRunning.eraseIdx i, theStateRepos := c }) (hrs r hr) hlt he resp
  have hending : (ending e r resp resps).filter (about r.theUuid) = ending e r resp resps := by
    apply List.filter_eq_self.mpr
    intro a ha
    rcases List.mem_cons.mp ha with rfl | ha
    · simp [about, hb.uuid]
    · split at ha
      · rw [List.mem_singleton.mp ha]
        simp [about, hb.uuid]
      · exact absurd ha List.not_mem_nil
  have huuid : (delivery r (resp :: resps)).request.uuid = r.theUuid :=
    (invocation_belongs r (resp :: resps)).uuid
  rw [hstep, hconclude]
  refine ⟨?_, rfl⟩
  simp only [view, Stage.view] at hflying hqueued hlog ⊢
  simp only [List.filter_append, hflying, hqueued, hrest, hlog, hending, List.nil_append, Stage.next,
    List.length_cons]
  split
  · rfl
  · simp only [List.filter_cons, huuid, decide_true, if_true, List.filter_nil]
    rfl

/-- Nothing is under way after an execution that has thrown. -/
theorem own_throw (hv : view r.theUuid s = Stage.running.view e r resps)
    (hi : s.theRunning[i]? = some (invocation r resps))
    (c : ExtTreeMap String (ExtTreeMap String String)) :
    ∃ es, view r.theUuid (thrown i (invocation r resps) c s) = ⟨[], [], [], es⟩ := by
  have hu := (invocation_belongs r resps).uuid
  obtain ⟨-, hrest⟩ := filter_eraseIdx_of_pos hi (by simp [hu]) (congrArg View.running hv)
  have hflying := congrArg View.flying hv
  have hqueued := congrArg View.queued hv
  refine ⟨(thrown i (invocation r resps) c s).theLog.filter (about r.theUuid), ?_⟩
  simp only [view, Stage.view] at hflying hqueued ⊢
  simp only [thrown, hflying, hqueued, hrest]

private theorem nil_of_filter {α : Type} {p : α → Bool} {l : List α} (h : l.filter p = [])
    (hall : ∀ a ∈ l, p a = true) : l = [] := by
  rw [List.filter_eq_self.mpr hall] at h
  exact h

/-- A system with a single request is idle once nothing is under way for it. -/
theorem idle_of_view (hcoupled : Coupled [r] s) {es : List Event}
    (hv : view r.theUuid s = ⟨[], [], [], es⟩) : s.Idle := by
  refine ⟨nil_of_filter (congrArg View.flying hv) fun x hx => ?_,
    nil_of_filter (congrArg View.queued hv) fun m hm => ?_,
    nil_of_filter (congrArg View.running hv) fun m hm => ?_⟩
  · obtain ⟨r', hr', hb⟩ := hcoupled.messages x hx
    rw [decide_eq_true_eq, hb.uuid, List.mem_singleton.mp hr']
  · obtain ⟨r', hr', hb⟩ := hcoupled.queue m hm
    rw [decide_eq_true_eq, hb.uuid, List.mem_singleton.mp hr']
  · obtain ⟨r', hr', hb⟩ := hcoupled.running m hm
    rw [decide_eq_true_eq, hb.uuid, List.mem_singleton.mp hr']

/-- Nothing happens to it any more then. -/
theorem step_idle (env : Environment) (h : s.Idle) (a : Action) : step env s a = s := by
  cases a with
  | deliver i => simp only [step, h.messages, List.getElem?_nil]
  | start i => simp only [step, h.queue, List.getElem?_nil]
  | finish i => simp only [step, h.running, List.getElem?_nil]

end Own

section Steps

variable {rs : List LambdaRequest} {r : LambdaRequest} {e : String}
  {resps resps' : List Rpc.LambdaResponse} {s s' : System} {env : Environment} {stage stage' : Stage}

theorem frame_chain (hs : Change env rs s s') : s.theLog <:+ s'.theLog ∧
    s'.theComputer.theServerEndpoint = s.theComputer.theServerEndpoint ∧
    s'.theComputer.theStateClient = s.theComputer.theStateClient := by
  cases hs with
  | idle => exact ⟨List.suffix_refl _, rfl, rfl⟩
  | deliver hi hr hb he => exact ⟨List.suffix_cons _ _, rfl, rfl⟩
  | start hi hr hb => exact ⟨List.suffix_cons _ _, rfl, rfl⟩
  | finish hi hr hb hrun hms hbel => exact ⟨List.suffix_append (_ :: _) _, rfl, rfl⟩
  | fail hi hr hb hrun => exact ⟨List.suffix_cons _ _, rfl, rfl⟩

/-- All that a step can do to the execution of a chain, unless it throws. -/
inductive Hop (env : Environment) (rs : List LambdaRequest) (e : String) (r : LambdaRequest)
    (s s' : System) : Stage → List Rpc.LambdaResponse → Stage → List Rpc.LambdaResponse → Prop
  | other {stage : Stage} {resps : List Rpc.LambdaResponse}
      (halone : (∀ r' ∈ rs, r' = r) → s' = s) : Hop env rs e r s s' stage resps stage resps
  | deliver {resps : List Rpc.LambdaResponse} (hrepos : s'.theStateRepos = s.theStateRepos) :
      Hop env rs e r s s' .flying resps .queued resps
  | start {resps : List Rpc.LambdaResponse} (hrepos : s'.theStateRepos = s.theStateRepos) :
      Hop env rs e r s s' .queued resps .running resps
  | finish {resps : List Rpc.LambdaResponse} {resp : Rpc.LambdaResponse} {i : Nat}
      (hrun : blockingExecution env (invocation r resps)
        { s with theRunning := s.theRunning.eraseIdx i } = .ok resp { s with
          theRunning := s.theRunning.eraseIdx i, theStateRepos := s'.theStateRepos })
      (hlog : s'.theLog = ending e r resp resps ++ s.theLog) :
      Hop env rs e r s s' .running resps (Stage.next r (resp :: resps)) (resp :: resps)

/-- How far a chain has got can be read off the number of its responses. -/
def Stage.Within (r : LambdaRequest) (resps : List Rpc.LambdaResponse) : Stage → Prop
  | .ended => resps.length = r.toProtobuf.chain.length
  | _ => resps.length < r.toProtobuf.chain.length

theorem within_next (hlt : resps.length < r.toProtobuf.chain.length) (resp : Rpc.LambdaResponse) :
    (Stage.next r (resp :: resps)).Within r (resp :: resps) := by
  unfold Stage.next
  split
  · next h => exact h
  · next h =>
    rw [List.length_cons] at h
    show resps.length + 1 < r.toProtobuf.chain.length
    omega

theorem hop_step (hrs : ∀ r ∈ rs, Accepted r) (h : Coupled rs s) (hr : r ∈ rs)
    (hc : 0 < r.toProtobuf.chain.length) (he : s.theComputer.theServerEndpoint = e)
    (hwithin : stage.Within r resps) (hv : view r.theUuid s = stage.view e r resps) (a : Action) :
    (∃ i err s'', resps.length < r.toProtobuf.chain.length ∧ blockingExecution env (invocation r resps)
        { s with theRunning := s.theRunning.eraseIdx i } = .error err s'' ∧
        .failed (invocation r resps) ∈ (step env s a).theLog ∧
        ∃ es, view r.theUuid (step env s a) = ⟨[], [], [], es⟩) ∨
      ∃ stage' resps', view r.theUuid (step env s a) = stage'.view e r resps' ∧
        Hop env rs e r s (step env s a) stage resps stage' resps' := by
  have hidle (heq : step env s a = s) : ∃ stage' resps',
      view r.theUuid (step env s a) = stage'.view e r resps' ∧
        Hop env rs e r s (step env s a) stage resps stage' resps' := by
    refine ⟨stage, resps, ?_, .other fun _ => heq⟩
    rw [heq]
    exact hv
  have hother {r' : LambdaRequest} (hr' : r' ∈ rs) (hu : r'.theUuid ≠ r.theUuid)
      (hview : view r.theUuid (step env s a) = view r.theUuid s) : ∃ stage' resps',
      view r.theUuid (step env s a) = stage'.view e r resps' ∧
        Hop env rs e r s (step env s a) stage resps stage' resps' := by
    refine ⟨stage, resps, hview.trans hv, .other fun hall => ?_⟩
    exact absurd (congrArg LambdaRequest.theUuid (hall r' hr')) hu
  cases a with
  | deliver i =>
    cases hi : s.theMessages[i]? with
    | none => exact .inr (hidle (by simp only [step, hi]))
    | some x =>
      by_cases hu : x.request.uuid = r.theUuid
      · obtain ⟨rfl, -, hview⟩ := own_deliver env hrs h hr hc hv hi hu
        refine .inr ⟨_, _, hview, .deliver ?_⟩
        rw [(step_deliver env hrs h hi).1]
        rfl
      · obtain ⟨hstep, r', hr', hb, -⟩ := step_deliver env hrs h hi
        refine .inr (hother hr' (fun heq => hu (hb.uuid.trans heq)) ?_)
        rw [hstep]
        exact view_delivered_ne hi hu
  | start i =>
    cases hi : s.theComputer.theAsyncQueue[i]? with
    | none => exact .inr (hidle (by simp only [step, hi]))
    | some m =>
      by_cases hu : m.uuid = r.theUuid
      · obtain ⟨rfl, -, hview⟩ := own_start env hv hi hu
        refine .inr ⟨_, _, hview, .start ?_⟩
        rw [step_start env hi]
        rfl
      · obtain ⟨r', hr', hb⟩ := h.queue m (List.mem_of_getElem? hi)
        refine .inr (hother hr' (fun heq => hu (hb.uuid.trans heq)) ?_)
        rw [step_start env hi]
        exact view_started_ne hi hu
  | finish i =>
    cases hi : s.theRunning[i]? with
    | none => exact .inr (hidle (by simp only [step, hi]))
    | some m =>
      by_cases hu : m.uuid = r.theUuid
      · have hmem := own_mem (congrArg View.running hv) hi (by simp [hu])
        cases stage with
        | running =>
          obtain rfl := List.mem_singleton.mp hmem
          rcases step_finish env hi with ⟨err, c, hrun, hstep⟩ | ⟨resp, c, hrun, hstep⟩
          · rw [hstep]
            exact .inl ⟨i, err, _, hwithin, hrun, List.mem_cons_self, own_throw hv hi c⟩
          · obtain ⟨hview, hlog⟩ := own_finish hrs hr hwithin he hv hi hstep
            have hconclude := conclude_chain (s := { s with
              theRunning := s.theRunning.eraseIdx i, theStateRepos := c }) (hrs r hr) hwithin he resp
            refine .inr ⟨_, _, hview, .finish (i := i) ?_ hlog⟩
            rw [hrun, hstep, hconclude]
        | flying => exact absurd hmem List.not_mem_nil
        | queued => exact absurd hmem List.not_mem_nil
        | ended => exact absurd hmem List.not_mem_nil
      · obtain ⟨r', hr', hb⟩ := h.running m (List.mem_of_getElem? hi)
        have hne : r'.theUuid ≠ r.theUuid := fun heq => hu (hb.uuid.trans heq)
        refine .inr (hother hr' hne ?_)
        rcases step_finish env hi with ⟨err, c, hrun, hstep⟩ | ⟨resp, c, hrun, hstep⟩
        · rw [hstep]
          exact view_thrown_ne hi hu c
        · obtain ⟨ms, hms, -, hbel⟩ := conclude_spec (hrs r' hr') hb resp
            { s with theRunning := s.theRunning.eraseIdx i, theStateRepos := c }
          rw [hstep, hms]
          refine view_finished_ne hi hu (fun x hx heq => hne ?_) resp c
          exact (hbel x hx).1.uuid.symm.trans heq

/-- The state of the execution of a chain whose functions do not fail. -/
structure InOrder (env : Environment) (e : String) (r : LambdaRequest) (s : System) (stage : Stage)
    (resps : List Rpc.LambdaResponse) : Prop where
  server : s.theComputer.theServerEndpoint = e
  view : view r.theUuid s = stage.view e r resps
  within : stage.Within r resps
  embedded : Embedded (invocation r resps).states
  returned : Returned env e r s.theLog resps

theorem invocation_function (hlt : resps.length < r.toProtobuf.chain.length) :
    (invocation r resps).name ∈ functions r := by
  cases resps with
  | nil => exact List.mem_cons_self
  | cons resp earlier =>
    rw [List.length_cons] at hlt
    have hname : (invocation r (resp :: earlier)).name = r.toProtobuf.chain[earlier.length + 1] := by
      show r.toProtobuf.chain.getD (earlier.length + 1) "" = _
      rw [List.getD_eq_getElem?_getD, List.getElem?_eq_getElem hlt, Option.getD_some]
    rw [hname]
    apply List.mem_cons_of_mem
    exact List.mem_append_left _ (List.getElem_mem hlt)

theorem executes (henv : Deployed env [r]) (hlt : resps.length < r.toProtobuf.chain.length)
    (hembedded : Embedded (invocation r resps).states) (s : System) : ∃ resp,
      env.realExecution s.theLog.length (invocation r resps) = .ok resp ∧
      blockingExecution env (invocation r resps) s = .ok resp s ∧ Embedded resp.states := by
  obtain ⟨resp, hresp, hstates⟩ := henv r List.mem_cons_self _ (invocation_belongs r resps)
    (invocation_function hlt) hembedded s.theLog.length
  exact ⟨resp, hresp, blockingExecution_embedded hembedded hresp, hstates⟩

theorem inOrder_hop (henv : Deployed env [r]) (h : InOrder env e r s stage resps)
    (hs : Change env rs s s') (hview : view r.theUuid s' = stage'.view e r resps')
    (hhop : Hop env rs e r s s' stage resps stage' resps') : InOrder env e r s' stage' resps' := by
  obtain ⟨hsuffix, hserver, -⟩ := frame_chain hs
  have hreturned := h.returned.mono hsuffix
  have hwithin := h.within
  cases hhop with
  | other halone => exact ⟨hserver.trans h.server, hview, hwithin, h.embedded, hreturned⟩
  | deliver hrepos => exact ⟨hserver.trans h.server, hview, hwithin, h.embedded, hreturned⟩
  | start hrepos => exact ⟨hserver.trans h.server, hview, hwithin, h.embedded, hreturned⟩
  | finish hrun hlog =>
    rename_i resp i
    obtain ⟨resp', hresp, hrun', hstates⟩ := executes henv hwithin h.embedded
      { s with theRunning := s.theRunning.eraseIdx i }
    have heq : resp' = resp := (EStateM.Result.ok.inj (hrun'.symm.trans hrun)).1
    subst heq
    refine ⟨hserver.trans h.server, hview, within_next hwithin resp', embedded_received hstates,
      ⟨s.theLog, ?_, hresp⟩, hreturned⟩
    rw [hlog]

theorem inOrder_step (hrs : ∀ r ∈ rs, Accepted r) (hr : r ∈ rs)
    (hc : 0 < r.toProtobuf.chain.length) (henv : Deployed env [r]) (hcoupled : Coupled rs s)
    (h : InOrder env e r s stage resps) (a : Action) :
    ∃ stage' resps', InOrder env e r (step env s a) stage' resps' := by
  rcases hop_step hrs hcoupled hr hc h.server h.within h.view a with
    ⟨i, err, s'', hlt, hrun, -⟩ | ⟨stage', resps', hview, hhop⟩
  · obtain ⟨resp, -, hok, -⟩ := executes henv hlt h.embedded
      { s with theRunning := s.theRunning.eraseIdx i }
    rw [hok] at hrun
    cases hrun
  · exact ⟨stage', resps', inOrder_hop henv h (step_change hrs hcoupled a) hview hhop⟩

/-- The steps that the execution of a chain has ahead. -/
def work (r : LambdaRequest) (resps : List Rpc.LambdaResponse) : Stage → Nat
  | .flying => 3 * (r.toProtobuf.chain.length - resps.length) + 2
  | .queued => 3 * (r.toProtobuf.chain.length - resps.length) + 1
  | .running => 3 * (r.toProtobuf.chain.length - resps.length)
  | .ended => 0

private theorem getElem_of_filter {α : Type} {p : α → Bool} {l : List α} {a : α}
    (h : l.filter p = [a]) : ∃ i : Nat, l[i]? = some a := by
  apply List.mem_iff_getElem?.mp
  have hmem : a ∈ l.filter p := by simp [h]
  exact (List.mem_filter.mp hmem).1

theorem within_hop (h : stage.Within r resps) (hhop : Hop env rs e r s s' stage resps stage' resps') :
    stage'.Within r resps' := by
  cases hhop with
  | other halone => exact h
  | deliver hrepos => exact h
  | start hrepos => exact h
  | finish hrun hlog => exact within_next h _

/-- The invocation under way can always take the next step, unless it throws. -/
theorem advance (env : Environment) (hrs : ∀ r ∈ rs, Accepted r) (hcoupled : Coupled rs s) (hr : r ∈ rs)
    (hc : 0 < r.toProtobuf.chain.length) (he : s.theComputer.theServerEndpoint = e)
    (hwithin : stage.Within r resps) (hview : view r.theUuid s = stage.view e r resps)
    (hstage : stage ≠ .ended) : ∃ a,
      (∃ stage' resps', view r.theUuid (step env s a) = stage'.view e r resps' ∧
        Hop env rs e r s (step env s a) stage resps stage' resps' ∧
        work r resps' stage' < work r resps stage) ∨
      ∃ i err c, stage = .running ∧ s.theRunning[i]? = some (invocation r resps) ∧
        blockingExecution env (invocation r resps) { s with theRunning := s.theRunning.eraseIdx i } =
          .error err { s with theRunning := s.theRunning.eraseIdx i, theStateRepos := c } ∧
        step env s a = thrown i (invocation r resps) c s := by
  cases stage with
  | flying =>
    obtain ⟨i, hi⟩ := getElem_of_filter (congrArg View.flying hview)
    have hu : (delivery r resps).request.uuid = r.theUuid := (invocation_belongs r resps).uuid
    obtain ⟨-, -, hnext⟩ := own_deliver env hrs hcoupled hr hc hview hi hu
    refine ⟨.deliver i, .inl ⟨_, _, hnext, .deliver ?_, ?_⟩⟩
    · rw [(step_deliver env hrs hcoupled hi).1]
      rfl
    · simp only [work]
      omega
  | queued =>
    obtain ⟨i, hi⟩ := getElem_of_filter (congrArg View.queued hview)
    obtain ⟨-, -, hnext⟩ := own_start env hview hi (invocation_belongs r resps).uuid
    refine ⟨.start i, .inl ⟨_, _, hnext, .start ?_, ?_⟩⟩
    · rw [step_start env hi]
      rfl
    · simp only [work]
      omega
  | running =>
    obtain ⟨i, hi⟩ := getElem_of_filter (congrArg View.running hview)
    rcases step_finish env hi with ⟨err, c, hrun, hstep⟩ | ⟨resp, c, hrun, hstep⟩
    · exact ⟨.finish i, .inr ⟨i, err, c, rfl, hi, hrun, hstep⟩⟩
    · obtain ⟨hnext, hlog⟩ := own_finish hrs hr hwithin he hview hi hstep
      have hconclude := conclude_chain (s := { s with
        theRunning := s.theRunning.eraseIdx i, theStateRepos := c }) (hrs r hr) hwithin he resp
      refine ⟨.finish i, .inl ⟨_, _, hnext, .finish (i := i) ?_ hlog, ?_⟩⟩
      · rw [hrun, hstep, hconclude]
      · have hlt : resps.length < r.toProtobuf.chain.length := hwithin
        unfold Stage.next
        split
        · simp only [work]
          omega
        · simp only [work, List.length_cons]
          omega
  | ended => exact absurd rfl hstage

theorem progress (hrs : ∀ r ∈ rs, Accepted r) (hr : r ∈ rs) (hc : 0 < r.toProtobuf.chain.length)
    (henv : Deployed env [r]) (hcoupled : Coupled rs s) (h : InOrder env e r s stage resps)
    (hstage : stage ≠ .ended) : ∃ a stage' resps', InOrder env e r (step env s a) stage' resps' ∧
      work r resps' stage' < work r resps stage := by
  obtain ⟨a, ⟨stage', resps', hnext, hhop, hless⟩ | ⟨i, err, c, rfl, hi, hrun, -⟩⟩ :=
    advance env hrs hcoupled hr hc h.server h.within h.view hstage
  · exact ⟨a, stage', resps', inOrder_hop henv h (step_change hrs hcoupled a) hnext hhop, hless⟩
  · obtain ⟨resp, -, hok, -⟩ := executes henv h.within h.embedded
      { s with theRunning := s.theRunning.eraseIdx i }
    rw [hok] at hrun
    cases hrun

/-- A chain that has been started can be executed up to the end. -/
theorem completes (hrs : ∀ r ∈ rs, Accepted r) (huuid : (rs.map LambdaRequest.theUuid).Nodup)
    (hr : r ∈ rs) (hc : 0 < r.toProtobuf.chain.length) (henv : Deployed env [r])
    (hcoupled : Coupled rs s) (h : InOrder env e r s stage resps) :
    ∃ more resps', InOrder env e r (Runs.final (step env) s more) .ended resps' := by
  induction hw : work r resps stage using Nat.strong_induction_on generalizing s stage resps with
  | _ n ih =>
    by_cases hstage : stage = .ended
    · subst hstage
      exact ⟨[], resps, h⟩
    · obtain ⟨a, stage', resps', hnext, hless⟩ := progress hrs hr hc henv hcoupled h hstage
      have hcoupled' : Coupled rs (step env s a) :=
        coupled_change hrs huuid hcoupled (step_change hrs hcoupled a)
      obtain ⟨more, resps'', hover⟩ := ih _ (hw ▸ hless) hcoupled' hnext rfl
      exact ⟨a :: more, resps'', hover⟩

end Steps

section Runs

/-- The functions executed for a request, in this order. -/
def executedFunctions (u : String) (es : List Event) : List String :=
  es.reverse.filterMap fun
    | .executed m => if m.uuid = u then some m.name else none
    | _ => none

/-- A chain has been executed, from the first function to the last. -/
structure Executed (env : Environment) (e : String) (r : LambdaRequest) (s : System)
    (resps : List Rpc.LambdaResponse) : Prop where
  all : resps.length = r.toProtobuf.chain.length
  log : s.theLog.filter (about r.theUuid) = script e r resps
  returned : Returned env e r s.theLog resps
  functions : executedFunctions r.theUuid s.theLog = r.theName :: r.toProtobuf.chain.tail
  replied : replies r.theCallback r.theUuid s.theLog = 1

variable {rs : List LambdaRequest} {r : LambdaRequest} {e : String}
  {resps : List Rpc.LambdaResponse} {s : System} {env : Environment}

theorem executedFunctions_filter (u : String) (es : List Event) :
    executedFunctions u (es.filter (about u)) = executedFunctions u es := by
  unfold executedFunctions
  rw [← List.filter_reverse, List.filterMap_filter]
  apply List.filterMap_congr
  intro a _
  cases a with
  | executed m => by_cases hu : m.uuid = u <;> simp [about, hu]
  | _ => simp

theorem replies_filter (aCallback u : String) (es : List Event) :
    replies aCallback u (es.filter (about u)) = replies aCallback u es := by
  unfold replies
  rw [List.countP_filter]
  apply List.countP_congr
  intro a _
  cases a with
  | responded e' m resp => by_cases hu : m.uuid = u <;> simp [about, hu]
  | _ => simp

private theorem script_functions (hle : resps.length ≤ r.toProtobuf.chain.length) :
    executedFunctions r.theUuid (script e r resps) =
      (r.theName :: r.toProtobuf.chain.tail).take resps.length := by
  induction resps with
  | nil => rfl
  | cons resp earlier ih =>
    have hb := invocation_belongs r earlier
    have hlt : earlier.length < (r.theName :: r.toProtobuf.chain.tail).length := by
      rw [List.length_cons] at hle ⊢
      rw [List.length_tail]
      omega
    have hending : (ending e r resp earlier).reverse.filterMap (fun
        | .executed m => if m.uuid = r.theUuid then some m.name else none
        | _ => none) = ([] : List String) := by
      apply List.filterMap_eq_nil_iff.mpr
      intro a ha
      rcases List.mem_cons.mp (List.mem_reverse.mp ha) with rfl | ha
      · rfl
      · split at ha
        · rw [List.mem_singleton.mp ha]
        · exact absurd ha List.not_mem_nil
    have hrest := ih (by rw [List.length_cons] at hle; omega)
    unfold executedFunctions at hrest ⊢
    rw [script, List.reverse_append, List.filterMap_append, hending, List.append_nil,
      List.reverse_cons, List.reverse_cons, List.filterMap_append, List.filterMap_append, hrest,
      List.length_cons, List.take_succ_eq_append_getElem hlt]
    have hname := invocation_name r earlier
    rw [List.getD_eq_getElem?_getD, List.getElem?_eq_getElem hlt, Option.getD_some] at hname
    simp only [List.filterMap_cons, List.filterMap_nil, List.append_nil, hb.uuid, if_true, hname]

private theorem script_replies (hpos : 0 < r.toProtobuf.chain.length)
    (hle : resps.length ≤ r.toProtobuf.chain.length) :
    replies r.theCallback r.theUuid (script e r resps) =
      if resps.length = r.toProtobuf.chain.length then 1 else 0 := by
  induction resps with
  | nil => rw [if_neg (by rw [List.length_nil]; omega)]; rfl
  | cons resp earlier ih =>
    have hb := invocation_belongs r earlier
    have hrest := ih (by rw [List.length_cons] at hle; omega)
    rw [List.length_cons] at hle
    rw [if_neg (by omega)] at hrest
    unfold replies at hrest ⊢
    rw [script, List.countP_append, List.countP_cons_of_neg (by simp),
      List.countP_cons_of_neg (by simp), hrest, ending, List.countP_cons_of_neg (by simp),
      List.length_cons]
    split
    · simp [hb.uuid]
    · rfl

theorem replies_of_ended (hpos : 0 < r.toProtobuf.chain.length)
    (hv : view r.theUuid s = Stage.ended.view e r resps)
    (hall : resps.length = r.toProtobuf.chain.length) :
    replies r.theCallback r.theUuid s.theLog = 1 := by
  have hlog : s.theLog.filter (about r.theUuid) = script e r resps := congrArg View.log hv
  rw [← replies_filter, hlog, script_replies hpos (Nat.le_of_eq hall), if_pos hall]

/-- Nothing of the request is under way once the computer is idle. -/
theorem ended_of_idle {stage : Stage} (hidle : s.Idle)
    (hview : view r.theUuid s = stage.view e r resps) : stage = .ended := by
  cases stage with
  | ended => rfl
  | flying =>
    have hflying := congrArg View.flying hview
    simp [view, Stage.view, hidle.messages] at hflying
  | queued =>
    have hqueued := congrArg View.queued hview
    simp [view, Stage.view, hidle.queue] at hqueued
  | running =>
    have hrunning := congrArg View.running hview
    simp [view, Stage.view, hidle.running] at hrunning

theorem executed_of_ended (hpos : 0 < r.toProtobuf.chain.length)
    (h : InOrder env e r s .ended resps) : Executed env e r s resps := by
  have hlog : s.theLog.filter (about r.theUuid) = script e r resps := congrArg View.log h.view
  have hall : resps.length = r.toProtobuf.chain.length := h.within
  refine ⟨hall, hlog, h.returned, ?_, replies_of_ended hpos h.view hall⟩
  rw [← executedFunctions_filter, hlog, script_functions (Nat.le_of_eq hall), hall]
  apply List.take_of_length_le
  rw [List.length_cons, List.length_tail]
  omega

theorem inOrder_new (huuid : (rs.map LambdaRequest.theUuid).Nodup) (hr : r ∈ rs)
    (hpos : 0 < r.toProtobuf.chain.length) (hlocal : Embedded r.toProtobuf.states)
    (aServerEndpoint : String) (aStateClient : Option String)
    (aStateRepos : ExtTreeMap String (ExtTreeMap String String)) :
    InOrder env aServerEndpoint r (System.new aServerEndpoint aStateClient aStateRepos rs)
      .flying [] := by
  refine ⟨rfl, ?_, hpos, hlocal, trivial⟩
  simp only [view, System.new, List.filter_nil, Stage.view, script]
  rw [requests_filter huuid hr]
  rfl

/-- However the steps of all requests are interleaved, a chain is executed in order: whenever no
work is left it has been, and from every state it can be. -/
theorem chain_executed_in_order (hrs : ∀ r ∈ rs, Accepted r)
    (huuid : (rs.map LambdaRequest.theUuid).Nodup) (hr : r ∈ rs) {c : Model.Chain}
    (hc : r.theChain = some c) (hn : c.theFunctions ≠ []) (hlocal : Embedded r.toProtobuf.states)
    (henv : Deployed env [r]) (aServerEndpoint : String) (aStateClient : Option String)
    (aStateRepos : ExtTreeMap String (ExtTreeMap String String)) (aActions : List Action)
    (hs : s ∈ Runs.states (step env) (System.new aServerEndpoint aStateClient aStateRepos rs)
      aActions) :
    (s.Idle → ∃ resps, Executed env aServerEndpoint r s resps) ∧
    (∃ more resps, Executed env aServerEndpoint r (Runs.final (step env) s more) resps) ∧
    ∀ resps, Executed env aServerEndpoint r s resps → c.theFunctions.head? = some r.theName →
      executedFunctions r.theUuid s.theLog = c.theFunctions := by
  have hchain : r.toProtobuf.chain = c.theFunctions := by simp only [LambdaRequest.toProtobuf, hc]
  have hpos : 0 < r.toProtobuf.chain.length := by
    rw [hchain]
    exact List.length_pos_iff.mpr hn
  obtain ⟨hcoupled, stage, resps, h⟩ : Coupled rs s ∧ ∃ stage resps,
      InOrder env aServerEndpoint r s stage resps := by
    refine Runs.invariant (I := fun s => Coupled rs s ∧ ∃ stage resps,
      InOrder env aServerEndpoint r s stage resps) ?_ aActions ?_ s hs
    · rintro s a ⟨hcoupled, stage, resps, h⟩
      exact ⟨coupled_change hrs huuid hcoupled (step_change hrs hcoupled a),
        inOrder_step hrs hr hpos henv hcoupled h a⟩
    · exact ⟨coupled_new hrs huuid aServerEndpoint aStateClient aStateRepos, .flying, [],
        inOrder_new huuid hr hpos hlocal aServerEndpoint aStateClient aStateRepos⟩
  refine ⟨fun hidle => ?_, ?_, fun resps hexecuted hhead => ?_⟩
  · cases ended_of_idle hidle h.view
    exact ⟨resps, executed_of_ended hpos h⟩
  · obtain ⟨more, resps', hover⟩ := completes hrs huuid hr hpos henv hcoupled h
    exact ⟨more, resps', executed_of_ended hpos hover⟩
  · rw [hexecuted.functions, hchain]
    cases hfs : c.theFunctions with
    | nil => exact absurd hfs hn
    | cons f fs =>
      rw [hfs, List.head?_cons, Option.some.injEq] at hhead
      rw [hhead, List.tail_cons]

/-- A chain with a function that comes back, and a state that two functions depend on. -/
def exampleChainRequest : LambdaRequest where
  theName := "f1"
  theInput := "input"
  theDataIn := ""
  theForward := true
  theHops := 0
  theStates := .ofList [("s1", State.mk "" "content")]
  theCallback := "client:6480"
  theChain := some ⟨["f1", "f2", "f1"], ⟨.ofList [("s1", ["f1", "f2"])]⟩,
    by unfold Model.Known; decide +kernel⟩
  theDag := none
  theNextFunctionIndex := 0
  theUuid := "uuid0"

theorem chain_executed_in_order_example : ∃ s resps, s = Runs.final (step exampleComputer.environment)
      (System.new "host0:6473" none ∅ [exampleChainRequest])
      [.deliver 0, .start 0, .finish 0, .deliver 0, .start 0, .finish 0, .deliver 0, .start 0,
        .finish 0] ∧
    Executed exampleComputer.environment "host0:6473" exampleChainRequest s resps ∧
    executedFunctions "uuid0" s.theLog = ["f1", "f2", "f1"] := by
  have hrs : ∀ r ∈ [exampleChainRequest], Accepted r := by
    intro r hr
    rw [List.mem_singleton.mp hr]
    exact ⟨rfl, by decide, rfl⟩
  have hlocal : Embedded exampleChainRequest.toProtobuf.states := by
    intro x st hst
    have hall : ∀ y ∈ exampleChainRequest.toProtobuf.states.toList, y.2.location = "" := by
      decide +kernel
    exact hall (x, st) (Maps.mem_toList.mpr hst)
  have henv : Deployed exampleComputer.environment [exampleChainRequest] := by
    apply exampleComputer.deployed hrs
    intro r hr f hf
    rw [List.mem_singleton.mp hr] at hf
    revert f
    decide +kernel
  have h := chain_executed_in_order hrs (by decide) List.mem_cons_self rfl (by decide) hlocal henv
    "host0:6473" none ∅ [.deliver 0, .start 0, .finish 0, .deliver 0, .start 0, .finish 0, .deliver 0,
      .start 0, .finish 0] (Runs.final_mem_states _ _ _)
  have hidle : (Runs.final (step exampleComputer.environment)
      (System.new "host0:6473" none ∅ [exampleChainRequest])
      [.deliver 0, .start 0, .finish 0, .deliver 0, .start 0, .finish 0, .deliver 0, .start 0,
        .finish 0]).Idle := by
    refine ⟨?_, ?_, ?_⟩ <;> apply List.length_eq_zero_iff.mp <;> decide +kernel
  obtain ⟨resps, hexecuted⟩ := h.1 hidle
  exact ⟨_, resps, rfl, hexecuted, h.2.2 resps hexecuted rfl⟩

end Runs

end ServerlessEdge.Computer
