import ServerlessEdge.Estimator.PtimeEstimator
import ServerlessEdge.Library.Steps
import ServerlessEdge.Model.Callable
import ServerlessEdge.Simulation.Client

/-! A client that sends its requests one after another. To some a response is returned at once, to the
others one comes to the callback, where another thread takes it from a queue and records it. -/
namespace ServerlessEdge.Simulation
open Std (ExtTreeMap)
open Library Maps Checks Steps Messages Model
open Estimator (LambdaResponse)

/-- What a client invokes. -/
inductive Mode where
  | function (theLambda : String)
  | chain (theChain : Chain)
  | dag (theDag : Dag)

namespace Mode

def name : Mode → String
  | function theLambda => theLambda
  | chain theChain => "-".intercalate theChain.theFunctions
  | dag theDag => "-".intercalate theDag.theFunctionNames

def entryFunctionName : Mode → Except String String
  | function theLambda => return theLambda
  | chain theChain => theChain.entryFunctionName
  | dag theDag => return theDag.toName 0

/-- The states that go with a request. -/
def allStates : Mode → List String
  | function _ => []
  | chain theChain => theChain.theStates.allStates false
  | dag theDag => theDag.theStates.allStates false

def isFunction : Mode → Bool
  | function _ => true
  | _ => false

def theChain? : Mode → Option Chain
  | chain theChain => some theChain
  | _ => none

def theDag? : Mode → Option Dag
  | dag theDag => some theDag
  | _ => none

end Mode

/-- A client each of whose requests is for all that it invokes. -/
structure SingleClient where
  theNumRequests : ℕ
  theMode : Mode
  theCallback : String
  theContent : String
  theDry : Bool
  theStateSizes : ExtTreeMap String ℕ
  theStateEndpoint : String
  aUuids : ℕ → String
  called : theMode.isFunction = false → theCallback ≠ ""

/-- A request that has been sent, when that was, and what has been or will be responded to it. -/
structure Call where
  myReq : LambdaRequest
  theStart : ℚ
  theAnswer : Option LambdaResponse

/-- What recordStat() has been called with, and when it measured the time since the request. -/
structure Record where
  myResp : LambdaResponse
  theStop : ℚ
  myElapsed : ℚ

/-- A row of the output file. -/
structure Sample where
  myTime : ℚ
  theLoad1 : ℕ
  theResponder : String
  myName : String
  theHops : ℕ
  deriving DecidableEq

/-- Where the thread of the client is. -/
inductive Stage where
  | looping
  /-- in RunLambda() -/
  | calling
  | recording (myResp : LambdaResponse)
  | pushing
  | popping
  | finished (thrown : Bool)
  deriving DecidableEq

/-- Where the thread is that takes the responses to the callback. -/
inductive Saving where
  | popping
  | recording (myResponse : LambdaResponse)
  | pushing
  deriving DecidableEq

/-- What has been sent and recorded. -/
structure Ledger where
  theLastStates : ExtTreeMap String State
  theLambdaChrono : ℚ
  theSaver : List Sample
  theLatencyStat : List ℚ
  theProcessingStat : List ℚ
  theCalls : List Call
  theRecords : List Record

structure Session extends Ledger where
  stage : Stage
  saving : Saving
  myCounter : ℕ
  /-- The queue of the client is closed together with it. -/
  theStopFlag : Bool
  /-- As many elements, all alike. -/
  theSendRequestQueue : ℕ
  /-- The responses to the callback. -/
  theQueue : List LambdaResponse

inductive Event where
  /-- an iteration that only sleeps -/
  | idle
  | send (aSize : ℕ) (now : ℚ)
  | respond (myResp : LambdaResponse)
  | fail
  | record (now : ℚ)
  | push
  | pop
  | finish
  | receive (n : ℕ) (myResp : LambdaResponse)
  | take
  | recordAsync (now : ℚ)
  | pushAsync
  | stop
  | closed
  | closedAsync

namespace SingleClient

/-- The states before the first request. -/
def validateStates (c : SingleClient) : ExtTreeMap String State :=
  if c.theMode.isFunction then ∅
  else c.theStateSizes.map fun _ size =>
    if c.theStateEndpoint = "" then ⟨"", String.ofList (List.replicate size 'A')⟩
    else ⟨c.theStateEndpoint, ""⟩

/-- The input, as long as that unless it is given. -/
def content (c : SingleClient) (aSize : ℕ) : String :=
  if c.theContent = "" then
    "\x7b\"input\":\"" ++ String.ofList (List.replicate (aSize - 12) 'A') ++ "\"\x7d"
  else c.theContent

def singleExecution (c : SingleClient) (theLastStates : ExtTreeMap String State)
    (aInput aUuid : String) : Except String LambdaRequest := do
  if c.theMode.isFunction = false ∧ c.theCallback = "" then throw "uninitialized callback end-point"
  let myName ← c.theMode.entryFunctionName
  let myStates ← Client.requestStates theLastStates c.theMode.allStates
  return {
    theName := myName
    theInput := aInput
    theDataIn := ""
    theForward := false
    theHops := 0
    theStates := myStates
    theCallback := c.theCallback
    theChain := c.theMode.theChain?
    theDag := c.theMode.theDag?
    theNextFunctionIndex := 0
    theUuid := aUuid }

def new (c : SingleClient) : Session where
  stage := .looping
  saving := .popping
  myCounter := 0
  theStopFlag := false
  theSendRequestQueue := 0
  theQueue := []
  theLastStates := c.validateStates
  theLambdaChrono := 0
  theSaver := []
  theLatencyStat := []
  theProcessingStat := []
  theCalls := []
  theRecords := []

def sample (c : SingleClient) (r : Record) : Sample where
  myTime := if c.theDry then r.myResp.processingTimeSeconds else r.myElapsed
  theLoad1 := r.myResp.load1
  theResponder := r.myResp.responder
  myName := c.theMode.name
  theHops := r.myResp.hops

/-- All that is done before the push that lets sendRequest() proceed; nothing after an assertion that
fails. -/
def recordStat (c : SingleClient) (aResponse : LambdaResponse) (now : ℚ) (l : Ledger) : Option Ledger :=
  match Client.saveStates l.theLastStates (deserializeStates aResponse.states) with
  | .error _ => none
  | .ok theLastStates =>
    let r : Record := ⟨aResponse, now, now - l.theLambdaChrono⟩
    if aResponse.retcode = "OK" then
      some { l with
        theLastStates := theLastStates
        theSaver := l.theSaver ++ [c.sample r]
        theLatencyStat := l.theLatencyStat ++ [r.myElapsed]
        theProcessingStat := l.theProcessingStat ++ [aResponse.processingTimeSeconds]
        theRecords := l.theRecords ++ [r] }
    else some { l with theLastStates := theLastStates, theRecords := l.theRecords ++ [r] }

/-- The servers respond to a request once, and return no states but its own. -/
def answer (n : ℕ) (myResp : LambdaResponse) (l : Ledger) : Option Ledger :=
  match l.theCalls[n]? with
  | none => none
  | some myCall =>
    if myCall.theAnswer.isNone = true ∧ ∀ x ∈ myResp.states.keys, x ∈ myCall.myReq.theStates then
      some { l with theCalls := l.theCalls.set n { myCall with theAnswer := some myResp } }
    else none

def ask (myReq : LambdaRequest) (now : ℚ) (l : Ledger) : Ledger :=
  { l with theLambdaChrono := now, theCalls := l.theCalls ++ [⟨myReq, now, none⟩] }

/-- Up to the call of the edge client. -/
def sendRequest (c : SingleClient) (aSize : ℕ) (now : ℚ) (s : Session) : Session :=
  match c.singleExecution s.theLastStates (c.content aSize) (c.aUuids s.theCalls.length) with
  -- the chronometer has been started, but nothing stops it any more
  | .error _ => { s with stage := .finished true }
  | .ok myReq => { s with toLedger := ask myReq now s.toLedger, stage := .calling }

/-- There is another iteration. What comes before the call of a server is the same if the client is
stopped after this has been found. -/
def Loops (c : SingleClient) (s : Session) : Prop :=
  s.stage = .looping ∧ s.myCounter < c.theNumRequests ∧ s.theStopFlag = false

instance (c : SingleClient) (s : Session) : Decidable (c.Loops s) :=
  inferInstanceAs (Decidable (_ ∧ _ ∧ _))

def step (c : SingleClient) (s : Session) : Event → Option Session
  | .idle => if c.Loops s then some s else none
  | .send aSize now => if c.Loops s then some (c.sendRequest aSize now s) else none
  | .finish =>
    if s.stage = .looping ∧ ¬ c.Loops s then some { s with stage := .finished false } else none
  | .respond myResp =>
    if s.stage = .calling then
      if myResp.asynchronous then some { s with stage := .popping }
      else (answer (s.theCalls.length - 1) myResp s.toLedger).map fun l =>
        { s with toLedger := l, stage := .recording myResp }
    else none
  | .fail => if s.stage = .calling then some { s with stage := .finished true } else none
  | .record now => match s.stage with
    | .recording myResp => (c.recordStat myResp now s.toLedger).map fun l =>
      { s with toLedger := l, stage := .pushing }
    | _ => none
  | .push =>
    if s.stage = .pushing then
      some { s with stage := .popping, theSendRequestQueue := s.theSendRequestQueue + 1 }
    else none
  | .pop =>
    if s.stage = .popping ∧ 0 < s.theSendRequestQueue then
      some { s with
        stage := .looping
        myCounter := s.myCounter + 1
        theSendRequestQueue := s.theSendRequestQueue - 1 }
    else none
  | .receive n myResp =>
    (answer n myResp s.toLedger).map fun l =>
      { s with toLedger := l, theQueue := s.theQueue ++ [myResp] }
  | .take => match s.saving, s.theQueue with
    | .popping, myResponse :: theQueue =>
      some { s with saving := .recording myResponse, theQueue := theQueue }
    | _, _ => none
  | .recordAsync now => match s.saving with
    | .recording myResponse => (c.recordStat myResponse now s.toLedger).map fun l =>
      { s with toLedger := l, saving := .pushing }
    | _ => none
  | .pushAsync =>
    if s.saving = .pushing then
      some { s with saving := .popping, theSendRequestQueue := s.theSendRequestQueue + 1 }
    else none
  | .stop => if s.theStopFlag = false then some { s with theStopFlag := true } else none
  -- a queue that has been closed throws, both to those that push and to those that pop
  | .closed =>
    if s.theStopFlag = true ∧ (s.stage = .pushing ∨ s.stage = .popping) then
      some { s with stage := .finished true }
    else none
  | .closedAsync =>
    if s.theStopFlag = true ∧ s.saving = .pushing then some { s with saving := .popping } else none

/-- The states that the client has once it has recorded these responses. -/
def statesAfter (c : SingleClient) (aResponses : List LambdaResponse) :
    Except String (ExtTreeMap String State) :=
  aResponses.foldlM (fun last r => Client.saveStates last (deserializeStates r.states)) c.validateStates

/-- The records of which the statistics are kept. -/
def goods (l : Ledger) : List Record := l.theRecords.filter fun r => r.myResp.retcode = "OK"

/-- Each record is of the response to the request in its place, and has the time since that; each
request carries the states that the responses to all earlier ones have left. -/
structure Sound (c : SingleClient) (l : Ledger) : Prop where
  recorded : ∀ (n : ℕ) r, l.theRecords[n]? = some r → ∃ myCall, l.theCalls[n]? = some myCall ∧
    myCall.theAnswer = some r.myResp ∧ r.myElapsed = r.theStop - myCall.theStart
  asked : ∀ (n : ℕ) myCall, l.theCalls[n]? = some myCall → ∃ last aSize,
    c.statesAfter ((l.theRecords.take n).map Record.myResp) = .ok last ∧
      c.singleExecution last (c.content aSize) (c.aUuids n) = .ok myCall.myReq
  states : c.statesAfter (l.theRecords.map Record.myResp) = .ok l.theLastStates
  chrono : ∀ myCall, l.theCalls.getLast? = some myCall → l.theLambdaChrono = myCall.theStart
  saver : l.theSaver = (goods l).map c.sample
  latency : l.theLatencyStat = (goods l).map Record.myElapsed
  processing : l.theProcessingStat = (goods l).map fun r => r.myResp.processingTimeSeconds
  known : ∀ myCall ∈ l.theCalls, (∀ x ∈ myCall.myReq.theStates, x ∈ l.theLastStates) ∧
    ∀ myResp, myCall.theAnswer = some myResp → ∀ x ∈ myResp.states.keys, x ∈ l.theLastStates

section Ledgers

variable {c : SingleClient} {l l' : Ledger} {now : ℚ} {myResp : LambdaResponse}

theorem known_of_requestStates {last m : ExtTreeMap String State} {xs : List String}
    (h : Client.requestStates last xs = .ok m) : ∀ x ∈ m, x ∈ last := by
  rw [Client.requestStates] at h
  refine (foldlM_ok (I := fun m => ∀ x ∈ m, x ∈ last) (P := fun _ => True) (fun m x m' hm hx => ?_)
    (fun x hx => absurd hx ExtTreeMap.not_mem_empty) h).2
  split at hx
  · cases hx
  · next v hv =>
    cases hx
    refine ⟨trivial, fun y hy => ?_⟩
    rw [ExtTreeMap.mem_insertIfNew] at hy
    rcases hy with heq | hy
    · obtain rfl := Std.LawfulEqCmp.eq_of_compare heq
      exact mem_of_lookup hv
    · exact hm y hy

theorem mem_saveStates {last ss m : ExtTreeMap String State} (h : Client.saveStates last ss = .ok m)
    (x : String) : x ∈ m ↔ x ∈ last := by
  rw [Client.saveStates] at h
  refine (foldlM_ok (I := fun m => ∀ x, x ∈ m ↔ x ∈ last) (P := fun _ => True)
    (fun m e m' hm he => ?_) (fun _ => Iff.rfl) h).2 x
  split at he
  · next hmem =>
    cases he
    refine ⟨trivial, fun y => ?_⟩
    rw [mem_insert, hm y]
    refine or_iff_right_of_imp ?_
    rintro rfl
    exact (hm _).mp hmem
  · cases he

/-- A request carries none but the states of the client. -/
theorem known_of_singleExecution {last : ExtTreeMap String State} {aInput aUuid : String}
    {myReq : LambdaRequest} (h : c.singleExecution last aInput aUuid = .ok myReq) :
    ∀ x ∈ myReq.theStates, x ∈ last := by
  rw [singleExecution] at h
  split at h
  · cases h
  · obtain ⟨myName, -, h⟩ := bind_ok.mp h
    obtain ⟨myStates, hstates, h⟩ := bind_ok.mp h
    cases h
    exact known_of_requestStates hstates

theorem sound_new (c : SingleClient) : Sound c c.new.toLedger := by
  constructor <;> simp [new, goods, statesAfter]
  rfl

theorem Sound.ask {aSize : ℕ} {myReq : LambdaRequest} (now : ℚ) (h : Sound c l)
    (hall : l.theCalls.length = l.theRecords.length)
    (hreq : c.singleExecution l.theLastStates (c.content aSize) (c.aUuids l.theCalls.length) =
      .ok myReq) : Sound c (ask myReq now l) where
  recorded n r hr := by
    obtain ⟨myCall, hcall, hrest⟩ := h.recorded n r hr
    have hlt := (List.getElem?_eq_some_iff.mp hcall).1
    exact ⟨myCall, (List.getElem?_append_left hlt).trans hcall, hrest⟩
  asked n myCall hcall := by
    rw [SingleClient.ask] at hcall
    rcases Nat.lt_or_ge n l.theCalls.length with hlt | hge
    · rw [List.getElem?_append_left hlt] at hcall
      exact h.asked n myCall hcall
    · have hlast := (List.getElem?_eq_some_iff.mp hcall).1
      rw [List.length_append, List.length_singleton] at hlast
      obtain rfl : n = l.theCalls.length := by omega
      rw [List.getElem?_concat_length] at hcall
      cases hcall
      refine ⟨l.theLastStates, aSize, ?_, hreq⟩
      show c.statesAfter ((l.theRecords.take _).map _) = _
      rw [hall, List.take_length]
      exact h.states
  states := h.states
  chrono myCall hcall := by
    rw [SingleClient.ask, List.getLast?_concat] at hcall
    cases hcall
    rfl
  saver := h.saver
  latency := h.latency
  processing := h.processing
  known myCall hcall := by
    rcases List.mem_append.mp hcall with hold | hnew
    · exact h.known myCall hold
    · rw [List.mem_singleton] at hnew
      subst hnew
      refine ⟨known_of_singleExecution hreq, fun myResp hresp => ?_⟩
      cases hresp

/-- The request that is answered has not been answered before. -/
theorem answer_cases {n : ℕ} (h : answer n myResp l = some l') : ∃ myCall,
    l.theCalls[n]? = some myCall ∧ myCall.theAnswer = none ∧
      (∀ x ∈ myResp.states.keys, x ∈ myCall.myReq.theStates) ∧
      l' = { l with theCalls := l.theCalls.set n { myCall with theAnswer := some myResp } } := by
  rw [answer] at h
  split at h
  · cases h
  · next myCall hcall =>
    split at h
    · next hopen =>
      cases h
      exact ⟨myCall, hcall, Option.isNone_iff_eq_none.mp hopen.1, hopen.2, rfl⟩
    · cases h

theorem Sound.answer {n : ℕ} (h : Sound c l) (hl : answer n myResp l = some l') : Sound c l' := by
  obtain ⟨myCall, hcall, hnone, hown, rfl⟩ := answer_cases hl
  have hlt := (List.getElem?_eq_some_iff.mp hcall).1
  have hset : ∀ k : ℕ, (l.theCalls.set n { myCall with theAnswer := some myResp })[k]? =
      if n = k then some { myCall with theAnswer := some myResp } else l.theCalls[k]? := by
    intro k
    rw [List.getElem?_set]
    split
    · next hk =>
      subst hk
      rfl
    · rfl
  refine { h with recorded := fun k r hr => ?_, asked := fun k myCall' hk => ?_,
                  chrono := fun myCall' hlast => ?_, known := fun myCall' hmem => ?_ }
  · obtain ⟨myCall', hk, hanswer, helapsed⟩ := h.recorded k r hr
    refine ⟨myCall', ?_, hanswer, helapsed⟩
    rw [hset, if_neg]
    · exact hk
    · rintro rfl
      rw [hcall] at hk
      cases hk
      rw [hnone] at hanswer
      cases hanswer
  · rw [hset] at hk
    split at hk
    · next heq =>
      subst heq
      cases hk
      exact h.asked n myCall hcall
    · exact h.asked k myCall' hk
  · rw [List.getLast?_eq_getElem?, List.length_set, hset] at hlast
    split at hlast
    · next heq =>
      cases hlast
      exact h.chrono myCall (by rw [List.getLast?_eq_getElem?, ← heq]; exact hcall)
    · exact h.chrono myCall' (by rw [List.getLast?_eq_getElem?]; exact hlast)
  · obtain ⟨k, hk⟩ := List.mem_iff_getElem?.mp hmem
    rw [hset] at hk
    split at hk
    · cases hk
      have hknown := (h.known myCall (List.mem_of_getElem? hcall)).1
      refine ⟨hknown, fun myResp' hresp x hx => ?_⟩
      cases hresp
      exact hknown x (hown x hx)
    · exact h.known myCall' (List.mem_of_getElem? hk)

theorem recordStat_cases (h : c.recordStat myResp now l = some l') : ∃ theLastStates,
    Client.saveStates l.theLastStates (deserializeStates myResp.states) = .ok theLastStates ∧
      l'.theLastStates = theLastStates ∧ l'.theLambdaChrono = l.theLambdaChrono ∧
      l'.theCalls = l.theCalls ∧
      l'.theRecords = l.theRecords ++ [⟨myResp, now, now - l.theLambdaChrono⟩] ∧
      (l.theSaver = (goods l).map c.sample → l'.theSaver = (goods l').map c.sample) ∧
      (l.theLatencyStat = (goods l).map Record.myElapsed →
        l'.theLatencyStat = (goods l').map Record.myElapsed) ∧
      ((l.theProcessingStat = (goods l).map fun r => r.myResp.processingTimeSeconds) →
        l'.theProcessingStat = (goods l').map fun r => r.myResp.processingTimeSeconds) := by
  rw [recordStat] at h
  split at h
  · cases h
  next theLastStates hsave =>
    refine ⟨theLastStates, hsave, ?_⟩
    dsimp only at h
    split at h
    · next hok =>
      cases h
      refine ⟨rfl, rfl, rfl, rfl, fun heq => ?_, fun heq => ?_, fun heq => ?_⟩
      all_goals simp [goods, hok, heq]
    · next hbad =>
      cases h
      refine ⟨rfl, rfl, rfl, rfl, fun heq => ?_, fun heq => ?_, fun heq => ?_⟩
      all_goals simp [goods, hbad, heq]

theorem Sound.record {myCall : Call} (h : Sound c l)
    (hlength : l.theCalls.length = l.theRecords.length + 1)
    (hcall : l.theCalls[l.theRecords.length]? = some myCall) (hanswer : myCall.theAnswer = some myResp)
    (hl : c.recordStat myResp now l = some l') : Sound c l' := by
  obtain ⟨theLastStates, hsave, hstates, hchrono, hcalls, hrecords, hsaver, hlatency, hprocessing⟩ :=
    recordStat_cases hl
  have hstart : l.theLambdaChrono = myCall.theStart := by
    refine h.chrono myCall ?_
    rw [List.getLast?_eq_getElem?, hlength]
    exact hcall
  constructor
  · intro n r hr
    rw [hrecords] at hr
    rw [hcalls]
    rcases Nat.lt_or_ge n l.theRecords.length with hlt | hge
    · rw [List.getElem?_append_left hlt] at hr
      exact h.recorded n r hr
    · have hlast := (List.getElem?_eq_some_iff.mp hr).1
      rw [List.length_append, List.length_singleton] at hlast
      obtain rfl : n = l.theRecords.length := by omega
      rw [List.getElem?_concat_length] at hr
      cases hr
      refine ⟨myCall, hcall, hanswer, ?_⟩
      rw [hstart]
  · intro n myCall' hn
    rw [hcalls] at hn
    have hle : n ≤ l.theRecords.length := by
      have hlt := (List.getElem?_eq_some_iff.mp hn).1
      omega
    rw [hrecords, List.take_append_of_le_length hle]
    exact h.asked n myCall' hn
  · rw [hrecords, List.map_append, statesAfter, List.foldlM_append, hstates]
    refine bind_ok.mpr ⟨l.theLastStates, h.states, ?_⟩
    rw [List.map_singleton, List.foldlM_cons]
    exact bind_ok.mpr ⟨theLastStates, hsave, rfl⟩
  · rw [hcalls, hchrono]
    exact h.chrono
  · exact hsaver h.saver
  · exact hlatency h.latency
  · exact hprocessing h.processing
  · intro myCall' hmem
    rw [hcalls] at hmem
    obtain ⟨hreq, hresp⟩ := h.known myCall' hmem
    rw [hstates]
    refine ⟨fun x hx => (mem_saveStates hsave x).mpr (hreq x hx), fun myResp' heq x hx => ?_⟩
    exact (mem_saveStates hsave x).mpr (hresp myResp' heq x hx)

end Ledgers

end SingleClient

end ServerlessEdge.Simulation
