import ServerlessEdge.Messages.LambdaRequest
import ServerlessEdge.Library.Maps
import ServerlessEdge.Library.Runs
import Mathlib.Data.Finset.Sort

/-! A client of several servers. One thread for each server executes requests,
and one more collects the responses that come after the first good one. -/
namespace ServerlessEdge.Clients
open Std Library Messages

/-- theRequest is the address of the request. -/
structure MessageIn where
  theRequest : ℕ
  theDry : Bool
  deriving DecidableEq

/-- There is no response after an exception. The address of the request that was
executed is not part of the message in the program. -/
structure MessageOut where
  theIndex : ℕ
  theResponse : Option Rpc.LambdaResponse
  theRequest : ℕ
  deriving DecidableEq

def MessageOut.ok (m : MessageOut) : Bool := m.theResponse.any fun r => r.retcode = "OK"

/-- What a caller gets, with its request, the address of the copy of it, and the
servers selected. -/
structure Answer where
  aReq : LambdaRequest
  theRequest : ℕ
  selected : Finset ℕ
  response : Rpc.LambdaResponse
  deriving DecidableEq

/-- How far a caller has come in RunLambda. -/
inductive Phase where
  | waiting
  | selecting
  | copying (myPending : Finset ℕ)
  | sending (selected : Finset ℕ) (rest : List ℕ)
  | collecting (selected myPending : Finset ℕ) (myFastest : Option MessageOut)
  | leaving (theIndex : ℕ) (answer : Answer)
  deriving DecidableEq

structure Caller where
  aReq : LambdaRequest
  aDry : Bool
  phase : Phase
  deriving DecidableEq

/-- The queues and the threads. The copies of the requests are at the addresses
0, 1, and so on, and only the one at thePendingRequest is not freed. -/
structure EdgeClientMulti where
  theEndpoints : List String
  theCallingQueue : ℕ
  theConsumerQueue : List (Finset ℕ)
  theQueueOut : List MessageOut
  theQueueIn : ℕ → List MessageIn
  theRequests : List LambdaRequest
  thePendingRequest : ℕ
  thePrimary : ℕ
  executing : ℕ → Option MessageIn
  consuming : Option (Finset ℕ)
  callers : ExtTreeMap ℕ Caller
  outcomes : List MessageOut
  answers : List Answer

namespace EdgeClientMulti

def new (aServerEndpoints : List String) : EdgeClientMulti where
  theEndpoints := aServerEndpoints
  theCallingQueue := 1
  theConsumerQueue := []
  theQueueOut := []
  theQueueIn _ := []
  theRequests := []
  thePendingRequest := 0
  thePrimary := 0
  executing _ := none
  consuming := none
  callers := ∅
  outcomes := []
  answers := []

inductive Event where
  | call (c : ℕ) (aReq : LambdaRequest) (aDry : Bool)
  | token (c : ℕ)
  | select (c : ℕ) (secondary : Finset ℕ)
  | copy (c : ℕ)
  | send (c : ℕ)
  | pop (c : ℕ)
  | handOver (c : ℕ)
  | leave (c : ℕ)
  | start (i : ℕ)
  | finish (i : ℕ) (outcome : Option Rpc.LambdaResponse)
  | consume
  | discard
  | release

def setPhase (s : EdgeClientMulti) (c : ℕ) (cl : Caller) (phase : Phase) : EdgeClientMulti :=
  { s with callers := s.callers.insert c { cl with phase := phase } }

/-- The end of a call that gives back the token. -/
def fail (s : EdgeClientMulti) (c : ℕ) (answer : Answer) : EdgeClientMulti :=
  { s with
    theCallingQueue := s.theCallingQueue + 1
    callers := s.callers.erase c
    answers := answer :: s.answers }

/-- One step of a caller in RunLambda. -/
def runLambda (s : EdgeClientMulti) (c : ℕ) (cl : Caller) : Event → EdgeClientMulti
  | .token _ =>
    match cl.phase with
    | .waiting =>
      if s.theCallingQueue = 0 then s
      else { s.setPhase c cl .selecting with theCallingQueue := s.theCallingQueue - 1 }
    | _ => s
  | .select _ secondary =>
    match cl.phase with
    | .selecting =>
      s.setPhase c cl (.copying (insert s.thePrimary
        (secondary.filter fun i => i < s.theEndpoints.length)))
    | _ => s
  | .copy _ =>
    match cl.phase with
    | .copying myPending =>
      { s.setPhase c cl (.sending myPending (myPending.sort (· ≤ ·))) with
        theRequests := s.theRequests ++ [cl.aReq]
        thePendingRequest := s.theRequests.length }
    | _ => s
  | .send _ =>
    match cl.phase with
    | .sending selected (ndx :: rest) =>
      { s.setPhase c cl (.sending selected rest) with
        theQueueIn := Function.update s.theQueueIn ndx
          (s.theQueueIn ndx ++ [⟨s.thePendingRequest, cl.aDry⟩]) }
    | .sending selected [] => s.setPhase c cl (.collecting selected selected none)
    | _ => s
  | .pop _ =>
    match cl.phase, s.theQueueOut with
    | .collecting selected myPending myFastest, out :: theQueueOut =>
      if myPending = ∅ ∨ myFastest.any MessageOut.ok then s
      else { s.setPhase c cl (.collecting selected (myPending.erase out.theIndex) (some out)) with
        theQueueOut := theQueueOut }
    | _, _ => s
  | .handOver _ =>
    match cl.phase with
    | .collecting selected myPending myFastest =>
      if myPending ≠ ∅ ∧ !myFastest.any MessageOut.ok then s
      else match myFastest.bind MessageOut.theResponse with
        | none => s.fail c ⟨cl.aReq, s.thePendingRequest, selected,
            { retcode := "none of the destinations responded correctly" }⟩
        | some r =>
          if r.retcode ≠ "OK" then s.fail c ⟨cl.aReq, s.thePendingRequest, selected, r⟩
          else
            let ndx := (myFastest.map MessageOut.theIndex).getD 0
            let answer : Answer := ⟨cl.aReq, s.thePendingRequest, selected,
              { r with responder := s.theEndpoints.getD ndx "" }⟩
            let s' := s.setPhase c cl (.leaving ndx answer)
            if myPending = ∅ then { s' with theCallingQueue := s.theCallingQueue + 1 }
            else { s' with theConsumerQueue := s.theConsumerQueue ++ [myPending] }
    | _ => s
  | .leave _ =>
    match cl.phase with
    | .leaving theIndex answer =>
      { s with
        thePrimary := theIndex
        callers := s.callers.erase c
        answers := answer :: s.answers }
    | _ => s
  | _ => s

/-- One step of the thread of a server. -/
def execLambda (s : EdgeClientMulti) : Event → EdgeClientMulti
  | .start i =>
    match s.executing i, s.theQueueIn i with
    | none, m :: theQueueIn =>
      { s with
        theQueueIn := Function.update s.theQueueIn i theQueueIn
        executing := Function.update s.executing i (some m) }
    | _, _ => s
  | .finish i outcome =>
    match s.executing i with
    | some m =>
      { s with
        executing := Function.update s.executing i none
        theQueueOut := s.theQueueOut ++ [⟨i, outcome, m.theRequest⟩]
        outcomes := ⟨i, outcome, m.theRequest⟩ :: s.outcomes }
    | none => s
  | _ => s

/-- One step of the consumer. -/
def consumer (s : EdgeClientMulti) : Event → EdgeClientMulti
  | .consume =>
    match s.consuming, s.theConsumerQueue with
    | none, myPending :: theConsumerQueue =>
      { s with theConsumerQueue := theConsumerQueue, consuming := some myPending }
    | _, _ => s
  | .discard =>
    match s.consuming, s.theQueueOut with
    | some myPending, out :: theQueueOut =>
      if myPending = ∅ then s
      else { s with theQueueOut := theQueueOut, consuming := some (myPending.erase out.theIndex) }
    | _, _ => s
  | .release =>
    if s.consuming = some ∅ then
      { s with consuming := none, theCallingQueue := s.theCallingQueue + 1 }
    else s
  | _ => s

/-- The caller that takes a step. -/
def Event.caller : Event → Option ℕ
  | .token c | .select c _ | .copy c | .send c | .pop c | .handOver c | .leave c => some c
  | _ => none

def step (s : EdgeClientMulti) : Event → EdgeClientMulti
  | .call c aReq aDry =>
    if c ∈ s.callers then s else { s with callers := s.callers.insert c ⟨aReq, aDry, .waiting⟩ }
  | .start i => s.execLambda (.start i)
  | .finish i outcome => s.execLambda (.finish i outcome)
  | .consume => s.consumer .consume
  | .discard => s.consumer .discard
  | .release => s.consumer .release
  | e =>
    match e.caller.bind fun c => s.callers[c]?.map fun cl => (c, cl) with
    | some (c, cl) => s.runLambda c cl e
    | none => s

end EdgeClientMulti

end ServerlessEdge.Clients
