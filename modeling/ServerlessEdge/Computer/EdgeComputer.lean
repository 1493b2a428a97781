import ServerlessEdge.Messages.LambdaRequest
import ServerlessEdge.Library.Triple
import Std.Data.String.ToNat
import Mathlib.Algebra.GroupWithZero.Nat

/-! The computer that executes functions: a request with a callback is queued for
the workers, which invoke the next functions of a workflow via the companion. -/
namespace ServerlessEdge.Computer
open Std Library Messages

/-- What the computer does not decide: what the n-th execution of a function
returns. -/
structure Environment where
  realExecution : Nat → Rpc.LambdaRequest → Except String Rpc.LambdaResponse
  dryExecution : Nat → Rpc.LambdaRequest → Except String Unit

structure EdgeComputer where
  theServerEndpoint : String
  /-- The end-point of the local state server. -/
  theStateClient : Option String
  /-- Whether there are workers at all. -/
  theAsyncWorkers : Bool
  theAsyncQueue : List Rpc.LambdaRequest
  theInvocations : ExtTreeMap String Nat

/-- An invocation on its way, and the index of the function that caused it. -/
structure Message where
  source : Option Nat
  request : Rpc.LambdaRequest

inductive Event where
  | arrived (aMessage : Message)
  | executed (aReq : Rpc.LambdaRequest)
  | completed (aReq : Rpc.LambdaRequest)
  | failed (aReq : Rpc.LambdaRequest)
  | responded (aEndpoint : String) (aReq : Rpc.LambdaRequest) (aResp : Rpc.LambdaResponse)

/-- A computer that is its own companion, the contents of the state servers by
end-point, and the events so far, latest first. -/
structure System where
  theComputer : EdgeComputer
  theStateRepos : ExtTreeMap String (ExtTreeMap String String)
  /-- What the workers are executing. -/
  theRunning : List Rpc.LambdaRequest
  theMessages : List Message
  theLog : List Event

abbrev Member := EStateM String System

def System.record (s : System) (aEvent : Event) : System := { s with theLog := aEvent :: s.theLog }

namespace StateClient

/-- A state server that is not there does not answer the call. -/
def repo (aServerEndpoint : String) : Member (ExtTreeMap String String) := do
  match (← get).theStateRepos[aServerEndpoint]? with
  | none => throw "rpc error"
  | some theStateRepo => return theStateRepo

def setRepo (aServerEndpoint : String) (theStateRepo : ExtTreeMap String String) : Member Unit :=
  modify fun s => { s with theStateRepos := s.theStateRepos.insert aServerEndpoint theStateRepo }

def Get (aServerEndpoint aName : String) : Member (Option String) := do
  return (← repo aServerEndpoint)[aName]?

def Put (aServerEndpoint aName aState : String) : Member Unit := do
  setRepo aServerEndpoint ((← repo aServerEndpoint).insert aName aState)

def Del (aServerEndpoint aName : String) : Member Unit := do
  setRepo aServerEndpoint ((← repo aServerEndpoint).erase aName)

end StateClient

namespace EdgeComputer

def stateClient : Member String := do
  match (← get).theComputer.theStateClient with
  | none => throw "cannot handle remote states without a state server"
  | some e => return e

/-- One state of the request: moved to the local server if the function depends
on it and it is elsewhere. -/
def handleRemoteState (aRequest : Rpc.LambdaRequest) (aResponse : Rpc.LambdaResponse)
    (elem : String × Rpc.State) : Member Rpc.LambdaResponse := do
  if elem.2.location = "" then return aResponse
  let myServer ← stateClient
  if elem.2.location = myServer then return aResponse
  if aRequest.name ∉ aRequest.dependencies.getD elem.1 [] then return aResponse
  match ← StateClient.Get elem.2.location elem.1 with
  | none => throw ("could not find state in " ++ elem.2.location ++ ": " ++ elem.1)
  | some myContent =>
    StateClient.Put myServer elem.1 myContent
    StateClient.Del elem.2.location elem.1
    match aResponse.states[elem.1]? with
    | none => throw ("could not find state in the response: " ++ elem.1)
    | some myState =>
      return { aResponse with
        states := aResponse.states.insert elem.1 { myState with location := myServer } }

/-- The order of the states of a message is not specified; it does not matter. -/
def handleRemoteStates (aRequest : Rpc.LambdaRequest) (aResponse : Rpc.LambdaResponse) :
    Member Rpc.LambdaResponse :=
  aRequest.states.toList.foldlM (handleRemoteState aRequest) aResponse

def blockingExecution (env : Environment) (aReq : Rpc.LambdaRequest) : Member Rpc.LambdaResponse := do
  match env.realExecution (← get).theLog.length aReq with
  | .error err => throw err
  | .ok myResp => handleRemoteStates aReq myResp

def makeHash (aRequest : Rpc.LambdaRequest) : String :=
  toString aRequest.nextfunctionindex ++ "-" ++ aRequest.uuid

/-- The invocations expected by a function, according to the DAG. -/
def expected (aRequest : Rpc.LambdaRequest) : Nat :=
  (aRequest.dag.successors.map fun js => js.count aRequest.nextfunctionindex).sum

def checkPreconditions (aRequest : Rpc.LambdaRequest) (theInvocations : ExtTreeMap String Nat) :
    Bool × ExtTreeMap String Nat :=
  if aRequest.dag.names.length ≤ 1 ∨ aRequest.nextfunctionindex = 0 then (true, theInvocations)
  else if expected aRequest = 1 then (true, theInvocations)
  else
    let myActual := theInvocations.getD (makeHash aRequest) 0 + 1
    if myActual = expected aRequest then (true, theInvocations.erase (makeHash aRequest))
    else (false, theInvocations.insert (makeHash aRequest) myActual)

def lastFunction (aRequest : Rpc.LambdaRequest) : Bool :=
  -- single function invocation
  aRequest.chain.length = 0 ∧ aRequest.dag.names.length = 0 ∨
  -- last function in a chain
  1 ≤ aRequest.chain.length ∧ aRequest.nextfunctionindex = aRequest.chain.length - 1 ∨
  -- last function in a DAG
  1 < aRequest.dag.names.length ∧ aRequest.nextfunctionindex = aRequest.dag.successors.length

def checkRequest (aReq : Rpc.LambdaRequest) : Except String Unit :=
  if 0 < aReq.chain.length ∧ 0 < aReq.dag.names.length then
    throw "Cannot specify both a function chain and a DAG in the request"
  else if (1 < aReq.chain.length ∨ 1 < aReq.dag.names.length) ∧ aReq.callback = "" then
    throw "Cannot handle multiple functions without a callback in the request"
  else if 0 < aReq.chain.length ∧ aReq.chain.length ≤ aReq.nextfunctionindex then
    throw "Out-of-range function execution requested in a chain"
  else if 1 < aReq.dag.names.length ∧ aReq.uuid = "" then
    throw "Cannot execute a DAG without a UUID in the request"
  else return

/-- The response to a request, and what becomes of the computer. -/
def process (env : Environment) (aReq : Rpc.LambdaRequest) (s : System) :
    Rpc.LambdaResponse × System :=
  let myHops := (aReq.hops + 1) % 2 ^ 32
  match checkRequest aReq with
  | .error err => ({ hops := myHops, retcode := err }, s)
  | .ok () =>
    if aReq.dry then
      match env.dryExecution s.theLog.length aReq with
      | .error err => ({ hops := myHops, retcode := err }, s)
      | .ok () => ({ hops := myHops, retcode := "OK" }, s)
    else if aReq.callback ≠ "" then
      if s.theComputer.theAsyncWorkers then
        let myRet := checkPreconditions aReq s.theComputer.theInvocations
        ({ hops := myHops, retcode := "OK", asynchronous := true },
          { s with theComputer := { s.theComputer with
            theInvocations := myRet.2
            theAsyncQueue := if myRet.1 then s.theComputer.theAsyncQueue ++ [aReq]
              else s.theComputer.theAsyncQueue } })
      else ({ hops := myHops, retcode := "Cannot handle an asynchronous function invocation" }, s)
    else match blockingExecution env aReq s with
      | .error err s' => ({ hops := myHops, retcode := err }, s')
      | .ok myResp s' => ({ myResp with hops := myHops }, s')

/-- The functions that a worker invokes next, by their index and name. -/
def nextFunctions (aReq : Rpc.LambdaRequest) : List (Nat × String) :=
  if 0 < aReq.chain.length then
    match aReq.chain[aReq.nextfunctionindex + 1]? with
    | none => []
    | some f => [(aReq.nextfunctionindex + 1, f)]
  else match aReq.dag.successors[aReq.nextfunctionindex]? with
    | none => []
    | some js => js.filterMap fun j => aReq.dag.names[j]?.map fun f => (j, f)

/-- What a worker does with the response of the function it has executed. -/
def conclude (aReq : Rpc.LambdaRequest) (aResp : Rpc.LambdaResponse) (s : System) : System :=
  if lastFunction aReq then
    s.record (.responded aReq.callback aReq { aResp with
      responder := s.theComputer.theServerEndpoint
      hops := (aReq.hops + 1) % 2 ^ 32
      retcode := "OK" })
  else match LambdaRequest.ofProtobuf aReq with
    | .error _ => s
    | .ok myRequest => { s with theMessages := s.theMessages ++ (nextFunctions aReq).map fun x =>
        ⟨some aReq.nextfunctionindex, (myRequest.regenerate x.2 x.1 aResp).toProtobuf⟩ }

end EdgeComputer

/-- An invocation arrives, a worker takes a request, or an execution ends; the
number is the position of the message or of the request. -/
inductive Action where
  | deliver (i : Nat)
  | start (i : Nat)
  | finish (i : Nat)
  deriving DecidableEq

open EdgeComputer

/-- Messages are delivered in any order; so are requests taken from the queue,
since a request is queued some time after its preconditions are checked. -/
def step (env : Environment) (s : System) : Action → System
  | .deliver i => match s.theMessages[i]? with
    | none => s
    | some m =>
      (process env m.request
        ({ s with theMessages := s.theMessages.eraseIdx i }.record (.arrived m))).2
  | .start i => match s.theComputer.theAsyncQueue[i]? with
    | none => s
    | some r =>
      { s with
        theComputer := { s.theComputer with theAsyncQueue := s.theComputer.theAsyncQueue.eraseIdx i }
        theRunning := r :: s.theRunning }.record (.executed r)
  | .finish i => match s.theRunning[i]? with
    | none => s
    | some r =>
      match blockingExecution env r { s with theRunning := s.theRunning.eraseIdx i } with
      | .error _ s' => s'.record (.failed r)
      | .ok myResp s' => (conclude r myResp s').record (.completed r)

end ServerlessEdge.Computer
