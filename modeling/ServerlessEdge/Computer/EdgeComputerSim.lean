import ServerlessEdge.Computer.EdgeComputer

/-! A computer that simulates the functions in its containers. -/
namespace ServerlessEdge.Computer
open Std Messages

structure Lambda where
  theCopyInput : Bool
  theOutput : String

/-- All functions copy the states of the request. -/
def Lambda.execute (l : Lambda) (aReq : LambdaRequest) : Rpc.LambdaResponse where
  retcode := "OK"
  output := if l.theCopyInput then aReq.theInput else l.theOutput
  states := serializeStates aReq.theStates

structure EdgeComputerSim where
  theName : String
  theContainers : ExtTreeMap String Lambda

namespace EdgeComputerSim

/-- A task that is added comes to an end with a response. -/
def addTask (c : EdgeComputerSim) (aRequest : LambdaRequest) : Except String Rpc.LambdaResponse :=
  match c.theContainers[aRequest.theName]? with
  | none => throw ("No container for lambda " ++ aRequest.theName ++ " found in computer " ++ c.theName)
  | some theLambda => return theLambda.execute aRequest

def simTask (c : EdgeComputerSim) (aRequest : LambdaRequest) : Except String Unit :=
  match c.theContainers[aRequest.theName]? with
  | none => throw ("No container for lambda " ++ aRequest.theName ++ " found in computer " ++ c.theName)
  | some _ => return

def environment (c : EdgeComputerSim) : Environment where
  realExecution _ aRequest := do c.addTask (← LambdaRequest.ofProtobuf aRequest)
  dryExecution _ aRequest := do c.simTask (← LambdaRequest.ofProtobuf aRequest)

theorem realExecution_states (c : EdgeComputerSim) {n : Nat} {m : Rpc.LambdaRequest}
    {resp : Rpc.LambdaResponse} (h : c.environment.realExecution n m = .ok resp) :
    resp.states = serializeStates (deserializeStates m.states) := by
  obtain ⟨q, hok, htask⟩ := Library.Checks.bind_ok.mp h
  unfold addTask at htask
  split at htask
  · cases htask
  · cases htask
    rw [Lambda.execute, (LambdaRequest.ofProtobuf_fields hok).2.2.2]

end EdgeComputerSim

/-- The functions of the example DAG. -/
def exampleComputer : EdgeComputerSim where
  theName := "computer@host0:6473"
  theContainers := .ofList [("f0", Lambda.mk true ""), ("f1", ⟨true, ""⟩), ("f2", ⟨true, ""⟩)]

def exampleRequest (aUuid : String) (aStates : ExtTreeMap String State) : LambdaRequest where
  theName := "f0"
  theInput := "input"
  theDataIn := ""
  theForward := true
  theHops := 0
  theStates := aStates
  theCallback := "client:6480"
  theChain := none
  theDag := some Model.exampleDag
  theNextFunctionIndex := 0
  theUuid := aUuid

end ServerlessEdge.Computer
