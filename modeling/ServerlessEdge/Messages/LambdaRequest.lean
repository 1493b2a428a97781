import ServerlessEdge.Model.Dag

/-! Requests to execute a function, and their form on the wire. -/
namespace ServerlessEdge
open Std Library Checks

namespace Rpc

structure State where
  name : String := ""
  location : String
  content : String
  deriving DecidableEq

structure Dag where
  successors : List (List Nat) := []
  names : List String := []
  deriving DecidableEq

/-- A message with the default value in every field that is not set. -/
structure LambdaRequest where
  name : String := ""
  input : String := ""
  datain : String := ""
  dry : Bool := false
  forward : Bool := false
  hops : Nat := 0
  states : ExtTreeMap String State := ∅
  callback : String := ""
  chain : List String := []
  dag : Dag := {}
  dependencies : ExtTreeMap String (List String) := ∅
  nextfunctionindex : Nat := 0
  uuid : String := ""
  deriving DecidableEq

/-- The fields that a computer reads or sets; loads and times are left out. -/
structure LambdaResponse where
  retcode : String := ""
  output : String := ""
  responder : String := ""
  dataout : String := ""
  hops : Nat := 0
  states : ExtTreeMap String State := ∅
  asynchronous : Bool := false
  deriving DecidableEq

end Rpc

namespace Messages
open Model

/-- A state of an application, remote if it has a location. -/
structure State where
  theLocation : String
  theContent : String
  deriving DecidableEq

def State.ofProtobuf (aState : Rpc.State) : State := ⟨aState.location, aState.content⟩

def State.toProtobuf (s : State) : Rpc.State := { location := s.theLocation, content := s.theContent }

def deserializeStates (aStates : ExtTreeMap String Rpc.State) : ExtTreeMap String State :=
  aStates.map fun _ s => State.ofProtobuf s

def serializeStates (aStates : ExtTreeMap String State) : ExtTreeMap String Rpc.State :=
  aStates.map fun _ s => s.toProtobuf

structure LambdaRequest where
  theName : String
  theInput : String
  theDataIn : String
  theForward : Bool
  theHops : Nat
  theStates : ExtTreeMap String State
  theCallback : String
  theChain : Option Chain
  theDag : Option Dag
  theNextFunctionIndex : Nat
  theUuid : String
  deriving DecidableEq

namespace LambdaRequest

def toProtobuf (r : LambdaRequest) : Rpc.LambdaRequest where
  name := r.theName
  input := r.theInput
  datain := r.theDataIn
  forward := r.theForward
  hops := r.theHops
  states := serializeStates r.theStates
  callback := r.theCallback
  chain := match r.theChain with
    | none => []
    | some c => c.theFunctions
  dag := match r.theDag with
    | none => {}
    | some d => ⟨d.theSuccessors, d.theFunctionNames⟩
  -- the states of a DAG replace those of a chain
  dependencies := match r.theDag, r.theChain with
    | some d, _ => d.theStates.theDependencies
    | none, some c => c.theStates.theDependencies
    | none, none => ∅
  nextfunctionindex := r.theNextFunctionIndex
  uuid := r.theUuid

/-- The chain of a message, if there is something to rebuild it from. -/
def chainOf (aMsg : Rpc.LambdaRequest) : Except String (Option Chain) :=
  if 0 < aMsg.chain.length then some <$> Chain.new aMsg.chain aMsg.dependencies
  else return none

def dagOf (aMsg : Rpc.LambdaRequest) : Except String (Option Dag) :=
  if 0 < aMsg.dag.successors.length then
    some <$> Dag.new aMsg.dag.successors aMsg.dag.names aMsg.dependencies
  else return none

def ofProtobuf (aMsg : Rpc.LambdaRequest) : Except String LambdaRequest := do
  let myChain ← chainOf aMsg
  let myDag ← dagOf aMsg
  return {
    theName := aMsg.name
    theInput := aMsg.input
    theDataIn := aMsg.datain
    theForward := true
    theHops := aMsg.hops
    theStates := deserializeStates aMsg.states
    theCallback := aMsg.callback
    theChain := myChain
    theDag := myDag
    theNextFunctionIndex := aMsg.nextfunctionindex
    theUuid := aMsg.uuid }

def makeOneMoreHop (r : LambdaRequest) : LambdaRequest :=
  { r with theHops := (r.theHops + 1) % 2 ^ 32 }

/-- The request for another function of the same workflow. -/
def regenerate (r : LambdaRequest) (aName : String) (aNextFunctionIndex : Nat)
    (aResponse : Rpc.LambdaResponse) : LambdaRequest :=
  { r with
    theName := aName
    theInput := aResponse.output
    theDataIn := aResponse.dataout
    theForward := false
    theHops := (r.theHops + 1) % 2 ^ 32
    theStates := deserializeStates aResponse.states
    theNextFunctionIndex := aNextFunctionIndex }

end LambdaRequest

theorem deserializeStates_serializeStates (m : ExtTreeMap String State) :
    deserializeStates (serializeStates m) = m := by
  refine ExtTreeMap.ext_getElem? fun k => ?_
  simp only [deserializeStates, serializeStates, ExtTreeMap.getElem?_map, Option.map_map]
  exact congrFun Option.map_id m[k]?

namespace LambdaRequest

theorem chainOf_ok {m : Rpc.LambdaRequest} {o : Option Chain} : chainOf m = .ok o ↔
    m.chain = [] ∧ o = none ∨
      m.chain ≠ [] ∧ ∃ c, o = some c ∧ c.theFunctions = m.chain ∧ c.theStates = ⟨m.dependencies⟩ := by
  unfold chainOf
  cases hm : m.chain with
  | nil => simp [pure, Except.pure, eq_comm]
  | cons f fs =>
    rw [if_pos (by simp), map_ok]
    simp only [Chain.new_ok, reduceCtorEq, false_and, false_or, ne_eq, not_false_eq_true, true_and,
      eq_comm (a := o), and_comm]

theorem dagOf_ok {m : Rpc.LambdaRequest} {o : Option Dag} : dagOf m = .ok o ↔
    m.dag.successors = [] ∧ o = none ∨
      m.dag.successors ≠ [] ∧ ∃ d, o = some d ∧ d.theSuccessors = m.dag.successors ∧
        d.theFunctionNames = m.dag.names ∧ d.theStates = ⟨m.dependencies⟩ := by
  unfold dagOf
  cases hm : m.dag.successors with
  | nil => simp [pure, Except.pure, eq_comm]
  | cons js jss =>
    rw [if_pos (by simp), map_ok]
    simp only [Dag.new_ok, reduceCtorEq, false_and, false_or, ne_eq, not_false_eq_true, true_and,
      eq_comm (a := o), and_comm]

theorem ofProtobuf_ok {m : Rpc.LambdaRequest} {c : Option Chain} {d : Option Dag}
    (hc : chainOf m = .ok c) (hd : dagOf m = .ok d) : ∃ q, ofProtobuf m = .ok q ∧
      q.theChain = c ∧ q.theDag = d ∧ q.theCallback = m.callback ∧ q.theUuid = m.uuid := by
  unfold ofProtobuf
  rw [hc, hd]
  exact ⟨_, rfl, rfl, rfl, rfl, rfl⟩

theorem ofProtobuf_fields {m : Rpc.LambdaRequest} {q : LambdaRequest} (h : ofProtobuf m = .ok q) :
    q.theName = m.name ∧ q.theInput = m.input ∧ q.theDataIn = m.datain ∧
      q.theStates = deserializeStates m.states := by
  unfold ofProtobuf at h
  obtain ⟨c, -, h⟩ := bind_ok.mp h
  obtain ⟨d, -, h⟩ := bind_ok.mp h
  cases h
  exact ⟨rfl, rfl, rfl, rfl⟩

/-- All other fields survive by themselves. -/
theorem ofProtobuf_toProtobuf {r : LambdaRequest} :
    ofProtobuf r.toProtobuf = .ok { r with theForward := true } ↔
      chainOf r.toProtobuf = .ok r.theChain ∧ dagOf r.toProtobuf = .ok r.theDag := by
  have hstates : deserializeStates r.toProtobuf.states = r.theStates :=
    deserializeStates_serializeStates r.theStates
  unfold ofProtobuf
  rw [bind_ok]
  constructor
  · rintro ⟨c, hc, hrest⟩
    obtain ⟨d, hd, hr⟩ := bind_ok.mp hrest
    have heq := Except.ok.inj hr
    have hchain : c = r.theChain := congrArg LambdaRequest.theChain heq
    have hdag : d = r.theDag := congrArg LambdaRequest.theDag heq
    exact ⟨hchain ▸ hc, hdag ▸ hd⟩
  · rintro ⟨hc, hd⟩
    refine ⟨_, hc, bind_ok.mpr ⟨_, hd, ?_⟩⟩
    rw [hstates]
    rfl

/-- What survives the wire: a workflow that is there has something to be rebuilt
from, and a chain next to a DAG has the same dependencies. -/
structure Portable (r : LambdaRequest) : Prop where
  chain : ∀ c, r.theChain = some c → c.theFunctions ≠ []
  dag : ∀ d, r.theDag = some d → d.theSuccessors ≠ []
  both : ∀ c d, r.theChain = some c → r.theDag = some d → c.theStates = d.theStates

/-- A request is received as it was sent, but for the forward flag, just when it
is portable. -/
theorem received_iff_portable (r : LambdaRequest) :
    ofProtobuf r.toProtobuf = .ok { r with theForward := true } ↔ r.Portable := by
  rw [ofProtobuf_toProtobuf, chainOf_ok, dagOf_ok]
  obtain ⟨name, input, datain, forward, hops, states, callback, chain, dag, index, uuid⟩ := r
  constructor
  · rintro ⟨hchain, hdag⟩
    refine ⟨fun c hc => ?_, fun d hd => ?_, fun c d hc hd => ?_⟩
    · subst hc
      rcases hchain with ⟨-, hnone⟩ | ⟨hne, -⟩
      · cases hnone
      · exact hne
    · subst hd
      rcases hdag with ⟨-, hnone⟩ | ⟨hne, -⟩
      · cases hnone
      · exact hne
    · subst hc hd
      rcases hchain with ⟨-, hnone⟩ | ⟨-, c', hc', -, hs⟩
      · cases hnone
      · cases hc'
        exact hs
  · rintro ⟨hchain, hdag, hboth⟩
    constructor
    · cases chain with
      | none => exact .inl ⟨rfl, rfl⟩
      | some c =>
        refine .inr ⟨hchain c rfl, c, rfl, rfl, ?_⟩
        cases dag with
        | none => rfl
        | some d => exact hboth c d rfl rfl
    · cases dag with
      | none => exact .inl ⟨rfl, rfl⟩
      | some d => exact .inr ⟨hdag d rfl, d, rfl, rfl, rfl, rfl⟩

/-- A DAG of a single function, as the client sends it. -/
def singleFunction : LambdaRequest where
  theName := "f0"
  theInput := ""
  theDataIn := ""
  theForward := false
  theHops := 0
  theStates := ∅
  theCallback := ""
  theChain := none
  theDag := some ⟨[], [], ["f0"], ⟨∅⟩, makePredecessors_nil, single_sized "f0", by simp [Known]⟩
  theNextFunctionIndex := 0
  theUuid := "uuid"

/-- Its DAG is lost on the way. -/
theorem single_function_lost : ¬ ∀ r : LambdaRequest,
    ofProtobuf r.toProtobuf = .ok { r with theForward := true } := by
  intro h
  have hdag : dagOf singleFunction.toProtobuf = .ok none := rfl
  have hsame := (ofProtobuf_toProtobuf.mp (h singleFunction)).2
  rw [hdag] at hsame
  cases hsame

end LambdaRequest
end Messages
end ServerlessEdge
