import ServerlessEdge.Computer.EdgeComputer

/-! A client with a chain: it invokes the functions itself, one after another, or
leaves that to the computer, which then responds to a callback. -/
namespace ServerlessEdge.Simulation
open Std (ExtTreeMap)
open Library Maps Checks Messages Model Computer EdgeComputer

structure Client where
  theLastStates : ExtTreeMap String State
  theChain : Chain
  theCallback : String

namespace Client

/-- The states of a request, all of which the client must have. -/
def requestStates (theLastStates : ExtTreeMap String State) (aStates : List String) :
    Except String (ExtTreeMap String State) :=
  aStates.foldlM (fun myStates myState => match theLastStates[myState]? with
    | none => throw "it != theLastStates.end()"
    | some it => return myStates.insertIfNew myState it) ∅

/-- Save the states returned, all of which the client must know. -/
def saveStates (theLastStates aStates : ExtTreeMap String State) :
    Except String (ExtTreeMap String State) :=
  aStates.toList.foldlM (fun theLastStates elem =>
    if elem.1 ∈ theLastStates then return theLastStates.insert elem.1 elem.2
    else throw "it != theLastStates.end()") theLastStates

/-- The request for the whole chain. -/
def singleExecution (c : Client) (aInput aUuid : String) : Except String LambdaRequest := do
  let myName ← c.theChain.entryFunctionName
  let myStates ← requestStates c.theLastStates (c.theChain.theStates.allStates false)
  return {
    theName := myName
    theInput := aInput
    theDataIn := ""
    theForward := false
    theHops := 0
    theStates := myStates
    theCallback := c.theCallback
    theChain := some c.theChain
    theDag := none
    theNextFunctionIndex := 0
    theUuid := aUuid }

/-- The variables of the loop in functionChain(), and the computer that the client
calls; no function has been run at first. -/
structure Loop where
  theLastStates : ExtTreeMap String State
  theSystem : System
  myInput : String
  myDataIn : String
  myResp : Option Rpc.LambdaResponse
  myHops : Nat

/-- The request for one function of the chain. -/
def functionRequest (c : Chain) (aUuid aFunction : String) (l : Loop) : Except String LambdaRequest := do
  let myStates ← requestStates l.theLastStates (c.theStates.states aFunction)
  let myChain ← c.singleFunctionChain aFunction
  return {
    theName := aFunction
    theInput := l.myInput
    theDataIn := l.myDataIn
    theForward := false
    theHops := 0
    theStates := myStates
    theCallback := ""
    theChain := some myChain
    theDag := none
    theNextFunctionIndex := 0
    theUuid := aUuid }

/-- The functions that are left, each request with an identifier of its own. -/
def functionLoop (env : Environment) (c : Chain) (aUuids : Nat → String) :
    List String → Loop → Except String Loop
  | [], l => return l
  | f :: fs, l => do
    let myReq ← functionRequest c (aUuids fs.length) f l
    let (myResp, theSystem) := process env myReq.toProtobuf l.theSystem
    -- return immediately upon failure
    if myResp.retcode ≠ "OK" then return { l with theSystem := theSystem, myResp := some myResp }
    let theLastStates ← saveStates l.theLastStates (deserializeStates myResp.states)
    functionLoop env c aUuids fs {
      theLastStates := theLastStates
      theSystem := theSystem
      myInput := myResp.output
      myDataIn := myResp.dataout
      myResp := some myResp
      myHops := (l.myHops + myResp.hops) % 2 ^ 32 }

/-- The response, the states that the client has then, and what has become of the computer. -/
def functionChain (env : Environment) (c : Client) (aUuids : Nat → String) (aInput : String)
    (aSystem : System) : Except String (Rpc.LambdaResponse × ExtTreeMap String State × System) := do
  let l ← functionLoop env c.theChain aUuids c.theChain.theFunctions
    ⟨c.theLastStates, aSystem, aInput, "", none, 0⟩
  match l.myResp with
  | none => throw "myResp.get() != nullptr"
  | some myResp =>
    let myResp := { myResp with states := serializeStates l.theLastStates }
    if 1 < c.theChain.theFunctions.length then
      return ({ myResp with responder := "", hops := l.myHops }, l.theLastStates, l.theSystem)
    else return (myResp, l.theLastStates, l.theSystem)

private theorem requestStates_spec {last : ExtTreeMap String State} {xs : List String}
    (acc : ExtTreeMap String State) (h : ∀ x ∈ xs, x ∈ last) (hacc : ∀ x, x ∈ acc → acc[x]? = last[x]?) : ∃ m,
      (xs.foldlM (fun myStates myState => match last[myState]? with
        | none => throw "it != theLastStates.end()"
        | some it => return myStates.insertIfNew myState it) acc : Except String _) = .ok m ∧
      ∀ x, m[x]? = if x ∈ xs then last[x]? else acc[x]? := by
  induction xs generalizing acc with
  | nil => exact ⟨acc, rfl, fun x => by simp⟩
  | cons y xs ih =>
    obtain ⟨v, hv⟩ := lookup_of_mem (h y List.mem_cons_self)
    have hlookup (x : String) : (acc.insertIfNew y v)[x]? = if x = y then last[x]? else acc[x]? := by
      rw [lookup_emplace]
      split
      · next hx =>
        subst hx
        cases hy : acc[x]? with
        | none => rw [hv]; rfl
        | some w =>
          have hw := hacc x (mem_of_lookup hy)
          rw [← hw, hy]
          rfl
      · rfl
    obtain ⟨m, hm, hall⟩ := ih (acc.insertIfNew y v)
      (fun x hx => h x (List.mem_cons_of_mem y hx)) fun x hx => by
        rw [hlookup]
        split
        · rfl
        · next hne =>
          refine hacc x ?_
          obtain ⟨w, hw⟩ := lookup_of_mem hx
          rw [hlookup, if_neg hne] at hw
          exact mem_of_lookup hw
    refine ⟨m, ?_, fun x => ?_⟩
    · rw [List.foldlM_cons, hv]
      exact hm
    · rw [hall, hlookup]
      by_cases hx : x = y
      · simp [hx]
      · simp [hx]

theorem requestStates_ok {last : ExtTreeMap String State} {xs : List String}
    (h : ∀ x ∈ xs, x ∈ last) : ∃ m, requestStates last xs = .ok m ∧
      ∀ x : String, m[x]? = if x ∈ xs then last[x]? else none := by
  obtain ⟨m, hm, hall⟩ := requestStates_spec ∅ h fun x hx =>
    absurd hx ExtTreeMap.not_mem_empty
  refine ⟨m, hm, fun x => ?_⟩
  rw [hall, ExtTreeMap.getElem?_empty]

private theorem saveStates_spec (last : ExtTreeMap String State) {xs : List (String × State)}
    (hnodup : (xs.map Prod.fst).Nodup) (h : ∀ e ∈ xs, e.1 ∈ last) : ∃ m,
      (xs.foldlM (fun last e => if e.1 ∈ last then return last.insert e.1 e.2
        else throw "it != theLastStates.end()") last : Except String _) = .ok m ∧
      (∀ x v, (x, v) ∈ xs → m[x]? = some v) ∧ ∀ x, x ∉ xs.map Prod.fst → m[x]? = last[x]? := by
  induction xs generalizing last with
  | nil => exact ⟨last, rfl, fun x v hx => absurd hx List.not_mem_nil, fun x _ => rfl⟩
  | cons e xs ih =>
    rw [List.map_cons, List.nodup_cons] at hnodup
    obtain ⟨m, hm, hin, hout⟩ := ih (last.insert e.1 e.2) hnodup.2 fun e' he' =>
      mem_insert.mpr (.inr (h e' (List.mem_cons_of_mem e he')))
    refine ⟨m, ?_, fun x v hx => ?_, fun x hx => ?_⟩
    · rw [List.foldlM_cons, if_pos (h e List.mem_cons_self)]
      exact hm
    · rcases List.mem_cons.mp hx with rfl | hx
      · rw [hout x hnodup.1, lookup_insert, if_pos rfl]
      · exact hin x v hx
    · rw [List.map_cons, List.mem_cons, not_or] at hx
      rw [hout x hx.2, lookup_insert, if_neg hx.1]

theorem saveStates_ok {last ss : ExtTreeMap String State} (h : ∀ x ∈ ss, x ∈ last) :
    ∃ m, saveStates last ss = .ok m ∧ ∀ x : String, m[x]? = (ss[x]?).or last[x]? := by
  have hnodup : (ss.toList.map Prod.fst).Nodup := by
    rw [ExtTreeMap.map_fst_toList_eq_keys]
    exact ExtTreeMap.nodup_keys
  obtain ⟨m, hm, hin, hout⟩ := saveStates_spec last hnodup fun e he =>
    h e.1 (mem_of_lookup (mem_toList.mp (show (e.1, e.2) ∈ _ from he)))
  refine ⟨m, hm, fun x => ?_⟩
  cases hx : ss[x]? with
  | some v => rw [hin x v (mem_toList.mpr hx), Option.some_or]
  | none =>
    rw [Option.none_or]
    apply hout
    intro hmem
    obtain ⟨⟨y, v⟩, hy, rfl⟩ := List.mem_map.mp hmem
    rw [mem_toList.mp hy] at hx
    cases hx

end Client

end ServerlessEdge.Simulation
