import ServerlessEdge.Library.Json
import ServerlessEdge.Model.Dag

/-! States, chains and workflows as JSON texts. -/
namespace ServerlessEdge.Model
open Std Library Maps Checks Json

/-- The dependencies as a JSON value; a state that no function depends on is never assigned. -/
def dependenciesJson (aDependencies : Dependencies) : Except String Json :=
  aDependencies.toList.foldlM (fun myDependencies elem => do
    let myList ← elem.2.foldlM (fun myList myFunction => myList.pushBack (.string myFunction)) .null
    myDependencies.assign elem.1 myList) .null

/-- The value written by toJson(). -/
def States.json (s : States) : Except String Json := do
  Json.null.assign "dependencies" (← dependenciesJson s.theDependencies)

def Chain.json (c : Chain) : Except String Json := do
  let myFunctions ← c.theFunctions.foldlM (fun j elem => j.pushBack (.string elem)) .null
  let ret ← Json.null.assign "functions" myFunctions
  ret.assign "dependencies" (← dependenciesJson c.theStates.theDependencies)

def Dag.json (d : Dag) : Except String Json := do
  let mySuccessors ← d.theSuccessors.foldlM (fun j elem => do
    let back ← elem.foldlM (fun back inner => back.pushBack (.number inner)) (.array [])
    j.pushBack back) .null
  let ret ← Json.null.assign "successors" mySuccessors
  let myFunctionNames ← d.theFunctionNames.foldlM (fun j elem => j.pushBack (.string elem)) .null
  let ret ← ret.assign "functionNames" myFunctionNames
  ret.assign "dependencies" (← dependenciesJson d.theStates.theDependencies)

section Texts

variable (parse : String → Except String Json) (dump : Json → String)

def States.toJson (s : States) : Except String String := dump <$> s.json

def Chain.toJson (c : Chain) : Except String String := dump <$> c.json

def Dag.toJson (d : Dag) : Except String String := dump <$> d.json

def States.fromJson (aJson : String) : Except String States := do
  let myJson ← parse aJson
  match myJson.find "dependencies" with
  | none => throw "Invalid JSON content for state dependencies"
  | some myDependencies =>
    let ds ← myDependencies.items.foldlM (fun ds elem => match elem.2 with
      | .null => return ds.insertIfNew elem.1 []
      | value => return ds.insertIfNew elem.1 (← value.toVector Json.toString)) ∅
    return ⟨ds⟩

def Chain.fromJson (aJson : String) : Except String Chain := do
  let myJson ← parse aJson
  match myJson.find "functions" with
  | none => throw "Invalid JSON content for a chain"
  | some myFunctions =>
    let fs ← myFunctions.toVector Json.toString
    let myStates ← States.fromJson parse aJson
    Chain.new fs myStates.theDependencies

def Dag.fromJson (aJson : String) : Except String Dag := do
  let myJson ← parse aJson
  match myJson.find "successors", myJson.find "functionNames" with
  | some mySuccessors, some myFunctionNames =>
    let ss ← mySuccessors.elements.mapM (Json.toVector Json.toNumber)
    let ns ← myFunctionNames.toVector Json.toString
    let myStates ← States.fromJson parse aJson
    Dag.new ss ns myStates.theDependencies
  | _, _ => throw "Invalid JSON content for a DAG"

end Texts

/-- The functions that depend on a state, as a JSON value. -/
def functionsJson (fs : List String) : Json := ofElements (fs.map Json.string)

theorem dependenciesJson_ok (ds : Dependencies) : dependenciesJson ds =
    .ok (ofItems (ds.toList.map fun x => (x.1, functionsJson x.2))) := by
  have hsorted : ds.toList.Pairwise fun a b => compare a.1 b.1 = .lt :=
    ExtTreeMap.ordered_keys_toList
  unfold dependenciesJson
  simp only [pushBack_all, ok_bind]
  exact assign_all functionsJson hsorted

theorem States.json_ok (s : States) : s.json = .ok (.object [("dependencies",
    ofItems (s.theDependencies.toList.map fun x => (x.1, functionsJson x.2)))]) := by
  rw [States.json, dependenciesJson_ok]
  rfl

theorem Chain.json_ok (c : Chain) : c.json = .ok (.object [
    ("dependencies", ofItems (c.theStates.theDependencies.toList.map fun x => (x.1, functionsJson x.2))),
    ("functions", functionsJson c.theFunctions)]) := by
  have hlt : compare "dependencies" "functions" = .lt := by decide
  unfold Chain.json
  simp only [pushBack_all, dependenciesJson_ok, ok_bind]
  rw [assign_null, ok_bind, assign_first hlt]
  rfl

theorem Dag.json_ok (d : Dag) : d.json = .ok (.object [
    ("dependencies", ofItems (d.theStates.theDependencies.toList.map fun x => (x.1, functionsJson x.2))),
    ("functionNames", functionsJson d.theFunctionNames),
    ("successors", ofElements (d.theSuccessors.map fun js => .array (js.map Json.number)))]) := by
  have hnames : compare "functionNames" "successors" = .lt := by decide
  have hdependencies : compare "dependencies" "functionNames" = .lt := by decide
  unfold Dag.json
  simp only [pushBack_all, pushBack_all_array, dependenciesJson_ok, ok_bind]
  rw [assign_null, ok_bind, assign_first hnames, ok_bind, assign_first hdependencies]
  rfl

section RoundTrip

variable {parse : String → Except String Json} {dump : Json → String}

private theorem foldlM_emplace (xs : List (String × List String)) (acc : Dependencies) :
    (xs.map fun x => (x.1, functionsJson x.2)).foldlM (fun ds elem => match elem.2 with
      | .null => return ds.insertIfNew elem.1 []
      | value => return ds.insertIfNew elem.1 (← value.toVector Json.toString)) acc =
    (.ok (xs.foldl (fun ds x => ds.insertIfNew x.1 x.2) acc) : Except String Dependencies) := by
  induction xs generalizing acc with
  | nil => rfl
  | cons x xs ih =>
    rw [List.map_cons, List.foldlM_cons, List.foldl_cons, ← ih]
    obtain ⟨s, fs⟩ := x
    cases fs with
    | nil => rfl
    | cons f fs =>
      have hvector : (functionsJson (f :: fs)).toVector Json.toString = .ok (f :: fs) :=
        mapM_convert (f := Json.string) (fun _ => rfl) (f :: fs)
      exact congrArg (· >>= _) (congrArg (· >>= fun v => pure (acc.insertIfNew s v)) hvector)

/-- Every state comes back, with null for the functions that there are none of. -/
theorem States.fromJson_ok {aJson : String} {j : Json} (hparse : parse aJson = .ok j) (ds : Dependencies)
    (hfind : j.find "dependencies" = some (ofItems (ds.toList.map fun x => (x.1, functionsJson x.2)))) :
    States.fromJson parse aJson = .ok ⟨ds⟩ := by
  unfold States.fromJson
  simp only [hparse, ok_bind, hfind, items_ofItems]
  have hloop := foldlM_emplace ds.toList ∅
  rw [foldl_insertIfNew] at hloop
  exact congrArg (· >>= fun ds => pure (⟨ds⟩ : States)) hloop

theorem toVector_functionsJson (fs : List String) : (functionsJson fs).toVector Json.toString =
    if fs = [] then .error "type must be array, but is null" else .ok fs :=
  toVector_ofElements (f := Json.string) (fun _ => rfl) fs

/-- A chain without functions has null for them, which is not an array. -/
theorem Chain.fromJson_iff {c : Chain} {aJson : String} {j : Json} (hjson : c.json = .ok j)
    (hj : parse aJson = .ok j) : Chain.fromJson parse aJson = .ok c ↔ c.theFunctions ≠ [] := by
  rw [c.json_ok] at hjson
  cases hjson
  have hstates := States.fromJson_ok hj c.theStates.theDependencies rfl
  have hfind : Json.find "functions" (.object [
      ("dependencies",
        ofItems (c.theStates.theDependencies.toList.map fun x => (x.1, functionsJson x.2))),
      ("functions", functionsJson c.theFunctions)]) = some (functionsJson c.theFunctions) := rfl
  unfold Chain.fromJson
  simp only [hj, ok_bind, hfind, toVector_functionsJson, hstates]
  by_cases hempty : c.theFunctions = []
  · rw [if_pos hempty]
    exact iff_of_false nofun (not_not.mpr hempty)
  · rw [if_neg hempty, ok_bind]
    exact iff_of_true (Chain.new_ok.mpr ⟨rfl, rfl⟩) hempty

theorem Dag.fromJson_ok {d : Dag} {aJson : String} {j : Json} (hjson : d.json = .ok j)
    (hj : parse aJson = .ok j) : Dag.fromJson parse aJson = .ok d := by
  rw [d.json_ok] at hjson
  cases hjson
  have hstates := States.fromJson_ok hj d.theStates.theDependencies rfl
  have hsuccessors : Json.find "successors" (.object [
      ("dependencies",
        ofItems (d.theStates.theDependencies.toList.map fun x => (x.1, functionsJson x.2))),
      ("functionNames", functionsJson d.theFunctionNames),
      ("successors", ofElements (d.theSuccessors.map fun js => .array (js.map Json.number)))]) =
      some (ofElements (d.theSuccessors.map fun js => .array (js.map Json.number))) := rfl
  have hnames : Json.find "functionNames" (.object [
      ("dependencies",
        ofItems (d.theStates.theDependencies.toList.map fun x => (x.1, functionsJson x.2))),
      ("functionNames", functionsJson d.theFunctionNames),
      ("successors", ofElements (d.theSuccessors.map fun js => .array (js.map Json.number)))]) =
      some (functionsJson d.theFunctionNames) := rfl
  have hrow (js : List ℕ) : Json.toVector Json.toNumber (.array (js.map Json.number)) = .ok js :=
    mapM_convert (f := Json.number) (fun _ => rfl) js
  -- there is at least one name, as there is one more than lists of successors
  have hnonempty : d.theFunctionNames ≠ [] := by
    intro hempty
    have hsized := d.sized
    rw [hempty] at hsized
    cases hsized
  unfold Dag.fromJson
  simp only [hj, ok_bind, hsuccessors, hnames, elements_ofElements, toVector_functionsJson,
    if_neg hnonempty, hstates]
  rw [mapM_convert hrow, ok_bind]
  exact Dag.new_ok.mpr ⟨rfl, rfl, rfl⟩

end RoundTrip

/-- The objects that have a JSON text. -/
inductive Object where
  | dag (d : Dag)
  | chain (c : Chain)
  | states (s : States)

namespace Object

def json : Object → Except String Json
  | dag d => d.json
  | chain c => c.json
  | states s => s.json

/-- The text of an object is read again as one of its class. -/
def roundTrip (parse : String → Except String Json) (dump : Json → String) : Object → Except String Object
  | dag d => dag <$> (d.toJson dump >>= Dag.fromJson parse)
  | chain c => chain <$> (c.toJson dump >>= Chain.fromJson parse)
  | states s => states <$> (s.toJson dump >>= States.fromJson parse)

/-- A chain that has no functions. -/
def EmptyChain : Object → Prop
  | chain c => c.theFunctions = []
  | _ => False

/-- All objects come back from their texts but the chains without functions. -/
theorem roundTrip_iff (parse : String → Except String Json) (dump : Json → String) (x : Object)
    (hparse : ∀ j, x.json = .ok j → parse (dump j) = .ok j) :
    x.roundTrip parse dump = .ok x ↔ ¬ x.EmptyChain := by
  cases x with
  | dag d =>
    have hback := Dag.fromJson_ok d.json_ok (hparse _ d.json_ok)
    refine iff_of_true ?_ not_false
    rw [roundTrip, Dag.toJson, d.json_ok]
    exact congrArg (dag <$> ·) hback
  | chain c =>
    have hback := Chain.fromJson_iff c.json_ok (hparse _ c.json_ok)
    rw [roundTrip, Chain.toJson, c.json_ok, map_ok]
    refine Iff.trans ⟨?_, fun h => ⟨c, h, rfl⟩⟩ hback
    rintro ⟨c', hc', heq⟩
    cases heq
    exact hc'
  | states s =>
    have hback := States.fromJson_ok (hparse _ s.json_ok) s.theDependencies rfl
    refine iff_of_true ?_ not_false
    rw [roundTrip, States.toJson, s.json_ok]
    exact congrArg (states <$> ·) hback

/-- A workflow without edges, and with a state that nothing depends on. -/
def loneDag : Dag where
  theSuccessors := []
  thePredecessors := []
  theFunctionNames := ["f0"]
  theStates := ⟨.ofList [("s0", [])]⟩
  built := makePredecessors_nil
  sized := single_sized "f0"
  known := checkDependencies_ok.mp (by decide +kernel)

def loneText : String := "\x7b\n  \"dependencies\": \x7b\n    \"s0\": null\n  \x7d,\n" ++
  "  \"functionNames\": [\n    \"f0\"\n  ],\n  \"successors\": null\n\x7d"

def loneParse (aJson : String) : Except String Json :=
  if aJson = loneText then return .object [
    ("dependencies", .object [("s0", .null)]),
    ("functionNames", .array [.string "f0"]),
    ("successors", .null)]
  else throw "parse error"

theorem roundTrip_iff_lone : (dag loneDag).roundTrip loneParse (fun _ => loneText) =
    .ok (dag loneDag) ↔ ¬ (dag loneDag).EmptyChain := by
  refine roundTrip_iff loneParse (fun _ => loneText) (dag loneDag) fun j hj => ?_
  have hlist : loneDag.theStates.theDependencies.toList = [("s0", [])] := by decide +kernel
  have hjson := loneDag.json_ok
  rw [hlist] at hjson
  obtain rfl := Except.ok.inj (hjson.symm.trans hj)
  exact if_pos rfl

def emptyChain : Chain := ⟨[], ⟨∅⟩, checkDependencies_ok.mp (by decide +kernel)⟩

def emptyText : String := "\x7b\n  \"dependencies\": null,\n  \"functions\": null\n\x7d"

def emptyParse (aJson : String) : Except String Json :=
  if aJson = emptyText then return .object [("dependencies", .null), ("functions", .null)]
  else throw "parse error"

theorem empty_chain_lost : ¬ ∀ (parse : String → Except String Json) (dump : Json → String)
    (x : Object), (∀ j, x.json = .ok j → parse (dump j) = .ok j) → x.roundTrip parse dump = .ok x := by
  intro h
  have hlist : emptyChain.theStates.theDependencies.toList = [] := by decide +kernel
  have hback := h emptyParse (fun _ => emptyText) (chain emptyChain) fun j hj => by
    have hjson := emptyChain.json_ok
    rw [hlist] at hjson
    obtain rfl := Except.ok.inj (hjson.symm.trans hj)
    exact if_pos rfl
  rw [roundTrip, Chain.toJson, emptyChain.json_ok] at hback
  cases hback

end Object

end ServerlessEdge.Model
