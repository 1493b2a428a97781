import ServerlessEdge.Model.Chain
import Mathlib.Logic.Relation
import Mathlib.Algebra.GroupWithZero.Nat

/-! Workflows of functions, each invoked after all its predecessors. -/
namespace ServerlessEdge.Model
open Std Library Checks

/-- One edge of the graph: j gets i as a predecessor. Function 0 has none. -/
def addPredecessor (i : Nat) (ret : List (List Nat)) (j : Nat) : Except String (List (List Nat)) :=
  if j = 0 ∨ ret.length ≤ j - 1 then throw "Invalid successor graph"
  else pure (ret.modify (j - 1) (· ++ [i]))

/-- The predecessors of function i + 1 at index i. -/
def makePredecessors (aSuccessors : List (List Nat)) : Except String (List (List Nat)) :=
  aSuccessors.zipIdx.foldlM (fun ret x => x.1.foldlM (addPredecessor x.2) ret)
    (List.replicate aSuccessors.length [])

/-- A workflow of function invocations: the i-th entry of theSuccessors has the
indices of those that follow function i, and the last function has no entry. -/
structure Dag where
  theSuccessors : List (List Nat)
  thePredecessors : List (List Nat)
  theFunctionNames : List String
  theStates : States
  built : makePredecessors theSuccessors = .ok thePredecessors
  sized : theSuccessors.length + 1 = theFunctionNames.length
  known : Known theFunctionNames theStates.theDependencies

/-- The index of the last function as the constructor prints it; it is an
unsigned difference, so that with no functions it is a huge number. -/
def lastIndex (aFunctionNames : List String) : Nat :=
  (aFunctionNames.length + (2 ^ 64 - 1)) % 2 ^ 64

def Dag.new (aSuccessors : List (List Nat)) (aFunctionNames : List String)
    (aDependencies : Dependencies) : Except String Dag :=
  match hp : makePredecessors aSuccessors with
  | .error err => .error err
  | .ok ps =>
    if hs : aSuccessors.length + 1 = aFunctionNames.length then
      match hk : checkDependencies aFunctionNames aDependencies with
      | .error err => .error err
      | .ok () => .ok ⟨aSuccessors, ps, aFunctionNames, ⟨aDependencies⟩, hp, hs,
          known_of_check hk⟩
    else .error ("Invalid size of successors and function names: " ++
      toString aSuccessors.length ++ " vs " ++ toString (lastIndex aFunctionNames))

theorem Dag.ext_new {d d' : Dag} (hs : d.theSuccessors = d'.theSuccessors)
    (hn : d.theFunctionNames = d'.theFunctionNames) (hd : d.theStates = d'.theStates) : d = d' := by
  have hp := d.built
  rw [hs, d'.built] at hp
  cases d
  cases d'
  simp only [Except.ok.injEq] at hp hs hn hd
  subst hp hs hn hd
  rfl

theorem Dag.eq_iff {d d' : Dag} : (d.theSuccessors = d'.theSuccessors ∧
    d.theFunctionNames = d'.theFunctionNames ∧ d.theStates = d'.theStates) ↔ d = d' := by
  constructor
  · rintro ⟨hs, hn, hd⟩
    exact Dag.ext_new hs hn hd
  · rintro rfl
    exact ⟨rfl, rfl, rfl⟩

instance : DecidableEq Dag := fun _ _ => decidable_of_iff _ Dag.eq_iff

/-- A workflow of one function has no successors, and no predecessors. -/
theorem makePredecessors_nil : makePredecessors [] = .ok [] := rfl

theorem single_sized (f : String) : ([] : List (List Nat)).length + 1 = [f].length := rfl

theorem Dag.new_ok {ss : List (List Nat)} {ns : List String} {ds : Dependencies} {d : Dag} :
    Dag.new ss ns ds = .ok d ↔
      d.theSuccessors = ss ∧ d.theFunctionNames = ns ∧ d.theStates = ⟨ds⟩ := by
  constructor
  · intro h
    unfold Dag.new at h
    split at h
    · cases h
    split at h
    · split at h
      · cases h
      · cases h
        exact ⟨rfl, rfl, rfl⟩
    · cases h
  · rintro ⟨rfl, rfl, hs⟩
    have hds : ds = d.theStates.theDependencies := by rw [hs]
    subst hds
    unfold Dag.new
    split
    · next err h =>
      rw [d.built] at h
      cases h
    rw [dif_pos d.sized]
    split
    · next err h =>
      rw [checkDependencies_ok.mpr d.known] at h
      cases h
    · exact congrArg Except.ok (Dag.ext_new rfl rfl rfl)

private theorem addPredecessor_ok {i j : Nat} {ret ret' : List (List Nat)}
    (h : addPredecessor i ret j = .ok ret') :
    (1 ≤ j ∧ j ≤ ret.length) ∧ ret'.length = ret.length := by
  unfold addPredecessor at h
  split at h
  · cases h
  · cases h
    rw [List.length_modify]
    omega

/-- What is known of a workflow whose predecessors could be found. -/
theorem Dag.built_spec (d : Dag) : (∀ js ∈ d.theSuccessors, ∀ j ∈ js, 1 ≤ j ∧ j ≤ d.theSuccessors.length) ∧
    d.thePredecessors.length = d.theSuccessors.length := by
  let n := d.theSuccessors.length
  have hrow (ret : List (List Nat)) (x : List Nat × Nat) (ret' : List (List Nat))
      (hret : ret.length = n) (hx : x.1.foldlM (addPredecessor x.2) ret = .ok ret') :
      (∀ j ∈ x.1, 1 ≤ j ∧ j ≤ n) ∧ ret'.length = n := by
    refine foldlM_ok (I := fun ret => ret.length = n) (P := fun j => 1 ≤ j ∧ j ≤ n)
      (fun ret j ret' hret hj => ?_) hret hx
    obtain ⟨hrange, hlen⟩ := addPredecessor_ok hj
    omega
  obtain ⟨hall, hlength⟩ := foldlM_ok (I := fun ret => ret.length = n)
    (P := fun x : List Nat × Nat => ∀ j ∈ x.1, 1 ≤ j ∧ j ≤ n) hrow (List.length_replicate ..) d.built
  refine ⟨fun js hjs => ?_, hlength⟩
  obtain ⟨i, hi, rfl⟩ := List.getElem_of_mem hjs
  exact hall (_, i) (List.mk_mem_zipIdx_iff_getElem?.mpr (List.getElem?_eq_getElem hi))

/-- A successor is a function of the workflow other than the entry one. -/
theorem Dag.successor_range (d : Dag) {js : List Nat} (hjs : js ∈ d.theSuccessors) {j : Nat}
    (hj : j ∈ js) : 1 ≤ j ∧ j ≤ d.theSuccessors.length :=
  d.built_spec.1 js hjs j hj

/-- Function j is invoked after function i. -/
def Dag.Follows (d : Dag) (i j : Nat) : Prop := j ∈ d.theSuccessors.getD i []

instance (d : Dag) (i j : Nat) : Decidable (d.Follows i j) :=
  inferInstanceAs (Decidable (j ∈ d.theSuccessors.getD i []))

/-- Function j can be reached from function i. -/
def Dag.Leads (d : Dag) : Nat → Nat → Prop := Relation.ReflTransGen d.Follows

/-- A function with more than one incoming edge. -/
def Dag.Join (d : Dag) (v : Nat) : Prop := 2 ≤ (d.theSuccessors.map fun js => js.count v).sum

/-- A workflow that can be executed up to the last function: all that can be
reached waits only for functions that can be reached, and is on no cycle. -/
structure Dag.Complete (d : Dag) : Prop where
  several : d.theSuccessors ≠ []
  last : d.Leads 0 d.theSuccessors.length
  closed : ∀ i j, d.Follows i j → d.Leads 0 j → d.Leads 0 i
  acyclic : ∀ j, d.Leads 0 j → ¬ Relation.TransGen d.Follows j j

/-- Two branches between an entry function and a last one. -/
def exampleDag : Dag where
  theSuccessors := [[1, 2], [3], [3]]
  thePredecessors := [[0], [0], [1, 2]]
  theFunctionNames := ["f0", "f1", "f2", "f2"]
  theStates := ⟨.ofList [("s0", ["f0"]), ("s1", ["f0", "f1"]), ("s2", ["f2"]), ("s3", [])]⟩
  built := rfl
  sized := rfl
  known := checkDependencies_ok.mp (by decide +kernel)

theorem exampleDag_follows {i j : Nat} (h : exampleDag.Follows i j) :
    (i, j) ∈ [(0, 1), (0, 2), (1, 3), (2, 3)] := by
  match i with
  | 0 | 1 | 2 => simpa [Dag.Follows, exampleDag] using h
  | i + 3 => simp [Dag.Follows, exampleDag] at h

theorem exampleDag_lt {i j : Nat} (h : Relation.TransGen exampleDag.Follows i j) : i < j := by
  induction h with
  | single he =>
    have hmem := exampleDag_follows he
    simp at hmem
    omega
  | tail _ he ih =>
    have hmem := exampleDag_follows he
    simp at hmem
    omega

theorem exampleDag_leads {v : Nat} (h : v < 4) : exampleDag.Leads 0 v := by
  have hone : exampleDag.Leads 0 1 := .single (by decide)
  have htwo : exampleDag.Leads 0 2 := .single (by decide)
  match v with
  | 0 => exact .refl
  | 1 => exact hone
  | 2 => exact htwo
  | 3 => exact hone.tail (by decide)

/-- Any order in which the branches are executed will do. -/
theorem exampleDag_complete : exampleDag.Complete := by
  refine ⟨by decide, exampleDag_leads (by decide), fun i j hij _ => ?_, fun j _ hcycle => ?_⟩
  · have hmem := exampleDag_follows hij
    apply exampleDag_leads
    simp at hmem
    omega
  · exact Nat.lt_irrefl j (exampleDag_lt hcycle)

end ServerlessEdge.Model
