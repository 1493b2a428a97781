import ServerlessEdge.Library.Checks
import ServerlessEdge.Library.Maps

/-! Chains of functions, and the dependencies of functions on states. -/
namespace ServerlessEdge.Model
open Std Library Maps Checks

/-- State name to the names of the functions that depend on the state. -/
abbrev Dependencies := ExtTreeMap String (List String)

instance decidableEqDependencies : DecidableEq Dependencies := inferInstance

structure States where
  theDependencies : Dependencies
  deriving DecidableEq

/-- The dependencies of a given function. -/
def States.dependencies (s : States) (aFunction : String) : Dependencies :=
  s.theDependencies.filterMap fun _ fs => if aFunction ∈ fs then some [aFunction] else none

/-- The states that a given function depends on. -/
def States.states (s : States) (aFunction : String) : List String :=
  (s.theDependencies.toList.filter fun x => aFunction ∈ x.2).map Prod.fst

/-- All states, those that no function depends on included or not. -/
def States.allStates (s : States) (aIncludeFreeStates : Bool) : List String :=
  (s.theDependencies.toList.filter fun x => aIncludeFreeStates || x.2 ≠ []).map Prod.fst

theorem States.mem_states {s : States} {f x : String} :
    x ∈ s.states f ↔ f ∈ s.theDependencies.getD x [] := by
  simp only [States.states, List.mem_map, List.mem_filter, Prod.exists, exists_and_right,
    exists_eq_right, mem_toList, decide_eq_true_eq, ExtTreeMap.getD_eq_getD_getElem?]
  cases s.theDependencies[x]? with
  | none => simp
  | some fs => simp

theorem States.mem_allStates {s : States} {x : String} :
    x ∈ s.allStates false ↔ s.theDependencies.getD x [] ≠ [] := by
  simp only [States.allStates, List.mem_map, List.mem_filter, Prod.exists, exists_and_right,
    exists_eq_right, mem_toList, Bool.false_or, decide_eq_true_eq, ExtTreeMap.getD_eq_getD_getElem?]
  cases s.theDependencies[x]? with
  | none => simp
  | some fs => simp

theorem States.mem_dependencies {s : States} {f x : String} :
    f ∈ (s.dependencies f).getD x [] ↔ f ∈ s.theDependencies.getD x [] := by
  simp only [States.dependencies, ExtTreeMap.getD_eq_getD_getElem?, ExtTreeMap.getElem?_filterMap']
  cases s.theDependencies[x]? with
  | none => simp
  | some fs => by_cases hf : f ∈ fs <;> simp [hf]

/-- No state depends on a function that is not there. -/
def Known (aFunctions : List String) (aDependencies : Dependencies) : Prop :=
  ∀ x ∈ aDependencies.toList, ∀ f ∈ x.2, f ∈ aFunctions

theorem States.dependencies_known (s : States) (f : String) : Known [f] (s.dependencies f) := by
  intro x hx g hg
  have hsome := mem_toList.mp (show (x.1, x.2) ∈ _ from hx)
  rw [States.dependencies, ExtTreeMap.getElem?_filterMap', Option.bind_eq_some_iff] at hsome
  obtain ⟨fs, -, hfs⟩ := hsome
  split at hfs
  · rw [← Option.some.inj hfs] at hg
    exact hg
  · cases hfs

/-- The check that the constructors of chains and DAGs have in common. -/
def checkDependencies (aFunctions : List String) (aDependencies : Dependencies) :
    Except String Unit :=
  aDependencies.toList.forM fun x => x.2.forM fun f =>
    if f ∈ aFunctions then pure ()
    else throw ("could not find the following function that state '" ++ x.1 ++
      "' depends on: " ++ f)

theorem checkDependencies_ok {fs : List String} {ds : Dependencies} :
    checkDependencies fs ds = .ok () ↔ Known fs ds := by
  have hone (x : String × List String) (f : String) : (if f ∈ fs then pure ()
      else throw ("could not find the following function that state '" ++ x.1 ++
        "' depends on: " ++ f) : Except String Unit) = .ok () ↔ f ∈ fs := by
    split
    · exact iff_of_true rfl ‹_›
    · exact iff_of_false (fun h => by cases h) ‹_›
  simp only [checkDependencies, forM_ok, hone, Known]

theorem known_of_check {fs : List String} {ds : Dependencies}
    (h : checkDependencies fs ds = .ok ()) : Known fs (States.mk ds).theDependencies :=
  checkDependencies_ok.mp h

/-- A chain of function invocations. -/
structure Chain where
  theFunctions : List String
  theStates : States
  known : Known theFunctions theStates.theDependencies
  deriving DecidableEq

/-- The constructor; it throws if a state depends on a function out of the chain. -/
def Chain.new (aFunctions : List String) (aDependencies : Dependencies) : Except String Chain :=
  match h : checkDependencies aFunctions aDependencies with
  | .error err => .error err
  | .ok () => .ok ⟨aFunctions, ⟨aDependencies⟩, known_of_check h⟩

theorem Chain.new_ok {fs : List String} {ds : Dependencies} {c : Chain} :
    Chain.new fs ds = .ok c ↔ c.theFunctions = fs ∧ c.theStates = ⟨ds⟩ := by
  constructor
  · intro h
    unfold Chain.new at h
    split at h
    · cases h
    · cases h
      exact ⟨rfl, rfl⟩
  · rintro ⟨rfl, hs⟩
    have hds : ds = c.theStates.theDependencies := by rw [hs]
    subst hds
    unfold Chain.new
    split
    · next err h =>
      rw [checkDependencies_ok.mpr c.known] at h
      cases h
    · rfl

def Chain.entryFunctionName (c : Chain) : Except String String :=
  match c.theFunctions with
  | [] => throw "Empty chain"
  | f :: _ => return f

/-- The chain with only one function. -/
def Chain.singleFunctionChain (c : Chain) (aFunction : String) : Except String Chain :=
  Chain.new [aFunction] (c.theStates.dependencies aFunction)

theorem Chain.singleFunctionChain_ok (c : Chain) (f : String) : ∃ c',
    c.singleFunctionChain f = .ok c' ∧ c'.theFunctions = [f] ∧
      c'.theStates = ⟨c.theStates.dependencies f⟩ := by
  exact ⟨⟨[f], ⟨c.theStates.dependencies f⟩, c.theStates.dependencies_known f⟩,
    Chain.new_ok.mpr ⟨rfl, rfl⟩, rfl, rfl⟩

end ServerlessEdge.Model
