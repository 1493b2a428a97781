import Mathlib.Data.List.Sort
import ServerlessEdge.Library.Runs
import ServerlessEdge.Controller.Serving

/-! The controller that keeps a default edge computer for each lambda in an ETSI
UE application LCM proxy, and from time to time spreads the clients with an
active context over the computers. -/
namespace ServerlessEdge.Controller
open Std Library Maps Groups Triple EdgeController

/-- The default computer of a lambda and all those serving it. -/
structure Desc where
  theDefault : String
  theComputers : ExtTreeSet String

def Desc.new (aComputer : String) : Desc := ⟨aComputer, (∅ : ExtTreeSet String).insert aComputer⟩

abbrev DescMap := ExtTreeMap String Desc

/-- Edge client address, lambda function name, edge computer end-point. -/
abbrev Table := List (String × String × String)

/-- What the LCM proxy is asked for. -/
inductive LcmCommand where
  | addLambda (aLambda : String)
  | delLambda (aLambda : String)
  | associateAddress (aClient aLambda aEndpoint : String)
  | removeAddress (aClient aLambda : String)
  deriving DecidableEq, Repr

/-- Of the proxy the commands sent to it are kept, the latest one at the end. -/
structure EdgeControllerEtsiBalanced where
  theDesc : DescMap
  theComputerEndpoints : ExtTreeSet String
  theLastTableReceived : Table
  theClient : List LcmCommand

namespace EdgeControllerEtsiBalanced

section Optimization

structure Counter where
  theClient : String
  theLambda : String
  theCounter : ℕ
  deriving DecidableEq, Repr

structure Computer where
  theEndpoint : String
  theLambdas : ExtTreeSet String
  theAssociations : ℕ

/-- The number of clients from each address using each lambda. -/
def numClientsMap (aTable : Table) : ExtTreeMap String (ExtTreeMap String ℕ) :=
  aTable.foldl (fun m x =>
    let myCounts := m.getD x.2.1 ∅
    m.insert x.2.1 (myCounts.insert x.1 (myCounts.getD x.1 0 + 1))) ∅

/-- The above in descending order of the number of clients. -/
def numClientsList (aTable : Table) : List Counter :=
  ((numClientsMap aTable).toList.flatMap fun outer =>
    outer.2.toList.map fun inner => ⟨inner.1, outer.1, inner.2⟩).insertionSort
    fun a b => b.theCounter ≤ a.theCounter

/-- Note that a computer supports a lambda. -/
def support (aLambda aEndpoint : String) : List Computer → List Computer
  | [] => [⟨aEndpoint, (∅ : ExtTreeSet String).insert aLambda, 0⟩]
  | x :: xs =>
    if x.theEndpoint = aEndpoint then { x with theLambdas := x.theLambdas.insert aLambda } :: xs
    else x :: support aLambda aEndpoint xs

/-- The computers of all descriptors, without associations. -/
def computers (aDesc : DescMap) : List Computer :=
  aDesc.toList.foldl (fun xs elem =>
    elem.2.theComputers.toList.foldl (fun xs ep => support elem.1 ep xs) xs) []

/-- Insert a computer before the first one with as many associations. -/
def insertComputer (aComputer : Computer) : List Computer → List Computer
  | [] => [aComputer]
  | x :: xs =>
    if aComputer.theAssociations ≤ x.theAssociations then aComputer :: x :: xs
    else x :: insertComputer aComputer xs

/-- Assign a group of clients to the first computer that supports their lambda,
which is then moved back to maintain the ascending order. -/
def place (aCounter : Counter) : List Computer → Option (String × List Computer)
  | [] => none
  | x :: xs =>
    if aCounter.theLambda ∈ x.theLambdas then
      some (x.theEndpoint, insertComputer
        { x with theAssociations := x.theAssociations + aCounter.theCounter } xs)
    else (place aCounter xs).map fun r => (r.1, x :: r.2)

/-- Groups of clients whose lambda is not served are left out. -/
def assign : List Computer → List Counter → Table
  | _, [] => []
  | xs, c :: cs =>
    match place c xs with
    | none => assign xs cs
    | some (ep, xs') => (c.theClient, c.theLambda, ep) :: assign xs' cs

/-- The new associations for a table of active contexts. -/
def table (aTable : Table) (aDesc : DescMap) : Table :=
  assign (computers aDesc) (numClientsList aTable)

/-- A computer is only used for lambdas that it serves. -/
def Supports (aDesc : DescMap) (x : Computer) : Prop :=
  ∀ l ∈ x.theLambdas, ∃ d : Desc, aDesc[l]? = some d ∧ x.theEndpoint ∈ d.theComputers

theorem supports_support {aDesc : DescMap} {xs : List Computer} {l ep : String} {d : Desc}
    (h : ∀ x ∈ xs, Supports aDesc x) (hd : aDesc[l]? = some d) (hep : ep ∈ d.theComputers) :
    ∀ x ∈ support l ep xs, Supports aDesc x := by
  induction xs with
  | nil =>
    rw [support, List.forall_mem_singleton]
    intro l' hl'
    rcases mem_set_insert.mp hl' with rfl | hl'
    · exact ⟨d, hd, hep⟩
    · exact absurd hl' ExtTreeSet.not_mem_empty
  | cons y xs ih =>
    obtain ⟨hy, hxs⟩ := List.forall_mem_cons.mp h
    rw [support]
    split
    · next heq =>
      refine List.forall_mem_cons.mpr ⟨fun l' hl' => ?_, hxs⟩
      rcases mem_set_insert.mp hl' with rfl | hl'
      · exact ⟨d, hd, heq ▸ hep⟩
      · exact hy l' hl'
    · exact List.forall_mem_cons.mpr ⟨hy, ih hxs⟩

theorem supports_computers (aDesc : DescMap) : ∀ x ∈ computers aDesc, Supports aDesc x := by
  have hinner (l : String) (d : Desc) (hd : aDesc[l]? = some d) (eps : List String) :
      ∀ xs, (∀ ep ∈ eps, ep ∈ d.theComputers) → (∀ x ∈ xs, Supports aDesc x) →
        ∀ x ∈ eps.foldl (fun xs ep => support l ep xs) xs, Supports aDesc x := by
    induction eps with
    | nil => exact fun xs _ hxs => hxs
    | cons ep eps ih =>
      intro xs heps hxs
      obtain ⟨hep, heps⟩ := List.forall_mem_cons.mp heps
      exact ih _ heps (supports_support hxs hd hep)
  have houter (es : List (String × Desc)) : ∀ xs, (∀ e ∈ es, aDesc[e.1]? = some e.2) →
      (∀ x ∈ xs, Supports aDesc x) → ∀ x ∈ es.foldl (fun xs elem =>
        elem.2.theComputers.toList.foldl (fun xs ep => support elem.1 ep xs) xs) xs,
        Supports aDesc x := by
    induction es with
    | nil => exact fun xs _ hxs => hxs
    | cons e es ih =>
      intro xs hes hxs
      obtain ⟨he, hes⟩ := List.forall_mem_cons.mp hes
      have hfirst := hinner e.1 e.2 he e.2.theComputers.toList xs
        (fun ep hep => ExtTreeSet.mem_toList.mp hep) hxs
      exact ih _ hes hfirst
  exact houter aDesc.toList [] (fun e he => mem_toList.mp he) nofun

theorem supports_insertComputer {aDesc : DescMap} {xs : List Computer} {y : Computer}
    (hy : Supports aDesc y) (h : ∀ x ∈ xs, Supports aDesc x) :
    ∀ x ∈ insertComputer y xs, Supports aDesc x := by
  induction xs with
  | nil => exact List.forall_mem_singleton.mpr hy
  | cons x xs ih =>
    obtain ⟨hx, hxs⟩ := List.forall_mem_cons.mp h
    rw [insertComputer]
    split
    · exact List.forall_mem_cons.mpr ⟨hy, h⟩
    · exact List.forall_mem_cons.mpr ⟨hx, ih hxs⟩

theorem supports_place {aDesc : DescMap} {c : Counter} {xs xs' : List Computer} {ep : String}
    (h : ∀ x ∈ xs, Supports aDesc x) (hplace : place c xs = some (ep, xs')) :
    (∀ x ∈ xs', Supports aDesc x) ∧
      ∃ d : Desc, aDesc[c.theLambda]? = some d ∧ ep ∈ d.theComputers := by
  induction xs generalizing xs' with
  | nil => cases hplace
  | cons x xs ih =>
    obtain ⟨hx, hxs⟩ := List.forall_mem_cons.mp h
    rw [place] at hplace
    split at hplace
    · next hl =>
      cases hplace
      exact ⟨supports_insertComputer hx hxs, hx _ hl⟩
    · cases hrest : place c xs with
      | none =>
        rw [hrest] at hplace
        cases hplace
      | some r =>
        rw [hrest] at hplace
        cases hplace
        obtain ⟨hleft, hd⟩ := ih hxs hrest
        exact ⟨List.forall_mem_cons.mpr ⟨hx, hleft⟩, hd⟩

/-- The computer of every new association serves the lambda. -/
theorem serves_of_mem_table {aTable : Table} {aDesc : DescMap} {client l ep : String}
    (h : (client, l, ep) ∈ table aTable aDesc) :
    ∃ d : Desc, aDesc[l]? = some d ∧ ep ∈ d.theComputers := by
  have hassign (cs : List Counter) : ∀ xs, (∀ x ∈ xs, Supports aDesc x) → (client, l, ep) ∈ assign xs cs →
      ∃ d : Desc, aDesc[l]? = some d ∧ ep ∈ d.theComputers := by
    induction cs with
    | nil => exact fun xs _ hmem => nomatch hmem
    | cons c cs ih =>
      intro xs hxs hmem
      rw [assign] at hmem
      cases hplace : place c xs with
      | none =>
        rw [hplace] at hmem
        exact ih xs hxs hmem
      | some r =>
        rw [hplace] at hmem
        obtain ⟨hleft, hd⟩ := supports_place hxs hplace
        rcases List.mem_cons.mp hmem with heq | hmem
        · cases heq
          exact hd
        · exact ih r.2 hleft hmem
  exact hassign _ _ (supports_computers aDesc) h

end Optimization

abbrev State := EdgeController EdgeControllerEtsiBalanced

/-- What fails in a debug build, and is not checked in a release build. -/
def assert (aRelease : Bool) (aCondition : Prop) [Decidable aCondition] :
    Member EdgeControllerEtsiBalanced Unit :=
  if aRelease = true ∨ aCondition then pure () else throw "assertion failed"

def modifyBalanced (f : EdgeControllerEtsiBalanced → EdgeControllerEtsiBalanced) :
    Member EdgeControllerEtsiBalanced Unit := modify fun s => { s with theDerived := f s.theDerived }

def send (aCommand : LcmCommand) : Member EdgeControllerEtsiBalanced Unit :=
  modifyBalanced fun d => { d with theClient := d.theClient ++ [aCommand] }

def setDesc (aLambda : String) (aDesc : Desc) : Member EdgeControllerEtsiBalanced Unit :=
  modifyBalanced fun d => { d with theDesc := d.theDesc.insert aLambda aDesc }

/-- The LCM proxy is only notified if no other computer serves the lambda. -/
def addDesc (aRelease : Bool) (aEndpoint aLambda : String) :
    Member EdgeControllerEtsiBalanced Unit := do
  assert aRelease (aLambda ≠ "")
  match (← get).theDerived.theDesc[aLambda]? with
  | none =>
    setDesc aLambda (Desc.new aEndpoint)
    send (.associateAddress "" aLambda aEndpoint)
  | some myDesc =>
    assert aRelease (myDesc.theComputers.isEmpty = false)
    setDesc aLambda { myDesc with theComputers := myDesc.theComputers.insert aEndpoint }
    assert aRelease (aEndpoint ∉ myDesc.theComputers)

def addComputer (aRelease : Bool) (aEndpoint : String) (aLambdas : List String) :
    Member EdgeControllerEtsiBalanced Unit := do
  assert aRelease (aEndpoint ≠ "")
  modifyBalanced fun d =>
    { d with theComputerEndpoints := d.theComputerEndpoints.insert aEndpoint }
  aLambdas.forM (addDesc aRelease aEndpoint)

/-- The default of the lambda is elected again if it is the computer removed. -/
def delDesc (aRelease : Bool) (aEndpoint aLambda : String) :
    Member EdgeControllerEtsiBalanced Unit := do
  assert aRelease (aLambda ≠ "")
  match (← get).theDerived.theDesc[aLambda]? with
  | none => assert aRelease False
  | some myDesc =>
    assert aRelease (aEndpoint ∈ myDesc.theComputers)
    if aEndpoint ∉ myDesc.theComputers then return
    let myComputers := myDesc.theComputers.erase aEndpoint
    if myDesc.theDefault = aEndpoint then
      match myComputers.toList.head? with
      | none =>
        modifyBalanced fun d => { d with theDesc := d.theDesc.erase aLambda }
        send (.removeAddress "" aLambda)
      | some myDefault =>
        setDesc aLambda ⟨myDefault, myComputers⟩
        assert aRelease (myDefault ≠ "")
        send (.associateAddress "" aLambda myDefault)
    else setDesc aLambda { myDesc with theComputers := myComputers }

def delComputer (aRelease : Bool) (aEndpoint : String) (aLambdas : List String) :
    Member EdgeControllerEtsiBalanced Unit := do
  assert aRelease (aEndpoint ≠ "")
  modifyBalanced fun d =>
    { d with theComputerEndpoints := d.theComputerEndpoints.erase aEndpoint }
  aLambdas.forM (delDesc aRelease aEndpoint)

/-- Nothing is done if the active contexts are the same as the last time. -/
def optimize (aContexts : Table) : Member EdgeControllerEtsiBalanced Unit := do
  if aContexts = (← get).theDerived.theLastTableReceived then return
  modifyBalanced fun d => { d with theLastTableReceived := aContexts }
  let d := (← get).theDerived
  (table d.theLastTableReceived d.theDesc).forM fun x =>
    send (.associateAddress x.1 x.2.1 x.2.2)

def hooks (aRelease : Bool) : Hooks EdgeControllerEtsiBalanced where
  addComputer := addComputer aRelease
  delComputer := delComputer aRelease
  addLambda l := send (.addLambda l)
  delLambda l := send (.delLambda l)
  privateAnnounceComputer _ _ := pure ()
  privateAnnounceRouter _ _ := pure ()
  privateRemoveComputer _ _ := pure ()

/-- A call about a computer, or an optimization with the contexts that are active
at the time. -/
inductive Call where
  | computer (aCall : ComputerCall)
  | optimize (aContexts : Table)
  deriving DecidableEq, Repr

def serve (aRelease : Bool) : Call → Member EdgeControllerEtsiBalanced Unit
  | .computer x => x.serve (hooks aRelease)
  | .optimize t => EdgeControllerEtsiBalanced.optimize t

/-- The process is no longer there once an assertion has failed. -/
def step (aRelease : Bool) : Option State → Call → Option State
  | none, _ => none
  | some s, x =>
    match serve aRelease x s with
    | .ok _ s' => some s'
    | .error _ _ => none

/-- A controller whose proxy has no associations. -/
def new : State := EdgeController.new ⟨∅, ∅, [], []⟩

end EdgeControllerEtsiBalanced
end ServerlessEdge.Controller
