import ServerlessEdge.Computer.StateRetrieval

/-! The same with state servers that may fail at any call: what is left on the
servers if an execution throws. -/
namespace ServerlessEdge.Computer
open Std Library Messages Triple Maps

/-- What becomes of a call: it is served, it is not, or it is but the answer is lost. -/
inductive Outcome where
  | answered
  | refused
  | lost
  deriving DecidableEq

/-- The outcome of the n-th call, for each server that it may be made to. -/
abbrev Network := Nat → String → Outcome

/-- The contents of the state servers, and the calls made so far. -/
structure Servers where
  theStateRepos : ExtTreeMap String (ExtTreeMap String String)
  theCalls : Nat

abbrev Client := EStateM String Servers

namespace Servers

def content (s : Servers) (aServerEndpoint aName : String) : Option String :=
  (s.theStateRepos.getD aServerEndpoint ∅)[aName]?

/-- After a call that leaves a server with the given states. -/
def served (s : Servers) (aServerEndpoint : String) (theStateRepo : ExtTreeMap String String) :
    Servers :=
  ⟨s.theStateRepos.insert aServerEndpoint theStateRepo, s.theCalls + 1⟩

end Servers

namespace Unreliable

def call {α : Type} (net : Network) (aServerEndpoint : String)
    (serve : ExtTreeMap String String → α × ExtTreeMap String String) : Client α := fun s =>
  let theRet := serve (s.theStateRepos.getD aServerEndpoint ∅)
  match net s.theCalls aServerEndpoint with
  | .answered => .ok theRet.1 (s.served aServerEndpoint theRet.2)
  | .refused => .error "rpc error" { s with theCalls := s.theCalls + 1 }
  | .lost => .error "rpc error" (s.served aServerEndpoint theRet.2)

def Get (net : Network) (aServerEndpoint aName : String) : Client (Option String) :=
  call net aServerEndpoint fun theStateRepo => (theStateRepo[aName]?, theStateRepo)

def Put (net : Network) (aServerEndpoint aName aState : String) : Client Unit :=
  call net aServerEndpoint fun theStateRepo => (⟨⟩, theStateRepo.insert aName aState)

def Del (net : Network) (aServerEndpoint aName : String) : Client Unit :=
  call net aServerEndpoint fun theStateRepo => (⟨⟩, theStateRepo.erase aName)

def stateClient : Option String → Client String
  | none => throw "cannot handle remote states without a state server"
  | some e => return e

/-- Moves one state to the local server. -/
def retrieve (net : Network) (myServer : String) (aResponse : Rpc.LambdaResponse)
    (aLocation aName : String) : Client Rpc.LambdaResponse := do
  match ← Get net aLocation aName with
  | none => throw ("could not find state in " ++ aLocation ++ ": " ++ aName)
  | some myContent =>
    Put net myServer aName myContent
    Del net aLocation aName
    match aResponse.states[aName]? with
    | none => throw ("could not find state in the response: " ++ aName)
    | some myState =>
      return { aResponse with
        states := aResponse.states.insert aName { myState with location := myServer } }

def handleRemoteState (net : Network) (theStateClient : Option String)
    (aRequest : Rpc.LambdaRequest) (aResponse : Rpc.LambdaResponse) (elem : String × Rpc.State) :
    Client Rpc.LambdaResponse := do
  if elem.2.location = "" then return aResponse
  let myServer ← stateClient theStateClient
  if elem.2.location = myServer then return aResponse
  if aRequest.name ∉ aRequest.dependencies.getD elem.1 [] then return aResponse
  retrieve net myServer aResponse elem.2.location elem.1

/-- The states of the request come in any order. -/
def handleRemoteStates (net : Network) (theStateClient : Option String)
    (aRequest : Rpc.LambdaRequest) (aStates : List (String × Rpc.State))
    (aResponse : Rpc.LambdaResponse) : Client Rpc.LambdaResponse :=
  aStates.foldlM (handleRemoteState net theStateClient aRequest) aResponse

/-- An execution whose task ends with the given response. -/
def blockingExecution (net : Network) (theStateClient : Option String) (aReq : Rpc.LambdaRequest)
    (aStates : List (String × Rpc.State)) (aTask : Except String Rpc.LambdaResponse) :
    Client Rpc.LambdaResponse :=
  match aTask with
  | .error err => throw err
  | .ok myResp => handleRemoteStates net theStateClient aReq aStates myResp

/-- Servers that are there always answer. -/
def network (theStateRepos : ExtTreeMap String (ExtTreeMap String String)) : Network := fun _ l =>
  if l ∈ theStateRepos then .answered else .refused

section Reliable

variable {theStateRepos : ExtTreeMap String (ExtTreeMap String String)} {c : Option String}

/-- The servers of a computer whose state server is c, with the servers of the network. -/
structure Serving (theStateRepos : ExtTreeMap String (ExtTreeMap String String)) (c : Option String)
    (s : System) (t : Servers) : Prop where
  same : t.theStateRepos = s.theStateRepos
  client : s.theComputer.theStateClient = c
  servers : ∀ l, l ∈ s.theStateRepos ↔ l ∈ theStateRepos

theorem call_alike {α : Type} {m : ExtTreeMap String String → Member α} {l : String}
    {serve : ExtTreeMap String String → α × ExtTreeMap String String}
    (hm : ∀ r (s : System), s.theStateRepos[l]? = some r → m r s = .ok (serve r).1
      { s with theStateRepos := s.theStateRepos.insert l (serve r).2 }) :
    Alike (Serving theStateRepos c) (StateClient.repo l >>= m) (call (network theStateRepos) l serve) := by
  intro s t h
  cases hl : s.theStateRepos[l]? with
  | none =>
    have hno : l ∉ theStateRepos := by
      rw [← h.servers, ExtTreeMap.mem_iff_isSome_getElem?, hl]
      exact nofun
    rw [bind_of_error (repo_of_none hl), call, network, if_neg hno]
    exact ⟨rfl, h.same, h.client, h.servers⟩
  | some r =>
    have hmem : l ∈ s.theStateRepos := mem_of_lookup hl
    have hr : t.theStateRepos.getD l ∅ = r := by rw [h.same, getD_of_some hl]
    rw [bind_of_ok (repo_of_some hl), hm r s hl, call, network, if_pos ((h.servers l).mp hmem), hr]
    refine ⟨rfl, congrArg (fun repos => repos.insert l (serve r).2) h.same, h.client, ?_⟩
    intro l'
    rw [mem_insert, ← h.servers]
    exact ⟨fun h' => h'.elim (fun heq => heq ▸ hmem) id, .inr⟩

theorem get_alike (l x : String) :
    Alike (Serving theStateRepos c) (StateClient.Get l x) (Get (network theStateRepos) l x) := by
  apply call_alike
  intro r s hr
  rw [insert_self hr]
  rfl

theorem put_alike (l x v : String) :
    Alike (Serving theStateRepos c) (StateClient.Put l x v) (Put (network theStateRepos) l x v) :=
  call_alike fun _ _ _ => rfl

theorem del_alike (l x : String) :
    Alike (Serving theStateRepos c) (StateClient.Del l x) (Del (network theStateRepos) l x) :=
  call_alike fun _ _ _ => rfl

theorem stateClient_alike :
    Alike (Serving theStateRepos c) EdgeComputer.stateClient (stateClient c) := by
  intro s t h
  unfold EdgeComputer.stateClient
  rw [get_bind_apply, h.client]
  cases c with
  | none => exact ⟨rfl, h⟩
  | some e => exact ⟨rfl, h⟩

theorem handleRemoteState_alike (m : Rpc.LambdaRequest) (resp : Rpc.LambdaResponse)
    (elem : String × Rpc.State) : Alike (Serving theStateRepos c)
      (EdgeComputer.handleRemoteState m resp elem)
      (handleRemoteState (network theStateRepos) c m resp elem) := by
  unfold EdgeComputer.handleRemoteState handleRemoteState
  by_cases hl : elem.2.location = ""
  · simp only [if_pos hl]
    exact alike_pure resp
  simp only [if_neg hl]
  apply alike_bind stateClient_alike
  intro e
  by_cases hle : elem.2.location = e
  · simp only [if_pos hle]
    exact alike_pure resp
  simp only [if_neg hle]
  by_cases hdep : m.name ∉ m.dependencies.getD elem.1 []
  · simp only [if_pos hdep]
    exact alike_pure resp
  simp only [if_neg hdep, retrieve]
  apply alike_bind (get_alike elem.2.location elem.1)
  intro r
  cases r with
  | none => exact alike_throw _
  | some v =>
    apply alike_bind (put_alike e elem.1 v)
    intro _
    apply alike_bind (del_alike elem.2.location elem.1)
    intro _
    cases resp.states[elem.1]? with
    | none => exact alike_throw _
    | some st => exact alike_pure _

/-- On servers that answer, this is the execution of a function as before. -/
theorem blockingExecution_alike (env : Environment) (m : Rpc.LambdaRequest) (s : System) (n : ℕ) :
    SameResult (Serving s.theStateRepos s.theComputer.theStateClient)
      (EdgeComputer.blockingExecution env m s)
      (blockingExecution (network s.theStateRepos) s.theComputer.theStateClient m m.states.toList
        (env.realExecution s.theLog.length m) ⟨s.theStateRepos, n⟩) := by
  have hserving : Serving s.theStateRepos s.theComputer.theStateClient s ⟨s.theStateRepos, n⟩ :=
    ⟨rfl, rfl, fun _ => Iff.rfl⟩
  unfold EdgeComputer.blockingExecution blockingExecution
  rw [get_bind_apply]
  cases env.realExecution s.theLog.length m with
  | error err => exact ⟨rfl, hserving⟩
  | ok resp => exact alike_foldlM (handleRemoteState_alike m) m.states.toList resp _ _ hserving

end Reliable

section Effects

variable {net : Network} {s s' : Servers} {l e x : String} {m : Rpc.LambdaRequest}
  {resp : Rpc.LambdaResponse}

/-- Only states that meet P change on the servers. -/
def Spares (P : String → String → Prop) (s s' : Servers) : Prop :=
  ∀ l y, ¬ P l y → s'.content l y = s.content l y

instance (P : String → String → Prop) : Std.Refl (Spares P) := ⟨fun _ _ _ _ => rfl⟩

instance (P : String → String → Prop) : IsTrans Servers (Spares P) :=
  ⟨fun _ _ _ h h' l y hno => (h' l y hno).trans (h l y hno)⟩

theorem content_served (r : ExtTreeMap String String) (l' y : String) :
    (s.served l r).content l' y = if l' = l then r[y]? else s.content l' y := by
  simp only [Servers.content, Servers.served, ExtTreeMap.getD_insert,
    LawfulEqCmp.compare_eq_iff_eq, eq_comm (a := l)]
  split <;> rfl

/-- A call may change what its server changes, whether it is answered or not. -/
theorem call_spares {α : Type} {P : String → String → Prop}
    {serve : ExtTreeMap String String → α × ExtTreeMap String String}
    (hserve : ∀ r : ExtTreeMap String String, ∀ y, ¬ P l y → (serve r).2[y]? = r[y]?) :
    Moves (Spares P) (call net l serve) := by
  intro s
  have hserved : Spares P s (s.served l (serve (s.theStateRepos.getD l ∅)).2) := by
    intro l' y hno
    rw [content_served]
    split
    · next hl =>
      subst hl
      exact hserve _ y hno
    · rfl
  unfold after call
  cases net s.theCalls l with
  | answered => exact hserved
  | refused => exact fun _ _ _ => rfl
  | lost => exact hserved

theorem get_spares (P : String → String → Prop) : Moves (Spares P) (Get net l x) :=
  call_spares fun _ _ _ => rfl

theorem put_spares {P : String → String → Prop} (h : P e x) (v : String) :
    Moves (Spares P) (Put net e x v) := by
  apply call_spares
  intro r y hno
  rw [lookup_insert, if_neg]
  rintro rfl
  exact hno h

theorem del_spares {P : String → String → Prop} (h : P l x) : Moves (Spares P) (Del net l x) := by
  apply call_spares
  intro r y hno
  rw [lookup_erase, if_neg]
  rintro rfl
  exact hno h

theorem retrieve_spares : Moves (Spares fun _ y => y = x) (retrieve net e resp l x) := by
  apply moves_bind (get_spares _)
  intro r
  cases r with
  | none => exact moves_throw _
  | some v =>
    have hput : Moves (Spares fun _ y => y = x) (Put net e x v) :=
      put_spares (P := fun _ y => y = x) rfl v
    have hdel : Moves (Spares fun _ y => y = x) (Del net l x) :=
      del_spares (P := fun _ y => y = x) rfl
    apply moves_bind hput
    intro _
    apply moves_bind hdel
    intro _
    cases resp.states[x]? with
    | none => exact moves_throw _
    | some st => exact moves_pure _

theorem handleRemoteState_spares (c : Option String) (elem : String × Rpc.State) :
    Moves (Spares fun _ y => y = elem.1) (handleRemoteState net c m resp elem) := by
  unfold handleRemoteState
  split
  · exact moves_pure resp
  cases c with
  | none => exact moves_throw _
  | some e =>
    have hclient : Moves (Spares fun _ y => y = elem.1) (stateClient (some e)) := moves_pure e
    apply moves_bind hclient
    intro e
    split
    · exact moves_pure resp
    split
    · exact moves_pure resp
    exact retrieve_spares

/-- The state x goes from the server l: the copy is made, and the server is reached
by the call that deletes it. -/
def Deleted (net : Network) (e l x : String) (s : Servers) : Prop :=
  net s.theCalls l = .answered ∧ (s.content l x).isSome ∧ net (s.theCalls + 1) e = .answered ∧
    net (s.theCalls + 2) l ≠ .refused

section Calls

variable {α : Type} {serve : ExtTreeMap String String → α × ExtTreeMap String String}

theorem call_of_answered (h : net s.theCalls l = .answered) : ∃ s', call net l serve s =
    .ok (serve (s.theStateRepos.getD l ∅)).1 s' ∧ s'.theCalls = s.theCalls + 1 := by
  rw [call, h]
  exact ⟨_, rfl, rfl⟩

theorem call_of_not_answered (h : net s.theCalls l ≠ .answered) :
    ∃ err s', call net l serve s = .error err s' := by
  rw [call]
  cases hn : net s.theCalls l with
  | answered => exact absurd hn h
  | refused => exact ⟨_, _, rfl⟩
  | lost => exact ⟨_, _, rfl⟩

theorem call_of_refused (h : net s.theCalls l = .refused) : ∃ err s',
    call net l serve s = .error err s' ∧ s'.theStateRepos = s.theStateRepos := by
  rw [call, h]
  exact ⟨_, _, rfl, rfl⟩

end Calls

/-- Once the deletion has reached the server, the state is not there. -/
theorem del_of_not_refused (h : net s.theCalls l ≠ .refused) :
    (after (Del net l x) s).content l x = none := by
  have hgone : (s.served l ((s.theStateRepos.getD l ∅).erase x)).content l x = none := by
    rw [content_served, if_pos rfl, lookup_erase, if_pos rfl]
  unfold after Del call
  cases hn : net s.theCalls l with
  | answered => exact hgone
  | refused => exact absurd hn h
  | lost => exact hgone

/-- A state that does not go from its server is not retrieved. -/
theorem retrieve_kept (resp : Rpc.LambdaResponse) (h : ¬ Deleted net e l x s) : ∃ err s',
    retrieve net e resp l x s = .error err s' ∧ Spares (fun l' y => l' = e ∧ y = x) s s' := by
  have hget : Moves (Spares fun l' y => l' = e ∧ y = x) (Get net l x) := get_spares _
  rw [retrieve]
  by_cases hanswered : net s.theCalls l = .answered
  · obtain ⟨s₁, hok, hcalls⟩ : ∃ s₁, Get net l x s = .ok (s.content l x) s₁ ∧ _ :=
      call_of_answered hanswered
    have hs₁ := moves_of_ok hget hok
    rw [bind_of_ok hok]
    cases hv : s.content l x with
    | none => exact ⟨_, s₁, rfl, hs₁⟩
    | some v =>
      have hput : Moves (Spares fun l' y => l' = e ∧ y = x) (Put net e x v) :=
        put_spares (P := fun l' y => l' = e ∧ y = x) ⟨rfl, rfl⟩ v
      by_cases hanswered' : net s₁.theCalls e = .answered
      · obtain ⟨s₂, hok', hcalls'⟩ : ∃ s₂, Put net e x v s₁ = .ok ⟨⟩ s₂ ∧ _ :=
          call_of_answered hanswered'
        have hrefused : net s₂.theCalls l = .refused := by
          rw [hcalls', hcalls]
          by_contra hno
          exact h ⟨hanswered, by rw [hv]; rfl, hcalls ▸ hanswered', hno⟩
        obtain ⟨err, s₃, herr, hrepos⟩ : ∃ err s₃, Del net l x s₂ = .error err s₃ ∧ _ :=
          call_of_refused hrefused
        refine ⟨err, s₃, (bind_of_ok hok' _).trans (bind_of_error herr _), ?_⟩
        intro l' y hno
        rw [Servers.content, hrepos]
        exact (moves_of_ok hput hok' l' y hno).trans (hs₁ l' y hno)
      · obtain ⟨err, s₂, herr⟩ : ∃ err s₂, Put net e x v s₁ = .error err s₂ :=
          call_of_not_answered hanswered'
        refine ⟨err, s₂, bind_of_error herr _, ?_⟩
        intro l' y hno
        exact (moves_of_error hput herr l' y hno).trans (hs₁ l' y hno)
  · obtain ⟨err, s₁, herr⟩ : ∃ err s₁, Get net l x s = .error err s₁ :=
      call_of_not_answered hanswered
    exact ⟨err, s₁, bind_of_error herr _, moves_of_error hget herr⟩

theorem retrieve_deleted (resp : Rpc.LambdaResponse) (h : Deleted net e l x s) :
    (after (retrieve net e resp l x) s).content l x = none := by
  obtain ⟨hanswered, hsome, hanswered', hreached⟩ := h
  obtain ⟨v, hv⟩ := Option.isSome_iff_exists.mp hsome
  obtain ⟨s₁, hok, hcalls⟩ : ∃ s₁, Get net l x s = .ok (s.content l x) s₁ ∧ _ :=
    call_of_answered hanswered
  rw [hv] at hok
  rw [← hcalls] at hanswered'
  obtain ⟨s₂, hok', hcalls'⟩ : ∃ s₂, Put net e x v s₁ = .ok ⟨⟩ s₂ ∧ _ :=
    call_of_answered hanswered'
  have hgone : (after (Del net l x) s₂).content l x = none := by
    apply del_of_not_refused
    rwa [hcalls', hcalls]
  rw [retrieve, after_bind_of_ok hok]
  dsimp only
  rw [after_bind_of_ok hok']
  refine after_bind (I := fun s : Servers => s.content l x = none) hgone ?_
  intro _ s₃ hok''
  rw [after_of_ok hok''] at hgone
  cases resp.states[x]? with
  | none => exact hgone
  | some st => exact hgone

end Effects

instance (m : Rpc.LambdaRequest) (e x l : String) : Decidable (Needs m e x l) :=
  inferInstanceAs (Decidable (_ ∧ _ ∧ _))

section Loop

variable {net : Network} {m : Rpc.LambdaRequest} {e : String} {resp : Rpc.LambdaResponse}
  {s : Servers}

theorem handleRemoteState_of_needs {elem : String × Rpc.State}
    (h : Needs m e elem.1 elem.2.location) : handleRemoteState net (some e) m resp elem s =
      retrieve net e resp elem.2.location elem.1 s := by
  unfold handleRemoteState
  have hclient : stateClient (some e) s = .ok e s := rfl
  rw [if_neg h.1, bind_of_ok hclient, if_neg h.2.1, if_neg (not_not.mpr h.2.2)]

theorem handleRemoteState_of_not_needs {elem : String × Rpc.State}
    (h : ¬ Needs m e elem.1 elem.2.location) :
    handleRemoteState net (some e) m resp elem s = .ok resp s := by
  unfold handleRemoteState
  by_cases hl : elem.2.location = ""
  · rw [if_pos hl]
    rfl
  have hclient : stateClient (some e) s = .ok e s := rfl
  rw [if_neg hl, bind_of_ok hclient]
  by_cases hle : elem.2.location = e
  · rw [if_pos hle]
    rfl
  rw [if_neg hle, if_pos fun hdep => h ⟨hl, hle, hdep⟩]
  rfl

/-- States that the function does not need are passed by. -/
theorem handleRemoteStates_skip {xs ys : List (String × Rpc.State)}
    (h : ∀ elem ∈ xs, ¬ Needs m e elem.1 elem.2.location) :
    handleRemoteStates net (some e) m (xs ++ ys) resp s =
      handleRemoteStates net (some e) m ys resp s := by
  induction xs with
  | nil => rfl
  | cons elem xs ih =>
    have hskip : handleRemoteState net (some e) m resp elem s = .ok resp s :=
      handleRemoteState_of_not_needs (h elem List.mem_cons_self)
    exact (bind_of_ok hskip _).trans (ih fun elem' hmem => h elem' (List.mem_cons_of_mem elem hmem))

end Loop

/-- The states of a request that are on a server stay there, as they are. -/
def Retriable (m : Rpc.LambdaRequest) (s s' : Servers) : Prop :=
  ∀ x st, m.states[x]? = some st → st.location ≠ "" →
    s'.content st.location x = s.content st.location x

section Executions

variable {net : Network} {c : Option String} {m : Rpc.LambdaRequest}
  {aStates : List (String × Rpc.State)} {aTask : Except String Rpc.LambdaResponse}
  {s s' : Servers} {err : String}

/-- Without a local state server nothing is done on the others. -/
theorem handleRemoteStates_none (resp : Rpc.LambdaResponse) :
    Moves (Spares fun _ _ => False) (handleRemoteStates net none m aStates resp) := by
  apply moves_foldlM
  intro resp elem
  unfold handleRemoteState
  split
  · exact moves_pure resp
  · exact moves_throw _

/-- A loop in which the first state that is needed fails. -/
theorem retriable_of_kept (horder : aStates.Perm m.states.toList)
    (h : blockingExecution net c m aStates aTask s = .error err s')
    (hkept : ∀ resp e elem, aTask = .ok resp → c = some e →
      aStates.find? (fun elem => Needs m e elem.1 elem.2.location) = some elem →
      ¬ Deleted net e elem.2.location elem.1 s) : Retriable m s s' := by
  unfold blockingExecution at h
  cases htask : aTask with
  | error err' =>
    rw [htask] at h
    cases h
    exact fun _ _ _ _ => rfl
  | ok resp =>
    simp only [htask] at h
    cases hc : c with
    | none =>
      rw [hc] at h
      intro x st _ _
      exact moves_of_error (handleRemoteStates_none resp) h _ x id
    | some e =>
      rw [hc] at h
      cases hfind : aStates.find? (fun elem => Needs m e elem.1 elem.2.location) with
      | none =>
        have hno : ∀ elem ∈ aStates, ¬ Needs m e elem.1 elem.2.location := by
          simpa using List.find?_eq_none.mp hfind
        rw [← List.append_nil aStates, handleRemoteStates_skip hno] at h
        cases h
      | some elem =>
        have hdel := hkept resp e elem htask hc hfind
        obtain ⟨hneeds, xs, ys, rfl, hxs⟩ := List.find?_eq_some_iff_append.mp hfind
        have hneeds := of_decide_eq_true hneeds
        rw [handleRemoteStates_skip (by simpa using hxs)] at h
        obtain ⟨err', s₁, herr, hspares⟩ := retrieve_kept resp hdel
        rw [← handleRemoteState_of_needs hneeds] at herr
        rw [handleRemoteStates, List.foldlM_cons, bind_of_error herr] at h
        cases h
        intro x st hst _
        apply hspares
        rintro ⟨hle, rfl⟩
        have helem : m.states[elem.1]? = some elem.2 :=
          mem_toList.mp (horder.mem_iff.mp (by simp))
        rw [hst] at helem
        exact hneeds.2.1 (Option.some.inj helem ▸ hle)

/-- A loop that goes on after the first state that is needed, or fails once it is gone. -/
theorem not_retriable_of_deleted (horder : aStates.Perm m.states.toList)
    (h : blockingExecution net c m aStates aTask s = .error err s') {resp : Rpc.LambdaResponse}
    {e : String} {elem : String × Rpc.State} (htask : aTask = .ok resp) (hc : c = some e)
    (hfind : aStates.find? (fun elem => Needs m e elem.1 elem.2.location) = some elem)
    (hdel : Deleted net e elem.2.location elem.1 s) : ¬ Retriable m s s' := by
  intro hsame
  obtain ⟨hneeds, xs, ys, rfl, hxs⟩ := List.find?_eq_some_iff_append.mp hfind
  have hneeds := of_decide_eq_true hneeds
  have helem : m.states[elem.1]? = some elem.2 := mem_toList.mp (horder.mem_iff.mp (by simp))
  have hnodup : ((xs ++ elem :: ys).map Prod.fst).Nodup :=
    (horder.map Prod.fst).nodup_iff.mpr (nodup_keys m.states)
  have hnew : elem.1 ∉ ys.map Prod.fst := by
    rw [List.map_append, List.map_cons] at hnodup
    exact (List.nodup_cons.mp (List.nodup_append.mp hnodup).2.1).1
  subst htask hc
  have hskip : ∀ elem ∈ xs, ¬ Needs m e elem.1 elem.2.location := by simpa using hxs
  replace h : handleRemoteStates net (some e) m (elem :: ys) resp s = .error err s' :=
    (handleRemoteStates_skip hskip).symm.trans h
  -- the rest of the loop does not bring the state back
  have hrest : ∀ resp', Moves (Spares fun _ y => y ≠ elem.1)
      (ys.foldlM (handleRemoteState net (some e) m) resp') := by
    intro resp'
    refine moves_foldlM_of_mem (fun resp'' elem' hmem => ?_) resp'
    refine moves_mono (handleRemoteState_spares (some e) elem') ?_
    intro t t' hspares l y hy
    apply hspares l y
    rintro rfl
    exact hnew (List.mem_map.mpr ⟨elem', hmem, not_not.mp hy⟩)
  have hgone := retrieve_deleted resp hdel
  rw [after, ← handleRemoteState_of_needs hneeds] at hgone
  have hfinal : (after (handleRemoteStates net (some e) m (elem :: ys) resp) s).content
      elem.2.location elem.1 = none := by
    refine after_bind (I := fun s : Servers => s.content elem.2.location elem.1 = none) hgone ?_
    intro resp' s₁ hok
    rw [hok] at hgone
    exact (hrest resp' s₁ _ _ (not_not.mpr rfl)).trans hgone
  rw [after, h] at hfinal
  rw [hsame elem.1 elem.2 helem hneeds.1] at hfinal
  have hsome := hdel.2.1
  rw [hfinal] at hsome
  cases hsome

/-- An execution that throws leaves the states to a retry, unless the first state that the
function needs has been deleted from its server. -/
theorem blockingExecution_retriable_iff (horder : aStates.Perm m.states.toList)
    (h : blockingExecution net c m aStates aTask s = .error err s') : Retriable m s s' ↔
      ∀ resp e elem, aTask = .ok resp → c = some e →
        aStates.find? (fun elem => Needs m e elem.1 elem.2.location) = some elem →
        ¬ Deleted net e elem.2.location elem.1 s := by
  constructor
  · intro hsame resp e elem htask hc hfind hdel
    exact not_retriable_of_deleted horder h htask hc hfind hdel hsame
  · exact retriable_of_kept horder h

end Executions

/-- Two states on different servers. -/
def failureStates : List (String × Rpc.State) :=
  [("s0", { location := "server1", content := "" }), ("s1", { location := "server2", content := "" })]

def failureRequest : Rpc.LambdaRequest where
  name := "f0"
  states := .ofList failureStates
  chain := ["f0"]
  dependencies := .ofList [("s0", ["f0"]), ("s1", ["f0"])]

def failureResponse : Rpc.LambdaResponse where
  states := .ofList failureStates

/-- Nothing has been moved if the first state is missing. -/
theorem blockingExecution_retriable_missing : ∃ err s',
    blockingExecution (fun _ _ => .answered) (some "server0") failureRequest failureStates
      (.ok failureResponse) ⟨∅, 0⟩ = .error err s' ∧ Retriable failureRequest ⟨∅, 0⟩ s' := by
  have horder : failureStates.Perm failureRequest.states.toList := .of_eq rfl
  refine ⟨_, _, rfl, (blockingExecution_retriable_iff horder
    (show blockingExecution (fun _ _ => .answered) (some "server0") failureRequest failureStates
      (.ok failureResponse) ⟨∅, 0⟩ = .error _ _ from rfl)).mpr ?_⟩
  rintro resp e elem - - - ⟨-, hsome, -⟩
  simp [Servers.content] at hsome

/-- If the second one is missing, the first one is no longer where the request says. -/
theorem not_blockingExecution_retriable : ¬ ∀ net c m aStates aTask s err s',
    aStates.Perm m.states.toList → blockingExecution net c m aStates aTask s = .error err s' →
    Retriable m s s' := by
  intro h
  let s : Servers := ⟨(∅ : ExtTreeMap String (ExtTreeMap String String)).insert "server1"
    ((∅ : ExtTreeMap String String).insert "s0" "v0"), 0⟩
  obtain ⟨err, s', hrun, hgone⟩ : ∃ err s', blockingExecution (fun _ _ => .answered)
      (some "server0") failureRequest failureStates (.ok failureResponse) s = .error err s' ∧
      s'.content "server1" "s0" = none := ⟨_, _, rfl, rfl⟩
  have hsame := h _ _ _ _ _ s err s' (.of_eq rfl) hrun "s0" _ rfl (by decide)
  have hheld : s.content "server1" "s0" = some "v0" := rfl
  rw [hgone, hheld] at hsame
  cases hsame

end Unreliable

end ServerlessEdge.Computer
