import ServerlessEdge.Computer.EdgeComputer
import ServerlessEdge.Library.Maps

/-! What a function does to the remote states it depends on: they are moved to the
local state server, one by one. -/
namespace ServerlessEdge.Computer
open Std Library Messages EdgeComputer Triple Maps

/-- A state server has a state. -/
def Holds (s : System) (aServerEndpoint aName : String) : Prop :=
  aName ∈ s.theStateRepos.getD aServerEndpoint ∅

/-- Where a message says that a state is. -/
def location (aStates : ExtTreeMap String Rpc.State) (aName : String) : Option String :=
  aStates[aName]?.map Rpc.State.location

/-- A state at l is remote, not on the local server e, and a function depends on it. -/
def Needs (m : Rpc.LambdaRequest) (e x l : String) : Prop :=
  l ≠ "" ∧ l ≠ e ∧ m.name ∈ m.dependencies.getD x []

/-- The servers that have a state stay the same. -/
def Same (x : String) (s s' : System) : Prop := ∀ e, Holds s' e x ↔ Holds s e x

/-- A state x with content v has been moved from server l to server e. -/
def moved (l e x v : String) (s : System) : System :=
  let theStateRepos := s.theStateRepos.insert e ((s.theStateRepos.getD e ∅).insert x v)
  { s with theStateRepos := theStateRepos.insert l ((theStateRepos.getD l ∅).erase x) }

section Servers

variable {s : System} {l e x v : String} {c : ExtTreeMap String String}

theorem repo_of_some (h : s.theStateRepos[e]? = some c) : StateClient.repo e s = .ok c s := by
  unfold StateClient.repo
  rw [get_bind_apply, h]
  rfl

theorem repo_of_none (h : s.theStateRepos[e]? = none) :
    StateClient.repo e s = .error "rpc error" s := by
  unfold StateClient.repo
  rw [get_bind_apply, h]
  rfl

theorem getD_of_some (h : s.theStateRepos[e]? = some c) : s.theStateRepos.getD e ∅ = c := by
  rw [ExtTreeMap.getD_eq_getD_getElem?, h, Option.getD_some]

theorem holds_moved (hle : l ≠ e) (e' y : String) : Holds (moved l e x v s) e' y ↔
    if y = x then e' = e ∨ e' ≠ l ∧ Holds s e' y else Holds s e' y := by
  simp only [Holds, moved, ExtTreeMap.getD_insert, LawfulEqCmp.compare_eq_iff_eq]
  by_cases hl : l = e'
  · subst hl
    rw [if_pos rfl, if_neg (Ne.symm hle), mem_erase]
    split <;> simp_all
  · rw [if_neg hl]
    by_cases he : e = e'
    · subst he
      rw [if_pos rfl, mem_insert]
      split <;> simp_all
    · rw [if_neg he]
      split
      · simp [Ne.symm he, Ne.symm hl]
      · rfl

theorem same_moved (hle : l ≠ e) {y : String} (hy : y ≠ x) : Same y s (moved l e x v s) := by
  intro e'
  rw [holds_moved hle, if_neg hy]

end Servers

section OneState

variable {s : System} {m : Rpc.LambdaRequest} {resp : Rpc.LambdaResponse} {e x : String}
  {st : Rpc.State}

/-- One state, step by step; what has been done to the servers before an error stays. -/
theorem handleRemoteState_eq (m : Rpc.LambdaRequest) (resp : Rpc.LambdaResponse) (x : String)
    (st : Rpc.State) (s : System) : handleRemoteState m resp (x, st) s =
      if st.location = "" then .ok resp s else
      match s.theComputer.theStateClient with
      | none => .error "cannot handle remote states without a state server" s
      | some e =>
        if st.location = e then .ok resp s else
        if m.name ∉ m.dependencies.getD x [] then .ok resp s else
        match s.theStateRepos[st.location]? with
        | none => .error "rpc error" s
        | some repo => match repo[x]? with
          | none => .error ("could not find state in " ++ st.location ++ ": " ++ x) s
          | some v => match s.theStateRepos[e]? with
            | none => .error "rpc error" s
            | some _ => match resp.states[x]? with
              | none => .error ("could not find state in the response: " ++ x)
                  (moved st.location e x v s)
              | some st' => .ok
                  { resp with states := resp.states.insert x { st' with location := e } }
                  (moved st.location e x v s) := by
  unfold handleRemoteState
  dsimp only
  split
  · rfl
  cases he : s.theComputer.theStateClient with
  | none =>
    have hclient : stateClient s =
        .error "cannot handle remote states without a state server" s := by
      unfold stateClient
      rw [get_bind_apply, he]
      rfl
    exact bind_of_error hclient _
  | some e =>
    have hclient : stateClient s = .ok e s := by
      unfold stateClient
      rw [get_bind_apply, he]
      rfl
    rw [bind_of_ok hclient]
    dsimp only
    split
    · rfl
    next hle =>
    split
    · rfl
    cases hc : s.theStateRepos[st.location]? with
    | none =>
      have hget : StateClient.Get st.location x s = .error "rpc error" s :=
        bind_of_error (repo_of_none hc) _
      exact bind_of_error hget _
    | some repo =>
      have hget : StateClient.Get st.location x s = .ok repo[x]? s := bind_of_ok (repo_of_some hc) _
      rw [bind_of_ok hget]
      dsimp only
      cases hx : repo[x]? with
      | none => rfl
      | some v =>
        cases hc' : s.theStateRepos[e]? with
        | none =>
          have hput : StateClient.Put e x v s = .error "rpc error" s :=
            bind_of_error (repo_of_none hc') _
          exact bind_of_error hput _
        | some c' =>
          have hput : StateClient.Put e x v s =
              .ok ⟨⟩ { s with theStateRepos := s.theStateRepos.insert e (c'.insert x v) } :=
            bind_of_ok (repo_of_some hc') _
          have hc'' : (s.theStateRepos.insert e (c'.insert x v))[st.location]? = some repo := by
            rw [lookup_insert, if_neg hle, hc]
          have hdel : StateClient.Del st.location x
              { s with theStateRepos := s.theStateRepos.insert e (c'.insert x v) } =
                .ok ⟨⟩ (moved st.location e x v s) := by
            unfold StateClient.Del
            rw [bind_of_ok (repo_of_some hc'')]
            simp only [moved, getD_of_some hc', ExtTreeMap.getD_eq_getD_getElem?, hc'',
              Option.getD_some]
            rfl
          dsimp only
          rw [bind_of_ok hput, bind_of_ok hdel]
          cases hr : resp.states[x]? with
          | none => rfl
          | some st' => rfl

/-- A state that is not remote, or that the function does not need, stays where it is. -/
theorem handleRemoteState_of_stays (h : st.location = "" ∨
    ∃ e, s.theComputer.theStateClient = some e ∧ ¬ Needs m e x st.location) :
    handleRemoteState m resp (x, st) s = .ok resp s := by
  rw [handleRemoteState_eq]
  split
  · rfl
  next hl =>
  obtain ⟨e, he, hno⟩ := h.resolve_left hl
  simp only [he]
  split
  · rfl
  next hle => rw [if_pos fun hdep => hno ⟨hl, hle, hdep⟩]

/-- One that it needs is moved. -/
theorem handleRemoteState_of_needs {repo : ExtTreeMap String String} {v : String} {st' : Rpc.State}
    (he : s.theComputer.theStateClient = some e) (hneeds : Needs m e x st.location)
    (hc : s.theStateRepos[st.location]? = some repo) (hv : repo[x]? = some v)
    (hmem : e ∈ s.theStateRepos) (hst : resp.states[x]? = some st') :
    handleRemoteState m resp (x, st) s =
      .ok { resp with states := resp.states.insert x { st' with location := e } }
        (moved st.location e x v s) := by
  obtain ⟨c', hc'⟩ := lookup_of_mem hmem
  rw [handleRemoteState_eq, if_neg hneeds.1, he]
  simp only [if_neg hneeds.2.1, if_neg (not_not.mpr hneeds.2.2), hc, hv, hc', hst]

/-- What has happened to one state if nothing has been thrown. -/
theorem handleRemoteState_cases {resp' : Rpc.LambdaResponse} {s' : System}
    (h : handleRemoteState m resp (x, st) s = .ok resp' s') :
    (st.location = "" ∨ ∃ e, s.theComputer.theStateClient = some e ∧ ¬ Needs m e x st.location) ∧
      resp' = resp ∧ s' = s ∨
    ∃ e repo v st', s.theComputer.theStateClient = some e ∧ Needs m e x st.location ∧
      s.theStateRepos[st.location]? = some repo ∧ repo[x]? = some v ∧ e ∈ s.theStateRepos ∧
      resp.states[x]? = some st' ∧
      resp' = { resp with states := resp.states.insert x { st' with location := e } } ∧
      s' = moved st.location e x v s := by
  by_cases hstays : st.location = "" ∨
      ∃ e, s.theComputer.theStateClient = some e ∧ ¬ Needs m e x st.location
  · rw [handleRemoteState_of_stays hstays] at h
    cases h
    exact .inl ⟨hstays, rfl, rfl⟩
  obtain ⟨hl, hneeds⟩ := not_or.mp hstays
  rw [handleRemoteState_eq, if_neg hl] at h
  cases he : s.theComputer.theStateClient with
  | none =>
    rw [he] at h
    cases h
  | some e =>
    have hneeds : Needs m e x st.location := by
      by_contra hno
      exact hneeds ⟨e, he, hno⟩
    simp only [he, if_neg hneeds.2.1, if_neg (not_not.mpr hneeds.2.2)] at h
    cases hc : s.theStateRepos[st.location]? with
    | none =>
      rw [hc] at h
      cases h
    | some repo =>
      simp only [hc] at h
      cases hv : repo[x]? with
      | none =>
        rw [hv] at h
        cases h
      | some v =>
        simp only [hv] at h
        cases hc' : s.theStateRepos[e]? with
        | none =>
          rw [hc'] at h
          cases h
        | some c' =>
          simp only [hc'] at h
          cases hst : resp.states[x]? with
          | none =>
            rw [hst] at h
            cases h
          | some st' =>
            rw [hst] at h
            cases h
            exact .inr ⟨e, repo, v, st', rfl, hneeds, rfl, hv, mem_of_lookup hc', rfl, rfl, rfl⟩

/-- What becomes of one state: it stays where it is, it is moved, or it cannot be. -/
theorem handleRemoteState_spec {Q : Rpc.LambdaResponse → System → Prop} {E : String → System → Prop}
    (he : s.theComputer.theStateClient = some e)
    (hstay : ¬ Needs m e x st.location → Q resp s)
    (hfail : Needs m e x st.location → (Holds s st.location x → s.theStateRepos[e]? = none) →
      ∀ err, E err s)
    (hmove : Needs m e x st.location → Holds s st.location x → ∀ v,
      (∀ st', resp.states[x]? = some st' →
        Q { resp with states := resp.states.insert x { st' with location := e } }
          (moved st.location e x v s)) ∧
      (resp.states[x]? = none → ∀ err, E err (moved st.location e x v s))) :
    wp (fun _ => False) (handleRemoteState m resp (x, st)) Q E s := by
  unfold wp
  rw [handleRemoteState_eq, he]
  dsimp only
  by_cases hl : st.location = ""
  · rw [if_pos hl]
    exact .inr (hstay fun hn => hn.1 hl)
  by_cases hle : st.location = e
  · rw [if_neg hl, if_pos hle]
    exact .inr (hstay fun hn => hn.2.1 hle)
  by_cases hdep : m.name ∉ m.dependencies.getD x []
  · rw [if_neg hl, if_neg hle, if_pos hdep]
    exact .inr (hstay fun hn => hdep hn.2.2)
  have hneeds : Needs m e x st.location := ⟨hl, hle, not_not.mp hdep⟩
  rw [if_neg hl, if_neg hle, if_neg hdep]
  cases hc : s.theStateRepos[st.location]? with
  | none =>
    have hno : ¬ Holds s st.location x := by
      rw [Holds, ExtTreeMap.getD_eq_getD_getElem?, hc]
      simp
    exact .inr (hfail hneeds (fun h => absurd h hno) _)
  | some repo =>
    have hholds : Holds s st.location x ↔ x ∈ repo := by rw [Holds, getD_of_some hc]
    dsimp only
    cases hx : repo[x]? with
    | none =>
      have hno : x ∉ repo := by
        intro hmem
        obtain ⟨v, hv⟩ := lookup_of_mem hmem
        rw [hx] at hv
        cases hv
      exact .inr (hfail hneeds (fun h => absurd (hholds.mp h) hno) _)
    | some v =>
      have hyes := hholds.mpr (mem_of_lookup hx)
      obtain ⟨hsome, hnone⟩ := hmove hneeds hyes v
      cases hc' : s.theStateRepos[e]? with
      | none => exact .inr (hfail hneeds (fun _ => hc') _)
      | some c' =>
        cases hr : resp.states[x]? with
        | none => exact .inr (hnone hr _)
        | some st' => exact .inr (hsome st' hr)

end OneState

section AllStates

variable {env : Environment} {s : System} {m : Rpc.LambdaRequest} {e : String}

/-- A function returns the states that it gets, each where it was. -/
def Copies (env : Environment) : Prop := ∀ n m resp, env.realExecution n m = .ok resp →
  ∀ x, location resp.states x = location m.states x

/-- What becomes of a state x if a function returns. -/
def Handled (m : Rpc.LambdaRequest) (e x : String) (s : System) (resp : Rpc.LambdaResponse)
    (s' : System) : Prop :=
  (∀ l, location m.states x = some l → ¬ Needs m e x l) ∧ Same x s s' ∧
      location resp.states x = location m.states x ∨
    (∃ l, location m.states x = some l ∧ Needs m e x l) ∧ Holds s' e x ∧
      location resp.states x = some e

/-- And if it does not. -/
def Failed (m : Rpc.LambdaRequest) (e x : String) (s s' : System) : Prop :=
  Same x s s' ∨ (∃ l, location m.states x = some l ∧ Needs m e x l) ∧ Holds s' e x

theorem location_insert {aStates : ExtTreeMap String Rpc.State} {x y : String} {st : Rpc.State} :
    location (aStates.insert y st) x = if x = y then some st.location else location aStates x := by
  unfold location
  rw [lookup_insert]
  split <;> rfl

/-- What has become of a state x after some of the states. -/
private def Partly (m : Rpc.LambdaRequest) (e x : String) (s : System) (l : List (String × Rpc.State))
    (resp' : Rpc.LambdaResponse) (s' : System) : Prop :=
  if x ∈ l.map Prod.fst then Handled m e x s resp' s'
  else Same x s s' ∧ location resp'.states x = location m.states x

section Partly

variable {x y : String} {st : Rpc.State} {l : List (String × Rpc.State)} {resp' : Rpc.LambdaResponse}
  {s' : System}

private theorem Partly.other (h : Partly m e x s l resp' s') (hxy : x ≠ y)
    {resp'' : Rpc.LambdaResponse} {s'' : System} (hsame : Same x s' s'')
    (hloc : location resp''.states x = location resp'.states x) :
    Partly m e x s (l ++ [(y, st)]) resp'' s'' := by
  have hkeys : x ∈ (l ++ [(y, st)]).map Prod.fst ↔ x ∈ l.map Prod.fst := by
    rw [List.map_append, List.mem_append]
    simp [hxy]
  unfold Partly at h ⊢
  by_cases hx : x ∈ l.map Prod.fst
  · rw [if_pos hx] at h
    rw [if_pos (hkeys.mpr hx)]
    rcases h with ⟨hno, hs, hl⟩ | ⟨hneeds, hholds, hl⟩
    · exact .inl ⟨hno, fun e => (hsame e).trans (hs e), hloc.trans hl⟩
    · exact .inr ⟨hneeds, (hsame _).mpr hholds, hloc.trans hl⟩
  · rw [if_neg hx] at h
    rw [if_neg fun hx' => hx (hkeys.mp hx')]
    exact ⟨fun e => (hsame e).trans (h.1 e), hloc.trans h.2⟩

private theorem Partly.failed (h : Partly m e x s l resp' s') {s'' : System}
    (hsame : Same x s' s'') : Failed m e x s s'' := by
  unfold Partly at h
  split at h
  · rcases h with ⟨-, hs, -⟩ | ⟨hneeds, hholds, -⟩
    · exact .inl fun e => (hsame e).trans (hs e)
    · exact .inr ⟨hneeds, (hsame _).mpr hholds⟩
  · exact .inl fun e => (hsame e).trans (h.1 e)

end Partly

theorem handleRemoteStates_spec (he : s.theComputer.theStateClient = some e)
    {resp : Rpc.LambdaResponse} (hresp : ∀ x, location resp.states x = location m.states x)
    (x : String) : wp (fun _ => False) (handleRemoteStates m resp)
      (fun resp' s' => Handled m e x s resp' s') (fun _ s' => Failed m e x s s') s := by
  apply wp_foldlM fun l resp' s' => s'.theComputer = s.theComputer ∧ Partly m e x s l resp' s'
  · exact fun _ _ _ h => h
  · rintro l ⟨y, st⟩ l' resp' s' hl ⟨hcomp, hI⟩
    have hkeys := not_mem_keys_of_split hl
    have hst : m.states[y]? = some st := lookup_of_split hl
    have hloc : location m.states y = some st.location := by rw [location, hst, Option.map_some]
    apply handleRemoteState_spec (hcomp ▸ he)
    · intro hno
      refine ⟨hcomp, ?_⟩
      by_cases hxy : x = y
      · subst hxy
        rw [Partly, if_neg hkeys] at hI
        rw [Partly, if_pos (by simp)]
        refine .inl ⟨fun l hl => ?_, hI.1, hI.2⟩
        rw [hloc] at hl
        exact Option.some.inj hl ▸ hno
      · exact hI.other hxy (fun _ => Iff.rfl) rfl
    · exact fun _ _ _ => hI.failed fun _ => Iff.rfl
    · intro hneeds hheld v
      by_cases hxy : x = y
      · subst hxy
        have hholds : Holds (moved st.location e x v s') e x := by
          rw [holds_moved hneeds.2.1, if_pos rfl]
          exact .inl rfl
        refine ⟨fun st' hst' => ⟨hcomp, ?_⟩, fun hnone err => .inr ⟨⟨_, hloc, hneeds⟩, hholds⟩⟩
        rw [Partly, if_pos (by simp)]
        refine .inr ⟨⟨_, hloc, hneeds⟩, hholds, ?_⟩
        rw [location_insert, if_pos rfl]
      · have hsame : Same x s' (moved st.location e y v s') := same_moved hneeds.2.1 hxy
        refine ⟨fun st' hst' => ⟨hcomp, hI.other hxy hsame ?_⟩, fun _ _ => hI.failed hsame⟩
        rw [location_insert, if_neg hxy]
  · intro resp' s' hI
    obtain ⟨-, hI⟩ := hI
    unfold Partly at hI
    split at hI
    · exact hI
    · next hx =>
      refine .inl ⟨fun l hl => ?_, hI⟩
      obtain ⟨st, hst, rfl⟩ := Option.map_eq_some_iff.mp hl
      exact absurd (List.mem_map.mpr ⟨(x, st), mem_toList.mpr hst, rfl⟩) hx
  · refine ⟨rfl, ?_⟩
    rw [Partly, if_neg (by simp)]
    exact ⟨fun _ => Iff.rfl, hresp x⟩

theorem blockingExecution_spec (henv : Copies env) (he : s.theComputer.theStateClient = some e)
    (x : String) : wp (fun _ => False) (blockingExecution env m)
      (fun resp' s' => Handled m e x s resp' s') (fun _ s' => Failed m e x s s') s := by
  unfold blockingExecution
  apply wp_get_bind
  cases hrun : env.realExecution s.theLog.length m with
  | error err => exact wp_throw (.inl fun _ => Iff.rfl)
  | ok resp => exact handleRemoteStates_spec he (henv _ _ _ hrun) x

/-- A function that finds all remote states where its request says does not fail
because of them. -/
theorem handleRemoteStates_ok (he : s.theComputer.theStateClient = some e)
    (hserver : ∃ c, s.theStateRepos[e]? = some c) {resp : Rpc.LambdaResponse}
    (hresp : ∀ x, location resp.states x = location m.states x)
    (hheld : ∀ x l, location m.states x = some l → l ≠ "" → Holds s l x) :
    wp (fun _ => False) (handleRemoteStates m resp) (fun _ _ => True) (fun _ _ => False) s := by
  apply wp_foldlM fun l resp' s' => s'.theComputer = s.theComputer ∧
    (∃ c, s'.theStateRepos[e]? = some c) ∧ (∀ x, (location resp'.states x).isSome =
      (location m.states x).isSome) ∧ ∀ x, x ∉ l.map Prod.fst → Same x s s'
  · exact fun _ _ _ h => h
  · rintro l ⟨y, st⟩ l' resp' s' hl ⟨hcomp, hserv, hlocs, hsame⟩
    have hkeys := not_mem_keys_of_split hl
    have hst : m.states[y]? = some st := lookup_of_split hl
    have hloc : location m.states y = some st.location := by rw [location, hst, Option.map_some]
    have hrest : ∀ x, x ∉ (l ++ [(y, st)]).map Prod.fst → x ≠ y ∧ x ∉ l.map Prod.fst := by
      intro x hx
      rw [List.map_append, List.mem_append, not_or] at hx
      exact ⟨fun h => hx.2 (by simp [h]), hx.1⟩
    apply handleRemoteState_spec (hcomp ▸ he)
    · exact fun _ => ⟨hcomp, hserv, hlocs, fun x hx => hsame x (hrest x hx).2⟩
    · intro hneeds hno err
      have hholds := (hsame y hkeys st.location).mpr (hheld y _ hloc hneeds.1)
      obtain ⟨c, hc⟩ := hserv
      rw [hno hholds] at hc
      cases hc
    · intro hneeds hheld' v
      constructor
      · intro st' hst'
        refine ⟨hcomp, ?_, fun x => ?_, fun x hx => ?_⟩
        · simp only [moved, lookup_insert, if_neg (Ne.symm hneeds.2.1), if_true]
          exact ⟨_, rfl⟩
        · rw [location_insert]
          split
          · next h => rw [h, hloc]; rfl
          · exact hlocs x
        · have hmoved : Same x s' (moved st.location e y v s') :=
            same_moved hneeds.2.1 (hrest x hx).1
          exact fun e' => (hmoved e').trans (hsame x (hrest x hx).2 e')
      · intro hnone err
        have hsome := hlocs y
        rw [hloc, location, hnone] at hsome
        cases hsome
  · exact fun _ _ _ => trivial
  · exact ⟨rfl, hserver, fun x => by rw [hresp x], fun _ _ _ => Iff.rfl⟩

end AllStates

end ServerlessEdge.Computer
