import ServerlessEdge.Computer.RemoteStates

/-! Which states a call of handleRemoteStates retrieves, and what it leaves alone. -/
namespace ServerlessEdge.Computer
open Std Library Messages EdgeComputer Triple Maps

/-- What a state server has under a name. -/
def content (s : System) (aServerEndpoint aName : String) : Option String :=
  (s.theStateRepos.getD aServerEndpoint ∅)[aName]?

/-- A location that is neither the message nor the local state server. -/
def Elsewhere (s : System) (l : String) : Prop := l ≠ "" ∧ s.theComputer.theStateClient ≠ some l

/-- A request with neither a chain nor a DAG. -/
def Plain (m : Rpc.LambdaRequest) : Prop := m.chain = [] ∧ m.dag.names = []

/-- The current function depends on the state x. -/
def Depends (m : Rpc.LambdaRequest) (x : String) : Prop := m.name ∈ m.dependencies.getD x []

section Effects

variable (x l : String) (resp : Rpc.LambdaResponse) (s : System) (resp' : Rpc.LambdaResponse)
  (s' : System)

structure Unaffected : Prop where
  contents : ∀ l, content s' l x = content s l x
  response : resp'.states[x]? = resp.states[x]?

/-- The state x has been moved from the server l to the local one. -/
def Retrieved : Prop := ∃ e v, s.theComputer.theStateClient = some e ∧ content s l x = some v ∧
  content s' e x = some v ∧ content s' l x = none ∧
  (∀ l', l' ≠ e → l' ≠ l → content s' l' x = content s l' x) ∧
  ∃ st, resp.states[x]? = some st ∧ resp'.states[x]? = some { st with location := e }

end Effects

/-- The promise of the header: all remote states are retrieved, but with a chain or
a DAG only those that the current function depends on; nothing else changes. -/
structure Documented (m : Rpc.LambdaRequest) (resp : Rpc.LambdaResponse) (s : System)
    (resp' : Rpc.LambdaResponse) (s' : System) : Prop where
  retrieved : ∀ x st, m.states[x]? = some st → Elsewhere s st.location → Plain m ∨ Depends m x →
    Retrieved x st.location resp s resp' s'
  unaffected : ∀ x, (∀ st, m.states[x]? = some st → Elsewhere s st.location →
    ¬ (Plain m ∨ Depends m x)) → Unaffected x resp s resp' s'

section Contents

variable {s : System} {l e x v : String}

theorem content_moved (hle : l ≠ e) (e' y : String) : content (moved l e x v s) e' y =
    if y = x ∧ e' = e then some v else if y = x ∧ e' = l then none else content s e' y := by
  simp only [content, moved, ExtTreeMap.getD_insert, LawfulEqCmp.compare_eq_iff_eq, if_neg hle.symm]
  by_cases hl : e' = l
  · subst hl
    rw [if_pos rfl, lookup_erase]
    simp only [hle, and_false, and_true, if_false]
  · rw [if_neg (Ne.symm hl)]
    by_cases he : e' = e
    · subst he
      rw [if_pos rfl, lookup_insert]
      simp only [hl, and_true, and_false, if_false]
    · rw [if_neg (Ne.symm he)]
      simp only [he, hl, and_false, if_false]

end Contents

section OneState

variable {s s' : System} {m : Rpc.LambdaRequest} {resp resp' : Rpc.LambdaResponse} {x : String}
  {st : Rpc.State}

/-- What has happened to one state if nothing has been thrown. -/
theorem handleRemoteState_ok (h : handleRemoteState m resp (x, st) s = .ok resp' s') :
    ¬ (Elsewhere s st.location ∧ Depends m x) ∧ resp' = resp ∧ s' = s ∨
    (Elsewhere s st.location ∧ Depends m x) ∧ ∃ e v st', s.theComputer.theStateClient = some e ∧
      st.location ≠ e ∧ content s st.location x = some v ∧ resp.states[x]? = some st' ∧
      resp' = { resp with states := resp.states.insert x { st' with location := e } } ∧
      s' = moved st.location e x v s := by
  rcases handleRemoteState_cases h with ⟨hstays, hsame⟩ |
    ⟨e, repo, v, st', he, hneeds, hc, hv, -, hst, hresp, hs⟩
  · refine .inl ⟨fun hr => ?_, hsame⟩
    obtain ⟨e, he, hno⟩ := hstays.resolve_left hr.1.1
    exact hno ⟨hr.1.1, fun heq => hr.1.2 (heq ▸ he), hr.2⟩
  · have helse : Elsewhere s st.location :=
      ⟨hneeds.1, fun heq => hneeds.2.1 (Option.some.inj (heq.symm.trans he))⟩
    have hcontent : content s st.location x = some v := by
      rw [content, ExtTreeMap.getD_eq_getD_getElem?, hc, Option.getD_some, hv]
    exact .inr ⟨⟨helse, hneeds.2.2⟩, e, v, st', he, hneeds.2.1, hcontent, hst, hresp, hs⟩

end OneState

section Effects

variable {m : Rpc.LambdaRequest} {x y l : String} {resp resp' resp'' : Rpc.LambdaResponse}
  {s s' s'' : System}

theorem Unaffected.trans (h : Unaffected x resp s resp' s') (h' : Unaffected x resp' s' resp'' s'') :
    Unaffected x resp s resp'' s'' where
  contents l := (h'.contents l).trans (h.contents l)
  response := h'.response.trans h.response

theorem Retrieved.trans (h : Retrieved x l resp s resp' s') (h' : Unaffected x resp' s' resp'' s'') :
    Retrieved x l resp s resp'' s'' := by
  obtain ⟨e, v, he, hv, hlocal, hgone, hothers, st, hst, hst'⟩ := h
  refine ⟨e, v, he, hv, (h'.contents e).trans hlocal, (h'.contents l).trans hgone, ?_, st, hst,
    h'.response.trans hst'⟩
  intro l' hle hl
  exact (h'.contents l').trans (hothers l' hle hl)

/-- Moving one state leaves the others where they are. -/
theorem unaffected_moved {e v : String} {st : Rpc.State} (hle : l ≠ e) (hxy : x ≠ y) :
    Unaffected x resp s { resp with states := resp.states.insert y st } (moved l e y v s) where
  contents l' := by simp only [content_moved hle, hxy, false_and, if_false]
  response := by rw [lookup_insert, if_neg hxy]

theorem retrieved_moved {e v : String} {st : Rpc.State} (hle : l ≠ e)
    (he : s.theComputer.theStateClient = some e) (hv : content s l x = some v)
    (hst : resp.states[x]? = some st) : Retrieved x l resp s
      { resp with states := resp.states.insert x { st with location := e } } (moved l e x v s) := by
  refine ⟨e, v, he, hv, ?_, ?_, ?_, st, hst, by rw [lookup_insert, if_pos rfl]⟩
  · rw [content_moved hle, if_pos ⟨rfl, rfl⟩]
  · rw [content_moved hle, if_neg fun h => hle h.2, if_pos ⟨rfl, rfl⟩]
  · intro l' hle' hl
    rw [content_moved hle, if_neg fun h => hle' h.2, if_neg fun h => hl h.2]

theorem Unaffected.retrieved (h : Unaffected x resp s resp' s') (hcomp : s'.theComputer = s.theComputer)
    (h' : Retrieved x l resp' s' resp'' s'') : Retrieved x l resp s resp'' s'' := by
  obtain ⟨e, v, he, hv, hlocal, hgone, hothers, st, hst, hst'⟩ := h'
  refine ⟨e, v, hcomp ▸ he, (h.contents l).symm.trans hv, hlocal, hgone, ?_, st,
    h.response.symm.trans hst, hst'⟩
  intro l' hle hl
  exact (hothers l' hle hl).trans (h.contents l')

theorem Retrieved.not_unaffected (h : Retrieved x l resp s resp' s') :
    ¬ Unaffected x resp s resp' s' := by
  intro h'
  obtain ⟨e, v, -, hv, -, hgone, -⟩ := h
  rw [h'.contents l, hv] at hgone
  cases hgone

/-- What has become of the state x once the loop has passed it. -/
def Settled (m : Rpc.LambdaRequest) (x : String) (resp : Rpc.LambdaResponse) (s : System)
    (resp' : Rpc.LambdaResponse) (s' : System) : Prop :=
  (∃ st, m.states[x]? = some st ∧ Elsewhere s st.location ∧ Depends m x ∧
    Retrieved x st.location resp s resp' s') ∨
  (∀ st, m.states[x]? = some st → Elsewhere s st.location → ¬ Depends m x) ∧
    Unaffected x resp s resp' s'

theorem Settled.trans (h : Settled m x resp s resp' s') (h' : Unaffected x resp' s' resp'' s'') :
    Settled m x resp s resp'' s'' := by
  rcases h with ⟨st, hst, hr, hd, hx⟩ | ⟨hno, hx⟩
  · exact .inl ⟨st, hst, hr, hd, hx.trans h'⟩
  · exact .inr ⟨hno, hx.trans h'⟩

/-- The step of the loop for the state x itself. -/
theorem settled_step {st : Rpc.State} (hst : m.states[x]? = some st)
    (hcomp : s'.theComputer = s.theComputer) (h : Unaffected x resp s resp' s')
    (hstep : handleRemoteState m resp' (x, st) s' = .ok resp'' s'') :
    Settled m x resp s resp'' s'' := by
  have helse : Elsewhere s' st.location ↔ Elsewhere s st.location := by rw [Elsewhere, hcomp, Elsewhere]
  rcases handleRemoteState_ok hstep with ⟨hno, rfl, rfl⟩ | ⟨⟨hr, hd⟩, e, v, st', he, hle, hv, hst', rfl, rfl⟩
  · refine .inr ⟨?_, h⟩
    intro st₁ hst₁ hr hd
    obtain rfl := Option.some.inj (hst.symm.trans hst₁)
    exact hno ⟨helse.mpr hr, hd⟩
  · exact .inl ⟨st, hst, helse.mp hr, hd,
      h.retrieved hcomp (retrieved_moved hle he hv hst')⟩

/-- The step of the loop for another state. -/
theorem unaffected_step {st : Rpc.State} (hxy : x ≠ y)
    (hstep : handleRemoteState m resp (y, st) s = .ok resp' s') : Unaffected x resp s resp' s' := by
  rcases handleRemoteState_ok hstep with ⟨-, rfl, rfl⟩ | ⟨-, e, v, st', -, hle, -, -, rfl, rfl⟩
  · exact ⟨fun _ => rfl, rfl⟩
  · exact unaffected_moved hle hxy

theorem handleRemoteState_theComputer {st : Rpc.State}
    (hstep : handleRemoteState m resp (y, st) s = .ok resp' s') :
    s'.theComputer = s.theComputer := by
  rcases handleRemoteState_ok hstep with ⟨-, -, rfl⟩ | ⟨-, e, v, st', -, -, -, -, -, rfl⟩ <;> rfl

end Effects

section AllStates

variable {m : Rpc.LambdaRequest} {resp resp' : Rpc.LambdaResponse} {s s' : System}

/-- What a whole call does to a state. -/
theorem handleRemoteStates_settled (h : handleRemoteStates m resp s = .ok resp' s') (x : String) :
    Settled m x resp s resp' s' := by
  suffices hw : wp (fun _ => False) (handleRemoteStates m resp)
      (fun resp' s' => Settled m x resp s resp' s') (fun _ _ => True) s from wp_of_ok hw h id
  apply wp_foldlM fun l resp₁ s₁ => s₁.theComputer = s.theComputer ∧
    if x ∈ l.map Prod.fst then Settled m x resp s resp₁ s₁ else Unaffected x resp s resp₁ s₁
  · exact fun _ _ _ h => h
  · rintro l ⟨y, st⟩ l' resp₁ s₁ hl ⟨hcomp, hI⟩
    have hst : m.states[y]? = some st := lookup_of_split hl
    apply wp_partial
    intro resp₂ s₂ hstep
    refine ⟨(handleRemoteState_theComputer hstep).trans hcomp, ?_⟩
    by_cases hxy : x = y
    · subst hxy
      rw [if_neg (not_mem_keys_of_split hl)] at hI
      rw [if_pos (by simp)]
      exact settled_step hst hcomp hI hstep
    · have hother := unaffected_step hxy hstep
      have hkeys : x ∈ (l ++ [(y, st)]).map Prod.fst ↔ x ∈ l.map Prod.fst := by simp [hxy]
      by_cases hx : x ∈ l.map Prod.fst
      · rw [if_pos hx] at hI
        rw [if_pos (hkeys.mpr hx)]
        exact hI.trans hother
      · rw [if_neg hx] at hI
        rw [if_neg fun h => hx (hkeys.mp h)]
        exact hI.trans hother
  · intro resp₁ s₁ hI
    obtain ⟨-, hI⟩ := hI
    split at hI
    · exact hI
    · next hx =>
      refine .inr ⟨fun st hst _ _ => ?_, hI⟩
      exact hx (List.mem_map.mpr ⟨(x, st), mem_toList.mpr hst, rfl⟩)
  · exact ⟨rfl, by rw [if_neg (by simp)]; exact ⟨fun _ => rfl, rfl⟩⟩

/-- The promise is kept exactly if a request with neither a chain nor a DAG lists its
function under each of its remote states. -/
theorem handleRemoteStates_documented_iff (h : handleRemoteStates m resp s = .ok resp' s') :
    Documented m resp s resp' s' ↔
      (Plain m → ∀ x st, m.states[x]? = some st → Elsewhere s st.location → Depends m x) := by
  constructor
  · intro hdoc hplain x st hst helse
    have hx := hdoc.retrieved x st hst helse (.inl hplain)
    rcases handleRemoteStates_settled h x with ⟨_, _, _, hdep, _⟩ | ⟨_, hno⟩
    · exact hdep
    · exact absurd hno hx.not_unaffected
  · intro hall
    refine ⟨fun x st hst helse hwanted => ?_, fun x hno => ?_⟩
    · have hdep : Depends m x := hwanted.elim (fun hplain => hall hplain x st hst helse) id
      rcases handleRemoteStates_settled h x with ⟨st', hst', _, _, hx⟩ | ⟨hno, _⟩
      · obtain rfl := Option.some.inj (hst.symm.trans hst')
        exact hx
      · exact absurd hdep (hno st hst helse)
    · rcases handleRemoteStates_settled h x with ⟨st, hst, helse, hdep, _⟩ | ⟨_, hx⟩
      · exact absurd (.inr hdep) (hno st hst helse)
      · exact hx

end AllStates

/-- A request for f0 with a state on server1. -/
def retrievalRequest (aChain : List String) (aDependencies : ExtTreeMap String (List String)) :
    Rpc.LambdaRequest where
  name := "f0"
  states := (∅ : ExtTreeMap String Rpc.State).insert "s0" { location := "server1", content := "" }
  chain := aChain
  dependencies := aDependencies

def retrievalResponse : Rpc.LambdaResponse where
  states := (∅ : ExtTreeMap String Rpc.State).insert "s0" { location := "server1", content := "" }

/-- A computer whose state server is server0. -/
def retrievalSystem : System where
  theComputer := ⟨"host0:6473", some "server0", true, [], ∅⟩
  theStateRepos := .ofList [("server0", ∅), ("server1", (∅ : ExtTreeMap String String).insert "s0" "v0")]
  theRunning := []
  theMessages := []
  theLog := []

theorem handleRemoteStates_documented_chain : ∃ resp' s',
    handleRemoteStates (retrievalRequest ["f0", "f1"] (.ofList [("s0", ["f0"])])) retrievalResponse
      retrievalSystem = .ok resp' s' ∧
    Documented (retrievalRequest ["f0", "f1"] (.ofList [("s0", ["f0"])])) retrievalResponse
      retrievalSystem resp' s' := by
  refine ⟨_, _, rfl, (handleRemoteStates_documented_iff rfl).mpr ?_⟩
  rintro ⟨hchain, -⟩
  cases hchain

/-- Without a chain or a DAG the state of the request stays on server1. -/
theorem not_handleRemoteStates_documented : ¬ ∀ m resp s resp' s',
    (∀ x, x ∈ resp.states ↔ x ∈ m.states) → handleRemoteStates m resp s = .ok resp' s' →
    Documented m resp s resp' s' := by
  intro h
  have hdoc : Documented (retrievalRequest [] ∅) retrievalResponse retrievalSystem
      retrievalResponse retrievalSystem := h _ _ _ _ _ (fun _ => Iff.rfl) rfl
  have helse : Elsewhere retrievalSystem "server1" := ⟨by decide, by decide⟩
  obtain ⟨e, v, -, hv, -, hgone, -⟩ := hdoc.retrieved "s0" _ rfl helse (.inl ⟨rfl, rfl⟩)
  rw [hv] at hgone
  cases hgone

end ServerlessEdge.Computer
