import ServerlessEdge.Computer.ChainExecution
import ServerlessEdge.Computer.RemoteStates
import ServerlessEdge.Simulation.Client

/-! The client that invokes the functions of a chain one by one and the computer that
goes through the whole chain come to the same end. -/
namespace ServerlessEdge.Simulation
open Std (ExtTreeMap)
open Library Maps Triple Messages Model Computer EdgeComputer

/-- What a function returns: its output and data, and the states it depends on. -/
structure Outcome where
  output : String
  dataout : String
  states : String → State

/-- A function of the name, the input, the data and the states depended on. -/
abbrev Behaviour := String → String → String → ExtTreeMap String State → Outcome

/-- A function depends on a state. -/
def dependsOn (c : Chain) (f x : String) : Bool := f ∈ c.theStates.theDependencies.getD x []

/-- The functions of a chain behave alike in all executions: they do not fail, they change only
the states that they depend on, and they return all states received. -/
def Implements (env : Environment) (c : Chain) (b : Behaviour) : Prop :=
  ∀ n m q, LambdaRequest.ofProtobuf m = .ok q → q.theName ∈ c.theFunctions →
    ∃ resp, env.realExecution n m = .ok resp ∧ resp.retcode = "OK" ∧
      let o := b q.theName q.theInput q.theDataIn (q.theStates.filter fun x _ => dependsOn c q.theName x)
      resp.output = o.output ∧ resp.dataout = o.dataout ∧ deserializeStates resp.states =
        q.theStates.map fun x st => if dependsOn c q.theName x then o.states x else st

section OneFunction

/-- The state of a name in a response. -/
def received (resp : Rpc.LambdaResponse) (x : String) : Option State :=
  resp.states[x]?.map State.ofProtobuf

/-- The two responses and computers, while the states of a function are moved: one with all
states, and one with those that the function depends on. -/
structure Alike (p : String → Bool) (re rc re' : Rpc.LambdaResponse) (s' : System)
    (rc' : Rpc.LambdaResponse) (sc' : System) : Prop where
  client : sc'.theComputer.theStateClient = s'.theComputer.theStateClient
  repos : sc'.theStateRepos = s'.theStateRepos
  outputs : re'.output = re.output ∧ re'.dataout = re.dataout
  outputsc : rc'.output = rc.output ∧ rc'.dataout = rc.dataout ∧ rc'.retcode = rc.retcode
  keys : ∀ x, (received re' x).isSome = (received re x).isSome
  depended : ∀ x, p x = true → received rc' x = received re' x
  free : ∀ x, p x = false → received re' x = received re x ∧ received rc' x = received rc x

variable {m mc : Rpc.LambdaRequest} {re rc re' rc' : Rpc.LambdaResponse} {s sc s' : System}
  {p : String → Bool} {x : String} {st : Rpc.State}

theorem received_insert (resp : Rpc.LambdaResponse) (x : String) (st : Rpc.State) (y : String) :
    received { resp with states := resp.states.insert x st } y =
      if y = x then some (.ofProtobuf st) else received resp y := by
  unfold received
  rw [lookup_insert]
  split <;> rfl

/-- A state that the function does not depend on stays where it is. -/
theorem handleRemoteState_free (hfree : m.name ∉ m.dependencies.getD x [])
    (h : handleRemoteState m re (x, st) s = .ok re' s') : re' = re ∧ s' = s := by
  rcases handleRemoteState_cases h with ⟨-, hsame⟩ | ⟨e, repo, v, st', -, hneeds, -⟩
  · exact hsame
  · exact absurd hneeds.2.2 hfree

/-- One that it depends on is moved alike. -/
theorem handleRemoteState_depended (hp : p x = true) (hdep : m.name ∈ m.dependencies.getD x [])
    (hdepc : mc.name ∈ mc.dependencies.getD x []) {re1 rc1 : Rpc.LambdaResponse} {s1 sc1 : System}
    (hR : Alike p re rc re1 s1 rc1 sc1) (h : handleRemoteState m re1 (x, st) s1 = .ok re' s') :
    ∃ rc' sc', handleRemoteState mc rc1 (x, st) sc1 = .ok rc' sc' ∧ Alike p re rc re' s' rc' sc' := by
  have hneeds_iff (e : String) : Needs mc e x st.location ↔ Needs m e x st.location :=
    and_congr_right' (and_congr_right' (iff_of_true hdepc hdep))
  rcases handleRemoteState_cases h with ⟨hstays, rfl, rfl⟩ |
    ⟨e, repo, v, st', he, hneeds, hc, hv, hmem, hr, rfl, rfl⟩
  · refine ⟨rc1, sc1, handleRemoteState_of_stays (hstays.imp_right fun ⟨e, he, hno⟩ => ?_), hR⟩
    exact ⟨e, hR.client.trans he, fun hneeds => hno ((hneeds_iff e).mp hneeds)⟩
  · have hre : received re1 x = some (.ofProtobuf st') := by rw [received, hr]; rfl
    have hsame := hR.depended x hp
    rw [hre, received, Option.map_eq_some_iff] at hsame
    obtain ⟨stc, hstc, hof⟩ := hsame
    refine ⟨_, _, handleRemoteState_of_needs (hR.client.trans he) ((hneeds_iff e).mpr hneeds)
      (by rw [hR.repos, hc]) hv (by rwa [hR.repos]) hstc, hR.client, ?_, hR.outputs, hR.outputsc,
      fun y => ?_, fun y hy => ?_, fun y hy => ?_⟩
    · simp only [moved, hR.repos]
    · rw [received_insert]
      split
      · next hy =>
        rw [hy, ← hR.keys x, hre]
        rfl
      · exact hR.keys y
    · rw [received_insert, received_insert]
      split
      · simp only [State.ofProtobuf, State.mk.injEq] at hof ⊢
        rw [hof.2]
      · exact hR.depended y hy
    · have hne : y ≠ x := by
        rintro rfl
        rw [hp] at hy
        cases hy
      rw [received_insert, received_insert, if_neg hne, if_neg hne]
      exact hR.free y hy

theorem handleRemoteStates_alike (rc : Rpc.LambdaResponse)
    (hstates : mc.states = m.states.filter fun x _ => p x)
    (hdep : ∀ x, m.name ∈ m.dependencies.getD x [] ↔ p x = true)
    (hdepc : ∀ x, p x = true → mc.name ∈ mc.dependencies.getD x [])
    (hclient : sc.theComputer.theStateClient = s.theComputer.theStateClient)
    (hrepos : sc.theStateRepos = s.theStateRepos)
    (hsame : ∀ x, p x = true → received rc x = received re x)
    (h : handleRemoteStates m re s = .ok re' s') : ∃ rc' sc',
      handleRemoteStates mc rc sc = .ok rc' sc' ∧ Alike p re rc re' s' rc' sc' := by
  unfold handleRemoteStates at h ⊢
  rw [hstates, ExtTreeMap.toList_filter]
  apply foldlM_filter_sim (R := fun re' s' rc' sc' => Alike p re rc re' s' rc' sc') ?_ ?_ ?_ h
  · rintro ⟨x, st⟩ - hp re1 s1 rc1 sc1 re2 s2 hR hrun
    have hfree : m.name ∉ m.dependencies.getD x [] := by
      rw [hdep, hp]
      exact Bool.false_ne_true
    obtain ⟨rfl, rfl⟩ := handleRemoteState_free hfree hrun
    exact hR
  · rintro ⟨x, st⟩ - hp re1 s1 rc1 sc1 re2 s2 hR hrun
    exact handleRemoteState_depended hp ((hdep x).mpr hp) (hdepc x hp) hR hrun
  · exact ⟨hclient, hrepos, ⟨rfl, rfl⟩, ⟨rfl, rfl, rfl⟩, fun _ => rfl, hsame, fun _ _ => ⟨rfl, rfl⟩⟩

theorem received_ofProtobuf (resp : Rpc.LambdaResponse) (x : String) :
    received resp x = (deserializeStates resp.states)[x]? := by
  rw [deserializeStates, ExtTreeMap.getElem?_map]
  rfl

/-- A function that gets only the states that it depends on returns the same as one that
gets them all, as far as they are concerned. -/
theorem function_agrees {env : Environment} {c : Chain} {b : Behaviour} (henv : Implements env c b)
    {q qc : LambdaRequest} (hq : LambdaRequest.ofProtobuf m = .ok q)
    (hqc : LambdaRequest.ofProtobuf mc = .ok qc) (hf : q.theName ∈ c.theFunctions)
    (hname : qc.theName = q.theName) (hinput : qc.theInput = q.theInput)
    (hdatain : qc.theDataIn = q.theDataIn)
    (hstates : mc.states = m.states.filter fun x _ => dependsOn c q.theName x)
    (hdep : ∀ x, m.name ∈ m.dependencies.getD x [] ↔ dependsOn c q.theName x = true)
    (hdepc : ∀ x, dependsOn c q.theName x = true → mc.name ∈ mc.dependencies.getD x [])
    (hclient : sc.theComputer.theStateClient = s.theComputer.theStateClient)
    (hrepos : sc.theStateRepos = s.theStateRepos) {resp : Rpc.LambdaResponse}
    (hrun : blockingExecution env m s = .ok resp s') : ∃ respc sc',
      blockingExecution env mc sc = .ok respc sc' ∧ respc.retcode = "OK" ∧
      respc.output = resp.output ∧ respc.dataout = resp.dataout ∧
      sc'.theComputer.theStateClient = s'.theComputer.theStateClient ∧
      sc'.theStateRepos = s'.theStateRepos ∧
      (∀ x, (received resp x).isSome = (q.theStates[x]?).isSome) ∧
      (∀ x, dependsOn c q.theName x = true → received respc x = received resp x) ∧
      ∀ x, dependsOn c q.theName x = false →
        received resp x = q.theStates[x]? ∧ received respc x = none := by
  obtain ⟨re, hre, -, hout, hdata, hres⟩ := henv s.theLog.length m q hq hf
  obtain ⟨rc, hrc, hretcode, houtc, hdatac, hresc⟩ :=
    henv sc.theLog.length mc qc hqc (by rw [hname]; exact hf)
  -- the states of the two requests
  have hqstates := (LambdaRequest.ofProtobuf_fields hq).2.2.2
  have hqcstates := (LambdaRequest.ofProtobuf_fields hqc).2.2.2
  have hlookup (x : String) : qc.theStates[x]? =
      if dependsOn c q.theName x = true then q.theStates[x]? else none := by
    rw [hqcstates, hqstates, deserializeStates, deserializeStates, ExtTreeMap.getElem?_map,
      ExtTreeMap.getElem?_map, hstates, ExtTreeMap.getElem?_filter']
    split
    · next hx => cases m.states[x]? <;> simp [hx]
    · next hx => cases m.states[x]? <;> simp [hx]
  have hfiltered : (qc.theStates.filter fun x _ => dependsOn c qc.theName x) =
      q.theStates.filter fun x _ => dependsOn c q.theName x := by
    apply ExtTreeMap.ext_getElem?
    intro x
    rw [ExtTreeMap.getElem?_filter', ExtTreeMap.getElem?_filter', hlookup, hname]
    by_cases hx : dependsOn c q.theName x = true
    · rw [if_pos hx]
    · cases q.theStates[x]? <;> simp [hx]
  rw [hname, hinput, hdatain] at houtc hdatac hresc
  rw [hname] at hfiltered
  rw [hfiltered] at houtc hdatac hresc
  have hreceived (x : String) : received re x = q.theStates[x]?.map fun st =>
      if dependsOn c q.theName x = true then (b q.theName q.theInput q.theDataIn
        (q.theStates.filter fun x _ => dependsOn c q.theName x)).states x else st := by
    rw [received_ofProtobuf, hres, ExtTreeMap.getElem?_map]
  have hreceivedc (x : String) : received rc x = qc.theStates[x]?.map fun st =>
      if dependsOn c q.theName x = true then (b q.theName q.theInput q.theDataIn
        (q.theStates.filter fun x _ => dependsOn c q.theName x)).states x else st := by
    rw [received_ofProtobuf, hresc, ExtTreeMap.getElem?_map]
  unfold blockingExecution at hrun ⊢
  rw [get_bind_apply, hre] at hrun
  rw [get_bind_apply, hrc]
  obtain ⟨rc', sc', hrunc, halike⟩ := handleRemoteStates_alike rc hstates hdep hdepc hclient hrepos
    (fun x hx => by rw [hreceivedc, hreceived, hlookup, if_pos hx]) hrun
  refine ⟨rc', sc', hrunc, halike.outputsc.2.2.trans hretcode, ?_, ?_, halike.client, halike.repos,
    fun x => ?_, halike.depended, fun x hx => ⟨?_, ?_⟩⟩
  · rw [halike.outputsc.1, houtc, halike.outputs.1, hout]
  · rw [halike.outputsc.2.1, hdatac, halike.outputs.2, hdata]
  · rw [halike.keys, hreceived, Option.isSome_map]
  · rw [(halike.free x hx).1, hreceived]
    cases q.theStates[x]? <;> simp [hx]
  · rw [(halike.free x hx).2, hreceivedc, hlookup, if_neg (by simp [hx])]
    rfl

end OneFunction

section Loops

open Client

variable {env : Environment} {c : Chain} {b : Behaviour} {aUuids : Nat → String} {l0 l : Loop}
  {r : LambdaRequest} {s s' : System} {resps : List Rpc.LambdaResponse}

theorem allStates_of_dependsOn {f x : String} (h : dependsOn c f x = true) :
    x ∈ c.theStates.allStates false := by
  apply States.mem_allStates.mpr
  rw [dependsOn, decide_eq_true_eq] at h
  exact List.ne_nil_of_mem h

/-- What the computer does with a function that the client waits for. -/
theorem process_single {m : Rpc.LambdaRequest} {resp : Rpc.LambdaResponse} (hchain : m.chain.length = 1)
    (hdag : m.dag = {}) (hcallback : m.callback = "") (hindex : m.nextfunctionindex = 0)
    (hdry : m.dry = false) (hrun : blockingExecution env m s = .ok resp s') :
    process env m s = ({ resp with hops := (m.hops + 1) % 2 ^ 32 }, s') := by
  have hvalid : checkRequest m = .ok () := by
    apply checkRequest_ok.mpr
    rw [hchain, hdag, hindex]
    exact ⟨.inr rfl, .inl ⟨Nat.le_refl 1, Nat.zero_le 1⟩, .inr Nat.one_pos, .inl (Nat.zero_le 1)⟩
  simp only [process, hvalid, hdry, hcallback, ne_eq, not_true_eq_false, Bool.false_eq_true, if_false,
    hrun]

/-- The states of an invocation, as a computer has them. -/
def carried (r : LambdaRequest) (resps : List Rpc.LambdaResponse) : ExtTreeMap String State :=
  deserializeStates (invocation r resps).states

theorem carried_states (r : LambdaRequest) (resps : List Rpc.LambdaResponse) :
    (invocation r resps).states = serializeStates (carried r resps) := by
  unfold carried
  cases resps with
  | nil =>
    show serializeStates r.theStates = serializeStates (deserializeStates (serializeStates r.theStates))
    rw [deserializeStates_serializeStates]
  | cons resp earlier =>
    show serializeStates (deserializeStates resp.states) = serializeStates
      (deserializeStates (serializeStates (deserializeStates resp.states)))
    rw [deserializeStates_serializeStates]

theorem carried_cons (r : LambdaRequest) (resp : Rpc.LambdaResponse)
    (earlier : List Rpc.LambdaResponse) : carried r (resp :: earlier) = deserializeStates resp.states :=
  deserializeStates_serializeStates _

/-- The loop of the client has got as far as the computer. -/
structure Sim (env : Environment) (c : Chain) (aUuids : Nat → String) (l0 : Loop) (r : LambdaRequest)
    (s : System) (resps : List Rpc.LambdaResponse) (l : Loop) : Prop where
  run : functionLoop env c aUuids c.theFunctions l0 =
    functionLoop env c aUuids (c.theFunctions.drop resps.length) l
  client : l.theSystem.theComputer.theStateClient = s.theComputer.theStateClient
  repos : l.theSystem.theStateRepos = s.theStateRepos
  input : l.myInput = (invocation r resps).input
  datain : l.myDataIn = (invocation r resps).datain
  known : ∀ x ∈ c.theStates.allStates false, x ∈ carried r resps
  states : ∀ x ∈ c.theStates.allStates false, l.theLastStates[x]? = (carried r resps)[x]?
  resp : ∀ resp earlier, resps = resp :: earlier → ∃ respc, l.myResp = some respc ∧
    respc.output = resp.output ∧ respc.dataout = resp.dataout

/-- What the client sends for a function, and what it gets. -/
theorem functionRequest_ok (f aUuid : String)
    (hlast : ∀ x ∈ c.theStates.states f, x ∈ l.theLastStates) : ∃ qc, functionRequest c aUuid f l = .ok qc ∧
      LambdaRequest.ofProtobuf qc.toProtobuf = .ok { qc with theForward := true } ∧
      qc.theName = f ∧ qc.theInput = l.myInput ∧ qc.theDataIn = l.myDataIn ∧
      (∀ x : String, qc.theStates[x]? = if dependsOn c f x = true then l.theLastStates[x]? else none) ∧
      (∀ x, dependsOn c f x = true → qc.toProtobuf.name ∈ qc.toProtobuf.dependencies.getD x []) ∧
      ∀ env s resp s', blockingExecution env qc.toProtobuf s = .ok resp s' →
        process env qc.toProtobuf s = ({ resp with hops := 1 }, s') := by
  obtain ⟨myStates, hmyStates, hlookup⟩ := requestStates_ok hlast
  obtain ⟨c', hc', hfunctions, hstates⟩ := c.singleFunctionChain_ok f
  let qc : LambdaRequest := ⟨f, l.myInput, l.myDataIn, false, 0, myStates, "", some c', none, 0, aUuid⟩
  have hportable : qc.Portable := by
    refine ⟨fun d hd => ?_, fun d hd => ?_, fun d d' _ hd => ?_⟩
    · cases hd
      rw [hfunctions]
      exact List.cons_ne_nil f []
    · cases hd
    · cases hd
  refine ⟨qc, ?_, (LambdaRequest.received_iff_portable qc).mpr hportable, rfl, rfl, rfl, fun x => ?_,
    fun x hx => ?_, fun env s resp s' hrun => ?_⟩
  · unfold functionRequest
    rw [hmyStates, hc']
    rfl
  · show myStates[x]? = _
    rw [hlookup]
    simp only [States.mem_states, dependsOn, decide_eq_true_eq]
  · show f ∈ c'.theStates.theDependencies.getD x []
    rw [hstates]
    apply States.mem_dependencies.mpr
    rw [dependsOn, decide_eq_true_eq] at hx
    exact hx
  · have hlength : qc.toProtobuf.chain.length = 1 := by
      show c'.theFunctions.length = 1
      rw [hfunctions]
      rfl
    exact process_single hlength rfl rfl rfl rfl hrun

/-- What the computer has for it. -/
theorem invocation_ok (hr : Accepted r) (hchain : r.theChain = some c)
    (hhead : c.theFunctions.head? = some r.theName) {f : String}
    (hf : c.theFunctions[resps.length]? = some f) : ∃ q,
      LambdaRequest.ofProtobuf (invocation r resps) = .ok q ∧ q.theName = f ∧
      q.theInput = (invocation r resps).input ∧ q.theDataIn = (invocation r resps).datain ∧
      q.theStates = carried r resps ∧ ∀ x, (invocation r resps).name ∈
        (invocation r resps).dependencies.getD x [] ↔ dependsOn c f x = true := by
  have hfunctions : r.toProtobuf.chain = c.theFunctions := by
    simp only [LambdaRequest.toProtobuf, hchain]
  have hpos : 0 < r.toProtobuf.chain.length := by
    have hlt := (List.getElem?_eq_some_iff.mp hf).1
    rw [hfunctions]
    omega
  have hb := invocation_belongs r resps
  have hcons : r.theName :: c.theFunctions.tail = c.theFunctions := by
    cases hfs : c.theFunctions with
    | nil =>
      rw [hfs] at hhead
      cases hhead
    | cons g gs =>
      rw [hfs, List.head?_cons, Option.some.injEq] at hhead
      rw [hhead, List.tail_cons]
  have hname : (invocation r resps).name = f := by
    rw [invocation_name, hfunctions, hcons, List.getD_eq_getElem?_getD, hf, Option.getD_some]
  have hdeps : (invocation r resps).dependencies = c.theStates.theDependencies := by
    rw [hb.dependencies]
    simp only [LambdaRequest.toProtobuf, hchain, hr.dag_eq_none hpos]
  obtain ⟨q, hq, -⟩ := regenerate_chain hr hpos hb
  obtain ⟨hqname, hqinput, hqdatain, hqstates⟩ := LambdaRequest.ofProtobuf_fields hq
  refine ⟨q, hq, hqname.trans hname, hqinput, hqdatain, hqstates, fun x => ?_⟩
  rw [hname, hdeps, dependsOn, decide_eq_true_eq]

/-- One round of the loop. -/
theorem functionLoop_cons {f : String} {fs : List String} {myReq : LambdaRequest}
    {myResp : Rpc.LambdaResponse} {theLastStates : ExtTreeMap String State}
    (hreq : functionRequest c (aUuids fs.length) f l = .ok myReq)
    (hprocess : process env myReq.toProtobuf l.theSystem = (myResp, s)) (hretcode : myResp.retcode = "OK")
    (hsave : saveStates l.theLastStates (deserializeStates myResp.states) = .ok theLastStates) :
    functionLoop env c aUuids (f :: fs) l = functionLoop env c aUuids fs ⟨theLastStates, s,
      myResp.output, myResp.dataout, some myResp, (l.myHops + myResp.hops) % 2 ^ 32⟩ := by
  rw [functionLoop, hreq]
  simp only [bind, Except.bind, hprocess, hretcode, ne_eq, not_true_eq_false, if_false, hsave]

/-- One more function: the client runs it with the states that it needs. -/
theorem sim_finish (henv : Implements env c b) (hr : Accepted r) (hchain : r.theChain = some c)
    (hhead : c.theFunctions.head? = some r.theName) (hlt : resps.length < c.theFunctions.length)
    (h : Sim env c aUuids l0 r s resps l) {resp : Rpc.LambdaResponse} {s0 s1 : System}
    (hs0 : s0.theComputer.theStateClient = s.theComputer.theStateClient ∧
      s0.theStateRepos = s.theStateRepos)
    (hrun : blockingExecution env (invocation r resps) s0 = .ok resp s1)
    (hs1 : s'.theComputer.theStateClient = s1.theComputer.theStateClient ∧
      s'.theStateRepos = s1.theStateRepos) :
    ∃ l', Sim env c aUuids l0 r s' (resp :: resps) l' := by
  obtain ⟨f, hf⟩ : ∃ f, c.theFunctions[resps.length]? = some f := ⟨_, List.getElem?_eq_getElem hlt⟩
  obtain ⟨q, hq, hqname, hqinput, hqdatain, hqstates, hdep⟩ := invocation_ok hr hchain hhead hf
  have hlast (x : String) (hx : x ∈ c.theStates.allStates false) : x ∈ l.theLastStates := by
    obtain ⟨v, hv⟩ := lookup_of_mem (h.known x hx)
    rw [← h.states x hx] at hv
    exact mem_of_lookup hv
  obtain ⟨qc, hqc, hqcOk, hqcname, hqcinput, hqcdatain, hqcstates, hdepc, hprocess⟩ :=
    functionRequest_ok f (aUuids (c.theFunctions.drop (resps.length + 1)).length) fun x hx =>
      hlast x (allStates_of_dependsOn (f := f) (by simpa [dependsOn] using States.mem_states.mp hx))
  have hstates : qc.toProtobuf.states =
      (invocation r resps).states.filter fun x _ => dependsOn c q.theName x := by
    apply ExtTreeMap.ext_getElem?
    intro x
    rw [carried_states, ExtTreeMap.getElem?_filter', hqname]
    show (serializeStates qc.theStates)[x]? = _
    rw [serializeStates, serializeStates, ExtTreeMap.getElem?_map, ExtTreeMap.getElem?_map, hqcstates]
    split
    · next hx =>
      rw [h.states x (allStates_of_dependsOn hx)]
      cases (carried r resps)[x]? <;> simp [hx, Option.filter]
    · next hx => cases (carried r resps)[x]? <;> simp [hx]
  have hmem : q.theName ∈ c.theFunctions := by
    rw [hqname]
    exact List.mem_of_getElem? hf
  rw [← hqname] at hdep hdepc
  obtain ⟨respc, sc', hrunc, hretcode, hout, hdata, hclient, hrepos, hkeys, hdepended, hfree⟩ :=
    function_agrees henv hq hqcOk hmem (hqcname.trans hqname.symm)
      (hqcinput.trans (h.input.trans hqinput.symm)) (hqcdatain.trans (h.datain.trans hqdatain.symm))
      hstates hdep hdepc (h.client.trans hs0.1.symm) (h.repos.trans hs0.2.symm) hrun
  rw [hqstates] at hkeys hfree
  rw [hqname] at hdepended hfree
  -- what the client saves
  have hsave : ∀ x ∈ deserializeStates respc.states, x ∈ l.theLastStates := by
    intro x hx
    obtain ⟨v, hv⟩ := lookup_of_mem hx
    rw [← received_ofProtobuf] at hv
    cases hxd : dependsOn c f x with
    | true => exact hlast x (allStates_of_dependsOn hxd)
    | false =>
      rw [(hfree x hxd).2] at hv
      cases hv
  obtain ⟨last', hlast', hlookup'⟩ := saveStates_ok hsave
  have hsome (x : String) (hx : x ∈ c.theStates.allStates false) : ∃ v, received resp x = some v := by
    obtain ⟨v, hv⟩ := lookup_of_mem (h.known x hx)
    apply Option.isSome_iff_exists.mp
    rw [hkeys x, hv]
    rfl
  have hnext (x : String) : (carried r (resp :: resps))[x]? = received resp x := by
    rw [carried_cons, received_ofProtobuf]
  refine ⟨⟨last', sc', respc.output, respc.dataout, some { respc with hops := 1 },
    (l.myHops + 1) % 2 ^ 32⟩, ?_, hclient.trans hs1.1.symm, hrepos.trans hs1.2.symm, hout, hdata,
    fun x hx => ?_, fun x hx => ?_, ?_⟩
  · have hdrop : c.theFunctions.drop resps.length = f :: c.theFunctions.drop (resps.length + 1) := by
      rw [List.drop_eq_getElem_cons hlt, (List.getElem?_eq_some_iff.mp hf).2]
    rw [h.run, hdrop]
    exact functionLoop_cons hqc (hprocess env _ _ _ hrunc) hretcode hlast'
  · obtain ⟨v, hv⟩ := hsome x hx
    rw [← hnext] at hv
    exact mem_of_lookup hv
  · rw [hlookup', hnext, ← received_ofProtobuf]
    cases hxd : dependsOn c f x with
    | true =>
      obtain ⟨v, hv⟩ := hsome x hx
      rw [hdepended x hxd, hv, Option.some_or]
    | false =>
      rw [(hfree x hxd).2, Option.none_or, (hfree x hxd).1]
      exact h.states x hx
  · rintro resp' earlier heq
    cases heq
    exact ⟨_, rfl, hout, hdata⟩

end Loops

section Runs

open Client

variable {env : Environment} {b : Behaviour} {aUuids : Nat → String} {l0 : Loop}
  {c : Chain} {r : LambdaRequest} {s : System} {e : String}

/-- The computer has failed, or has got as far as the client. -/
structure Follows (env : Environment) (c : Chain) (aUuids : Nat → String) (l0 : Loop) (e : String)
    (r : LambdaRequest) (s : System) : Prop where
  coupled : Coupled [r] s
  server : s.theComputer.theServerEndpoint = e
  far : ((∃ m, .failed m ∈ s.theLog) ∧ s.Idle) ∨ ∃ stage resps l,
    view r.theUuid s = Stage.view e r resps stage ∧ stage.Within r resps ∧
      Sim env c aUuids l0 r s resps l

theorem follows_step (henv : Implements env c b) (hr : Accepted r) (hn : c.theFunctions ≠ [])
    (huuid : ([r].map LambdaRequest.theUuid).Nodup) (hchain : r.theChain = some c)
    (hhead : c.theFunctions.head? = some r.theName) (h : Follows env c aUuids l0 e r s) (a : Action) :
    Follows env c aUuids l0 e r (step env s a) := by
  have hrs : ∀ r' ∈ [r], Accepted r' := by
    intro r' hr'
    rw [List.mem_singleton.mp hr']
    exact hr
  have hlength : r.toProtobuf.chain.length = c.theFunctions.length := by
    simp only [LambdaRequest.toProtobuf, hchain]
  have hpos : 0 < r.toProtobuf.chain.length := by
    rw [hlength]
    exact List.length_pos_iff.mpr hn
  have hchange : Change env [r] s (step env s a) := step_change hrs h.coupled a
  have hcoupled := coupled_change hrs huuid h.coupled hchange
  obtain ⟨hsuffix, hserver, hclient⟩ := frame_chain hchange
  refine ⟨hcoupled, hserver.trans h.server, ?_⟩
  rcases h.far with ⟨⟨m, hm⟩, hidle⟩ | ⟨stage, resps, l, hview, hwithin, hsim⟩
  · rw [step_idle env hidle]
    exact .inl ⟨⟨m, hm⟩, hidle⟩
  rcases hop_step hrs h.coupled List.mem_cons_self hpos h.server hwithin hview a with
    ⟨i, err, s'', -, -, hfailed, es, hnothing⟩ | ⟨stage', resps', hview', hhop⟩
  · exact .inl ⟨⟨_, hfailed⟩, idle_of_view hcoupled hnothing⟩
  · refine .inr ⟨stage', resps', ?_⟩
    have hwithin' := within_hop hwithin hhop
    cases hhop with
    | other halone =>
      have hsame := halone fun r' hr' => List.mem_singleton.mp hr'
      refine ⟨l, hview', hwithin', ?_⟩
      rw [hsame]
      exact hsim
    | deliver hrepos =>
      exact ⟨l, hview', hwithin', { hsim with
        client := hsim.client.trans hclient.symm, repos := hsim.repos.trans hrepos.symm }⟩
    | start hrepos =>
      exact ⟨l, hview', hwithin', { hsim with
        client := hsim.client.trans hclient.symm, repos := hsim.repos.trans hrepos.symm }⟩
    | finish hrun hlog =>
      have hlt : resps.length < c.theFunctions.length := hlength ▸ hwithin
      obtain ⟨l', hsim'⟩ := sim_finish henv hr hchain hhead hlt hsim (by exact ⟨rfl, rfl⟩)
        hrun (by exact ⟨hclient, rfl⟩)
      exact ⟨l', hview', hwithin', hsim'⟩

/-- The execution of the chain can always be brought to an end. -/
theorem idle_reached (env : Environment) (hr : Accepted r) (hpos : 0 < r.toProtobuf.chain.length)
    (huuid : ([r].map LambdaRequest.theUuid).Nodup) (hcoupled : Coupled [r] s)
    (he : s.theComputer.theServerEndpoint = e) {stage : Stage} {resps : List Rpc.LambdaResponse}
    (hwithin : stage.Within r resps) (hview : view r.theUuid s = stage.view e r resps) :
    ∃ more, (Runs.final (step env) s more).Idle := by
  have hrs : ∀ r' ∈ [r], Accepted r' := by
    intro r' hr'
    rw [List.mem_singleton.mp hr']
    exact hr
  induction hw : work r resps stage using Nat.strong_induction_on generalizing s stage resps with
  | _ n ih =>
    by_cases hstage : stage = .ended
    · subst hstage
      exact ⟨[], idle_of_view hcoupled hview⟩
    · obtain ⟨a, ha⟩ := advance env hrs hcoupled List.mem_cons_self hpos he hwithin hview hstage
      have hchange : Change env [r] s (step env s a) := step_change hrs hcoupled a
      have hcoupled' := coupled_change hrs huuid hcoupled hchange
      rcases ha with ⟨stage', resps', hview', hhop, hless⟩ | ⟨i, err, c, rfl, hi, -, hstep⟩
      · obtain ⟨more, hidle⟩ := ih _ (hw ▸ hless) hcoupled'
          ((frame_chain hchange).2.1.trans he) (within_hop hwithin hhop) hview' rfl
        exact ⟨a :: more, hidle⟩
      · obtain ⟨es, hnothing⟩ := own_throw hview hi c
        rw [← hstep] at hnothing
        exact ⟨[a], idle_of_view hcoupled' hnothing⟩

theorem singleExecution_ok {cl : Client} (hn : cl.theChain.theFunctions ≠ [])
    (hstates : ∀ x ∈ cl.theChain.theStates.allStates false, x ∈ cl.theLastStates)
    (aInput aUuid : String) : ∃ r, cl.singleExecution aInput aUuid = .ok r ∧
      r.theChain = some cl.theChain ∧ r.theDag = none ∧ r.theCallback = cl.theCallback ∧
      r.theNextFunctionIndex = 0 ∧ r.theUuid = aUuid ∧ r.theInput = aInput ∧ r.theDataIn = "" ∧
      cl.theChain.theFunctions.head? = some r.theName ∧
      ∀ x ∈ cl.theChain.theStates.allStates false, r.theStates[x]? = cl.theLastStates[x]? := by
  obtain ⟨myStates, hmyStates, hlookup⟩ := requestStates_ok hstates
  cases hfs : cl.theChain.theFunctions with
  | nil => exact absurd hfs hn
  | cons f fs =>
    have hname : cl.theChain.entryFunctionName = .ok f := by
      unfold Chain.entryFunctionName
      rw [hfs]
      rfl
    unfold singleExecution
    rw [hname, hmyStates]
    refine ⟨_, rfl, rfl, rfl, rfl, rfl, rfl, rfl, rfl, rfl, fun x hx => ?_⟩
    show myStates[x]? = _
    rw [hlookup, if_pos hx]

/-- A request for a whole chain is one that the computer accepts. -/
theorem accepted_single (hchain : r.theChain = some c) (hn : c.theFunctions ≠ []) (hdag : r.theDag = none)
    (hindex : r.theNextFunctionIndex = 0) (hcallback : r.theCallback ≠ "") : Accepted r := by
  refine ⟨checkRequest_ok.mpr ?_, hcallback, hindex⟩
  have hfunctions : r.toProtobuf.chain = c.theFunctions := by
    simp only [LambdaRequest.toProtobuf, hchain]
  have hnames : r.toProtobuf.dag.names = [] := by simp only [LambdaRequest.toProtobuf, hdag]
  have hzero : r.toProtobuf.nextfunctionindex = 0 := hindex
  rw [hnames, hzero, hfunctions]
  exact ⟨.inr rfl, .inr hcallback, .inr (List.length_pos_iff.mpr hn), .inl (Nat.zero_le 1)⟩

/-- Nothing has been executed yet. -/
theorem follows_new (hr : Accepted r) (hpos : 0 < r.toProtobuf.chain.length)
    (aStateClient : Option String) (aStateRepos : ExtTreeMap String (ExtTreeMap String String))
    (hserver : l0.theSystem = System.new e aStateClient aStateRepos []) (hinput : r.theInput = l0.myInput)
    (hdatain : r.theDataIn = l0.myDataIn)
    (hstates : ∀ x ∈ c.theStates.allStates false, x ∈ l0.theLastStates)
    (hlast : ∀ x ∈ c.theStates.allStates false, r.theStates[x]? = l0.theLastStates[x]?) :
    Follows env c aUuids l0 e r (System.new e aStateClient aStateRepos [r]) := by
  have hcarried : carried r [] = r.theStates := deserializeStates_serializeStates r.theStates
  have hcoupled : Coupled [r] (System.new e aStateClient aStateRepos [r]) :=
    coupled_new (fun r' hr' => List.mem_singleton.mp hr' ▸ hr) (List.nodup_singleton _) _ _ _
  refine ⟨hcoupled, rfl, .inr ⟨.flying, [], l0, ?_, hpos, rfl, ?_, ?_, hinput.symm, hdatain.symm,
    fun x hx => ?_, fun x hx => ?_, nofun⟩⟩
  · have hown : decide (r.toProtobuf.uuid = r.theUuid) = true := decide_eq_true rfl
    simp only [view, System.new, Stage.view, script, List.map_cons, List.map_nil, List.filter_cons, hown,
      if_true, List.filter_nil]
    rfl
  · rw [hserver]
    rfl
  · rw [hserver]
    rfl
  · obtain ⟨v, hv⟩ := lookup_of_mem (hstates x hx)
    rw [← hlast x hx, ← hcarried] at hv
    exact mem_of_lookup hv
  · rw [hcarried, hlast x hx]

/-- The response of the last function has been sent to the client. -/
theorem responded_of_ended {resp : Rpc.LambdaResponse} {earlier : List Rpc.LambdaResponse}
    (hall : (resp :: earlier).length = r.toProtobuf.chain.length)
    (hview : view r.theUuid s = Stage.ended.view e r (resp :: earlier)) :
    .responded r.theCallback (invocation r earlier) { resp with
      responder := e
      hops := ((invocation r earlier).hops + 1) % 2 ^ 32
      retcode := "OK" } ∈ s.theLog := by
  have hlog : s.theLog.filter (about r.theUuid) = script e r (resp :: earlier) :=
    congrArg View.log hview
  rw [List.length_cons] at hall
  apply List.mem_of_mem_filter (p := about r.theUuid)
  rw [hlog, script, ending, if_pos hall]
  simp

/-- The states that the client has at the end are those of the last response. -/
theorem Sim.received {resp : Rpc.LambdaResponse} {earlier : List Rpc.LambdaResponse} {l : Loop}
    (h : Sim env c aUuids l0 r s (resp :: earlier) l) {x : String} (hx : x ∈ c.theStates.allStates false) :
    (serializeStates l.theLastStates)[x]?.map State.ofProtobuf = received resp x := by
  have hsame := h.states x hx
  rw [carried_cons, ← received_ofProtobuf] at hsame
  rw [← hsame, serializeStates, ExtTreeMap.getElem?_map, Option.map_map]
  exact congrFun Option.map_id _

/-- What the client returns once its loop is over. -/
theorem functionChain_ok (cl : Client) {aInput : String} {l : Loop} {myResp : Rpc.LambdaResponse}
    (hloop : functionLoop env cl.theChain aUuids cl.theChain.theFunctions
      ⟨cl.theLastStates, s, aInput, "", none, 0⟩ = .ok l) (hresp : l.myResp = some myResp) :
    ∃ resp', functionChain env cl aUuids aInput s = .ok (resp', l.theLastStates, l.theSystem) ∧
      resp'.output = myResp.output ∧ resp'.dataout = myResp.dataout ∧
      resp'.states = serializeStates l.theLastStates := by
  rw [functionChain, hloop]
  simp only [bind, Except.bind, hresp]
  split
  · exact ⟨_, rfl, rfl, rfl, rfl⟩
  · exact ⟨_, rfl, rfl, rfl, rfl⟩

/-- However the computer executes the chain, if nothing fails then the client that runs the functions
itself comes to the same output, data and states, and leaves the same on the state servers. -/
theorem chains_agree {cl : Client} (henv : Implements env cl.theChain b)
    (hn : cl.theChain.theFunctions ≠ []) (hcallback : cl.theCallback ≠ "")
    (hstates : ∀ x ∈ cl.theChain.theStates.allStates false, x ∈ cl.theLastStates)
    (aUuids : Nat → String) (aUuid aInput aServerEndpoint : String) (aStateClient : Option String)
    (aStateRepos : ExtTreeMap String (ExtTreeMap String String)) (aActions : List Action) :
    ∃ r, cl.singleExecution aInput aUuid = .ok r ∧
      ∀ s ∈ Runs.states (step env) (System.new aServerEndpoint aStateClient aStateRepos [r]) aActions,
        (∃ more, (Runs.final (step env) s more).Idle) ∧
        (s.Idle → (∀ m, .failed m ∉ s.theLog) → replies cl.theCallback aUuid s.theLog = 1 ∧
          ∃ m resp resp' theLastStates theSystem, .responded cl.theCallback m resp ∈ s.theLog ∧
            functionChain env { cl with theCallback := "" } aUuids aInput
              (System.new aServerEndpoint aStateClient aStateRepos []) =
                .ok (resp', theLastStates, theSystem) ∧
            resp'.output = resp.output ∧ resp'.dataout = resp.dataout ∧
            (∀ x ∈ cl.theChain.theStates.allStates false, received resp' x = received resp x) ∧
            theSystem.theStateRepos = s.theStateRepos) := by
  obtain ⟨r, hrequest, hchain, hdag, hcb, hindex, huuid, hinput, hdatain, hhead, hlast⟩ :=
    singleExecution_ok hn hstates aInput aUuid
  have hfunctions : r.toProtobuf.chain = cl.theChain.theFunctions := by
    simp only [LambdaRequest.toProtobuf, hchain]
  have hpos : 0 < r.toProtobuf.chain.length := by
    rw [hfunctions]
    exact List.length_pos_iff.mpr hn
  have hr : Accepted r := accepted_single hchain hn hdag hindex (hcb ▸ hcallback)
  have hnodup : ([r].map LambdaRequest.theUuid).Nodup := List.nodup_singleton _
  let l0 : Loop := ⟨cl.theLastStates, System.new aServerEndpoint aStateClient aStateRepos [], aInput, "",
    none, 0⟩
  have hstart : Follows env cl.theChain aUuids l0 aServerEndpoint r
      (System.new aServerEndpoint aStateClient aStateRepos [r]) :=
    follows_new hr hpos aStateClient aStateRepos rfl hinput hdatain hstates hlast
  refine ⟨r, hrequest, fun s hs => ?_⟩
  have h := Runs.invariant (I := Follows env cl.theChain aUuids l0 aServerEndpoint r)
    (fun s a h => follows_step henv hr hn hnodup hchain hhead h a) aActions hstart s hs
  rcases h.far with ⟨⟨m, hm⟩, hidle⟩ | ⟨stage, resps, l, hview, hwithin, hsim⟩
  · exact ⟨⟨[], hidle⟩, fun _ hok => absurd hm (hok m)⟩
  refine ⟨idle_reached env hr hpos hnodup h.coupled h.server hwithin hview, fun hidle _ => ?_⟩
  cases ended_of_idle hidle hview
  have hall : resps.length = r.toProtobuf.chain.length := hwithin
  cases resps with
  | nil =>
    rw [List.length_nil] at hall
    omega
  | cons resp earlier =>
    obtain ⟨respc, hrespc, hout, hdata⟩ := hsim.resp resp earlier rfl
    have hreplies := replies_of_ended hpos hview hall
    have hresponded := responded_of_ended hall hview
    rw [hcb] at hreplies hresponded
    rw [huuid] at hreplies
    have hloop : functionLoop env cl.theChain aUuids cl.theChain.theFunctions l0 = .ok l := by
      rw [hsim.run, hall, hfunctions, List.drop_length]
      rfl
    obtain ⟨resp', hrun, hout', hdata', hstates'⟩ :=
      functionChain_ok { cl with theCallback := "" } hloop hrespc
    refine ⟨hreplies, _, _, resp', l.theLastStates, l.theSystem, hresponded, hrun, hout'.trans hout,
      hdata'.trans hdata, fun x hx => ?_, hsim.repos⟩
    rw [received, hstates']
    exact hsim.received hx

end Runs

section Examples

/-- What the simulated functions do: they leave all states alone. -/
def simulated (k : EdgeComputerSim) : Behaviour := fun f input _ states =>
  ⟨match k.theContainers[f]? with
    | none => ""
    | some theLambda => if theLambda.theCopyInput then input else theLambda.theOutput,
    "", fun x => states[x]?.getD ⟨"", ""⟩⟩

theorem simulated_implements (k : EdgeComputerSim) {c : Chain}
    (hall : ∀ f ∈ c.theFunctions, f ∈ k.theContainers) : Implements k.environment c (simulated k) := by
  intro n m q hq hf
  obtain ⟨theLambda, hlambda⟩ := lookup_of_mem (hall _ hf)
  have hrun : k.environment.realExecution n m = .ok (theLambda.execute q) := by
    simp only [EdgeComputerSim.environment, hq, EdgeComputerSim.addTask, hlambda, bind, Except.bind]
    rfl
  refine ⟨_, hrun, rfl, ?_, rfl, ?_⟩
  · simp only [simulated, hlambda, Lambda.execute]
  · show deserializeStates (serializeStates q.theStates) = _
    rw [deserializeStates_serializeStates]
    apply ExtTreeMap.ext_getElem?
    intro x
    rw [ExtTreeMap.getElem?_map]
    cases hx : q.theStates[x]? with
    | none => rfl
    | some st =>
      rw [Option.map_some]
      split
      · next hd =>
        simp only [simulated]
        rw [ExtTreeMap.getElem?_filter', hx]
        simp [hd, Option.filter]
      · rfl

/-- A client whose state is on a server other than that of the computer. -/
def exampleClient : Client where
  theLastStates := .ofList [("s1", State.mk "state:6481" "")]
  theChain := ⟨["f1", "f2", "f1"], ⟨.ofList [("s1", ["f2"])]⟩, by unfold Known; decide +kernel⟩
  theCallback := "client:6480"

def exampleServers : ExtTreeMap String (ExtTreeMap String String) :=
  .ofList [("state:6481", ExtTreeMap.ofList [("s1", "content")]), ("host0:6481", ∅)]

/-- No execution is known to have failed from the event. -/
def notFailed : Computer.Event → Bool
  | .failed _ => false
  | _ => true

theorem chains_agree_example : ∃ r s, exampleClient.singleExecution "input" "uuid0" = .ok r ∧
    s = Runs.final (step exampleComputer.environment)
      (System.new "host0:6473" (some "host0:6481") exampleServers [r])
      [.deliver 0, .start 0, .finish 0, .deliver 0, .start 0, .finish 0, .deliver 0, .start 0,
        .finish 0] ∧
    ∃ m resp resp' theLastStates theSystem, .responded "client:6480" m resp ∈ s.theLog ∧
      Client.functionChain exampleComputer.environment { exampleClient with theCallback := "" } toString
        "input" (System.new "host0:6473" (some "host0:6481") exampleServers []) =
          .ok (resp', theLastStates, theSystem) ∧
      resp'.output = resp.output ∧ received resp' "s1" = received resp "s1" ∧
      theSystem.theStateRepos = s.theStateRepos := by
  have hall : ∀ f ∈ exampleClient.theChain.theFunctions, f ∈ exampleComputer.theContainers := by
    decide +kernel
  have hstates : ∀ x ∈ exampleClient.theChain.theStates.allStates false,
      x ∈ exampleClient.theLastStates := by decide +kernel
  obtain ⟨r, hr, h⟩ := chains_agree (simulated_implements exampleComputer hall) (by decide) (by decide)
    hstates toString "uuid0" "input" "host0:6473" (some "host0:6481") exampleServers
    [.deliver 0, .start 0, .finish 0, .deliver 0, .start 0, .finish 0, .deliver 0, .start 0, .finish 0]
  have hconcrete : exampleClient.singleExecution "input" "uuid0" =
      .ok ⟨"f1", "input", "", false, 0, .ofList [("s1", State.mk "state:6481" "")], "client:6480",
        some exampleClient.theChain, none, 0, "uuid0"⟩ := by decide +kernel
  obtain rfl := Except.ok.inj (hr.symm.trans hconcrete)
  have hidle : (Runs.final (step exampleComputer.environment)
      (System.new "host0:6473" (some "host0:6481") exampleServers [⟨"f1", "input", "", false, 0,
        .ofList [("s1", State.mk "state:6481" "")], "client:6480", some exampleClient.theChain, none, 0,
        "uuid0"⟩]) [.deliver 0, .start 0, .finish 0, .deliver 0, .start 0, .finish 0, .deliver 0,
          .start 0, .finish 0]).Idle := by
    refine ⟨?_, ?_, ?_⟩ <;> apply List.length_eq_zero_iff.mp <;> decide +kernel
  have hnone : (Runs.final (step exampleComputer.environment)
      (System.new "host0:6473" (some "host0:6481") exampleServers [⟨"f1", "input", "", false, 0,
        .ofList [("s1", State.mk "state:6481" "")], "client:6480", some exampleClient.theChain, none, 0,
        "uuid0"⟩]) [.deliver 0, .start 0, .finish 0, .deliver 0, .start 0, .finish 0, .deliver 0,
          .start 0, .finish 0]).theLog.all notFailed = true := by
    decide +kernel
  obtain ⟨-, m, resp, resp', last, sys, hresp, hclient, hout, -, hsame, hrepos⟩ :=
    (h _ (Runs.final_mem_states _ _ _)).2 hidle fun m hm =>
      Bool.false_ne_true (List.all_eq_true.mp hnone (.failed m) hm)
  exact ⟨_, _, hr, rfl, m, resp, resp', last, sys, hresp, hclient, hout,
    hsame "s1" (by decide +kernel), hrepos⟩

end Examples

end ServerlessEdge.Simulation
