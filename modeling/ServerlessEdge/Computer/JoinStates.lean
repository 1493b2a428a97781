import ServerlessEdge.Computer.EdgeComputerSim
import ServerlessEdge.Computer.Executions
import ServerlessEdge.Computer.RemoteStates

/-! Where a function finds its remote states after branches have been joined: each
branch has its own copy of their locations, and only that of the last one survives. -/
namespace ServerlessEdge.Computer
open Std Library Messages EdgeComputer Joins Triple

/-- The name of the function at an index; the client gives that of the first one. -/
def functionAt (r : LambdaRequest) (d : Model.Dag) (v : Nat) : String :=
  if v = 0 then r.theName else d.theFunctionNames.getD v ""

/-- The function at an index depends on a state. -/
def DependsOn (r : LambdaRequest) (d : Model.Dag) (x : String) (v : Nat) : Prop :=
  functionAt r d v ∈ d.theStates.theDependencies.getD x []

/-- There is a path to a function on which none before it depends on a state. -/
def Untouched (r : LambdaRequest) (d : Model.Dag) (x : String) : Nat → Prop :=
  Relation.ReflTransGen (fun u v => d.Follows u v ∧ ¬ DependsOn r d x u) 0

/-- All branches that lead to a function move the state, or none can: those that
depend on it come after the function, if they are not the function itself. -/
def Survives (r : LambdaRequest) (d : Model.Dag) (x : String) (v : Nat) : Prop :=
  ¬ Untouched r d x v ∨ ∀ u, d.Leads 0 u → DependsOn r d x u → d.Leads v u

/-- A state that the client has left on a server. -/
def Remote (r : LambdaRequest) (x l : String) : Prop :=
  location r.toProtobuf.states x = some l ∧ l ≠ ""

/-- The copies of the locations that are under way, and where the states are. -/
structure Tracked (rs : List LambdaRequest) (r : LambdaRequest) (d : Model.Dag) (e : String)
    (s : System) : Prop where
  coupled : Coupled rs s
  client : s.theComputer.theStateClient = some e
  server : e ∈ s.theStateRepos
  name : ∀ m ∈ pending s, m.uuid = r.theUuid → m.name = functionAt r d m.nextfunctionindex
  kept : ∀ m ∈ pending s, m.uuid = r.theUuid → ∀ x,
    location m.states x = location r.toProtobuf.states x ∨
      (∃ l, Remote r x l) ∧ location m.states x = some e
  others : ∀ m ∈ pending s, m.uuid ≠ r.theUuid → ∀ x l, Remote r x l → location m.states x = none
  original : ∀ m ∈ pending s, m.uuid = r.theUuid → ∀ x l, Remote r x l → l ≠ e →
    location m.states x = some l → Untouched r d x m.nextfunctionindex
  moved : ∀ m ∈ pending s, m.uuid = r.theUuid → ∀ x l, Remote r x l →
    location m.states x = some e → Holds s e x
  held : ∀ x l, Remote r x l → Holds s l x ∨ ∃ m,
    (.completed m ∈ s.theLog ∨ .failed m ∈ s.theLog) ∧ m.uuid = r.theUuid ∧
      DependsOn r d x m.nextfunctionindex

section Steps

variable {rs : List LambdaRequest} {r : LambdaRequest} {d : Model.Dag} {e : String}
  {env : Environment} {s s' : System}

/-- What a step does to the servers that have a state: nothing, unless a function
that needs it ends. -/
theorem repos_change (henv : Copies env) (he : s.theComputer.theStateClient = some e)
    (hs : Change env rs s s') (x : String) : Same x s s' ∨ ∃ m ∈ s.theRunning,
      (∃ l, location m.states x = some l ∧ Needs m e x l) ∧ Holds s' e x ∧
        (.completed m ∈ s'.theLog ∨ .failed m ∈ s'.theLog) := by
  cases hs with
  | idle => exact .inl fun _ => Iff.rfl
  | deliver hi hr hb hedge => exact .inl fun _ => Iff.rfl
  | start hi hr hb => exact .inl fun _ => Iff.rfl
  | finish hi hr hb hrun hms hbel =>
    rename_i i m r' resp ms c
    have hspec := blockingExecution_spec (m := m) henv
      (s := { s with theRunning := s.theRunning.eraseIdx i }) he x
    rcases wp_of_ok hspec hrun id with ⟨-, hsame, -⟩ | ⟨hneeds, hholds, -⟩
    · exact .inl hsame
    · exact .inr ⟨m, List.mem_of_getElem? hi, hneeds, hholds, .inl List.mem_cons_self⟩
  | fail hi hr hb hrun =>
    rename_i i m r' err c
    have hspec := blockingExecution_spec (m := m) henv
      (s := { s with theRunning := s.theRunning.eraseIdx i }) he x
    rcases wp_of_error hspec hrun id with hsame | ⟨hneeds, hholds⟩
    · exact .inl hsame
    · exact .inr ⟨m, List.mem_of_getElem? hi, hneeds, hholds, .inr List.mem_cons_self⟩

/-- The log only grows, and neither the local state server nor any other goes away. -/
theorem frame_change (hs : Change env rs s s') : (∀ a ∈ s.theLog, a ∈ s'.theLog) ∧
    s'.theComputer.theStateClient = s.theComputer.theStateClient ∧
    ∀ e ∈ s.theStateRepos, e ∈ s'.theStateRepos := by
  cases hs with
  | idle => exact ⟨fun _ h => h, rfl, fun _ h => h⟩
  | deliver hi hr hb he => exact ⟨fun _ h => List.mem_cons_of_mem _ h, rfl, fun _ h => h⟩
  | start hi hr hb => exact ⟨fun _ h => List.mem_cons_of_mem _ h, rfl, fun _ h => h⟩
  | finish hi hr hb hrun hms hbel =>
    rename_i i m r' resp ms c
    have hmoves := moves_blockingExecution env m { s with theRunning := s.theRunning.eraseIdx i }
    rw [after_of_ok hrun] at hmoves
    refine ⟨fun a ha => ?_, rfl, hmoves.2⟩
    exact List.mem_cons_of_mem _ (List.mem_append_right _ ha)
  | fail hi hr hb hrun =>
    rename_i i m r' err c
    have hmoves := moves_blockingExecution env m { s with theRunning := s.theRunning.eraseIdx i }
    unfold after at hmoves
    rw [hrun] at hmoves
    exact ⟨fun _ h => List.mem_cons_of_mem _ h, rfl, hmoves.2⟩

theorem location_received (aStates : ExtTreeMap String Rpc.State) (x : String) :
    location (serializeStates (deserializeStates aStates)) x = location aStates x := by
  unfold location serializeStates deserializeStates
  rw [ExtTreeMap.getElem?_map, ExtTreeMap.getElem?_map, Option.map_map, Option.map_map]
  rfl

/-- The name of the next function goes with its index. -/
theorem name_next {m : Rpc.LambdaRequest} (h : Accepted r) (hd : r.theDag = some d)
    (hb : Belongs r m) {j : Nat} {f : String} (hj : (j, f) ∈ nextFunctions m) :
    d.Follows m.nextfunctionindex j ∧ f = functionAt r d j := by
  have hnext : j ∈ nextIndices r.toProtobuf m.nextfunctionindex := by
    rw [← hb.nextIndices_eq]
    exact List.mem_map.mpr ⟨(j, f), hj, rfl⟩
  have hpos := next_pos hnext
  refine ⟨?_, ?_⟩
  · have hfollows : Follows r m.nextfunctionindex j := hnext
    rwa [follows_dag h hd] at hfollows
  · have hchain := h.chain_length hd
    unfold nextFunctions at hj
    rw [hb.chain, if_neg (by omega), hb.dag] at hj
    split at hj
    · simp at hj
    · obtain ⟨j', -, hj'⟩ := List.mem_filterMap.mp hj
      obtain ⟨f', hf', heq⟩ := Option.map_eq_some_iff.mp hj'
      cases heq
      have hnames : r.toProtobuf.dag.names = d.theFunctionNames := by
        simp only [LambdaRequest.toProtobuf, hd]
      rw [hnames] at hf'
      rw [functionAt, if_neg (by omega), List.getD_eq_getElem?_getD, hf', Option.getD_some]

/-- A message of the execution that has a location needs its state where it says so. -/
private theorem dependsOn_of_needs (hd : r.theDag = some d) {m : Rpc.LambdaRequest}
    (hb : Belongs r m) (hname : m.name = functionAt r d m.nextfunctionindex) {x l : String} :
    Needs m e x l ↔ l ≠ "" ∧ l ≠ e ∧ DependsOn r d x m.nextfunctionindex := by
  have hdeps : m.dependencies = d.theStates.theDependencies := by
    rw [hb.dependencies]
    simp only [LambdaRequest.toProtobuf, hd]
  rw [Needs, DependsOn, hdeps, hname]

/-- What a new request says about the states: what the one before it says, unless the
function in between has moved them. -/
theorem sent_spec (henv : Copies env) (he : s.theComputer.theStateClient = some e)
    {y : Rpc.LambdaRequest} (hy : Sent env rs s s' y) : ∃ m ∈ s.theRunning, ∃ r ∈ rs,
      Belongs r m ∧ Belongs r y ∧ (y.nextfunctionindex, y.name) ∈ nextFunctions m ∧
      ∀ x, (∀ l, location m.states x = some l → ¬ Needs m e x l) ∧
          location y.states x = location m.states x ∨
        (∃ l, location m.states x = some l ∧ Needs m e x l) ∧ Holds s' e x ∧
          location y.states x = some e := by
  obtain ⟨hi, hr, hb, hrun, hbel, hstates, hnext, hrepos⟩ := hy
  rename_i i m r resp c
  refine ⟨m, List.mem_of_getElem? hi, r, hr, hb, hbel, hnext, fun x => ?_⟩
  have hspec := wp_of_ok (blockingExecution_spec (m := m) henv
    (s := { s with theRunning := s.theRunning.eraseIdx i }) he x) hrun id
  rw [hstates, location_received]
  rcases hspec with ⟨hno, -, hloc⟩ | ⟨hneeds, hholds, hloc⟩
  · exact .inl ⟨hno, hloc⟩
  · refine .inr ⟨hneeds, ?_, hloc⟩
    rw [Holds, hrepos]
    exact hholds

theorem tracked_change (hrs : ∀ r ∈ rs, Accepted r) (huuid : (rs.map LambdaRequest.theUuid).Nodup)
    (henv : Copies env) (hr : r ∈ rs) (hd : r.theDag = some d) (h : Tracked rs r d e s)
    (hs : Change env rs s s') : Tracked rs r d e s' := by
  obtain ⟨hlog, hclient, hservers⟩ := frame_change hs
  have hrunning : ∀ m ∈ s.theRunning, m ∈ pending s := fun m hm => List.mem_append_right _ hm
  have hbelongs : ∀ {r' : LambdaRequest} {m : Rpc.LambdaRequest}, r' ∈ rs → Belongs r' m →
      m.uuid = r.theUuid → Belongs r m := by
    intro r' m hr' hb hu
    rw [← eq_of_uuid huuid hr' hr (hb.uuid.symm.trans hu)]
    exact hb
  have hlocal : ∀ x, Holds s e x → Holds s' e x := by
    intro x hx
    rcases repos_change henv h.client hs x with hsame | ⟨m, -, -, hholds, -⟩
    · exact (hsame e).mpr hx
    · exact hholds
  refine ⟨coupled_change hrs huuid h.coupled hs, hclient.trans h.client, hservers e h.server,
    fun y hy hu => ?_, fun y hy hu x => ?_, fun y hy hu x l hx => ?_, fun y hy hu x l hx hl hloc => ?_,
    fun y hy hu x l hx hloc => ?_, fun x l hx => ?_⟩
  · rcases pending_change hs hy with hy | hsent
    · exact h.name y hy hu
    · obtain ⟨m, hm, r', hr', hb, hbel, hnext, -⟩ := sent_spec henv h.client hsent
      have hmu : m.uuid = r.theUuid := hb.uuid.trans (hbel.uuid.symm.trans hu)
      exact (name_next (hrs r hr) hd (hbelongs hr' hb hmu) hnext).2
  · rcases pending_change hs hy with hy | hsent
    · exact h.kept y hy hu x
    · obtain ⟨m, hm, r', hr', hb, hbel, hnext, hspec⟩ := sent_spec henv h.client hsent
      have hmu : m.uuid = r.theUuid := hb.uuid.trans (hbel.uuid.symm.trans hu)
      have hkept := h.kept m (hrunning m hm) hmu x
      rcases hspec x with ⟨-, hloc⟩ | ⟨⟨l, hl, hneeds⟩, -, hloc⟩
      · rw [hloc]
        exact hkept
      · right
        refine ⟨?_, hloc⟩
        rcases hkept with hkept | ⟨hremote, -⟩
        · exact ⟨l, hkept.symm.trans hl, hneeds.1⟩
        · exact hremote
  · rcases pending_change hs hy with hy | hsent
    · exact h.others y hy hu x l hx
    · obtain ⟨m, hm, r', hr', hb, hbel, hnext, hspec⟩ := sent_spec henv h.client hsent
      have hmu : m.uuid ≠ r.theUuid := fun hmu => hu (hbel.uuid.trans (hb.uuid.symm.trans hmu))
      have hnone := h.others m (hrunning m hm) hmu x l hx
      rcases hspec x with ⟨-, hloc⟩ | ⟨⟨l', hl', -⟩, -, -⟩
      · rw [hloc, hnone]
      · rw [hnone] at hl'
        cases hl'
  · rcases pending_change hs hy with hy | hsent
    · exact h.original y hy hu x l hx hl hloc
    · obtain ⟨m, hm, r', hr', hb, hbel, hnext, hspec⟩ := sent_spec henv h.client hsent
      have hmu : m.uuid = r.theUuid := hb.uuid.trans (hbel.uuid.symm.trans hu)
      have hbr := hbelongs hr' hb hmu
      rcases hspec x with ⟨hno, hsame⟩ | ⟨-, -, hmoved⟩
      · -- the function does not depend on the state, or it would have moved it
        rw [hsame] at hloc
        have huntouched := h.original m (hrunning m hm) hmu x l hx hl hloc
        refine huntouched.tail ⟨(name_next (hrs r hr) hd hbr hnext).1, fun hdep => ?_⟩
        apply hno l hloc
        exact (dependsOn_of_needs hd hbr (h.name m (hrunning m hm) hmu)).mpr ⟨hx.2, hl, hdep⟩
      · rw [hmoved] at hloc
        exact absurd (Option.some.inj hloc).symm hl
  · rcases pending_change hs hy with hy | hsent
    · exact hlocal x (h.moved y hy hu x l hx hloc)
    · obtain ⟨m, hm, r', hr', hb, hbel, hnext, hspec⟩ := sent_spec henv h.client hsent
      have hmu : m.uuid = r.theUuid := hb.uuid.trans (hbel.uuid.symm.trans hu)
      rcases hspec x with ⟨-, hsame⟩ | ⟨-, hholds, -⟩
      · rw [hsame] at hloc
        exact hlocal x (h.moved m (hrunning m hm) hmu x l hx hloc)
      · exact hholds
  · rcases repos_change henv h.client hs x with hsame | ⟨m, hm, ⟨l', hl', hneeds⟩, -, hend⟩
    · rcases h.held x l hx with hholds | ⟨m, hm, hu, hdep⟩
      · exact .inl ((hsame l).mpr hholds)
      · exact .inr ⟨m, hm.imp (hlog _) (hlog _), hu, hdep⟩
    · right
      by_cases hu : m.uuid = r.theUuid
      · obtain ⟨r', hr', hb⟩ := h.coupled.running m hm
        refine ⟨m, hend, hu, ?_⟩
        exact ((dependsOn_of_needs hd (hbelongs hr' hb hu)
          (h.name m (hrunning m hm) hu)).mp hneeds).2.2
      · rw [h.others m (hrunning m hm) hu x l hx] at hl'
        cases hl'

/-- At the start the states are where the client says, and no other client knows them. -/
theorem tracked_new (hrs : ∀ r ∈ rs, Accepted r) (huuid : (rs.map LambdaRequest.theUuid).Nodup)
    (hr : r ∈ rs) {aStateRepos : ExtTreeMap String (ExtTreeMap String String)}
    (hserver : e ∈ aStateRepos) (hheld : ∀ x l, Remote r x l → x ∈ aStateRepos.getD l ∅)
    (halone : ∀ r' ∈ rs, r' ≠ r → ∀ x l, Remote r x l → x ∉ r'.theStates) (aServerEndpoint : String) :
    Tracked rs r d e (System.new aServerEndpoint (some e) aStateRepos rs) := by
  have hnew : ∀ m ∈ pending (System.new aServerEndpoint (some e) aStateRepos rs),
      ∃ r' ∈ rs, m = r'.toProtobuf := by
    intro m hm
    simp only [pending, System.new, List.map_map, List.append_nil, List.mem_map] at hm
    obtain ⟨r', hr', rfl⟩ := hm
    exact ⟨r', hr', rfl⟩
  have hself : ∀ m ∈ pending (System.new aServerEndpoint (some e) aStateRepos rs),
      m.uuid = r.theUuid → m = r.toProtobuf := by
    intro m hm hu
    obtain ⟨r', hr', rfl⟩ := hnew m hm
    rw [eq_of_uuid huuid hr' hr hu]
  have hindex : r.toProtobuf.nextfunctionindex = 0 := (hrs r hr).index
  refine ⟨coupled_new hrs huuid aServerEndpoint (some e) aStateRepos, rfl, hserver,
    fun m hm hu => ?_, fun m hm hu x => ?_, fun m hm hu x l hx => ?_, fun m hm hu x l hx hl hloc => ?_,
    fun m hm hu x l hx hloc => ?_, fun x l hx => .inl (hheld x l hx)⟩
  · rw [hself m hm hu, hindex, functionAt, if_pos rfl]
    rfl
  · rw [hself m hm hu]
    exact .inl rfl
  · obtain ⟨r', hr', rfl⟩ := hnew m hm
    have hne : r' ≠ r := by
      intro heq
      exact hu (congrArg LambdaRequest.theUuid heq)
    have hnone := halone r' hr' hne x l hx
    simp only [location, LambdaRequest.toProtobuf, serializeStates, ExtTreeMap.getElem?_map]
    rw [ExtTreeMap.getElem?_eq_none hnone]
    rfl
  · rw [hself m hm hu, hindex]
    exact .refl
  · rw [hself m hm hu] at hloc
    have hle : l = e := Option.some.inj (hx.1.symm.trans hloc)
    exact hheld x e (hle ▸ hx)

theorem tracked_run (hrs : ∀ r ∈ rs, Accepted r) (huuid : (rs.map LambdaRequest.theUuid).Nodup)
    (henv : Copies env) (hr : r ∈ rs) (hd : r.theDag = some d)
    {aStateRepos : ExtTreeMap String (ExtTreeMap String String)} (hserver : e ∈ aStateRepos)
    (hheld : ∀ x l, Remote r x l → x ∈ aStateRepos.getD l ∅)
    (halone : ∀ r' ∈ rs, r' ≠ r → ∀ x l, Remote r x l → x ∉ r'.theStates) (aServerEndpoint : String)
    (aActions : List Action) : ∀ s ∈ Runs.states (step env)
      (System.new aServerEndpoint (some e) aStateRepos rs) aActions, Tracked rs r d e s := by
  apply Runs.invariant
  · intro s a h
    exact tracked_change hrs huuid henv hr hd h (step_change hrs h.coupled a)
  · exact tracked_new hrs huuid hr hserver hheld halone aServerEndpoint

end Steps

section Joins

variable {rs : List LambdaRequest} {r : LambdaRequest} {d : Model.Dag} {e : String}
  {env : Environment} {s : System} {m : Rpc.LambdaRequest}

/-- A function that is visited after another one is visited once that is done. -/
private theorem done_of_leads (h : Accepted r) (hd : r.theDag = some d)
    (hacc : Accounted (edges r.toProtobuf) none (marking r.theUuid s)) {u v : Nat}
    (hleads : d.Leads v u) (hu : some u ∈ (marking r.theUuid s).visits) :
    v = u ∨ some v ∈ (marking r.theUuid s).done := by
  induction hleads with
  | refl => exact .inl rfl
  | tail _ he ih =>
    rw [← follows_dag h hd] at he
    have hdone := hacc.preds_done hu (Option.some_ne_none _) (mem_edges.mpr he)
    rcases ih (mem_visits_of_done hdone) with rfl | hv
    · exact .inr hdone
    · exact .inr hv

/-- A function that is executed finds a state where its request says. -/
theorem Tracked.carried (h : Tracked rs r d e s) (hrs : ∀ r ∈ rs, Accepted r) (hr : r ∈ rs)
    (hd : r.theDag = some d) (hm : m ∈ s.theRunning) (hu : m.uuid = r.theUuid) {x l : String}
    (hx : Remote r x l) (hsurvives : l ≠ e → Survives r d x m.nextfunctionindex) :
    ∃ l', location m.states x = some l' ∧ Holds s l' x := by
  have hpending : m ∈ pending s := List.mem_append_right _ hm
  have hacc := h.coupled.accounted r hr
  rcases h.kept m hpending hu x with hloc | ⟨-, hloc⟩
  · rw [hx.1] at hloc
    by_cases hl : l = e
    · subst hl
      exact ⟨l, hloc, h.moved m hpending hu x l hx hloc⟩
    rcases hsurvives hl with htouched | hafter
    · exact absurd (h.original m hpending hu x l hx hl hloc) htouched
    rcases h.held x l hx with hholds | ⟨m', hend, hu', hdep⟩
    · exact ⟨l, hloc, hholds⟩
    · -- the function that has moved it cannot have been executed yet
      exfalso
      have hended : some m'.nextfunctionindex ∈
          (marking r.theUuid s).done + (marking r.theUuid s).failed := by
        rcases hend with hc | hf
        · have hmem : some m'.nextfunctionindex ∈ s.theLog.filterMap (completionOf r.theUuid) :=
            List.mem_filterMap.mpr ⟨_, hc, if_pos hu'⟩
          exact Multiset.mem_add.mpr (.inl (Multiset.mem_cons_of_mem (Multiset.mem_coe.mpr hmem)))
        · have hmem : some m'.nextfunctionindex ∈ s.theLog.filterMap (failureOf r.theUuid) :=
            List.mem_filterMap.mpr ⟨_, hf, if_pos hu'⟩
          exact Multiset.mem_add.mpr (.inr (Multiset.mem_coe.mpr hmem))
      have hvisits : some m'.nextfunctionindex ∈ (marking r.theUuid s).visits := by
        simp only [Marking.visits, Multiset.mem_add] at hended ⊢
        tauto
      have hreach := path_iff.mp (hacc.fires _ hvisits).path
      rw [follows_dag (hrs r hr) hd] at hreach
      have hrunning : some m.nextfunctionindex ∈ (marking r.theUuid s).running := by
        have hmem : some m.nextfunctionindex ∈ s.theRunning.filterMap (nodeOf r.theUuid) :=
          List.mem_filterMap.mpr ⟨m, hm, if_pos hu⟩
        exact Multiset.mem_coe.mpr hmem
      have htwice : some m.nextfunctionindex ∈
          (marking r.theUuid s).done + (marking r.theUuid s).failed := by
        rcases done_of_leads (hrs r hr) hd hacc (hafter _ hreach hdep) hvisits with heq | hdone
        · rw [heq]
          exact hended
        · exact Multiset.mem_add.mpr (.inl hdone)
      have hone := hacc.visits_le_one (some m.nextfunctionindex)
      have hpos := Multiset.count_pos.mpr hrunning
      have hpos' := Multiset.count_pos.mpr htwice
      simp only [Marking.visits, Multiset.count_add] at hone hpos'
      omega
  · exact ⟨e, hloc, h.moved m hpending hu x l hx hloc⟩

/-- The functions at the joins of a DAG find all states where their requests say, and
do not fail because of them, if the shape of the DAG lets the locations survive. -/
theorem joins_find_states (hrs : ∀ r ∈ rs, Accepted r) (huuid : (rs.map LambdaRequest.theUuid).Nodup)
    (henv : Copies env) (hr : r ∈ rs) (hd : r.theDag = some d)
    {aStateRepos : ExtTreeMap String (ExtTreeMap String String)} (hserver : e ∈ aStateRepos)
    (hheld : ∀ x l, Remote r x l → x ∈ aStateRepos.getD l ∅)
    (halone : ∀ r' ∈ rs, r' ≠ r → ∀ x l, Remote r x l → x ∉ r'.theStates)
    (hsurvives : ∀ v, d.Join v → ∀ x l, Remote r x l → l ≠ e → Survives r d x v)
    (aServerEndpoint : String) (aActions : List Action)
    (hs : s ∈ Runs.states (step env) (System.new aServerEndpoint (some e) aStateRepos rs) aActions)
    {i : Nat} (hi : s.theRunning[i]? = some m) (hu : m.uuid = r.theUuid)
    (hjoin : d.Join m.nextfunctionindex) :
    (∀ x l, Remote r x l → ∃ l', location m.states x = some l' ∧ Holds s l' x) ∧
      ∀ err s', blockingExecution env m { s with theRunning := s.theRunning.eraseIdx i } =
        .error err s' → env.realExecution s.theLog.length m = .error err := by
  have h := tracked_run hrs huuid henv hr hd hserver hheld halone aServerEndpoint aActions s hs
  have hm := List.mem_of_getElem? hi
  have hall : ∀ x l, Remote r x l → ∃ l', location m.states x = some l' ∧ Holds s l' x := by
    intro x l hx
    exact h.carried hrs hr hd hm hu hx (hsurvives _ hjoin x l hx)
  refine ⟨hall, fun err s' herr => ?_⟩
  cases hrun : env.realExecution s.theLog.length m with
  | error err' =>
    unfold blockingExecution at herr
    rw [get_bind_apply, hrun] at herr
    cases herr
    rfl
  | ok resp =>
    exfalso
    unfold blockingExecution at herr
    rw [get_bind_apply, hrun] at herr
    have hok := handleRemoteStates_ok (m := m)
      (s := { s with theRunning := s.theRunning.eraseIdx i }) h.client
      (Maps.lookup_of_mem h.server) (henv _ _ _ hrun) fun x l hl hne => ?_
    · exact wp_of_error hok herr id
    · rcases h.kept m (List.mem_append_right _ hm) hu x with hloc | ⟨⟨l', hx⟩, hloc⟩
      · obtain ⟨l', hl', hholds⟩ := hall x l ⟨hloc.symm.trans hl, hne⟩
        cases hl.symm.trans hl'
        exact hholds
      · obtain ⟨l'', hl'', hholds⟩ := hall x l' hx
        cases hl.symm.trans hl''
        exact hholds

end Joins

section Examples

theorem EdgeComputerSim.copies (c : EdgeComputerSim) : Copies c.environment := by
  intro n m resp h x
  rw [c.realExecution_states h]
  exact location_received m.states x

/-- A state of the example DAG that the client has left on another server. -/
def exampleStates (x : String) : ExtTreeMap String State :=
  (∅ : ExtTreeMap String State).insert x ⟨"host1:6473", ""⟩

def exampleRepos (x : String) : ExtTreeMap String (ExtTreeMap String String) :=
  .ofList [("host0:6473", (∅ : ExtTreeMap String String)), ("host1:6473", .ofList [(x, "content")])]

/-- The branches of the example DAG up to the function that joins them; the first
one arrives last. -/
def joinActions : List Action :=
  [.deliver 0, .start 0, .finish 0, .deliver 0, .deliver 0, .start 0, .start 0, .finish 0, .finish 0,
    .deliver 0, .deliver 0, .start 0]

theorem exampleStates_remote {u x y l : String} (h : Remote (exampleRequest u (exampleStates x)) y l) :
    y = x ∧ l = "host1:6473" := by
  have hloc := h.1
  simp only [location, LambdaRequest.toProtobuf, serializeStates, exampleRequest, exampleStates,
    ExtTreeMap.getElem?_map, Maps.lookup_insert] at hloc
  split at hloc
  · next heq =>
    simp only [Option.map_some, Option.some.injEq] at hloc
    exact ⟨heq, hloc.symm⟩
  · simp at hloc

/-- A state that the entry function needs: both branches know where it is. -/
theorem joins_find_states_entry :
    let s := Runs.final (step exampleComputer.environment) (System.new "host0:6473"
      (some "host0:6473") (exampleRepos "s1") [exampleRequest "uuid0" (exampleStates "s1")]) joinActions
    ∃ m, s.theRunning[0]? = some m ∧ m.nextfunctionindex = 3 ∧
      (∀ x l, Remote (exampleRequest "uuid0" (exampleStates "s1")) x l →
        ∃ l', location m.states x = some l' ∧ Holds s l' x) ∧
      ∀ err s', blockingExecution exampleComputer.environment m
          { s with theRunning := s.theRunning.eraseIdx 0 } = .error err s' →
        exampleComputer.environment.realExecution s.theLog.length m = .error err := by
  intro s
  have hrun : (s.theRunning.map fun m => (m.nextfunctionindex, m.uuid)) = [(3, "uuid0")] := by
    decide +kernel
  obtain ⟨m, hm, hpair⟩ := List.map_eq_singleton_iff.mp hrun
  simp only [Prod.mk.injEq] at hpair
  have hget : s.theRunning[0]? = some m := by rw [hm]; rfl
  refine ⟨m, hget, hpair.1, ?_⟩
  apply joins_find_states (d := Model.exampleDag) (m := m) _ (by decide)
    exampleComputer.copies List.mem_cons_self rfl (by decide +kernel) _ _ _ "host0:6473" joinActions
    (Runs.final_mem_states _ _ _) hget hpair.2
  · rw [hpair.1]
    unfold Model.Dag.Join
    decide
  · intro r hr
    rw [List.mem_singleton.mp hr]
    exact ⟨rfl, by decide, rfl⟩
  · intro x l hx
    obtain ⟨rfl, rfl⟩ := exampleStates_remote hx
    decide +kernel
  · intro r hr hne
    exact absurd (List.mem_singleton.mp hr) hne
  · intro v hjoin x l hx _
    obtain ⟨rfl, rfl⟩ := exampleStates_remote hx
    left
    intro huntouched
    rcases Relation.ReflTransGen.cases_head huntouched with rfl | ⟨u, ⟨-, hno⟩, -⟩
    · revert hjoin
      unfold Model.Dag.Join
      decide
    · apply hno
      unfold DependsOn
      decide +kernel

/-- No two branches depend on the same state, and yet the one that arrives last undoes
what the other one says about a state that it has moved. -/
theorem moved_state_lost :
    let r := exampleRequest "uuid0" (exampleStates "s2")
    let s := Runs.final (step exampleComputer.environment) (System.new "host0:6473"
      (some "host0:6473") (exampleRepos "s2") [r]) joinActions
    Accepted r ∧ (∀ j, ¬ Relation.TransGen Model.exampleDag.Follows j j) ∧
      (∀ v ≤ Model.exampleDag.theSuccessors.length, Model.exampleDag.Leads 0 v) ∧
      (∀ x u v, u ≤ Model.exampleDag.theSuccessors.length → v ≤ Model.exampleDag.theSuccessors.length →
        DependsOn r Model.exampleDag x u → DependsOn r Model.exampleDag x v →
        Model.exampleDag.Leads u v ∨ Model.exampleDag.Leads v u) ∧
      (∀ x l, Remote r x l → x ∈ (exampleRepos "s2").getD l ∅) ∧
      ∃ m, s.theRunning[0]? = some m ∧ Model.exampleDag.Join m.nextfunctionindex ∧
        location m.states "s2" = some "host1:6473" ∧ ¬ Holds s "host1:6473" "s2" ∧
        Holds s "host0:6473" "s2" := by
  intro r s
  have hbranches : ∀ x, "f1" ∈ Model.exampleDag.theStates.theDependencies.getD x [] →
      "f2" ∉ Model.exampleDag.theStates.theDependencies.getD x [] := by
    have hall : ∀ p ∈ Model.exampleDag.theStates.theDependencies.toList, "f1" ∈ p.2 → "f2" ∉ p.2 := by
      decide +kernel
    intro x hx
    rw [ExtTreeMap.getD_eq_getD_getElem?] at hx ⊢
    cases hfs : Model.exampleDag.theStates.theDependencies[x]? with
    | none => simp [hfs] at hx
    | some fs =>
      rw [hfs] at hx
      exact hall (x, fs) (Maps.mem_toList.mpr hfs) hx
  have hthree : ∀ u < 4, Model.exampleDag.Leads u 3 := by
    intro u hu
    match u with
    | 0 => exact Model.exampleDag_leads (by decide)
    | 1 => exact .single (by decide)
    | 2 => exact .single (by decide)
    | 3 => exact .refl
  refine ⟨⟨rfl, by decide, rfl⟩, fun j hcycle => Nat.lt_irrefl j (Model.exampleDag_lt hcycle),
    fun v hv => Model.exampleDag_leads (Nat.lt_succ_of_le hv), fun x u v hu hv hdu hdv => ?_,
    fun x l hx => ?_, ?_⟩
  · have hu' : u < 4 := Nat.lt_succ_of_le hu
    have hv' : v < 4 := Nat.lt_succ_of_le hv
    have hcases : u = 0 ∨ v = 0 ∨ u = 3 ∨ v = 3 ∨ u = v ∨ u = 1 ∧ v = 2 ∨ u = 2 ∧ v = 1 := by omega
    rcases hcases with rfl | rfl | rfl | rfl | rfl | ⟨rfl, rfl⟩ | ⟨rfl, rfl⟩
    · exact .inl (Model.exampleDag_leads hv')
    · exact .inr (Model.exampleDag_leads hu')
    · exact .inr (hthree v hv')
    · exact .inl (hthree u hu')
    · exact .inl .refl
    · exact absurd hdv (hbranches x hdu)
    · exact absurd hdu (hbranches x hdv)
  · obtain ⟨rfl, rfl⟩ := exampleStates_remote hx
    decide +kernel
  · have hrun : (s.theRunning.map fun m => (m.nextfunctionindex, location m.states "s2")) =
        [(3, some "host1:6473")] := by
      decide +kernel
    obtain ⟨m, hm, hpair⟩ := List.map_eq_singleton_iff.mp hrun
    simp only [Prod.mk.injEq] at hpair
    refine ⟨m, by rw [hm]; rfl, ?_, hpair.2, ?_, ?_⟩
    · rw [hpair.1]
      unfold Model.Dag.Join
      decide
    · unfold Holds
      decide +kernel
    · unfold Holds
      decide +kernel

end Examples

end ServerlessEdge.Computer
