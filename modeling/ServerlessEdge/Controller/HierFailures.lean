import ServerlessEdge.Controller.HierCoherence

/-! Announcements that throw: what they leave behind, with all routers answering,
and when it makes no difference to anything that follows. -/
namespace ServerlessEdge.Controller.EdgeControllerHier
open Std Library Maps Triple EdgeController

def loadTopology (aTopology : Topology) : Member EdgeControllerHier Unit := do
  match (← get).theDerived.theTopology with
  | some _ => throw "Topology already loaded, cannot be changed afterwards"
  | none => modifyHier fun d => { d with theTopology := some aTopology }

def objective (aObjective : Objective) : Member EdgeControllerHier Unit := do
  match (← get).theDerived.theObjective with
  | some _ => throw "Objective already set, cannot be changed afterwards"
  | none => modifyHier fun d => { d with theObjective := some aObjective }

/-- All that can be asked of a controller. -/
inductive Request where
  | loadTopology (aTopology : Topology)
  | objective (aObjective : Objective)
  | call (aCall : Call)
  | reset

def handle (env : Environment) : Request → Member EdgeControllerHier Unit
  | .loadTopology t => loadTopology t
  | .objective o => objective o
  | .call a => serve env a
  | .reset => do reset env (resets (← get))

/-- The state after a request, whether it returns or throws. -/
def request (env : Environment) (s : State) (aRequest : Request) : State :=
  after (handle env aRequest) s

/-- The registries are the same and so are the tables of the registered routers. -/
structure Agree (s s' : State) : Prop where
  computers : s'.theComputers = s.theComputers
  lambdas : s'.theLambdas = s.theLambdas
  routers : s'.theRouters = s.theRouters
  addresses : s'.theDerived.theRouterAddresses = s.theDerived.theRouterAddresses
  tables : ∀ {r f : String}, s.theRouters[r]? = some f →
    s'.theDerived.theNetwork.tables[f]? = s.theDerived.theNetwork.tables[f]?

/-- From now on no request tells the two states apart. -/
def Unharmed (env : Environment) (s s' : State) : Prop :=
  ∀ aRequests, Agree (Runs.final (request env) s aRequests) (Runs.final (request env) s' aRequests)

/-- A table server that answers commands. -/
def Listening (s : State) (f : String) : Prop := f ≠ "" ∧ f ∈ s.theDerived.theNetwork.tables

/-- All commands are answered by all the table servers that the controller knows. -/
structure Answering (env : Environment) (s : State) : Prop where
  outcome : ∀ i, env.outcome i = .answered
  router : ∀ {r f : String}, s.theRouters[r]? = some f → Listening s f
  endpoint : ∀ {r f : String}, s.theDerived.theForwardingTableEndpoints[r]? = some f → Listening s f

/-- An announcement; a router that announces itself answers commands. -/
def Announcement (s : State) : Call → Prop
  | .announceRouter _ f => Listening s f
  | .announceComputer _ _ => True
  | .removeComputer _ => False

/-- The router has no address and is registered already, with this table server. -/
def Repeated (s : State) (a : Call) : Prop :=
  ∃ e f err, a = .announceRouter e f ∧ address e = .error err ∧ s.theRouters[e]? = some f

section Answering

variable {env : Environment} {s : State}

/-- Returning or throwing, the program ends in a state that a quiet step leads to
from s; the value returned satisfies P. -/
abbrev EndsQuiet {A : Type} (s : State) (P : A → Prop) (m : Member EdgeControllerHier A) :
    State → Prop :=
  wp (fun _ => False) m (fun a s' => P a ∧ Quiet s s') (fun _ s' => Quiet s s')

private theorem never_bad {A : Type} (m : Member EdgeControllerHier A) :
    Stable (fun _ => False) m := fun _ h => h

theorem endsQuiet_of_moves {A : Type} {m : Member EdgeControllerHier A} (hm : Moves Quiet m)
    {s' : State} (hs : Quiet s s') : EndsQuiet s (fun _ => True) m s' := by
  have h := IsTrans.trans _ _ _ hs (hm s')
  unfold EndsQuiet wp
  unfold after at h
  cases hr : m s' <;> rw [hr] at h
  · exact .inr ⟨trivial, h⟩
  · exact .inr h

/-- Commands to a table server that the controller knows return true. -/
theorem commands_true (h : Answering env s) {s' : State} (hs : Quiet s s') {f : String}
    (hf : Listening s f) (qs : List (Forwarding.EdgeRouterConf ℚ)) :
    EndsQuiet s (fun b => b = true) (onNetwork (Network.commands env f qs)) s' := by
  have hq := IsTrans.trans _ _ _ hs (@quiet_commands env f qs s')
  have htrue := Network.commands_answered h.outcome hf.1 qs ((hs.servers f).mpr hf.2)
  exact .inr ⟨htrue, hq⟩

/-- A loop over table servers that the controller knows finds none that fails. -/
theorem findM?_none (h : Answering env s) (xs : List (String × String))
    (hxs : ∀ x ∈ xs, Listening s x.2) (qs : List (Forwarding.EdgeRouterConf ℚ)) {s' : State}
    (hs : Quiet s s') : EndsQuiet s (fun x => x = none)
      (xs.findM? fun x => do return !(← onNetwork (Network.commands env x.2 qs))) s' := by
  refine wp_findM? (fun _ s' => Quiet s s') (fun _ => never_bad _) xs ?_ ?_ hs
  · rintro l x r s₁ hl hs₁
    have hx : x ∈ xs := by simp [hl]
    refine wp_bind (fun _ => never_bad _) (commands_true h hs₁ (hxs x hx) qs) ?_
    rintro b s₂ ⟨rfl, hs₂⟩
    exact wp_pure hs₂
  · exact fun s₁ hs₁ => ⟨rfl, hs₁⟩

theorem privateAnnounceComputer_quiet (h : Answering env s) {r : Member EdgeControllerHier Unit}
    (c : String) (cs : ContainerList) {s' : State} (hs : Quiet s s') :
    EndsQuiet s (fun _ => True) (privateAnnounceComputer env r c cs) s' := by
  refine wp_get_bind ?_
  split
  · exact wp_pure ⟨trivial, hs⟩
  refine wp_bind (fun _ => never_bad _) (endsQuiet_of_moves (quiet_homeRouter c) hs) ?_
  rintro home s₁ ⟨-, hs₁⟩
  have hfinal : EndsQuiet s (fun b => b = true)
      (announceFinal env home (cs.lambdas.map fun l => ⟨l, c, 1, true⟩)) s₁ := by
    refine wp_get_bind ?_
    dsimp only
    split
    · exact wp_pure ⟨rfl, hs₁⟩
    · next hne =>
      -- the home router is registered, since it has a table server
      refine commands_true h hs₁ ?_ _
      rw [forwardingServerEndpoint, hs₁.routers, ExtTreeMap.getD_eq_getD_getElem?] at hne ⊢
      cases hr : s.theRouters[home]? with
      | none => simp [hr] at hne
      | some f => exact h.router hr
  refine wp_bind (fun _ => never_bad _) hfinal ?_
  rintro b s₂ ⟨rfl, hs₂⟩
  refine wp_bind (fun _ => never_bad _) (endsQuiet_of_moves (quiet_noteAnnounced home c _) hs₂) ?_
  rintro es s₃ ⟨-, hs₃⟩
  refine wp_get_bind (wp_bind (fun _ => never_bad _) (findM?_none h _ ?_ _ hs₃) ?_)
  · intro x hx
    have hx' : (x.1, x.2) ∈ s.theRouters.toList := by
      rw [← hs₃.routers]
      exact List.mem_of_mem_filter hx
    exact h.router (mem_toList.mp hx')
  · rintro x s₄ ⟨rfl, hs₄⟩
    exact wp_pure ⟨trivial, hs₄⟩

/-- While all table servers answer a reset changes nothing but their tables. -/
theorem reset_quiet (h : Answering env s) (n : Nat) : Quiet s (after (reset env (n + 1)) s) := by
  apply after_of_wp
  have hstart : Quiet s s := Std.Refl.refl s
  refine wp_get_bind (wp_bind (fun _ => never_bad _) (findM?_none h _ ?_ _ hstart) ?_)
  · intro x hx
    exact h.endpoint (mem_toList.mp hx)
  rintro x s₁ ⟨rfl, hs₁⟩
  refine wp_bind (fun _ => never_bad _) (endsQuiet_of_moves (quiet_announcedLambdas _) hs₁) ?_
  rintro _ s₂ ⟨-, hs₂⟩
  refine wp_bind (fun _ => never_bad _) (endsQuiet_of_moves (quiet_record _) hs₂) ?_
  rintro _ s₃ ⟨-, hs₃⟩
  refine wp_get_bind (wp_forM (fun _ s' => Quiet s s') (fun _ => never_bad _) _ ?_ ?_ hs₃)
  · intro l x r s₄ _ hs₄
    refine wp_mono (privateAnnounceComputer_quiet h x.1 x.2 hs₄) ?_ ?_
    · exact fun _ s₅ hs₅ => hs₅.2
    · exact fun _ s₅ hs₅ => hs₅
  · exact fun s₄ hs₄ => hs₄

end Answering

/-- A router with an address is listed, whatever happens after that. -/
theorem announceRouter_lists {env : Environment} {s : State} (h : Answering env s) {e f a : String}
    (ha : address e = .ok a) (hf : Listening s f) :
    (after (announceRouter (hooks env) e f) s).theDerived.theRouterAddresses[a]? =
      some ((s.theDerived.theRouterAddresses[a]?).getD [] ++ [e]) := by
  obtain ⟨k, hk, hrun⟩ := @announceRouter_eq env e f a s ha
  obtain ⟨n, rfl⟩ : ∃ n, k = n + 1 := ⟨k - 1, by omega⟩
  have hadded : Answering env (added e f a s) := by
    refine ⟨h.outcome, fun {r g} hr => ?_, fun {r g} hr => ?_⟩
    · rw [getElem?_added] at hr
      split at hr
      · cases hr
        exact hf
      · exact h.router hr
    · simp only [added, enlisted, ExtTreeMap.getElem?_insertIfNew] at hr
      split at hr
      · cases hr
        exact hf
      · exact h.endpoint hr
  rw [after, hrun]
  have haddr := (reset_quiet hadded n).addresses
  rw [after] at haddr
  rw [haddr, addresses_added, if_pos rfl]

/-- Nothing but the calls of the base class changes the registered computers. -/
def SameComputers (s s' : State) : Prop := s'.theComputers = s.theComputers

instance : Std.Refl SameComputers := ⟨fun _ => rfl⟩

instance : IsTrans State SameComputers := ⟨fun _ _ _ h h' => h'.trans h⟩

theorem sameComputers_privateRemoveRouter {r : Member EdgeControllerHier Unit}
    (hr : Moves SameComputers r) (e : String) : Moves SameComputers (privateRemoveRouter r e) := by
  have hmodify (f : EdgeControllerHier → EdgeControllerHier) : Moves SameComputers (modifyHier f) :=
    moves_modify fun _ => rfl
  refine moves_bind (moves_mono (quiet_addressOf e) fun _ _ h => h.computers) fun a => ?_
  refine moves_bind moves_get fun s => ?_
  split
  · exact moves_throw _
  · dsimp only
    split
    · exact moves_bind (hmodify _) fun _ => moves_bind (hmodify _) fun _ => hr
    · exact moves_bind (hmodify _) fun _ => moves_bind (hmodify _) fun _ => hr

theorem carried_sameComputers (env : Environment) : Carried env SameComputers := by
  have herase (e : String) : Moves SameComputers (eraseRouter e) := moves_modify fun _ => rfl
  refine ⟨fun _ _ h => h.computers, fun hr e => ?_, fun hr e => ?_⟩
  · exact moves_bind (herase e) fun _ => sameComputers_privateRemoveRouter hr e
  · have hread : Moves SameComputers (record (.freedRead e)) :=
      moves_mono (quiet_record _) fun _ _ h => h.computers
    exact moves_bind (herase e) fun _ => moves_bind hread fun _ =>
      sameComputers_privateRemoveRouter hr _

/-- A computer that was not known is registered by its announcement, also where
the announcement throws. -/
theorem announceNew_registers (env : Environment) {c : String} (cs : ContainerList) {s : State}
    (hc : s.theComputers[c]? = none) :
    (after (announceComputer (hooks env) c cs) s).theComputers[c]? = some cs := by
  obtain ⟨m, hrun⟩ := @announceComputer_new env c cs s hc
  have hcarried := carried_sameComputers env
  have hsame := hcarried.privateAnnounceComputer (hcarried.reset (resets (joined c cs m s))) c cs
    (joined c cs m s)
  rw [after] at hsame ⊢
  rw [hrun, hsame, joined, lookup_insert, if_pos rfl]

/-- The removal of a computer forgets it, also where the removal throws. -/
theorem removeComputer_forgets (env : Environment) (c : String) (s : State) :
    (after (removeComputer (hooks env) c) s).theComputers[c]? = none := by
  obtain ⟨m, hrun⟩ := removeComputer_eq env c s
  have hcarried := carried_sameComputers env
  have hsame := hcarried.privateRemoveComputer (hcarried.reset (resets (departed c m s))) c
    (offered c s) (departed c m s)
  rw [after] at hsame ⊢
  rw [hrun, hsame, departed, lookup_erase, if_pos rfl]

/-- An announcement of a computer that throws has changed its containers. -/
theorem announceComputer_throws {env : Environment} {c err : String} {cs : ContainerList}
    {s s' : State} (h : announceComputer (hooks env) c cs s = .error err s') :
    s'.theComputers[c]? ≠ s.theComputers[c]? := by
  cases hc : s.theComputers[c]? with
  | none =>
    have hnew := announceNew_registers env cs hc
    rw [after, h] at hnew
    rw [hnew]
    exact fun heq => by cases heq
  | some cs' =>
    by_cases hcs : cs' = cs
    · subst hcs
      rw [announceComputer_again (hooks env) hc] at h
      cases h
    · rw [announceComputer_changed (hooks env) hc hcs] at h
      have hgone := removeComputer_forgets env c s
      cases hr : removeComputer (hooks env) c s with
      | error err' s₁ =>
        rw [bind_of_error hr] at h
        cases h
        rw [after, hr] at hgone
        rw [hgone]
        exact fun heq => by cases heq
      | ok _ s₁ =>
        rw [after, hr] at hgone
        rw [bind_of_ok hr, addNotify_eq (hooks env) hgone] at h
        have hnew := announceNew_registers env cs hgone
        rw [after, h] at hnew
        rw [hnew]
        exact fun heq => hcs (Option.some.inj heq).symm

/-- An announcement that throws is harmless exactly if it repeats one of a router
without an address. -/
theorem failed_announcement_unharmed_iff {env : Environment} {s s' : State} {a : Call} {err : String}
    (h : Answering env s) (ha : Announcement s a) (hthrows : serve env a s = .error err s') :
    Unharmed env s s' ↔ Repeated s a := by
  constructor
  · intro hsame
    have hagree : Agree s s' := hsame []
    cases a with
    | announceRouter e f =>
      cases haddr : address e with
      | error err' =>
        refine ⟨e, f, err', rfl, haddr, ?_⟩
        have hrun := @announceRouter_error env e f err' s haddr
        rw [serve, hrun] at hthrows
        cases hthrows
        rw [← hagree.routers, lookup_insert, if_pos rfl]
      | ok a =>
        -- the router is now listed once more
        have hlists := announceRouter_lists h haddr ha
        rw [serve] at hthrows
        rw [after, hthrows, hagree.addresses] at hlists
        have hlength := congrArg (fun l => (l.getD []).length) hlists
        simp only [Option.getD_some, List.length_append, List.length_singleton] at hlength
        omega
    | announceComputer c cs =>
      refine absurd ?_ (announceComputer_throws hthrows)
      rw [hagree.computers]
    | removeComputer c => exact absurd ha id
  · rintro ⟨e, f, err', rfl, haddr, hr⟩
    have hrun := @announceRouter_error env e f err' s haddr
    rw [serve, hrun] at hthrows
    cases hthrows
    have hsame : s.theRouters.insert e f = s.theRouters := by
      refine ExtTreeMap.ext_getElem? fun r => ?_
      rw [lookup_insert]
      split
      · next heq => rw [heq, hr]
      · rfl
    rw [hsame]
    exact fun _ => ⟨rfl, rfl, rfl, rfl, fun _ => rfl⟩

section Example

def allAnswered : Environment := ⟨fun _ => .answered, id, id⟩

/-- Two nodes and no router yet. -/
def twoIdle : State := fresh (some twoNodes) (some .MinMax) fourServers

/-- The second announcement of a router without an address. -/
theorem repeated_unharmed :
    let s := Runs.final (request allAnswered) twoIdle [.call (.announceRouter "b" "b:2")]
    ∃ err s', serve allAnswered (.announceRouter "b" "b:2") s = .error err s' ∧
      Unharmed allAnswered s s' := by
  intro s
  have haddr : address "b" = .error "Invalid end-point: b" := by decide
  have hs : s = { twoIdle with theRouters := twoIdle.theRouters.insert "b" "b:2" } := by
    have hrun := announceRouter_error allAnswered (f := "b:2") (s := twoIdle) haddr
    simp only [s, Runs.final, List.foldl, request, handle, serve, after, hrun]
  have hlookup (r : String) : s.theRouters[r]? = if r = "b" then some "b:2" else none := by
    rw [hs, lookup_insert]
    simp [twoIdle, fresh]
  have hlistening : Listening s "b:2" := by
    rw [hs]
    exact ⟨by decide, by decide +kernel⟩
  have hanswering : Answering allAnswered s := by
    refine ⟨fun _ => rfl, fun {r f} hr => ?_, fun {r f} hr => ?_⟩
    · rw [hlookup] at hr
      split at hr
      · cases hr
        exact hlistening
      · cases hr
    · rw [hs] at hr
      simp [twoIdle, fresh] at hr
  let a : Call := .announceRouter "b" "b:2"
  have hthrows : serve allAnswered a s = .error _ _ := announceRouter_error allAnswered haddr
  have ha : Announcement s a := hlistening
  refine ⟨_, _, hthrows, (failed_announcement_unharmed_iff hanswering ha hthrows).mpr ?_⟩
  exact ⟨"b", "b:2", _, rfl, haddr, by rw [hlookup, if_pos rfl]⟩

/-- A computer at an address that is not in the topology stays registered, and
every reset from then on throws. -/
theorem unknown_computer_registered :
    ¬ ∀ (env : Environment) (t : Option Topology) (o : Option Objective)
      (aTables : ExtTreeMap String (Forwarding.EdgeRouter ℚ)) (aRequests : List Request) (a : Call)
      (err : String) (s' : State), Answering env (Runs.final (request env) (fresh t o aTables) aRequests) →
        Announcement (Runs.final (request env) (fresh t o aTables) aRequests) a →
        serve env a (Runs.final (request env) (fresh t o aTables) aRequests) = .error err s' →
          Unharmed env (Runs.final (request env) (fresh t o aTables) aRequests) s' := by
  intro h
  let s := Runs.final (request allAnswered) twoIdle [.call (.announceRouter "a:1" "a:2")]
  let a : Call := .announceComputer "z:5" ⟨[⟨"container", "processor", "lambda0", 1⟩]⟩
  have hlistening : Listening s "a:2" := ⟨by decide, by decide +kernel⟩
  have hrouters : s.theRouters.toList = [("a:1", "a:2")] := by decide +kernel
  have hendpoints : s.theDerived.theForwardingTableEndpoints.toList = [("a:1", "a:2")] := by
    decide +kernel
  have hanswering : Answering allAnswered s := by
    refine ⟨fun _ => rfl, fun {r f} hr => ?_, fun {r f} hr => ?_⟩
    · rw [← mem_toList, hrouters, List.mem_singleton] at hr
      cases hr
      exact hlistening
    · rw [← mem_toList, hendpoints, List.mem_singleton] at hr
      cases hr
      exact hlistening
  cases hrun : serve allAnswered a s with
  | ok u s' =>
    have hthrows : (match serve allAnswered a s with
      | .ok _ _ => false
      | .error _ _ => true) = true := by decide +kernel
    rw [hrun] at hthrows
    cases hthrows
  | error err s' =>
    have hsame : Unharmed allAnswered s s' := h _ _ _ _ _ a err s' hanswering trivial hrun
    have hcomputers : s'.theComputers = s.theComputers := (hsame []).computers
    have hkeys : (after (serve allAnswered a) s).theComputers.keys = ["z:5"] := by decide +kernel
    rw [after, hrun, hcomputers] at hkeys
    exact absurd hkeys (by decide +kernel)

end Example
end ServerlessEdge.Controller.EdgeControllerHier
