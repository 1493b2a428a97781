import ServerlessEdge.Forwarding.EdgeRouter

/-! The table servers as the controller meets them over the network. A command
may be answered, be carried out without its answer coming back, or be lost. -/
namespace ServerlessEdge.Controller
open Std Forwarding

inductive Outcome where
  | answered
  | unanswered
  | lost
  deriving DecidableEq, Repr

/-- What the controller does not decide: the fate of the n-th event, its random
draws, and what is read where a string has been freed. -/
structure Environment where
  outcome : Nat → Outcome
  random : Nat → Nat
  freed : String → String

/-- What an observer of a controller sees. -/
inductive Event where
  | command (aEndpoint : String) (aReq : EdgeRouterConf ℚ) (aAnswered : Bool)
  | freedRead (aKey : String)
  | home (aComputer aRouter : String)
  | clear
  | forget (aComputer : String)

/-- The table servers by their end-point, and the events so far, latest first. -/
structure Network where
  tables : ExtTreeMap String (EdgeRouter ℚ)
  log : List Event

/-- An element of a list of routes to be announced. -/
structure Route where
  lambda : String
  destination : String
  weight : ℚ
  final : Bool
  deriving DecidableEq, Repr

namespace Network

/-- The overall table of a server; nothing is in it if there is no server. -/
def flags (n : Network) (aEndpoint : String) : String × String → Option Bool :=
  match n.tables[aEndpoint]? with
  | some r => r.theOverallTable.flags
  | none => fun _ => none

def record (n : Network) (aEvent : Event) : Network := { n with log := aEvent :: n.log }

def carryOut (n : Network) (aEndpoint : String) (aReq : EdgeRouterConf ℚ) : Network :=
  { n with tables := n.tables.modify aEndpoint fun r => r.configure aReq }

/-- Send a command and wait for the answer. Nobody answers at an end-point
without a table server, nor at the empty one. -/
def command (env : Environment) (aEndpoint : String) (aReq : EdgeRouterConf ℚ) (n : Network) :
    Bool × Network :=
  if aEndpoint = "" ∨ aEndpoint ∉ n.tables then
    (false, n.record (.command aEndpoint aReq false))
  else match env.outcome n.log.length with
    | .lost => (false, n.record (.command aEndpoint aReq false))
    | .unanswered => (false, (n.carryOut aEndpoint aReq).record (.command aEndpoint aReq false))
    | .answered => (true, (n.carryOut aEndpoint aReq).record (.command aEndpoint aReq true))

/-- Send commands one at a time up to the first one that is not answered. -/
def commands (env : Environment) (aEndpoint : String) :
    List (EdgeRouterConf ℚ) → Network → Bool × Network
  | [], n => (true, n)
  | q :: qs, n =>
    let myRet := n.command env aEndpoint q
    if myRet.1 then commands env aEndpoint qs myRet.2 else myRet

def changeRoutes (env : Environment) (aEndpoint : String) (aLambdas : List Route) :
    Network → Bool × Network :=
  commands env aEndpoint (aLambdas.map fun x => ⟨.CHANGE, x.lambda, x.destination, x.weight, x.final⟩)

def removeRoutes (env : Environment) (aEdgeRouterEndpoint aEdgeComputerEndpoint : String)
    (aLambdas : List String) : Network → Bool × Network :=
  commands env aEdgeRouterEndpoint
    (aLambdas.map fun l => ⟨.REMOVE, l, aEdgeComputerEndpoint, 0, false⟩)

def flushRoutes (env : Environment) (aEdgeRouterEndpoint : String) : Network → Bool × Network :=
  commands env aEdgeRouterEndpoint [⟨.FLUSH, "", "", 0, false⟩]

end Network

/-- What a command does to an overall table. -/
def applied (aReq : EdgeRouterConf ℚ) (f : String × String → Option Bool) :
    String × String → Option Bool :=
  match aReq.action with
  | .FLUSH => fun _ => none
  | .CHANGE =>
    if ForwardingTable.Refused aReq.destination aReq.weight then f
    else Function.update f (aReq.lambda, aReq.destination) (some aReq.final)
  | .REMOVE => Function.update f (aReq.lambda, aReq.destination) none
  | .unrecognized _ => f

theorem flags_configure (r : EdgeRouter ℚ) (aReq : EdgeRouterConf ℚ) :
    (r.configure aReq).theOverallTable.flags = applied aReq r.theOverallTable.flags := by
  cases ha : aReq.action with
  | FLUSH => simpa only [applied, ha] using (r.configure_flush ha).1
  | REMOVE =>
    rw [r.configure_remove ha]
    simp only [applied, ha]
    exact ForwardingTable.flags_remove r.theOverallTable _ _
  | unrecognized v =>
    rw [r.configure_unrecognized ha]
    simp only [applied, ha]
  | CHANGE =>
    by_cases hr : ForwardingTable.Refused aReq.destination aReq.weight
    · simpa only [applied, ha, if_pos hr] using (r.configure_change_refused ha hr).1
    · simpa only [applied, ha, if_neg hr] using (r.configure_change ha hr).1

namespace Network

variable {env : Environment}

theorem flags_carryOut {n : Network} {aEndpoint : String} (h : aEndpoint ∈ n.tables)
    (aReq : EdgeRouterConf ℚ) : (n.carryOut aEndpoint aReq).flags =
      Function.update n.flags aEndpoint (applied aReq (n.flags aEndpoint)) := by
  funext e
  have hs : n.tables[aEndpoint]? = some n.tables[aEndpoint] :=
    ExtTreeMap.getElem?_eq_some_getElem h
  have hm : (n.carryOut aEndpoint aReq).tables[e]? =
      if e = aEndpoint then some (n.tables[aEndpoint].configure aReq) else n.tables[e]? := by
    simp only [carryOut, ExtTreeMap.getElem?_modify, LawfulEqCmp.compare_eq_iff_eq, hs,
      Option.map_some, eq_comm (a := aEndpoint)]
  rw [Function.update_apply, flags, hm]
  by_cases he : e = aEndpoint
  · simp only [flags, if_pos he, hs]
    exact flags_configure _ _
  · simp only [flags, if_neg he]

/-- All that a command can do. -/
theorem command_cases (env : Environment) (ep : String) (q : EdgeRouterConf ℚ) (n : Network) :
    ∃ b n', n.command env ep q = (b, n') ∧ n'.log = .command ep q b :: n.log ∧
      (∀ e, e ∈ n'.tables ↔ e ∈ n.tables) ∧
      (n'.flags = n.flags ∧ b = false ∨
        n'.flags = Function.update n.flags ep (applied q (n.flags ep))) := by
  unfold command
  split
  · exact ⟨_, _, rfl, rfl, fun _ => Iff.rfl, .inl ⟨rfl, rfl⟩⟩
  · next h =>
    have hm : ep ∈ n.tables := by
      by_contra hn
      exact h (.inr hn)
    split
    · exact ⟨_, _, rfl, rfl, fun _ => Iff.rfl, .inl ⟨rfl, rfl⟩⟩
    · exact ⟨_, _, rfl, rfl, fun _ => ExtTreeMap.mem_modify, .inr (flags_carryOut hm q)⟩
    · exact ⟨_, _, rfl, rfl, fun _ => ExtTreeMap.mem_modify, .inr (flags_carryOut hm q)⟩

/-- All that a list of commands can do. Only the table of the server they are
sent to is affected, and it is exactly known once all are answered. -/
theorem commands_cases (env : Environment) (ep : String) (qs : List (EdgeRouterConf ℚ))
    (n : Network) : ∃ b n' es, n.commands env ep qs = (b, n') ∧ n'.log = es ++ n.log ∧
      (∀ x ∈ es, ∃ q c, x = .command ep q c) ∧ (∀ e, e ∈ n'.tables ↔ e ∈ n.tables) ∧
      (∀ e, e ≠ ep → n'.flags e = n.flags e) ∧
      (b = true → n'.flags ep = qs.foldl (fun f q => applied q f) (n.flags ep)) ∧
      (b = false → ∃ q, .command ep q false ∈ es) := by
  induction qs generalizing n with
  | nil => exact ⟨true, n, [], rfl, rfl, by simp, by simp, by simp, by simp, by simp⟩
  | cons q qs ih =>
    obtain ⟨b, n', hc, hlog, hmem, hflags⟩ := command_cases env ep q n
    have hother : ∀ e, e ≠ ep → n'.flags e = n.flags e := by
      intro e he
      rcases hflags with ⟨hf, _⟩ | hf
      · rw [hf]
      · rw [hf, Function.update_of_ne he]
    cases b with
    | false =>
      refine ⟨false, n', [.command ep q false], ?_, hlog, ?_, hmem, hother, by simp, ?_⟩
      · simp [commands, hc]
      · intro x hx
        exact ⟨q, false, List.mem_singleton.mp hx⟩
      · exact fun _ => ⟨q, List.mem_singleton_self _⟩
    | true =>
      have hf : n'.flags ep = applied q (n.flags ep) := by
        rcases hflags with ⟨_, h⟩ | hf
        · cases h
        · rw [hf, Function.update_self]
      obtain ⟨b, n'', es, hcs, hlog', hes, hmem', hother', hfold, hfail⟩ := ih n'
      refine ⟨b, n'', es ++ [.command ep q true], ?_, ?_, ?_, ?_, ?_, ?_, ?_⟩
      · simpa [commands, hc] using hcs
      · rw [hlog', hlog, List.append_assoc]
        rfl
      · intro x hx
        rcases List.mem_append.mp hx with hx | hx
        · exact hes x hx
        · exact ⟨q, true, List.mem_singleton.mp hx⟩
      · exact fun e => (hmem' e).trans (hmem e)
      · exact fun e he => (hother' e he).trans (hother e he)
      · intro hb
        rw [hfold hb, hf]
        rfl
      · intro hb
        obtain ⟨q', hq'⟩ := hfail hb
        exact ⟨q', List.mem_append_left _ hq'⟩

/-- What each of the commands preserves of a table, all of them preserve of every
table, however many are carried out. -/
theorem commands_preserve {P : (String × String → Option Bool) → Prop} (ep : String)
    {qs : List (EdgeRouterConf ℚ)} (hq : ∀ q ∈ qs, ∀ f, P f → P (applied q f)) {n : Network}
    {e : String} (he : P (n.flags e)) : P ((n.commands env ep qs).2.flags e) := by
  induction qs generalizing n with
  | nil => exact he
  | cons q qs ih =>
    obtain ⟨hfirst, hrest⟩ := List.forall_mem_cons.mp hq
    obtain ⟨b, n', hc, _, _, hflags⟩ := command_cases env ep q n
    have hnext : P (n'.flags e) := by
      rcases hflags with ⟨hf, _⟩ | hf
      · rw [hf]
        exact he
      · rw [hf, Function.update_apply]
        split
        · next heq => exact hfirst _ (heq ▸ he)
        · exact he
    cases b with
    | false =>
      have hrun : n.commands env ep (q :: qs) = (false, n') := by
        simp only [commands, hc, Bool.false_eq_true, if_false]
      rw [hrun]
      exact hnext
    | true =>
      have hrun : n.commands env ep (q :: qs) = n'.commands env ep qs := by
        simp only [commands, hc, if_true]
      rw [hrun]
      exact ih hrest hnext

/-- Commands to a server that answers are all carried out. -/
theorem commands_answered {ep : String} (h : ∀ i, env.outcome i = .answered) (hne : ep ≠ "")
    (qs : List (EdgeRouterConf ℚ)) {n : Network} (hep : ep ∈ n.tables) :
    (n.commands env ep qs).1 = true := by
  induction qs generalizing n with
  | nil => rfl
  | cons q qs ih =>
    have hcmd : n.command env ep q =
        (true, (n.carryOut ep q).record (.command ep q true)) := by
      simp only [command, hne, hep, not_true_eq_false, or_self, if_false, h]
    simp only [commands, hcmd, if_true]
    exact ih (ExtTreeMap.mem_modify.mpr hep)

/-- Where no table server listens the first command is the last one. -/
theorem commands_lost {ep : String} {n : Network} (h : ep ∉ n.tables) (q : EdgeRouterConf ℚ)
    (qs : List (EdgeRouterConf ℚ)) :
    n.commands env ep (q :: qs) = (false, n.record (.command ep q false)) := by
  have hcmd : n.command env ep q = (false, n.record (.command ep q false)) := by
    rw [command, if_pos (.inr h)]
  simp only [commands, hcmd, Bool.false_eq_true, if_false]

/-- A server that answers a command has an end-point and is there. -/
theorem server_of_answered {ep : String} {q : EdgeRouterConf ℚ} {qs : List (EdgeRouterConf ℚ)}
    {n : Network} (h : (n.commands env ep (q :: qs)).1 = true) : ep ≠ "" ∧ ep ∈ n.tables := by
  by_contra hn
  have hcmd : n.command env ep q = (false, n.record (.command ep q false)) := by
    rw [command, if_pos]
    tauto
  simp [commands, hcmd] at h

end Network
end ServerlessEdge.Controller
