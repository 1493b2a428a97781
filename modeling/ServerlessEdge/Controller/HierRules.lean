import ServerlessEdge.Library.Maps
import ServerlessEdge.Controller.EdgeControllerHier

/-! Rules for relations between the states before and after a member function of
the hierarchical controller: a relation that the quiet steps and the removals of
routers respect holds across every function. -/
namespace ServerlessEdge.Controller.EdgeControllerHier
open Std Library Triple EdgeController

/-- The events so far, latest first. -/
abbrev log (s : State) : List Event := s.theDerived.theNetwork.log

/-- No event is ever taken back. -/
def Grows (s s' : State) : Prop := log s <:+ log s'

instance : Std.Refl Grows := ⟨fun s => List.suffix_refl (log s)⟩

instance : IsTrans State Grows := ⟨fun _ _ _ => List.IsSuffix.trans⟩

/-- The router address that is closest to an address, found from scratch. -/
def Computed (s : State) (b a : String) : Prop :=
  ∃ t o, s.theDerived.theTopology = some t ∧ s.theDerived.theObjective = some o ∧
    s.theDerived.theRouterAddresses.isEmpty = false ∧
    closest t o s.theDerived.theRouterAddresses.keys b = .ok a

/-- The steps that leave alone the computers and the routers, in the tables of
which they may change something. What they cache has been computed. -/
structure Quiet (s s' : State) : Prop where
  computers : s'.theComputers = s.theComputers
  lambdas : s'.theLambdas = s.theLambdas
  routers : s'.theRouters = s.theRouters
  addresses : s'.theDerived.theRouterAddresses = s.theDerived.theRouterAddresses
  endpoints : s'.theDerived.theForwardingTableEndpoints = s.theDerived.theForwardingTableEndpoints
  topology : s'.theDerived.theTopology = s.theDerived.theTopology
  objective : s'.theDerived.theObjective = s.theDerived.theObjective
  cached : ∀ b a : String, s'.theDerived.theClosest[b]? = some a →
    s.theDerived.theClosest[b]? = some a ∨ Computed s b a
  servers : ∀ e, e ∈ s'.theDerived.theNetwork.tables ↔ e ∈ s.theDerived.theNetwork.tables
  grows : Grows s s'

theorem Quiet.computed_iff {s s' : State} (h : Quiet s s') (b a : String) :
    Computed s' b a ↔ Computed s b a := by
  rw [Computed, h.topology, h.objective, h.addresses, Computed]

/-- All that differs is what the controller announces, or the network. -/
theorem Quiet.of_announced (s : State) (m : ExtTreeMap String Announced) {n : Network}
    (hservers : ∀ e, e ∈ n.tables ↔ e ∈ s.theDerived.theNetwork.tables)
    (hgrows : log s <:+ n.log) : Quiet s { s with theDerived := { s.theDerived with
      theAnnouncedLambdas := m, theNetwork := n } } :=
  ⟨rfl, rfl, rfl, rfl, rfl, rfl, rfl, fun _ _ => .inl, hservers, hgrows⟩

theorem Quiet.withNetwork (s : State) {n : Network}
    (hservers : ∀ e, e ∈ n.tables ↔ e ∈ s.theDerived.theNetwork.tables)
    (hgrows : log s <:+ n.log) : Quiet s (s.withNetwork n) :=
  of_announced s s.theDerived.theAnnouncedLambdas hservers hgrows

instance : Std.Refl Quiet :=
  ⟨fun s => Quiet.withNetwork s (fun _ => Iff.rfl) (List.suffix_refl (log s))⟩

instance : IsTrans State Quiet := by
  refine ⟨fun _ _ _ h h' => ⟨?_, ?_, ?_, ?_, ?_, ?_, ?_, ?_, ?_, h.grows.trans h'.grows⟩⟩
  · exact h'.computers.trans h.computers
  · exact h'.lambdas.trans h.lambdas
  · exact h'.routers.trans h.routers
  · exact h'.addresses.trans h.addresses
  · exact h'.endpoints.trans h.endpoints
  · exact h'.topology.trans h.topology
  · exact h'.objective.trans h.objective
  · intro b a hb
    rcases h'.cached b a hb with hb | hb
    · exact h.cached b a hb
    · exact .inr ((h.computed_iff b a).mp hb)
  · exact fun e => (h'.servers e).trans (h.servers e)

section Quiet

variable {env : Environment}

theorem quiet_record (e : Event) : Moves Quiet (record e) :=
  moves_modify fun s => Quiet.withNetwork s (fun _ => Iff.rfl) (List.suffix_cons e (log s))

theorem quiet_commands (ep : String) (qs : List (Forwarding.EdgeRouterConf ℚ)) :
    Moves Quiet (onNetwork (Network.commands env ep qs)) := by
  intro s
  obtain ⟨b, n', es, hc, hlog, -, hmem, -⟩ := Network.commands_cases env ep qs s.theDerived.theNetwork
  have hrun : after (onNetwork (Network.commands env ep qs)) s = s.withNetwork n' := by
    rw [after, onNetwork_of hc]
  rw [hrun]
  exact Quiet.withNetwork s hmem ⟨es, hlog.symm⟩

/-- A command in the condition of a loop that stops where one is not answered. -/
theorem quiet_attempt (ep : String) (qs : List (Forwarding.EdgeRouterConf ℚ)) :
    Moves Quiet (do return !(← onNetwork (Network.commands env ep qs))) :=
  moves_bind (quiet_commands ep qs) fun _ => moves_pure _

theorem quiet_addressOf (ep : String) : Moves Quiet (addressOf ep) := by
  unfold addressOf
  split
  · exact moves_throw _
  · exact moves_pure _

def withClosest (s : State) (m : ExtTreeMap String String) : State :=
  { s with theDerived := { s.theDerived with theClosest := m } }

/-- The closest address is the cached one, or else it is computed and cached. -/
theorem findClosest_cases {s : State} (b : String)
    (hne : s.theDerived.theRouterAddresses.isEmpty = false) :
    (∃ err, findClosest b s = .error err s ∧ ∀ t o a, s.theDerived.theTopology = some t →
      s.theDerived.theObjective = some o →
      closest t o s.theDerived.theRouterAddresses.keys b ≠ .ok a) ∨
    ∃ a m, findClosest b s = .ok a (withClosest s m) ∧
      (s.theDerived.theClosest[b]? = some a ∧ m = s.theDerived.theClosest ∨
        m = s.theDerived.theClosest.insert b a ∧
          ∃ t o, s.theDerived.theTopology = some t ∧ s.theDerived.theObjective = some o ∧
            closest t o s.theDerived.theRouterAddresses.keys b = .ok a) := by
  cases ht : s.theDerived.theTopology with
  | none =>
    refine .inl ⟨"Topology has not been loaded", ?_, fun _ _ _ h => by cases h⟩
    simp only [findClosest, get_bind_apply, ht]
    rfl
  | some t =>
    cases ho : s.theDerived.theObjective with
    | none =>
      refine .inl ⟨"Objective not set", ?_, fun _ _ _ _ h => by cases h⟩
      simp only [findClosest, get_bind_apply, ht, ho]
      rfl
    | some o =>
      cases hb : s.theDerived.theClosest[b]? with
      | some a =>
        refine .inr ⟨a, s.theDerived.theClosest, ?_, .inl ⟨rfl, rfl⟩⟩
        simp only [findClosest, get_bind_apply, ht, ho, hne, hb, Bool.false_eq_true, if_false]
        rfl
      | none =>
        cases hc : closest t o s.theDerived.theRouterAddresses.keys b with
        | error err =>
          refine .inl ⟨err, ?_, fun t' o' a h h' => ?_⟩
          · simp only [findClosest, get_bind_apply, ht, ho, hne, hb, hc, Bool.false_eq_true, if_false]
            rfl
          · cases h
            cases h'
            simp [hc]
        | ok a =>
          refine .inr ⟨a, _, ?_, .inr ⟨rfl, t, o, rfl, rfl, hc⟩⟩
          simp only [findClosest, get_bind_apply, ht, ho, hne, hb, hc, Bool.false_eq_true, if_false]
          rfl

theorem quiet_findClosest (b : String) : Moves Quiet (findClosest b) := by
  intro s
  cases hne : s.theDerived.theRouterAddresses.isEmpty with
  | true =>
    have hsame : after (findClosest b) s = s := by
      simp only [after, findClosest, get_bind_apply, hne, if_true]
      cases s.theDerived.theTopology with
      | none => rfl
      | some t => cases s.theDerived.theObjective <;> rfl
    rw [hsame]
    exact Std.Refl.refl s
  | false =>
    rcases findClosest_cases b hne with ⟨err, hf, -⟩ | ⟨a, m, hf, hm⟩
    · rw [after, hf]
      exact Std.Refl.refl s
    · rw [after, hf]
      refine ⟨rfl, rfl, rfl, rfl, rfl, rfl, rfl, fun c x hc => ?_, fun _ => Iff.rfl,
        List.suffix_refl (log s)⟩
      rcases hm with ⟨-, rfl⟩ | ⟨rfl, t, o, ht, ho, ha⟩
      · exact .inl hc
      · rw [withClosest, Maps.lookup_insert] at hc
        split at hc
        · next heq =>
          cases hc
          exact .inr ⟨t, o, ht, ho, hne, heq ▸ ha⟩
        · exact .inl hc

theorem quiet_routerEndpoint (a : String) : Moves Quiet (routerEndpoint env a) := by
  refine moves_bind moves_get fun s => ?_
  dsimp only
  split
  · exact moves_throw _
  · exact moves_throw _
  · exact moves_pure _

theorem quiet_homeRouter (c : String) : Moves Quiet (homeRouter env c) := by
  refine moves_bind (quiet_addressOf c) fun a => ?_
  refine moves_bind (quiet_findClosest a) fun b => ?_
  refine moves_bind (quiet_routerEndpoint b) fun r => ?_
  exact moves_bind (quiet_record _) fun _ => moves_pure _

theorem quiet_announceFinal (h : String) (es : List Route) :
    Moves Quiet (announceFinal env h es) := by
  refine moves_bind moves_get fun s => ?_
  dsimp only
  split
  · exact moves_pure _
  · exact quiet_commands _ _

theorem quiet_noteAnnounced (h c : String) (es : List Route) :
    Moves Quiet (noteAnnounced h c es) :=
  fun s => Quiet.of_announced s _ (fun _ => Iff.rfl) (List.suffix_refl (log s))

theorem quiet_announcedLambdas (f : EdgeControllerHier → ExtTreeMap String Announced) :
    Moves Quiet (modifyHier fun d => { d with theAnnouncedLambdas := f d }) :=
  moves_modify fun s => Quiet.of_announced s _ (fun _ => Iff.rfl) (List.suffix_refl (log s))

theorem quiet_withdraw (c : String) (elems : List RemoveElem) (l : String) :
    Moves Quiet (withdraw c elems l) := by
  refine moves_bind moves_get fun s => ?_
  dsimp only
  split
  · exact moves_pure _
  split
  · exact moves_throw _
  split
  · exact moves_bind (quiet_announcedLambdas _) fun _ => moves_pure _
  · exact moves_bind (quiet_announcedLambdas _) fun _ => moves_pure _

end Quiet

/-- A relation that holds across each quiet step, and across the removal of a
router if it does across the reset that follows. -/
structure Carried (env : Environment) (R : State → State → Prop) : Prop where
  quiet : ∀ s s', Quiet s s' → R s s'
  removal : ∀ {reset : Member EdgeControllerHier Unit}, Moves R reset →
    ∀ e, Moves R (removeRouter reset e)
  removalByKey : ∀ {reset : Member EdgeControllerHier Unit}, Moves R reset →
    ∀ e, Moves R (removeRouterByKey env reset e)

namespace Carried

variable {env : Environment} {R : State → State → Prop} [Std.Refl R] [IsTrans State R]
  {r : Member EdgeControllerHier Unit}

omit [Std.Refl R] [IsTrans State R] in
theorem of_quiet {A : Type} {m : Member EdgeControllerHier A} (h : Carried env R)
    (hm : Moves Quiet m) : Moves R m := moves_mono hm h.quiet

theorem announceIntermediate (h : Carried env R) (hreset : Moves R r) (home : String)
    (es : List Route) : Moves R (announceIntermediate env r home es) := by
  refine moves_bind moves_get fun s => moves_bind (moves_findM? (fun x => ?_) _) fun r => ?_
  · exact h.of_quiet (quiet_attempt _ _)
  split
  · exact h.removalByKey hreset _
  · exact moves_pure _

theorem privateAnnounceComputer (h : Carried env R) (hreset : Moves R r) (c : String)
    (cs : ContainerList) : Moves R (privateAnnounceComputer env r c cs) := by
  refine moves_bind moves_get fun s => ?_
  split
  · exact moves_pure _
  refine moves_bind (h.of_quiet (quiet_homeRouter c)) fun home => ?_
  refine moves_bind (h.of_quiet (quiet_announceFinal home _)) fun b => ?_
  split
  · exact moves_bind (h.of_quiet (quiet_noteAnnounced home c _)) fun es =>
      h.announceIntermediate hreset home es
  · exact h.removal hreset home

theorem resetBody (h : Carried env R) (hreset : Moves R r) : Moves R (resetBody env r) := by
  refine moves_bind moves_get fun s => moves_bind (moves_findM? (fun x => ?_) _) fun r => ?_
  · exact h.of_quiet (quiet_attempt _ _)
  split
  · exact h.removal hreset _
  refine moves_bind (h.of_quiet (quiet_announcedLambdas _)) fun _ => ?_
  refine moves_bind (h.of_quiet (quiet_record _)) fun _ => moves_bind moves_get fun s => ?_
  refine moves_forM (fun x => ?_) _
  exact h.privateAnnounceComputer hreset x.1 x.2

/-- By induction on the resets left. -/
theorem reset (h : Carried env R) (n : Nat) : Moves R (EdgeControllerHier.reset env n) := by
  induction n with
  | zero => exact moves_throw _
  | succ n ih => exact h.resetBody ih

theorem privateRemoveComputer (h : Carried env R) (hreset : Moves R r) (c : String)
    (ls : List String) : Moves R (privateRemoveComputer env r c ls) := by
  refine moves_bind (moves_foldlM (fun es l => h.of_quiet (quiet_withdraw c es l)) ls []) fun elems => ?_
  refine moves_bind (h.of_quiet (quiet_record _)) fun _ => ?_
  refine moves_bind (moves_findM? (fun x => h.of_quiet (quiet_attempt _ _)) _) fun x => ?_
  split
  · exact h.removal hreset _
  · exact moves_pure _

section Base

-- a relation that does not look at the registries of the computers
variable (hbase : ∀ s cs ls, R s { s with theComputers := cs, theLambdas := ls })
include hbase

theorem markServed (c l : String) : Moves R (markServed (hooks env) c l) := by
  refine moves_bind (moves_modify fun s => hbase s _ _) fun _ => moves_bind moves_get fun s => ?_
  dsimp only
  split
  · exact moves_bind (moves_pure _) fun _ => moves_modify fun s => hbase s _ _
  · exact moves_modify fun s => hbase s _ _

theorem unmarkServed (c l : String) : Moves R (unmarkServed (hooks env) c l) := by
  refine moves_bind moves_get fun s => ?_
  split
  · exact moves_pure _
  · dsimp only
    split
    · exact moves_bind (moves_modify fun s => hbase s _ _) fun _ => moves_pure _
    · exact moves_modify fun s => hbase s _ _

theorem addToComputers (c : String) (cs : ContainerList) :
    Moves R (addToComputers c cs : Member EdgeControllerHier AddStatus) := by
  refine moves_bind moves_get fun s => ?_
  split
  · exact moves_pure _
  · exact moves_bind (moves_modify fun s => hbase s _ _) fun _ => moves_pure _

theorem removeFromComputers (c : String) :
    Moves R (removeFromComputers c : Member EdgeControllerHier (List String)) := by
  refine moves_bind moves_get fun s => ?_
  split
  · exact moves_bind (moves_modify fun s => hbase s _ _) fun _ => moves_pure _
  · exact moves_pure _

theorem notifyComputer (h : Carried env R) (c : String) (cs : ContainerList) :
    Moves R (notifyComputer (hooks env) c cs) := by
  refine moves_bind (moves_forM (fun l => markServed hbase c l) _) fun _ => ?_
  refine moves_bind (moves_pure _) fun _ => moves_bind moves_get fun s => ?_
  exact h.privateAnnounceComputer (h.reset _) c cs

theorem removeComputer (h : Carried env R) (c : String) :
    Moves R (removeComputer (hooks env) c) := by
  refine moves_bind (removeFromComputers hbase c) fun ls => ?_
  refine moves_bind (moves_forM (fun l => unmarkServed hbase c l) _) fun _ => ?_
  refine moves_bind (moves_pure _) fun _ => moves_bind moves_get fun s => ?_
  exact h.privateRemoveComputer (h.reset _) c ls

theorem announceComputer (h : Carried env R) (c : String) (cs : ContainerList) :
    Moves R (announceComputer (hooks env) c cs) := by
  refine moves_bind (addToComputers hbase c cs) fun r => ?_
  cases r with
  | AlreadyPresent => exact moves_pure _
  | NotPresent => exact notifyComputer hbase h c cs
  | ContainersChanged =>
    refine moves_bind (removeComputer hbase h c) fun _ => ?_
    exact moves_bind (addToComputers hbase c cs) fun _ => notifyComputer hbase h c cs

end Base

end Carried

end ServerlessEdge.Controller.EdgeControllerHier
