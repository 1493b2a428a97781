import ServerlessEdge.Controller.HierAnnouncements
import ServerlessEdge.Controller.HierUnique

/-! The three structures that describe the registered routers agree as long as no
registered router is announced again, whatever routers fail to answer. -/
namespace ServerlessEdge.Controller.EdgeControllerHier
open Std Library Maps Triple EdgeController

/-- A new controller; its topology and its objective may still have to be set. -/
def fresh (aTopology : Option Topology) (aObjective : Option Objective)
    (aTables : ExtTreeMap String (Forwarding.EdgeRouter ℚ)) : State where
  theComputers := ∅
  theRouters := ∅
  theLambdas := ∅
  theDerived := ⟨aObjective, aTopology, ∅, ∅, ∅, ∅, ⟨aTables, []⟩⟩

/-- The table servers of the routers are the same in both classes, and an
end-point occurs in theRouterAddresses once, under its own address, if it is that
of a registered router, and nowhere otherwise. -/
structure Coherent (s : State) : Prop where
  endpoints : s.theDerived.theForwardingTableEndpoints = s.theRouters
  addressed : ∀ r ∈ s.theRouters, ∃ a, address r = .ok a
  counted : ∀ a r, (s.theDerived.theRouterAddresses.getD a []).count r =
    if r ∈ s.theRouters ∧ address r = .ok a then 1 else 0

theorem Coherent.fresh (t : Option Topology) (o : Option Objective)
    (n : ExtTreeMap String (Forwarding.EdgeRouter ℚ)) : Coherent (fresh t o n) := by
  constructor <;> simp [EdgeControllerHier.fresh]

theorem Coherent.of_quiet {s s' : State} (h : Coherent s) (hs : Quiet s s') : Coherent s' := by
  refine ⟨?_, ?_, ?_⟩
  · rw [hs.endpoints, hs.routers, h.endpoints]
  · rw [hs.routers]
    exact h.addressed
  · rw [hs.addresses, hs.routers]
    exact h.counted

theorem getD_delisted {e a : String} {rs : List String} {d : EdgeControllerHier} (b : String) :
    (delisted e a rs d).theRouterAddresses.getD b [] =
      if b = a then rs.erase e else d.theRouterAddresses.getD b [] := by
  simp only [delisted]
  cases hempty : rs.erase e with
  | nil =>
    simp only [List.isEmpty_nil, if_true, ExtTreeMap.getD_erase, LawfulEqCmp.compare_eq_iff_eq,
      eq_comm (a := a)]
  | cons x xs =>
    simp only [List.isEmpty_cons, Bool.false_eq_true, if_false, ExtTreeMap.getD_insert,
      LawfulEqCmp.compare_eq_iff_eq, eq_comm (a := a)]

/-- Removing any router keeps the structures in agreement; one that is not
registered is not listed at its address either. -/
theorem Coherent.dropped {s : State} (h : Coherent s) {e a : String} {rs : List String}
    (ha : address e = .ok a) (hrs : s.theDerived.theRouterAddresses[a]? = some rs) :
    Coherent (dropped e a rs s) := by
  have hlist : s.theDerived.theRouterAddresses.getD a [] = rs := by
    rw [ExtTreeMap.getD_eq_getD_getElem?, hrs, Option.getD_some]
  refine ⟨?_, ?_, ?_⟩
  · simp only [EdgeControllerHier.dropped, delisted, h.endpoints]
  · intro r hr
    exact h.addressed r (mem_erase.mp hr).2
  · intro b r
    have hcount := h.counted b r
    simp only [EdgeControllerHier.dropped, getD_delisted, mem_erase]
    by_cases hb : b = a
    · subst hb
      rw [hlist] at hcount
      rw [if_pos rfl, List.count_erase, hcount]
      by_cases hr : r = e
      · subst hr
        split <;> simp
      · simp [hr, Ne.symm hr]
    · rw [if_neg hb, hcount]
      by_cases hr : r = e
      · subst hr
        have hother : address r ≠ .ok b := by
          rw [ha]
          exact fun heq => hb (Except.ok.inj heq).symm
        simp [hother]
      · simp [hr]

/-- A router that is announced for the first time is listed once. -/
theorem Coherent.added {s : State} (h : Coherent s) {e f a : String} (he : e ∉ s.theRouters)
    (ha : address e = .ok a) : Coherent (added e f a s) := by
  refine ⟨?_, ?_, ?_⟩
  · refine ExtTreeMap.ext_getElem? fun r => ?_
    have hnew : e ∉ s.theDerived.theForwardingTableEndpoints := by
      rw [h.endpoints]
      exact he
    rw [endpoints_added hnew, getElem?_added, h.endpoints]
  · intro r hr
    rcases mem_insert.mp hr with rfl | hr
    · exact ⟨a, ha⟩
    · exact h.addressed r hr
  · intro b r
    have hcount := h.counted b r
    simp only [EdgeControllerHier.added, enlisted, ExtTreeMap.getD_insert,
      LawfulEqCmp.compare_eq_iff_eq, mem_insert]
    by_cases hb : a = b
    · subst hb
      rw [if_pos rfl, List.count_append, hcount, List.count_singleton]
      by_cases hr : r = e
      · subst hr
        simp [he, ha]
      · simp [hr, Ne.symm hr]
    · rw [if_neg hb, hcount]
      by_cases hr : r = e
      · subst hr
        have hother : address r ≠ .ok b := by
          rw [ha]
          exact fun heq => hb (Except.ok.inj heq)
        simp [hother]
      · simp [hr]

/-- From a coherent state to a coherent one, unless a freed key is misread. -/
def Coheres (env : Environment) (s s' : State) : Prop :=
  Grows s s' ∧ (Coherent s → ¬ Unfaithful env s' → Coherent s')

section Coheres

variable {env : Environment}

instance : Std.Refl (Coheres env) := ⟨fun s => ⟨List.suffix_refl (log s), fun h _ => h⟩⟩

instance : IsTrans State (Coheres env) := by
  refine ⟨fun s s' s'' h h' => ⟨h.1.trans h'.1, fun hs hn => ?_⟩⟩
  have hmid : ¬ Unfaithful env s' := fun hbad => hn (unfaithful_mono h'.1 hbad)
  exact h'.2 (h.2 hs hmid) hn

/-- In a coherent state the removal of a router leads on to the reset without
that router, or else there is nothing to be removed. -/
theorem Coherent.removal {s : State} (h : Coherent s) (reset : Member EdgeControllerHier Unit)
    (e : String) : (∃ err, removeRouter reset e s = .error err s) ∨
      ∃ s', Coherent s' ∧ log s' = log s ∧ removeRouter reset e s = reset s' := by
  let s₁ : State := { s with theRouters := s.theRouters.erase e }
  have hrun : removeRouter reset e s = privateRemoveRouter reset e s₁ := rfl
  have hsame (he : e ∉ s.theRouters) : s₁ = s := by
    simp only [s₁, erase_of_not_mem he]
  rw [hrun]
  cases ha : address e with
  | error err =>
    refine .inl ⟨err, ?_⟩
    have he : e ∉ s.theRouters := by
      intro he
      obtain ⟨a, ha'⟩ := h.addressed e he
      rw [ha] at ha'
      cases ha'
    rw [hsame he]
    simp only [privateRemoveRouter, addressOf, ha]
    rfl
  | ok a =>
    cases hrs : s.theDerived.theRouterAddresses[a]? with
    | none =>
      refine .inl ⟨"no such router address", ?_⟩
      have he : e ∉ s.theRouters := by
        intro he
        have hcount := h.counted a e
        rw [if_pos ⟨he, ha⟩, ExtTreeMap.getD_eq_getD_getElem?, hrs] at hcount
        simp at hcount
      rw [hsame he]
      simp only [privateRemoveRouter, addressOf, ha, pure_bind, get_bind_apply, hrs]
      rfl
    | some rs =>
      refine .inr ⟨_, h.dropped ha hrs, rfl, ?_⟩
      exact privateRemoveRouter_eq ha hrs

theorem coheres_removeRouter {reset : Member EdgeControllerHier Unit}
    (hreset : Moves (Coheres env) reset) (e : String) :
    Moves (Coheres env) (removeRouter reset e) := by
  have hgrows : Moves Grows reset := moves_mono hreset fun _ _ h => h.1
  refine fun s => ⟨grows_removeRouter hgrows e s, fun h hn => ?_⟩
  rcases h.removal reset e with ⟨err, hrun⟩ | ⟨s', hs', -, hrun⟩
  · rw [after, hrun]
    exact h
  · have heq : after (removeRouter reset e) s = after reset s' := by rw [after, hrun, after]
    rw [heq] at hn ⊢
    exact (hreset s').2 hs' hn

theorem coheres_removeRouterByKey {reset : Member EdgeControllerHier Unit}
    (hreset : Moves (Coheres env) reset) (e : String) :
    Moves (Coheres env) (removeRouterByKey env reset e) := by
  have hgrows : Moves Grows reset := moves_mono hreset fun _ _ h => h.1
  refine fun s => ⟨grows_removeRouterByKey hgrows e s, fun h hn => ?_⟩
  by_cases hf : env.freed e = e
  · -- the key is still there, so this is the function that takes a copy of it
    have heq : after (removeRouterByKey env reset e) s =
        after (removeRouter reset e) (readFreed e s) := by
      change after (privateRemoveRouter reset (env.freed e)) _ = _
      rw [hf]
      rfl
    have hread : Coherent (readFreed e s) := ⟨h.endpoints, h.addressed, h.counted⟩
    rw [heq] at hn ⊢
    exact (coheres_removeRouter hreset e (readFreed e s)).2 hread hn
  · have hlater : Grows { readFreed e s with theRouters := s.theRouters.erase e }
        (after (removeRouterByKey env reset e) s) :=
      grows_privateRemoveRouter hgrows (env.freed e) _
    exact absurd (unfaithful_mono hlater ⟨e, List.mem_cons_self, hf⟩) hn

theorem carried_coheres (env : Environment) : Carried env (Coheres env) :=
  ⟨fun _ _ hs => ⟨hs.grows, fun h _ => h.of_quiet hs⟩, coheres_removeRouter,
    coheres_removeRouterByKey⟩

/-- The registries of the computers do not matter here. -/
theorem coheres_registries (s : State) (cs : ExtTreeMap String ContainerList)
    (ls : ExtTreeMap String (ExtTreeSet String)) :
    Coheres env s { s with theComputers := cs, theLambdas := ls } :=
  ⟨List.suffix_refl (log s), fun h _ => ⟨h.endpoints, h.addressed, h.counted⟩⟩

end Coheres

/-- Routers are announced with an end-point that has an address. -/
def Addressed : Call → Prop
  | .announceRouter e _ => ∃ a, address e = .ok a
  | _ => True

/-- No announcement of a router that is already registered. -/
def FirstAnnouncement (s : State) (a : Call) : Prop :=
  Addressed a ∧ ∀ e f, a = .announceRouter e f → e ∉ s.theRouters

/-- What one call keeps. -/
theorem step_coherent {env : Environment} {s : State} {a : Call} (h : Coherent s)
    (hfirst : FirstAnnouncement s a) (hfaithful : Faithful env s a) : Coherent (step env s a) := by
  cases a with
  | announceRouter e f =>
    obtain ⟨⟨a, ha⟩, hnew⟩ := hfirst
    have he : e ∉ s.theRouters := hnew e f rfl
    obtain ⟨k, -, hrun⟩ := @announceRouter_eq env e f a s ha
    have heq : step env s (.announceRouter e f) = after (reset env k) (added e f a s) := by
      rw [step, serve, after, hrun, after]
    rw [Faithful, heq] at hfaithful
    rw [heq]
    exact ((carried_coheres env).reset k (added e f a s)).2 (h.added he ha) hfaithful
  | announceComputer c cs =>
    exact (Carried.announceComputer coheres_registries (carried_coheres env) c cs s).2 h hfaithful
  | removeComputer c =>
    exact (Carried.removeComputer coheres_registries (carried_coheres env) c s).2 h hfaithful

/-- Along every run in which no registered router is announced again. -/
theorem registries_coherent (env : Environment) (t : Option Topology) (o : Option Objective)
    (aTables : ExtTreeMap String (Forwarding.EdgeRouter ℚ)) (aCalls : List Call)
    (h : Runs.Along (step env) (fun s a => FirstAnnouncement s a ∧ Faithful env s a)
      (fresh t o aTables) aCalls) :
    ∀ s ∈ Runs.states (step env) (fresh t o aTables) aCalls, Coherent s :=
  Runs.invariant_along (fun _ _ hs ha => step_coherent hs ha.1 ha.2) (Coherent.fresh t o aTables) h

section Example

/-- Two routers and a computer, whose announcement the second router misses; it
comes back, and then the computer leaves. -/
def comesBack : List Call :=
  [.announceRouter "a:1" "a:2", .announceRouter "b:1" "b:2",
    .announceComputer "a:5" ⟨[⟨"container", "processor", "lambda0", 1⟩]⟩,
    .announceRouter "b:1" "b:4", .removeComputer "a:5"]

theorem registries_coherent_two :
    Runs.Along (step (loses 7 id)) (fun s a => FirstAnnouncement s a ∧ Faithful (loses 7 id) s a)
      (fresh (some twoNodes) (some .MinMax) fourServers) comesBack ∧
    ∀ s ∈ Runs.states (step (loses 7 id)) (fresh (some twoNodes) (some .MinMax) fourServers)
      comesBack, Coherent s := by
  have hfaithful (s : State) (a : Call) : Faithful (loses 7 id) s a := by
    rintro ⟨e, -, hne⟩
    exact hne rfl
  have hrouter (s : State) {e f : String} (a : String) (ha : address e = .ok a)
      (he : e ∉ s.theRouters) : FirstAnnouncement s (.announceRouter e f) := by
    refine ⟨⟨a, ha⟩, fun e' f' heq => ?_⟩
    cases heq
    exact he
  have halong : Runs.Along (step (loses 7 id))
      (fun s a => FirstAnnouncement s a ∧ Faithful (loses 7 id) s a)
      (fresh (some twoNodes) (some .MinMax) fourServers) comesBack :=
    ⟨⟨hrouter _ "a" rfl (by decide +kernel), hfaithful _ _⟩,
      ⟨hrouter _ "b" rfl (by decide +kernel), hfaithful _ _⟩, ⟨⟨trivial, nofun⟩, hfaithful _ _⟩,
      ⟨hrouter _ "b" rfl (by decide +kernel), hfaithful _ _⟩, ⟨⟨trivial, nofun⟩, hfaithful _ _⟩,
      trivial⟩
  exact ⟨halong, registries_coherent _ _ _ _ _ halong⟩

/-- A router that announces itself again with another table server: the derived
class keeps the old one and lists the router twice. -/
theorem announced_again :
    ¬ ∀ (env : Environment) (t : Option Topology) (o : Option Objective)
      (aTables : ExtTreeMap String (Forwarding.EdgeRouter ℚ)) (aCalls : List Call),
      (∀ a ∈ aCalls, Addressed a) →
        ∀ s ∈ Runs.states (step env) (fresh t o aTables) aCalls, Coherent s := by
  intro h
  let aCalls : List Call := [.announceRouter "a:1" "a:2", .announceRouter "a:1" "b:2"]
  have haddressed : ∀ a ∈ aCalls, Addressed a := by
    intro a ha
    rcases List.mem_pair.mp ha with rfl | rfl
    · exact ⟨"a", rfl⟩
    · exact ⟨"a", rfl⟩
  let s₀ := fresh (some twoNodes) (some .MinMax) fourServers
  let env : Environment := ⟨fun _ => .answered, id, id⟩
  have hend : Coherent (Runs.final (step env) s₀ aCalls) :=
    h env _ _ _ aCalls haddressed _ (Runs.final_mem_states _ _ _)
  have hcount := hend.counted "a" "a:1"
  have htwice : ((Runs.final (step env) s₀ aCalls).theDerived.theRouterAddresses.getD "a" []).count
      "a:1" = 2 := by decide +kernel
  rw [htwice] at hcount
  split at hcount
  · omega
  · omega

end Example
end ServerlessEdge.Controller.EdgeControllerHier
