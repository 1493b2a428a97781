import ServerlessEdge.Library.Maps
import ServerlessEdge.Controller.HierRules

/-! The log of events that no function takes back, and the registries of routers
that agree at any time. -/
namespace ServerlessEdge.Controller.EdgeControllerHier
open Std Library Maps Triple EdgeController

section Growth

variable {env : Environment} {reset : Member EdgeControllerHier Unit}

theorem grows_of_quiet {A : Type} {m : Member EdgeControllerHier A} (h : Moves Quiet m) :
    Moves Grows m := moves_mono h fun _ _ => Quiet.grows

theorem grows_modifyHier {f : EdgeControllerHier → EdgeControllerHier}
    (hf : ∀ d, d.theNetwork.log <:+ (f d).theNetwork.log) : Moves Grows (modifyHier f) :=
  moves_modify fun s => hf s.theDerived

theorem grows_record (e : Event) : Moves Grows (record e) := grows_of_quiet (quiet_record e)

theorem grows_commands (ep : String) (qs : List (Forwarding.EdgeRouterConf ℚ)) :
    Moves Grows (onNetwork (Network.commands env ep qs)) := grows_of_quiet (quiet_commands ep qs)

theorem grows_eraseRouter (e : String) : Moves Grows (eraseRouter e) :=
  moves_modify fun s => List.suffix_refl (log s)

section Removal

variable (hreset : Moves Grows reset)
include hreset

theorem grows_privateRemoveRouter (e : String) : Moves Grows (privateRemoveRouter reset e) := by
  refine moves_bind (grows_of_quiet (quiet_addressOf e)) fun a => moves_bind moves_get fun s => ?_
  split
  · exact moves_throw _
  · dsimp only
    split
    all_goals
      refine moves_bind (grows_modifyHier fun d => List.suffix_refl _) fun _ => ?_
      exact moves_bind (grows_modifyHier fun d => List.suffix_refl _) fun _ => hreset

theorem grows_removeRouter (e : String) : Moves Grows (removeRouter reset e) :=
  moves_bind (grows_eraseRouter e) fun _ => grows_privateRemoveRouter hreset e

theorem grows_removeRouterByKey (e : String) : Moves Grows (removeRouterByKey env reset e) :=
  moves_bind (grows_eraseRouter e) fun _ =>
    moves_bind (grows_record _) fun _ => grows_privateRemoveRouter hreset _

end Removal

theorem carried_grows (env : Environment) : Carried env Grows :=
  ⟨fun _ _ => Quiet.grows, grows_removeRouter, grows_removeRouterByKey⟩

theorem grows_privateAnnounceComputer (hreset : Moves Grows reset) (c : String)
    (cs : ContainerList) : Moves Grows (privateAnnounceComputer env reset c cs) :=
  (carried_grows env).privateAnnounceComputer hreset c cs

theorem grows_reset (n : Nat) : Moves Grows (EdgeControllerHier.reset env n) :=
  (carried_grows env).reset n

end Growth

/-- The routers that the derived class knows are among those of the base class,
and each is listed once under its own address. A router whose end-point has no
address is known to the base class only. -/
structure Registry (s : State) : Prop where
  sub : ∀ {r f : String}, s.theDerived.theForwardingTableEndpoints[r]? = some f → s.theRouters[r]? = some f
  inj : ∀ {r r' f : String}, s.theRouters[r]? = some f → s.theRouters[r']? = some f → r = r'
  known : ∀ {r : String}, r ∈ s.theRouters → r ∉ s.theDerived.theForwardingTableEndpoints →
    ∃ err, address r = .error err
  addr : ∀ {a : String} {rs : List String}, s.theDerived.theRouterAddresses[a]? = some rs → rs ≠ [] ∧ rs.Nodup ∧
    ∀ r ∈ rs, address r = .ok a ∧ r ∈ s.theDerived.theForwardingTableEndpoints
  back : ∀ {r : String}, r ∈ s.theDerived.theForwardingTableEndpoints →
    ∃ a rs, address r = .ok a ∧ s.theDerived.theRouterAddresses[a]? = some rs ∧ r ∈ rs

theorem Registry.new (t : Topology) (o : Objective)
    (n : ExtTreeMap String (Forwarding.EdgeRouter ℚ)) : Registry (new t o n) := by
  constructor <;> simp [EdgeControllerHier.new]

theorem Registry.withNetwork {s : State} (h : Registry s) (n : Network) :
    Registry (s.withNetwork n) := ⟨h.sub, h.inj, h.known, h.addr, h.back⟩

/-- The end-points that theRouterAddresses lists in place of rs once e is gone. -/
def delisted (e a : String) (rs : List String) (d : EdgeControllerHier) : EdgeControllerHier :=
  { d with
    theRouterAddresses := if (rs.erase e).isEmpty then d.theRouterAddresses.erase a
      else d.theRouterAddresses.insert a (rs.erase e)
    theClosest := if (rs.erase e).isEmpty then ∅ else d.theClosest
    theForwardingTableEndpoints := d.theForwardingTableEndpoints.erase e }

/-- The state in which reset is called when a router has been removed. -/
def dropped (e a : String) (rs : List String) (s : State) : State :=
  { s with theRouters := s.theRouters.erase e, theDerived := delisted e a rs s.theDerived }

theorem privateRemoveRouter_eq {reset : Member EdgeControllerHier Unit} {e a : String}
    {rs : List String} {s : State} (ha : address e = .ok a)
    (hrs : s.theDerived.theRouterAddresses[a]? = some rs) : privateRemoveRouter reset e s =
      reset { s with theDerived := delisted e a rs s.theDerived } := by
  have hrun : privateRemoveRouter reset e s = (do
      if (rs.erase e).isEmpty then
        modifyHier fun d => { d with
          theRouterAddresses := d.theRouterAddresses.erase a
          theClosest := ∅ }
      else
        modifyHier fun d => { d with theRouterAddresses :=
          d.theRouterAddresses.insert a (rs.erase e) }
      modifyHier fun d => { d with theForwardingTableEndpoints :=
        d.theForwardingTableEndpoints.erase e }
      reset) s := by
    simp only [privateRemoveRouter, addressOf, ha, pure_bind]
    rw [get_bind_apply, hrs]
  rw [hrun]
  cases hempty : (rs.erase e).isEmpty <;> simp only [delisted, hempty] <;> rfl

theorem removeRouter_eq {reset : Member EdgeControllerHier Unit} {e : String} {s : State}
    (h : Registry s) (he : e ∈ s.theDerived.theForwardingTableEndpoints) :
    ∃ a rs, address e = .ok a ∧ s.theDerived.theRouterAddresses[a]? = some rs ∧ e ∈ rs ∧
      removeRouter reset e s = reset (dropped e a rs s) := by
  obtain ⟨a, rs, ha, hrs, hmem⟩ := h.back he
  refine ⟨a, rs, ha, hrs, hmem, ?_⟩
  change privateRemoveRouter reset e { s with theRouters := s.theRouters.erase e } = _
  exact privateRemoveRouter_eq ha hrs

theorem getElem?_dropped {e a : String} {rs : List String} {s : State} (r : String) :
    (dropped e a rs s).theRouters[r]? = if r = e then none else s.theRouters[r]? := by
  simp only [dropped, ExtTreeMap.getElem?_erase, LawfulEqCmp.compare_eq_iff_eq,
    eq_comm (a := e)]

theorem endpoints_dropped {e a : String} {rs : List String} {s : State} (r : String) :
    (dropped e a rs s).theDerived.theForwardingTableEndpoints[r]? =
      if r = e then none else s.theDerived.theForwardingTableEndpoints[r]? := by
  simp only [dropped, delisted, ExtTreeMap.getElem?_erase, LawfulEqCmp.compare_eq_iff_eq,
    eq_comm (a := e)]

theorem addresses_dropped {e a : String} {rs : List String} {s : State} (b : String) :
    (dropped e a rs s).theDerived.theRouterAddresses[b]? =
      if b = a then if rs.erase e = [] then none else some (rs.erase e)
      else s.theDerived.theRouterAddresses[b]? := by
  simp only [dropped, delisted]
  cases hempty : rs.erase e with
  | nil =>
    simp only [List.isEmpty_nil, if_true, ExtTreeMap.getElem?_erase, LawfulEqCmp.compare_eq_iff_eq,
      eq_comm (a := a)]
  | cons x xs =>
    simp only [List.isEmpty_cons, Bool.false_eq_true, if_false, ExtTreeMap.getElem?_insert,
      LawfulEqCmp.compare_eq_iff_eq, eq_comm (a := a), reduceCtorEq]

/-- The registries still agree when a router has been removed. -/
theorem Registry.dropped {s : State} (h : Registry s) {e a : String} {rs : List String}
    (ha : address e = .ok a) (hrs : s.theDerived.theRouterAddresses[a]? = some rs) :
    Registry (dropped e a rs s) := by
  have hmem (r : String) : r ∈ (EdgeControllerHier.dropped e a rs s).theDerived.theForwardingTableEndpoints ↔
      r ≠ e ∧ r ∈ s.theDerived.theForwardingTableEndpoints := by
    simp only [ExtTreeMap.mem_iff_isSome_getElem?, endpoints_dropped]
    split <;> simp [*]
  have hrouter {r f : String} (hr : (EdgeControllerHier.dropped e a rs s).theRouters[r]? = some f) :
      r ≠ e ∧ s.theRouters[r]? = some f := by
    rw [getElem?_dropped] at hr
    split at hr
    · cases hr
    · exact ⟨‹_›, hr⟩
  obtain ⟨_, hnodup, hall⟩ := h.addr hrs
  constructor
  · intro r f hr
    rw [endpoints_dropped] at hr
    rw [getElem?_dropped]
    split at hr
    · cases hr
    · rw [if_neg ‹_›]
      exact h.sub hr
  · intro r r' f hr hr'
    exact h.inj (hrouter hr).2 (hrouter hr').2
  · intro r hr hn
    obtain ⟨f, hf⟩ := lookup_of_mem hr
    obtain ⟨hne, hf⟩ := hrouter hf
    refine h.known (mem_of_lookup hf) fun hr => ?_
    exact hn ((hmem r).mpr ⟨hne, hr⟩)
  · intro b rs' hb
    rw [addresses_dropped] at hb
    split at hb
    · next hba =>
      subst hba
      split at hb
      · cases hb
      · next hne =>
        cases hb
        refine ⟨hne, hnodup.erase e, fun r hr => ?_⟩
        have hr' := (hnodup.mem_erase_iff).mp hr
        exact ⟨(hall r hr'.2).1, (hmem r).mpr ⟨hr'.1, (hall r hr'.2).2⟩⟩
    · next hba =>
      obtain ⟨hne, hnd, hb'⟩ := h.addr hb
      refine ⟨hne, hnd, fun r hr => ⟨(hb' r hr).1, (hmem r).mpr ⟨?_, (hb' r hr).2⟩⟩⟩
      rintro rfl
      rw [(hb' r hr).1] at ha
      exact hba (Except.ok.inj ha)
  · intro r hr
    obtain ⟨hne, hr⟩ := (hmem r).mp hr
    obtain ⟨b, rs', hb, hrs', hr'⟩ := h.back hr
    by_cases hba : b = a
    · subst hba
      rw [hrs] at hrs'
      cases hrs'
      have hin : r ∈ rs.erase e := (hnodup.mem_erase_iff).mpr ⟨hne, hr'⟩
      refine ⟨b, rs.erase e, hb, ?_, hin⟩
      rw [addresses_dropped, if_pos rfl, if_neg (List.ne_nil_of_mem hin)]
    · exact ⟨b, rs', hb, by rw [addresses_dropped, if_neg hba, hrs'], hr'⟩

/-- The router e with table server f, listed under its address. -/
def enlisted (e f a : String) (d : EdgeControllerHier) : EdgeControllerHier :=
  { d with
    theRouterAddresses := d.theRouterAddresses.insert a (d.theRouterAddresses.getD a [] ++ [e])
    theClosest := if a ∈ d.theRouterAddresses then d.theClosest else ∅
    theForwardingTableEndpoints := d.theForwardingTableEndpoints.insertIfNew e f }

/-- The state in which reset is called when a router has been added. -/
def added (e f a : String) (s : State) : State :=
  { s with theRouters := s.theRouters.insert e f, theDerived := enlisted e f a s.theDerived }

theorem privateAnnounceRouter_eq {reset : Member EdgeControllerHier Unit} {e f a : String}
    {s : State} (ha : address e = .ok a) : privateAnnounceRouter reset e f s =
      reset { s with theDerived := enlisted e f a s.theDerived } := by
  have hmem : a ∈ s.theDerived.theRouterAddresses ↔
      (s.theDerived.theRouterAddresses[a]?).isSome := ExtTreeMap.mem_iff_isSome_getElem?
  have hget : s.theDerived.theRouterAddresses.getD a [] =
      (s.theDerived.theRouterAddresses[a]?).getD [] := ExtTreeMap.getD_eq_getD_getElem?
  simp only [privateAnnounceRouter, addressOf, ha, pure_bind]
  rw [get_bind_apply]
  cases hrs : s.theDerived.theRouterAddresses[a]? <;>
    simp only [enlisted, hmem, hget, hrs, Option.isSome_none, Option.isSome_some,
      Option.getD_none, Option.getD_some, Bool.false_eq_true, if_false, if_true, List.nil_append] <;>
    rfl

theorem getElem?_added {e f a : String} {s : State} (r : String) :
    (added e f a s).theRouters[r]? = if r = e then some f else s.theRouters[r]? := by
  simp only [added, ExtTreeMap.getElem?_insert, LawfulEqCmp.compare_eq_iff_eq, eq_comm (a := e)]

theorem endpoints_added {e f a : String} {s : State}
    (he : e ∉ s.theDerived.theForwardingTableEndpoints) (r : String) :
    (added e f a s).theDerived.theForwardingTableEndpoints[r]? =
      if r = e then some f else s.theDerived.theForwardingTableEndpoints[r]? := by
  simp only [added, enlisted, ExtTreeMap.getElem?_insertIfNew, LawfulEqCmp.compare_eq_iff_eq,
    eq_comm (a := e), he, not_false_eq_true, and_true]

theorem addresses_added {e f a : String} {s : State} (b : String) :
    (added e f a s).theDerived.theRouterAddresses[b]? =
      if b = a then some ((s.theDerived.theRouterAddresses[a]?).getD [] ++ [e])
      else s.theDerived.theRouterAddresses[b]? := by
  simp only [added, enlisted, ExtTreeMap.getElem?_insert, LawfulEqCmp.compare_eq_iff_eq,
    eq_comm (a := a), ExtTreeMap.getD_eq_getD_getElem?]

/-- The registries still agree when a new router has been added. -/
theorem Registry.added {s : State} (h : Registry s) {e f a : String} (he : e ∉ s.theRouters)
    (hf : ∀ r : String, s.theRouters[r]? ≠ some f) (ha : address e = .ok a) : Registry (added e f a s) := by
  have he' : e ∉ s.theDerived.theForwardingTableEndpoints := by
    intro hm
    obtain ⟨g, hg⟩ := lookup_of_mem hm
    exact he (mem_of_lookup (h.sub hg))
  have hmem (r : String) : r ∈ (EdgeControllerHier.added e f a s).theDerived.theForwardingTableEndpoints ↔
      r = e ∨ r ∈ s.theDerived.theForwardingTableEndpoints := by
    simp only [ExtTreeMap.mem_iff_isSome_getElem?, endpoints_added he']
    split <;> simp [*]
  -- the list at the address of the new router before it is added
  have hold : ∀ r ∈ (s.theDerived.theRouterAddresses[a]?).getD [],
      address r = .ok a ∧ r ∈ s.theDerived.theForwardingTableEndpoints := by
    cases hrs : s.theDerived.theRouterAddresses[a]? with
    | none => simp
    | some rs => exact (h.addr hrs).2.2
  have hnodup : ((s.theDerived.theRouterAddresses[a]?).getD []).Nodup := by
    cases hrs : s.theDerived.theRouterAddresses[a]? with
    | none => exact List.nodup_nil
    | some rs => exact (h.addr hrs).2.1
  constructor
  · intro r g hr
    rw [endpoints_added he'] at hr
    rw [getElem?_added]
    split at hr
    · rw [if_pos ‹_›]
      exact hr
    · rw [if_neg ‹_›]
      exact h.sub hr
  · intro r r' g hr hr'
    rw [getElem?_added] at hr hr'
    split at hr <;> split at hr'
    · exact ‹r = e›.trans ‹r' = e›.symm
    · exact absurd (hr'.trans hr.symm) (hf r')
    · exact absurd (hr.trans hr'.symm) (hf r)
    · exact h.inj hr hr'
  · intro r hr hn
    rw [ExtTreeMap.mem_iff_isSome_getElem?, getElem?_added] at hr
    rw [hmem, not_or] at hn
    rw [if_neg hn.1] at hr
    exact h.known (ExtTreeMap.mem_iff_isSome_getElem?.mpr hr) hn.2
  · intro b rs hb
    rw [addresses_added] at hb
    split at hb
    · next hba =>
      cases hb
      subst hba
      refine ⟨by simp, ?_, fun r hr => ?_⟩
      · refine List.nodup_append.mpr ⟨hnodup, List.nodup_singleton e, ?_⟩
        rintro r hr _ he'' rfl
        rw [List.mem_singleton] at he''
        exact he' (he'' ▸ (hold r hr).2)
      · rcases List.mem_append.mp hr with hr | hr
        · exact ⟨(hold r hr).1, (hmem r).mpr (.inr (hold r hr).2)⟩
        · rw [List.mem_singleton.mp hr]
          exact ⟨ha, (hmem e).mpr (.inl rfl)⟩
    · obtain ⟨hne, hnd, hall⟩ := h.addr hb
      exact ⟨hne, hnd, fun r hr => ⟨(hall r hr).1, (hmem r).mpr (.inr (hall r hr).2)⟩⟩
  · intro r hr
    rcases (hmem r).mp hr with rfl | hr
    · exact ⟨a, _, ha, by rw [addresses_added, if_pos rfl], by simp⟩
    · obtain ⟨b, rs, hb, hrs, hin⟩ := h.back hr
      by_cases hba : b = a
      · subst hba
        refine ⟨b, _, hb, by rw [addresses_added, if_pos rfl], ?_⟩
        simp [hrs, hin]
      · exact ⟨b, rs, hb, by rw [addresses_added, if_neg hba, hrs], hin⟩

theorem Registry.withClosest {s : State} (h : Registry s) (m : ExtTreeMap String String) :
    Registry (withClosest s m) := ⟨h.sub, h.inj, h.known, h.addr, h.back⟩

theorem routerEndpoint_cases (env : Environment) {s : State} (h : Registry s) (a : String) :
    (∃ err, routerEndpoint env a s = .error err s ∧
      s.theDerived.theRouterAddresses[a]? = none) ∨
    ∃ r rs, routerEndpoint env a s = .ok r s ∧
      s.theDerived.theRouterAddresses[a]? = some rs ∧ r ∈ rs := by
  cases hrs : s.theDerived.theRouterAddresses[a]? with
  | none =>
    refine .inl ⟨"no such router address", ?_, rfl⟩
    simp only [routerEndpoint, get_bind_apply, hrs]
    rfl
  | some rs =>
    cases rs with
    | nil => exact absurd rfl (h.addr hrs).1
    | cons x xs =>
      let r := (x :: xs).getD (env.random s.theDerived.theNetwork.log.length % (x :: xs).length) x
      refine .inr ⟨r, x :: xs, ?_, rfl, ?_⟩
      · simp only [routerEndpoint, get_bind_apply, hrs]
        rfl
      · have hlt := Nat.mod_lt (env.random s.theDerived.theNetwork.log.length)
          (show 0 < (x :: xs).length by simp)
        simp only [r, List.getD_eq_getElem?_getD, List.getElem?_eq_getElem hlt, Option.getD_some]
        exact List.getElem_mem hlt

/-- The home of a computer is a router at the closest address, and the draw is
recorded; where there is no home only the cache has changed. -/
theorem homeRouter_cases (env : Environment) {s : State} (h : Registry s) (c : String)
    (hne : s.theDerived.theRouterAddresses.isEmpty = false) :
    (∃ err m, homeRouter env c s = .error err (withClosest s m)) ∨
    ∃ b a m r rs, address c = .ok b ∧ homeRouter env c s =
        .ok r ((withClosest s m).withNetwork (s.theDerived.theNetwork.record (.home c r))) ∧
      s.theDerived.theRouterAddresses[a]? = some rs ∧ r ∈ rs ∧
      (s.theDerived.theClosest[b]? = some a ∧ m = s.theDerived.theClosest ∨
        m = s.theDerived.theClosest.insert b a ∧
          ∃ t o, s.theDerived.theTopology = some t ∧ s.theDerived.theObjective = some o ∧
            closest t o s.theDerived.theRouterAddresses.keys b = .ok a) := by
  cases hb : address c with
  | error err => exact .inl ⟨err, _, by simp only [homeRouter, addressOf, hb]; rfl⟩
  | ok b =>
    rcases findClosest_cases b hne with ⟨err, hf, _⟩ | ⟨a, m, hf, hm⟩
    · refine .inl ⟨err, s.theDerived.theClosest, ?_⟩
      simp only [homeRouter, addressOf, hb, pure_bind, bind_of_error hf]
      rfl
    · rcases routerEndpoint_cases env (h.withClosest m) a with ⟨err, hr, _⟩ | ⟨r, rs, hr, hrs, hin⟩
      · refine .inl ⟨err, m, ?_⟩
        simp only [homeRouter, addressOf, hb, pure_bind, bind_of_ok hf, bind_of_error hr]
      · refine .inr ⟨b, a, m, r, rs, rfl, ?_, hrs, hin, hm⟩
        simp only [homeRouter, addressOf, hb, pure_bind, bind_of_ok hf, bind_of_ok hr]
        rfl

/-- What a reset or an announcement keeps of the state before it, while it may
remove routers. -/
structure Fewer (s s' : State) : Prop where
  computers : s'.theComputers = s.theComputers
  endpoints : ∀ {r f : String}, s'.theDerived.theForwardingTableEndpoints[r]? = some f →
    s.theDerived.theForwardingTableEndpoints[r]? = some f
  size : s'.theDerived.theForwardingTableEndpoints.size ≤
    s.theDerived.theForwardingTableEndpoints.size
  servers : ∀ e, e ∈ s'.theDerived.theNetwork.tables ↔ e ∈ s.theDerived.theNetwork.tables

theorem Fewer.refl (s : State) : Fewer s s := ⟨rfl, id, Nat.le_refl _, fun _ => Iff.rfl⟩

theorem Fewer.trans {s s' s'' : State} (h : Fewer s s') (h' : Fewer s' s'') : Fewer s s'' :=
  ⟨h'.computers.trans h.computers, fun hr => h.endpoints (h'.endpoints hr), h'.size.trans h.size,
    fun e => (h'.servers e).trans (h.servers e)⟩

theorem fewer_withNetwork (s : State) {n : Network}
    (hn : ∀ e, e ∈ n.tables ↔ e ∈ s.theDerived.theNetwork.tables) : Fewer s (s.withNetwork n) :=
  ⟨rfl, id, Nat.le_refl _, hn⟩

theorem fewer_dropped (e a : String) (rs : List String) (s : State) :
    Fewer s (dropped e a rs s) := by
  refine ⟨rfl, fun hr => ?_, ExtTreeMap.size_erase_le, fun _ => Iff.rfl⟩
  rw [endpoints_dropped] at hr
  split at hr
  · cases hr
  · exact hr

/-- Dropping a router makes room for one more reset. -/
theorem size_dropped {e : String} (a : String) (rs : List String) {s : State}
    (he : e ∈ s.theDerived.theForwardingTableEndpoints) :
    (dropped e a rs s).theDerived.theForwardingTableEndpoints.size <
      s.theDerived.theForwardingTableEndpoints.size := by
  have hpos : s.theDerived.theForwardingTableEndpoints.size ≠ 0 := by
    rw [Ne, ← ExtTreeMap.eq_empty_iff_size_eq_zero]
    rintro h
    rw [h] at he
    exact ExtTreeMap.not_mem_empty he
  have hsize : (dropped e a rs s).theDerived.theForwardingTableEndpoints.size =
      s.theDerived.theForwardingTableEndpoints.size - 1 := by
    simp only [EdgeControllerHier.dropped, delisted, ExtTreeMap.size_erase,
      if_pos (ExtTreeMap.mem_iff_contains.mp he)]
  omega

/-- A freed key was read and another string was found in its place. -/
def Unfaithful (env : Environment) (s : State) : Prop :=
  ∃ e, .freedRead e ∈ log s ∧ env.freed e ≠ e

theorem unfaithful_mono {env : Environment} {s s' : State} (h : Grows s s')
    (hs : Unfaithful env s) : Unfaithful env s' := by
  obtain ⟨e, he, hne⟩ := hs
  exact ⟨e, h.subset he, hne⟩

theorem address_ne_empty {e a : String} (h : address e = .ok a) : e ≠ "" := by
  rintro rfl
  have he : address "" = .error "Invalid end-point: " := by decide
  rw [he] at h
  cases h

/-- A command in the condition of a loop that stops where one is not answered. -/
theorem wp_attempt {Bad : State → Prop} {Q : Bool → State → Prop} {E : String → State → Prop}
    {s : State} {f : Network → Bool × Network}
    (h : Q (!(f s.theDerived.theNetwork).1) (s.withNetwork (f s.theDerived.theNetwork).2)) :
    wp Bad (do return !(← onNetwork f)) Q E s := .inr h

section Removal

variable {env : Environment} {reset : Member EdgeControllerHier Unit} {Bad : State → Prop}
  {Q : Unit → State → Prop} {E : String → State → Prop} {e : String} {s : State}

/-- Removing a registered router comes down to reset without that router. -/
theorem wp_removeRouter (h : Registry s) (he : e ∈ s.theDerived.theForwardingTableEndpoints)
    (hreset : ∀ a rs, address e = .ok a → s.theDerived.theRouterAddresses[a]? = some rs → e ∈ rs →
      wp Bad reset Q E (dropped e a rs s)) : wp Bad (removeRouter reset e) Q E s := by
  obtain ⟨a, rs, ha, hrs, hmem, heq⟩ := removeRouter_eq h he
  exact wp_congr heq (hreset a rs ha hrs hmem)

/-- The state once the key of a router has been read after it was freed. -/
def readFreed (e : String) (s : State) : State :=
  s.withNetwork (s.theDerived.theNetwork.record (.freedRead e))

/-- The same with a reference to the key, unless the string read after it was
freed is another one. -/
theorem wp_removeRouterByKey (hmono : ∀ s s', Grows s s' → Bad s → Bad s')
    (hgrows : Moves Grows reset) (hfreed : env.freed e ≠ e → Bad (readFreed e s))
    (h : Registry s) (he : e ∈ s.theDerived.theForwardingTableEndpoints)
    (hreset : ∀ a rs, address e = .ok a → s.theDerived.theRouterAddresses[a]? = some rs → e ∈ rs →
      wp Bad reset Q E (dropped e a rs (readFreed e s))) :
    wp Bad (removeRouterByKey env reset e) Q E s := by
  let s' : State := { readFreed e s with theRouters := s.theRouters.erase e }
  have hrun : removeRouterByKey env reset e s = privateRemoveRouter reset (env.freed e) s' := rfl
  refine wp_congr hrun ?_
  by_cases hf : env.freed e = e
  · obtain ⟨a, rs, ha, hrs, hmem⟩ := h.back he
    rw [hf]
    exact wp_congr (privateRemoveRouter_eq ha hrs) (hreset a rs ha hrs hmem)
  · refine wp_of_bad (moves_mono (grows_privateRemoveRouter hgrows _) hmono) ?_
    exact hmono (readFreed e s) s' (List.suffix_refl _) (hfreed hf)

end Removal

end ServerlessEdge.Controller.EdgeControllerHier
