import ServerlessEdge.Controller.HierAnnounce

/-! With one router at each address the tables are a function of the registries:
each computer is a final destination at its home router and nowhere else. -/
namespace ServerlessEdge.Controller.EdgeControllerHier
open Std Library Maps Triple EdgeController

/-- A router is the only one at the address that is closest to a computer. -/
def Home (t : Topology) (o : Objective) (s : State) (c r : String) : Prop :=
  ∃ b a, address c = .ok b ∧ closest t o s.theDerived.theRouterAddresses.keys b = .ok a ∧
    s.theDerived.theRouterAddresses[a]? = some [r]

/-- The registries when addresses are pairwise distinct and all in the topology. -/
structure Placed (t : Topology) (o : Objective) (s : State) : Prop extends Registry s where
  topology : s.theDerived.theTopology = some t
  objective : s.theDerived.theObjective = some o
  listed : ∀ {r : String}, r ∈ s.theRouters → r ∈ s.theDerived.theForwardingTableEndpoints
  single : ∀ {a : String} {rs : List String},
    s.theDerived.theRouterAddresses[a]? = some rs → ∃ r, rs = [r]
  nodes : ∀ {a : String}, a ∈ s.theDerived.theRouterAddresses → a ∈ t.theNames
  cache : ∀ {b a : String}, s.theDerived.theClosest[b]? = some a →
    closest t o s.theDerived.theRouterAddresses.keys b = .ok a
  computers : ∀ {c : String}, c ∈ s.theComputers →
    c ∉ s.theRouters ∧ ∃ b, address c = .ok b ∧ b ∈ t.theNames

/-- What is announced, and in the tables of the registered routers, when just
the computers in D have been announced. -/
structure CanonFor (t : Topology) (o : Objective) (D : String → Prop) (s : State) : Prop where
  reached : ∀ {r f : String}, s.theDerived.theForwardingTableEndpoints[r]? = some f →
    f ≠ "" ∧ f ∈ s.theDerived.theNetwork.tables
  announced : ∀ r l c, c ∈ announced s r l ↔ D c ∧ Serves s c l ∧ Home t o s c r
  final : ∀ {r f : String}, s.theDerived.theForwardingTableEndpoints[r]? = some f → ∀ l c,
    s.theDerived.theNetwork.flags f (l, c) = some true ↔ D c ∧ Serves s c l ∧ Home t o s c r
  nonfinal : ∀ {r f : String}, s.theDerived.theForwardingTableEndpoints[r]? = some f → ∀ l d,
    s.theDerived.theNetwork.flags f (l, d) = some false ↔
      d ≠ r ∧ ∃ c, D c ∧ Serves s c l ∧ Home t o s c d

/-- Every router answers every command. -/
def Responsive (env : Environment) (s : State) : Prop :=
  (∀ n, env.outcome n = .answered) ∧ ∀ {r f : String},
    s.theDerived.theForwardingTableEndpoints[r]? = some f →
      f ≠ "" ∧ f ∈ s.theDerived.theNetwork.tables

/-- What a reset or an announcement keeps; routers that answer are kept as well. -/
structure Kept (env : Environment) (s s' : State) : Prop extends Fewer s s' where
  responsive : Responsive env s → s'.theRouters = s.theRouters

theorem Kept.refl (env : Environment) (s : State) : Kept env s s := ⟨Fewer.refl s, fun _ => rfl⟩

theorem Responsive.of_fewer {env : Environment} {s s' : State} (hs : Responsive env s)
    (h : Fewer s s') : Responsive env s' := by
  refine ⟨hs.1, fun hr => ?_⟩
  obtain ⟨hne, hmem⟩ := hs.2 (h.endpoints hr)
  exact ⟨hne, (h.servers _).mpr hmem⟩

theorem Kept.trans {env : Environment} {s s' s'' : State} (h : Kept env s s')
    (h' : Kept env s' s'') : Kept env s s'' :=
  ⟨h.toFewer.trans h'.toFewer,
    fun hs => (h'.responsive (hs.of_fewer h.toFewer)).trans (h.responsive hs)⟩

theorem kept_withNetwork (env : Environment) (s : State) {n : Network}
    (hn : ∀ e, e ∈ n.tables ↔ e ∈ s.theDerived.theNetwork.tables) :
    Kept env s (s.withNetwork n) := ⟨fewer_withNetwork s hn, fun _ => rfl⟩

section Registries

variable {t : Topology} {o : Objective} {s : State}

theorem Placed.new (t : Topology) (o : Objective)
    (n : ExtTreeMap String (Forwarding.EdgeRouter ℚ)) : Placed t o (new t o n) where
  toRegistry := Registry.new t o n
  topology := rfl
  objective := rfl
  listed h := by simp [EdgeControllerHier.new] at h
  single h := by simp [EdgeControllerHier.new] at h
  nodes h := by simp [EdgeControllerHier.new] at h
  cache h := by simp [EdgeControllerHier.new] at h
  computers h := by simp [EdgeControllerHier.new] at h

theorem Placed.withNetwork (h : Placed t o s) (n : Network) : Placed t o (s.withNetwork n) :=
  ⟨h.toRegistry.withNetwork n, h.topology, h.objective, h.listed, h.single, h.nodes, h.cache,
    h.computers⟩

theorem Placed.noted (h : Placed t o s) (r c : String) (es : List Route) :
    Placed t o (noted r c es s) :=
  ⟨⟨h.sub, h.inj, h.known, h.addr, h.back⟩, h.topology, h.objective, h.listed, h.single, h.nodes,
    h.cache, h.computers⟩

/-- The table server of a registered router is the one of the base class. -/
theorem Placed.endpoint (h : Placed t o s) {r f : String} :
    s.theDerived.theForwardingTableEndpoints[r]? = some f ↔ s.theRouters[r]? = some f := by
  refine ⟨h.sub, fun hr => ?_⟩
  have hm := h.listed (mem_of_lookup hr)
  obtain ⟨g, hg⟩ := lookup_of_mem hm
  have hgf := h.sub hg
  rw [hr] at hgf
  rw [hg, Option.some.inj hgf]

theorem Home.registered (h : Placed t o s) {c r : String} (hc : Home t o s c r) :
    (∃ a, address r = .ok a) ∧ r ∈ s.theDerived.theForwardingTableEndpoints := by
  obtain ⟨b, a, _, _, hrs⟩ := hc
  have hr := (h.addr hrs).2.2 r (List.mem_singleton_self r)
  exact ⟨⟨a, hr.1⟩, hr.2⟩

theorem Home.unique {c r r' : String} (h : Home t o s c r) (h' : Home t o s c r') : r = r' := by
  obtain ⟨b, a, hb, ha, hr⟩ := h
  obtain ⟨b', a', hb', ha', hr'⟩ := h'
  rw [hb] at hb'
  cases hb'
  rw [ha] at ha'
  cases ha'
  rw [hr] at hr'
  cases hr'
  rfl

/-- A home can be found for every computer as long as there is a router. -/
theorem Placed.exists_home (h : Placed t o s) {c : String} (hc : c ∈ s.theComputers)
    (hne : s.theDerived.theRouterAddresses.isEmpty = false) : ∃ r, Home t o s c r := by
  obtain ⟨_, b, hb, hnode⟩ := h.computers hc
  have hkeys : s.theDerived.theRouterAddresses.keys ≠ [] := by
    rw [Ne, ExtTreeMap.keys_eq_nil_iff, ← ExtTreeMap.isEmpty_eq_false_iff]
    exact hne
  obtain ⟨a, ha, hcl⟩ : ∃ a ∈ s.theDerived.theRouterAddresses.keys,
      closest t o s.theDerived.theRouterAddresses.keys b = .ok a :=
    closest_mem hkeys (fun a ha => h.nodes (ExtTreeMap.mem_keys.mp ha)) hnode
  obtain ⟨rs, hrs⟩ := lookup_of_mem (ExtTreeMap.mem_keys.mp ha)
  obtain ⟨r, rfl⟩ := h.single hrs
  exact ⟨r, b, a, hb, hcl, hrs⟩

theorem Placed.dropped (h : Placed t o s) {e a : String} {rs : List String}
    (ha : address e = .ok a) (hrs : s.theDerived.theRouterAddresses[a]? = some rs) (he : e ∈ rs) :
    Placed t o (dropped e a rs s) := by
  obtain ⟨r, rfl⟩ := h.single hrs
  rw [List.mem_singleton] at he
  subst he
  have hempty : [e].erase e = [] := by simp
  have hmem {r : String} (hr : r ∈ (EdgeControllerHier.dropped e a [e] s).theRouters) :
      r ≠ e ∧ r ∈ s.theRouters := by
    rw [ExtTreeMap.mem_iff_isSome_getElem?, getElem?_dropped] at hr
    split at hr
    · cases hr
    · exact ⟨‹_›, ExtTreeMap.mem_iff_isSome_getElem?.mpr hr⟩
  refine ⟨h.toRegistry.dropped ha hrs, h.topology, h.objective, ?_, ?_, ?_, ?_, ?_⟩
  · intro r hr
    obtain ⟨hne, hr⟩ := hmem hr
    rw [ExtTreeMap.mem_iff_isSome_getElem?, endpoints_dropped, if_neg hne,
      ← ExtTreeMap.mem_iff_isSome_getElem?]
    exact h.listed hr
  · intro b rs hb
    rw [addresses_dropped, if_pos hempty] at hb
    split at hb
    · cases hb
    · exact h.single hb
  · intro b hb
    rw [ExtTreeMap.mem_iff_isSome_getElem?, addresses_dropped, if_pos hempty] at hb
    split at hb
    · cases hb
    · exact h.nodes (ExtTreeMap.mem_iff_isSome_getElem?.mpr hb)
  · intro b c hc
    simp [EdgeControllerHier.dropped, delisted] at hc
  · intro c hc
    obtain ⟨hn, hb⟩ := h.computers hc
    exact ⟨fun hr => hn (hmem hr).2, hb⟩

end Registries

/-- What is assumed of the states before a reset, and the states in which no more
is claimed: no freed key may be misread outside of them. -/
structure Regime (env : Environment) where
  Bad : State → Prop
  Pre : State → Prop
  mono : ∀ {s s' : State}, Grows s s' → Bad s → Bad s'
  fewer : ∀ {s s' : State}, Fewer s s' → Pre s → Pre s'
  freed : ∀ {s : State} {e : String}, Pre s → ¬ Responsive env s → env.freed e ≠ e →
    Bad (readFreed e s)

section Announcement

variable {env : Environment} {g : Regime env} {t : Topology} {o : Objective} {D : String → Prop}
  {s : State}
  {reset : Member EdgeControllerHier Unit} {n : Nat}

/-- The end of a reset or of an announcement, with at least the computers of D
announced. -/
def Settled (env : Environment) (t : Topology) (o : Objective) (D : String → Prop)
    (s s' : State) : Prop :=
  Placed t o s' ∧ (∃ D' : String → Prop, (∀ c, D c → D' c) ∧ CanonFor t o D' s') ∧ Kept env s s'

theorem Settled.weaken {D' : String → Prop} {s' : State} (h : Settled env t o D s s')
    (hD : ∀ c, D' c → D c) : Settled env t o D' s s' := by
  obtain ⟨hp, ⟨D'', hD'', hc⟩, hk⟩ := h
  exact ⟨hp, ⟨D'', fun c hc => hD'' c (hD c hc), hc⟩, hk⟩

theorem Settled.of_kept {s₁ s' : State} (hk : Kept env s s₁) (h : Settled env t o D s₁ s') :
    Settled env t o D s s' := ⟨h.1, h.2.1, hk.trans h.2.2⟩

/-- What is assumed of a nested reset: it settles all computers, provided that
there are fewer than n routers. -/
def ResetSettles (g : Regime env) (t : Topology) (o : Objective)
    (reset : Member EdgeControllerHier Unit) (n : Nat) : Prop :=
  Moves Grows reset ∧ ∀ s, Placed t o s → g.Pre s → s.theDerived.theForwardingTableEndpoints.size < n →
    wp g.Bad reset (fun _ s' => Settled env t o (fun _ => True) s s')
      (fun _ _ => False) s

private theorem Settled.of_dropped {e a : String} {rs : List String} {s' : State}
    (hns : ¬ Responsive env s) (h : Settled env t o D (dropped e a rs s) s') :
    Settled env t o D s s' := by
  obtain ⟨hp, hc, hk⟩ := h
  exact ⟨hp, hc, (fewer_dropped e a rs s).trans hk.toFewer, fun h => absurd h hns⟩

/-- The removal of a router that did not answer ends in a settled state. -/
theorem removeRouter_settles (hreset : ResetSettles g t o reset n) (hp : Placed t o s)
    (hpre : g.Pre s) (hn : s.theDerived.theForwardingTableEndpoints.size ≤ n) {e : String}
    (he : e ∈ s.theDerived.theForwardingTableEndpoints) (hns : ¬ Responsive env s) :
    wp g.Bad (removeRouter reset e)
      (fun _ s' => Settled env t o (fun _ => True) s s') (fun _ _ => False) s := by
  refine wp_removeRouter hp.toRegistry he fun a rs ha hrs hmem => ?_
  have hfewer := fewer_dropped e a rs s
  refine wp_mono (hreset.2 _ (hp.dropped ha hrs hmem) (g.fewer hfewer hpre) ?_) ?_ fun _ _ h => h
  · exact Nat.lt_of_lt_of_le (size_dropped a rs he) hn
  · exact fun _ s' h => h.of_dropped hns

theorem removeRouterByKey_settles (hreset : ResetSettles g t o reset n) (hp : Placed t o s)
    (hpre : g.Pre s) (hn : s.theDerived.theForwardingTableEndpoints.size ≤ n) {e : String}
    (he : e ∈ s.theDerived.theForwardingTableEndpoints) (hns : ¬ Responsive env s) :
    wp g.Bad (removeRouterByKey env reset e)
      (fun _ s' => Settled env t o (fun _ => True) s s') (fun _ _ => False) s := by
  refine wp_removeRouterByKey (fun _ _ => g.mono) hreset.1 (fun hf => ?_) hp.toRegistry he
    fun a rs ha hrs hmem => ?_
  · exact g.freed hpre hns hf
  have hread : Fewer s (readFreed e s) := fewer_withNetwork s fun _ => Iff.rfl
  have hfewer := hread.trans (fewer_dropped e a rs (readFreed e s))
  refine wp_mono (hreset.2 _ ((hp.withNetwork _).dropped ha hrs hmem) (g.fewer hfewer hpre) ?_) ?_
    fun _ _ h => h
  · exact Nat.lt_of_lt_of_le (size_dropped a rs he) hn
  · exact fun _ s' h => (h.of_dropped (s := readFreed e s) hns).of_kept ⟨hread, fun _ => rfl⟩

/-- The tables once the routers other than the home have learnt of it. -/
def Informed (h : String) (es : List Route) (s : State) (m : Network) : Prop :=
  (∀ e, e ∈ m.tables ↔ e ∈ s.theDerived.theNetwork.tables) ∧
  ∀ r f : String, s.theDerived.theForwardingTableEndpoints[r]? = some f → ∀ p, m.flags f p =
    if r ≠ h ∧ p.2 = h ∧ ∃ x ∈ es, x.lambda = p.1 then some false
    else s.theDerived.theNetwork.flags f p

/-- What is known after the other routers have been asked: all of them have learnt of the
home, or one has not answered. -/
def Asked (env : Environment) (h : String) (es : List Route) (s : State) (m : Network) :
    Option (String × String) → Prop
  | none => Informed h es s m
  | some x => (∀ e, e ∈ m.tables ↔ e ∈ s.theDerived.theNetwork.tables) ∧
      s.theRouters[x.1]? = some x.2 ∧ ¬ Responsive env (s.withNetwork m)

/-- The other routers learn of the home router one after the other. -/
theorem announceIntermediate_settles (hreset : ResetSettles g t o reset n) (hp : Placed t o s)
    (hpre : g.Pre s) (hn : s.theDerived.theForwardingTableEndpoints.size ≤ n) {h : String} (hh : h ≠ "")
    {es : List Route} (hes : ∀ x ∈ es, x.destination = h ∧ x.weight = 1 ∧ x.final = false) :
    wp g.Bad (announceIntermediate env reset h es)
      (fun _ s' => (∃ m, s' = s.withNetwork m ∧ Informed h es s m) ∨
        Settled env t o (fun _ => True) s s') (fun _ _ => False) s := by
  have hmono := fun s s' => @g.mono s s'
  have hgrows (x : String × String) : Stable g.Bad
      (do return !(← onNetwork (Network.changeRoutes env x.2 es)) :
        Member EdgeControllerHier Bool) :=
    moves_mono (moves_bind (grows_commands _ _) fun _ => moves_pure _) hmono
  refine wp_get_bind (wp_bind (Q := fun x s' => ∃ m, s' = s.withNetwork m ∧ Asked env h es s m x)
    ?_ ?_ ?_)
  · intro x
    refine moves_mono ?_ hmono
    split
    · exact grows_removeRouterByKey hreset.1 _
    · exact moves_pure _
  · -- the routers passed have the new entries, the others still their old tables
    refine wp_findM? (I := fun l s' => ∃ m, s' = s.withNetwork m ∧
      (∀ e, e ∈ m.tables ↔ e ∈ s.theDerived.theNetwork.tables) ∧
      ∀ r f : String, s.theDerived.theForwardingTableEndpoints[r]? = some f → ∀ p, m.flags f p =
        if (r, f) ∈ l ∧ p.2 = h ∧ ∃ x ∈ es, x.lambda = p.1 then some false
        else s.theDerived.theNetwork.flags f p) hgrows _ ?_ ?_ ?_
    · rintro l ⟨r₀, f₀⟩ rest s' hl ⟨m, rfl, hkeys, htab⟩
      have hx : (r₀, f₀) ∈ s.theRouters.toList := by
        have hx : (r₀, f₀) ∈ s.theRouters.toList.filter fun x => x.1 ≠ h ∧ es ≠ [] := by
          rw [hl]
          exact List.mem_append_right _ List.mem_cons_self
        exact (List.mem_filter.mp hx).1
      have hr₀ := mem_toList.mp hx
      obtain ⟨ok, m', evs, hc, -, -, hmem, hother, hok⟩ := changeRoutes_cases env f₀ hh es hes m
      refine wp_attempt ?_
      simp only [EdgeController.withNetwork, hc]
      cases ok with
      | true =>
        refine ⟨m', rfl, fun e => (hmem e).trans (hkeys e), fun r f hr p => ?_⟩
        by_cases hf : f = f₀
        · have hrr : r = r₀ := hp.inj (hp.sub hr) (hf ▸ hr₀)
          subst hf hrr
          rw [hok rfl p, htab r f hr p]
          have hin : (r, f) ∈ l ++ [(r, f)] := by simp
          by_cases hp' : p.2 = h ∧ ∃ x ∈ es, x.lambda = p.1
          · simp only [hp', hin, and_self, if_true]
          · simp only [hp', and_false, if_false]
        · rw [hother f hf, htab r f hr p]
          have hin : (r, f) ∈ l ++ [(r₀, f₀)] ↔ (r, f) ∈ l := by simp [hf]
          simp only [hin]
      | false =>
        refine ⟨m', rfl, fun e => (hmem e).trans (hkeys e), hr₀, fun hs => ?_⟩
        obtain ⟨hne, hin⟩ := hs.2 (hp.endpoint.mpr hr₀)
        have htrue := Network.commands_answered hs.1 hne (es.map fun x =>
          ⟨.CHANGE, x.lambda, x.destination, x.weight, x.final⟩) ((hmem f₀).mp hin)
        rw [Network.changeRoutes] at hc
        rw [hc] at htrue
        cases htrue
    · rintro s' ⟨m, rfl, hkeys, htab⟩
      refine ⟨m, rfl, hkeys, fun r f hr p => ?_⟩
      rw [htab r f hr p]
      have hin : (r, f) ∈ (s.theRouters.toList.filter fun x => x.1 ≠ h ∧ es ≠ []) ↔
          r ≠ h ∧ es ≠ [] := by
        simp only [List.mem_filter, mem_toList, hp.sub hr,
          decide_eq_true_eq, true_and]
      simp only [hin]
      by_cases hx : ∃ x ∈ es, x.lambda = p.1
      · have hne : es ≠ [] := by
          obtain ⟨x, hx, _⟩ := hx
          exact List.ne_nil_of_mem hx
        simp only [hne, ne_eq, not_false_eq_true, and_true]
      · simp only [hx, and_false, if_false]
    · exact ⟨s.theDerived.theNetwork, rfl, fun _ => Iff.rfl, by simp⟩
  · rintro x s' ⟨m, rfl, hm⟩
    cases x with
    | none => exact wp_pure (.inl ⟨m, rfl, hm⟩)
    | some x =>
      obtain ⟨hkeys, hr, hns⟩ := hm
      have hin : x.1 ∈ s.theDerived.theForwardingTableEndpoints :=
        hp.listed (mem_of_lookup hr)
      have hpre' := g.fewer (fewer_withNetwork s hkeys) hpre
      refine wp_mono (removeRouterByKey_settles hreset (hp.withNetwork m) hpre' hn hin hns) ?_
        fun _ _ h => h
      exact fun _ s' h => .inr (h.of_kept (kept_withNetwork env s hkeys))

/-- The home of a known computer is found, and what is cached is right. -/
theorem homeRouter_placed (env : Environment) (hp : Placed t o s) {c : String}
    (hc : c ∈ s.theComputers) (hne : s.theDerived.theRouterAddresses.isEmpty = false) :
    ∃ h m, homeRouter env c s =
        .ok h ((withClosest s m).withNetwork (s.theDerived.theNetwork.record (.home c h))) ∧
      Home t o s c h ∧ Placed t o (withClosest s m) := by
  obtain ⟨r, b, a, hb, hcl, hrs⟩ := hp.exists_home hc hne
  rcases findClosest_cases b hne with ⟨err, _, hno⟩ | ⟨a', m, hf, hm⟩
  · exact absurd hcl (hno t o a hp.topology hp.objective)
  have hcl' : closest t o s.theDerived.theRouterAddresses.keys b = .ok a' := by
    rcases hm with ⟨hcache, _⟩ | ⟨_, t', o', ht, ho, hcl'⟩
    · exact hp.cache hcache
    · rw [hp.topology] at ht
      rw [hp.objective] at ho
      cases ht
      cases ho
      exact hcl'
  obtain rfl : a = a' := by
    rw [hcl] at hcl'
    exact Except.ok.inj hcl'
  have hplaced : Placed t o (withClosest s m) := by
    refine ⟨hp.toRegistry.withClosest m, hp.topology, hp.objective, hp.listed, hp.single, hp.nodes,
      fun {b'} {a''} hb' => ?_, hp.computers⟩
    rcases hm with ⟨_, rfl⟩ | ⟨rfl, _⟩
    · exact hp.cache hb'
    · simp only [withClosest, ExtTreeMap.getElem?_insert, LawfulEqCmp.compare_eq_iff_eq] at hb'
      split at hb'
      · next heq =>
        subst heq
        cases hb'
        exact hcl
      · exact hp.cache hb'
  rcases routerEndpoint_cases env hplaced.toRegistry a with ⟨_, _, hnone⟩ | ⟨h, rs, hr, hrs', hin⟩
  · rw [show (withClosest s m).theDerived.theRouterAddresses[a]? = some [r] from hrs] at hnone
    cases hnone
  rw [show (withClosest s m).theDerived.theRouterAddresses[a]? = some [r] from hrs] at hrs'
  cases hrs'
  rw [List.mem_singleton] at hin
  subst hin
  refine ⟨h, m, ?_, ⟨b, a, hb, hcl, hrs⟩, hplaced⟩
  simp only [homeRouter, addressOf, hb, pure_bind, bind_of_ok hf, bind_of_ok hr]
  rfl

/-- A router is no computer. -/
theorem Home.not_serves (hp : Placed t o s) {c r : String} (hc : Home t o s c r) (l : String) :
    ¬ Serves s r l := by
  rintro ⟨cs, hcs, _⟩
  obtain ⟨f, hf⟩ := lookup_of_mem (hc.registered hp).2
  exact (hp.computers (mem_of_lookup hcs)).1 (mem_of_lookup (hp.sub hf))

/-- What a computer more makes final: its lambdas at its home. -/
theorem Home.final_more {c h : String} (hh : Home t o s c h) {d l r : String} :
    (D d ∨ d = c) ∧ Serves s d l ∧ Home t o s d r ↔
      (D d ∧ Serves s d l ∧ Home t o s d r) ∨ (r = h ∧ d = c ∧ Serves s c l) := by
  constructor
  · rintro ⟨hD | rfl, hs, hr⟩
    · exact .inl ⟨hD, hs, hr⟩
    · exact .inr ⟨hr.unique hh, rfl, hs⟩
  · rintro (⟨hD, hs, hr⟩ | ⟨rfl, rfl, hs⟩)
    · exact ⟨.inl hD, hs, hr⟩
    · exact ⟨.inr rfl, hs, hh⟩

/-- What a computer more makes reachable: its lambdas through its home. -/
theorem Home.nonfinal_more {c h : String} (hh : Home t o s c h) {l r : String} :
    (∃ d, (D d ∨ d = c) ∧ Serves s d l ∧ Home t o s d r) ↔
      (∃ d, D d ∧ Serves s d l ∧ Home t o s d r) ∨ (r = h ∧ Serves s c l) := by
  constructor
  · rintro ⟨d, hd⟩
    rcases hh.final_more.mp hd with hd | ⟨hr, -, hs⟩
    · exact .inl ⟨d, hd⟩
    · exact .inr ⟨hr, hs⟩
  · rintro (⟨d, hd⟩ | ⟨hr, hs⟩)
    · exact ⟨d, hh.final_more.mpr (.inl hd)⟩
    · exact ⟨c, hh.final_more.mpr (.inr ⟨hr, rfl, hs⟩)⟩

section Tables

variable {c h f : String} {cs : ContainerList} {n₂ m : Network} (hp : Placed t o s)
  (hcan : CanonFor t o D s) (hc : s.theComputers[c]? = some cs) (hh : Home t o s c h)
  (hf : s.theDerived.theForwardingTableEndpoints[h]? = some f)
  (hother : ∀ e, e ≠ f → n₂.flags e = s.theDerived.theNetwork.flags e)
  (hfinal : ∀ p, n₂.flags f p = if p.2 = c ∧ ∃ x ∈ entries c cs, x.lambda = p.1 then some true
    else s.theDerived.theNetwork.flags f p)
  (hinf : Informed h (kept h c (entries c cs) s) (noted h c (entries c cs) (s.withNetwork n₂)) m)
include hc

theorem serves_of_kept {l : String} (hl : ∃ x ∈ kept h c (entries c cs) s, x.lambda = l) :
    Serves s c l := by
  obtain ⟨x, hx, rfl⟩ := hl
  obtain ⟨_, _, y, hy, hlambda, _⟩ := noteEntries_kept _ _ x hx
  exact (exists_entries hc).mp ⟨y, hy, hlambda.symm⟩

include hf hfinal hinf

omit hc in
theorem flags_home {l d : String} : m.flags f (l, d) =
    if d = c ∧ ∃ x ∈ entries c cs, x.lambda = l then some true
    else s.theDerived.theNetwork.flags f (l, d) := by
  rw [hinf.2 h f hf (l, d)]
  change (if _ then _ else n₂.flags f (l, d)) = _
  rw [if_neg fun hne => hne.1 rfl, hfinal]

include hp hother

omit hc hfinal in
theorem flags_away {r g l d : String} (hg : s.theDerived.theForwardingTableEndpoints[r]? = some g)
    (hr : r ≠ h) : m.flags g (l, d) = if d = h ∧ ∃ x ∈ kept h c (entries c cs) s, x.lambda = l
      then some false else s.theDerived.theNetwork.flags g (l, d) := by
  have hne : g ≠ f := by
    rintro rfl
    exact hr (hp.inj (hp.sub hg) (hp.sub hf))
  rw [hinf.2 r g hg (l, d), ← hother g hne]
  exact if_congr (and_iff_right hr) rfl rfl

include hcan hh

theorem CanonFor.final_announced {r g : String}
    (hg : s.theDerived.theForwardingTableEndpoints[r]? = some g) (l d : String) :
    m.flags g (l, d) = some true ↔ (D d ∨ d = c) ∧ Serves s d l ∧ Home t o s d r := by
  rw [hh.final_more]
  by_cases hr : r = h
  · subst hr
    obtain rfl : g = f := Option.some.inj (hg.symm.trans hf)
    rw [flags_home hf hfinal hinf]
    by_cases hd : d = c ∧ ∃ x ∈ entries c cs, x.lambda = l
    · rw [if_pos hd]
      exact iff_of_true rfl (.inr ⟨rfl, hd.1, (exists_entries hc).mp hd.2⟩)
    · rw [if_neg hd, hcan.final hg, or_iff_left]
      exact fun hd' => hd ⟨hd'.2.1, (exists_entries hc).mpr hd'.2.2⟩
  · rw [flags_away hp hf hother hinf hg hr, or_iff_left fun h => hr h.1]
    by_cases hd : d = h ∧ ∃ x ∈ kept h c (entries c cs) s, x.lambda = l
    · rw [if_pos hd]
      refine iff_of_false (by simp) fun hd' => ?_
      exact hh.not_serves hp l (hd.1 ▸ hd'.2.1)
    · rw [if_neg hd, hcan.final hg]

theorem CanonFor.nonfinal_announced {r g : String}
    (hg : s.theDerived.theForwardingTableEndpoints[r]? = some g) (l d : String) :
    m.flags g (l, d) = some false ↔
      d ≠ r ∧ ∃ c', (D c' ∨ c' = c) ∧ Serves s c' l ∧ Home t o s c' d := by
  rw [hh.nonfinal_more]
  by_cases hr : r = h
  · subst hr
    obtain rfl : g = f := Option.some.inj (hg.symm.trans hf)
    rw [flags_home hf hfinal hinf]
    by_cases hd : d = c ∧ ∃ x ∈ entries c cs, x.lambda = l
    · rw [if_pos hd]
      refine iff_of_false (by simp) ?_
      rintro ⟨hne, ⟨c', _, _, hd'⟩ | ⟨heq, _⟩⟩
      · exact hd'.not_serves hp l (hd.1 ▸ (exists_entries hc).mp hd.2)
      · exact hne heq
    · rw [if_neg hd, hcan.nonfinal hg]
      refine and_congr_right fun hne => (or_iff_left fun h => hne h.1).symm
  · rw [flags_away hp hf hother hinf hg hr]
    by_cases hd : d = h ∧ ∃ x ∈ kept h c (entries c cs) s, x.lambda = l
    · rw [if_pos hd]
      refine iff_of_true rfl ⟨?_, .inr ⟨hd.1, serves_of_kept hc hd.2⟩⟩
      rw [hd.1]
      exact Ne.symm hr
    · rw [if_neg hd, hcan.nonfinal hg]
      refine and_congr_right fun _ => ⟨.inl, ?_⟩
      rintro (h' | ⟨rfl, hs⟩)
      · exact h'
      · -- the lambda had been announced before by another computer of this home
        obtain ⟨x, hx, rfl⟩ := (exists_entries hc).mpr hs
        rcases noteEntries_covers (h := d) (c := c)
          (s.theDerived.theAnnouncedLambdas.getD d ∅) _ x hx with ⟨c', hc'⟩ | hy
        · exact ⟨c', (hcan.announced d x.lambda c').mp hc'⟩
        · exact absurd ⟨rfl, hy⟩ hd

/-- Announcing a computer to its home and, where it brings something new, the
home to the other routers makes the tables canonical for one computer more. -/
theorem CanonFor.announce (hkeys : ∀ e, e ∈ n₂.tables ↔ e ∈ s.theDerived.theNetwork.tables) :
    CanonFor t o (fun c' => D c' ∨ c' = c)
      ((noted h c (entries c cs) (s.withNetwork n₂)).withNetwork m) where
  reached {r g} hg := by
    obtain ⟨hg0, hmem⟩ := hcan.reached hg
    exact ⟨hg0, (hinf.1 g).mpr ((hkeys g).mpr hmem)⟩
  announced r l c' := by
    change c' ∈ EdgeControllerHier.announced (noted h c (entries c cs) (s.withNetwork n₂)) r l ↔
      (D c' ∨ c' = c) ∧ Serves s c' l ∧ Home t o s c' r
    rw [mem_announced_noted, exists_entries hc, hh.final_more]
    exact or_congr_left (hcan.announced r l c')
  final := CanonFor.final_announced hp hcan hc hh hf hother hfinal hinf
  nonfinal := CanonFor.nonfinal_announced hp hcan hc hh hf hother hfinal hinf

end Tables

/-- Computers that serve nothing do not matter. -/
theorem CanonFor.congr {D' : String → Prop} (hcan : CanonFor t o D s)
    (h : ∀ c l, Serves s c l → (D c ↔ D' c)) : CanonFor t o D' s := by
  have hsame {c l : String} {P : Prop} : D c ∧ Serves s c l ∧ P ↔ D' c ∧ Serves s c l ∧ P :=
    and_congr_left fun hs => h c l hs.1
  refine ⟨hcan.reached, fun r l c => ?_, fun hr l c => ?_, fun hr l d => ?_⟩
  · rw [hcan.announced, hsame]
  · rw [hcan.final hr, hsame]
  · rw [hcan.nonfinal hr]
    simp only [hsame]

/-- Without routers nothing is announced. -/
theorem CanonFor.of_no_router (hp : Placed t o s) (hcan : CanonFor t o D s) (D' : String → Prop)
    (he : s.theDerived.theRouterAddresses.isEmpty = true) : CanonFor t o D' s := by
  have hnone : ∀ a : String, s.theDerived.theRouterAddresses[a]? = none := by
    intro a
    rw [ExtTreeMap.isEmpty_iff.mp he]
    exact ExtTreeMap.getElem?_empty
  have hhome : ∀ c r, ¬ Home t o s c r := by
    rintro c r ⟨b, a, _, _, hr⟩
    rw [hnone] at hr
    cases hr
  have hendpoint : ∀ {r f : String}, s.theDerived.theForwardingTableEndpoints[r]? ≠ some f := by
    intro r f hr
    obtain ⟨a, rs, _, hrs, _⟩ := hp.back (mem_of_lookup hr)
    rw [hnone] at hrs
    cases hrs
  refine ⟨hcan.reached, fun r l c => ?_, fun h => absurd h hendpoint, fun h => absurd h hendpoint⟩
  rw [hcan.announced]
  exact iff_of_false (fun h => hhome c r h.2.2) fun h => hhome c r h.2.2

theorem privateAnnounceComputer_settles (hreset : ResetSettles g t o reset n) (hp : Placed t o s)
    (hpre : g.Pre s) (hn : s.theDerived.theForwardingTableEndpoints.size ≤ n) (hcan : CanonFor t o D s) {c : String}
    {cs : ContainerList} (hc : s.theComputers[c]? = some cs) :
    wp g.Bad (privateAnnounceComputer env reset c cs)
      (fun _ s' => Settled env t o (fun c' => D c' ∨ c' = c) s s') (fun _ _ => False) s := by
  refine wp_get_bind ?_
  cases hempty : s.theDerived.theRouterAddresses.isEmpty with
  | true => exact wp_pure ⟨hp, ⟨_, fun _ h => h, hcan.of_no_router hp _ hempty⟩, Kept.refl env s⟩
  | false =>
    have hm : c ∈ s.theComputers := mem_of_lookup hc
    obtain ⟨h, m, hrun, hh, hp₁⟩ := homeRouter_placed env hp hm hempty
    let s₁ := (withClosest s m).withNetwork (s.theDerived.theNetwork.record (.home c h))
    replace hp₁ : Placed t o s₁ := hp₁.withNetwork _
    have hcan₁ : CanonFor t o D s₁ :=
      ⟨hcan.reached, hcan.announced, hcan.final, hcan.nonfinal⟩
    have hk₁ : Kept env s s₁ := ⟨⟨rfl, id, Nat.le_refl _, fun _ => Iff.rfl⟩, fun _ => rfl⟩
    refine wp_bind_of_ok hrun ?_
    obtain ⟨⟨a, ha⟩, hreg⟩ := hh.registered hp
    obtain ⟨f, hf⟩ := lookup_of_mem hreg
    obtain ⟨hf0, hfmem⟩ := hcan.reached hf
    have hcne : c ≠ "" := by
      obtain ⟨_, b, hb, _⟩ := hp.computers hm
      exact address_ne_empty hb
    obtain ⟨ok, n₂, evs, hch, -, -, hkeys, hother, hok⟩ := changeRoutes_cases env f hcne
      (entries c cs) (b := true) (by simp [entries]) s₁.theDerived.theNetwork
    -- the home router is asked first
    have hfinal : announceFinal env h (entries c cs) s₁ = .ok ok (s₁.withNetwork n₂) := by
      have hft : s₁.forwardingServerEndpoint h = f := by
        simp only [forwardingServerEndpoint, ExtTreeMap.getD_eq_getD_getElem?]
        rw [show s₁.theRouters[h]? = some f from hp.sub hf]
        rfl
      rw [announceFinal, get_bind_apply]
      simp only [hft, if_neg hf0]
      exact onNetwork_of hch
    refine wp_bind_of_ok hfinal ?_
    have hk₂ : Kept env s (s₁.withNetwork n₂) := hk₁.trans (kept_withNetwork env s₁ hkeys)
    cases ok with
    | false =>
      have hns : ¬ Responsive env (s₁.withNetwork n₂) := by
        intro hs
        have htrue := Network.commands_answered hs.1 hf0 ((entries c cs).map fun x =>
          ⟨.CHANGE, x.lambda, x.destination, x.weight, x.final⟩)
          (n := s₁.theDerived.theNetwork) hfmem
        rw [Network.changeRoutes] at hch
        rw [hch] at htrue
        cases htrue
      have hpre₂ := g.fewer hk₂.toFewer hpre
      refine wp_mono (removeRouter_settles hreset (hp₁.withNetwork n₂) hpre₂ hn hreg hns) ?_
        fun _ _ h => h
      exact fun _ s' h => (h.weaken fun _ _ => trivial).of_kept hk₂
    | true =>
      refine wp_bind_of_ok (noteAnnounced_eq h c (entries c cs) _) ?_
      have hes : ∀ x ∈ kept h c (entries c cs) (s₁.withNetwork n₂),
          x.destination = h ∧ x.weight = 1 ∧ x.final = false := by
        intro x hx
        obtain ⟨hd, hfin, y, hy, -, hw⟩ := noteEntries_kept _ _ x hx
        obtain ⟨l, -, rfl⟩ := List.mem_map.mp hy
        exact ⟨hd, hw, hfin⟩
      have hp₃ := (hp₁.withNetwork n₂).noted h c (entries c cs)
      have hk₃ : Kept env s (noted h c (entries c cs) (s₁.withNetwork n₂)) :=
        ⟨⟨rfl, id, Nat.le_refl _, hk₂.servers⟩, fun _ => rfl⟩
      have hpre₃ := g.fewer hk₃.toFewer hpre
      refine wp_mono (announceIntermediate_settles hreset hp₃ hpre₃ hn (address_ne_empty ha) hes) ?_
        fun _ _ h => h
      rintro _ s' (⟨m', rfl, hinf⟩ | hsettled)
      · refine ⟨hp₃.withNetwork m', ⟨_, fun _ h => h, ?_⟩,
          hk₃.trans (kept_withNetwork env _ hinf.1)⟩
        exact CanonFor.announce hp₁ hcan₁ hc hh hf hother (fun p => hok rfl p) hinf hkeys
      · exact (hsettled.weaken fun _ _ => trivial).of_kept hk₃

theorem CanonFor.cleared {m : Network}
    (hm : Flushed s.theDerived.theForwardingTableEndpoints.toList s m) :
    CanonFor t o (fun _ => False) (cleared m s) := by
  have hflags {r f : String} (hr : s.theDerived.theForwardingTableEndpoints[r]? = some f) :=
    hm.2 (r, f) (mem_toList.mpr hr)
  refine ⟨fun hr => ⟨(hflags hr).1, (hflags hr).2.1⟩, fun r l c => ?_, fun {r f} hr l c => ?_,
    fun {r f} hr l c => ?_⟩
  · simp [EdgeControllerHier.announced, EdgeControllerHier.cleared]
  · change m.flags f (l, c) = some true ↔ _
    simp [(hflags hr).2.2]
  · change m.flags f (l, c) = some false ↔ _
    simp [(hflags hr).2.2]

theorem resetBody_settles (hreset : ResetSettles g t o reset n) (hp : Placed t o s)
    (hpre : g.Pre s) (hn : s.theDerived.theForwardingTableEndpoints.size ≤ n) :
    wp g.Bad (resetBody env reset)
      (fun _ s' => Settled env t o (fun _ => True) s s') (fun _ _ => False) s := by
  have hmono := fun s s' => @g.mono s s'
  refine wp_resetBody hreset.1 hmono (fun m x hx hkeys hfail => ?_) fun m hm => ?_
  · have hr := mem_toList.mp hx
    have hin : x.1 ∈ s.theDerived.theForwardingTableEndpoints :=
      mem_of_lookup hr
    have hpre' := g.fewer (fewer_withNetwork s hkeys) hpre
    refine wp_mono (removeRouter_settles hreset (hp.withNetwork m) hpre' hn hin fun hs => ?_) ?_
      fun _ _ h => h
    · obtain ⟨hne, hserver⟩ := hs.2 (show (s.withNetwork m).theDerived.theForwardingTableEndpoints[x.1]? =
        some x.2 from hr)
      exact hfail hs.1 hne hserver
    · exact fun _ s' h => h.of_kept (kept_withNetwork env s hkeys)
  · have hp₁ : Placed t o (cleared m s) :=
      ⟨⟨hp.sub, hp.inj, hp.known, hp.addr, hp.back⟩, hp.topology, hp.objective, hp.listed, hp.single,
        hp.nodes, hp.cache, hp.computers⟩
    have hk₁ : Kept env s (cleared m s) := ⟨⟨rfl, id, Nat.le_refl _, hm.1⟩, fun _ => rfl⟩
    -- the computers passed have been announced, by this loop or by a nested reset
    refine wp_forM (I := fun l s' => Settled env t o (fun c => c ∈ l.map Prod.fst) s s')
      (fun x => moves_mono (grows_privateAnnounceComputer hreset.1 x.1 x.2) hmono) _ ?_ ?_ ?_
    · rintro l x rest s' hl ⟨hp', ⟨D, hD, hcan⟩, hk⟩
      have hc : s'.theComputers[x.1]? = some x.2 := by
        rw [hk.computers]
        exact lookup_of_split hl
      have hpre' := g.fewer hk.toFewer hpre
      refine wp_mono (privateAnnounceComputer_settles hreset hp' hpre' (hk.size.trans hn) hcan hc) ?_
        fun _ _ h => h
      intro _ s'' h
      refine (h.weaken fun c hc => ?_).of_kept hk
      rw [List.map_append, List.mem_append] at hc
      rcases hc with hc | hc
      · exact .inl (hD c hc)
      · exact .inr (List.mem_singleton.mp hc)
    · rintro s' ⟨hp', ⟨D, hD, hcan⟩, hk⟩
      refine ⟨hp', ⟨fun _ => True, fun c _ => trivial, hcan.congr fun c l hs => ?_⟩, hk⟩
      obtain ⟨cs, hcs, _⟩ := hs
      rw [hk.computers] at hcs
      exact iff_of_true (hD c (List.mem_map_of_mem (f := Prod.fst)
        (mem_toList.mpr hcs))) trivial
    · exact ⟨hp₁, ⟨_, fun c hc => by simp at hc, CanonFor.cleared hm⟩, hk₁⟩

/-- Enough resets are allowed for, and each one settles all computers. -/
theorem reset_settles (g : Regime env) (t : Topology) (o : Objective) (n : Nat) :
    ResetSettles g t o (EdgeControllerHier.reset env n) n := by
  refine ⟨grows_reset n, ?_⟩
  induction n with
  | zero => exact fun s _ _ hn => absurd hn (Nat.not_lt_zero _)
  | succ n ih =>
    intro s hp hpre hn
    exact resetBody_settles ⟨grows_reset n, ih⟩ hp hpre (Nat.le_of_lt_succ hn)

end Announcement
end ServerlessEdge.Controller.EdgeControllerHier
