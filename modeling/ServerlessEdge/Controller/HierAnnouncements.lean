import ServerlessEdge.Controller.HierCanonical
import ServerlessEdge.Controller.HierCalls

/-! Runs of announcements: whichever routers fail to answer, the tables of those
left are the canonical ones. -/
namespace ServerlessEdge.Controller.EdgeControllerHier
open Std Library Maps Triple EdgeController

/-- The addresses of the registered routers, in their order. -/
def AddressesOf (s : State) (as : List String) : Prop :=
  as.Pairwise (fun x y => compare x y = .lt) ∧ ∀ x, x ∈ as ↔ ∃ r ∈ s.theRouters, address r = .ok x

/-- A router is the closest to a computer among the registered ones. -/
def ClosestRouter (t : Topology) (o : Objective) (s : State) (c r : String) : Prop :=
  r ∈ s.theRouters ∧ ∃ as b a, AddressesOf s as ∧ address c = .ok b ∧ address r = .ok a ∧
    closest t o as b = .ok a

/-- The tables of the registered routers hold what they should, and nothing else. -/
structure Canonical (t : Topology) (o : Objective) (s : State) : Prop where
  final : ∀ {r f : String}, s.theRouters[r]? = some f → ∀ l c,
    s.theDerived.theNetwork.flags f (l, c) = some true ↔ ClosestRouter t o s c r ∧ Serves s c l
  nonfinal : ∀ {r f : String}, s.theRouters[r]? = some f → ∀ l r',
    s.theDerived.theNetwork.flags f (l, r') = some false ↔
      r' ≠ r ∧ ∃ c, ClosestRouter t o s c r' ∧ Serves s c l

/-- The address of an end-point is a node of the topology. -/
def Located (t : Topology) (e : String) : Prop := ∃ a ∈ t.theNames.keys, address e = .ok a

/-- Announcements of routers with an end-point, an address and a table server of
their own, and of computers that are new or announced again as they were. -/
def ValidAnnouncement (t : Topology) (s : State) : Call → Prop
  | .announceRouter e f => Located t e ∧ e ∉ s.theComputers ∧
      (∀ r ∈ s.theRouters.keys, address r ≠ address e) ∧ ∀ x ∈ s.theRouters.toList, x.2 ≠ f
  | .announceComputer c cs => Located t c ∧ c ∉ s.theRouters ∧
      (c ∉ s.theComputers ∨ s.theComputers[c]? = some cs)
  | .removeComputer _ => False

instance (t : Topology) (e : String) : Decidable (Located t e) :=
  inferInstanceAs (Decidable (∃ a ∈ t.theNames.keys, address e = .ok a))

instance (t : Topology) (s : State) : ∀ a, Decidable (ValidAnnouncement t s a)
  | .announceRouter e f => inferInstanceAs (Decidable (Located t e ∧ e ∉ s.theComputers ∧
      (∀ r ∈ s.theRouters.keys, address r ≠ address e) ∧ ∀ x ∈ s.theRouters.toList, x.2 ≠ f))
  | .announceComputer c cs => inferInstanceAs (Decidable (Located t c ∧ c ∉ s.theRouters ∧
      (c ∉ s.theComputers ∨ s.theComputers[c]? = some cs)))
  | .removeComputer _ => inferInstanceAs (Decidable False)

/-- No key read in this call, or before, after it was freed was another string. -/
def Faithful (env : Environment) (s : State) (a : Call) : Prop := ¬ Unfaithful env (step env s a)

/-- The call returns. -/
def Returns (env : Environment) (s : State) (a : Call) : Prop := ∃ s', serve env a s = .ok () s'

/-- From this state a reset with all routers responding keeps every router and
fills its table as it is. -/
def ResetAgrees (env : Environment) (s : State) : Prop :=
  ∃ s', reset ⟨fun _ => .answered, env.random, id⟩ (resets s) s = .ok () s' ∧
    s'.theRouters = s.theRouters ∧ ∀ {r f : String}, s.theRouters[r]? = some f →
      s'.theDerived.theNetwork.flags f = s.theDerived.theNetwork.flags f

variable {env : Environment} {t : Topology} {o : Objective} {s : State}

theorem Placed.addressesOf (hp : Placed t o s) :
    AddressesOf s s.theDerived.theRouterAddresses.keys := by
  refine ⟨ExtTreeMap.ordered_keys, fun x => ?_⟩
  rw [ExtTreeMap.mem_keys]
  constructor
  · intro hx
    obtain ⟨rs, hrs⟩ := lookup_of_mem hx
    obtain ⟨r, rfl⟩ := hp.single hrs
    obtain ⟨hr, hin⟩ := (hp.addr hrs).2.2 r (List.mem_singleton_self r)
    obtain ⟨f, hf⟩ := lookup_of_mem hin
    exact ⟨r, mem_of_lookup (hp.sub hf), hr⟩
  · rintro ⟨r, hr, hx⟩
    obtain ⟨a, rs, ha, hrs, -⟩ := hp.back (hp.listed hr)
    rw [hx] at ha
    cases ha
    exact mem_of_lookup hrs

theorem AddressesOf.unique {as bs : List String} (ha : AddressesOf s as) (hb : AddressesOf s bs) :
    as = bs :=
  ordered_unique ha.1 hb.1 fun x => (ha.2 x).trans (hb.2 x).symm

/-- The home kept by the controller is the closest of the registered routers. -/
theorem home_iff (hp : Placed t o s) (c r : String) : Home t o s c r ↔ ClosestRouter t o s c r := by
  constructor
  · rintro ⟨b, a, hb, ha, hrs⟩
    obtain ⟨hr, hin⟩ := (hp.addr hrs).2.2 r (List.mem_singleton_self r)
    obtain ⟨f, hf⟩ := lookup_of_mem hin
    exact ⟨mem_of_lookup (hp.sub hf), _, b, a,
      hp.addressesOf, hb, hr, ha⟩
  · rintro ⟨hr, as, b, a, has, hb, ha, hcl⟩
    obtain ⟨a', rs, ha', hrs, hin⟩ := hp.back (hp.listed hr)
    rw [ha] at ha'
    cases ha'
    obtain ⟨r', rfl⟩ := hp.single hrs
    rw [List.mem_singleton] at hin
    subst hin
    exact ⟨b, a, hb, hp.addressesOf.unique has ▸ hcl, hrs⟩

theorem CanonFor.canonical (hp : Placed t o s) (hcan : CanonFor t o (fun _ => True) s) :
    Canonical t o s := by
  constructor
  · intro r f hr l c
    rw [hcan.final (hp.endpoint.mpr hr), home_iff hp]
    tauto
  · intro r f hr l d
    rw [hcan.nonfinal (hp.endpoint.mpr hr)]
    simp only [home_iff hp, true_and, and_comm]

theorem Placed.added (hp : Placed t o s) {e f a : String} (ha : address e = .ok a)
    (hnode : a ∈ t.theNames) (he : e ∉ s.theComputers)
    (hfree : ∀ r ∈ s.theRouters, address r ≠ .ok a) (hf : ∀ r : String, s.theRouters[r]? ≠ some f) :
    Placed t o (added e f a s) := by
  have hnew : e ∉ s.theRouters := fun h => hfree e h ha
  have hnone : s.theDerived.theRouterAddresses[a]? = none := by
    by_contra hn
    obtain ⟨rs, hrs⟩ := Option.ne_none_iff_exists'.mp hn
    obtain ⟨r, rfl⟩ := hp.single hrs
    obtain ⟨hr, hin⟩ := (hp.addr hrs).2.2 r (List.mem_singleton_self r)
    obtain ⟨g, hg⟩ := lookup_of_mem hin
    exact hfree r (mem_of_lookup (hp.sub hg)) hr
  have hnew' : e ∉ s.theDerived.theForwardingTableEndpoints := by
    intro hin
    obtain ⟨g, hg⟩ := lookup_of_mem hin
    exact hnew (mem_of_lookup (hp.sub hg))
  refine ⟨hp.toRegistry.added hnew hf ha, hp.topology, hp.objective, ?_, ?_, ?_, ?_, ?_⟩
  · intro r hr
    rw [ExtTreeMap.mem_iff_isSome_getElem?, getElem?_added] at hr
    rw [ExtTreeMap.mem_iff_isSome_getElem?, endpoints_added hnew']
    split at hr
    · rw [if_pos ‹_›]
      rfl
    · rw [if_neg ‹_›, ← ExtTreeMap.mem_iff_isSome_getElem?]
      exact hp.listed (ExtTreeMap.mem_iff_isSome_getElem?.mpr hr)
  · intro b rs hb
    rw [addresses_added, hnone] at hb
    split at hb
    · exact ⟨e, (Option.some.inj hb).symm⟩
    · exact hp.single hb
  · intro b hb
    rw [ExtTreeMap.mem_iff_isSome_getElem?, addresses_added] at hb
    split at hb
    · next hba => exact hba ▸ hnode
    · exact hp.nodes (ExtTreeMap.mem_iff_isSome_getElem?.mpr hb)
  · intro b a' hb
    have hempty : a ∉ s.theDerived.theRouterAddresses := by
      rw [ExtTreeMap.mem_iff_isSome_getElem?, hnone]
      simp
    simp [EdgeControllerHier.added, enlisted, hempty] at hb
  · intro c hc
    obtain ⟨hn, hb⟩ := hp.computers hc
    refine ⟨fun hr => ?_, hb⟩
    rw [ExtTreeMap.mem_iff_isSome_getElem?, getElem?_added] at hr
    split at hr
    · next hce => exact he (hce ▸ hc)
    · exact hn (ExtTreeMap.mem_iff_isSome_getElem?.mpr hr)

theorem getElem?_joined {c : String} {cs : ContainerList} {m : ExtTreeMap String (ExtTreeSet String)}
    (c' : String) : (joined c cs m s).theComputers[c']? =
      if c' = c then some cs else s.theComputers[c']? := by
  simp only [joined, ExtTreeMap.getElem?_insert, LawfulEqCmp.compare_eq_iff_eq, eq_comm (a := c)]

theorem Placed.joined (hp : Placed t o s) {c : String} (cs : ContainerList)
    (m : ExtTreeMap String (ExtTreeSet String)) (hc : Located t c) (hr : c ∉ s.theRouters) :
    Placed t o (joined c cs m s) := by
  refine ⟨⟨hp.sub, hp.inj, hp.known, hp.addr, hp.back⟩, hp.topology, hp.objective, hp.listed,
    hp.single, hp.nodes, hp.cache, fun {c'} hc' => ?_⟩
  rw [ExtTreeMap.mem_iff_isSome_getElem?, getElem?_joined] at hc'
  split at hc'
  · next heq =>
    subst heq
    obtain ⟨a, ha, hca⟩ := hc
    exact ⟨hr, a, hca, ExtTreeMap.mem_keys.mp ha⟩
  · exact hp.computers (ExtTreeMap.mem_iff_isSome_getElem?.mpr hc')

/-- A computer that has joined is still to be announced. -/
theorem CanonFor.joined (hcan : CanonFor t o (fun _ => True) s) {c : String} (cs : ContainerList)
    (m : ExtTreeMap String (ExtTreeSet String)) (hc : s.theComputers[c]? = none) :
    CanonFor t o (fun c' => c' ≠ c) (joined c cs m s) := by
  have hserves {c' l : String} : c' ≠ c ∧ Serves (EdgeControllerHier.joined c cs m s) c' l ↔
      Serves s c' l := by
    simp only [Serves, getElem?_joined]
    by_cases h : c' = c
    · subst h
      simp [hc]
    · simp [h]
  have hsame {c' l : String} {P : Prop} :
      c' ≠ c ∧ Serves (EdgeControllerHier.joined c cs m s) c' l ∧ P ↔
        True ∧ Serves s c' l ∧ P := by
    rw [← and_assoc, hserves, true_and]
  refine ⟨hcan.reached, fun r l c' => ?_, fun hr l c' => ?_, fun hr l d => ?_⟩
  · rw [hsame]
    exact hcan.announced r l c'
  · rw [hsame]
    exact hcan.final hr l c'
  · simp only [hsame]
    exact hcan.nonfinal hr l d

section Calls

variable {g : Regime env}

theorem announceRouter_settles (hp : Placed t o s) {e f : String} (hloc : Located t e)
    (he : e ∉ s.theComputers) (hfree : ∀ r ∈ s.theRouters.keys, address r ≠ address e)
    (hf : ∀ x ∈ s.theRouters.toList, x.2 ≠ f) (hpre : ∀ a, g.Pre (added e f a s)) :
    wp g.Bad (announceRouter (hooks env) e f) (fun _ s' => Placed t o s' ∧
      CanonFor t o (fun _ => True) s' ∧ ∃ a, Kept env (added e f a s) s') (fun _ _ => False) s := by
  obtain ⟨a, hnode, ha⟩ := hloc
  obtain ⟨k, hk, heq⟩ := announceRouter_eq env (f := f) (s := s) ha
  have hp₁ : Placed t o (added e f a s) := by
    refine hp.added ha (ExtTreeMap.mem_keys.mp hnode) he (fun r hr h => ?_) fun r hr => ?_
    · exact hfree r (ExtTreeMap.mem_keys.mpr hr) (h.trans ha.symm)
    · exact hf (r, f) (mem_toList.mpr hr) rfl
  have hsize : (added e f a s).theDerived.theForwardingTableEndpoints.size < k := by
    have hle := ExtTreeMap.size_insertIfNew_le (t := s.theDerived.theForwardingTableEndpoints)
      (k := e) (v := f)
    simp only [added, enlisted]
    omega
  have hw := (reset_settles g t o k).2 _ hp₁ (hpre a) hsize
  refine wp_congr heq (wp_mono hw ?_ fun _ _ h => h)
  rintro _ s' ⟨hp', ⟨D, hD, hc⟩, hkept⟩
  exact ⟨hp', hc.congr fun c _ _ => iff_of_true (hD c trivial) trivial, a, hkept⟩

theorem announceNew_settles (hp : Placed t o s) (hcan : CanonFor t o (fun _ => True) s)
    {c : String} (cs : ContainerList) (hloc : Located t c) (hr : c ∉ s.theRouters)
    (hc : s.theComputers[c]? = none) (hpre : ∀ m, g.Pre (joined c cs m s)) :
    wp g.Bad (announceComputer (hooks env) c cs) (fun _ s' => Placed t o s' ∧
      CanonFor t o (fun _ => True) s' ∧ ∃ m, Kept env (joined c cs m s) s') (fun _ _ => False) s := by
  obtain ⟨m, heq⟩ := @announceComputer_new env c cs s hc
  have hjoined : (joined c cs m s).theComputers[c]? = some cs := by
    rw [getElem?_joined, if_pos rfl]
  have hsize : (joined c cs m s).theDerived.theForwardingTableEndpoints.size ≤
      resets (joined c cs m s) := by
    simp only [resets]
    omega
  have hw := privateAnnounceComputer_settles (reset_settles g t o (resets (joined c cs m s)))
    (hp.joined cs m hloc hr) (hpre m) hsize (hcan.joined cs m hc) hjoined
  refine wp_congr heq (wp_mono hw ?_ fun _ _ h => h)
  rintro _ s' ⟨hp', ⟨D, hD, hcan'⟩, hkept⟩
  refine ⟨hp', hcan'.congr fun c' _ _ => iff_of_true (hD c' ?_) trivial, m, hkept⟩
  exact (Classical.em (c' = c)).symm

end Calls

/-- Any router may fail; nothing is claimed once a freed key was misread. -/
def faults (env : Environment) : Regime env where
  Bad := Unfaithful env
  Pre _ := True
  mono := unfaithful_mono
  fewer _ _ := trivial
  freed _ _ hf := ⟨_, List.mem_cons_self, hf⟩

/-- Each valid call returns with all computers announced. -/
theorem serve_settles (hp : Placed t o s) (hcan : CanonFor t o (fun _ => True) s) {a : Call}
    (hvalid : ValidAnnouncement t s a) : wp (Unfaithful env) (serve env a)
      (fun _ s' => Placed t o s' ∧ CanonFor t o (fun _ => True) s') (fun _ _ => False) s := by
  cases a with
  | announceRouter e f =>
    obtain ⟨hloc, he, hfree, hf⟩ := hvalid
    have hw := announceRouter_settles (g := faults env) hp hloc he hfree hf fun _ => trivial
    exact wp_mono hw (fun _ _ h => ⟨h.1, h.2.1⟩) fun _ _ h => h
  | announceComputer c cs =>
    obtain ⟨hloc, hr, hc⟩ := hvalid
    cases hc' : s.theComputers[c]? with
    | some cs' =>
      have hsame : s.theComputers[c]? = some cs := by
        rcases hc with hc | hc
        · exact absurd (mem_of_lookup hc') hc
        · exact hc
      have hret : announceComputer (hooks env) c cs s = (pure () : Member _ Unit) s :=
        announceComputer_again (hooks env) hsame
      exact wp_congr hret (wp_pure ⟨hp, hcan⟩)
    | none =>
      have hw := announceNew_settles (g := faults env) hp hcan cs hloc hr hc' fun _ => trivial
      exact wp_mono hw (fun _ _ h => ⟨h.1, h.2.1⟩) fun _ _ h => h
  | removeComputer c => exact absurd hvalid id

private theorem eq_of_flags {x y : Option Bool} (ht : x = some true ↔ y = some true)
    (hf : x = some false ↔ y = some false) : x = y := by
  cases x with
  | none =>
    cases y with
    | none => rfl
    | some b => cases b <;> simp at ht hf
  | some b =>
    cases b with
    | true => exact (ht.mp rfl).symm
    | false => exact (hf.mp rfl).symm

/-- Two canonical states with the same registries have the same tables. -/
theorem Canonical.flags_eq {s' : State} (h : Canonical t o s) (h' : Canonical t o s')
    (hr : s'.theRouters = s.theRouters)
    (hc : ∀ c l, Serves s' c l ↔ Serves s c l) {r f : String} (hf : s.theRouters[r]? = some f) :
    s'.theDerived.theNetwork.flags f = s.theDerived.theNetwork.flags f := by
  have hclosest : ∀ c r, ClosestRouter t o s' c r ↔ ClosestRouter t o s c r := by
    intro c r
    simp only [ClosestRouter, AddressesOf, hr]
  have hf' : s'.theRouters[r]? = some f := by rw [hr, hf]
  funext ⟨l, d⟩
  refine eq_of_flags ?_ ?_
  · rw [h'.final hf', h.final hf, hclosest, hc]
  · rw [h'.nonfinal hf', h.nonfinal hf]
    simp only [hclosest, hc]

theorem reset_agrees (env : Environment) (hp : Placed t o s)
    (hcan : CanonFor t o (fun _ => True) s) : ResetAgrees env s := by
  let env' : Environment := ⟨fun _ => .answered, env.random, id⟩
  have hgood (s : State) : ¬ Unfaithful env' s := by
    rintro ⟨e, -, hne⟩
    exact hne rfl
  have hsize : s.theDerived.theForwardingTableEndpoints.size < resets s := by
    simp only [resets]
    omega
  obtain ⟨_, hrun, hp', ⟨D, hD, hcan'⟩, hk⟩ :=
    wp_returns ((reset_settles (faults env') t o (resets s)).2 s hp trivial hsize) (hgood _)
  have hr := hk.responsive ⟨fun _ => rfl, hcan.reached⟩
  refine ⟨_, hrun, hr, fun hf => ?_⟩
  refine (hcan.canonical hp).flags_eq ((hcan'.congr fun c _ _ => ?_).canonical hp') hr ?_ hf
  · exact iff_of_true (hD c trivial) trivial
  · intro c l
    simp only [Serves, hk.computers]

theorem canon_new (t : Topology) (o : Objective)
    (aTables : ExtTreeMap String (Forwarding.EdgeRouter ℚ)) :
    Placed t o (new t o aTables) ∧ CanonFor t o (fun _ => True) (new t o aTables) := by
  have hempty : ∀ {r f : String}, (new t o aTables).theDerived.theForwardingTableEndpoints[r]? ≠
      some f := by simp [new]
  refine ⟨Placed.new t o aTables, fun hr => absurd hr hempty, fun r l c => ?_,
    fun hr => absurd hr hempty, fun hr => absurd hr hempty⟩
  simp [announced, new, Serves]

/-- In a run of announcements every call returns and every state reached has
canonical tables, which a reset from scratch reproduces, as long as no key of a
freed router was read as another string. -/
theorem announcements_canonical (env : Environment) (t : Topology) (o : Objective)
    (aTables : ExtTreeMap String (Forwarding.EdgeRouter ℚ)) (aCalls : List Call)
    (h : Runs.Along (step env) (fun s a => ValidAnnouncement t s a ∧ Faithful env s a)
      (new t o aTables) aCalls) :
    Runs.Along (step env) (Returns env) (new t o aTables) aCalls ∧
      ∀ s ∈ Runs.states (step env) (new t o aTables) aCalls,
        Canonical t o s ∧ ResetAgrees env s := by
  have hnew := canon_new t o aTables
  have hcall (s : State) (a : Call) (hs : Placed t o s ∧ CanonFor t o (fun _ => True) s)
      (ha : ValidAnnouncement t s a ∧ Faithful env s a) :=
    wp_returns (serve_settles hs.1 hs.2 ha.1) ha.2
  have hstep : ∀ s a, Placed t o s ∧ CanonFor t o (fun _ => True) s →
      ValidAnnouncement t s a ∧ Faithful env s a →
      Placed t o (step env s a) ∧ CanonFor t o (fun _ => True) (step env s a) := by
    intro s a hs ha
    obtain ⟨_, _, hq⟩ := hcall s a hs ha
    exact hq
  refine ⟨Runs.Along.of_invariant hstep (fun s a hs ha => ?_) hnew h, fun s hs => ?_⟩
  · obtain ⟨_, hrun, _⟩ := hcall s a hs ha
    exact ⟨_, hrun⟩
  · obtain ⟨hp, hcan⟩ := Runs.invariant_along hstep hnew h s hs
    exact ⟨hcan.canonical hp, reset_agrees env hp hcan⟩

section Example

/-- Three nodes, one hop from each other. -/
def threeNodes : Topology :=
  ⟨ExtTreeMap.ofList [("a", 0), ("b", 1), ("c", 2)], [0, 1, 1, 1, 0, 1, 1, 1, 0]⟩

def threeServers : ExtTreeMap String (Forwarding.EdgeRouter ℚ) :=
  ExtTreeMap.ofList [("a:2", Forwarding.EdgeRouter.new), ("b:2", Forwarding.EdgeRouter.new),
    ("c:2", Forwarding.EdgeRouter.new)]

/-- A router at each node, and then a computer at the first one. -/
def threeRouters : List Call :=
  [.announceRouter "a:1" "a:2", .announceRouter "b:1" "b:2", .announceRouter "c:1" "c:2",
    .announceComputer "a:5" ⟨[⟨"container", "processor", "lambda0", 1⟩]⟩]

/-- The n-th event is a command that gets lost. -/
def loses (n : Nat) (aFreed : String → String) : Environment :=
  ⟨fun i => if i = n then .lost else .answered, id, aFreed⟩

/-- The second router does not answer; its key is intact. -/
theorem announcements_canonical_three :
    Runs.Along (step (loses 11 id)) (Returns (loses 11 id)) (new threeNodes .MinMax threeServers)
        threeRouters ∧
      ∀ s ∈ Runs.states (step (loses 11 id)) (new threeNodes .MinMax threeServers) threeRouters,
        Canonical threeNodes .MinMax s ∧ ResetAgrees (loses 11 id) s := by
  have hfaithful (s : State) (a : Call) : Faithful (loses 11 id) s a := by
    rintro ⟨e, -, hne⟩
    exact hne rfl
  refine announcements_canonical (loses 11 id) threeNodes .MinMax threeServers threeRouters ?_
  exact ⟨⟨by decide +kernel, hfaithful _ _⟩, ⟨by decide +kernel, hfaithful _ _⟩,
    ⟨by decide +kernel, hfaithful _ _⟩, ⟨by decide +kernel, hfaithful _ _⟩, trivial⟩

/-- The second router does not answer and its key is no longer there when it is
removed: the third one never learns of the computer. -/
theorem freed_key_read :
    ¬ ∀ (env : Environment) (aCalls : List Call),
      Runs.Along (step env) (ValidAnnouncement threeNodes) (new threeNodes .MinMax threeServers)
        aCalls → ∀ s ∈ Runs.states (step env) (new threeNodes .MinMax threeServers) aCalls,
          Canonical threeNodes .MinMax s := by
  intro h
  let env := loses 11 fun _ => ""
  let s := Runs.final (step env) (new threeNodes .MinMax threeServers) threeRouters
  have hcan : Canonical threeNodes .MinMax s :=
    h env threeRouters (by decide +kernel) s (Runs.final_mem_states _ _ _)
  have hrouters : s.theRouters.keys = ["a:1", "c:1"] := by decide +kernel
  have haddr : AddressesOf s ["a", "c"] := by
    have ha : address "a:1" = .ok "a" := by decide
    have hc : address "c:1" = .ok "c" := by decide
    refine ⟨by decide, fun x => ?_⟩
    simp only [← ExtTreeMap.mem_keys, hrouters, List.mem_cons, List.not_mem_nil, or_false,
      exists_eq_or_imp, exists_eq_left, ha, hc, Except.ok.injEq, eq_comm (a := x)]
  have hclosest : ClosestRouter threeNodes .MinMax s "a:5" "a:1" :=
    ⟨by decide +kernel, ["a", "c"], "a", "a", haddr, by decide, by decide, by decide +kernel⟩
  have hserves : Serves s "a:5" "lambda0" :=
    ⟨⟨[⟨"container", "processor", "lambda0", 1⟩]⟩, by decide +kernel, by decide⟩
  have hregistered : s.theRouters["c:1"]? = some "c:2" := by decide +kernel
  have hmissing : s.theDerived.theNetwork.flags "c:2" ("lambda0", "a:1") = some false :=
    (hcan.nonfinal hregistered "lambda0" "a:1").mpr ⟨by decide, "a:5", hclosest, hserves⟩
  exact absurd hmissing (by decide +kernel)

end Example
end ServerlessEdge.Controller.EdgeControllerHier
