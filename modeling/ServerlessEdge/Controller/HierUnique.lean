import ServerlessEdge.Controller.HierWithdraw
import ServerlessEdge.Controller.HierCalls

/-! Several routers may share an address and then the home of a computer is drawn
at random. A computer is announced by one router as long as the draws made for it
agree from one reset to the next. -/
namespace ServerlessEdge.Controller.EdgeControllerHier
open Std Library Maps Triple EdgeController

/-- The routers drawn for a computer since the announced lambdas were last
cleared or the computer was removed. -/
def draws : List Event → String → List String
  | [], _ => []
  | .home c' r :: es, c => if c' = c then r :: draws es c else draws es c
  | .clear :: _, _ => []
  | .forget c' :: es, c => if c' = c then [] else draws es c
  | .command _ _ _ :: es, c => draws es c
  | .freedRead _ :: es, c => draws es c

/-- Each draw gave the router drawn before. -/
def Steady : List Event → Prop
  | .home c r :: es => (∀ r' ∈ draws es c, r' = r) ∧ Steady es
  | _ :: es => Steady es
  | [] => True

instance decidableSteady : ∀ es, Decidable (Steady es)
  | [] => .isTrue trivial
  | .home c r :: es =>
    @instDecidableAnd (∀ r' ∈ draws es c, r' = r) (Steady es) _ (decidableSteady es)
  | .command _ _ _ :: es | .freedRead _ :: es | .clear :: es | .forget _ :: es =>
    decidableSteady es

theorem Steady.tail {e : Event} {es : List Event} (h : Steady (e :: es)) : Steady es := by
  cases e with
  | home c r => exact h.2
  | command | freedRead | clear | forget => exact h

theorem Steady.suffix {es es' : List Event} (h : Steady es') (hs : es <:+ es') : Steady es := by
  obtain ⟨new, rfl⟩ := hs
  induction new with
  | nil => exact h
  | cons e new ih => exact ih h.tail

/-- Steady draws for one computer are all the same. -/
theorem Steady.unique {es : List Event} (h : Steady es) {c r r' : String} (hr : r ∈ draws es c)
    (hr' : r' ∈ draws es c) : r = r' := by
  induction es with
  | nil => simp [draws] at hr
  | cons e es ih =>
    cases e with
    | home c' r₀ =>
      by_cases hc : c' = c
      · subst hc
        simp only [draws, if_true, List.mem_cons] at hr hr'
        rcases hr with rfl | hr <;> rcases hr' with rfl | hr'
        · rfl
        · exact (h.1 _ hr').symm
        · exact h.1 _ hr
        · exact ih h.2 hr hr'
      · simp only [draws, if_neg hc] at hr hr'
        exact ih h.2 hr hr'
    | clear => simp [draws] at hr
    | forget c' =>
      by_cases hc : c' = c
      · simp [draws, hc] at hr
      · simp only [draws, if_neg hc] at hr hr'
        exact ih h hr hr'
    | command | freedRead =>
      simp only [draws] at hr hr'
      exact ih h hr hr'

theorem draws_commands {new es : List Event} (h : ∀ x ∈ new, ∃ ep q b, x = .command ep q b)
    (c : String) : draws (new ++ es) c = draws es c := by
  induction new with
  | nil => rfl
  | cons e new ih =>
    obtain ⟨ep, q, b, rfl⟩ := h e List.mem_cons_self
    simp only [List.cons_append, draws]
    exact ih fun x hx => h x (List.mem_cons_of_mem _ hx)

theorem draws_subset_home {es : List Event} {c r c' r' : String} (h : r' ∈ draws es c') :
    r' ∈ draws (.home c r :: es) c' := by
  simp only [draws]
  split
  · exact List.mem_cons_of_mem _ h
  · exact h

/-- What is left of the run may not be relied upon. -/
def Derailed (env : Environment) (s : State) : Prop := ¬ Steady (log s) ∨ Unfaithful env s

theorem derailed_mono {env : Environment} {s s' : State} (h : Grows s s') (hs : Derailed env s) :
    Derailed env s' := by
  rcases hs with hs | hs
  · exact .inl fun h' => hs (h'.suffix h)
  · exact .inr (unfaithful_mono h hs)

/-- No table server listens where a registered router serves lambdas. -/
structure Ready (s : State) : Prop extends Registry s where
  apart : ∀ {r : String}, r ∈ s.theDerived.theForwardingTableEndpoints →
    r ∉ s.theDerived.theNetwork.tables

/-- Whatever a router announces it has been drawn for, and whatever is final in
its table it announces. -/
structure Tidy (s : State) : Prop extends Ready s where
  serves : ∀ {r l c : String}, c ∈ announced s r l → Serves s c l
  registered : ∀ {r l c : String}, c ∈ announced s r l →
    r ∈ s.theDerived.theForwardingTableEndpoints
  drawn : ∀ {r l c : String}, c ∈ announced s r l → r ∈ draws (log s) c
  final : ∀ {r f : String}, s.theDerived.theForwardingTableEndpoints[r]? = some f → ∀ {l c : String},
    s.theDerived.theNetwork.flags f (l, c) = some true → c ∈ announced s r l

theorem Ready.withNetwork {s : State} (h : Ready s) {n : Network}
    (hn : ∀ e, e ∈ n.tables ↔ e ∈ s.theDerived.theNetwork.tables) : Ready (s.withNetwork n) :=
  ⟨h.toRegistry.withNetwork n, fun hr hin => h.apart hr ((hn _).mp hin)⟩

/-- Nothing is lost when no table gains a final entry. -/
theorem Tidy.withNetwork {s : State} (h : Tidy s) {n : Network}
    (hn : ∀ e, e ∈ n.tables ↔ e ∈ s.theDerived.theNetwork.tables)
    (hdraws : ∀ c, ∀ r ∈ draws (log s) c, r ∈ draws n.log c)
    (hflags : ∀ {r f : String}, s.theDerived.theForwardingTableEndpoints[r]? = some f → ∀ p,
      n.flags f p = some true → s.theDerived.theNetwork.flags f p = some true) :
    Tidy (s.withNetwork n) :=
  ⟨h.toReady.withNetwork hn, h.serves, h.registered, fun hc => hdraws _ _ (h.drawn hc),
    fun hr _ _ hp => h.final hr (hflags hr _ hp)⟩

theorem Ready.dropped {s : State} (h : Ready s) {e a : String} {rs : List String}
    (ha : address e = .ok a) (hrs : s.theDerived.theRouterAddresses[a]? = some rs) :
    Ready (dropped e a rs s) := by
  refine ⟨h.toRegistry.dropped ha hrs, fun {r} hr => ?_⟩
  rw [ExtTreeMap.mem_iff_isSome_getElem?, endpoints_dropped] at hr
  split at hr
  · cases hr
  · exact h.apart (ExtTreeMap.mem_iff_isSome_getElem?.mpr hr)

variable {env : Environment} {reset : Member EdgeControllerHier Unit} {n : Nat} {s : State}

/-- How a reset or an announcement ends, whether it returns or throws. -/
def Tidied (s s' : State) : Prop := Tidy s' ∧ Fewer s s'

theorem Tidied.of_fewer {s₁ s' : State} (hf : Fewer s s₁) (h : Tidied s₁ s') : Tidied s s' :=
  ⟨h.1, hf.trans h.2⟩

/-- What is assumed of a nested reset, with fewer than n routers. -/
def ResetTidies (env : Environment) (reset : Member EdgeControllerHier Unit) (n : Nat) : Prop :=
  Moves Grows reset ∧ ∀ s, Ready s → s.theDerived.theForwardingTableEndpoints.size < n →
    wp (Derailed env) reset (fun _ => Tidied s) (fun _ => Tidied s) s

theorem removeRouter_tidies (hreset : ResetTidies env reset n) (h : Ready s)
    (hn : s.theDerived.theForwardingTableEndpoints.size ≤ n) {e : String}
    (he : e ∈ s.theDerived.theForwardingTableEndpoints) :
    wp (Derailed env) (removeRouter reset e) (fun _ => Tidied s) (fun _ => Tidied s) s := by
  refine wp_removeRouter h.toRegistry he fun a rs ha hrs _ => ?_
  have hsize := Nat.lt_of_lt_of_le (size_dropped a rs he) hn
  have hfewer := fewer_dropped e a rs s
  exact wp_mono (hreset.2 _ (h.dropped ha hrs) hsize) (fun _ _ => Tidied.of_fewer hfewer)
    fun _ _ => Tidied.of_fewer hfewer

theorem removeRouterByKey_tidies (hreset : ResetTidies env reset n) (h : Ready s)
    (hn : s.theDerived.theForwardingTableEndpoints.size ≤ n) {e : String}
    (he : e ∈ s.theDerived.theForwardingTableEndpoints) :
    wp (Derailed env) (removeRouterByKey env reset e) (fun _ => Tidied s) (fun _ => Tidied s) s := by
  refine wp_removeRouterByKey (fun _ _ => derailed_mono) hreset.1 (fun hf => ?_) h.toRegistry he
    fun a rs ha hrs _ => ?_
  · exact .inr ⟨e, List.mem_cons_self, hf⟩
  have hready : Ready (readFreed e s) := h.withNetwork fun _ => Iff.rfl
  have hsize := Nat.lt_of_lt_of_le
    (size_dropped a rs (s := readFreed e s) he) hn
  have hread : Fewer s (readFreed e s) := fewer_withNetwork s fun _ => Iff.rfl
  have hfewer := hread.trans (fewer_dropped e a rs (readFreed e s))
  exact wp_mono (hreset.2 _ (hready.dropped ha hrs) hsize) (fun _ _ => Tidied.of_fewer hfewer)
    fun _ _ => Tidied.of_fewer hfewer

/-- A router that only the base class knows is removed by an exception. -/
theorem removeRouterByKey_unlisted (hgrows : Moves Grows reset) (h : Tidy s) {e : String} (he : e ∈ s.theRouters)
    (hn : e ∉ s.theDerived.theForwardingTableEndpoints) :
    wp (Derailed env) (removeRouterByKey env reset e) (fun _ => Tidied s) (fun _ => Tidied s) s := by
  let s' : State := { readFreed e s with theRouters := s.theRouters.erase e }
  obtain ⟨err, herr⟩ := h.known he hn
  have hrun : removeRouterByKey env reset e s = privateRemoveRouter reset (env.freed e) s' := rfl
  refine wp_congr hrun ?_
  by_cases hf : env.freed e = e
  · have hthrow : privateRemoveRouter reset e s' =
        (throw err : Member EdgeControllerHier Unit) s' := by
      rw [privateRemoveRouter, addressOf, herr]
      rfl
    have hget (r : String) : (s.theRouters.erase e)[r]? = if r = e then none else s.theRouters[r]? := by
      simp only [ExtTreeMap.getElem?_erase, LawfulEqCmp.compare_eq_iff_eq, eq_comm (a := e)]
    have hsub {r f : String} (hr : (s.theRouters.erase e)[r]? = some f) : s.theRouters[r]? = some f := by
      rw [hget] at hr
      split at hr
      · cases hr
      · exact hr
    have hregistry : Registry s' := by
      refine ⟨fun {r f} hr => ?_, fun hr hr' => h.inj (hsub hr) (hsub hr'), fun {r} hr hn' => ?_,
        h.addr, h.back⟩
      · have hne : r ≠ e := by
          rintro rfl
          exact hn (ExtTreeMap.mem_iff_isSome_getElem?.mpr (by rw [show
            s.theDerived.theForwardingTableEndpoints[r]? = some f from hr]; rfl))
        exact (hget r).trans (by rw [if_neg hne]; exact h.sub hr)
      · obtain ⟨f, hf⟩ := lookup_of_mem hr
        exact h.known (mem_of_lookup (hsub hf)) hn'
    have htidy : Tidy s' := ⟨⟨hregistry, h.apart⟩, h.serves, h.registered, h.drawn, h.final⟩
    have hfewer : Fewer s s' := ⟨rfl, id, Nat.le_refl _, fun _ => Iff.rfl⟩
    rw [hf]
    exact wp_congr hthrow (wp_throw ⟨htidy, hfewer⟩)
  · have hbad : Derailed env s' := .inr ⟨e, List.mem_cons_self, hf⟩
    exact wp_of_bad (moves_mono (grows_privateRemoveRouter hgrows _) fun _ _ => derailed_mono) hbad

/-- The other routers learn of the home router one after the other. -/
theorem announceIntermediate_tidies (hreset : ResetTidies env reset n) (h : Tidy s)
    (hn : s.theDerived.theForwardingTableEndpoints.size ≤ n) {home : String} (hh : home ≠ "")
    {es : List Route} (hes : ∀ x ∈ es, x.destination = home ∧ x.weight = 1 ∧ x.final = false) :
    wp (Derailed env) (announceIntermediate env reset home es) (fun _ => Tidied s)
      (fun _ => Tidied s) s := by
  have hmono := fun s s' => @derailed_mono env s s'
  have hgrows (x : String × String) : Stable (Derailed env)
      (do return !(← onNetwork (Network.changeRoutes env x.2 es)) :
        Member EdgeControllerHier Bool) :=
    moves_mono (moves_bind (grows_commands _ _) fun _ => moves_pure _) hmono
  -- a router that does not answer may have any part of the entries
  refine wp_get_bind (wp_bind (Q := fun x s' => ∃ m, s' = s.withNetwork m ∧
    (∀ e, e ∈ m.tables ↔ e ∈ s.theDerived.theNetwork.tables) ∧
    (∀ c, draws m.log c = draws (log s) c) ∧
    (∀ y ∈ x, s.theRouters[y.1]? = some y.2) ∧
    ∀ r f : String, s.theDerived.theForwardingTableEndpoints[r]? = some f → (∀ y ∈ x, f ≠ y.2) →
      ∀ p, m.flags f p = some true → s.theDerived.theNetwork.flags f p = some true) ?_ ?_ ?_)
  · intro x
    refine moves_mono ?_ hmono
    split
    · exact grows_removeRouterByKey hreset.1 _
    · exact moves_pure _
  · refine wp_findM? (I := fun _ s' => ∃ m, s' = s.withNetwork m ∧
      (∀ e, e ∈ m.tables ↔ e ∈ s.theDerived.theNetwork.tables) ∧
      (∀ c, draws m.log c = draws (log s) c) ∧
      ∀ r f : String, s.theDerived.theForwardingTableEndpoints[r]? = some f →
        ∀ p, m.flags f p = some true → s.theDerived.theNetwork.flags f p = some true) hgrows _
        ?_ ?_ ?_
    · rintro l ⟨r₀, f₀⟩ rest s' hl ⟨m, rfl, hkeys, hdraws, htab⟩
      have hx : (r₀, f₀) ∈ s.theRouters.toList.filter fun x => x.1 ≠ home ∧ es ≠ [] := by
        rw [hl]
        exact List.mem_append_right _ List.mem_cons_self
      have hr₀ := mem_toList.mp (List.mem_filter.mp hx).1
      obtain ⟨ok, m', evs, hc, hlog, hevs, hmem, hother, hok⟩ := changeRoutes_cases env f₀ hh es hes m
      have hdraws' : ∀ c, draws m'.log c = draws (log s) c := by
        intro c
        rw [hlog, draws_commands fun x hx => ⟨f₀, hevs x hx⟩, hdraws]
      refine wp_attempt ?_
      simp only [EdgeController.withNetwork, hc]
      cases ok with
      | true =>
        refine ⟨m', rfl, fun e => (hmem e).trans (hkeys e), hdraws', fun r f hr p hp => ?_⟩
        by_cases hf : f = f₀
        · subst hf
          rw [hok rfl p] at hp
          split at hp
          · cases hp
          · exact htab r f hr p hp
        · rw [hother f hf] at hp
          exact htab r f hr p hp
      | false =>
        refine ⟨m', rfl, fun e => (hmem e).trans (hkeys e), hdraws', ?_, fun r f hr hne p hp => ?_⟩
        · rintro y ⟨⟩
          exact hr₀
        · rw [hother f (hne (r₀, f₀) rfl)] at hp
          exact htab r f hr p hp
    · rintro s' ⟨m, rfl, hkeys, hdraws, htab⟩
      exact ⟨m, rfl, hkeys, hdraws, by simp, fun r f hr _ p hp => htab r f hr p hp⟩
    · exact ⟨s.theDerived.theNetwork, rfl, fun _ => Iff.rfl, fun _ => rfl, fun _ _ _ _ h => h⟩
  · rintro x s' ⟨m, rfl, hkeys, hdraws, hrouter, htab⟩
    have hfewer : Fewer s (s.withNetwork m) := fewer_withNetwork s hkeys
    have hdraws' : ∀ c, ∀ r ∈ draws (log s) c, r ∈ draws m.log c := by
      intro c r hr
      rw [hdraws]
      exact hr
    cases x with
    | none =>
      refine wp_pure ⟨h.withNetwork hkeys hdraws' fun hr p hp => ?_, hfewer⟩
      exact htab _ _ hr (by simp) p hp
    | some x =>
      have hr := hrouter x rfl
      have hin : x.1 ∈ s.theRouters := mem_of_lookup hr
      by_cases hft : x.1 ∈ s.theDerived.theForwardingTableEndpoints
      · refine wp_mono (removeRouterByKey_tidies hreset (h.toReady.withNetwork hkeys) hn hft) ?_ ?_
        · exact fun _ _ => Tidied.of_fewer hfewer
        · exact fun _ _ => Tidied.of_fewer hfewer
      · have htidy : Tidy (s.withNetwork m) := by
          refine h.withNetwork hkeys hdraws' fun {r f} hr' p hp => htab r f hr' (fun y hy => ?_) p hp
          rintro rfl
          obtain rfl : x = y := Option.some.inj hy
          have heq := h.inj (h.sub hr') hr
          subst heq
          exact hft (mem_of_lookup hr')
        refine wp_mono (removeRouterByKey_unlisted hreset.1 htidy hin hft) ?_ ?_
        · exact fun _ _ => Tidied.of_fewer hfewer
        · exact fun _ _ => Tidied.of_fewer hfewer

/-- A computer announced to its home router is announced by that router. -/
theorem Tidy.noted (h : Tidy s) {home c f : String} {cs : ContainerList}
    (hc : s.theComputers[c]? = some cs)
    (hf : s.theDerived.theForwardingTableEndpoints[home]? = some f) (hdrawn : home ∈ draws (log s) c)
    {m : Network} (hkeys : ∀ e, e ∈ m.tables ↔ e ∈ s.theDerived.theNetwork.tables)
    (hdraws : ∀ c, draws m.log c = draws (log s) c)
    (hother : ∀ e, e ≠ f → m.flags e = s.theDerived.theNetwork.flags e)
    (hfinal : ∀ l c', m.flags f (l, c') = some true →
      c' = c ∧ Serves s c l ∨ s.theDerived.theNetwork.flags f (l, c') = some true) :
    Tidy (noted home c (entries c cs) (s.withNetwork m)) := by
  have hann (r l c' : String) : c' ∈ announced (EdgeControllerHier.noted home c (entries c cs)
      (s.withNetwork m)) r l ↔ c' ∈ announced s r l ∨ r = home ∧ c' = c ∧ Serves s c l := by
    rw [mem_announced_noted, exists_entries hc]
    rfl
  have hready := h.toReady.withNetwork hkeys
  refine ⟨⟨⟨hready.sub, hready.inj, hready.known, hready.addr, hready.back⟩, hready.apart⟩,
    fun {r l c'} hc' => ?_, fun {r l c'} hc' => ?_, fun {r l c'} hc' => ?_,
    fun {r g} hr {l c'} hp => ?_⟩
  · rcases (hann r l c').mp hc' with hc' | ⟨_, rfl, hs⟩
    · exact h.serves hc'
    · exact hs
  · rcases (hann r l c').mp hc' with hc' | ⟨rfl, _, _⟩
    · exact h.registered hc'
    · exact mem_of_lookup (m := s.theDerived.theForwardingTableEndpoints) hf
  · change r ∈ draws m.log c'
    rw [hdraws]
    rcases (hann r l c').mp hc' with hc' | ⟨rfl, rfl, _⟩
    · exact h.drawn hc'
    · exact hdrawn
  · change s.theDerived.theForwardingTableEndpoints[r]? = some g at hr
    change m.flags g (l, c') = some true at hp
    refine (hann r l c').mpr ?_
    by_cases hg : g = f
    · subst hg
      obtain rfl : r = home := h.inj (h.sub hr) (h.sub hf)
      rcases hfinal l c' hp with ⟨rfl, hs⟩ | hp
      · exact .inr ⟨rfl, rfl, hs⟩
      · exact .inl (h.final hr hp)
    · rw [hother g hg] at hp
      exact .inl (h.final hr hp)

theorem privateAnnounceComputer_tidies (hreset : ResetTidies env reset n) (h : Tidy s)
    (hn : s.theDerived.theForwardingTableEndpoints.size ≤ n) {c : String} {cs : ContainerList}
    (hc : s.theComputers[c]? = some cs) :
    wp (Derailed env) (privateAnnounceComputer env reset c cs) (fun _ => Tidied s)
      (fun _ => Tidied s) s := by
  refine wp_get_bind ?_
  cases hempty : s.theDerived.theRouterAddresses.isEmpty with
  | true => exact wp_pure ⟨h, Fewer.refl s⟩
  | false =>
    have hcached (m : ExtTreeMap String String) : Tidied s (withClosest s m) :=
      ⟨⟨⟨h.toRegistry.withClosest m, h.apart⟩, h.serves, h.registered, h.drawn, h.final⟩,
        rfl, id, Nat.le_refl _, fun _ => Iff.rfl⟩
    rcases homeRouter_cases env h.toRegistry c hempty with ⟨err, m, hrun⟩ |
      ⟨b, a, m, home, rs, hb, hrun, hrs, hin, _⟩
    · exact wp_bind_of_error hrun (hcached m)
    have hreg : home ∈ s.theDerived.theForwardingTableEndpoints := ((h.addr hrs).2.2 home hin).2
    obtain ⟨f, hf⟩ := lookup_of_mem hreg
    have hhome : home ≠ "" := address_ne_empty ((h.addr hrs).2.2 home hin).1
    let s₁ := (withClosest s m).withNetwork (s.theDerived.theNetwork.record (.home c home))
    have h₁ : Tidy s₁ := (hcached m).1.withNetwork (fun _ => Iff.rfl)
      (fun _ _ => draws_subset_home) fun _ _ hp => hp
    have hfewer₁ : Fewer s s₁ := ⟨rfl, id, Nat.le_refl _, fun _ => Iff.rfl⟩
    have hdrawn : home ∈ draws (log s₁) c := by
      simp only [s₁, EdgeController.withNetwork, Network.record, draws, if_true, List.mem_cons,
        true_or]
    refine wp_bind_of_ok hrun ?_
    -- the home router is asked first, unless it has no table server
    obtain ⟨ok, m₂, hrun₂, hkeys, hdraws, hother, hok⟩ : ∃ ok m₂,
        announceFinal env home (entries c cs) s₁ = .ok ok (s₁.withNetwork m₂) ∧
        (∀ e, e ∈ m₂.tables ↔ e ∈ s₁.theDerived.theNetwork.tables) ∧
        (∀ c, draws m₂.log c = draws (log s₁) c) ∧
        (∀ e, e ≠ f → m₂.flags e = s₁.theDerived.theNetwork.flags e) ∧
        (ok = true → ∀ l c', m₂.flags f (l, c') = some true →
          c' = c ∧ Serves s₁ c l ∨ s₁.theDerived.theNetwork.flags f (l, c') = some true) := by
      have hft : s₁.forwardingServerEndpoint home = f := by
        simp only [forwardingServerEndpoint, ExtTreeMap.getD_eq_getD_getElem?]
        rw [show s₁.theRouters[home]? = some f from h.sub hf]
        rfl
      simp only [announceFinal, get_bind_apply, hft]
      by_cases hf0 : f = ""
      · rw [if_pos hf0]
        exact ⟨true, s₁.theDerived.theNetwork, rfl, fun _ => Iff.rfl, fun _ => rfl, fun _ _ => rfl,
          fun _ _ _ hp => .inr hp⟩
      · rw [if_neg hf0]
        obtain ⟨ok, m₂, evs, hch, hlog, hevs, hkeys, hother, hok⟩ := changeRoutes_cases env f
          (address_ne_empty hb) (entries c cs) (b := true) (by simp [entries])
          s₁.theDerived.theNetwork
        refine ⟨ok, m₂, ?_, hkeys, fun c => ?_, hother, fun hb l c' hp => ?_⟩
        · exact onNetwork_of hch
        · rw [hlog, draws_commands fun x hx => ⟨f, hevs x hx⟩]
        · rw [hok hb] at hp
          split at hp
          · next hx => exact .inl ⟨hx.1, (exists_entries (s := s₁) hc).mp hx.2⟩
          · exact .inr hp
    have hfewer₂ : Fewer s (s₁.withNetwork m₂) := hfewer₁.trans (fewer_withNetwork s₁ hkeys)
    refine wp_bind_of_ok hrun₂ ?_
    cases ok with
    | false =>
      have hw := removeRouter_tidies hreset (h₁.toReady.withNetwork hkeys) hn hreg
      exact wp_mono hw (fun _ _ => Tidied.of_fewer hfewer₂) fun _ _ => Tidied.of_fewer hfewer₂
    | true =>
      refine wp_bind_of_ok (noteAnnounced_eq home c (entries c cs) _) ?_
      have hes : ∀ x ∈ kept home c (entries c cs) (s₁.withNetwork m₂),
          x.destination = home ∧ x.weight = 1 ∧ x.final = false := by
        intro x hx
        obtain ⟨hd, hfin, y, hy, -, hw⟩ := noteEntries_kept _ _ x hx
        obtain ⟨l, -, rfl⟩ := List.mem_map.mp hy
        exact ⟨hd, hw, hfin⟩
      have h₃ : Tidy (noted home c (entries c cs) (s₁.withNetwork m₂)) :=
        h₁.noted hc hf hdrawn hkeys hdraws hother (hok rfl)
      have hfewer₃ : Fewer s (noted home c (entries c cs) (s₁.withNetwork m₂)) :=
        ⟨rfl, id, Nat.le_refl _, hfewer₂.servers⟩
      have hw := announceIntermediate_tidies hreset h₃ hn hhome hes
      exact wp_mono hw (fun _ _ => Tidied.of_fewer hfewer₃) fun _ _ => Tidied.of_fewer hfewer₃

/-- A reset tidies up whatever was announced before it. -/
theorem resetBody_tidies (hreset : ResetTidies env reset n) (h : Ready s)
    (hn : s.theDerived.theForwardingTableEndpoints.size ≤ n) :
    wp (Derailed env) (resetBody env reset) (fun _ => Tidied s) (fun _ => Tidied s) s := by
  have hmono := fun s s' => @derailed_mono env s s'
  refine wp_resetBody hreset.1 hmono (fun m x hx hkeys _ => ?_) fun m hm => ?_
  · have hin : x.1 ∈ s.theDerived.theForwardingTableEndpoints := mem_of_lookup (mem_toList.mp hx)
    have hfewer := fewer_withNetwork s hkeys
    have hw := removeRouter_tidies hreset (h.withNetwork hkeys) hn hin
    exact wp_mono hw (fun _ _ => Tidied.of_fewer hfewer) fun _ _ => Tidied.of_fewer hfewer
  · have hready := h.withNetwork hm.1
    have hempty (r l : String) : announced (cleared m s) r l = ∅ := by
      simp [announced, cleared]
    have h₁ : Tidy (cleared m s) := by
      refine ⟨⟨⟨hready.sub, hready.inj, hready.known, hready.addr, hready.back⟩, hready.apart⟩,
        fun hc => ?_, fun hc => ?_, fun hc => ?_, fun {r f} hr {l c} hp => ?_⟩
      · rw [hempty] at hc
        exact absurd hc ExtTreeSet.not_mem_empty
      · rw [hempty] at hc
        exact absurd hc ExtTreeSet.not_mem_empty
      · rw [hempty] at hc
        exact absurd hc ExtTreeSet.not_mem_empty
      · have hflush := (hm.2 (r, f) (mem_toList.mpr hr)).2.2
        change m.flags f (l, c) = some true at hp
        rw [hflush] at hp
        cases hp
    have hstable (x : String × ContainerList) :
        Stable (Derailed env) (privateAnnounceComputer env reset x.1 x.2) :=
      moves_mono (grows_privateAnnounceComputer hreset.1 x.1 x.2) hmono
    refine wp_forM (I := fun _ => Tidied s) hstable _ ?_ ?_ ?_
    · rintro l x rest s' hl ⟨h', hfewer⟩
      have hc : s'.theComputers[x.1]? = some x.2 := by
        rw [hfewer.computers]
        exact lookup_of_split hl
      have hw := privateAnnounceComputer_tidies hreset h' (hfewer.size.trans hn) hc
      exact wp_mono hw (fun _ _ => Tidied.of_fewer hfewer) fun _ _ => Tidied.of_fewer hfewer
    · exact fun _ h => h
    · exact ⟨h₁, rfl, id, Nat.le_refl _, hm.1⟩

theorem reset_tidies (env : Environment) (n : Nat) :
    ResetTidies env (EdgeControllerHier.reset env n) n := by
  refine ⟨grows_reset n, ?_⟩
  induction n with
  | zero => exact fun s _ hn => absurd hn (Nat.not_lt_zero _)
  | succ n ih => exact fun s h hn => resetBody_tidies ⟨grows_reset n, ih⟩ h (Nat.le_of_lt_succ hn)

/-- A computer is announced at one router for all its lambdas. -/
theorem Tidy.unique (h : Tidy s) (hs : Steady (log s)) {c l l' r r' : String}
    (hr : c ∈ announced s r l) (hr' : c ∈ announced s r' l') : r = r' :=
  hs.unique (h.drawn hr) (h.drawn hr')

/-- No registered router has a final entry for the computer. -/
def Withdrawn (s : State) (c : String) : Prop := ∀ r f : String,
  s.theDerived.theForwardingTableEndpoints[r]? = some f → ∀ l,
    s.theDerived.theNetwork.flags f (l, c) ≠ some true

theorem Tidy.withdrawn (h : Tidy s) {c : String} (hc : c ∉ s.theComputers) : Withdrawn s c := by
  intro r f hr l hp
  obtain ⟨cs, hcs, _⟩ := h.serves (h.final hr hp)
  exact hc (mem_of_lookup hcs)

/-- Whether its commands are sent or a router is removed instead, the removal of
a computer leaves the others announced as they should. -/
theorem removeComputer_tidies (h : Tidy s) (c : String) :
    wp (Derailed env) (removeComputer (hooks env) c)
      (fun _ s' => Tidy s' ∧ c ∉ s'.theComputers) (fun _ s' => Tidy s' ∧ c ∉ s'.theComputers) s := by
  obtain ⟨m, hrun⟩ := removeComputer_eq env c s
  refine wp_congr hrun ?_
  have hreset := reset_tidies env (resets (departed c m s))
  by_cases hs : Steady (log s)
  swap
  · exact wp_of_bad (moves_mono (grows_privateRemoveComputer hreset.1 c _)
      fun _ _ => derailed_mono) (.inl hs)
  have hgone : c ∉ (departed c m s).theComputers := fun hc => (mem_erase.mp hc).1 rfl
  have hserves {c' l : String} (hc : c' ≠ c) (hs : Serves s c' l) : Serves (departed c m s) c' l := by
    obtain ⟨cs, hcs, hl⟩ := hs
    exact ⟨cs, by rw [departed, lookup_erase, if_neg hc, hcs], hl⟩
  have hoffered {r l : String} (hc : c ∈ announced s r l) : l ∈ offered c s := by
    obtain ⟨cs, hcs, hl⟩ := h.serves hc
    simp only [offered, hcs, Option.map_some, Option.getD_some]
    exact hl
  obtain ⟨m', hann, hcase⟩ := privateRemoveComputer_eq env
    (reset env (resets (departed c m s))) (offered c s) (s := departed c m s)
    (fun l r r' hr hr' => h.unique hs hr hr') (fun r l hr => h.registered hr)
  let s₂ := EdgeControllerHier.withdrawn c m' (departed c m s)
  have hready : Ready s₂ := ⟨⟨h.sub, h.inj, h.known, h.addr, h.back⟩, h.apart⟩
  rcases hcase with ⟨hnone, hret⟩ | ⟨home, l, hl, hin, hsend⟩
  · have hret' : privateRemoveComputer env (reset env (resets (departed c m s))) c (offered c s)
        (departed c m s) = (pure () : Member EdgeControllerHier Unit) s₂ := hret
    have hne {r l c' : String} (hc' : c' ∈ announced s r l) : c' ≠ c := by
      rintro rfl
      exact hnone l (hoffered hc') r hc'
    have hann' {r l c' : String} : c' ∈ announced s₂ r l ↔ c' ∈ announced s r l := by
      rw [hann]
      exact ⟨fun h => h.1, fun h => ⟨h, fun hn => hne h hn.1⟩⟩
    refine wp_congr hret' (wp_pure ⟨⟨hready, fun hc' => ?_, fun hc' => ?_, fun hc' => ?_,
      fun hr l c' hp => ?_⟩, hgone⟩)
    · exact hserves (hne (hann'.mp hc')) (h.serves (hann'.mp hc'))
    · exact h.registered (hann'.mp hc')
    · have hdrawn := h.drawn (hann'.mp hc')
      simp only [s₂, EdgeControllerHier.withdrawn, EdgeController.withNetwork, Network.record, draws,
        if_neg (hne (hann'.mp hc')).symm]
      exact hdrawn
    · exact hann'.mpr (h.final hr hp)
  · -- the router that does not listen is removed, and the others are reset
    have hreg := h.registered hin
    refine wp_congr (hsend (h.apart hreg)) ?_
    have hsize : s₂.theDerived.theForwardingTableEndpoints.size ≤ resets (departed c m s) := by
      simp only [s₂, EdgeControllerHier.withdrawn, withAnnounced, EdgeController.withNetwork, resets]
      omega
    have hw := removeRouter_tidies (e := home) hreset (hready.withNetwork (n :=
      s₂.theDerived.theNetwork.record (.command home ⟨.REMOVE, l, c, 0, false⟩ false))
      fun _ => Iff.rfl) hsize hreg
    have hpost : ∀ s', Tidied (s₂.withNetwork (s₂.theDerived.theNetwork.record
        (.command home ⟨.REMOVE, l, c, 0, false⟩ false))) s' → Tidy s' ∧ c ∉ s'.theComputers := by
      rintro s' ⟨htidy, hfewer⟩
      refine ⟨htidy, ?_⟩
      rw [hfewer.computers]
      exact hgone
    exact wp_mono hw (fun _ => hpost) fun _ => hpost

/-- Routers with end-points of their own; any computer may come and go. -/
def ValidRouter (s : State) : Call → Prop
  | .announceRouter e f => e ∉ s.theRouters ∧ e ∉ s.theDerived.theNetwork.tables ∧
      ∀ x ∈ s.theRouters.toList, x.2 ≠ f
  | _ => True

instance (s : State) : ∀ a, Decidable (ValidRouter s a)
  | .announceRouter e f => inferInstanceAs (Decidable (e ∉ s.theRouters ∧
      e ∉ s.theDerived.theNetwork.tables ∧ ∀ x ∈ s.theRouters.toList, x.2 ≠ f))
  | .announceComputer _ _ | .removeComputer _ => .isTrue trivial

/-- While the announced lambdas are not cleared and the computer is not removed
the draws made for a computer in this call, or before, agree, and no key read
after it was freed was another string. -/
def OnTrack (env : Environment) (s : State) (a : Call) : Prop := ¬ Derailed env (step env s a)

theorem Tidy.new (t : Topology) (o : Objective)
    (aTables : ExtTreeMap String (Forwarding.EdgeRouter ℚ)) : Tidy (new t o aTables) := by
  have hempty (r l : String) : announced (EdgeControllerHier.new t o aTables) r l = ∅ := by
    simp [announced, EdgeControllerHier.new]
  have hnone {r c l : String} (h : c ∈ announced (EdgeControllerHier.new t o aTables) r l) : False := by
    rw [hempty] at h
    exact ExtTreeSet.not_mem_empty h
  refine ⟨⟨Registry.new t o aTables, fun hr => ?_⟩, fun h => (hnone h).elim,
    fun h => (hnone h).elim, fun h => (hnone h).elim, fun hr => ?_⟩
  · simp [EdgeControllerHier.new] at hr
  · simp [EdgeControllerHier.new] at hr

private theorem announceNew_tidies (h : Tidy s) {c : String} {cs : ContainerList}
    (hc : s.theComputers[c]? = none) :
    wp (Derailed env) (announceComputer (hooks env) c cs) (fun _ => Tidy) (fun _ => Tidy) s := by
  obtain ⟨m, hrun⟩ := @announceComputer_new env c cs s hc
  have hlookup (c' : String) : (joined c cs m s).theComputers[c']? =
      if c' = c then some cs else s.theComputers[c']? := lookup_insert _ _ _ _
  have hserves {c' l : String} (hs : Serves s c' l) : Serves (joined c cs m s) c' l := by
    obtain ⟨cs', hcs, hl⟩ := hs
    have hne : c' ≠ c := by
      rintro rfl
      rw [hc] at hcs
      cases hcs
    exact ⟨cs', by rw [hlookup, if_neg hne, hcs], hl⟩
  have hjoined : Tidy (joined c cs m s) :=
    ⟨⟨⟨h.sub, h.inj, h.known, h.addr, h.back⟩, h.apart⟩, fun hc => hserves (h.serves hc), h.registered,
      h.drawn, h.final⟩
  have hsize : (joined c cs m s).theDerived.theForwardingTableEndpoints.size ≤
      resets (joined c cs m s) := by
    simp only [resets]
    omega
  have hw := privateAnnounceComputer_tidies (reset_tidies env (resets (joined c cs m s))) hjoined
    hsize (show (joined c cs m s).theComputers[c]? = some cs by rw [hlookup, if_pos rfl])
  exact wp_congr hrun (wp_mono hw (fun _ _ h => h.1) fun _ _ h => h.1)

/-- Each call leaves the controller tidy, whether it returns or throws. -/
theorem serve_tidies (h : Tidy s) {a : Call} (hvalid : ValidRouter s a) :
    wp (Derailed env) (serve env a) (fun _ => Tidy) (fun _ => Tidy) s := by
  cases a with
  | announceRouter e f =>
    obtain ⟨he, hlp, hf⟩ := hvalid
    have hf' (r : String) : s.theRouters[r]? ≠ some f := fun hr => hf (r, f) (mem_toList.mpr hr) rfl
    have he' : e ∉ s.theDerived.theForwardingTableEndpoints := by
      intro hin
      obtain ⟨g, hg⟩ := lookup_of_mem hin
      exact he (mem_of_lookup (h.sub hg))
    cases ha : address e with
    | error err =>
      let s' : State := { s with theRouters := s.theRouters.insert e f }
      have hthrow : announceRouter (hooks env) e f s =
          (throw err : Member EdgeControllerHier Unit) s' := announceRouter_error env ha
      have hlookup (r : String) : s'.theRouters[r]? = if r = e then some f else s.theRouters[r]? :=
        lookup_insert _ _ _ _
      have hregistry : Registry s' := by
        refine ⟨fun {r g} hr => ?_, fun {r r' g} hr hr' => ?_, fun {r} hr hn => ?_, h.addr, h.back⟩
        · have hne : r ≠ e := by
            rintro rfl
            exact he' (mem_of_lookup (m := s.theDerived.theForwardingTableEndpoints) hr)
          rw [hlookup, if_neg hne]
          exact h.sub hr
        · rw [hlookup] at hr hr'
          split at hr <;> split at hr'
          · exact ‹r = e›.trans ‹r' = e›.symm
          · exact absurd (hr'.trans hr.symm) (hf' r')
          · exact absurd (hr.trans hr'.symm) (hf' r)
          · exact h.inj hr hr'
        · rcases mem_insert.mp hr with rfl | hr
          · exact ⟨err, ha⟩
          · exact h.known hr hn
      exact wp_congr hthrow
        (wp_throw ⟨⟨hregistry, h.apart⟩, h.serves, h.registered, h.drawn, h.final⟩)
    | ok a =>
      obtain ⟨k, hk, hrun⟩ := announceRouter_eq env (f := f) (s := s) ha
      have hready : Ready (added e f a s) := by
        refine ⟨h.toRegistry.added he hf' ha, fun {r} hr => ?_⟩
        obtain ⟨g, hg⟩ := lookup_of_mem hr
        rw [endpoints_added he'] at hg
        split at hg
        · next heq => exact heq ▸ hlp
        · exact h.apart (mem_of_lookup hg)
      have hsize : (added e f a s).theDerived.theForwardingTableEndpoints.size < k := by
        have hle := ExtTreeMap.size_insertIfNew_le (t := s.theDerived.theForwardingTableEndpoints)
          (k := e) (v := f)
        simp only [added, enlisted]
        omega
      exact wp_congr hrun (wp_mono ((reset_tidies env k).2 _ hready hsize) (fun _ _ h => h.1)
        fun _ _ h => h.1)
  | announceComputer c cs =>
    cases hc : s.theComputers[c]? with
    | none => exact announceNew_tidies h hc
    | some cs' =>
      by_cases hcs : cs' = cs
      · subst hcs
        have hret : announceComputer (hooks env) c cs' s = (pure () : Member _ Unit) s :=
          announceComputer_again (hooks env) hc
        exact wp_congr hret (wp_pure h)
      · refine wp_congr (announceComputer_changed (hooks env) hc hcs) ?_
        have hstable : Stable (Derailed env) (do
            let _ ← addToComputers c cs
            notifyComputer (hooks env) c cs) :=
          moves_mono (grows_addNotify env c cs) fun _ _ => derailed_mono
        refine wp_bind (fun _ => hstable) (wp_mono (removeComputer_tidies h c) (fun _ _ h => h)
          fun _ _ h => h.1) ?_
        rintro _ s' ⟨h', hgone⟩
        have hnone : s'.theComputers[c]? = none := ExtTreeMap.getElem?_eq_none hgone
        exact wp_congr (addNotify_eq (hooks env) hnone) (announceNew_tidies h' hnone)
  | removeComputer c =>
    exact wp_mono (removeComputer_tidies h c) (fun _ _ h => h.1) fun _ _ h => h.1

/-- In a run that stays on track each pair of a lambda and a computer is announced
by one router at most, and the removal of a computer withdraws all its final
entries from the registered routers. -/
theorem announced_once (env : Environment) (t : Topology) (o : Objective)
    (aTables : ExtTreeMap String (Forwarding.EdgeRouter ℚ)) (aCalls : List Call)
    (h : Runs.Along (step env) (fun s a => ValidRouter s a ∧ OnTrack env s a)
      (new t o aTables) aCalls) :
    (∀ s ∈ Runs.states (step env) (new t o aTables) aCalls, ∀ l c r r' : String,
      c ∈ announced s r l → c ∈ announced s r' l → r = r') ∧
    Runs.Along (step env) (fun s a => ∀ c, a = .removeComputer c → Withdrawn (step env s a) c)
      (new t o aTables) aCalls := by
  have hnew : Tidy (new t o aTables) ∧ Steady (log (new t o aTables)) :=
    ⟨Tidy.new t o aTables, trivial⟩
  have hstep : ∀ s a, Tidy s ∧ Steady (log s) → ValidRouter s a ∧ OnTrack env s a →
      Tidy (step env s a) ∧ Steady (log (step env s a)) := by
    intro s a hs ha
    refine ⟨wp_after (serve_tidies hs.1 ha.1) ha.2, ?_⟩
    by_contra hn
    exact ha.2 (.inl hn)
  constructor
  · intro s hs l c r r' hr hr'
    obtain ⟨htidy, hsteady⟩ := Runs.invariant_along hstep hnew h s hs
    exact htidy.unique hsteady hr hr'
  · refine Runs.Along.of_invariant hstep (fun s a hs ha c hc => ?_) hnew h
    subst hc
    obtain ⟨htidy, hgone⟩ := wp_after (P := fun s' => Tidy s' ∧ c ∉ s'.theComputers)
      (removeComputer_tidies hs.1 c) ha.2
    exact htidy.withdrawn hgone

section Example

def twoNodes : Topology := ⟨ExtTreeMap.ofList [("a", 0), ("b", 1)], [0, 1, 1, 0]⟩

def fourServers : ExtTreeMap String (Forwarding.EdgeRouter ℚ) :=
  ExtTreeMap.ofList [("a:2", Forwarding.EdgeRouter.new), ("b:2", Forwarding.EdgeRouter.new),
    ("b:4", Forwarding.EdgeRouter.new)]

/-- Two routers at one node, a computer at each node and a router at the other,
which the last reset meets first; at last the second computer leaves. -/
def twoAtOneAddress : List Call :=
  [.announceRouter "b:1" "b:2", .announceRouter "b:3" "b:4",
    .announceComputer "a:5" ⟨[⟨"container", "processor", "lambda0", 1⟩]⟩,
    .announceComputer "b:5" ⟨[⟨"container", "processor", "lambda1", 1⟩]⟩,
    .announceRouter "a:1" "a:2", .removeComputer "b:5"]

/-- One command is lost while all the draws give the first router of an address. -/
theorem announced_once_two :
    let env : Environment := ⟨fun i => if i = 16 then .lost else .answered, fun _ => 0, id⟩
    (∀ s ∈ Runs.states (step env) (new twoNodes .MinMax fourServers) twoAtOneAddress,
      ∀ l c r r' : String, c ∈ announced s r l → c ∈ announced s r' l → r = r') ∧
    Runs.Along (step env) (fun s a => ∀ c, a = .removeComputer c → Withdrawn (step env s a) c)
      (new twoNodes .MinMax fourServers) twoAtOneAddress := by
  intro env
  have htrack (s : State) (a : Call) (h : Steady (log (step env s a))) : OnTrack env s a := by
    rintro (hn | ⟨e, -, hne⟩)
    · exact hn h
    · exact hne rfl
  refine announced_once env twoNodes .MinMax fourServers twoAtOneAddress ?_
  exact ⟨⟨by decide +kernel, htrack _ _ (by decide +kernel)⟩,
    ⟨by decide +kernel, htrack _ _ (by decide +kernel)⟩,
    ⟨by decide +kernel, htrack _ _ (by decide +kernel)⟩,
    ⟨by decide +kernel, htrack _ _ (by decide +kernel)⟩,
    ⟨by decide +kernel, htrack _ _ (by decide +kernel)⟩,
    ⟨by decide +kernel, htrack _ _ (by decide +kernel)⟩, trivial⟩

/-- The same command is lost and the draws differ: the nested reset announces the
second computer at one router, the reset that it interrupted at the other. -/
theorem announced_twice :
    ¬ ∀ (env : Environment) (aCalls : List Call),
      Runs.Along (step env) ValidRouter (new twoNodes .MinMax fourServers) aCalls →
        ∀ s ∈ Runs.states (step env) (new twoNodes .MinMax fourServers) aCalls,
          ∀ l c r r' : String, c ∈ announced s r l → c ∈ announced s r' l → r = r' := by
  intro h
  let env : Environment := ⟨fun i => if i = 16 then .lost else .answered, id, id⟩
  have hsame : "b:1" = "b:3" := h env (twoAtOneAddress.take 5) (by decide +kernel) _
    (Runs.final_mem_states _ _ _) "lambda1" "b:5" "b:1" "b:3" (by decide +kernel) (by decide +kernel)
  exact absurd hsame (by decide)

end Example
end ServerlessEdge.Controller.EdgeControllerHier
