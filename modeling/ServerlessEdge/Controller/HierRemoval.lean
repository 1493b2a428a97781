import ServerlessEdge.Controller.HierAnnouncements
import ServerlessEdge.Controller.HierWithdraw

/-! The removal of a computer compared with the history in which it was never
announced. -/
namespace ServerlessEdge.Controller.EdgeControllerHier
open Std Library Maps Triple EdgeController

/-- The registries as the calls alone define them, when no router is lost. -/
structure Registered where
  routers : ExtTreeMap String String
  computers : ExtTreeMap String ContainerList

namespace Registered

def call (g : Registered) : Call → Registered
  | .announceRouter e f => { g with routers := g.routers.insert e f }
  | .announceComputer c cs => { g with computers := g.computers.insert c cs }
  | .removeComputer c => { g with computers := g.computers.erase c }

/-- Announcements of routers with end-points and an address of their own, and of
computers elsewhere than at these end-points. -/
def Admissible (t : Topology) (aTables : ExtTreeMap String (Forwarding.EdgeRouter ℚ))
    (g : Registered) : Call → Prop
  | .announceRouter e f => Located t e ∧ e ∉ aTables ∧ f ∈ aTables ∧ f ≠ "" ∧ e ∉ g.computers ∧
      (∀ r ∈ g.routers.keys, address r ≠ address e) ∧ ∀ x ∈ g.routers.toList, x.2 ≠ f
  | .announceComputer c _ => Located t c ∧ c ∉ g.routers
  | .removeComputer _ => True

/-- No router has to hear of the removal of the computer. -/
def Unseen (g : Registered) (c : String) : Prop :=
  g.routers.isEmpty = true ∨ ∀ cs ∈ g.computers[c]?, cs.lambdas = []

/-- The computers that are removed, or whose containers change, are unseen. -/
def Harmless (g : Registered) : Call → Prop
  | .announceRouter _ _ => True
  | .announceComputer c cs => c ∉ g.computers ∨ g.computers[c]? = some cs ∨ g.Unseen c
  | .removeComputer c => g.Unseen c

def without (c : String) (g : Registered) : Registered :=
  { g with computers := g.computers.erase c }

instance (t : Topology) (aTables : ExtTreeMap String (Forwarding.EdgeRouter ℚ)) (g : Registered) :
    ∀ a, Decidable (Admissible t aTables g a)
  | .announceRouter e f => inferInstanceAs (Decidable (Located t e ∧ e ∉ aTables ∧ f ∈ aTables ∧
      f ≠ "" ∧ e ∉ g.computers ∧ (∀ r ∈ g.routers.keys, address r ≠ address e) ∧
      ∀ x ∈ g.routers.toList, x.2 ≠ f))
  | .announceComputer c _ => inferInstanceAs (Decidable (Located t c ∧ c ∉ g.routers))
  | .removeComputer _ => inferInstanceAs (Decidable True)

instance (g : Registered) (c : String) : Decidable (g.Unseen c) :=
  inferInstanceAs (Decidable (g.routers.isEmpty = true ∨ ∀ cs ∈ g.computers[c]?, cs.lambdas = []))

instance (g : Registered) : ∀ a, Decidable (Harmless g a)
  | .announceRouter _ _ => inferInstanceAs (Decidable True)
  | .announceComputer c cs => inferInstanceAs
      (Decidable (c ∉ g.computers ∨ g.computers[c]? = some cs ∨ g.Unseen c))
  | .removeComputer c => inferInstanceAs (Decidable (g.Unseen c))

end Registered

def registered (s : State) : Registered := ⟨s.theRouters, s.theComputers⟩

/-- The calls of a history that are not about a computer. -/
def spares (c : String) : Call → Bool
  | .announceRouter _ _ => true
  | .announceComputer c' _ => decide (c' ≠ c)
  | .removeComputer c' => decide (c' ≠ c)

/-- The removal of a computer sends commands to table servers of routers only,
loses no router and leaves the tables of a state in which it was never announced. -/
structure RemovesExactly (env : Environment) (s : State) (c : String) (s' : State) : Prop where
  commands : ∀ es, log (step env s (.removeComputer c)) = es ++ log s → ∀ ep q b,
    .command ep q b ∈ es → ∃ r : String, s.theRouters[r]? = some ep
  routers : (step env s (.removeComputer c)).theRouters = s.theRouters
  tables : ∀ {r f : String}, s.theRouters[r]? = some f →
    (step env s (.removeComputer c)).theDerived.theNetwork.flags f = s'.theDerived.theNetwork.flags f

/-- Every router is reached, and none is where a table server listens. -/
structure Reachable (env : Environment) (t : Topology) (o : Objective)
    (aTables : ExtTreeMap String (Forwarding.EdgeRouter ℚ)) (s : State) : Prop where
  placed : Placed t o s
  canon : CanonFor t o (fun _ => True) s
  responsive : Responsive env s
  apart : ∀ r ∈ s.theRouters, r ∉ aTables
  servers : ∀ e, e ∈ s.theDerived.theNetwork.tables ↔ e ∈ aTables

/-- All routers answer, so that none is ever removed and no freed key is read. -/
def answers (env : Environment) : Regime env where
  Bad _ := False
  Pre := Responsive env
  mono _ h := h
  fewer hf h := h.of_fewer hf
  freed h hn _ := absurd h hn

section Removal

variable {env : Environment} {t : Topology} {o : Objective}
  {aTables : ExtTreeMap String (Forwarding.EdgeRouter ℚ)} {s : State}

theorem Reachable.of_kept {s₁ s' : State} (h : Reachable env t o aTables s) (hp : Placed t o s')
    (hcan : CanonFor t o (fun _ => True) s') (hk : Kept env s₁ s') (hres : Responsive env s₁)
    (hr : ∀ r ∈ s₁.theRouters, r ∉ aTables)
    (hs : s₁.theDerived.theNetwork.tables = s.theDerived.theNetwork.tables) :
    Reachable env t o aTables s' := by
  refine ⟨hp, hcan, hres.of_fewer hk.toFewer, fun r hr' => ?_, fun e => ?_⟩
  · rw [hk.responsive hres] at hr'
    exact hr r hr'
  · rw [hk.servers, hs]
    exact h.servers e

theorem announceRouter_reached (h : Reachable env t o aTables s) {e f : String}
    (ha : (registered s).Admissible t aTables (.announceRouter e f)) :
    Reachable env t o aTables (step env s (.announceRouter e f)) ∧
      registered (step env s (.announceRouter e f)) =
        (registered s).call (.announceRouter e f) := by
  obtain ⟨hloc, hapart, hserver, hne, hc, hfree, hf⟩ := ha
  have he : e ∉ s.theDerived.theForwardingTableEndpoints := by
    intro hin
    obtain ⟨g, hg⟩ := lookup_of_mem hin
    exact hfree e (ExtTreeMap.mem_keys.mpr (mem_of_lookup (h.placed.sub hg))) rfl
  have hpre (a : String) : Responsive env (added e f a s) := by
    refine ⟨h.responsive.1, fun {r g} hr => ?_⟩
    rw [endpoints_added he] at hr
    split at hr
    · cases hr
      exact ⟨hne, (h.servers _).mpr hserver⟩
    · exact h.responsive.2 hr
  obtain ⟨_, hrun, hp, hcan, a, hk⟩ := wp_returns
    (announceRouter_settles (g := answers env) h.placed hloc hc hfree hf hpre) id
  refine ⟨h.of_kept hp hcan hk (hpre a) (fun r hr => ?_) rfl, ?_⟩
  · rcases mem_insert.mp hr with rfl | hr
    · exact hapart
    · exact h.apart r hr
  · exact congrArg₂ Registered.mk (hk.responsive (hpre a)) hk.computers

theorem announceNew_reached (h : Reachable env t o aTables s) {c : String} (cs : ContainerList)
    (hloc : Located t c) (hr : c ∉ s.theRouters) (hc : s.theComputers[c]? = none) :
    Reachable env t o aTables (step env s (.announceComputer c cs)) ∧
      registered (step env s (.announceComputer c cs)) =
        (registered s).call (.announceComputer c cs) := by
  obtain ⟨_, hrun, hp, hcan, m, hk⟩ := wp_returns
    (announceNew_settles (g := answers env) h.placed h.canon cs hloc hr hc fun m => h.responsive) id
  refine ⟨h.of_kept hp hcan hk h.responsive h.apart rfl, ?_⟩
  exact congrArg₂ Registered.mk (hk.responsive h.responsive) hk.computers

theorem lookup_departed (c : String) (m : ExtTreeMap String (ExtTreeSet String)) (c' : String) :
    (departed c m s).theComputers[c']? = if c' = c then none else s.theComputers[c']? :=
  lookup_erase s.theComputers c c'

/-- A removal that no router has to hear of sends nothing. -/
theorem removeComputer_unseen (h : Reachable env t o aTables s) {c : String}
    (hc : (registered s).Unseen c) : ∃ s', removeComputer (hooks env) c s = .ok () s' ∧
      log s' = .forget c :: log s ∧ Reachable env t o aTables s' ∧
      registered s' = (registered s).call (.removeComputer c) := by
  have hunseen : ∀ l r, Serves s c l → ¬ Home t o s c r := by
    rintro l r ⟨cs, hcs, hl⟩ hhome
    rcases hc with hempty | hnone
    · obtain ⟨f, hf⟩ := lookup_of_mem (hhome.registered h.placed).2
      have hnone : s.theRouters = ∅ := ExtTreeMap.isEmpty_iff.mp hempty
      have hr := h.placed.sub hf
      simp [hnone] at hr
    · rw [hnone cs hcs] at hl
      exact absurd hl List.not_mem_nil
  obtain ⟨m, hrun⟩ := removeComputer_eq env c s
  let s₁ := departed c m s
  have hone (l r r' : String) (hr : c ∈ announced s₁ r l) (hr' : c ∈ announced s₁ r' l) : r = r' :=
    ((h.canon.announced r l c).mp hr).2.2.unique ((h.canon.announced r' l c).mp hr').2.2
  have hnowhere (r l : String) : c ∉ announced s₁ r l := by
    intro hr
    obtain ⟨-, hserves, hhome⟩ := (h.canon.announced r l c).mp hr
    exact hunseen l r hserves hhome
  obtain ⟨m', hann, ⟨-, hret⟩ | ⟨r, l, -, hin, -⟩⟩ := privateRemoveComputer_eq env
    (reset env (resets s₁)) (offered c s) hone (fun r l hr => absurd hr (hnowhere r l))
  · have hserves (c' l r : String) :
        True ∧ Serves (withdrawn c m' s₁) c' l ∧ Home t o s c' r ↔
          True ∧ Serves s c' l ∧ Home t o s c' r := by
      have hsub : Serves (withdrawn c m' s₁) c' l ↔ Serves s c' l ∧ c' ≠ c := by
        change (∃ cs, (departed c m s).theComputers[c']? = some cs ∧ l ∈ cs.lambdas) ↔ _
        simp only [lookup_departed, Serves]
        by_cases hcc : c' = c <;> simp [hcc]
      constructor
      · rintro ⟨-, hs, hh⟩
        exact ⟨trivial, (hsub.mp hs).1, hh⟩
      · rintro ⟨-, hs, hh⟩
        refine ⟨trivial, hsub.mpr ⟨hs, ?_⟩, hh⟩
        rintro rfl
        exact hunseen l r hs hh
    refine ⟨_, hrun.trans hret, rfl, ⟨⟨⟨h.placed.sub, h.placed.inj, h.placed.known, h.placed.addr,
      h.placed.back⟩, h.placed.topology, h.placed.objective, h.placed.listed, h.placed.single,
      h.placed.nodes, h.placed.cache, fun hc' => h.placed.computers (mem_erase.mp hc').2⟩,
      ⟨h.canon.reached, fun r l c' => ?_, fun hr l c' => ?_, fun hr l d => ?_⟩,
      h.responsive, h.apart, h.servers⟩, rfl⟩
    · rw [hann]
      refine Iff.trans ?_ (hserves c' l r).symm
      refine (and_iff_left_of_imp fun hr => ?_).trans (h.canon.announced r l c')
      rintro ⟨rfl, -⟩
      exact hnowhere r l hr
    · exact (h.canon.final hr l c').trans (hserves c' l _).symm
    · refine (h.canon.nonfinal hr l d).trans (and_congr_right fun _ => ?_)
      exact exists_congr fun c' => (hserves c' l d).symm
  · exact absurd hin (hnowhere r l)

/-- Each harmless call does to the registries what it says, and no more. -/
theorem step_reached (h : Reachable env t o aTables s) {a : Call}
    (ha : (registered s).Admissible t aTables a) (hsafe : (registered s).Harmless a) :
    Reachable env t o aTables (step env s a) ∧
      registered (step env s a) = (registered s).call a := by
  cases a with
  | announceRouter e f => exact announceRouter_reached h ha
  | removeComputer c =>
    obtain ⟨s', hrun, -, hreach, hreg⟩ := removeComputer_unseen h hsafe
    have hs : step env s (.removeComputer c) = s' := after_of_ok hrun
    rw [hs]
    exact ⟨hreach, hreg⟩
  | announceComputer c cs =>
    obtain ⟨hloc, hr⟩ := ha
    cases hc : s.theComputers[c]? with
    | none => exact announceNew_reached h cs hloc hr hc
    | some cs' =>
      by_cases heq : cs' = cs
      · subst heq
        have hs : step env s (.announceComputer c cs') = s :=
          after_of_ok (announceComputer_again (hooks env) hc)
        rw [hs]
        refine ⟨h, congrArg (Registered.mk s.theRouters) (ExtTreeMap.ext_getElem? fun c' => ?_)⟩
        change s.theComputers[c']? = (s.theComputers.insert c cs')[c']?
        rw [lookup_insert]
        split
        · next hcc => rw [hcc, hc]
        · rfl
      · -- the computer is removed first, and then announced as a new one
        have hunseen : (registered s).Unseen c := by
          rcases hsafe with hnew | hsame | hunseen
          · exact absurd (mem_of_lookup hc) hnew
          · exact absurd (Option.some.inj (hc.symm.trans hsame)) heq
          · exact hunseen
        obtain ⟨s', hrun, -, hreach, hreg⟩ := removeComputer_unseen h hunseen
        have hcomputers : s'.theComputers = s.theComputers.erase c :=
          congrArg Registered.computers hreg
        have hrouters : s'.theRouters = s.theRouters := congrArg Registered.routers hreg
        have hgone : s'.theComputers[c]? = none := by
          rw [hcomputers, lookup_erase, if_pos rfl]
        have hstep : step env s (.announceComputer c cs) = step env s' (.announceComputer c cs) := by
          have hfirst := (announceComputer_changed (hooks env) hc heq).trans (bind_of_ok hrun _)
          have hthen := hfirst.trans (addNotify_eq (hooks env) hgone)
          simp only [step, after, serve, hthen]
        obtain ⟨hreach', hreg'⟩ := announceNew_reached hreach cs hloc (hrouters ▸ hr) hgone
        rw [hstep]
        refine ⟨hreach', hreg'.trans ?_⟩
        refine congrArg₂ Registered.mk hrouters (ExtTreeMap.ext_getElem? fun c' => ?_)
        change (s'.theComputers.insert c cs)[c']? = (s.theComputers.insert c cs)[c']?
        rw [hcomputers, lookup_insert, lookup_insert, lookup_erase]
        split <;> rfl

/-- The first command for a computer that a router announces goes astray. -/
theorem unseen_of_removesExactly (h : Reachable env t o aTables s) {c : String}
    (hc : c ∈ s.theComputers) {s' : State} (hex : RemovesExactly env s c s') :
    (registered s).Unseen c := by
  by_contra hseen
  obtain ⟨hne, hoffers⟩ := not_or.mp hseen
  obtain ⟨cs, hcs⟩ := lookup_of_mem hc
  obtain ⟨l, hl⟩ : ∃ l, l ∈ cs.lambdas := by
    refine List.exists_mem_of_ne_nil _ fun hnil => hoffers fun cs' hcs' => ?_
    rw [Option.some.inj (hcs.symm.trans hcs')] at hnil
    exact hnil
  have hsome : s.theDerived.theRouterAddresses.isEmpty = false := by
    obtain ⟨r, hr⟩ : ∃ r, r ∈ s.theRouters := by
      by_contra hnone
      refine hne (ExtTreeMap.isEmpty_iff.mpr (ExtTreeMap.ext_getElem? fun r => ?_))
      exact (ExtTreeMap.getElem?_eq_none fun hr => hnone ⟨r, hr⟩).trans ExtTreeMap.getElem?_empty.symm
    obtain ⟨a, rs, -, hrs, -⟩ := h.placed.back (h.placed.listed hr)
    exact ExtTreeMap.isEmpty_eq_false_iff.mpr fun he => by simp [he] at hrs
  obtain ⟨r, hhome⟩ := h.placed.exists_home hc hsome
  obtain ⟨m, hrun⟩ := removeComputer_eq env c s
  let s₁ := departed c m s
  have hone (l r r' : String) (hr : c ∈ announced s₁ r l) (hr' : c ∈ announced s₁ r' l) : r = r' :=
    ((h.canon.announced r l c).mp hr).2.2.unique ((h.canon.announced r' l c).mp hr').2.2
  have hreg (r l : String) (hr : c ∈ announced s₁ r l) :
      r ∈ s₁.theDerived.theForwardingTableEndpoints :=
    (((h.canon.announced r l c).mp hr).2.2.registered h.placed).2
  have hofferedl : l ∈ offered c s := by
    simp only [offered, hcs, Option.map_some, Option.getD_some]
    exact hl
  obtain ⟨m', -, ⟨hnone, -⟩ | ⟨r', l', -, hin, hfail⟩⟩ := privateRemoveComputer_eq env
    (reset env (resets s₁)) (offered c s) hone hreg
  · exact hnone l hofferedl r ((h.canon.announced r l c).mpr ⟨trivial, ⟨cs, hcs, hl⟩, hhome⟩)
  · obtain ⟨f', hf'⟩ := lookup_of_mem (hreg r' l' hin)
    have hr' : r' ∉ aTables := h.apart r' (mem_of_lookup (h.placed.sub hf'))
    have hlost := hfail fun hmem => hr' ((h.servers r').mp hmem)
    -- whatever follows, the command to the lambda end-point is in the log
    let sent : Event := .command r' ⟨.REMOVE, l', c, 0, false⟩ false
    have hgrows : Moves Grows (reset env (resets s₁)) := grows_reset _
    obtain ⟨es, hes⟩ := @grows_removeRouter _ hgrows r'
      ((withdrawn c m' s₁).withNetwork ((withdrawn c m' s₁).theDerived.theNetwork.record sent))
    have hlog : log (step env s (.removeComputer c)) = (es ++ [sent, .forget c]) ++ log s := by
      have hs : step env s (.removeComputer c) = after (removeRouter (reset env (resets s₁)) r')
          ((withdrawn c m' s₁).withNetwork
            ((withdrawn c m' s₁).theDerived.theNetwork.record sent)) := by
        have hcall := hrun.trans hlost
        simp only [step, serve, after, hcall]
        rfl
      rw [hs, ← hes, List.append_assoc]
      rfl
    obtain ⟨r'', hr''⟩ := hex.commands _ hlog r' _ false
      (List.mem_append_right _ List.mem_cons_self)
    have hserver := (h.responsive.2 (h.placed.endpoint.mpr hr'')).2
    exact hr' ((h.servers r').mp hserver)

end Removal

namespace Registered

variable {t : Topology} {aTables : ExtTreeMap String (Forwarding.EdgeRouter ℚ)} {g : Registered}
  {c : String}

theorem without_call_of_not_spares {a : Call} (ha : spares c a = false) :
    (g.call a).without c = g.without c := by
  have hext {m : ExtTreeMap String ContainerList}
      (hm : ∀ c' : String, c' ≠ c → m[c']? = g.computers[c']?) : m.erase c = g.computers.erase c := by
    refine ExtTreeMap.ext_getElem? fun c' => ?_
    rw [lookup_erase, lookup_erase]
    split
    · rfl
    · exact hm c' ‹_›
  cases a with
  | announceRouter e f => simp [spares] at ha
  | announceComputer c' cs =>
    have hcc : c' = c := by simpa [spares] using ha
    subst hcc
    refine congrArg (Registered.mk g.routers) (hext fun c'' hne => ?_)
    rw [call, lookup_insert, if_neg hne]
  | removeComputer c' =>
    have hcc : c' = c := by simpa [spares] using ha
    subst hcc
    refine congrArg (Registered.mk g.routers) (hext fun c'' hne => ?_)
    rw [call, lookup_erase, if_neg hne]

theorem lookup_without {c' : String} (hne : c' ≠ c) :
    (g.without c).computers[c']? = g.computers[c']? := by
  rw [without, lookup_erase, if_neg hne]

theorem without_call_of_spares {a : Call} (ha : spares c a = true) :
    (g.call a).without c = (g.without c).call a := by
  cases a with
  | announceRouter e f => rfl
  | announceComputer c' cs =>
    have hne : c' ≠ c := by simpa [spares] using ha
    refine congrArg (Registered.mk g.routers) (ExtTreeMap.ext_getElem? fun c'' => ?_)
    simp only [call, without, lookup_insert, lookup_erase]
    by_cases hcc : c'' = c
    · simp only [hcc, hne.symm, if_true, if_false]
    · simp only [hcc, if_false]
  | removeComputer c' =>
    refine congrArg (Registered.mk g.routers) (ExtTreeMap.ext_getElem? fun c'' => ?_)
    simp only [call, without, lookup_erase]
    split <;> split <;> rfl

theorem Admissible.without {a : Call} (h : g.Admissible t aTables a) :
    (g.without c).Admissible t aTables a := by
  cases a with
  | announceRouter e f =>
    obtain ⟨hloc, hapart, hserver, hne, hc, hrest⟩ := h
    exact ⟨hloc, hapart, hserver, hne, fun hin => hc (mem_erase.mp hin).2, hrest⟩
  | announceComputer c' cs => exact h
  | removeComputer c' => trivial

theorem Harmless.without {a : Call} (ha : spares c a = true) (h : g.Harmless a) :
    (g.without c).Harmless a := by
  have hunseen {c' : String} (hne : c' ≠ c) (hu : g.Unseen c') : (g.without c).Unseen c' := by
    refine hu.imp id fun hnone cs hcs => hnone cs ?_
    rw [lookup_without hne] at hcs
    exact hcs
  cases a with
  | announceRouter e f => trivial
  | announceComputer c' cs =>
    have hne : c' ≠ c := by simpa [spares] using ha
    rcases h with hnew | hsame | hu
    · exact .inl fun hin => hnew (mem_erase.mp hin).2
    · exact .inr (.inl ((lookup_without hne).trans hsame))
    · exact .inr (.inr (hunseen hne hu))
  | removeComputer c' =>
    have hne : c' ≠ c := by simpa [spares] using ha
    exact hunseen hne h

end Registered

/-- The removal of a known computer is right just when no router has to hear of
it, after any history in which no router had to hear of a removal. -/
theorem removes_exactly_iff (env : Environment) (t : Topology) (o : Objective)
    (aTables : ExtTreeMap String (Forwarding.EdgeRouter ℚ)) (aCalls : List Call) (c : String)
    (hans : ∀ n, env.outcome n = .answered)
    (h : Runs.Along Registered.call (fun g a => g.Admissible t aTables a ∧ g.Harmless a) ⟨∅, ∅⟩ aCalls)
    (hc : c ∈ (Runs.final (step env) (new t o aTables) aCalls).theComputers) :
    RemovesExactly env (Runs.final (step env) (new t o aTables) aCalls) c
        (Runs.final (step env) (new t o aTables) (aCalls.filter (spares c))) ↔
      (registered (Runs.final (step env) (new t o aTables) aCalls)).Unseen c := by
  have hnew : Reachable env t o aTables (new t o aTables) := by
    obtain ⟨hp, hcan⟩ := canon_new t o aTables
    exact ⟨hp, hcan, ⟨hans, by simp [new]⟩, by simp [new], fun e => Iff.rfl⟩
  have hstep (s : State) (a : Call) (hs : Reachable env t o aTables s)
      (ha : (registered s).Admissible t aTables a ∧ (registered s).Harmless a) :=
    step_reached hs ha.1 ha.2
  have hrefined {as : List Call} (has : Runs.Along Registered.call
      (fun g a => g.Admissible t aTables a ∧ g.Harmless a) ⟨∅, ∅⟩ as) :
      Reachable env t o aTables (Runs.final (step env) (new t o aTables) as) ∧
        registered (Runs.final (step env) (new t o aTables) as) =
          Runs.final Registered.call ⟨∅, ∅⟩ as :=
    Runs.Along.refined (f := registered) hstep hnew has
  obtain ⟨hreach, hreg⟩ := hrefined h
  refine ⟨unseen_of_removesExactly hreach hc, fun hu => ?_⟩
  -- the history without the computer has the same routers, and all other computers
  have hkeep (g : Registered) (a : Call) (hg : g.Admissible t aTables a ∧ g.Harmless a)
      (ha : spares c a = true) : ((g.without c).Admissible t aTables a ∧
        (g.without c).Harmless a) ∧ (g.call a).without c = (g.without c).call a :=
    ⟨⟨hg.1.without, hg.2.without ha⟩, Registered.without_call_of_spares ha⟩
  have hfilter := Runs.Along.filter (f := Registered.without c)
    (P := fun g a => g.Admissible t aTables a ∧ g.Harmless a)
    (Q := fun g a => g.Admissible t aTables a ∧ g.Harmless a) (spares c)
    (fun g a _ ha => Registered.without_call_of_not_spares ha) hkeep h
  have hnone : (⟨∅, ∅⟩ : Registered).without c = ⟨∅, ∅⟩ := by
    refine congrArg (Registered.mk ∅) (ExtTreeMap.ext_getElem? fun c' => ?_)
    rw [lookup_erase]
    split <;> simp
  rw [hnone] at hfilter
  obtain ⟨hvalid', hfinal⟩ := hfilter
  obtain ⟨hreach', hreg'⟩ := hrefined hvalid'
  generalize Runs.final (step env) (new t o aTables) aCalls = s at *
  generalize Runs.final (step env) (new t o aTables) (aCalls.filter (spares c)) = s' at *
  have hsame : registered s' = (registered s).call (.removeComputer c) := by
    rw [hreg', hreg]
    exact hfinal.symm
  obtain ⟨s₁, hret, hlog, hreach₁, hreg₁⟩ := removeComputer_unseen hreach hu
  have hs₁ : step env s (.removeComputer c) = s₁ := after_of_ok hret
  rw [← hreg₁] at hsame
  refine ⟨fun es hes ep q b hin => ?_, ?_, fun {r f} hr => ?_⟩
  · rw [hs₁, hlog] at hes
    have hone : [.forget c] ++ log s = es ++ log s := hes
    rw [← List.append_cancel_right hone, List.mem_singleton] at hin
    cases hin
  · rw [hs₁]
    exact congrArg Registered.routers hreg₁
  · rw [hs₁]
    have hr₁ : s₁.theRouters[r]? = some f := by
      rw [← hr]
      exact congrArg (fun g : Registered => g.routers[r]?) hreg₁
    refine ((hreach₁.canon.canonical hreach₁.placed).flags_eq
      (hreach'.canon.canonical hreach'.placed) (congrArg Registered.routers hsame) ?_ hr₁).symm
    intro c' l
    have hcomputers : s'.theComputers = s₁.theComputers := congrArg Registered.computers hsame
    simp only [Serves, hcomputers]

section Example

/-- A router at each node, a computer that serves a lambda and one that does not. -/
def idleComputer : List Call :=
  threeRouters ++ [.announceComputer "b:5" ⟨[]⟩]

/-- Every command is answered. -/
def reliable : Environment := ⟨fun _ => .answered, id, id⟩

/-- A computer without lambdas comes and goes unnoticed. -/
theorem removes_exactly_idle :
    RemovesExactly reliable
      (Runs.final (step reliable) (new threeNodes .MinMax threeServers) idleComputer) "b:5"
      (Runs.final (step reliable) (new threeNodes .MinMax threeServers)
        (idleComputer.filter (spares "b:5"))) :=
  (removes_exactly_iff reliable threeNodes .MinMax threeServers idleComputer "b:5" (fun _ => rfl)
    (by decide +kernel) (by decide +kernel)).mpr (by decide +kernel)

/-- The removal of a computer that serves a lambda removes its home router. -/
theorem removal_loses_router :
    ¬ ∀ (aCalls : List Call) (c : String), Runs.Along Registered.call
      (Registered.Admissible threeNodes threeServers) ⟨∅, ∅⟩ aCalls →
      c ∈ (Runs.final (step reliable) (new threeNodes .MinMax threeServers) aCalls).theComputers →
      RemovesExactly reliable
        (Runs.final (step reliable) (new threeNodes .MinMax threeServers) aCalls) c
        (Runs.final (step reliable) (new threeNodes .MinMax threeServers)
          (aCalls.filter (spares c))) := by
  intro h
  have hex := h threeRouters "a:5" (by decide +kernel) (by decide +kernel)
  have hkeys := congrArg ExtTreeMap.keys hex.routers
  exact absurd hkeys (by decide +kernel)

end Example
end ServerlessEdge.Controller.EdgeControllerHier
