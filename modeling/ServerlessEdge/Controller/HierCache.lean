import ServerlessEdge.Controller.HierClosest
import ServerlessEdge.Controller.HierCoherence

/-! The cache of findClosest. It is cleared only when the set of router addresses changes,
and that is enough: at any time it holds what a search from scratch would find. -/
namespace ServerlessEdge.Controller
open Std Library Maps Triple EdgeController

/-- A search that returns has found one of the addresses. -/
theorem mem_of_closest {t : Topology} {o : Objective} {R : List String} {b a : String}
    (hne : R ≠ []) (h : closest t o R b = .ok a) : a ∈ R := by
  obtain ⟨myRanking, hranking, hpure⟩ := Checks.bind_ok.mp h
  have hlength : R.length = myRanking.length := (Checks.mapM_ok_iff.mp hranking).length_eq
  have hranked : myRanking ≠ [] := by
    rintro rfl
    exact hne (List.length_eq_zero_iff.mp hlength)
  obtain ⟨p, hmin, hfirst⟩ := minElement_first hranked
  obtain ⟨x, hx, hscored⟩ := Checks.mem_of_mapM_ok hranking hfirst.mem
  obtain ⟨q, -, hpair⟩ := Checks.bind_ok.mp hscored
  cases hpair
  rw [hmin] at hpure
  cases hpure
  exact hx

namespace EdgeControllerHier

/-- Every entry of the cache is what a search from scratch finds, and there is a router at
every router address. -/
structure Cached (s : State) : Prop where
  computed : ∀ b a : String, s.theDerived.theClosest[b]? = some a → Computed s b a
  served : ∀ (a : String) (rs : List String),
    s.theDerived.theRouterAddresses[a]? = some rs → rs ≠ []

theorem Computed.mem {s : State} {b a : String} (h : Computed s b a) :
    a ∈ s.theDerived.theRouterAddresses := by
  obtain ⟨t, o, -, -, hne, ha⟩ := h
  refine ExtTreeMap.mem_keys.mp (mem_of_closest ?_ ha)
  rw [Ne, ExtTreeMap.keys_eq_nil_iff, ← ExtTreeMap.isEmpty_eq_false_iff]
  exact hne

/-- What is found depends on the router addresses alone, not on the routers there. -/
theorem Computed.of_addresses {s s' : State} {b a : String} (h : Computed s b a)
    (ht : s'.theDerived.theTopology = s.theDerived.theTopology)
    (ho : s'.theDerived.theObjective = s.theDerived.theObjective)
    (hkeys : ∀ x : String, x ∈ s.theDerived.theRouterAddresses ↔ x ∈ s'.theDerived.theRouterAddresses) :
    Computed s' b a := by
  have hmem := (hkeys a).mp h.mem
  obtain ⟨t, o, ht', ho', -, ha⟩ := h
  rw [keys_eq hkeys] at ha
  refine ⟨t, o, ht.trans ht', ho.trans ho', ?_, ha⟩
  rw [ExtTreeMap.isEmpty_eq_false_iff]
  rintro hempty
  rw [hempty] at hmem
  exact ExtTreeMap.not_mem_empty hmem

theorem Cached.fresh (t : Option Topology) (o : Option Objective)
    (n : ExtTreeMap String (Forwarding.EdgeRouter ℚ)) : Cached (fresh t o n) := by
  constructor <;> simp [EdgeControllerHier.fresh]

theorem Cached.of_quiet {s s' : State} (h : Cached s) (hs : Quiet s s') : Cached s' := by
  constructor
  · intro b a hb
    refine (hs.computed_iff b a).mpr ?_
    rcases hs.cached b a hb with hb | hb
    · exact h.computed b a hb
    · exact hb
  · rw [hs.addresses]
    exact h.served

/-- The registries of the base class do not matter here. -/
theorem Cached.of_derived {s s' : State} (h : Cached s) (hs : s'.theDerived = s.theDerived) :
    Cached s' := by
  obtain ⟨hcomputed, hserved⟩ := h
  constructor
  · intro b a hb
    rw [hs] at hb
    rw [Computed, hs]
    exact hcomputed b a hb
  · rw [hs]
    exact hserved

/-- Where the last router at an address goes, so does the cache; otherwise the addresses
stay. -/
theorem Cached.delisted {s : State} (h : Cached s) {a : String} {rs : List String} (e : String)
    (hrs : s.theDerived.theRouterAddresses[a]? = some rs) :
    Cached { s with theDerived := delisted e a rs s.theDerived } := by
  constructor
  · intro b x hb
    simp only [EdgeControllerHier.delisted] at hb
    split at hb
    · simp at hb
    · next hleft =>
      refine (h.computed b x hb).of_addresses rfl rfl fun y => ?_
      simp only [EdgeControllerHier.delisted, if_neg hleft, mem_insert]
      constructor
      · exact .inr
      · rintro (rfl | hy)
        · exact mem_of_lookup hrs
        · exact hy
  · intro b rs' hb
    have hlookup := @addresses_dropped e a rs s b
    simp only [dropped] at hlookup
    rw [hlookup] at hb
    split at hb
    · split at hb
      · cases hb
      · next hne =>
        cases hb
        exact hne
    · exact h.served b rs' hb

/-- A new address clears the cache, and a known one leaves the addresses as they are. -/
theorem Cached.added {s : State} (h : Cached s) (e f a : String) : Cached (added e f a s) := by
  constructor
  · intro b x hb
    simp only [EdgeControllerHier.added, enlisted] at hb
    split at hb
    · next hknown =>
      refine (h.computed b x hb).of_addresses rfl rfl fun y => ?_
      simp only [EdgeControllerHier.added, enlisted, mem_insert]
      constructor
      · exact .inr
      · rintro (rfl | hy)
        · exact hknown
        · exact hy
    · simp at hb
  · intro b rs hb
    rw [addresses_added] at hb
    split at hb
    · cases hb
      exact List.append_ne_nil_of_right_ne_nil _ (List.cons_ne_nil e [])
    · exact h.served b rs hb

section Moves

variable {env : Environment} {reset : Member EdgeControllerHier Unit}

/-- Also for a key that was freed, and for a router that is not there. -/
theorem cached_privateRemoveRouter (hreset : Moves (fun s s' => Cached s → Cached s') reset)
    (e : String) : Moves (fun s s' => Cached s → Cached s') (privateRemoveRouter reset e) := by
  intro s h
  cases ha : address e with
  | error err =>
    have hrun : privateRemoveRouter reset e s = .error err s := by
      rw [privateRemoveRouter, addressOf, ha]
      rfl
    rw [after, hrun]
    exact h
  | ok a =>
    cases hrs : s.theDerived.theRouterAddresses[a]? with
    | none =>
      have hrun : privateRemoveRouter reset e s = .error "no such router address" s := by
        simp only [privateRemoveRouter, addressOf, ha, pure_bind, get_bind_apply, hrs]
        rfl
      rw [after, hrun]
      exact h
    | some rs =>
      rw [after, privateRemoveRouter_eq ha hrs]
      exact hreset _ (h.delisted e hrs)

theorem cached_eraseRouter (e : String) :
    Moves (fun s s' => Cached s → Cached s') (eraseRouter e) :=
  moves_modify fun _ h => h.of_derived rfl

theorem carried_cached (env : Environment) : Carried env fun s s' => Cached s → Cached s' := by
  refine ⟨fun _ _ hs h => h.of_quiet hs, fun hreset e => ?_, fun hreset e => ?_⟩
  · exact moves_bind (cached_eraseRouter e) fun _ => cached_privateRemoveRouter hreset e
  · have hread : Moves (fun s s' => Cached s → Cached s') (record (.freedRead e)) :=
      moves_mono (quiet_record _) fun _ _ hs h => h.of_quiet hs
    exact moves_bind (cached_eraseRouter e) fun _ => moves_bind hread fun _ =>
      cached_privateRemoveRouter hreset _

end Moves

/-- What one call keeps, whatever the routers answer and whether it returns or throws. -/
theorem step_cached {env : Environment} {s : State} (a : Call) (h : Cached s) :
    Cached (step env s a) := by
  have hbase : ∀ (s : State) cs ls, Cached s →
      Cached { s with theComputers := cs, theLambdas := ls } := fun _ _ _ h => h.of_derived rfl
  cases a with
  | announceRouter e f =>
    rw [step, serve]
    cases ha : address e with
    | error err =>
      rw [after, @announceRouter_error env e f err s ha]
      exact h.of_derived rfl
    | ok a =>
      obtain ⟨k, -, hrun⟩ := @announceRouter_eq env e f a s ha
      rw [after, hrun]
      exact (carried_cached env).reset k (added e f a s) (h.added e f a)
  | announceComputer c cs => exact Carried.announceComputer hbase (carried_cached env) c cs s h
  | removeComputer c => exact Carried.removeComputer hbase (carried_cached env) c s h

/-- What findClosest answers. -/
def found (aComputerAddress : String) (s : State) : Except String String :=
  match findClosest aComputerAddress s with
  | .ok a _ => .ok a
  | .error err _ => .error err

/-- With an empty cache the answer is the same. -/
theorem Cached.found_eq {s : State} (h : Cached s) (b : String) :
    found b s = found b (withClosest s ∅) := by
  cases hb : s.theDerived.theClosest[b]? with
  | none =>
    simp only [found, findClosest, get_bind_apply, withClosest, hb, ExtTreeMap.getElem?_empty]
    cases s.theDerived.theTopology with
    | none => rfl
    | some t =>
      cases s.theDerived.theObjective with
      | none => rfl
      | some o =>
        cases hne : s.theDerived.theRouterAddresses.isEmpty with
        | true => rfl
        | false =>
          cases hc : closest t o s.theDerived.theRouterAddresses.keys b with
          | error err =>
            simp only [hc, Bool.false_eq_true, if_false]
            rfl
          | ok a =>
            simp only [hc, Bool.false_eq_true, if_false]
            rfl
  | some a =>
    obtain ⟨t, o, ht, ho, hne, ha⟩ := h.computed b a hb
    simp only [found, findClosest, get_bind_apply, withClosest, hb, ht, ho, hne, ha,
      ExtTreeMap.getElem?_empty, Bool.false_eq_true, if_false]
    rfl

/-- In every state of every run each entry of the cache is the address that a search from
scratch finds, with a router at it, and the cache makes no difference to an answer. -/
theorem closest_cache_exact (env : Environment) (t : Option Topology) (o : Option Objective)
    (aTables : ExtTreeMap String (Forwarding.EdgeRouter ℚ)) (aCalls : List Call) :
    ∀ s ∈ Runs.states (step env) (fresh t o aTables) aCalls,
      (∀ b a : String, s.theDerived.theClosest[b]? = some a → Computed s b a ∧
        ∃ rs : List String, s.theDerived.theRouterAddresses[a]? = some rs ∧ rs ≠ []) ∧
      ∀ b, found b s = found b (withClosest s ∅) := by
  intro s hs
  have h : Cached s := Runs.invariant (fun _ a h => step_cached a h) aCalls
    (Cached.fresh t o aTables) s hs
  refine ⟨fun b a hb => ?_, h.found_eq⟩
  have hcomputed := h.computed b a hb
  obtain ⟨rs, hrs⟩ := lookup_of_mem hcomputed.mem
  exact ⟨hcomputed, rs, hrs, h.served a rs hrs⟩

/-- Two routers at the second node; one at the first node joins them later, and then both
of them are removed. -/
theorem closest_cache_exact_two :
    let s (n : Nat) := Runs.final (step (loses 26 id))
      (fresh (some twoNodes) (some .MinMax) fourServers) (twoAtOneAddress.take n)
    ((s 3).theDerived.theClosest["a"]? = some "b" ∧ Computed (s 3) "a" "b") ∧
      (s 6).theDerived.theClosest["a"]? = some "a" ∧ Computed (s 6) "a" "a" := by
  intro s
  have hexact (n : Nat) {b a : String} (h : (s n).theDerived.theClosest[b]? = some a) :
      Computed (s n) b a :=
    ((closest_cache_exact _ _ _ _ _ (s n) (Runs.final_mem_states _ _ _)).1 b a h).1
  have hfirst : (s 3).theDerived.theClosest["a"]? = some "b" := by decide +kernel
  have hlater : (s 6).theDerived.theClosest["a"]? = some "a" := by decide +kernel
  exact ⟨⟨hfirst, hexact 3 hfirst⟩, hlater, hexact 6 hlater⟩

end EdgeControllerHier
end ServerlessEdge.Controller
