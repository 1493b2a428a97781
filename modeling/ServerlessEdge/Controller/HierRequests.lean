import ServerlessEdge.Controller.HierFinal

/-! Where a request can get to that a client sends to one of the routers: along the tables that the
controller has filled, to the computers that serve its lambda. -/
namespace ServerlessEdge.Controller.EdgeControllerHier
open Std Library Maps Triple EdgeController Forwarding

/-- A router may send a request for the lambda to the destination; the final table is for those that
have been forwarded to it. -/
def Offers (s : State) (aForward : Bool) (r l d : String) : Prop := ∃ f er,
  s.theRouters[r]? = some f ∧ s.theDerived.theNetwork.tables[f]? = some er ∧
    ((if aForward then er.theFinalTable else er.theOverallTable).flags (l, d)).isSome

/-- A request for the lambda goes from the end-point through these routers to one that is no router. -/
inductive Travels (s : State) (l : String) : Bool → String → List String → String → Prop
  | arrives {aForward : Bool} {c : String} (hc : c ∉ s.theRouters) : Travels s l aForward c [] c
  | hop {aForward : Bool} {r d c : String} {rs : List String} (hd : Offers s aForward r l d)
      (hrest : Travels s l true d rs c) : Travels s l aForward r (r :: rs) c

section Canonical

variable {t : Topology} {o : Objective} {s : State} {R : String → Prop} {r l d c : String}
  {rs : List String}

theorem Offers.registered {b : Bool} (h : Offers s b r l d) : r ∈ s.theRouters := by
  obtain ⟨f, er, hf, -⟩ := h
  exact mem_of_lookup hf

/-- A request that is not at a router has arrived. -/
theorem Travels.of_not_mem {b : Bool} (h : Travels s l b d rs c) (hd : d ∉ s.theRouters) :
    rs = [] ∧ c = d := by
  cases h with
  | arrives hc => exact ⟨rfl, rfl⟩
  | hop hoffers hrest => exact absurd hoffers.registered hd

theorem Serves.not_mem (hp : Placed t o s) (h : Serves s c l) : c ∉ s.theRouters := by
  obtain ⟨cs, hcs, -⟩ := h
  exact (hp.computers (mem_of_lookup hcs)).1

theorem Home.mem (hp : Placed t o s) (h : Home t o s c r) : r ∈ s.theRouters := by
  obtain ⟨f, hf⟩ := lookup_of_mem (h.registered hp).2
  exact mem_of_lookup (hp.endpoint.mp hf)

/-- The table server of a registered router, and its tables. -/
theorem exists_table (hp : Placed t o s) (hcan : CanonFor t o (fun _ => True) s) (hr : r ∈ s.theRouters) :
    ∃ f er, s.theRouters[r]? = some f ∧ s.theDerived.theForwardingTableEndpoints[r]? = some f ∧
      s.theDerived.theNetwork.tables[f]? = some er ∧
      s.theDerived.theNetwork.flags f = er.theOverallTable.flags := by
  obtain ⟨f, hf⟩ := lookup_of_mem hr
  have hendpoint := hp.endpoint.mpr hf
  obtain ⟨er, her⟩ := lookup_of_mem (hcan.reached hendpoint).2
  refine ⟨f, er, hf, hendpoint, her, ?_⟩
  rw [Network.flags, her]

/-- A forwarded request goes to the computers of which the router is the home. -/
theorem offers_final (hp : Placed t o s) (hcan : CanonFor t o (fun _ => True) s) (htold : Told R s)
    (hr : r ∈ s.theRouters) : Offers s true r l d ↔ Serves s d l ∧ Home t o s d r := by
  obtain ⟨f, er, hf, hendpoint, her, hflags⟩ := exists_table hp hcan hr
  have hfinal := hcan.final hendpoint l d
  have hcoherent := (EdgeRouter.coherent_iff er).mp (htold.network.tables f er her).coherent (l, d)
  rw [hflags, true_and] at hfinal
  rw [← hfinal, ← hcoherent]
  constructor
  · rintro ⟨f', er', hf', her', hsome⟩
    rw [hf] at hf'
    cases hf'
    rw [her] at her'
    cases her'
    exact hsome
  · exact fun hsome => ⟨f, er, hf, her, hsome⟩

/-- That of a client goes there or to the home routers of the other ones. -/
theorem offers_overall (hp : Placed t o s) (hcan : CanonFor t o (fun _ => True) s)
    (hr : r ∈ s.theRouters) : Offers s false r l d ↔
      (Serves s d l ∧ Home t o s d r) ∨ (d ≠ r ∧ ∃ c, Serves s c l ∧ Home t o s c d) := by
  obtain ⟨f, er, hf, hendpoint, her, hflags⟩ := exists_table hp hcan hr
  have hfinal := hcan.final hendpoint l d
  have hnonfinal := hcan.nonfinal hendpoint l d
  simp only [hflags, true_and] at hfinal hnonfinal
  rw [← hfinal, ← hnonfinal]
  have hsome : Offers s false r l d ↔ (er.theOverallTable.flags (l, d)).isSome := by
    constructor
    · rintro ⟨f', er', hf', her', hsome⟩
      rw [hf] at hf'
      cases hf'
      rw [her] at her'
      cases her'
      exact hsome
    · exact fun hsome => ⟨f, er, hf, her, hsome⟩
  rw [hsome]
  cases er.theOverallTable.flags (l, d) with
  | none => simp
  | some b => cases b <;> simp

/-- From a router, a request gets to a computer that serves its lambda, after another router at most. -/
theorem Travels.cases (hp : Placed t o s) (hcan : CanonFor t o (fun _ => True) s) (htold : Told R s)
    (hr : r ∈ s.theRouters) (h : Travels s l false r rs c) :
    Serves s c l ∧ (rs = [r] ∨ ∃ d, d ≠ r ∧ rs = [r, d]) := by
  cases h with
  | arrives hc => exact absurd hr hc
  | @hop _ _ d _ rest hd hrest =>
    rcases (offers_overall hp hcan hr).mp hd with ⟨hserves, -⟩ | ⟨hne, c', -, hhome⟩
    · obtain ⟨rfl, rfl⟩ := hrest.of_not_mem (hserves.not_mem hp)
      exact ⟨hserves, .inl rfl⟩
    · cases hrest with
      | arrives hc => exact absurd (hhome.mem hp) hc
      | hop hd' hrest' =>
        obtain ⟨hserves, -⟩ := (offers_final hp hcan htold (hhome.mem hp)).mp hd'
        obtain ⟨rfl, rfl⟩ := hrest'.of_not_mem (hserves.not_mem hp)
        exact ⟨hserves, .inr ⟨d, hne, rfl⟩⟩

/-- Every computer is within reach of every router. -/
theorem exists_travels (hp : Placed t o s) (hcan : CanonFor t o (fun _ => True) s) (htold : Told R s)
    (hr : r ∈ s.theRouters) (hc : Serves s c l) : ∃ rs, Travels s l false r rs c := by
  have hne : s.theDerived.theRouterAddresses.isEmpty = false := by
    obtain ⟨a, as, -, has, -⟩ := hp.back (hp.listed hr)
    rw [ExtTreeMap.isEmpty_eq_false_iff]
    rintro hempty
    rw [hempty] at has
    exact absurd (mem_of_lookup has) ExtTreeMap.not_mem_empty
  have hmem : c ∈ s.theComputers := by
    obtain ⟨cs, hcs, -⟩ := hc
    exact mem_of_lookup hcs
  obtain ⟨h, hhome⟩ := hp.exists_home hmem hne
  have harrives : Travels s l true c [] c := .arrives (hc.not_mem hp)
  by_cases heq : h = r
  · subst heq
    exact ⟨_, .hop ((offers_overall hp hcan hr).mpr (.inl ⟨hc, hhome⟩)) harrives⟩
  · have hlast := (offers_final hp hcan htold (hhome.mem hp)).mpr ⟨hc, hhome⟩
    exact ⟨_, .hop ((offers_overall hp hcan hr).mpr (.inr ⟨heq, c, hc, hhome⟩)) (.hop hlast harrives)⟩

/-- A router that is offered for a client's request has a destination for it once it is forwarded. -/
theorem offers_onward (hp : Placed t o s) (hcan : CanonFor t o (fun _ => True) s) (htold : Told R s)
    (h : Offers s false r l d) (hd : d ∈ s.theRouters) : ∃ c, Offers s true d l c := by
  rcases (offers_overall hp hcan h.registered).mp h with ⟨hserves, -⟩ | ⟨-, c, hserves, hhome⟩
  · exact absurd hd (hserves.not_mem hp)
  · exact ⟨c, (offers_final hp hcan htold hd).mpr ⟨hserves, hhome⟩⟩

end Canonical

end ServerlessEdge.Controller.EdgeControllerHier
