import ServerlessEdge.Controller.HierAnnouncements

/-! Where no end-point is both that of a router and that of a computer, the routers forward requests
that have been forwarded to computers only: whatever is called and whichever commands get lost. -/
namespace ServerlessEdge.Controller.EdgeControllerHier
open Std Library Triple EdgeController Forwarding

section Tables

variable (R : String → Prop)

/-- The final destinations of a router are the final ones of its overall table, and computers; the
other ones are routers. -/
structure Sorted (r : EdgeRouter ℚ) : Prop where
  coherent : r.Coherent
  computers : ∀ p, r.theOverallTable.flags p = some true → ¬ R p.2
  routers : ∀ p, r.theOverallTable.flags p = some false → R p.2

/-- A command for a router names a computer as a final destination, and another router as an
intermediate one. -/
def Names (q : EdgeRouterConf ℚ) : Prop := q.action = .CHANGE → (R q.destination ↔ q.final = false)

variable {R}

theorem Sorted.new : Sorted R EdgeRouter.new := by
  refine ⟨EdgeRouter.coherent_new, fun p hp => ?_, fun p hp => ?_⟩
  · simp [EdgeRouter.new] at hp
  · simp [EdgeRouter.new] at hp

theorem applied_sorted {f : String × String → Option Bool} {q : EdgeRouterConf ℚ} (hq : Names R q)
    (hf : ∀ p b, f p = some b → (R p.2 ↔ b = false)) (p : String × String) (b : Bool)
    (hp : applied q f p = some b) : R p.2 ↔ b = false := by
  cases ha : q.action with
  | FLUSH => simp [applied, ha] at hp
  | unrecognized v =>
    simp only [applied, ha] at hp
    exact hf p b hp
  | REMOVE =>
    simp only [applied, ha, Function.update_apply] at hp
    split at hp
    · cases hp
    · exact hf p b hp
  | CHANGE =>
    simp only [applied, ha] at hp
    split at hp
    · exact hf p b hp
    · rw [Function.update_apply] at hp
      split at hp
      · next heq =>
        cases hp
        rw [heq]
        exact hq ha
      · exact hf p b hp

theorem Sorted.configure {r : EdgeRouter ℚ} (h : Sorted R r) {q : EdgeRouterConf ℚ} (hq : Names R q) :
    Sorted R (r.configure q) := by
  have hkinds : ∀ p b, r.theOverallTable.flags p = some b → (R p.2 ↔ b = false) := by
    intro p b hp
    cases b with
    | true => exact iff_of_false (h.computers p hp) (by simp)
    | false => exact iff_of_true (h.routers p hp) rfl
  have happlied := applied_sorted hq hkinds
  rw [← flags_configure] at happlied
  refine ⟨?_, fun p hp => ?_, fun p hp => (happlied p false hp).mpr rfl⟩
  · refine (EdgeRouter.step_coherent_iff h.coherent (.configure q)).mpr ?_
    rintro ⟨ha, -, hfinal, hflag⟩
    exact h.computers _ hflag ((hq ha).mpr hfinal)
  · rw [happlied p true hp]
    simp

/-- A forwarded request is not forwarded to a router again. -/
theorem Sorted.final {r : EdgeRouter ℚ} (h : Sorted R r) {p : String × String}
    (hp : (r.theFinalTable.flags p).isSome) : ¬ R p.2 :=
  h.computers p (((EdgeRouter.coherent_iff r).mp h.coherent p).mp hp)

/-- The tables are sorted, and so they stay with the commands that have been sent. -/
structure SortedNetwork (R : String → Prop) (n : Network) : Prop where
  tables : ∀ (f : String) r, n.tables[f]? = some r → Sorted R r
  sent : ∀ f q b, Event.command f q b ∈ n.log → Names R q

theorem SortedNetwork.record {n : Network} (hn : SortedNetwork R n) {e : Event} (he : ∀ f q b, e ≠ .command f q b) :
    SortedNetwork R (n.record e) := by
  refine ⟨hn.tables, fun f q b hmem => ?_⟩
  rcases List.mem_cons.mp hmem with heq | hmem
  · exact absurd heq.symm (he f q b)
  · exact hn.sent f q b hmem

theorem SortedNetwork.command {env : Environment} {ep : String} {q : EdgeRouterConf ℚ} {n : Network}
    (hn : SortedNetwork R n) (hq : Names R q) : SortedNetwork R (n.command env ep q).2 := by
  have hrecord {n : Network} (hn : SortedNetwork R n) (b : Bool) : SortedNetwork R (n.record (.command ep q b)) := by
    refine ⟨hn.tables, fun f q' b' hmem => ?_⟩
    rcases List.mem_cons.mp hmem with heq | hmem
    · cases heq
      exact hq
    · exact hn.sent f q' b' hmem
  have hcarried : SortedNetwork R (n.carryOut ep q) := by
    refine ⟨fun f r hr => ?_, hn.sent⟩
    rw [Network.carryOut, ExtTreeMap.getElem?_modify] at hr
    split at hr
    · obtain ⟨r', hr', rfl⟩ := Option.map_eq_some_iff.mp hr
      exact (hn.tables _ r' hr').configure hq
    · exact hn.tables f r hr
  rw [Network.command]
  split
  · exact hrecord hn false
  · split
    · exact hrecord hn false
    · exact hrecord hcarried false
    · exact hrecord hcarried true

theorem SortedNetwork.commands {env : Environment} {ep : String} {qs : List (EdgeRouterConf ℚ)} {n : Network}
    (hn : SortedNetwork R n) (hq : ∀ q ∈ qs, Names R q) : SortedNetwork R (n.commands env ep qs).2 := by
  induction qs generalizing n with
  | nil => exact hn
  | cons q qs ih =>
    obtain ⟨hfirst, hrest⟩ := List.forall_mem_cons.mp hq
    rw [Network.commands]
    split
    · exact ih (hn.command hfirst) hrest
    · exact hn.command hfirst

end Tables

/-- The end-points that the controller holds for routers are those of routers, and it never sends one
of them to a router as that of a computer. -/
structure Told (R : String → Prop) (s : State) : Prop where
  computers : ∀ c ∈ s.theComputers, ¬ R c
  addresses : ∀ (a : String) (rs : List String), s.theDerived.theRouterAddresses[a]? = some rs → ∀ r ∈ rs, R r
  network : SortedNetwork R s.theDerived.theNetwork

/-- However the program ends, the controller has told the routers what it should, and what it
returns is right. -/
abbrev Tells (R : String → Prop) {A : Type} (m : Member EdgeControllerHier A) (P : A → Prop)
    (s : State) : Prop :=
  wp (fun _ => False) m (fun a s' => Told R s' ∧ P a) (fun _ s' => Told R s') s

section Rules

variable {R : String → Prop} {A B : Type} {s : State} {env : Environment}

theorem tells_bind {m : Member EdgeControllerHier A} {f : A → Member EdgeControllerHier B} {P : A → Prop}
    {Q : B → Prop} (hm : Tells R m P s) (hf : ∀ a s', Told R s' → P a → Tells R (f a) Q s') :
    Tells R (m >>= f) Q s :=
  wp_bind (fun _ _ => id) hm fun a s' h => hf a s' h.1 h.2

theorem tells_modify {f : State → State} (h : Told R (f s)) :
    Tells R (modify f : Member EdgeControllerHier PUnit) (fun _ => True) s := wp_modify ⟨h, trivial⟩

theorem tells_record {e : Event} (he : ∀ f q b, e ≠ .command f q b) (hs : Told R s) :
    Tells R (record e) (fun _ => True) s :=
  tells_modify ⟨hs.computers, hs.addresses, hs.network.record he⟩

theorem tells_findM? {α : Type} {p : α → Member EdgeControllerHier Bool} {xs : List α}
    (hp : ∀ x ∈ xs, ∀ s, Told R s → Tells R (p x) (fun _ => True) s) (hs : Told R s) :
    Tells R (xs.findM? p) (fun _ => True) s := by
  refine wp_findM? (fun _ s => Told R s) (fun _ _ => id) xs ?_ (fun _ h => ⟨h, trivial⟩) hs
  intro l x r s hxs hs
  have hx : x ∈ xs := hxs ▸ List.mem_append_right l List.mem_cons_self
  refine wp_mono (hp x hx s hs) (fun b s' h => ?_) fun _ _ h => h
  cases b with
  | true => exact ⟨h.1, trivial⟩
  | false => exact h.1

theorem tells_forM {α : Type} {f : α → Member EdgeControllerHier PUnit} {xs : List α}
    (hf : ∀ x ∈ xs, ∀ s, Told R s → Tells R (f x) (fun _ => True) s) (hs : Told R s) :
    Tells R (xs.forM f) (fun _ => True) s := by
  refine wp_forM (fun _ s => Told R s) (fun _ _ => id) xs ?_ (fun _ h => ⟨h, trivial⟩) hs
  intro l x r s hxs hs
  have hx : x ∈ xs := hxs ▸ List.mem_append_right l List.mem_cons_self
  exact wp_mono (hf x hx s hs) (fun _ _ h => h.1) fun _ _ h => h

theorem tells_foldlM {α β : Type} {f : β → α → Member EdgeControllerHier β}
    (hf : ∀ b x s, Told R s → Tells R (f b x) (fun _ => True) s) (xs : List α) (b : β) (hs : Told R s) :
    Tells R (xs.foldlM f b) (fun _ => True) s := by
  refine wp_foldlM (fun _ _ s => Told R s) (fun _ _ _ => id) xs ?_ (fun _ _ h => ⟨h, trivial⟩) hs
  intro l x r b s _ hs
  exact wp_mono (hf b x s hs) (fun _ _ h => h.1) fun _ _ h => h

theorem tells_commands {ep : String} {qs : List (EdgeRouterConf ℚ)} (hs : Told R s)
    (hq : ∀ q ∈ qs, Names R q) : Tells R (onNetwork (Network.commands env ep qs)) (fun _ => True) s :=
  .inr ⟨⟨hs.computers, hs.addresses, hs.network.commands hq⟩, trivial⟩

theorem tells_attempt {ep : String} {qs : List (EdgeRouterConf ℚ)} (hs : Told R s)
    (hq : ∀ q ∈ qs, Names R q) :
    Tells R (do return !(← onNetwork (Network.commands env ep qs))) (fun _ => True) s :=
  tells_bind (tells_commands hs hq) fun _ _ h _ => wp_pure ⟨h, trivial⟩

end Rules

section Functions

variable {R : String → Prop} {s : State} {env : Environment}

theorem tells_addressOf (ep : String) (hs : Told R s) : Tells R (addressOf ep) (fun _ => True) s := by
  rw [addressOf]
  split
  · exact wp_throw hs
  · exact wp_pure ⟨hs, trivial⟩

theorem tells_findClosest (b : String) (hs : Told R s) : Tells R (findClosest b) (fun _ => True) s := by
  cases hne : s.theDerived.theRouterAddresses.isEmpty with
  | false =>
    rcases findClosest_cases b hne with ⟨err, hrun, -⟩ | ⟨a, m, hrun, -⟩
    · rw [Tells, wp, hrun]
      exact .inr hs
    · rw [Tells, wp, hrun]
      exact .inr ⟨⟨hs.computers, hs.addresses, hs.network⟩, trivial⟩
  | true =>
    rw [findClosest]
    apply wp_get_bind
    dsimp only
    split
    · exact wp_throw hs
    · exact wp_throw hs
    · rw [if_pos hne]
      exact wp_pure ⟨hs, trivial⟩

/-- The router drawn at an address is a router. -/
theorem tells_routerEndpoint (a : String) (hs : Told R s) : Tells R (routerEndpoint env a) R s := by
  rw [routerEndpoint]
  apply wp_get_bind
  dsimp only
  split
  · exact wp_throw hs
  · exact wp_throw hs
  · next x xs hrs =>
    refine wp_pure ⟨hs, hs.addresses a _ hrs _ ?_⟩
    rw [List.getD_eq_getElem?_getD, List.getElem?_eq_getElem (Nat.mod_lt _ (by simp)), Option.getD_some]
    exact List.getElem_mem _

theorem tells_homeRouter (c : String) (hs : Told R s) : Tells R (homeRouter env c) R s := by
  refine tells_bind (tells_addressOf c hs) fun a s hs _ => ?_
  refine tells_bind (tells_findClosest a hs) fun b s hs _ => ?_
  refine tells_bind (tells_routerEndpoint b hs) fun r s hs hr => ?_
  refine tells_bind (tells_record (by simp) hs) fun _ s hs _ => ?_
  exact wp_pure ⟨hs, hr⟩

theorem names_changeRoutes {es : List Route} (hes : ∀ x ∈ es, R x.destination ↔ x.final = false) :
    ∀ q ∈ es.map (fun x => (⟨.CHANGE, x.lambda, x.destination, x.weight, x.final⟩ : EdgeRouterConf ℚ)),
      Names R q := by
  intro q hq _
  obtain ⟨x, hx, rfl⟩ := List.mem_map.mp hq
  exact hes x hx

theorem tells_announceFinal {home : String} {es : List Route}
    (hes : ∀ x ∈ es, R x.destination ↔ x.final = false) (hs : Told R s) :
    Tells R (announceFinal env home es) (fun _ => True) s := by
  rw [announceFinal]
  apply wp_get_bind
  dsimp only
  split
  · exact wp_pure ⟨hs, trivial⟩
  · exact tells_commands hs (names_changeRoutes hes)

theorem noteEntries_final (home c : String) (m : Announced) (es : List Route) :
    ∀ x ∈ (noteEntries home c m es).2, x.destination = home ∧ x.final = false := by
  induction es generalizing m with
  | nil => simp [noteEntries]
  | cons e es ih =>
    intro x hx
    rw [noteEntries] at hx
    split at hx
    · exact ih _ x hx
    · rcases List.mem_cons.mp hx with rfl | hx
      · exact ⟨rfl, rfl⟩
      · exact ih _ x hx

theorem tells_noteAnnounced {home c : String} {es : List Route} (hs : Told R s) :
    Tells R (noteAnnounced home c es)
      (fun es => ∀ x ∈ es, x.destination = home ∧ x.final = false) s :=
  .inr ⟨⟨hs.computers, hs.addresses, hs.network⟩, noteEntries_final home c _ es⟩

theorem tells_withdraw (c : String) (elems : List RemoveElem) (l : String) (hs : Told R s) :
    Tells R (withdraw c elems l) (fun _ => True) s := by
  rw [withdraw]
  apply wp_get_bind
  dsimp only
  split
  · exact wp_pure ⟨hs, trivial⟩
  · split
    · exact wp_throw hs
    · split
      · apply wp_modify_bind
        exact wp_pure ⟨⟨hs.computers, hs.addresses, hs.network⟩, trivial⟩
      · apply wp_modify_bind
        exact wp_pure ⟨⟨hs.computers, hs.addresses, hs.network⟩, trivial⟩

section Recursion

variable {reset : Member EdgeControllerHier Unit}
  (hreset : ∀ s, Told R s → Tells R reset (fun _ => True) s)
include hreset

theorem tells_privateRemoveRouter (e : String) (hs : Told R s) :
    Tells R (privateRemoveRouter reset e) (fun _ => True) s := by
  refine tells_bind (tells_addressOf e hs) fun a s hs _ => ?_
  apply wp_get_bind
  split
  · exact wp_throw hs
  · next rs hrs =>
    have hleft : ∀ r ∈ rs.erase e, R r := fun r hr =>
      hs.addresses a rs hrs r (List.mem_of_mem_erase hr)
    split
    · apply wp_modify_bind
      apply wp_modify_bind
      refine hreset _ ⟨hs.computers, fun b rs' hb => ?_, hs.network⟩
      rw [ExtTreeMap.getElem?_erase] at hb
      split at hb
      · cases hb
      · exact hs.addresses b rs' hb
    · apply wp_modify_bind
      apply wp_modify_bind
      refine hreset _ ⟨hs.computers, fun b rs' hb => ?_, hs.network⟩
      rw [Maps.lookup_insert] at hb
      split at hb
      · cases hb
        exact hleft
      · exact hs.addresses b rs' hb

theorem tells_removeRouter (e : String) (hs : Told R s) :
    Tells R (removeRouter reset e) (fun _ => True) s :=
  tells_bind (tells_modify ⟨hs.computers, hs.addresses, hs.network⟩) fun _ _ hs _ =>
    tells_privateRemoveRouter hreset e hs

theorem tells_removeRouterByKey (e : String) (hs : Told R s) :
    Tells R (removeRouterByKey env reset e) (fun _ => True) s := by
  refine tells_bind (tells_modify ⟨hs.computers, hs.addresses, hs.network⟩) fun _ s hs _ => ?_
  refine tells_bind (tells_record (by simp) hs) fun _ s hs _ => ?_
  exact tells_privateRemoveRouter hreset _ hs

theorem tells_announceIntermediate {home : String} {es : List Route}
    (hes : ∀ x ∈ es, R x.destination ↔ x.final = false) (hs : Told R s) :
    Tells R (announceIntermediate env reset home es) (fun _ => True) s := by
  rw [announceIntermediate]
  apply wp_get_bind
  refine tells_bind (tells_findM? (fun x _ s hs => tells_attempt hs (names_changeRoutes hes)) hs)
    fun o s hs _ => ?_
  cases o with
  | none => exact wp_pure ⟨hs, trivial⟩
  | some x => exact tells_removeRouterByKey hreset x.1 hs

theorem tells_privateAnnounceComputer {c : String} (cs : ContainerList) (hc : ¬ R c) (hs : Told R s) :
    Tells R (privateAnnounceComputer env reset c cs) (fun _ => True) s := by
  rw [privateAnnounceComputer]
  apply wp_get_bind
  split
  · exact wp_pure ⟨hs, trivial⟩
  · refine tells_bind (tells_homeRouter c hs) fun home s hs hhome => ?_
    have hentries : ∀ x ∈ cs.lambdas.map (fun l => Route.mk l c 1 true),
        R x.destination ↔ x.final = false := by
      intro x hx
      obtain ⟨l, -, rfl⟩ := List.mem_map.mp hx
      exact iff_of_false hc (by simp)
    refine tells_bind (tells_announceFinal hentries hs) fun b s hs _ => ?_
    split
    · refine tells_bind (tells_noteAnnounced hs) fun es s hs hes => ?_
      refine tells_announceIntermediate hreset (fun x hx => ?_) hs
      obtain ⟨hdest, hfinal⟩ := hes x hx
      rw [hdest, hfinal]
      exact iff_of_true hhome rfl
    · exact tells_removeRouter hreset home hs

theorem tells_resetBody (hs : Told R s) : Tells R (resetBody env reset) (fun _ => True) s := by
  rw [resetBody]
  apply wp_get_bind
  refine tells_bind (tells_findM? (fun x _ s hs => tells_attempt hs ?_) hs) fun o s hs _ => ?_
  · intro q hq
    rw [List.mem_singleton.mp hq]
    exact nofun
  cases o with
  | some x => exact tells_removeRouter hreset x.1 hs
  | none =>
    refine tells_bind (tells_modify ⟨hs.computers, hs.addresses, hs.network⟩) fun _ s hs _ => ?_
    refine tells_bind (tells_record (by simp) hs) fun _ s hs _ => ?_
    apply wp_get_bind
    refine tells_forM (fun x hx s' hs' => tells_privateAnnounceComputer hreset x.2 ?_ hs') hs
    exact hs.computers x.1 (Maps.mem_of_lookup (ExtTreeMap.mem_toList_iff_getElem?_eq_some.mp hx))

theorem tells_privateAnnounceRouter {e f : String} (he : R e) (hs : Told R s) :
    Tells R (privateAnnounceRouter reset e f) (fun _ => True) s := by
  refine tells_bind (tells_addressOf e hs) fun a s hs _ => ?_
  apply wp_get_bind
  split
  · apply wp_modify_bind
    apply wp_modify_bind
    refine hreset _ ⟨hs.computers, fun b rs' hb => ?_, hs.network⟩
    rw [Maps.lookup_insert] at hb
    split at hb
    · cases hb
      intro r hr
      rw [List.mem_singleton.mp hr]
      exact he
    · exact hs.addresses b rs' hb
  · next rs hrs =>
    apply wp_modify_bind
    apply wp_modify_bind
    refine hreset _ ⟨hs.computers, fun b rs' hb => ?_, hs.network⟩
    rw [Maps.lookup_insert] at hb
    split at hb
    · cases hb
      intro r hr
      rcases List.mem_append.mp hr with hr | hr
      · exact hs.addresses a rs hrs r hr
      · rw [List.mem_singleton.mp hr]
        exact he
    · exact hs.addresses b rs' hb

theorem tells_privateRemoveComputer (c : String) (ls : List String) (hs : Told R s) :
    Tells R (privateRemoveComputer env reset c ls) (fun _ => True) s := by
  refine tells_bind (tells_foldlM (fun es l s hs => tells_withdraw c es l hs) ls [] hs)
    fun elems s hs _ => ?_
  refine tells_bind (tells_record (by simp) hs) fun _ s hs _ => ?_
  refine tells_bind (tells_findM? (fun x _ s hs => tells_attempt hs ?_) hs) fun o s hs _ => ?_
  · intro q hq
    rw [List.mem_singleton.mp hq]
    exact nofun
  cases o with
  | some x => exact tells_removeRouter hreset _ hs
  | none => exact wp_pure ⟨hs, trivial⟩

end Recursion

/-- By induction on the resets left. -/
theorem tells_reset (n : ℕ) (hs : Told R s) : Tells R (reset env n) (fun _ => True) s := by
  induction n generalizing s with
  | zero => exact wp_throw hs
  | succ n ih => exact tells_resetBody (fun _ hs => ih hs) hs

theorem tells_markServed (c l : String) (hs : Told R s) :
    Tells R (markServed (hooks env) c l) (fun _ => True) s := by
  rw [markServed]
  apply wp_modify_bind
  apply wp_get_bind
  dsimp only
  split
  · exact wp_modify ⟨⟨hs.computers, hs.addresses, hs.network⟩, trivial⟩
  · exact wp_modify ⟨⟨hs.computers, hs.addresses, hs.network⟩, trivial⟩

theorem tells_unmarkServed (c l : String) (hs : Told R s) :
    Tells R (unmarkServed (hooks env) c l) (fun _ => True) s := by
  rw [unmarkServed]
  apply wp_get_bind
  split
  · exact wp_pure ⟨hs, trivial⟩
  · dsimp only
    split
    · exact wp_modify_bind (wp_pure ⟨⟨hs.computers, hs.addresses, hs.network⟩, trivial⟩)
    · exact wp_modify ⟨⟨hs.computers, hs.addresses, hs.network⟩, trivial⟩

theorem tells_addToComputers {c : String} (cs : ContainerList) (hc : ¬ R c) (hs : Told R s) :
    Tells R (addToComputers c cs) (fun _ => True) s := by
  rw [addToComputers]
  apply wp_get_bind
  split
  · exact wp_pure ⟨hs, trivial⟩
  · refine wp_modify_bind (wp_pure ⟨⟨fun c' hc' => ?_, hs.addresses, hs.network⟩, trivial⟩)
    rcases Maps.mem_insert.mp hc' with rfl | hc'
    · exact hc
    · exact hs.computers c' hc'

theorem tells_removeFromComputers (c : String) (hs : Told R s) :
    Tells R (removeFromComputers c : Member EdgeControllerHier _) (fun _ => True) s := by
  rw [removeFromComputers]
  apply wp_get_bind
  split
  · refine wp_modify_bind (wp_pure ⟨⟨fun c' hc' => ?_, hs.addresses, hs.network⟩, trivial⟩)
    exact hs.computers c' (ExtTreeMap.mem_of_mem_erase hc')
  · exact wp_pure ⟨hs, trivial⟩

theorem tells_notifyComputer {c : String} (cs : ContainerList) (hc : ¬ R c) (hs : Told R s) :
    Tells R (notifyComputer (hooks env) c cs) (fun _ => True) s := by
  refine tells_bind (tells_forM (fun l _ s hs => tells_markServed c l hs) hs) fun _ s hs _ => ?_
  refine tells_bind (P := fun _ => True) (wp_pure ⟨hs, trivial⟩) fun _ s hs _ => ?_
  apply wp_get_bind
  exact tells_privateAnnounceComputer (fun _ hs => tells_reset _ hs) cs hc hs

theorem tells_removeComputer (c : String) (hs : Told R s) :
    Tells R (removeComputer (hooks env) c) (fun _ => True) s := by
  refine tells_bind (tells_removeFromComputers c hs) fun ls s hs _ => ?_
  refine tells_bind (tells_forM (fun l _ s hs => tells_unmarkServed c l hs) hs) fun _ s hs _ => ?_
  refine tells_bind (P := fun _ => True) (wp_pure ⟨hs, trivial⟩) fun _ s hs _ => ?_
  apply wp_get_bind
  exact tells_privateRemoveComputer (fun _ hs => tells_reset _ hs) c ls hs

theorem tells_announceComputer {c : String} (cs : ContainerList) (hc : ¬ R c) (hs : Told R s) :
    Tells R (announceComputer (hooks env) c cs) (fun _ => True) s := by
  refine tells_bind (tells_addToComputers cs hc hs) fun r s hs _ => ?_
  cases r with
  | AlreadyPresent => exact wp_pure ⟨hs, trivial⟩
  | NotPresent => exact tells_notifyComputer cs hc hs
  | ContainersChanged =>
    refine tells_bind (tells_removeComputer c hs) fun _ s hs _ => ?_
    refine tells_bind (tells_addToComputers cs hc hs) fun _ s hs _ => ?_
    exact tells_notifyComputer cs hc hs

theorem tells_announceRouter {e : String} (f : String) (he : R e) (hs : Told R s) :
    Tells R (announceRouter (hooks env) e f) (fun _ => True) s := by
  refine tells_bind (tells_modify ⟨hs.computers, hs.addresses, hs.network⟩) fun _ s hs _ => ?_
  apply wp_get_bind
  exact tells_privateAnnounceRouter (fun _ hs => tells_reset _ hs) he hs

end Functions

/-- The end-points in a call are what the call says. -/
def Apart (R : String → Prop) : Call → Prop
  | .announceRouter e _ => R e
  | .announceComputer c _ => ¬ R c
  | .removeComputer _ => True

theorem told_step {R : String → Prop} {env : Environment} {s : State} {a : Call} (hs : Told R s)
    (ha : Apart R a) : Told R (step env s a) := by
  have htells : Tells R (serve env a) (fun _ => True) s := by
    cases a with
    | announceRouter e f => exact tells_announceRouter f ha hs
    | announceComputer c cs => exact tells_announceComputer cs ha hs
    | removeComputer c => exact tells_removeComputer c hs
  exact after_of_wp (wp_mono htells (fun _ _ h => h.1) fun _ _ h => h)

theorem told_states {R : String → Prop} {env : Environment} {s : State} {aCalls : List Call}
    (hs : Told R s) (hcalls : ∀ a ∈ aCalls, Apart R a) :
    ∀ s' ∈ Runs.states (step env) s aCalls, Told R s' :=
  Runs.invariant_along (fun _ _ hs ha => told_step hs ha) hs (Runs.Along.of_forall hcalls s)

theorem Told.new {R : String → Prop} (t : Topology) (o : Objective)
    {aTables : ExtTreeMap String (EdgeRouter ℚ)} (hT : ∀ (f : String) r, aTables[f]? = some r → r = EdgeRouter.new) :
    Told R (new t o aTables) where
  computers c hc := by simp [EdgeControllerHier.new] at hc
  addresses a rs hrs := by simp [EdgeControllerHier.new] at hrs
  network := ⟨fun f r hr => hT f r hr ▸ Sorted.new, fun f q b hmem => absurd hmem List.not_mem_nil⟩

/-- In every run, whichever commands and answers get lost: the final table of a router holds the final
destinations of its overall table, and these are computers; the other ones are routers. -/
theorem final_to_computers {R : String → Prop} (env : Environment) (t : Topology) (o : Objective)
    {aTables : ExtTreeMap String (EdgeRouter ℚ)}
    (hT : ∀ (f : String) r, aTables[f]? = some r → r = EdgeRouter.new) {aCalls : List Call}
    (hcalls : ∀ a ∈ aCalls, Apart R a) : ∀ s ∈ Runs.states (step env) (new t o aTables) aCalls,
      ∀ (f : String) r, s.theDerived.theNetwork.tables[f]? = some r → r.Coherent ∧
        (∀ p, (r.theFinalTable.flags p).isSome → ¬ R p.2) ∧
        ∀ p, r.theOverallTable.flags p = some false → R p.2 := by
  intro s hs f r hr
  have hsorted := (told_states (Told.new t o hT) hcalls s hs).network.tables f r hr
  exact ⟨hsorted.coherent, fun p => hsorted.final, hsorted.routers⟩

theorem threeServers_new {f : String} {r : EdgeRouter ℚ} (h : threeServers[f]? = some r) :
    r = EdgeRouter.new := by
  simp only [threeServers, ExtTreeMap.ofList_eq_insertMany_empty, ExtTreeMap.insertMany_cons,
    ExtTreeMap.insertMany_nil, Maps.lookup_insert] at h
  split_ifs at h
  all_goals simp_all

theorem final_to_computers_three :
    (((Runs.final (step (loses 11 id)) (new threeNodes .MinMax threeServers)
      threeRouters).theDerived.theNetwork.tables["a:2"]?).any fun r =>
        r.theFinalTable.flags ("lambda0", "a:5") = some true) = true ∧
    ∀ s ∈ Runs.states (step (loses 11 id)) (new threeNodes .MinMax threeServers)
      (threeRouters ++ [.removeComputer "a:5"]),
      ∀ (f : String) r, s.theDerived.theNetwork.tables[f]? = some r → r.Coherent ∧
        (∀ p, (r.theFinalTable.flags p).isSome → p.2 ∉ ["a:1", "b:1", "c:1"]) ∧
        ∀ p, r.theOverallTable.flags p = some false → p.2 ∈ ["a:1", "b:1", "c:1"] := by
  refine ⟨by decide +kernel, ?_⟩
  refine final_to_computers (R := fun e => e ∈ ["a:1", "b:1", "c:1"]) (loses 11 id) threeNodes .MinMax
    (fun f r h => threeServers_new h) ?_
  simp [threeRouters, Apart]

end ServerlessEdge.Controller.EdgeControllerHier
