import ServerlessEdge.Controller.HierRegistry

/-! How the announcement of one computer changes the sets of announced computers
and the tables of the routers. -/
namespace ServerlessEdge.Controller.EdgeControllerHier
open Std Library Maps Triple EdgeController

/-- The computers announced by a router for a lambda. -/
def announced (s : State) (r l : String) : ExtTreeSet String :=
  (s.theDerived.theAnnouncedLambdas.getD r ∅).getD l ∅

section Entries

variable {h c : String}

theorem mem_noteEntries (m : Announced) (xs : List Route) (l c' : String) :
    c' ∈ (noteEntries h c m xs).1.getD l ∅ ↔
      c' ∈ m.getD l ∅ ∨ c' = c ∧ ∃ x ∈ xs, x.lambda = l := by
  induction xs generalizing m with
  | nil => simp [noteEntries]
  | cons x xs ih =>
    have hfst : (noteEntries h c m (x :: xs)).1 =
        (noteEntries h c (m.insert x.lambda ((m.getD x.lambda ∅).insert c)) xs).1 := by
      simp only [noteEntries]
      split <;> rfl
    rw [hfst, ih]
    simp only [ExtTreeMap.getD_insert, LawfulEqCmp.compare_eq_iff_eq, List.mem_cons,
      exists_eq_or_imp]
    by_cases hl : x.lambda = l
    · subst hl
      simp only [if_true, ExtTreeSet.mem_insert, LawfulEqCmp.compare_eq_iff_eq, true_or, and_true]
      constructor
      · rintro ((rfl | h) | ⟨h, -⟩)
        · exact .inr rfl
        · exact .inl h
        · exact .inr h
      · rintro (h | rfl)
        · exact .inl (.inr h)
        · exact .inl (.inl rfl)
    · simp only [hl, if_false, false_or]

/-- The entries kept have the home router as a non-final destination. -/
theorem noteEntries_kept (m : Announced) (xs : List Route) :
    ∀ y ∈ (noteEntries h c m xs).2, y.destination = h ∧ y.final = false ∧
      ∃ x ∈ xs, y.lambda = x.lambda ∧ y.weight = x.weight := by
  induction xs generalizing m with
  | nil => simp [noteEntries]
  | cons x xs ih =>
    intro y hy
    have hrest : y ∈ (noteEntries h c (m.insert x.lambda ((m.getD x.lambda ∅).insert c)) xs).2 →
        y.destination = h ∧ y.final = false ∧
          ∃ x' ∈ x :: xs, y.lambda = x'.lambda ∧ y.weight = x'.weight := by
      intro hy
      obtain ⟨hd, hf, x', hx', hl⟩ := ih _ y hy
      exact ⟨hd, hf, x', List.mem_cons_of_mem _ hx', hl⟩
    simp only [noteEntries] at hy
    split at hy
    · exact hrest hy
    · rcases List.mem_cons.mp hy with rfl | hy
      · exact ⟨rfl, rfl, x, List.mem_cons_self, rfl, rfl⟩
      · exact hrest hy

private theorem exists_of_size {t : ExtTreeSet String} {c : String}
    (hs : c ∈ t ∨ 1 < (t.insert c).size) : ∃ c', c' ∈ t := by
  rcases hs with hc | hs
  · exact ⟨c, hc⟩
  · by_contra hn
    rw [not_exists] at hn
    have hsize := ExtTreeSet.eq_empty_iff_size_eq_zero.mp (ExtTreeSet.eq_empty_iff_forall_not_mem.mpr hn)
    have hle := ExtTreeSet.size_insert_le (t := t) (k := c)
    omega

/-- A lambda is announced to the other routers or had been announced before. -/
theorem noteEntries_covers (m : Announced) (xs : List Route) :
    ∀ x ∈ xs, (∃ c', c' ∈ m.getD x.lambda ∅) ∨
      ∃ y ∈ (noteEntries h c m xs).2, y.lambda = x.lambda := by
  induction xs generalizing m with
  | nil => simp
  | cons x xs ih =>
    -- the head is kept unless the set of its lambda was not empty before
    have hhead : (∃ c', c' ∈ m.getD x.lambda ∅) ∨
        ∃ y ∈ (noteEntries h c m (x :: xs)).2, y.lambda = x.lambda := by
      by_cases hs : c ∈ m.getD x.lambda ∅ ∨ 1 < ((m.getD x.lambda ∅).insert c).size
      · exact .inl (exists_of_size hs)
      · refine .inr ⟨{ x with destination := h, final := false }, ?_, rfl⟩
        simp only [noteEntries, if_neg hs]
        exact List.mem_cons_self
    have htail : ∀ y ∈ (noteEntries h c (m.insert x.lambda ((m.getD x.lambda ∅).insert c)) xs).2,
        y ∈ (noteEntries h c m (x :: xs)).2 := by
      intro y hy
      simp only [noteEntries]
      split
      · exact hy
      · exact List.mem_cons_of_mem _ hy
    intro x' hx'
    rcases List.mem_cons.mp hx' with rfl | hx'
    · exact hhead
    by_cases hl : x.lambda = x'.lambda
    · rw [← hl]
      exact hhead
    rcases ih (m.insert x.lambda ((m.getD x.lambda ∅).insert c)) x' hx' with ⟨c', hc'⟩ | ⟨y, hy, he⟩
    · simp only [ExtTreeMap.getD_insert, LawfulEqCmp.compare_eq_iff_eq, if_neg hl] at hc'
      exact .inl ⟨c', hc'⟩
    · exact .inr ⟨y, htail y hy, he⟩

end Entries

/-- The state once a home router has noted the computer. -/
def noted (h c : String) (es : List Route) (s : State) : State :=
  let m := (noteEntries h c (s.theDerived.theAnnouncedLambdas.getD h ∅) es).1
  { s with theDerived := { s.theDerived with
    theAnnouncedLambdas := s.theDerived.theAnnouncedLambdas.insert h m } }

/-- The entries left to be announced to the other routers. -/
def kept (h c : String) (es : List Route) (s : State) : List Route :=
  (noteEntries h c (s.theDerived.theAnnouncedLambdas.getD h ∅) es).2

theorem noteAnnounced_eq (h c : String) (es : List Route) (s : State) :
    noteAnnounced h c es s = .ok (kept h c es s) (noted h c es s) := rfl

theorem mem_announced_noted {h c : String} {es : List Route} {s : State} (r l c' : String) :
    c' ∈ announced (noted h c es s) r l ↔
      c' ∈ announced s r l ∨ r = h ∧ c' = c ∧ ∃ x ∈ es, x.lambda = l := by
  simp only [announced, noted, ExtTreeMap.getD_insert, LawfulEqCmp.compare_eq_iff_eq]
  by_cases hr : h = r
  · subst hr
    simp only [if_true, mem_noteEntries, true_and]
  · simp only [if_neg hr, Ne.symm hr, false_and, or_false]

/-- A table after routes to one destination have been announced to it. -/
theorem foldl_routes {d : String} {b : Bool} (hd : d ≠ "") (es : List Route)
    (hes : ∀ x ∈ es, x.destination = d ∧ x.weight = 1 ∧ x.final = b)
    (f : String × String → Option Bool) (p : String × String) :
    (es.map fun x => (⟨.CHANGE, x.lambda, x.destination, x.weight, x.final⟩ :
      Forwarding.EdgeRouterConf ℚ)).foldl (fun f q => applied q f) f p =
      if p.2 = d ∧ ∃ x ∈ es, x.lambda = p.1 then some b else f p := by
  induction es generalizing f with
  | nil => simp
  | cons x es ih =>
    obtain ⟨hxd, hxw, hxf⟩ := hes x List.mem_cons_self
    have hok : ¬ Forwarding.ForwardingTable.Refused d (1 : ℚ) := by
      simp [Forwarding.ForwardingTable.Refused, hd]
    rw [List.map_cons, List.foldl_cons, ih fun y hy => hes y (List.mem_cons_of_mem _ hy)]
    simp only [applied, hxd, hxw, hxf, if_neg hok, Function.update_apply, List.mem_cons,
      exists_eq_or_imp, Prod.ext_iff]
    by_cases hp : p.2 = d
    · by_cases hl : x.lambda = p.1
      · simp [hp, hl]
      · simp [hp, hl, Ne.symm hl]
    · simp [hp]

/-- Routes announced with success are in the table of the server they were sent
to, and no other table has changed. -/
theorem changeRoutes_cases (env : Environment) (ep : String) {d : String} {b : Bool} (hd : d ≠ "")
    (es : List Route) (hes : ∀ x ∈ es, x.destination = d ∧ x.weight = 1 ∧ x.final = b)
    (n : Network) : ∃ ok n' evs, n.changeRoutes env ep es = (ok, n') ∧ n'.log = evs ++ n.log ∧
      (∀ x ∈ evs, ∃ q a, x = .command ep q a) ∧ (∀ e, e ∈ n'.tables ↔ e ∈ n.tables) ∧
      (∀ e, e ≠ ep → n'.flags e = n.flags e) ∧
      (ok = true → ∀ p, n'.flags ep p =
        if p.2 = d ∧ ∃ x ∈ es, x.lambda = p.1 then some b else n.flags ep p) := by
  obtain ⟨ok, n', evs, hc, hlog, hevs, hmem, hother, hok, -⟩ := Network.commands_cases env ep
    (es.map fun x => ⟨.CHANGE, x.lambda, x.destination, x.weight, x.final⟩) n
  refine ⟨ok, n', evs, hc, hlog, hevs, hmem, hother, fun h p => ?_⟩
  rw [hok h]
  exact foldl_routes hd es hes _ p

/-- A computer offers a lambda. -/
def Serves (s : State) (c l : String) : Prop := ∃ cs, s.theComputers[c]? = some cs ∧ l ∈ cs.lambdas

/-- The entries with which a computer is announced to its home. -/
def entries (c : String) (cs : ContainerList) : List Route := cs.lambdas.map fun l => ⟨l, c, 1, true⟩

theorem exists_entries {s : State} {c l : String} {cs : ContainerList} (hc : s.theComputers[c]? = some cs) :
    (∃ x ∈ entries c cs, x.lambda = l) ↔ Serves s c l := by
  simp only [entries, List.mem_map, exists_exists_and_eq_and, exists_eq_right, Serves, hc,
    Option.some.injEq, exists_eq_left']

/-- The servers with the tables of the routers in l flushed. -/
def Flushed (l : List (String × String)) (s : State) (m : Network) : Prop :=
  (∀ e, e ∈ m.tables ↔ e ∈ s.theDerived.theNetwork.tables) ∧
  ∀ x ∈ l, x.2 ≠ "" ∧ x.2 ∈ m.tables ∧ m.flags x.2 = fun _ => none

/-- Flush all the routers in turn, up to one that does not answer. -/
theorem wp_flush {env : Environment} {s : State} {Bad : State → Prop} {E : String → State → Prop}
    (hmono : ∀ s s', Grows s s' → Bad s → Bad s') (xs : List (String × String)) :
    wp Bad (xs.findM? fun x => do return !(← onNetwork (Network.flushRoutes env x.2)))
      (fun x s' => ∃ m, s' = s.withNetwork m ∧ match x with
        | none => Flushed xs s m
        | some x => x ∈ xs ∧ (∀ e, e ∈ m.tables ↔ e ∈ s.theDerived.theNetwork.tables) ∧
          ((∀ i, env.outcome i = .answered) → x.2 ≠ "" → x.2 ∉ m.tables)) E s := by
  have hgrows (x : String × String) : Stable Bad
      (do return !(← onNetwork (Network.flushRoutes env x.2)) : Member EdgeControllerHier Bool) :=
    moves_mono (moves_bind (grows_commands _ _) fun _ => moves_pure _) hmono
  refine wp_findM? (I := fun l s' => ∃ m, s' = s.withNetwork m ∧ Flushed l s m) hgrows _ ?_ ?_ ?_
  · rintro l x rest s' hl ⟨m, rfl, hkeys, hflushed⟩
    obtain ⟨ok, m', evs, hc, -, -, hmem, hother, hok, -⟩ := Network.commands_cases env x.2
      [⟨.FLUSH, "", "", 0, false⟩] m
    refine wp_attempt ?_
    simp only [EdgeController.withNetwork, Network.flushRoutes, hc]
    cases ok with
    | true =>
      refine ⟨m', rfl, fun e => (hmem e).trans (hkeys e), fun y hy => ?_⟩
      have hx : m'.flags x.2 = fun _ => none := hok rfl
      have hserver : x.2 ≠ "" ∧ x.2 ∈ m.tables := Network.server_of_answered (by rw [hc])
      by_cases hyx : y.2 = x.2
      · rw [hyx]
        exact ⟨hserver.1, (hmem _).mpr hserver.2, hx⟩
      · rcases List.mem_append.mp hy with hy | hy
        · obtain ⟨h0, hin, hf⟩ := hflushed y hy
          exact ⟨h0, (hmem _).mpr hin, (hother _ hyx).trans hf⟩
        · exact absurd (by rw [List.mem_singleton.mp hy]) hyx
    | false =>
      refine ⟨m', rfl, ?_, fun e => (hmem e).trans (hkeys e), fun hout hne hin => ?_⟩
      · rw [hl]
        exact List.mem_append_right _ List.mem_cons_self
      · have htrue := Network.commands_answered hout hne [⟨.FLUSH, "", "", 0, false⟩]
          ((hmem x.2).mp hin)
        rw [hc] at htrue
        cases htrue
  · exact fun s' h => h
  · exact ⟨s.theDerived.theNetwork, rfl, fun _ => Iff.rfl, by simp⟩

/-- The state in which the loop over all computers starts. -/
def cleared (m : Network) (s : State) : State :=
  { s with theDerived := { s.theDerived with
    theAnnouncedLambdas := ∅
    theNetwork := m.record .clear } }

/-- A reset flushes the routers: one that does not answer is removed, or else all
computers are announced again. -/
theorem wp_resetBody {env : Environment} {reset : Member EdgeControllerHier Unit} {s : State}
    {Bad : State → Prop} {Q : Unit → State → Prop} {E : String → State → Prop}
    (hreset : Moves Grows reset) (hmono : ∀ s s', Grows s s' → Bad s → Bad s')
    (hfail : ∀ (m : Network) x, x ∈ s.theDerived.theForwardingTableEndpoints.toList →
      (∀ e, e ∈ m.tables ↔ e ∈ s.theDerived.theNetwork.tables) →
      ((∀ i, env.outcome i = .answered) → x.2 ≠ "" → x.2 ∉ m.tables) →
      wp Bad (removeRouter reset x.1) Q E (s.withNetwork m))
    (hall : ∀ m, Flushed s.theDerived.theForwardingTableEndpoints.toList s m →
      wp Bad (s.theComputers.toList.forM fun x => privateAnnounceComputer env reset x.1 x.2) Q E
        (cleared m s)) :
    wp Bad (resetBody env reset) Q E s := by
  refine wp_get_bind (wp_bind (fun x => ?_) (wp_flush hmono _) ?_)
  · refine moves_mono ?_ hmono
    split
    · exact grows_removeRouter hreset _
    · refine moves_bind (grows_modifyHier fun d => List.suffix_refl _) fun _ => ?_
      refine moves_bind (grows_record _) fun _ => moves_bind moves_get fun s => ?_
      refine moves_forM (fun x => ?_) _
      exact grows_privateAnnounceComputer hreset x.1 x.2
  rintro x s' ⟨m, rfl, hm⟩
  cases x with
  | some x => exact hfail m x hm.1 hm.2.1 hm.2.2
  | none => exact hall m hm

end ServerlessEdge.Controller.EdgeControllerHier
