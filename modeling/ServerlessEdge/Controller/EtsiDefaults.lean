import ServerlessEdge.Controller.EtsiDescriptors

/-! The descriptors agree with the lambdas of the base class after every call, and
the proxy with the descriptors. -/
namespace ServerlessEdge.Controller.EdgeControllerEtsiBalanced
open Std Library Maps Groups Triple EdgeController

/-- The same descriptors and the same routes. -/
structure Alike (d d' : EdgeControllerEtsiBalanced) : Prop where
  desc : d'.theDesc = d.theDesc
  routes : ∀ k, lastRoute d'.theClient k = lastRoute d.theClient k

theorem Alike.view {d d' : EdgeControllerEtsiBalanced} (h : Alike d d') (l : String) :
    view l d' = view l d := by
  rw [EdgeControllerEtsiBalanced.view, h.desc, h.routes]
  rfl

/-- The same for the part of the state that the derived class may change. -/
def OwnAlike (p p' : ExtTreeMap String String × EdgeControllerEtsiBalanced) : Prop :=
  p'.1 = p.1 ∧ Alike p.2 p'.2

instance : Std.Refl OwnAlike := ⟨fun _ => ⟨rfl, rfl, fun _ => rfl⟩⟩

instance : IsTrans _ OwnAlike := ⟨fun _ _ _ h h' => ⟨h'.1.trans h.1, h'.2.desc.trans h.2.desc,
  fun k => (h'.2.routes k).trans (h.2.routes k)⟩⟩

theorem own_send {x : LcmCommand} (hx : ∀ k, route? k x = none) {s s' : State}
    (hok : send x s = .ok () s') : OwnAlike s.own s'.own := by
  obtain ⟨-, rfl⟩ := EStateM.Result.ok.inj hok
  refine ⟨rfl, rfl, fun k => ?_⟩
  change lastRoute (s.theDerived.theClient ++ [x]) k = _
  rw [lastRoute_send, hx k, Option.none_or]
  rfl

theorem keeps_send (x : LcmCommand) : Keeps (send x) :=
  keeps_modify fun d : EdgeControllerEtsiBalanced => { d with theClient := d.theClient ++ [x] }

theorem frames (rel : Bool) : Frames (hooks rel) where
  addComputer c ls := by
    intro s s' hok
    obtain ⟨⟨eps, rfl⟩, _⟩ := addComputer_ok hok
    exact ⟨rfl, rfl⟩
  delComputer c ls := by
    intro s s' hok
    obtain ⟨eps, rfl⟩ := delComputer_ok hok
    exact ⟨rfl, rfl⟩
  addLambda _ := keeps_send _
  delLambda _ := keeps_send _
  privateAnnounceComputer _ _ := keeps_pure
  privateRemoveComputer _ _ := keeps_pure

/-- The base class and the derived one have gone through the same lambdas. -/
structure Changed (f : EdgeControllerEtsiBalanced → String → EdgeControllerEtsiBalanced)
    (x : String → Change String String) (ls : List String) (s s' : State) : Prop where
  computers : s'.theComputers = s.theComputers
  groups : groups s'.theLambdas = applyAll (groups s.theLambdas) (ls.map x)
  occupied : Occupied s'.theLambdas
  derived : ∃ d, Alike s.theDerived d ∧ s'.theDerived = ls.foldl f d

variable {rel : Bool} {c : String} {cs : ContainerList} {s s' : State}

theorem removeComputer_changed (hs : Occupied s.theLambdas)
    (hok : removeComputer (hooks rel) c s = .ok () s') :
    Changed (leaveDesc c) (.leave c) (offers s.theComputers c)
      { s with theComputers := s.theComputers.erase c } s' := by
  obtain ⟨s₁, s₂, hserved, hdel, hremove⟩ := removeComputer_ok (R := OwnAlike) (frames rel)
    (fun l _ _ hok => own_send (fun _ => rfl) hok) hs hok
  obtain ⟨eps, rfl⟩ := delComputer_ok hdel
  obtain ⟨-, rfl⟩ := EStateM.Result.ok.inj hremove
  refine ⟨hserved.computers, hserved.groups, hserved.occupied, _, ?_, rfl⟩
  exact ⟨hserved.own.2.desc, hserved.own.2.routes⟩

theorem notifyComputer_changed (hs : Occupied s.theLambdas)
    (hok : notifyComputer (hooks rel) c cs s = .ok () s') :
    Changed (joinDesc c) (.join c) cs.lambdas s s' ∧ (rel = true ∨ Named c cs.lambdas) := by
  obtain ⟨s₁, s₂, hserved, hadd, hannounce⟩ := notifyComputer_ok (R := OwnAlike) (frames rel)
    (fun l _ _ hok => own_send (fun _ => rfl) hok) hs hok
  obtain ⟨⟨eps, rfl⟩, hnamed⟩ := addComputer_ok hadd
  obtain ⟨-, rfl⟩ := EStateM.Result.ok.inj hannounce
  refine ⟨⟨hserved.computers, hserved.groups, hserved.occupied, _, ?_, rfl⟩, hnamed⟩
  exact ⟨hserved.own.2.desc, hserved.own.2.routes⟩

theorem Changed.leaves {x : String → Change String String} {ls : List String}
    (h : Changed (leaveDesc c) x ls s s') (l : String) : view l s'.theDerived =
      if l ∈ ls then (view l s.theDerived).leave c else view l s.theDerived := by
  obtain ⟨d, halike, hd⟩ := h.derived
  rw [hd, view_leaves, halike.view]

theorem Changed.joins {x : String → Change String String} {ls : List String}
    (h : Changed (joinDesc c) x ls s s') (l : String) : view l s'.theDerived =
      if l ∈ ls then (view l s.theDerived).join c else view l s.theDerived := by
  obtain ⟨d, halike, hd⟩ := h.derived
  rw [hd, view_joins, halike.view]

/-- The descriptors have the computers that theLambdas has, and each lambda has
one of them as its default. In a debug build all names are as asserted. -/
structure Described (rel : Bool) (s : State) : Prop where
  exact : Exact s
  serves : ∀ l e, e ∈ (view l s.theDerived).computers ↔ e ∈ s.served l
  default : ∀ l, (view l s.theDerived).DefaultServes
  named : rel = true ∨
    ∀ (c : String) (cs : ContainerList), s.theComputers[c]? = some cs → Named c cs.lambdas

theorem Described.new (rel : Bool) : Described rel new where
  exact := Exact.new _
  serves l e := by
    simp [EdgeControllerEtsiBalanced.new, EdgeController.new, served, View.computers, view]
  default l x hx := by
    simp [EdgeControllerEtsiBalanced.new, EdgeController.new, view] at hx
  named := .inr fun c cs hc => by
    simp [EdgeControllerEtsiBalanced.new, EdgeController.new] at hc

theorem served_iff {s : State} {l e : String} : e ∈ s.served l ↔ e ∈ groups s.theLambdas l :=
  mem_groups.symm

theorem Described.removed (h : Described rel s) (hok : removeComputer (hooks rel) c s = .ok () s') :
    Described rel s' := by
  have hc := removeComputer_changed h.exact.occupied hok
  have hview := hc.leaves
  constructor
  · exact h.exact.changed (x := .removeComputer c) hc.computers hc.groups hc.occupied
  · intro l e
    rw [served_iff, hc.groups, mem_leaves, hview, ← served_iff]
    have hserves := h.serves l e
    split
    · next hl =>
      rw [View.mem_leave, hserves]
      simp only [hl, and_true]
      exact and_comm
    · next hl =>
      rw [hserves]
      simp only [hl, and_false, not_false_eq_true, and_true]
      rfl
  · intro l
    rw [hview]
    split
    · exact (h.default l).leave c
    · exact h.default l
  · refine h.named.imp_right fun hnamed c' cs' hc' => ?_
    rw [hc.computers, lookup_erase] at hc'
    split at hc'
    · cases hc'
    · exact hnamed c' cs' hc'

theorem Described.notified (h : Described rel s) (hc : s.theComputers[c]? = none)
    (hok : notifyComputer (hooks rel) c cs { s with theComputers := s.theComputers.insert c cs } =
      .ok () s') : Described rel s' := by
  let s₀ : State := { s with theComputers := s.theComputers.insert c cs }
  obtain ⟨hchanged, hnames⟩ := notifyComputer_changed (s := s₀) h.exact.occupied hok
  have hview := hchanged.joins
  constructor
  · refine h.exact.changed (x := .announceComputer c cs) hchanged.computers ?_ hchanged.occupied
    have hoffers : offers s.theComputers c = [] := by rw [offers, hc]; rfl
    rw [ComputerCall.changes, hc, if_neg (Option.some_ne_none cs).symm, hoffers]
    exact hchanged.groups
  · intro l e
    have hserves := h.serves l e
    have hgroups : e ∈ s'.served l ↔ e ∈ s.served l ∨ e = c ∧ l ∈ cs.lambdas := by
      rw [served_iff, hchanged.groups, mem_joins]
      exact or_congr_left served_iff.symm
    rw [hgroups, hview]
    split
    · next hl =>
      rw [View.mem_join, hserves]
      simp only [hl, and_true]
      exact or_comm
    · next hl =>
      rw [hserves]
      simp only [hl, and_false, or_false]
  · intro l
    rw [hview]
    split
    · exact (h.default l).join c
    · exact h.default l
  · rcases h.named with hrel | hnamed
    · exact .inl hrel
    · refine hnames.imp_right fun hnames c' cs' hc' => ?_
      rw [hchanged.computers] at hc'
      change (s.theComputers.insert c cs)[c']? = some cs' at hc'
      rw [lookup_insert] at hc'
      split at hc'
      · next heq =>
        cases hc'
        rw [heq]
        exact hnames
      · exact hnamed c' cs' hc'

/-- What every join and leave preserves, a call about a computer preserves. -/
theorem serve_view {P : View → Prop} (hjoin : ∀ v c, P v → P (v.join c))
    (hleave : ∀ v c, P v → P (v.leave c)) (h : Described rel s) {x : ComputerCall}
    (hok : x.serve (hooks rel) s = .ok () s') {l : String} (hP : P (view l s.theDerived)) :
    P (view l s'.theDerived) := by
  have hremoved {c : String} {s₁ : State} (hok : removeComputer (hooks rel) c s = .ok () s₁) :
      P (view l s₁.theDerived) := by
    have hview := (removeComputer_changed h.exact.occupied hok).leaves l
    rw [hview]
    split
    · exact hleave _ _ hP
    · exact hP
  have hnotified {c : String} {cs : ContainerList} {s₁ : State} {m : ExtTreeMap String ContainerList}
      (hs : Occupied s₁.theLambdas) (hP : P (view l s₁.theDerived))
      (hok : notifyComputer (hooks rel) c cs { s₁ with theComputers := m } = .ok () s') :
      P (view l s'.theDerived) := by
    let s₀ : State := { s₁ with theComputers := m }
    have hview := (notifyComputer_changed (s := s₀) hs hok).1.joins l
    rw [hview]
    split
    · exact hjoin _ _ hP
    · exact hP
  cases x with
  | removeComputer c => exact hremoved hok
  | announceComputer c cs =>
    rcases announceComputer_cases (frames rel) h.exact.occupied hok with ⟨_, rfl⟩ | ⟨_, hok⟩ |
      ⟨_, s₁, _, _, hremove, _, hoccupied, hok⟩
    · exact hP
    · exact hnotified h.exact.occupied hP hok
    · exact hnotified hoccupied (hremoved hremove) hok

theorem Described.serve (h : Described rel s) {x : ComputerCall}
    (hok : x.serve (hooks rel) s = .ok () s') : Described rel s' := by
  cases x with
  | removeComputer c => exact h.removed hok
  | announceComputer c cs =>
    rcases announceComputer_cases (frames rel) h.exact.occupied hok with ⟨_, rfl⟩ | ⟨hc, hok⟩ |
      ⟨_, s₁, _, _, hremove, hcomputers, _, hok⟩
    · exact h
    · exact h.notified hc hok
    · have hgone : s₁.theComputers[c]? = none := by rw [hcomputers, lookup_erase, if_pos rfl]
      rw [← insert_erase, ← hcomputers] at hok
      exact (h.removed hremove).notified hgone hok

/-- Names that are neither empty nor repeated. -/
def WellNamed : ComputerCall → Prop
  | .announceComputer c cs => Named c cs.lambdas
  | .removeComputer c => c ≠ ""

theorem not_mem_offers {m : ExtTreeMap String ContainerList} (hc : m[c]? = none) (l : String) :
    l ∉ offers m c := by
  rw [offers, hc]
  exact List.not_mem_nil

/-- The computers of a descriptor are those that offer its lambda. -/
theorem Described.mem_computers (h : Described rel s) {l e : String} :
    e ∈ (view l s.theDerived).computers ↔ l ∈ offers s.theComputers e :=
  (h.serves l e).trans (h.exact.serves l e)

theorem Described.removeComputer_returns (h : Described rel s) (hc : rel = true ∨ c ≠ "") :
    ∃ s', removeComputer (hooks rel) c s = .ok () s' := by
  let s₀ : State := { s with theComputers := s.theComputers.erase c }
  obtain ⟨_, s₁, hunmarks⟩ := returns_forM (returns_unmarkServed (h := hooks rel)
    (fun l => returns_modify _) c) (offers s.theComputers c) s₀
  have hserved := unmarks_ok (s := s₀) (R := OwnAlike) (frames rel)
    (fun l _ _ hok => own_send (fun _ => rfl) hok) h.exact.occupied hunmarks
  have hview (l : String) : view l s₁.theDerived = view l s.theDerived := hserved.own.2.view l
  have hnames : rel = true ∨ Named c (offers s.theComputers c) ∧
      ∀ l ∈ offers s.theComputers c, c ∈ (view l s₁.theDerived).computers ∧
        "" ∉ (view l s₁.theDerived).computers := by
    rcases hc with hc | hc
    · exact .inl hc
    refine h.named.imp_right fun hnamed => ⟨?_, fun l hl => ?_⟩
    · cases hcs : s.theComputers[c]? with
      | none =>
        rw [offers, hcs]
        exact ⟨hc, List.nodup_nil, fun l hl => absurd hl List.not_mem_nil⟩
      | some cs =>
        rw [offers, hcs]
        exact hnamed c cs hcs
    · rw [hview, h.mem_computers, h.mem_computers]
      refine ⟨hl, fun hempty => ?_⟩
      obtain ⟨cs, hcs, _⟩ := mem_offers.mp hempty
      exact (hnamed "" cs hcs).1 rfl
  obtain ⟨s', hdel⟩ := delComputer_returns hnames
  refine ⟨s', ?_⟩
  rw [removeComputer_eq]
  exact (bind_of_ok hunmarks _).trans (bind_of_ok hdel _)

theorem Described.notifyComputer_returns (h : Described rel s) (hc : s.theComputers[c]? = none)
    (hnamed : rel = true ∨ Named c cs.lambdas) : ∃ s', notifyComputer (hooks rel) c cs
      { s with theComputers := s.theComputers.insert c cs } = .ok () s' := by
  let s₀ : State := { s with theComputers := s.theComputers.insert c cs }
  obtain ⟨_, s₁, hmarks⟩ := returns_forM (returns_markServed (h := hooks rel)
    (fun l => returns_modify _) c) cs.lambdas s₀
  have hserved := marks_ok (s := s₀) (R := OwnAlike) (frames rel)
    (fun l _ _ hok => own_send (fun _ => rfl) hok) h.exact.occupied hmarks
  have hview (l : String) : view l s₁.theDerived = view l s.theDerived := hserved.own.2.view l
  obtain ⟨s', hadd⟩ := addComputer_returns (s := s₁) (hnamed.imp_right fun hnamed =>
    ⟨hnamed, fun l _ hmem => not_mem_offers hc l (h.mem_computers.mp (hview l ▸ hmem))⟩)
    fun l => hview l ▸ h.default l
  exact ⟨s', (bind_of_ok hmarks _).trans (bind_of_ok hadd _)⟩

/-- With well-formed names no assertion is violated. -/
theorem Described.serve_returns (h : Described rel s) {x : ComputerCall}
    (hx : rel = true ∨ WellNamed x) : ∃ s', x.serve (hooks rel) s = .ok () s' := by
  have hnew {s : State} {c : String} {cs : ContainerList} (h : Described rel s)
      (hc : s.theComputers[c]? = none) (hnamed : rel = true ∨ Named c cs.lambdas) :
      ∃ s', announceComputer (hooks rel) c cs s = .ok () s' := by
    rw [announceComputer_new _ hc]
    exact h.notifyComputer_returns hc hnamed
  cases x with
  | removeComputer c => exact h.removeComputer_returns hx
  | announceComputer c cs =>
    cases hc : s.theComputers[c]? with
    | none => exact hnew h hc hx
    | some cs' =>
      by_cases hsame : cs' = cs
      · subst hsame
        exact ⟨s, announceComputer_again _ hc⟩
      · obtain ⟨s₁, hremove⟩ := h.removeComputer_returns (hx.imp_right And.left)
        have hcomputers := (computers_of_removeComputer (frames rel) h.exact.occupied hremove).1
        have hgone : s₁.theComputers[c]? = none := by rw [hcomputers, lookup_erase, if_pos rfl]
        obtain ⟨s', hok⟩ := hnew (h.removed hremove) hgone hx
        refine ⟨s', (announceComputer_changed _ hc hsame).trans ?_⟩
        refine (bind_of_ok hremove _).trans ?_
        rw [addNotify_eq _ hgone]
        exact hok

/-- A run with well-formed names ends, and preserves what joins and leaves do. -/
theorem run_view {calls : List ComputerCall} (hcalls : ∀ x ∈ calls, WellNamed x)
    (h : Described false s) :
    ∃ s', Runs.final (step false) (some s) (calls.map .computer) = some s' ∧ Described false s' ∧
      ∀ P : View → Prop, (∀ v c, P v → P (v.join c)) → (∀ v c, P v → P (v.leave c)) →
        ∀ l, P (view l s.theDerived) → P (view l s'.theDerived) := by
  induction calls generalizing s with
  | nil => exact ⟨s, rfl, h, fun _ _ _ _ hP => hP⟩
  | cons x calls ih =>
    obtain ⟨hx, hcalls⟩ := List.forall_mem_cons.mp hcalls
    obtain ⟨s₁, hok⟩ := h.serve_returns (.inr hx)
    obtain ⟨s', hrun, hdescribed, hview⟩ := ih hcalls (h.serve hok)
    have hstep : step false (some s) (.computer x) = some s₁ := by
      simp only [step, EdgeControllerEtsiBalanced.serve, hok]
    refine ⟨s', ?_, hdescribed, fun P hjoin hleave l hP => ?_⟩
    · rw [List.map_cons, Runs.final, List.foldl_cons, hstep]
      exact hrun
    · exact hview P hjoin hleave l (serve_view hjoin hleave h hok hP)

/-- Once the proxy has been told of a lambda, it has. -/
theorem told_join (v : View) (c : String) (h : v.theRoute ≠ none) : (v.join c).theRoute ≠ none := by
  cases hv : v.theDesc with
  | none => simp only [View.join, hv, ne_eq, reduceCtorEq, not_false_eq_true]
  | some x =>
    simp only [View.join, hv]
    exact h

theorem told_leave (v : View) (c : String) (h : v.theRoute ≠ none) :
    (v.leave c).theRoute ≠ none := by
  cases hv : v.theDesc with
  | none =>
    simp only [View.leave, hv]
    exact h
  | some x =>
    simp only [View.leave, hv]
    split
    · exact h
    · split
      · split <;> exact Option.some_ne_none _
      · exact h

/-- The descriptor of a lambda has the row of theLambdas. -/
theorem Described.desc_eq (h : Described rel s) (l : String) :
    s.theDerived.theDesc[l]?.map Desc.theComputers = s.theLambdas[l]? := by
  have hrow : ∀ e, e ∈ (view l s.theDerived).computers ↔ e ∈ s.served l := h.serves l
  rw [served, ExtTreeMap.getD_eq_getD_getElem?, View.computers, view] at hrow
  cases hd : s.theDerived.theDesc[l]? with
  | none =>
    cases hl : s.theLambdas[l]? with
    | none => rfl
    | some r =>
      rw [hd, hl] at hrow
      have hempty : r.isEmpty = true :=
        set_isEmpty_iff.mpr fun e he => ExtTreeSet.not_mem_empty ((hrow e).mpr he)
      rw [h.exact.occupied l r hl] at hempty
      cases hempty
  | some x =>
    have hdefault := h.default l x hd
    cases hl : s.theLambdas[l]? with
    | none =>
      rw [hd, hl] at hrow
      exact absurd ((hrow _).mp hdefault) ExtTreeSet.not_mem_empty
    | some r =>
      rw [hd, hl] at hrow
      exact congrArg some (ExtTreeSet.ext_mem fun {e} => hrow e)

/-- After every sequence of calls with well-formed names no assertion has been
violated, the descriptors are those of theLambdas, and the last command about the
default route of a lambda names its default, or takes it back if it is gone. -/
theorem descriptors_follow_lambdas {calls : List ComputerCall} (hcalls : ∀ x ∈ calls, WellNamed x) :
    ∃ s, Runs.final (step false) (some new) (calls.map .computer) = some s ∧
      (∀ l : String, s.theDerived.theDesc[l]?.map Desc.theComputers = s.theLambdas[l]?) ∧
      (∀ (l : String) (x : Desc), s.theDerived.theDesc[l]? = some x → x.theDefault ∈ x.theComputers ∧
        lastRoute s.theDerived.theClient ("", l) = some (some x.theDefault)) ∧
      ∀ (l : String) (t : State),
        some t ∈ Runs.states (step false) (some new) (calls.map .computer) →
        l ∈ t.theLambdas → l ∉ s.theLambdas →
        lastRoute s.theDerived.theClient ("", l) = some none := by
  have hstart (l : String) : (view l new.theDerived).Routed := by
    simp [EdgeControllerEtsiBalanced.new, EdgeController.new, view, View.Routed, lastRoute]
  obtain ⟨s, hrun, hs, hview⟩ := run_view hcalls (Described.new false)
  have hrouted (l : String) : (view l s.theDerived).Routed :=
    hview View.Routed (fun _ c h => h.join c) (fun _ c h => h.leave c) l (hstart l)
  refine ⟨s, hrun, hs.desc_eq, fun l x hx => ⟨hs.default l x hx, ?_⟩, fun l t ht hl hgone => ?_⟩
  · have h := hrouted l
    simp only [View.Routed, view, hx] at h
    exact h
  · obtain ⟨pre, ⟨post, hpost⟩, hpre⟩ := Runs.mem_states_iff.mp ht
    obtain ⟨before, after, rfl, rfl, rfl⟩ := List.map_eq_append_iff.mp hpost.symm
    obtain ⟨hbefore, hafter⟩ := List.forall_mem_append.mp hcalls
    obtain ⟨t', hrun', ht', hview'⟩ := run_view hbefore (Described.new false)
    rw [hrun'] at hpre
    obtain rfl := Option.some.inj hpre
    obtain ⟨s', hrun'', _, hview''⟩ := run_view hafter ht'
    rw [List.map_append, Runs.final_append, hrun', hrun''] at hrun
    obtain rfl := Option.some.inj hrun
    -- the lambda is present in t, so that the proxy has been told of it
    have htold : (view l t.theDerived).theRoute ≠ none := by
      have h := hview' View.Routed (fun _ c h => h.join c) (fun _ c h => h.leave c) l (hstart l)
      obtain ⟨r, hr⟩ := lookup_of_mem hl
      obtain ⟨x, hx, _⟩ := Option.map_eq_some_iff.mp ((ht'.desc_eq l).trans hr)
      simp only [View.Routed, view, hx] at h
      rw [view, h]
      exact Option.some_ne_none _
    have hstill := hview'' (fun v => v.theRoute ≠ none) told_join told_leave l htold
    have hlost := hrouted l
    have hnone : s'.theDerived.theDesc[l]? = none := by
      rw [← Option.map_eq_none_iff, hs.desc_eq l]
      exact ExtTreeMap.getElem?_eq_none hgone
    simp only [View.Routed, view, hnone] at hlost
    exact hlost.resolve_left hstill

/-- A computer with one container for each lambda. -/
def announce (aEndpoint : String) (aLambdas : List String) : ComputerCall :=
  .announceComputer aEndpoint ⟨aLambdas.map fun l => ⟨l, "cpu", l, 1⟩⟩

/-- The default of l goes from a to b when the containers of a change, and is
taken back with b. -/
def exampleRun : List ComputerCall :=
  [announce "a" ["l", "m"], announce "b" ["l"], announce "a" ["m", "k"], .removeComputer "b"]

theorem descriptors_follow_lambdas_example :
    ∃ s, Runs.final (step false) (some new) (exampleRun.map .computer) = some s ∧
      (∀ l : String, s.theDerived.theDesc[l]?.map Desc.theComputers = s.theLambdas[l]?) ∧
      lastRoute s.theDerived.theClient ("", "l") = some none ∧
      lastRoute s.theDerived.theClient ("", "m") = some (some "a") := by
  have hnamed : ∀ x ∈ exampleRun, WellNamed x := by
    simp [exampleRun, announce, WellNamed, Named, ContainerList.lambdas]
  obtain ⟨s, hrun, hdesc, _, _⟩ := descriptors_follow_lambdas hnamed
  have hroutes : (Runs.final (step false) (some new) (exampleRun.map .computer)).map (fun s =>
      (lastRoute s.theDerived.theClient ("", "l"), lastRoute s.theDerived.theClient ("", "m"))) =
      some (some none, some (some "a")) := by
    decide +kernel
  rw [hrun] at hroutes
  obtain ⟨hl, hm⟩ := Prod.mk.inj (Option.some.inj hroutes)
  exact ⟨s, hrun, hdesc, hl, hm⟩

/-- With an empty end-point the first assertion is violated. -/
theorem assertion_of_empty_endpoint : ¬ ∀ calls : List ComputerCall,
    (∀ c cs, .announceComputer c cs ∈ calls → cs.lambdas.Nodup) →
    Runs.final (step false) (some new) (calls.map .computer) ≠ none := by
  intro h
  refine h [announce "" ["l"]] (fun c cs hmem => ?_) ?_
  · obtain ⟨-, rfl⟩ := ComputerCall.announceComputer.inj (List.mem_singleton.mp hmem)
    exact List.nodup_singleton "l"
  · have hdead : (Runs.final (step false) (some new) ([announce "" ["l"]].map .computer)).isNone := by
      decide +kernel
    exact Option.isNone_iff_eq_none.mp hdead

end ServerlessEdge.Controller.EdgeControllerEtsiBalanced
