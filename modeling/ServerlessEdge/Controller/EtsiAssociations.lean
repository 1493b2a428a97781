import ServerlessEdge.Controller.EtsiDefaults

/-! The associations that the LCM proxy holds, and when one of them is left to a
computer that is gone. -/
namespace ServerlessEdge.Controller.EdgeControllerEtsiBalanced
open Std Library Maps Groups Triple EdgeController

/-- The end-point associated to each client and lambda; the default ones are
those of the empty client address. -/
abbrev Associations := String × String → Option String

def carryOut (m : Associations) : LcmCommand → Associations
  | .associateAddress c l e => Function.update m (c, l) (some e)
  | .removeAddress c l => Function.update m (c, l) none
  | _ => m

/-- The associations of a proxy that had none before the commands. -/
def associations (aCommands : List LcmCommand) : Associations :=
  aCommands.foldl carryOut fun _ => none

theorem carryOut_eq (m : Associations) (x : LcmCommand) (k : String × String) :
    carryOut m x k = (route? k x).getD (m k) := by
  cases x with
  | associateAddress c l e =>
    by_cases hk : k = (c, l)
    · subst hk
      simp [carryOut, route?]
    · simp [carryOut, route?, hk, Ne.symm hk]
  | removeAddress c l =>
    by_cases hk : k = (c, l)
    · subst hk
      simp [carryOut, route?]
    · simp [carryOut, route?, hk, Ne.symm hk]
  | addLambda l => rfl
  | delLambda l => rfl

/-- The last command decides. -/
theorem associations_eq (xs : List LcmCommand) (k : String × String) :
    associations xs k = (lastRoute xs k).getD none := by
  induction xs using List.reverseRecOn with
  | nil => rfl
  | append_singleton xs x ih =>
    rw [associations, List.foldl_append, List.foldl_cons, List.foldl_nil, carryOut_eq,
      lastRoute_send]
    have hrest : xs.foldl carryOut (fun _ => none) k = (lastRoute xs k).getD none := ih
    rw [hrest]
    cases route? k x <;> rfl

theorem route_of_association {xs : List LcmCommand} {k : String × String} {e : String}
    (h : associations xs k = some e) : lastRoute xs k = some (some e) := by
  rw [associations_eq] at h
  cases hr : lastRoute xs k with
  | none =>
    rw [hr] at h
    cases h
  | some r =>
    rw [hr] at h
    exact congrArg some h

theorem association_of_route {xs : List LcmCommand} {k : String × String} {r : Option String}
    (h : lastRoute xs k = some r) : associations xs k = r := by
  rw [associations_eq, h]
  rfl

section Individual

variable {k : String × String} (hk : k.1 ≠ "")
include hk

theorem not_default (l : String) : ("", l) ≠ k := fun h => hk (h ▸ rfl)

/-- Descriptors are about default routes only. -/
theorem route_joins (c : String) (ls : List String) (d : EdgeControllerEtsiBalanced) :
    lastRoute (ls.foldl (joinDesc c) d).theClient k = lastRoute d.theClient k := by
  induction ls generalizing d with
  | nil => rfl
  | cons l ls ih =>
    rw [List.foldl_cons, ih, joinDesc]
    split
    · rw [lastRoute_send, route?, if_neg (not_default hk l)]
      rfl
    · rfl

theorem route_leaves (c : String) (ls : List String) (d : EdgeControllerEtsiBalanced) :
    lastRoute (ls.foldl (leaveDesc c) d).theClient k = lastRoute d.theClient k := by
  induction ls generalizing d with
  | nil => rfl
  | cons l ls ih =>
    rw [List.foldl_cons, ih, leaveDesc]
    split
    · rfl
    · split
      · rfl
      · split
        · split
          · rw [lastRoute_send, route?, if_neg (not_default hk l)]
            rfl
          · rw [lastRoute_send, route?, if_neg (not_default hk l)]
            rfl
        · rfl

end Individual

namespace View

/-- Another default is elected when the one of the lambda leaves. -/
theorem route_leave_default {c : String} {v : View} {x : Desc} (hx : v.theDesc = some x)
    (hc : x.theDefault = c) (hmem : c ∈ x.theComputers) : (v.leave c).theRoute = some none ∨
      ∃ e, (v.leave c).theRoute = some (some e) ∧ e ≠ c ∧ e ∈ x.theComputers := by
  have hleave : (v.leave c).theRoute = some (x.theComputers.erase c).toList.head? := by
    simp only [leave, hx, hmem, not_true_eq_false, if_false, if_pos hc]
    split <;> next hfirst => rw [hfirst]
  rw [hleave]
  cases hfirst : (x.theComputers.erase c).toList.head? with
  | none => exact .inl rfl
  | some e => exact .inr ⟨e, rfl, mem_set_erase.mp (mem_of_first hfirst)⟩

theorem route_leave_other {c : String} {v : View}
    (h : ∀ x : Desc, v.theDesc = some x → x.theDefault ≠ c) : (v.leave c).theRoute = v.theRoute := by
  cases hv : v.theDesc with
  | none => simp only [leave, hv]
  | some x =>
    simp only [leave, hv, if_neg (h x hv)]
    split <;> rfl

end View

/-- No association is to a computer that is not there. -/
def NoStale (s : State) : Prop := ∀ (client l e : String),
  associations s.theDerived.theClient (client, l) = some e → e ∈ s.theComputers

/-- The only associations to a computer are the default ones of the lambdas whose
default it currently is. -/
def OnlyDefault (s : State) (c : String) : Prop := ∀ client l : String,
  associations s.theDerived.theClient (client, l) = some c →
    client = "" ∧ ∃ x : Desc, s.theDerived.theDesc[l]? = some x ∧ x.theDefault = c

variable {rel : Bool} {c : String} {s s' : State}

theorem Described.registered (h : Described rel s) {l e : String} {x : Desc}
    (hx : s.theDerived.theDesc[l]? = some x) (he : e ∈ x.theComputers) : e ∈ s.theComputers := by
  have hmem : e ∈ (view l s.theDerived).computers := by
    rw [View.computers, view, hx]
    exact he
  obtain ⟨cs, hcs, _⟩ := mem_offers.mp (h.mem_computers.mp hmem)
  exact mem_of_lookup hcs

/-- What a removal does to the association of a client and a lambda. -/
theorem association_removed (h : Described rel s)
    (hok : removeComputer (hooks rel) c s = .ok () s') (client l : String) :
    (associations s'.theDerived.theClient (client, l) =
        associations s.theDerived.theClient (client, l) ∧
      ¬ (client = "" ∧ ∃ x : Desc, s.theDerived.theDesc[l]? = some x ∧ x.theDefault = c)) ∨
    ((client = "" ∧ ∃ x : Desc, s.theDerived.theDesc[l]? = some x ∧ x.theDefault = c) ∧
      ∀ e, associations s'.theDerived.theClient (client, l) = some e →
        e ≠ c ∧ e ∈ s.theComputers) := by
  have hchanged := removeComputer_changed h.exact.occupied hok
  by_cases hclient : client = ""
  · subst hclient
    have hroute : lastRoute s'.theDerived.theClient ("", l) = (view l s'.theDerived).theRoute := rfl
    rw [associations_eq, associations_eq, hroute, hchanged.leaves l]
    by_cases hdefault : ∃ x : Desc, s.theDerived.theDesc[l]? = some x ∧ x.theDefault = c
    · refine .inr ⟨⟨rfl, hdefault⟩, fun e he => ?_⟩
      obtain ⟨x, hx, hxc⟩ := hdefault
      have hmem : c ∈ x.theComputers := hxc ▸ h.default l x hx
      have hl : l ∈ offers s.theComputers c := h.mem_computers.mp (by
        rw [View.computers, view, hx]
        exact hmem)
      rw [if_pos hl] at he
      rcases View.route_leave_default (v := view l s.theDerived) hx hxc hmem with hnone | ⟨e', he', hne, hin⟩
      · rw [hnone] at he
        cases he
      · rw [he'] at he
        cases he
        exact ⟨hne, h.registered hx hin⟩
    · refine .inl ⟨?_, fun hand => hdefault hand.2⟩
      split
      · rw [View.route_leave_other (v := view l s.theDerived) fun x hx hxc => hdefault ⟨x, hx, hxc⟩]
        rfl
      · rfl
  · refine .inl ⟨?_, fun hand => hclient hand.1⟩
    obtain ⟨d, halike, hd⟩ := hchanged.derived
    rw [associations_eq, associations_eq, hd, route_leaves hclient, halike.routes]

/-- A removal leaves no stale association exactly if the computer is at most a
default one. -/
theorem noStale_removed (h : Described rel s) (hs : NoStale s)
    (hok : removeComputer (hooks rel) c s = .ok () s') : NoStale s' ↔ OnlyDefault s c := by
  have hcomputers (e : String) : e ∈ s'.theComputers ↔ e ≠ c ∧ e ∈ s.theComputers := by
    rw [(computers_of_removeComputer (frames rel) h.exact.occupied hok).1, mem_erase]
  constructor
  · intro hs' client l hc
    rcases association_removed h hok client l with ⟨hsame, _⟩ | ⟨hdefault, _⟩
    · exact absurd rfl ((hcomputers c).mp (hs' client l c (hsame.trans hc))).1
    · exact hdefault
  · intro honly client l e he
    rw [hcomputers]
    rcases association_removed h hok client l with ⟨hsame, hother⟩ | ⟨_, hnew⟩
    · rw [hsame] at he
      refine ⟨?_, hs client l e he⟩
      rintro rfl
      exact hother (honly client l he)
    · exact hnew e he

/-- An announcement only associates the computer announced. -/
theorem association_notified {cs : ContainerList} {m : ExtTreeMap String ContainerList}
    (hs : Occupied s.theLambdas)
    (hok : notifyComputer (hooks rel) c cs { s with theComputers := m } = .ok () s')
    {client l e : String} (he : associations s'.theDerived.theClient (client, l) = some e) :
    e = c ∨ associations s.theDerived.theClient (client, l) = some e := by
  let s₀ : State := { s with theComputers := m }
  have hchanged := (notifyComputer_changed (s := s₀) hs hok).1
  rw [associations_eq] at he ⊢
  by_cases hclient : client = ""
  · subst hclient
    have hview := hchanged.joins l
    have hroute : lastRoute s'.theDerived.theClient ("", l) = (view l s'.theDerived).theRoute := rfl
    rw [hroute, hview] at he
    split at he
    · cases hx : (view l s₀.theDerived).theDesc with
      | none =>
        simp only [View.join, hx] at he
        exact .inl (Option.some.inj he).symm
      | some x =>
        simp only [View.join, hx] at he
        exact .inr he
    · exact .inr he
  · obtain ⟨d, halike, hd⟩ := hchanged.derived
    rw [hd, route_joins hclient, halike.routes] at he
    exact .inr he

theorem noStale_announced (h : Described rel s) (hs : NoStale s) {cs : ContainerList}
    (hok : announceComputer (hooks rel) c cs s = .ok () s') : NoStale s' := by
  have hnotified {s₁ : State} (hoccupied : Occupied s₁.theLambdas)
      (hs₁ : ∀ client l e : String, associations s₁.theDerived.theClient (client, l) = some e →
        e ∈ s.theComputers)
      (hok : notifyComputer (hooks rel) c cs { s₁ with theComputers := s.theComputers.insert c cs } =
        .ok () s') : NoStale s' := by
    intro client l e he
    let s₀ : State := { s₁ with theComputers := s.theComputers.insert c cs }
    rw [(notifyComputer_changed (s := s₀) hoccupied hok).1.computers]
    apply mem_insert.mpr
    exact (association_notified hoccupied hok he).imp_right (hs₁ client l e)
  rcases announceComputer_cases (frames rel) h.exact.occupied hok with ⟨_, rfl⟩ | ⟨_, hok⟩ |
    ⟨_, s₁, _, _, hremove, _, hoccupied, hok⟩
  · exact hs
  · exact hnotified h.exact.occupied hs hok
  · refine hnotified hoccupied (fun client l e he => ?_) hok
    rcases association_removed h hremove client l with ⟨hsame, _⟩ | ⟨_, hnew⟩
    · exact hs client l e (hsame ▸ he)
    · exact (hnew e he).2

section Optimization

def rowCommand (x : String × String × String) : LcmCommand := .associateAddress x.1 x.2.1 x.2.2

theorem sends_ok (xs : List (String × String × String)) (s : State) :
    xs.forM (fun x => send (.associateAddress x.1 x.2.1 x.2.2)) s = .ok () (withBalanced s
      { s.theDerived with theClient := s.theDerived.theClient ++ xs.map rowCommand }) := by
  induction xs generalizing s with
  | nil =>
    rw [List.map_nil, List.append_nil]
    rfl
  | cons x xs ih =>
    let s₁ : State := withBalanced s
      { s.theDerived with theClient := s.theDerived.theClient ++ [rowCommand x] }
    refine (bind_of_ok (show send _ s = .ok () s₁ from rfl) _).trans ((ih s₁).trans ?_)
    rw [List.map_cons, ← List.singleton_append, ← List.append_assoc]
    rfl

/-- An optimization only adds associations of the new table. -/
theorem optimize_eq (t : Table) (s : State) : ∃ last rows : Table,
    optimize t s = .ok () (withBalanced s { s.theDerived with
      theLastTableReceived := last
      theClient := s.theDerived.theClient ++ rows.map rowCommand }) ∧
    ∀ x ∈ rows, x ∈ table last s.theDerived.theDesc := by
  by_cases hsame : t = s.theDerived.theLastTableReceived
  · refine ⟨s.theDerived.theLastTableReceived, [], ?_, nofun⟩
    rw [optimize, get_bind_apply, if_pos hsame, List.map_nil, List.append_nil]
    rfl
  · refine ⟨t, table t s.theDerived.theDesc, ?_, fun x hx => hx⟩
    rw [optimize, get_bind_apply, if_neg hsame]
    exact sends_ok _ (withBalanced s { s.theDerived with theLastTableReceived := t })

theorem route_of_rows {rows : List (String × String × String)} {k : String × String}
    {r : Option String} (h : lastRoute (rows.map rowCommand) k = some r) :
    ∃ e, r = some e ∧ (k.1, k.2, e) ∈ rows := by
  obtain ⟨x, hx, hr⟩ := List.mem_filterMap.mp (List.mem_of_getLast? h)
  obtain ⟨row, hrow, rfl⟩ := List.mem_map.mp hx
  rw [rowCommand, route?] at hr
  split at hr
  · next hk =>
    cases hr
    subst hk
    exact ⟨row.2.2, rfl, hrow⟩
  · cases hr

theorem Described.optimized (h : Described rel s) {t : Table} (hok : optimize t s = .ok () s') :
    Described rel s' := by
  obtain ⟨last, rows, hopt, _⟩ := optimize_eq t s
  rw [hopt] at hok
  obtain ⟨-, rfl⟩ := EStateM.Result.ok.inj hok
  exact ⟨⟨h.exact.serves, h.exact.occupied⟩, h.serves, h.default, h.named⟩

theorem noStale_optimized (h : Described rel s) (hs : NoStale s) {t : Table}
    (hok : optimize t s = .ok () s') : NoStale s' := by
  obtain ⟨last, rows, hopt, hrows⟩ := optimize_eq t s
  rw [hopt] at hok
  obtain ⟨-, rfl⟩ := EStateM.Result.ok.inj hok
  intro client l e he
  have hroute := route_of_association he
  change lastRoute (s.theDerived.theClient ++ rows.map rowCommand) (client, l) = _ at hroute
  rw [lastRoute_append] at hroute
  cases hnew : lastRoute (rows.map rowCommand) (client, l) with
  | none =>
    rw [hnew, Option.none_or] at hroute
    exact hs client l e (association_of_route hroute)
  | some r =>
    rw [hnew, Option.some_or] at hroute
    obtain ⟨e', he', hmem⟩ := route_of_rows hnew
    cases he'.symm.trans (Option.some.inj hroute)
    obtain ⟨x, hx, hin⟩ := serves_of_mem_table (hrows _ hmem)
    exact h.registered hx hin

end Optimization

/-- When a computer is removed, no association to it has been left by an
optimization. -/
def RemovesDefaults (o : Option State) (x : Call) : Prop :=
  ∀ s c, o = some s → x = .computer (.removeComputer c) → OnlyDefault s c

/-- What holds of a process that is still there. -/
def Alive (P : State → Prop) (o : Option State) : Prop := ∀ s, o = some s → P s

theorem alive_described (rel : Bool) (o : Option State) (x : Call)
    (h : Alive (Described rel) o) : Alive (Described rel) (step rel o x) := by
  intro s' hs'
  cases o with
  | none => cases hs'
  | some s =>
    rw [step] at hs'
    split at hs'
    · next hok =>
      cases hs'
      cases x with
      | computer x => exact (h s rfl).serve hok
      | optimize t => exact (h s rfl).optimized hok
    · cases hs'

/-- One step leaves no stale association exactly if it removes defaults only. -/
theorem step_noStale_iff (rel : Bool) (o : Option State) (x : Call)
    (h : Alive (fun s => Described rel s ∧ NoStale s) o) :
    Alive (fun s => Described rel s ∧ NoStale s) (step rel o x) ↔ RemovesDefaults o x := by
  have hdescribed := alive_described rel o x fun s hs => (h s hs).1
  cases o with
  | none => exact ⟨fun _ _ _ => nofun, fun _ _ => nofun⟩
  | some s =>
    obtain ⟨hs, hclean⟩ := h s rfl
    have hsome {s' : State} (hok : EdgeControllerEtsiBalanced.serve rel x s = .ok () s') :
        step rel (some s) x = some s' := by
      rw [step, hok]
    constructor
    · rintro hafter _ c ⟨⟩ rfl
      by_cases hc : rel = true ∨ c ≠ ""
      · obtain ⟨s', hok⟩ := hs.removeComputer_returns hc
        exact (noStale_removed hs hclean hok).mp (hafter s' (hsome hok)).2
      · -- a debug build has never known a computer without a name
        intro client l he
        obtain ⟨hrel, hc⟩ := not_or.mp hc
        obtain rfl := not_not.mp hc
        obtain ⟨cs, hcs⟩ := lookup_of_mem (hclean client l "" he)
        exact absurd rfl ((hs.named.resolve_left hrel) "" cs hcs).1
    · intro hremoves s' hs'
      refine ⟨hdescribed s' hs', ?_⟩
      rw [step] at hs'
      split at hs'
      · next hok =>
        cases hs'
        cases x with
        | optimize t => exact noStale_optimized hs hclean hok
        | computer x =>
          cases x with
          | announceComputer c cs => exact noStale_announced hs hclean hok
          | removeComputer c => exact (noStale_removed hs hclean hok).mpr (hremoves s c rfl rfl)
      · cases hs'

/-- In every state of a run the associations are to computers that are there, if
and only if at every removal the only associations to the computer are default
ones. -/
theorem noStale_iff (rel : Bool) (calls : List Call) :
    (∀ o ∈ Runs.states (step rel) (some new) calls, Alive NoStale o) ↔
      Runs.Along (step rel) RemovesDefaults (some new) calls := by
  have hstart : Alive (fun s => Described rel s ∧ NoStale s) (some new) := by
    rintro _ ⟨⟩
    refine ⟨Described.new rel, fun client l e he => ?_⟩
    cases route_of_association he
  rw [← Runs.invariant_iff_along (step_noStale_iff rel) hstart]
  have hdescribed := Runs.invariant (I := Alive (Described rel)) (alive_described rel) calls
    fun s hs => (hstart s hs).1
  constructor
  · exact fun h o ho s hs => ⟨hdescribed o ho s hs, h o ho s hs⟩
  · exact fun h o ho s hs => (h o ho s hs).2

/-- The client is sent to the computer a, and stays associated to it after the
removal of a: the next optimization finds the same contexts. -/
def staleRun : List Call :=
  [.computer (announce "a" ["l"]), .computer (announce "b" ["l"]),
    .optimize [("10.0.0.1", "l", "unused")], .computer (.removeComputer "a"),
    .optimize [("10.0.0.1", "l", "unused")]]

theorem stale_association : ¬ ∀ calls : List Call,
    ∀ o ∈ Runs.states (step false) (some new) calls, Alive NoStale o := by
  intro h
  have hrun : ((Runs.final (step false) (some new) staleRun).map fun s =>
      (associations s.theDerived.theClient ("10.0.0.1", "l"), s.theComputers.contains "a")) =
      some (some "a", false) := by
    decide +kernel
  obtain ⟨s, hs, heq⟩ := Option.map_eq_some_iff.mp hrun
  obtain ⟨hassociation, hgone⟩ := Prod.mk.inj heq
  have hmem := h staleRun _ (Runs.final_mem_states (step false) (some new) staleRun) s hs _ _ _ hassociation
  rw [ExtTreeMap.mem_iff_contains, hgone] at hmem
  cases hmem

end ServerlessEdge.Controller.EdgeControllerEtsiBalanced
