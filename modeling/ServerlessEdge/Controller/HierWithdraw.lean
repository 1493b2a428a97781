import ServerlessEdge.Controller.HierAnnounce

/-! What the removal of a computer takes out of the announced lambdas, and the
commands that it wants to send. -/
namespace ServerlessEdge.Controller.EdgeControllerHier
open Std Library Maps Triple EdgeController

def withAnnounced (s : State) (m : ExtTreeMap String Announced) : State :=
  { s with theDerived := { s.theDerived with theAnnouncedLambdas := m } }

variable {c l : String} {elems : List RemoveElem} {s : State}

private theorem mem_withAnnounced {m : ExtTreeMap String Announced} (row : Announced) {h : String}
    (hrow : ∀ r, m.getD r ∅ = if r = h then row else s.theDerived.theAnnouncedLambdas.getD r ∅)
    (hset : ∀ l', row.getD l' ∅ =
      if l' = l then (announced s h l).erase c else announced s h l') (r l' c' : String) :
    c' ∈ announced (withAnnounced s m) r l' ↔
      c' ∈ announced s r l' ∧ ¬ (r = h ∧ l' = l ∧ c' = c) := by
  have hget : announced (withAnnounced s m) r l' = (m.getD r ∅).getD l' ∅ := rfl
  rw [hget, hrow]
  by_cases hr : r = h
  · subst hr
    rw [if_pos rfl, hset]
    by_cases hl : l' = l
    · subst hl
      simp only [if_true, ExtTreeSet.mem_erase, LawfulEqCmp.compare_eq_iff_eq, ne_eq, true_and,
        eq_comm (a := c), and_comm]
    · simp only [hl, if_false, false_and, and_false, not_false_eq_true, and_true]
  · rw [if_neg hr]
    simp only [hr, false_and, not_false_eq_true, and_true]
    rfl

/-- Either nobody announces the computer for the lambda, or it is taken out of
one router and the removal from its table comes next. -/
theorem withdraw_cases (c l : String) (elems : List RemoveElem) (s : State) :
    (∀ r, c ∉ announced s r l) ∧ withdraw c elems l s = .ok elems s ∨
    ∃ h, c ∈ announced s h l ∧ (h ∈ s.theDerived.theForwardingTableEndpoints → ∃ rest m,
      withdraw c elems l s = .ok (elems ++ ⟨h, h, c, l⟩ :: rest) (withAnnounced s m) ∧
      ∀ r l' c', c' ∈ announced (withAnnounced s m) r l' ↔
        c' ∈ announced s r l' ∧ ¬ (r = h ∧ l' = l ∧ c' = c)) := by
  cases hfind : s.theDerived.theAnnouncedLambdas.toList.find?
      fun x => c ∈ x.2.getD l ∅ with
  | none =>
    refine .inl ⟨fun r hr => ?_, ?_⟩
    · cases hrow : s.theDerived.theAnnouncedLambdas[r]? with
      | none => simp [announced, ExtTreeMap.getD_eq_getD_getElem?, hrow] at hr
      | some row =>
        have hno := List.find?_eq_none.mp hfind (r, row) (mem_toList.mpr hrow)
        simp only [announced, ExtTreeMap.getD_eq_getD_getElem?, hrow, Option.getD_some] at hr
        simp only [ExtTreeMap.getD_eq_getD_getElem?, decide_eq_true_eq] at hno
        exact hno hr
    · simp only [withdraw, get_bind_apply, hfind]
      rfl
  | some x =>
    obtain ⟨h, row⟩ := x
    have hin : c ∈ row.getD l ∅ := by simpa using List.find?_some hfind
    have hlookup : s.theDerived.theAnnouncedLambdas[h]? = some row :=
      mem_toList.mp (List.mem_of_find?_eq_some hfind)
    have hrow : s.theDerived.theAnnouncedLambdas.getD h ∅ = row := by
      rw [ExtTreeMap.getD_eq_getD_getElem?, hlookup]
      rfl
    have hset (l' : String) : announced s h l' = row.getD l' ∅ := by rw [announced, hrow]
    refine .inr ⟨h, by rw [hset]; exact hin, fun hft => ?_⟩
    have hft' : ¬ h ∉ s.theDerived.theForwardingTableEndpoints := not_not.mpr hft
    cases hempty : ((row.getD l ∅).erase c).isEmpty with
    | false =>
      refine ⟨[], s.theDerived.theAnnouncedLambdas.insert h
        (row.insert l ((row.getD l ∅).erase c)), ?_,
        mem_withAnnounced (row.insert l ((row.getD l ∅).erase c)) ?_ ?_⟩
      · simp only [withdraw, get_bind_apply, hfind, if_neg hft', hempty, Bool.false_eq_true, if_false]
        rfl
      · intro r
        simp only [ExtTreeMap.getD_insert, LawfulEqCmp.compare_eq_iff_eq, eq_comm (a := h)]
      · intro l'
        simp only [ExtTreeMap.getD_insert, LawfulEqCmp.compare_eq_iff_eq, hset, eq_comm (a := l)]
    | true =>
      have hgone : (announced s h l).erase c = ∅ := by
        rw [hset]
        exact ExtTreeSet.isEmpty_iff.mp hempty
      refine ⟨(s.theDerived.theForwardingTableEndpoints.toList.filter fun x => x.1 ≠ h).map
          fun x => ⟨x.1, x.2, h, l⟩,
        if (row.erase l).isEmpty then s.theDerived.theAnnouncedLambdas.erase h
        else s.theDerived.theAnnouncedLambdas.insert h (row.erase l), ?_,
        mem_withAnnounced (row.erase l) ?_ ?_⟩
      · simp only [withdraw, get_bind_apply, hfind, if_neg hft', hempty, if_true]
        rfl
      · intro r
        split
        · next hleft =>
          simp only [ExtTreeMap.getD_erase, LawfulEqCmp.compare_eq_iff_eq, eq_comm (a := h),
            ExtTreeMap.isEmpty_iff.mp hleft]
        · simp only [ExtTreeMap.getD_insert, LawfulEqCmp.compare_eq_iff_eq, eq_comm (a := h)]
      · intro l'
        rw [hgone]
        simp only [ExtTreeMap.getD_erase, LawfulEqCmp.compare_eq_iff_eq, hset, eq_comm (a := l)]

/-- A computer that each lambda has at one registered router at most is taken
out of all of them; the first command is meant for one that had it. -/
theorem withdraw_all (elems : List RemoveElem) (ls : List String)
    (hone : ∀ l r r', c ∈ announced s r l → c ∈ announced s r' l → r = r')
    (hreg : ∀ r l, c ∈ announced s r l → r ∈ s.theDerived.theForwardingTableEndpoints) :
    ∃ elems' m, ls.foldlM (withdraw c) elems s = .ok elems' (withAnnounced s m) ∧
      (∀ r l c', c' ∈ announced (withAnnounced s m) r l ↔
        c' ∈ announced s r l ∧ ¬ (c' = c ∧ l ∈ ls)) ∧
      (elems' = elems ∧ (∀ l ∈ ls, ∀ r, c ∉ announced s r l) ∨
        ∃ h l rest, elems' = elems ++ ⟨h, h, c, l⟩ :: rest ∧ l ∈ ls ∧ c ∈ announced s h l) := by
  induction ls generalizing s elems with
  | nil =>
    refine ⟨elems, s.theDerived.theAnnouncedLambdas, rfl, fun r l c' => ?_, .inl ⟨rfl, by simp⟩⟩
    simp only [List.not_mem_nil, and_false, not_false_eq_true, and_true]
    rfl
  | cons l ls ih =>
    rw [List.foldlM_cons]
    rcases withdraw_cases c l elems s with ⟨hnone, hrun⟩ | ⟨h, hin, hstep⟩
    · obtain ⟨elems', m, hrun', hann, hcmd⟩ := ih elems hone hreg
      refine ⟨elems', m, (bind_of_ok hrun _).trans hrun', fun r l' c' => ?_, ?_⟩
      · rw [hann, List.mem_cons]
        constructor
        · rintro ⟨hc', hn⟩
          refine ⟨hc', ?_⟩
          rintro ⟨rfl, rfl | hl'⟩
          · exact hnone r hc'
          · exact hn ⟨rfl, hl'⟩
        · rintro ⟨hc', hn⟩
          exact ⟨hc', fun h => hn ⟨h.1, .inr h.2⟩⟩
      · rcases hcmd with ⟨he, hn⟩ | ⟨h, l', rest, he, hl', hh⟩
        · refine .inl ⟨he, fun l' hl' => ?_⟩
          rcases List.mem_cons.mp hl' with rfl | hl'
          · exact hnone
          · exact hn l' hl'
        · exact .inr ⟨h, l', rest, he, List.mem_cons_of_mem _ hl', hh⟩
    · obtain ⟨rest, m, hrun, hann⟩ := hstep (hreg h l hin)
      obtain ⟨elems', m', hrun', hann', hcmd⟩ := ih (s := withAnnounced s m)
        (elems ++ ⟨h, h, c, l⟩ :: rest)
        (fun l' r r' hr hr' => hone l' r r' ((hann _ _ _).mp hr).1 ((hann _ _ _).mp hr').1)
        (fun r l' hr => hreg r l' ((hann _ _ _).mp hr).1)
      refine ⟨elems', m', (bind_of_ok hrun _).trans hrun', fun r l' c' => ?_, .inr ?_⟩
      · have hiff := hann' r l' c'
        rw [hann] at hiff
        refine hiff.trans ?_
        rw [List.mem_cons]
        constructor
        · rintro ⟨⟨hc', hn⟩, hn'⟩
          refine ⟨hc', ?_⟩
          rintro ⟨rfl, rfl | hl'⟩
          · exact hn ⟨hone l' r h hc' hin, rfl, rfl⟩
          · exact hn' ⟨rfl, hl'⟩
        · rintro ⟨hc', hn⟩
          exact ⟨⟨hc', fun h => hn ⟨h.2.2, .inl h.2.1⟩⟩, fun h => hn ⟨h.1, .inr h.2⟩⟩
      · rcases hcmd with ⟨rfl, _⟩ | ⟨h', l', rest', rfl, _, _⟩
        · exact ⟨h, l, rest, rfl, List.mem_cons_self, hin⟩
        · refine ⟨h, l, rest ++ ⟨h', h', c, l'⟩ :: rest', ?_, List.mem_cons_self, hin⟩
          simp only [List.append_assoc, List.cons_append]

theorem grows_privateRemoveComputer {env : Environment} {reset : Member EdgeControllerHier Unit}
    (hreset : Moves Grows reset) (c : String) (ls : List String) :
    Moves Grows (privateRemoveComputer env reset c ls) :=
  (carried_grows env).privateRemoveComputer hreset c ls

/-- The state in which the commands of a removal are sent. -/
def withdrawn (c : String) (m : ExtTreeMap String Announced) (s : State) : State :=
  (withAnnounced s m).withNetwork (s.theDerived.theNetwork.record (.forget c))

/-- The first command of a removal goes to the end-point at which the home router
serves lambdas, and the controller takes the missing answer for a failure. -/
theorem privateRemoveComputer_eq (env : Environment) (reset : Member EdgeControllerHier Unit)
    (ls : List String) (hone : ∀ l r r', c ∈ announced s r l → c ∈ announced s r' l → r = r')
    (hreg : ∀ r l, c ∈ announced s r l → r ∈ s.theDerived.theForwardingTableEndpoints) :
    ∃ m, (∀ r l c', c' ∈ announced (withdrawn c m s) r l ↔
        c' ∈ announced s r l ∧ ¬ (c' = c ∧ l ∈ ls)) ∧
      ((∀ l ∈ ls, ∀ r, c ∉ announced s r l) ∧
          privateRemoveComputer env reset c ls s = .ok () (withdrawn c m s) ∨
        ∃ h l, l ∈ ls ∧ c ∈ announced s h l ∧ (h ∉ s.theDerived.theNetwork.tables →
          privateRemoveComputer env reset c ls s = removeRouter reset h ((withdrawn c m s).withNetwork
            ((withdrawn c m s).theDerived.theNetwork.record
              (.command h ⟨.REMOVE, l, c, 0, false⟩ false))))) := by
  obtain ⟨elems, m, hrun, hann, hcmd⟩ := withdraw_all [] ls hone hreg
  refine ⟨m, hann, ?_⟩
  have hsend : privateRemoveComputer env reset c ls s =
      sendRemovals env reset elems (withdrawn c m s) := bind_of_ok hrun _
  rw [hsend]
  rcases hcmd with ⟨rfl, hnone⟩ | ⟨h, l, rest, rfl, hl, hin⟩
  · exact .inl ⟨hnone, rfl⟩
  · refine .inr ⟨h, l, hl, hin, fun hh => ?_⟩
    let q : Forwarding.EdgeRouterConf ℚ := ⟨.REMOVE, l, c, 0, false⟩
    have hlost : Network.removeRoutes env h c [l] (withdrawn c m s).theDerived.theNetwork =
        (false, (withdrawn c m s).theDerived.theNetwork.record (.command h q false)) :=
      Network.commands_lost (n := (withdrawn c m s).theDerived.theNetwork) hh q []
    have hask : (do return !(← onNetwork (Network.removeRoutes env h c [l])) :
        Member EdgeControllerHier Bool) (withdrawn c m s) = .ok true
          ((withdrawn c m s).withNetwork
            ((withdrawn c m s).theDerived.theNetwork.record (.command h q false))) := by
      have hret : onNetwork (Network.removeRoutes env h c [l]) (withdrawn c m s) = .ok false
          ((withdrawn c m s).withNetwork
            ((withdrawn c m s).theDerived.theNetwork.record (.command h q false))) :=
        onNetwork_of hlost
      exact bind_of_ok hret _
    have hfirst : ([] ++ RemoveElem.mk h h c l :: rest).findM? (fun x : RemoveElem => do
        return !(← onNetwork (Network.removeRoutes env x.theForwardingTableServer x.theEdgeServer
          [x.theLambda]))) (withdrawn c m s) = .ok (some ⟨h, h, c, l⟩)
          ((withdrawn c m s).withNetwork
            ((withdrawn c m s).theDerived.theNetwork.record (.command h q false))) :=
      bind_of_ok hask _
    exact bind_of_ok hfirst _

end ServerlessEdge.Controller.EdgeControllerHier
