import ServerlessEdge.Controller.EdgeControllerEtsiBalanced

/-! The descriptors of the lambdas and the default routes, one lambda at a time. -/
namespace ServerlessEdge.Controller.EdgeControllerEtsiBalanced
open Std Library Maps Groups Triple EdgeController

/-- What a command does to the association of a client and a lambda. -/
def route? (k : String × String) : LcmCommand → Option (Option String)
  | .associateAddress c l e => if (c, l) = k then some (some e) else none
  | .removeAddress c l => if (c, l) = k then some none else none
  | _ => none

/-- The last command about a client and a lambda: an association or a removal. -/
def lastRoute (aCommands : List LcmCommand) (k : String × String) : Option (Option String) :=
  (aCommands.filterMap (route? k)).getLast?

theorem lastRoute_append (xs ys : List LcmCommand) (k : String × String) :
    lastRoute (xs ++ ys) k = (lastRoute ys k).or (lastRoute xs k) := by
  rw [lastRoute, List.filterMap_append, List.getLast?_append]
  rfl

theorem lastRoute_singleton (x : LcmCommand) (k : String × String) :
    lastRoute [x] k = route? k x := by
  rw [lastRoute, List.filterMap_cons]
  cases route? k x <;> rfl

/-- What is known of a lambda: its descriptor and the last command about its
default route. -/
structure View where
  theDesc : Option Desc
  theRoute : Option (Option String)

def view (l : String) (d : EdgeControllerEtsiBalanced) : View :=
  ⟨d.theDesc[l]?, lastRoute d.theClient ("", l)⟩

namespace View

/-- The computers serving the lambda. -/
def computers (v : View) : ExtTreeSet String := (v.theDesc.map Desc.theComputers).getD ∅

def join (c : String) (v : View) : View :=
  match v.theDesc with
  | none => ⟨some (Desc.new c), some (some c)⟩
  | some x => ⟨some { x with theComputers := x.theComputers.insert c }, v.theRoute⟩

def leave (c : String) (v : View) : View :=
  match v.theDesc with
  | none => v
  | some x =>
    if c ∉ x.theComputers then v
    else if x.theDefault = c then
      match (x.theComputers.erase c).toList.head? with
      | none => ⟨none, some none⟩
      | some e => ⟨some ⟨e, x.theComputers.erase c⟩, some (some e)⟩
    else ⟨some { x with theComputers := x.theComputers.erase c }, v.theRoute⟩

/-- The default of a lambda is one of its computers. -/
def DefaultServes (v : View) : Prop := ∀ x : Desc, v.theDesc = some x → x.theDefault ∈ x.theComputers

/-- The last command tells the proxy the default, or that there is none. -/
def Routed (v : View) : Prop :=
  match v.theDesc with
  | none => v.theRoute = none ∨ v.theRoute = some none
  | some x => v.theRoute = some (some x.theDefault)

theorem mem_of_first {t : ExtTreeSet String} {e : String} (h : t.toList.head? = some e) : e ∈ t :=
  ExtTreeSet.mem_toList.mp (List.mem_of_head? h)

theorem not_mem_of_first {t : ExtTreeSet String} (h : t.toList.head? = none) (e : String) : e ∉ t := by
  intro he
  have hmem := ExtTreeSet.mem_toList.mpr he
  rw [List.head?_eq_none_iff.mp h] at hmem
  cases hmem

theorem mem_join {c e : String} {v : View} : e ∈ (v.join c).computers ↔ e = c ∨ e ∈ v.computers := by
  unfold join computers
  cases hv : v.theDesc with
  | none => exact mem_set_insert
  | some x => exact mem_set_insert

theorem mem_leave {c e : String} {v : View} :
    e ∈ (v.leave c).computers ↔ e ≠ c ∧ e ∈ v.computers := by
  cases hv : v.theDesc with
  | none =>
    have hnone : ¬ e ∈ v.computers := by
      rw [computers, hv]
      exact ExtTreeSet.not_mem_empty
    simp only [leave, hv]
    simp [hnone]
  | some x =>
    have hmem : e ∈ v.computers ↔ e ∈ x.theComputers := by rw [computers, hv]; rfl
    rw [hmem]
    simp only [leave, hv]
    split
    · next hc =>
      rw [hmem]
      exact ⟨fun he => ⟨fun heq => hc (heq ▸ he), he⟩, And.right⟩
    · split
      · cases hfirst : (x.theComputers.erase c).toList.head? with
        | none =>
          rw [← mem_set_erase]
          exact iff_of_false ExtTreeSet.not_mem_empty (not_mem_of_first hfirst e)
        | some m => exact mem_set_erase
      · exact mem_set_erase

theorem DefaultServes.join {v : View} (h : v.DefaultServes) (c : String) :
    (v.join c).DefaultServes := by
  intro x hx
  cases hv : v.theDesc with
  | none =>
    simp only [View.join, hv] at hx
    cases hx
    exact mem_set_insert.mpr (.inl rfl)
  | some y =>
    simp only [View.join, hv] at hx
    cases hx
    exact mem_set_insert.mpr (.inr (h y hv))

theorem DefaultServes.leave {v : View} (h : v.DefaultServes) (c : String) :
    (v.leave c).DefaultServes := by
  intro x hx
  cases hv : v.theDesc with
  | none =>
    simp only [View.leave, hv] at hx
    cases hx
  | some y =>
    simp only [View.leave, hv] at hx
    split at hx
    · exact h x hx
    · split at hx
      · cases hfirst : (y.theComputers.erase c).toList.head? with
        | none =>
          rw [hfirst] at hx
          cases hx
        | some e =>
          rw [hfirst] at hx
          cases hx
          exact mem_of_first hfirst
      · next hne =>
        cases hx
        exact mem_set_erase.mpr ⟨hne, h y hv⟩

theorem Routed.join {v : View} (h : v.Routed) (c : String) : (v.join c).Routed := by
  cases hv : v.theDesc with
  | none => simp only [Routed, View.join, hv, Desc.new]
  | some x =>
    simp only [Routed, hv] at h
    simp only [Routed, View.join, hv, h]

theorem Routed.leave {v : View} (h : v.Routed) (c : String) : (v.leave c).Routed := by
  cases hv : v.theDesc with
  | none =>
    have hsame : v.leave c = v := by simp only [View.leave, hv]
    rw [hsame]
    exact h
  | some x =>
    by_cases hc : c ∉ x.theComputers
    · have hsame : v.leave c = v := by simp only [View.leave, hv, if_pos hc]
      rw [hsame]
      exact h
    · by_cases hdefault : x.theDefault = c
      · cases hfirst : (x.theComputers.erase c).toList.head? with
        | none => simp [Routed, View.leave, hv, hc, hdefault, hfirst]
        | some e => simp [Routed, View.leave, hv, hc, hdefault, hfirst]
      · simp only [Routed, hv] at h
        simp [Routed, View.leave, hv, hc, hdefault, h]

theorem join_join (c : String) (v : View) : (v.join c).join c = v.join c := by
  have hinsert (t : ExtTreeSet String) : (t.insert c).insert c = t.insert c := by
    refine ExtTreeSet.ext_mem fun e => ?_
    simp only [mem_set_insert]
    tauto
  cases hv : v.theDesc with
  | none => simp only [join, hv, Desc.new, hinsert]
  | some x => simp only [join, hv, hinsert]

theorem leave_of_not_mem {c : String} {v : View} (h : c ∉ v.computers) : v.leave c = v := by
  cases hv : v.theDesc with
  | none => simp only [leave, hv]
  | some x =>
    have hc : c ∉ x.theComputers := by
      intro hc
      rw [computers, hv] at h
      exact h hc
    simp only [leave, hv, if_pos hc]

theorem leave_leave (c : String) (v : View) : (v.leave c).leave c = v.leave c :=
  leave_of_not_mem fun h => (mem_leave.mp h).1 rfl

end View

/-- What addDesc does when no assertion fails. -/
def joinDesc (c : String) (d : EdgeControllerEtsiBalanced) (l : String) :
    EdgeControllerEtsiBalanced :=
  match d.theDesc[l]? with
  | none => { d with
    theDesc := d.theDesc.insert l (Desc.new c)
    theClient := d.theClient ++ [.associateAddress "" l c] }
  | some x => { d with
    theDesc := d.theDesc.insert l { x with theComputers := x.theComputers.insert c } }

/-- What delDesc does when no assertion fails. -/
def leaveDesc (c : String) (d : EdgeControllerEtsiBalanced) (l : String) :
    EdgeControllerEtsiBalanced :=
  match d.theDesc[l]? with
  | none => d
  | some x =>
    if c ∉ x.theComputers then d
    else if x.theDefault = c then
      match (x.theComputers.erase c).toList.head? with
      | none => { d with
        theDesc := d.theDesc.erase l
        theClient := d.theClient ++ [.removeAddress "" l] }
      | some e => { d with
        theDesc := d.theDesc.insert l ⟨e, x.theComputers.erase c⟩
        theClient := d.theClient ++ [.associateAddress "" l e] }
    else { d with theDesc := d.theDesc.insert l { x with theComputers := x.theComputers.erase c } }

/-- The last command about a route, once another command has been sent. -/
theorem lastRoute_send (xs : List LcmCommand) (x : LcmCommand) (k : String × String) :
    lastRoute (xs ++ [x]) k = (route? k x).or (lastRoute xs k) := by
  rw [lastRoute_append, lastRoute_singleton]

theorem view_joinDesc (c l l' : String) (d : EdgeControllerEtsiBalanced) :
    view l (joinDesc c d l') = if l = l' then (view l d).join c else view l d := by
  by_cases hl : l = l'
  · subst hl
    rw [if_pos rfl]
    cases hd : d.theDesc[l]? with
    | none => simp [joinDesc, view, View.join, hd, lastRoute_send, route?]
    | some x => simp [joinDesc, view, View.join, hd]
  · rw [if_neg hl]
    cases hd : d.theDesc[l']? with
    | none => simp [joinDesc, view, hd, lookup_insert, hl, lastRoute_send, route?, Ne.symm hl]
    | some x => simp [joinDesc, view, hd, lookup_insert, hl]

theorem view_leaveDesc (c l l' : String) (d : EdgeControllerEtsiBalanced) :
    view l (leaveDesc c d l') = if l = l' then (view l d).leave c else view l d := by
  by_cases hl : l = l'
  · subst hl
    rw [if_pos rfl]
    cases hd : d.theDesc[l]? with
    | none => simp [leaveDesc, view, View.leave, hd]
    | some x =>
      by_cases hc : c ∈ x.theComputers
      · by_cases hdefault : x.theDefault = c
        · cases hfirst : (x.theComputers.erase c).toList.head? with
          | none =>
            simp [leaveDesc, view, View.leave, hd, hc, hdefault, hfirst, lastRoute_send, route?]
          | some e =>
            simp [leaveDesc, view, View.leave, hd, hc, hdefault, hfirst, lastRoute_send, route?]
        · simp [leaveDesc, view, View.leave, hd, hc, hdefault]
      · simp [leaveDesc, view, View.leave, hd, hc]
  · rw [if_neg hl]
    cases hd : d.theDesc[l']? with
    | none => simp [leaveDesc, view, hd]
    | some x =>
      by_cases hc : c ∈ x.theComputers
      · by_cases hdefault : x.theDefault = c
        · cases hfirst : (x.theComputers.erase c).toList.head? with
          | none => simp [leaveDesc, view, hd, hc, hdefault, hfirst, lookup_erase, hl,
              lastRoute_send, route?, Ne.symm hl]
          | some e => simp [leaveDesc, view, hd, hc, hdefault, hfirst, lookup_insert, hl,
              lastRoute_send, route?, Ne.symm hl]
        · simp [leaveDesc, view, hd, hc, hdefault, lookup_insert, hl]
      · simp [leaveDesc, view, hd, hc]

theorem view_joins (c l : String) (ls : List String) (d : EdgeControllerEtsiBalanced) :
    view l (ls.foldl (joinDesc c) d) = if l ∈ ls then (view l d).join c else view l d := by
  induction ls generalizing d with
  | nil => rfl
  | cons l' ls ih =>
    rw [List.foldl_cons, ih, view_joinDesc]
    by_cases hl : l = l'
    · rw [if_pos hl, View.join_join, if_pos (List.mem_cons.mpr (.inl hl)), ite_self]
    · rw [if_neg hl]
      simp only [List.mem_cons, hl, false_or]

theorem view_leaves (c l : String) (ls : List String) (d : EdgeControllerEtsiBalanced) :
    view l (ls.foldl (leaveDesc c) d) = if l ∈ ls then (view l d).leave c else view l d := by
  induction ls generalizing d with
  | nil => rfl
  | cons l' ls ih =>
    rw [List.foldl_cons, ih, view_leaveDesc]
    by_cases hl : l = l'
    · rw [if_pos hl, View.leave_leave, if_pos (List.mem_cons.mpr (.inl hl)), ite_self]
    · rw [if_neg hl]
      simp only [List.mem_cons, hl, false_or]

section Programs

variable {rel : Bool} {c l : String} {s s' : State}

theorem assert_ok {p : Prop} [Decidable p] (hok : assert rel p s = .ok () s') :
    (rel = true ∨ p) ∧ s' = s := by
  rw [assert] at hok
  split at hok
  · next h =>
    obtain ⟨-, rfl⟩ := EStateM.Result.ok.inj hok
    exact ⟨h, rfl⟩
  · cases hok

theorem assert_pass {p : Prop} [Decidable p] (h : rel = true ∨ p) : assert rel p s = .ok () s := by
  rw [assert, if_pos h]
  rfl

/-- The state with other data of the derived class. -/
def withBalanced (s : State) (d : EdgeControllerEtsiBalanced) : State := { s with theDerived := d }

theorem addDesc_ok (hok : addDesc rel c l s = .ok () s') :
    s' = withBalanced s (joinDesc c s.theDerived l) ∧
      (rel = true ∨ l ≠ "" ∧ c ∉ (view l s.theDerived).computers) := by
  obtain ⟨_, s₁, hassert, hrest⟩ := ok_of_bind hok
  obtain ⟨hname, hs₁⟩ := assert_ok hassert
  rw [hs₁, get_bind_apply] at hrest
  cases hd : s.theDerived.theDesc[l]? with
  | none =>
    rw [hd] at hrest
    obtain ⟨-, rfl⟩ := EStateM.Result.ok.inj hrest
    refine ⟨by simp only [joinDesc, hd]; rfl, hname.imp_right fun hl => ⟨hl, ?_⟩⟩
    rw [View.computers, view, hd]
    exact ExtTreeSet.not_mem_empty
  | some x =>
    rw [hd] at hrest
    obtain ⟨_, s₂, hempty, hset⟩ := ok_of_bind hrest
    rw [(assert_ok hempty).2] at hset
    obtain ⟨_, s₃, hset, hinserted⟩ := ok_of_bind hset
    obtain ⟨hnew, rfl⟩ := assert_ok hinserted
    obtain ⟨-, rfl⟩ := EStateM.Result.ok.inj hset
    refine ⟨by simp only [joinDesc, hd]; rfl, ?_⟩
    rcases hname with hname | hname
    · exact .inl hname
    · refine hnew.imp_right fun hnew => ⟨hname, ?_⟩
      rw [View.computers, view, hd]
      exact hnew

theorem delDesc_ok (hok : delDesc rel c l s = .ok () s') :
    s' = withBalanced s (leaveDesc c s.theDerived l) := by
  obtain ⟨_, s₁, hassert, hrest⟩ := ok_of_bind hok
  rw [(assert_ok hassert).2, get_bind_apply] at hrest
  cases hd : s.theDerived.theDesc[l]? with
  | none =>
    rw [hd] at hrest
    rw [(assert_ok hrest).2]
    simp only [leaveDesc, hd]
    rfl
  | some x =>
    rw [hd] at hrest
    obtain ⟨_, s₂, herased, hrest⟩ := ok_of_bind hrest
    rw [(assert_ok herased).2] at hrest
    by_cases hc : c ∉ x.theComputers
    · rw [if_pos hc] at hrest
      obtain ⟨-, rfl⟩ := EStateM.Result.ok.inj hrest
      simp only [leaveDesc, hd, if_pos hc]
      rfl
    · rw [if_neg hc] at hrest
      simp only [leaveDesc, hd, if_neg hc]
      by_cases hdefault : x.theDefault = c
      · rw [if_pos hdefault] at hrest ⊢
        cases hfirst : (x.theComputers.erase c).toList.head? with
        | none =>
          rw [hfirst] at hrest
          obtain ⟨-, rfl⟩ := EStateM.Result.ok.inj hrest
          rfl
        | some e =>
          rw [hfirst] at hrest
          obtain ⟨_, s₃, hset, hrest⟩ := ok_of_bind hrest
          obtain ⟨_, s₄, he, hsend⟩ := ok_of_bind hrest
          rw [(assert_ok he).2] at hsend
          obtain ⟨-, rfl⟩ := EStateM.Result.ok.inj hset
          obtain ⟨-, rfl⟩ := EStateM.Result.ok.inj hsend
          rfl
      · rw [if_neg hdefault] at hrest ⊢
        obtain ⟨-, rfl⟩ := EStateM.Result.ok.inj hrest
        rfl

theorem addDesc_returns (h : rel = true ∨ l ≠ "" ∧ c ∉ (view l s.theDerived).computers)
    (hd : (view l s.theDerived).DefaultServes) :
    addDesc rel c l s = .ok () (withBalanced s (joinDesc c s.theDerived l)) := by
  have hname : assert rel (l ≠ "") s = .ok () s := assert_pass (h.imp_right And.left)
  refine (bind_of_ok hname _).trans ?_
  rw [get_bind_apply]
  cases hx : s.theDerived.theDesc[l]? with
  | none =>
    simp only [joinDesc, hx]
    rfl
  | some x =>
    have hempty : x.theComputers.isEmpty = false := by
      refine Bool.eq_false_iff.mpr fun hempty => ?_
      exact set_isEmpty_iff.mp hempty _ (hd x hx)
    have hnew : rel = true ∨ c ∉ x.theComputers := h.imp_right fun h hc => by
      refine h.2 ?_
      rw [View.computers, view, hx]
      exact hc
    refine (bind_of_ok (assert_pass (.inr hempty)) _).trans ?_
    simp only [joinDesc, hx]
    exact assert_pass hnew

theorem delDesc_returns (h : rel = true ∨ l ≠ "" ∧ c ∈ (view l s.theDerived).computers ∧
    "" ∉ (view l s.theDerived).computers) :
    delDesc rel c l s = .ok () (withBalanced s (leaveDesc c s.theDerived l)) := by
  have hname : assert rel (l ≠ "") s = .ok () s := assert_pass (h.imp_right And.left)
  refine (bind_of_ok hname _).trans ?_
  rw [get_bind_apply]
  cases hx : s.theDerived.theDesc[l]? with
  | none =>
    simp only [leaveDesc, hx]
    refine assert_pass (h.imp_right fun h => ?_)
    rw [View.computers, view, hx] at h
    exact ExtTreeSet.not_mem_empty h.2.1
  | some x =>
    have hcomputers : (view l s.theDerived).computers = x.theComputers := by
      rw [View.computers, view, hx]
      rfl
    rw [hcomputers] at h
    have herased : assert rel (c ∈ x.theComputers) s = .ok () s :=
      assert_pass (h.imp_right fun h => h.2.1)
    refine (bind_of_ok herased _).trans ?_
    simp only [leaveDesc, hx]
    by_cases hc : c ∉ x.theComputers
    · rw [if_pos hc, if_pos hc]
      rfl
    · rw [if_neg hc, if_neg hc]
      by_cases hdefault : x.theDefault = c
      · rw [if_pos hdefault, if_pos hdefault]
        cases hfirst : (x.theComputers.erase c).toList.head? with
        | none => rfl
        | some e =>
          have he : rel = true ∨ e ≠ "" := h.imp_right fun h heq =>
            h.2.2 (heq ▸ (mem_set_erase.mp (View.mem_of_first hfirst)).2)
          let s₁ : State := withBalanced s { s.theDerived with
            theDesc := s.theDerived.theDesc.insert l ⟨e, x.theComputers.erase c⟩ }
          have hset : setDesc l ⟨e, x.theComputers.erase c⟩ s = .ok () s₁ := rfl
          refine (bind_of_ok hset _).trans ((bind_of_ok (assert_pass he) _).trans ?_)
          rfl
      · rw [if_neg hdefault, if_neg hdefault]
        rfl

/-- The names that the assertions ask for, a name coming once. -/
def Named (c : String) (ls : List String) : Prop := c ≠ "" ∧ ls.Nodup ∧ ∀ l ∈ ls, l ≠ ""

theorem addComputer_ok {ls : List String} (hok : addComputer rel c ls s = .ok () s') :
    (∃ eps, s' = withBalanced s
      (ls.foldl (joinDesc c) { s.theDerived with theComputerEndpoints := eps })) ∧
    (rel = true ∨ Named c ls) := by
  obtain ⟨_, s₁, hassert, hrest⟩ := ok_of_bind hok
  obtain ⟨hc, rfl⟩ := assert_ok hassert
  obtain ⟨_, s₂, hinsert, hloop⟩ := ok_of_bind hrest
  obtain ⟨-, rfl⟩ := EStateM.Result.ok.inj hinsert
  have hall := forM_ok (T := fun ls s s' => s' = withBalanced s (ls.foldl (joinDesc c) s.theDerived) ∧
    (rel = true ∨ ls.Nodup ∧ ∀ l ∈ ls, l ≠ "" ∧ c ∉ (view l s.theDerived).computers))
    (fun s => ⟨rfl, .inr ⟨List.nodup_nil, nofun⟩⟩) (fun l ls s s₁ s₂ hl hls => ?_) hloop
  · obtain ⟨hs', hnames⟩ := hall
    refine ⟨⟨_, hs'⟩, ?_⟩
    rcases hc with hc | hc
    · exact .inl hc
    · exact hnames.imp_right fun h => ⟨hc, h.1, fun l hl => (h.2 l hl).1⟩
  · obtain ⟨rfl, hfirst⟩ := addDesc_ok hl
    obtain ⟨rfl, hrest⟩ := hls
    refine ⟨rfl, ?_⟩
    rcases hrest with hrest | ⟨hnodup, hrest⟩
    · exact .inl hrest
    · refine hfirst.imp_right fun hfirst => ?_
      -- the descriptor of l has the computer from here on
      have hne : ∀ l' ∈ ls, l' ≠ l := by
        rintro l' hl' rfl
        refine (hrest l' hl').2 ?_
        rw [withBalanced, view_joinDesc, if_pos rfl]
        exact View.mem_join.mpr (.inl rfl)
      refine ⟨List.nodup_cons.mpr ⟨fun hmem => hne l hmem rfl, hnodup⟩, ?_⟩
      refine List.forall_mem_cons.mpr ⟨hfirst, fun l' hl' => ⟨(hrest l' hl').1, ?_⟩⟩
      have hmem := (hrest l' hl').2
      rwa [withBalanced, view_joinDesc, if_neg (hne l' hl')] at hmem

theorem delComputer_ok {ls : List String} (hok : delComputer rel c ls s = .ok () s') :
    ∃ eps, s' = withBalanced s
      (ls.foldl (leaveDesc c) { s.theDerived with theComputerEndpoints := eps }) := by
  obtain ⟨_, s₁, hassert, hrest⟩ := ok_of_bind hok
  rw [(assert_ok hassert).2] at hrest
  obtain ⟨_, s₂, herase, hloop⟩ := ok_of_bind hrest
  obtain ⟨-, rfl⟩ := EStateM.Result.ok.inj herase
  have hall := forM_ok (T := fun ls s s' => s' = withBalanced s (ls.foldl (leaveDesc c) s.theDerived))
    (fun s => rfl) (fun l ls s s₁ s₂ hl hls => ?_) hloop
  · exact ⟨_, hall⟩
  · rw [hls, delDesc_ok hl]
    rfl

theorem addComputer_returns {ls : List String}
    (h : rel = true ∨ Named c ls ∧ ∀ l ∈ ls, c ∉ (view l s.theDerived).computers)
    (hd : ∀ l, (view l s.theDerived).DefaultServes) : ∃ s', addComputer rel c ls s = .ok () s' := by
  have hloop (ls : List String) : ∀ s : State, (rel = true ∨ ls.Nodup ∧
      ∀ l ∈ ls, l ≠ "" ∧ c ∉ (view l s.theDerived).computers) →
      (∀ l, (view l s.theDerived).DefaultServes) → ∃ s', ls.forM (addDesc rel c) s = .ok () s' := by
    induction ls with
    | nil => exact fun s _ _ => ⟨s, rfl⟩
    | cons l ls ih =>
      intro s h hd
      have hfirst := addDesc_returns (h.imp_right fun h => h.2 l List.mem_cons_self) (hd l)
      let s₁ : State := withBalanced s (joinDesc c s.theDerived l)
      have hnext : rel = true ∨ ls.Nodup ∧
          ∀ l ∈ ls, l ≠ "" ∧ c ∉ (view l s₁.theDerived).computers := by
        refine h.imp_right fun h => ⟨(List.nodup_cons.mp h.1).2, fun l' hl' => ?_⟩
        have hne : l' ≠ l := fun heq => (List.nodup_cons.mp h.1).1 (heq ▸ hl')
        have hview : view l' s₁.theDerived = view l' s.theDerived :=
          (view_joinDesc c l' l s.theDerived).trans (if_neg hne)
        rw [hview]
        exact h.2 l' (List.mem_cons_of_mem l hl')
      have hserves (l' : String) : (view l' s₁.theDerived).DefaultServes := by
        have hview := view_joinDesc c l' l s.theDerived
        rw [show view l' s₁.theDerived = _ from hview]
        split
        · exact (hd l').join c
        · exact hd l'
      obtain ⟨s', hs'⟩ := ih s₁ hnext hserves
      exact ⟨s', (bind_of_ok hfirst _).trans hs'⟩
  have hname : assert rel (c ≠ "") s = .ok () s := assert_pass (h.imp_right fun h => h.1.1)
  let s₁ : State := withBalanced s { s.theDerived with
    theComputerEndpoints := s.theDerived.theComputerEndpoints.insert c }
  have hset : modifyBalanced (fun d => { d with
    theComputerEndpoints := d.theComputerEndpoints.insert c }) s = .ok () s₁ := rfl
  obtain ⟨s', hs'⟩ := hloop ls s₁
    (h.imp_right fun h => ⟨h.1.2.1, fun l hl => ⟨h.1.2.2 l hl, h.2 l hl⟩⟩) hd
  exact ⟨s', (bind_of_ok hname _).trans ((bind_of_ok hset _).trans hs')⟩

theorem delComputer_returns {ls : List String}
    (h : rel = true ∨ Named c ls ∧ ∀ l ∈ ls, c ∈ (view l s.theDerived).computers ∧
      "" ∉ (view l s.theDerived).computers) : ∃ s', delComputer rel c ls s = .ok () s' := by
  have hloop (ls : List String) : ∀ s : State, (rel = true ∨ ls.Nodup ∧
      ∀ l ∈ ls, l ≠ "" ∧ c ∈ (view l s.theDerived).computers ∧
        "" ∉ (view l s.theDerived).computers) → ∃ s', ls.forM (delDesc rel c) s = .ok () s' := by
    induction ls with
    | nil => exact fun s _ => ⟨s, rfl⟩
    | cons l ls ih =>
      intro s h
      have hfirst := delDesc_returns (h.imp_right fun h => h.2 l List.mem_cons_self)
      let s₁ : State := withBalanced s (leaveDesc c s.theDerived l)
      have hnext : rel = true ∨ ls.Nodup ∧ ∀ l ∈ ls, l ≠ "" ∧
          c ∈ (view l s₁.theDerived).computers ∧ "" ∉ (view l s₁.theDerived).computers := by
        refine h.imp_right fun h => ⟨(List.nodup_cons.mp h.1).2, fun l' hl' => ?_⟩
        have hne : l' ≠ l := fun heq => (List.nodup_cons.mp h.1).1 (heq ▸ hl')
        have hview : view l' s₁.theDerived = view l' s.theDerived :=
          (view_leaveDesc c l' l s.theDerived).trans (if_neg hne)
        rw [hview]
        exact h.2 l' (List.mem_cons_of_mem l hl')
      obtain ⟨s', hs'⟩ := ih s₁ hnext
      exact ⟨s', (bind_of_ok hfirst _).trans hs'⟩
  have hname : assert rel (c ≠ "") s = .ok () s := assert_pass (h.imp_right fun h => h.1.1)
  let s₁ : State := withBalanced s { s.theDerived with
    theComputerEndpoints := s.theDerived.theComputerEndpoints.erase c }
  have hset : modifyBalanced (fun d => { d with
    theComputerEndpoints := d.theComputerEndpoints.erase c }) s = .ok () s₁ := rfl
  obtain ⟨s', hs'⟩ := hloop ls s₁
    (h.imp_right fun h => ⟨h.1.2.1, fun l hl => ⟨h.1.2.2 l hl, h.2 l hl⟩⟩)
  exact ⟨s', (bind_of_ok hname _).trans ((bind_of_ok hset _).trans hs')⟩

end Programs

end ServerlessEdge.Controller.EdgeControllerEtsiBalanced
