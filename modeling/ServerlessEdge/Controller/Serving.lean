import ServerlessEdge.Library.Groups
import ServerlessEdge.Library.Triple
import ServerlessEdge.Controller.EdgeController

/-! The calls about computers, for any derived class: how theComputers and
theLambdas change, and which functions of the derived class are called. -/
namespace ServerlessEdge.Controller.EdgeController
open Std Library Maps Groups Triple

/-- Lambda name to the computers serving it. -/
abbrev LambdaMap := ExtTreeMap String (ExtTreeSet String)

variable {D : Type}

/-- The lambdas that a computer offers, if it is known. -/
def offers (m : ExtTreeMap String ContainerList) (c : String) : List String :=
  (m[c]?.map ContainerList.lambdas).getD []

/-- A call about a computer. -/
inductive ComputerCall where
  | announceComputer (aEdgeServerEndpoint : String) (aContainers : ContainerList)
  | removeComputer (aEdgeServerEndpoint : String)
  deriving DecidableEq, Repr

def ComputerCall.serve (h : Hooks D) : ComputerCall → Member D Unit
  | .announceComputer c cs => EdgeController.announceComputer h c cs
  | .removeComputer c => EdgeController.removeComputer h c

namespace ComputerCall

/-- theComputers after a call. -/
def registered (m : ExtTreeMap String ContainerList) :
    ComputerCall → ExtTreeMap String ContainerList
  | .announceComputer c cs => m.insert c cs
  | .removeComputer c => m.erase c

/-- Who stops and who starts serving which lambda in a call. -/
def changes (m : ExtTreeMap String ContainerList) : ComputerCall → List (Change String String)
  | .announceComputer c cs =>
    if m[c]? = some cs then []
    else (offers m c).map (.leave c) ++ cs.lambdas.map (.join c)
  | .removeComputer c => (offers m c).map (.leave c)

end ComputerCall

/-- The changes of a whole run. -/
def changesOf (m : ExtTreeMap String ContainerList) : List ComputerCall → List (Change String String)
  | [] => []
  | x :: xs => x.changes m ++ changesOf (x.registered m) xs

/-- A controller that knows no computers yet. -/
def new (d : D) : EdgeController D := ⟨∅, ∅, ∅, d⟩

/-- theLambdas agrees with theComputers and has no empty set. -/
structure Exact (s : EdgeController D) : Prop where
  serves : ∀ l c : String, c ∈ s.served l ↔ l ∈ offers s.theComputers c
  occupied : Occupied s.theLambdas

theorem mem_offers {m : ExtTreeMap String ContainerList} {c l : String} :
    l ∈ offers m c ↔ ∃ cs : ContainerList, m[c]? = some cs ∧ l ∈ cs.lambdas := by
  rw [offers]
  cases m[c]? <;> simp

theorem offers_insert (m : ExtTreeMap String ContainerList) (c : String) (cs : ContainerList)
    (c' : String) : offers (m.insert c cs) c' = if c' = c then cs.lambdas else offers m c' := by
  simp only [offers, lookup_insert]
  split <;> rfl

theorem offers_erase (m : ExtTreeMap String ContainerList) (c c' : String) :
    offers (m.erase c) c' = if c' = c then [] else offers m c' := by
  simp only [offers, lookup_erase]
  split <;> rfl

/-- The groups after a call are those that theComputers calls for. -/
theorem Exact.changed {s s' : EdgeController D} (hs : Exact s)
    {x : ComputerCall} (hcomputers : s'.theComputers = x.registered s.theComputers)
    (hgroups : groups s'.theLambdas = applyAll (groups s.theLambdas) (x.changes s.theComputers))
    (hoccupied : Occupied s'.theLambdas) : Exact s' := by
  refine ⟨fun l c' => ?_, hoccupied⟩
  have hbefore : c' ∈ groups s.theLambdas l ↔ l ∈ offers s.theComputers c' :=
    mem_groups.trans (hs.serves l c')
  have hafter : c' ∈ s'.served l ↔
      c' ∈ applyAll (groups s.theLambdas) (x.changes s.theComputers) l := by
    rw [← hgroups]
    exact mem_groups.symm
  rw [hafter, hcomputers]
  cases x with
  | removeComputer c =>
    rw [ComputerCall.changes, mem_leaves, hbefore, ComputerCall.registered, offers_erase]
    by_cases hc : c' = c
    · subst hc
      simp
    · simp [hc]
  | announceComputer c cs =>
    rw [ComputerCall.changes, ComputerCall.registered, offers_insert]
    by_cases hsame : s.theComputers[c]? = some cs
    · rw [if_pos hsame]
      refine hbefore.trans ?_
      by_cases hc : c' = c
      · subst hc
        rw [if_pos rfl, offers, hsame]
        rfl
      · rw [if_neg hc]
    · rw [if_neg hsame, applyAll_append, mem_joins, mem_leaves, hbefore]
      by_cases hc : c' = c
      · subst hc
        simp
      · simp [hc]

theorem Exact.new (d : D) : Exact (new d) := by
  refine ⟨fun l c => ?_, nofun⟩
  simp [EdgeController.new, served, offers, ExtTreeSet.not_mem_empty]

/-- A function of the derived class leaves the two maps alone if it returns. -/
def Keeps (m : Member D Unit) : Prop := ∀ s s', m s = .ok () s' →
  s'.theComputers = s.theComputers ∧ s'.theLambdas = s.theLambdas

/-- A derived class that keeps its hands off theComputers and theLambdas. -/
structure Frames (h : Hooks D) : Prop where
  addComputer : ∀ c ls, Keeps (h.addComputer c ls)
  delComputer : ∀ c ls, Keeps (h.delComputer c ls)
  addLambda : ∀ l, Keeps (h.addLambda l)
  delLambda : ∀ l, Keeps (h.delLambda l)
  privateAnnounceComputer : ∀ c cs, Keeps (h.privateAnnounceComputer c cs)
  privateRemoveComputer : ∀ c ls, Keeps (h.privateRemoveComputer c ls)

theorem keeps_pure : Keeps (pure () : Member D Unit) := by
  intro s s' hok
  obtain ⟨-, rfl⟩ := EStateM.Result.ok.inj hok
  exact ⟨rfl, rfl⟩

/-- A hook that only has data of the derived class to change. -/
theorem keeps_modify (f : D → D) :
    Keeps (modify fun s => { s with theDerived := f s.theDerived } : Member D Unit) := by
  intro s s' hok
  obtain ⟨-, rfl⟩ := EStateM.Result.ok.inj hok
  exact ⟨rfl, rfl⟩

section Steps

variable {h : Hooks D} {c l : String} {s s' : EdgeController D}

/-- The derived class hears of a lambda that no computer serves yet, and its row
is there at that time. -/
theorem markServed_ok (hk : Keeps (h.addLambda l)) (hok : markServed h c l s = .ok () s') :
    ∃ s₁, (if groups s.theLambdas l = ∅ then
      h.addLambda l (s.setServed l (s.served l)) = .ok () s₁ else s₁ = s.setServed l (s.served l)) ∧
      s' = { s₁ with theLambdas := rowsJoin c s.theLambdas l } := by
  let s₀ := s.setServed l (s.served l)
  have hserved : s₀.served l = s.served l := by
    simp [s₀, served, setServed]
  have hjoin (s₁ : EdgeController D) (h₁ : s₁.theLambdas = s₀.theLambdas) :
      s₁.setServed l ((s₁.served l).insert c) =
        { s₁ with theLambdas := rowsJoin c s.theLambdas l } := by
    have hrow : s₁.served l = s.served l := by rw [served, h₁]; exact hserved
    have hmap : s₁.theLambdas.insert l ((s.served l).insert c) = rowsJoin c s.theLambdas l := by
      refine ExtTreeMap.ext_getElem? fun k => ?_
      rw [h₁]
      simp only [s₀, setServed, rowsJoin, lookup_insert]
      split <;> rfl
    rw [setServed, hrow, hmap]
  have hrun : markServed h c l s = (do
      if (s₀.served l).isEmpty then h.addLambda l
      modify fun s : EdgeController D => s.setServed l ((s.served l).insert c)) s₀ := rfl
  rw [hrun] at hok
  simp only [hserved] at hok
  by_cases hempty : (s.served l).isEmpty = true
  · rw [if_pos hempty] at hok
    obtain ⟨_, s₁, hadd, hmod⟩ := ok_of_bind hok
    obtain ⟨-, rfl⟩ := EStateM.Result.ok.inj hmod
    refine ⟨s₁, ?_, hjoin s₁ (hk _ _ hadd).2⟩
    rw [if_pos (groups_eq_empty.mpr hempty)]
    exact hadd
  · rw [if_neg hempty] at hok
    obtain ⟨-, rfl⟩ := EStateM.Result.ok.inj hok
    refine ⟨s₀, ?_, hjoin s₀ rfl⟩
    rw [if_neg (mt groups_eq_empty.mp hempty)]

/-- The derived class hears of a lambda that has lost its only computer. -/
theorem unmarkServed_ok (hs : Occupied s.theLambdas) (hok : unmarkServed h c l s = .ok () s') :
    if groups s.theLambdas l = {c} then
      h.delLambda l { s with theLambdas := rowsLeave c s.theLambdas l } = .ok () s'
    else s' = { s with theLambdas := rowsLeave c s.theLambdas l } := by
  cases hrow : s.theLambdas[l]? with
  | none =>
    simp only [unmarkServed, get_bind_apply, hrow] at hok
    obtain ⟨-, rfl⟩ := EStateM.Result.ok.inj hok
    have hsingle : groups s.theLambdas l ≠ {c} := by
      intro hg
      obtain ⟨r, hr, _⟩ := (groups_eq_singleton hs).mp hg
      rw [hrow] at hr
      cases hr
    rw [if_neg hsingle]
    simp only [rowsLeave, hrow]
  | some r =>
    simp only [unmarkServed, get_bind_apply, hrow] at hok
    by_cases hempty : (r.erase c).isEmpty = true
    · rw [if_pos ((groups_eq_singleton hs).mpr ⟨r, hrow, hempty⟩)]
      rw [if_pos hempty] at hok
      simp only [rowsLeave, hrow, if_pos hempty]
      exact hok
    · rw [if_neg hempty] at hok
      obtain ⟨-, rfl⟩ := EStateM.Result.ok.inj hok
      have hsingle : groups s.theLambdas l ≠ {c} := by
        intro hg
        obtain ⟨r', hr', herase⟩ := (groups_eq_singleton hs).mp hg
        rw [hrow] at hr'
        cases hr'
        exact hempty herase
      rw [if_neg hsingle]
      simp only [rowsLeave, hrow, if_neg hempty]
      rfl

end Steps

section Calls

variable (h : Hooks D) (c : String) (cs : ContainerList) (s : EdgeController D)

/-- What follows once theComputers has been updated. -/
theorem removeComputer_eq : removeComputer h c s = (do
    (offers s.theComputers c).forM (unmarkServed h c)
    h.delComputer c (offers s.theComputers c)
    h.privateRemoveComputer c (offers s.theComputers c))
      { s with theComputers := s.theComputers.erase c } := by
  have herase : removeFromComputers c s =
      .ok (offers s.theComputers c) { s with theComputers := s.theComputers.erase c } := by
    cases hc : s.theComputers[c]? with
    | none =>
      have hsame : s.theComputers.erase c = s.theComputers := by
        refine ExtTreeMap.ext_getElem? fun k => ?_
        rw [lookup_erase]
        split
        · next hk => rw [hk, hc]
        · rfl
      simp only [removeFromComputers, get_bind_apply, hc, offers, hsame, Option.map_none,
        Option.getD_none]
      rfl
    | some cs =>
      simp only [removeFromComputers, get_bind_apply, hc, offers, Option.map_some, Option.getD_some]
      rfl
  exact bind_of_ok herase _

variable {c cs s}

/-- A computer announced again with the same containers changes nothing. -/
theorem announceComputer_again (hc : s.theComputers[c]? = some cs) :
    announceComputer h c cs s = .ok () s := by
  have hadd : addToComputers c cs s = .ok .AlreadyPresent s := by
    simp only [addToComputers, get_bind_apply, hc, if_true]
    rfl
  exact bind_of_ok hadd _

theorem announceComputer_new (hc : s.theComputers[c]? = none) : announceComputer h c cs s =
    notifyComputer h c cs { s with theComputers := s.theComputers.insert c cs } := by
  have hadd : addToComputers c cs s =
      .ok .NotPresent { s with theComputers := s.theComputers.insert c cs } := by
    simp only [addToComputers, get_bind_apply, hc]
    rfl
  exact bind_of_ok hadd _

/-- Changed containers are a removal followed by the announcement of a computer
that is no longer known. -/
theorem announceComputer_changed {cs' : ContainerList} (hc : s.theComputers[c]? = some cs')
    (hne : cs' ≠ cs) : announceComputer h c cs s = (do
      removeComputer h c
      let _ ← addToComputers c cs
      notifyComputer h c cs) s := by
  have hadd : addToComputers c cs s = .ok .ContainersChanged s := by
    simp only [addToComputers, get_bind_apply, hc, if_neg hne]
    rfl
  exact bind_of_ok hadd _

theorem addNotify_eq (hc : s.theComputers[c]? = none) : (do
      let _ ← addToComputers c cs
      notifyComputer h c cs) s = announceComputer h c cs s := by
  have hadd : addToComputers c cs s =
      .ok .NotPresent { s with theComputers := s.theComputers.insert c cs } := by
    simp only [addToComputers, get_bind_apply, hc]
    rfl
  rw [announceComputer_new h hc]
  exact bind_of_ok hadd _

end Calls

section Silent

variable {h : Hooks D} {c : String}

private theorem forM_lambdas {f : String → Member D Unit}
    (hf : ∀ l s, ∃ m, f l s = .ok () { s with theLambdas := m }) (ls : List String)
    (s : EdgeController D) : ∃ m, ls.forM f s = .ok () { s with theLambdas := m } := by
  induction ls generalizing s with
  | nil => exact ⟨s.theLambdas, rfl⟩
  | cons l ls ih =>
    obtain ⟨m, hm⟩ := hf l s
    obtain ⟨m', hm'⟩ := ih { s with theLambdas := m }
    exact ⟨m', (bind_of_ok hm _).trans hm'⟩

/-- A derived class that ignores new lambdas notices nothing. -/
theorem marks_silent (hadd : ∀ l, h.addLambda l = pure ()) (ls : List String)
    (s : EdgeController D) :
    ∃ m, ls.forM (markServed h c) s = .ok () { s with theLambdas := m } := by
  refine forM_lambdas (fun l s => ⟨((s.setServed l (s.served l)).setServed l
    (((s.setServed l (s.served l)).served l).insert c)).theLambdas, ?_⟩) ls s
  have hrun : markServed h c l s = (do
      if ((s.setServed l (s.served l)).served l).isEmpty then h.addLambda l
      modify fun s : EdgeController D => s.setServed l ((s.served l).insert c))
        (s.setServed l (s.served l)) := rfl
  rw [hrun, hadd]
  split <;> rfl

theorem unmarks_silent (hdel : ∀ l, h.delLambda l = pure ()) (ls : List String)
    (s : EdgeController D) :
    ∃ m, ls.forM (unmarkServed h c) s = .ok () { s with theLambdas := m } := by
  refine forM_lambdas (fun l s => ?_) ls s
  cases hl : s.theLambdas[l]? with
  | none =>
    refine ⟨s.theLambdas, ?_⟩
    simp only [unmarkServed, get_bind_apply, hl]
    rfl
  | some cs =>
    cases hempty : (cs.erase c).isEmpty with
    | true =>
      refine ⟨s.theLambdas.erase l, ?_⟩
      simp only [unmarkServed, get_bind_apply, hl, hempty, if_true, hdel]
      rfl
    | false =>
      refine ⟨s.theLambdas.insert l (cs.erase c), ?_⟩
      simp only [unmarkServed, get_bind_apply, hl, hempty, Bool.false_eq_true, if_false]
      rfl

end Silent

section Results

/-- What the derived class may change in the data of a controller. -/
def own (s : EdgeController D) : ExtTreeMap String String × D := (s.theRouters, s.theDerived)

/-- The base class has made some changes of theLambdas, while the derived class
has changed its own data by R. -/
structure Served (R : ExtTreeMap String String × D → ExtTreeMap String String × D → Prop)
    (xs : List (Change String String)) (s s' : EdgeController D) : Prop where
  computers : s'.theComputers = s.theComputers
  groups : groups s'.theLambdas = applyAll (groups s.theLambdas) xs
  occupied : Occupied s'.theLambdas
  own : R s.own s'.own

variable {h : Hooks D} (hf : Frames h)
  {R : ExtTreeMap String String × D → ExtTreeMap String String × D → Prop} [Std.Refl R] [IsTrans _ R]
  {c : String} {ls : List String} {s s' : EdgeController D}

omit [IsTrans _ R] in
theorem Served.refl (hs : Occupied s.theLambdas) : Served R [] s s :=
  ⟨rfl, rfl, hs, Std.Refl.refl _⟩

omit [Std.Refl R] in
theorem Served.trans {xs ys : List (Change String String)} {s₁ s₂ : EdgeController D}
    (h : Served R xs s s₁) (h' : Served R ys s₁ s₂) : Served R (xs ++ ys) s s₂ := by
  refine ⟨h'.computers.trans h.computers, ?_, h'.occupied, IsTrans.trans _ _ _ h.own h'.own⟩
  rw [h'.groups, h.groups, applyAll_append]

include hf

theorem marks_ok (hR : ∀ l s s', h.addLambda l s = .ok () s' → R s.own s'.own)
    (hs : Occupied s.theLambdas) (hok : ls.forM (markServed h c) s = .ok () s') :
    Served R (ls.map (.join c)) s s' := by
  refine forM_ok (T := fun ls s s' => Occupied s.theLambdas → Served R (ls.map (.join c)) s s')
    (fun s hs => .refl hs) (fun l ls s s₁ s₂ hl hls hs => ?_) hok hs
  obtain ⟨t, hadd, rfl⟩ := markServed_ok (hf.addLambda l) hl
  have hfirst : t.theComputers = s.theComputers ∧ R s.own t.own := by
    split at hadd
    · have hown := hR l _ t hadd
      exact ⟨(hf.addLambda l _ _ hadd).1, hown⟩
    · rw [hadd]
      exact ⟨rfl, Std.Refl.refl _⟩
  have hstep : Served R [.join c l] s { t with theLambdas := rowsJoin c s.theLambdas l } :=
    ⟨hfirst.1, groups_rowsJoin c l, hs.rowsJoin c l, hfirst.2⟩
  exact hstep.trans (hls hstep.occupied)

theorem unmarks_ok (hR : ∀ l s s', h.delLambda l s = .ok () s' → R s.own s'.own)
    (hs : Occupied s.theLambdas) (hok : ls.forM (unmarkServed h c) s = .ok () s') :
    Served R (ls.map (.leave c)) s s' := by
  refine forM_ok (T := fun ls s s' => Occupied s.theLambdas → Served R (ls.map (.leave c)) s s')
    (fun s hs => .refl hs) (fun l ls s s₁ s₂ hl hls hs => ?_) hok hs
  have hdel := unmarkServed_ok hs hl
  have hstep : s₁.theComputers = s.theComputers ∧
      s₁.theLambdas = rowsLeave c s.theLambdas l ∧ R s.own s₁.own := by
    split at hdel
    · obtain ⟨hcomputers, hlambdas⟩ := hf.delLambda l _ _ hdel
      have hown := hR l _ s₁ hdel
      exact ⟨hcomputers, hlambdas, hown⟩
    · rw [hdel]
      exact ⟨rfl, rfl, Std.Refl.refl _⟩
  obtain ⟨hcomputers, hlambdas, hown⟩ := hstep
  have hfirst : Served R [.leave c l] s s₁ := by
    refine ⟨hcomputers, ?_, ?_, hown⟩
    · rw [hlambdas]
      exact groups_rowsLeave c l
    · rw [hlambdas]
      exact hs.rowsLeave c l
  exact hfirst.trans (hls hfirst.occupied)

/-- A removal, in the order in which the derived class hears of it. -/
theorem removeComputer_ok (hR : ∀ l s s', h.delLambda l s = .ok () s' → R s.own s'.own)
    (hs : Occupied s.theLambdas) (hok : removeComputer h c s = .ok () s') : ∃ s₁ s₂,
      Served R ((offers s.theComputers c).map (.leave c))
        { s with theComputers := s.theComputers.erase c } s₁ ∧
      h.delComputer c (offers s.theComputers c) s₁ = .ok () s₂ ∧
      h.privateRemoveComputer c (offers s.theComputers c) s₂ = .ok () s' := by
  rw [removeComputer_eq] at hok
  obtain ⟨_, s₁, hunmarks, hok⟩ := ok_of_bind hok
  obtain ⟨_, s₂, hdel, hremove⟩ := ok_of_bind hok
  let s₀ : EdgeController D := { s with theComputers := s.theComputers.erase c }
  exact ⟨s₁, s₂, unmarks_ok (s := s₀) hf hR hs hunmarks, hdel, hremove⟩

theorem notifyComputer_ok (hR : ∀ l s s', h.addLambda l s = .ok () s' → R s.own s'.own)
    {cs : ContainerList} (hs : Occupied s.theLambdas)
    (hok : notifyComputer h c cs s = .ok () s') : ∃ s₁ s₂,
      Served R (cs.lambdas.map (.join c)) s s₁ ∧
      h.addComputer c cs.lambdas s₁ = .ok () s₂ ∧
      h.privateAnnounceComputer c cs s₂ = .ok () s' := by
  obtain ⟨_, s₁, hmarks, hok⟩ := ok_of_bind hok
  obtain ⟨_, s₂, hadd, hannounce⟩ := ok_of_bind hok
  exact ⟨s₁, s₂, marks_ok hf hR hs hmarks, hadd, hannounce⟩

omit [Std.Refl R] [IsTrans _ R] in
/-- A removal leaves theComputers without the computer. -/
theorem computers_of_removeComputer (hs : Occupied s.theLambdas)
    (hok : removeComputer h c s = .ok () s') :
    s'.theComputers = s.theComputers.erase c ∧ Occupied s'.theLambdas := by
  let T : ExtTreeMap String String × D → ExtTreeMap String String × D → Prop := fun _ _ => True
  have : Std.Refl T := ⟨fun _ => trivial⟩
  have : IsTrans _ T := ⟨fun _ _ _ _ _ => trivial⟩
  obtain ⟨s₁, s₂, hserved, hdel, hremove⟩ :=
    removeComputer_ok (R := T) hf (fun _ _ _ _ => trivial) hs hok
  obtain ⟨hcomputers, hlambdas⟩ := hf.delComputer c _ _ _ hdel
  obtain ⟨hcomputers', hlambdas'⟩ := hf.privateRemoveComputer c _ _ _ hremove
  refine ⟨hcomputers'.trans (hcomputers.trans hserved.computers), ?_⟩
  rw [hlambdas', hlambdas]
  exact hserved.occupied

omit [Std.Refl R] [IsTrans _ R] in
/-- An announcement does nothing, or notifies a computer that is not known, also
after its removal. -/
theorem announceComputer_cases {cs : ContainerList} (hs : Occupied s.theLambdas)
    (hok : announceComputer h c cs s = .ok () s') :
    (s.theComputers[c]? = some cs ∧ s' = s) ∨
    (s.theComputers[c]? = none ∧
      notifyComputer h c cs { s with theComputers := s.theComputers.insert c cs } = .ok () s') ∨
    ∃ cs' s₁, s.theComputers[c]? = some cs' ∧ cs' ≠ cs ∧ removeComputer h c s = .ok () s₁ ∧
      s₁.theComputers = s.theComputers.erase c ∧ Occupied s₁.theLambdas ∧
      notifyComputer h c cs { s₁ with theComputers := s.theComputers.insert c cs } = .ok () s' := by
  cases hc : s.theComputers[c]? with
  | none =>
    rw [announceComputer_new h hc] at hok
    exact .inr (.inl ⟨rfl, hok⟩)
  | some cs' =>
    by_cases hsame : cs' = cs
    · subst hsame
      rw [announceComputer_again h hc] at hok
      obtain ⟨-, rfl⟩ := EStateM.Result.ok.inj hok
      exact .inl ⟨rfl, rfl⟩
    · rw [announceComputer_changed h hc hsame] at hok
      obtain ⟨_, s₁, hremove, hok⟩ := ok_of_bind hok
      obtain ⟨hcomputers, hoccupied⟩ := computers_of_removeComputer hf hs hremove
      have hgone : s₁.theComputers[c]? = none := by rw [hcomputers, lookup_erase, if_pos rfl]
      rw [addNotify_eq h hgone, announceComputer_new h hgone] at hok
      rw [hcomputers, insert_erase] at hok
      exact .inr (.inr ⟨cs', s₁, rfl, hsame, hremove, hcomputers, hoccupied, hok⟩)

end Results

section Returning

/-- A function of a controller never throws. -/
def Returns {A : Type} (m : Member D A) : Prop := ∀ s, ∃ a s', m s = .ok a s'

theorem returns_bind {A B : Type} {m : Member D A} {f : A → Member D B} (hm : Returns m)
    (hf : ∀ a, Returns (f a)) : Returns (m >>= f) := by
  intro s
  obtain ⟨a, s₁, hm⟩ := hm s
  obtain ⟨b, s₂, hf⟩ := hf a s₁
  exact ⟨b, s₂, by rw [bind_of_ok hm, hf]⟩

theorem returns_pure {A : Type} (a : A) : Returns (pure a : Member D A) := fun s => ⟨a, s, rfl⟩

theorem returns_modify (f : EdgeController D → EdgeController D) : Returns (modify f : Member D Unit) :=
  fun s => ⟨(), f s, rfl⟩

theorem returns_forM {A : Type} {f : A → Member D Unit} (hf : ∀ a, Returns (f a)) (xs : List A) :
    Returns (xs.forM f) := by
  induction xs with
  | nil => exact returns_pure ()
  | cons x xs ih => exact returns_bind (hf x) fun _ => ih

/-- A derived class whose functions do not throw. -/
structure NeverThrows (h : Hooks D) : Prop where
  addComputer : ∀ c ls, Returns (h.addComputer c ls)
  delComputer : ∀ c ls, Returns (h.delComputer c ls)
  addLambda : ∀ l, Returns (h.addLambda l)
  delLambda : ∀ l, Returns (h.delLambda l)
  privateAnnounceComputer : ∀ c cs, Returns (h.privateAnnounceComputer c cs)
  privateRemoveComputer : ∀ c ls, Returns (h.privateRemoveComputer c ls)

variable {h : Hooks D}

theorem returns_markServed (hadd : ∀ l, Returns (h.addLambda l)) (c l : String) :
    Returns (markServed h c l) := by
  refine returns_bind (returns_modify _) fun _ => returns_bind (fun s => ⟨s, s, rfl⟩) fun s => ?_
  split
  · exact returns_bind (hadd l) fun _ => returns_modify _
  · exact returns_modify _

theorem returns_unmarkServed (hdel : ∀ l, Returns (h.delLambda l)) (c l : String) :
    Returns (unmarkServed h c l) := by
  refine returns_bind (fun s => ⟨s, s, rfl⟩) fun s => ?_
  split
  · exact returns_pure ()
  · dsimp only
    split
    · exact returns_bind (returns_modify _) fun _ => hdel l
    · exact returns_modify _

theorem returns_addToComputers (c : String) (cs : ContainerList) :
    Returns (addToComputers c cs : Member D AddStatus) := by
  refine returns_bind (fun s => ⟨s, s, rfl⟩) fun s => ?_
  split
  · exact returns_pure _
  · exact returns_bind (returns_modify _) fun _ => returns_pure _

variable (hh : NeverThrows h)
include hh

theorem returns_notifyComputer (c : String) (cs : ContainerList) : Returns (notifyComputer h c cs) :=
  returns_bind (returns_forM (returns_markServed hh.addLambda c) _) fun _ =>
    returns_bind (hh.addComputer c _) fun _ => hh.privateAnnounceComputer c cs

theorem returns_removeComputer (c : String) : Returns (removeComputer h c) := by
  intro s
  rw [removeComputer_eq]
  refine returns_bind (returns_forM (returns_unmarkServed hh.delLambda c) _) (fun _ => ?_) _
  exact returns_bind (hh.delComputer c _) fun _ => hh.privateRemoveComputer c _

/-- Calls about computers return if the derived class does not throw. -/
theorem returns_serve (x : ComputerCall) : Returns (x.serve h) := by
  cases x with
  | removeComputer c => exact returns_removeComputer hh c
  | announceComputer c cs =>
    refine returns_bind (returns_addToComputers c cs) fun status => ?_
    cases status with
    | AlreadyPresent => exact returns_pure ()
    | NotPresent => exact returns_notifyComputer hh c cs
    | ContainersChanged =>
      refine returns_bind (returns_removeComputer hh c) fun _ => ?_
      exact returns_bind (returns_addToComputers c cs) fun _ => returns_notifyComputer hh c cs

end Returning

end ServerlessEdge.Controller.EdgeController
