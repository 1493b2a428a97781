import ServerlessEdge.Controller.EdgeControllerEtsi

/-! What a derived class is notified of over a whole run. Each notification is
logged with the lambdas that are known at the time. -/
namespace ServerlessEdge.Controller.EdgeController
open Std Library Maps Groups Triple

inductive Notification where
  | addComputer (aEndpoint : String) (aLambdas : List String)
  | delComputer (aEndpoint : String) (aLambdas : List String)
  | addLambda (aLambda : String)
  | delLambda (aLambda : String)
  deriving DecidableEq, Repr

/-- A notification and theLambdas as it finds them. -/
structure LogEntry where
  theNotification : Notification
  theLambdas : LambdaMap

/-- The data of a derived class, and the notifications made to it so far. -/
structure Logged (D : Type) where
  theDerived : D
  log : List LogEntry

variable {D : Type}

/-- The same controller with other data of the derived class. -/
def withDerived {E : Type} (s : EdgeController D) (e : E) : EdgeController E :=
  ⟨s.theComputers, s.theRouters, s.theLambdas, e⟩

/-- The function of the derived class, with its notification logged first. -/
def logged (aNotifications : List Notification) (m : Member D Unit) : Member (Logged D) Unit := fun s =>
  let myLog := s.theDerived.log ++ aNotifications.map fun n => ⟨n, s.theLambdas⟩
  match m (s.withDerived s.theDerived.theDerived) with
  | .ok a t => .ok a (t.withDerived ⟨t.theDerived, myLog⟩)
  | .error e t => .error e (t.withDerived ⟨t.theDerived, myLog⟩)

def Hooks.logged (h : Hooks D) : Hooks (Logged D) where
  addComputer c ls := EdgeController.logged [.addComputer c ls] (h.addComputer c ls)
  delComputer c ls := EdgeController.logged [.delComputer c ls] (h.delComputer c ls)
  addLambda l := EdgeController.logged [.addLambda l] (h.addLambda l)
  delLambda l := EdgeController.logged [.delLambda l] (h.delLambda l)
  privateAnnounceComputer c cs := EdgeController.logged [] (h.privateAnnounceComputer c cs)
  privateAnnounceRouter e f := EdgeController.logged [] (h.privateAnnounceRouter e f)
  privateRemoveComputer c ls := EdgeController.logged [] (h.privateRemoveComputer c ls)

def Notification.edge? : Notification → Option (Edge String)
  | .addLambda l => some (.occupied l)
  | .delLambda l => some (.vacant l)
  | _ => none

/-- The notifications that a lambda has appeared or disappeared. -/
def lambdaEdges (aLog : List LogEntry) : List (Edge String) :=
  aLog.filterMap fun e => e.theNotification.edge?

/-- What a notification finds in theLambdas. -/
def LogEntry.Sound (e : LogEntry) : Prop :=
  match e.theNotification with
  | .addComputer c ls => ∀ l ∈ ls, c ∈ e.theLambdas.getD l ∅
  | .delComputer c ls => ∀ l ∈ ls, c ∉ e.theLambdas.getD l ∅
  | .addLambda l => e.theLambdas[l]? = some ∅
  | .delLambda l => l ∉ e.theLambdas

/-- What some changes do to theLambdas and to the log. -/
structure Follows (xs : List (Change String String)) (s s' : EdgeController (Logged D)) : Prop where
  groups : groups s'.theLambdas = applyAll (groups s.theLambdas) xs
  occupied : Occupied s'.theLambdas
  edges : lambdaEdges s'.theDerived.log =
    lambdaEdges s.theDerived.log ++ edges (Groups.groups s.theLambdas) xs
  sound : (∀ e ∈ s.theDerived.log, e.Sound) → ∀ e ∈ s'.theDerived.log, e.Sound

theorem Follows.trans {xs ys : List (Change String String)} {s s₁ s₂ : EdgeController (Logged D)}
    (h : Follows xs s s₁) (h' : Follows ys s₁ s₂) : Follows (xs ++ ys) s s₂ := by
  constructor
  · rw [h'.groups, h.groups, applyAll_append]
  · exact h'.occupied
  · rw [h'.edges, h.edges, h.groups, edges_append, List.append_assoc]
  · exact fun hs => h'.sound (h.sound hs)

theorem Follows.refl {s : EdgeController (Logged D)} (hs : Occupied s.theLambdas) :
    Follows [] s s := ⟨rfl, hs, (List.append_nil _).symm, id⟩

section Logging

variable {m : Member D Unit} {s s' : EdgeController (Logged D)} {ns : List Notification}

/-- A hook that leaves the maps alone adds its notification to the log. -/
theorem logged_ok (hk : Keeps m) (hok : logged ns m s = .ok () s') :
    s'.theComputers = s.theComputers ∧ s'.theLambdas = s.theLambdas ∧
      s'.theDerived.log = s.theDerived.log ++ ns.map fun n => ⟨n, s.theLambdas⟩ := by
  unfold logged at hok
  cases hm : m (s.withDerived s.theDerived.theDerived) with
  | error e t =>
    rw [hm] at hok
    cases hok
  | ok _ t =>
    rw [hm] at hok
    obtain ⟨-, rfl⟩ := EStateM.Result.ok.inj hok
    obtain ⟨hcomputers, hlambdas⟩ := hk _ _ hm
    exact ⟨hcomputers, hlambdas, rfl⟩

theorem logged_keeps (hk : Keeps m) : Keeps (logged ns m) := fun _ _ hok =>
  ⟨(logged_ok hk hok).1, (logged_ok hk hok).2.1⟩

theorem Frames.logged {h : Hooks D} (hf : Frames h) : Frames h.logged where
  addComputer c ls := logged_keeps (hf.addComputer c ls)
  delComputer c ls := logged_keeps (hf.delComputer c ls)
  addLambda l := logged_keeps (hf.addLambda l)
  delLambda l := logged_keeps (hf.delLambda l)
  privateAnnounceComputer c cs := logged_keeps (hf.privateAnnounceComputer c cs)
  privateRemoveComputer c ls := logged_keeps (hf.privateRemoveComputer c ls)

theorem returns_logged (hm : Returns m) : Returns (logged ns m) := by
  intro s
  obtain ⟨a, t, hm⟩ := hm (s.withDerived s.theDerived.theDerived)
  exact ⟨a, _, by rw [logged, hm]⟩

/-- A log does not make the derived class throw. -/
theorem NeverThrows.logged {h : Hooks D} (hh : NeverThrows h) : NeverThrows h.logged where
  addComputer c ls := returns_logged (hh.addComputer c ls)
  delComputer c ls := returns_logged (hh.delComputer c ls)
  addLambda l := returns_logged (hh.addLambda l)
  delLambda l := returns_logged (hh.delLambda l)
  privateAnnounceComputer c cs := returns_logged (hh.privateAnnounceComputer c cs)
  privateRemoveComputer c ls := returns_logged (hh.privateRemoveComputer c ls)

/-- A notification that is not about a lambda. -/
theorem follows_logged (hk : Keeps m) (hs : Occupied s.theLambdas)
    (hedges : ns.filterMap Notification.edge? = [])
    (hsound : ∀ n ∈ ns, LogEntry.Sound ⟨n, s.theLambdas⟩) (hok : logged ns m s = .ok () s') :
    s'.theComputers = s.theComputers ∧ Follows [] s s' := by
  obtain ⟨hcomputers, hlambdas, hlog⟩ := logged_ok hk hok
  refine ⟨hcomputers, ?_, ?_, ?_, ?_⟩
  · rw [hlambdas]
    rfl
  · rw [hlambdas]
    exact hs
  · rw [hlog, lambdaEdges, List.filterMap_append, List.filterMap_map]
    exact congrArg _ hedges
  · intro hall e he
    rw [hlog] at he
    rcases List.mem_append.mp he with he | he
    · exact hall e he
    · obtain ⟨n, hn, rfl⟩ := List.mem_map.mp he
      exact hsound n hn

end Logging

section Steps

variable {h : Hooks D} (hf : Frames h) {c l : String} {s s' : EdgeController (Logged D)}
include hf

theorem markServed_follows (hs : Occupied s.theLambdas)
    (hok : markServed h.logged c l s = .ok () s') :
    s'.theComputers = s.theComputers ∧ Follows [.join c l] s s' := by
  obtain ⟨s₁, hadd, rfl⟩ := markServed_ok (logged_keeps (hf.addLambda l)) hok
  have hrest (hcomputers : s₁.theComputers = s.theComputers)
      (hedges : lambdaEdges s₁.theDerived.log =
        lambdaEdges s.theDerived.log ++ (Change.join c l).heard (groups s.theLambdas))
      (hsound : (∀ e ∈ s.theDerived.log, e.Sound) → ∀ e ∈ s₁.theDerived.log, e.Sound) :
      s₁.theComputers = s.theComputers ∧
        Follows [.join c l] s { s₁ with theLambdas := rowsJoin c s.theLambdas l } := by
    refine ⟨hcomputers, groups_rowsJoin c l, hs.rowsJoin c l, ?_, hsound⟩
    rw [edges, edges, List.append_nil]
    exact hedges
  rw [heard_join] at hrest
  by_cases hempty : groups s.theLambdas l = ∅
  · rw [if_pos hempty] at hadd hrest
    obtain ⟨hcomputers, -, hlog⟩ := logged_ok (hf.addLambda l) hadd
    refine hrest hcomputers ?_ fun hall e he => ?_
    · rw [hlog, lambdaEdges, List.filterMap_append]
      rfl
    · rw [hlog] at he
      rcases List.mem_append.mp he with he | he
      · exact hall e he
      · rw [List.map_singleton, List.mem_singleton] at he
        rw [he]
        have hrow : s.served l = ∅ := ExtTreeSet.isEmpty_iff.mp (groups_eq_empty.mp hempty)
        simp [LogEntry.Sound, setServed, hrow]
  · rw [if_neg hempty] at hadd hrest
    rw [hadd] at hrest ⊢
    exact hrest rfl (List.append_nil _).symm id

theorem unmarkServed_follows (hs : Occupied s.theLambdas)
    (hok : unmarkServed h.logged c l s = .ok () s') :
    s'.theComputers = s.theComputers ∧ Follows [.leave c l] s s' := by
  have hdel := unmarkServed_ok hs hok
  have hrest (hcomputers : s'.theComputers = s.theComputers)
      (hlambdas : s'.theLambdas = rowsLeave c s.theLambdas l)
      (hedges : lambdaEdges s'.theDerived.log =
        lambdaEdges s.theDerived.log ++ (Change.leave c l).heard (groups s.theLambdas))
      (hsound : (∀ e ∈ s.theDerived.log, e.Sound) → ∀ e ∈ s'.theDerived.log, e.Sound) :
      s'.theComputers = s.theComputers ∧ Follows [.leave c l] s s' := by
    refine ⟨hcomputers, ?_, ?_, ?_, hsound⟩
    · rw [hlambdas]
      exact groups_rowsLeave c l
    · rw [hlambdas]
      exact hs.rowsLeave c l
    · rw [edges, edges, List.append_nil]
      exact hedges
  rw [heard_leave] at hrest
  by_cases hsingle : groups s.theLambdas l = {c}
  · rw [if_pos hsingle] at hdel hrest
    obtain ⟨hcomputers, hlambdas, hlog⟩ := logged_ok (hf.delLambda l) hdel
    refine hrest hcomputers hlambdas ?_ fun hall e he => ?_
    · rw [hlog, lambdaEdges, List.filterMap_append]
      rfl
    · rw [hlog] at he
      rcases List.mem_append.mp he with he | he
      · exact hall e he
      · rw [List.map_singleton, List.mem_singleton] at he
        rw [he]
        obtain ⟨r, hr, hempty⟩ := (groups_eq_singleton hs).mp hsingle
        have hrow : (rowsLeave c s.theLambdas l)[l]? = none := by
          rw [lookup_rowsLeave, if_pos rfl, hr, Option.bind_some, if_pos hempty]
        exact fun hmem => by
          obtain ⟨v, hv⟩ := lookup_of_mem hmem
          rw [hrow] at hv
          cases hv
  · rw [if_neg hsingle] at hdel hrest
    rw [hdel] at hrest ⊢
    exact hrest rfl rfl (List.append_nil _).symm id

theorem marks_follow {ls : List String} (hs : Occupied s.theLambdas)
    (hok : ls.forM (markServed h.logged c) s = .ok () s') :
    s'.theComputers = s.theComputers ∧ Follows (ls.map (.join c)) s s' := by
  refine forM_ok (T := fun ls s s' => Occupied s.theLambdas →
    s'.theComputers = s.theComputers ∧ Follows (ls.map (.join c)) s s')
    (fun s hs => ⟨rfl, .refl hs⟩) (fun l ls s s₁ s₂ hl hls hs => ?_) hok hs
  obtain ⟨hcomputers, hfirst⟩ := markServed_follows hf hs hl
  obtain ⟨hcomputers', hrest⟩ := hls hfirst.occupied
  exact ⟨hcomputers'.trans hcomputers, hfirst.trans hrest⟩

theorem unmarks_follow {ls : List String} (hs : Occupied s.theLambdas)
    (hok : ls.forM (unmarkServed h.logged c) s = .ok () s') :
    s'.theComputers = s.theComputers ∧ Follows (ls.map (.leave c)) s s' := by
  refine forM_ok (T := fun ls s s' => Occupied s.theLambdas →
    s'.theComputers = s.theComputers ∧ Follows (ls.map (.leave c)) s s')
    (fun s hs => ⟨rfl, .refl hs⟩) (fun l ls s s₁ s₂ hl hls hs => ?_) hok hs
  obtain ⟨hcomputers, hfirst⟩ := unmarkServed_follows hf hs hl
  obtain ⟨hcomputers', hrest⟩ := hls hfirst.occupied
  exact ⟨hcomputers'.trans hcomputers, hfirst.trans hrest⟩

/-- The computer is known to serve its lambdas when it is notified. -/
theorem notifyComputer_follows {cs : ContainerList} (hs : Occupied s.theLambdas)
    (hok : notifyComputer h.logged c cs s = .ok () s') :
    s'.theComputers = s.theComputers ∧ Follows (cs.lambdas.map (.join c)) s s' := by
  obtain ⟨_, s₁, hmarks, hok⟩ := ok_of_bind hok
  obtain ⟨_, s₂, hadd, hannounce⟩ := ok_of_bind hok
  obtain ⟨hcomputers, hjoin⟩ := marks_follow hf hs hmarks
  have hsound : ∀ n ∈ [Notification.addComputer c cs.lambdas], LogEntry.Sound ⟨n, s₁.theLambdas⟩ := by
    intro n hn
    obtain rfl := List.mem_singleton.mp hn
    intro (l : String) hl
    have hmem : c ∈ groups s₁.theLambdas l := by
      rw [hjoin.groups, mem_joins]
      exact .inr ⟨rfl, hl⟩
    exact mem_groups.mp hmem
  obtain ⟨hcomputers', hnote⟩ :=
    follows_logged (hf.addComputer c cs.lambdas) hjoin.occupied rfl hsound hadd
  obtain ⟨hcomputers'', hrest⟩ :=
    follows_logged (hf.privateAnnounceComputer c cs) hnote.occupied rfl (List.forall_mem_nil _) hannounce
  refine ⟨hcomputers''.trans (hcomputers'.trans hcomputers), ?_⟩
  have hall := hjoin.trans (hnote.trans hrest)
  rwa [List.append_nil, List.append_nil] at hall

theorem removeComputer_follows (hs : Occupied s.theLambdas)
    (hok : removeComputer h.logged c s = .ok () s') :
    s'.theComputers = s.theComputers.erase c ∧
      Follows ((offers s.theComputers c).map (.leave c)) s s' := by
  rw [removeComputer_eq] at hok
  obtain ⟨_, s₁, hunmarks, hok⟩ := ok_of_bind hok
  obtain ⟨_, s₂, hdel, hremove⟩ := ok_of_bind hok
  let s₀ : EdgeController (Logged D) := { s with theComputers := s.theComputers.erase c }
  obtain ⟨hcomputers, hleave⟩ := unmarks_follow (s := s₀) hf hs hunmarks
  let ls := offers s.theComputers c
  have hsound : ∀ n ∈ [Notification.delComputer c ls], LogEntry.Sound ⟨n, s₁.theLambdas⟩ := by
    intro n hn
    obtain rfl := List.mem_singleton.mp hn
    intro (l : String) hl hmem
    have hmem' : c ∈ groups s₁.theLambdas l := mem_groups.mpr hmem
    rw [hleave.groups, mem_leaves] at hmem'
    exact hmem'.2 ⟨rfl, hl⟩
  obtain ⟨hcomputers', hnote⟩ :=
    follows_logged (hf.delComputer c ls) hleave.occupied rfl hsound hdel
  obtain ⟨hcomputers'', hrest⟩ :=
    follows_logged (hf.privateRemoveComputer c ls) hnote.occupied rfl (List.forall_mem_nil _) hremove
  refine ⟨hcomputers''.trans (hcomputers'.trans hcomputers), ?_⟩
  have hall := hleave.trans (hnote.trans hrest)
  rw [List.append_nil, List.append_nil] at hall
  exact ⟨hall.groups, hall.occupied, hall.edges, hall.sound⟩

theorem announceComputer_follows {cs : ContainerList} (hs : Occupied s.theLambdas)
    (hok : announceComputer h.logged c cs s = .ok () s') :
    s'.theComputers = s.theComputers.insert c cs ∧
      Follows ((ComputerCall.announceComputer c cs).changes s.theComputers) s s' := by
  have hnotify (s : EdgeController (Logged D)) (m : ExtTreeMap String ContainerList)
      (hs : Occupied s.theLambdas)
      (hok : notifyComputer h.logged c cs { s with theComputers := m } = .ok () s') :
      s'.theComputers = m ∧ Follows (cs.lambdas.map (.join c)) s s' := by
    let s₀ : EdgeController (Logged D) := { s with theComputers := m }
    obtain ⟨hcomputers, hall⟩ := notifyComputer_follows (s := s₀) hf hs hok
    exact ⟨hcomputers, hall.groups, hall.occupied, hall.edges, hall.sound⟩
  rw [ComputerCall.changes]
  rcases announceComputer_cases hf.logged hs hok with ⟨hc, rfl⟩ | ⟨hc, hok⟩ |
      ⟨cs', s₁, hc, hne, hremove, hcomputers, hoccupied, hok⟩
  · rw [if_pos hc, insert_self hc]
    exact ⟨rfl, .refl hs⟩
  · have hoffers : offers s.theComputers c = [] := by rw [offers, hc]; rfl
    rw [hc, if_neg (Option.some_ne_none cs).symm, hoffers]
    exact hnotify s _ hs hok
  · obtain ⟨hcomputers', hjoin⟩ := hnotify s₁ _ hoccupied hok
    rw [hc, if_neg fun heq => hne (Option.some.inj heq)]
    exact ⟨hcomputers', (removeComputer_follows hf hs hremove).2.trans hjoin⟩

/-- One call, for any derived class. -/
theorem serve_follows (hs : Exact s) {x : ComputerCall} (hok : x.serve h.logged s = .ok () s') :
    s'.theComputers = x.registered s.theComputers ∧ Follows (x.changes s.theComputers) s s' := by
  cases x with
  | announceComputer c cs => exact announceComputer_follows hf hs.occupied hok
  | removeComputer c => exact removeComputer_follows hf hs.occupied hok

end Steps

/-- At the end of every call theLambdas is exact. Over the whole run the derived
class hears of a lambda when the number of computers serving it goes from zero
to one or back, so that it hears of appearance and disappearance in turns, and
each notification finds theLambdas as it should. -/
theorem notifications_alternate {h : Hooks D} (hf : Frames h) {d : D} {calls : List ComputerCall}
    {s : EdgeController (Logged D)}
    (hrun : calls.forM (ComputerCall.serve h.logged) (new ⟨d, []⟩) = .ok () s) :
    (∀ l c : String, c ∈ s.theLambdas.getD l ∅ ↔
      ∃ cs : ContainerList, s.theComputers[c]? = some cs ∧ l ∈ cs.lambdas) ∧
    (∀ (l : String) (cs : ExtTreeSet String), s.theLambdas[l]? = some cs → cs.isEmpty = false) ∧
    groups s.theLambdas = applyAll (fun _ => ∅) (changesOf ∅ calls) ∧
    lambdaEdges s.theDerived.log = edges (fun _ => ∅) (changesOf ∅ calls) ∧
    (∀ l, Alternates true ((lambdaEdges s.theDerived.log).filterMap (Edge.at? l))) ∧
    ∀ e ∈ s.theDerived.log, e.Sound := by
  have hall : Exact (new (⟨d, []⟩ : Logged D)) → Exact s ∧ Follows (changesOf ∅ calls) (new ⟨d, []⟩) s := by
    refine forM_ok (T := fun calls s s' => Exact s →
      Exact s' ∧ Follows (changesOf s.theComputers calls) s s')
      (fun s hs => ⟨hs, .refl hs.occupied⟩) (fun x xs s s₁ s₂ hx hxs hs => ?_) hrun
    obtain ⟨hcomputers, hfirst⟩ := serve_follows hf hs hx
    obtain ⟨hexact, hrest⟩ := hxs (hs.changed hcomputers hfirst.groups hfirst.occupied)
    rw [hcomputers] at hrest
    exact ⟨hexact, hfirst.trans hrest⟩
  have hvacant : groups (new (⟨d, []⟩ : Logged D)).theLambdas = fun _ => ∅ := by
    funext l
    rw [groups_eq_empty]
    simp [new]
  obtain ⟨hexact, hfollows⟩ := hall (Exact.new _)
  have hedges : lambdaEdges s.theDerived.log = edges (fun _ => ∅) (changesOf ∅ calls) := by
    rw [hfollows.edges, hvacant]
    rfl
  refine ⟨fun l c => (hexact.serves l c).trans mem_offers, hexact.occupied, ?_, hedges, fun l => ?_,
    hfollows.sound fun e he => absurd he List.not_mem_nil⟩
  · rw [hfollows.groups, hvacant]
  · rw [hedges]
    exact edges_alternate l (fun _ => ∅) (changesOf ∅ calls)

/-- Computers of one container for each lambda. -/
def offering (aLambdas : List String) : ContainerList :=
  ⟨aLambdas.map fun l => ⟨l, "cpu", l, 1⟩⟩

/-- The lambda l is repeated, survives one computer and a change of the other,
and disappears with it. -/
def exampleCalls : List ComputerCall :=
  [.announceComputer "a" (offering ["l", "l"]), .announceComputer "b" (offering ["l", "m"]),
    .removeComputer "a", .announceComputer "b" (offering ["l", "l", "k"]), .removeComputer "b"]

theorem notifications_alternate_example :
    ∃ s, exampleCalls.forM (ComputerCall.serve (EdgeControllerEtsi.hooks "1.0").logged)
      (new ⟨⟨[]⟩, []⟩) = .ok () s ∧
      (lambdaEdges s.theDerived.log).filterMap (Edge.at? "l") = [true, false, true, false] ∧
      Alternates true ((lambdaEdges s.theDerived.log).filterMap (Edge.at? "l")) := by
  have hreturns := returns_forM
    (returns_serve (NeverThrows.logged (EdgeControllerEtsi.neverThrows "1.0"))) exampleCalls
  obtain ⟨_, s, hrun⟩ := hreturns (new ⟨⟨[]⟩, []⟩)
  obtain ⟨_, _, _, hedges, halternate, _⟩ :=
    notifications_alternate (EdgeControllerEtsi.frames "1.0") hrun
  refine ⟨s, hrun, ?_, halternate "l"⟩
  rw [hedges]
  decide +kernel

end ServerlessEdge.Controller.EdgeController
