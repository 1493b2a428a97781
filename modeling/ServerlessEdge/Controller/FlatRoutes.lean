import ServerlessEdge.Controller.EdgeControllerFlat

/-! Every registered router has the routes of all computers, whichever routers fail
to answer and whenever they do. -/
namespace ServerlessEdge.Controller.EdgeControllerFlat
open Std Library Maps Triple Writes Groups EdgeController Forwarding

/-- The pair that a command is about. -/
def pair (q : EdgeRouterConf ℚ) : String × String := (q.lambda, q.destination)

/-- A command takes a table towards a target. -/
def Towards (t : String × String → Option Bool) (q : EdgeRouterConf ℚ) : Prop :=
  ∀ f, applied q f = write t f (pair q)

section Batch

variable {env : Environment} {t : String × String → Option Bool} {qs : List (EdgeRouterConf ℚ)}
  (hq : ∀ q ∈ qs, Towards t q) {ks : List (String × String)} {ep f : String} {n : Network}
include hq

/-- A table that has its target keeps it. -/
theorem flags_stay (h : n.flags f = t) : (n.commands env ep qs).2.flags f = t :=
  Network.commands_preserve (P := fun g => g = t) ep
    (fun q hmem g hg => by rw [hq q hmem, hg, write_target]) h

theorem flags_off (h : Off ks t (n.flags f)) : Off ks t ((n.commands env ep qs).2.flags f) :=
  Network.commands_preserve (P := Off ks t) ep
    (fun q hmem g hg => by
      rw [hq q hmem]
      exact hg.write _) h

/-- A table that takes all the commands reaches the target. -/
theorem flags_reach (hsome : (n.commands env ep qs).1 = true) (h : Off (qs.map pair) t (n.flags ep)) :
    (n.commands env ep qs).2.flags ep = t := by
  obtain ⟨b, n', es, hc, _, _, _, _, htrue, _⟩ := Network.commands_cases env ep qs n
  rw [hc] at hsome ⊢
  have hfold (qs : List (EdgeRouterConf ℚ)) (hq : ∀ q ∈ qs, Towards t q) :
      ∀ g, qs.foldl (fun f q => applied q f) g = (qs.map pair).foldl (write t) g := by
    induction qs with
    | nil => exact fun _ => rfl
    | cons q qs ih =>
      intro g
      obtain ⟨hfirst, hrest⟩ := List.forall_mem_cons.mp hq
      rw [List.foldl_cons, hfirst g, ih hrest]
      rfl
  rw [htrue hsome, hfold qs hq]
  exact h.writes

end Batch

theorem towards_change {m : ExtTreeMap String ContainerList} {l c : String} (hc : c ≠ "")
    (hl : l ∈ offers m c) : Towards (routes m) ⟨.CHANGE, l, c, 1, true⟩ := by
  intro f
  have hok : ¬ ForwardingTable.Refused c (1 : ℚ) := by
    rintro (hneg | hempty | hnonpos)
    · exact absurd hneg (by decide)
    · exact hc hempty
    · exact absurd hnonpos (by decide)
  have hroute : routes m (l, c) = some true := if_pos hl
  simp only [applied, if_neg hok, write, pair, hroute]

theorem towards_remove {m : ExtTreeMap String ContainerList} {l c : String}
    (hl : l ∉ offers m c) : Towards (routes m) ⟨.REMOVE, l, c, 0, false⟩ := by
  intro f
  have hroute : routes m (l, c) = none := if_neg hl
  simp only [applied, write, pair, hroute]

/-- What holds of the tables while a batch of commands is sent to all routers: the
routers are those of some registry, and all tables are right but for the batch. -/
structure Sending (m : ExtTreeMap String ContainerList) (rs : ExtTreeMap String String)
    (ks : List (String × String)) (s : State) : Prop where
  computers : s.theComputers = m
  routers : ∀ e f : String, s.theRouters[e]? = some f → rs[e]? = some f
  off : ∀ e f : String, rs[e]? = some f → Off ks (routes m) (table s f)

section Sends

variable {env : Environment} {m : ExtTreeMap String ContainerList} {rs : ExtTreeMap String String}
  {qs : List (EdgeRouterConf ℚ)} {s : State} {e f : String}

theorem onNetwork_ok (g : Network → Bool × Network) (s : State) :
    onNetwork g s = .ok (g s.theDerived.theNetwork).1 (withNetwork s (g s.theDerived.theNetwork).2) :=
  rfl

/-- The state after a batch, and whether all of it was answered. -/
def sent (env : Environment) (f : String) (qs : List (EdgeRouterConf ℚ)) (s : State) : State :=
  withNetwork s (s.theDerived.theNetwork.commands env f qs).2

def answered (env : Environment) (f : String) (qs : List (EdgeRouterConf ℚ)) (s : State) : Bool :=
  (s.theDerived.theNetwork.commands env f qs).1

theorem Sending.sent (env : Environment) (h : Sending m rs (qs.map pair) s)
    (hq : ∀ q ∈ qs, Towards (routes m) q) (f : String) :
    Sending m rs (qs.map pair) (sent env f qs s) :=
  ⟨h.computers, h.routers, fun e' f' he' => flags_off hq (h.off e' f' he')⟩

theorem Sending.removed {ks : List (String × String)} (h : Sending m rs ks s) (e : String) :
    Sending m rs ks { s with theRouters := s.theRouters.erase e } := by
  refine ⟨h.computers, fun e' f' he' => ?_, h.off⟩
  change (s.theRouters.erase e)[e']? = some f' at he'
  rw [lookup_erase] at he'
  split at he'
  · cases he'
  · exact h.routers e' f' he'

/-- A router that has answered the whole batch has the routes. -/
theorem table_sent (h : Sending m rs (qs.map pair) s) (hq : ∀ q ∈ qs, Towards (routes m) q)
    (hf : rs[e]? = some f) (hanswer : answered env f qs s = true) :
    table (sent env f qs s) f = routes m := flags_reach hq hanswer (h.off e f hf)

theorem table_stays (hq : ∀ q ∈ qs, Towards (routes m) q) (f' : String)
    (h : table s f = routes m) : table (sent env f' qs s) f = routes m := flags_stay hq h

end Sends

theorem stable_false {A : Type} (m : Member EdgeControllerFlat A) : Stable (fun _ => False) m :=
  fun _ => False.elim

section Loops

variable {env : Environment} {m : ExtTreeMap String ContainerList} {s : State}

/-- All routers are told of a computer, then those that failed are removed. -/
theorem announce_uniform {c : String} {cs : ContainerList} (hc : c ≠ "")
    (hoffers : ∀ l ∈ cs.lambdas, l ∈ offers m c)
    (h : Sending m s.theRouters (cs.lambdas.map fun l => (l, c)) s) :
    wp (fun _ => False) (privateAnnounceComputer env c cs)
      (fun _ s' => s'.theComputers = m ∧ Uniform s') (fun _ _ => False) s := by
  let qs : List (EdgeRouterConf ℚ) := (cs.lambdas.map fun l => Route.mk l c 1 true).map fun x =>
    ⟨.CHANGE, x.lambda, x.destination, x.weight, x.final⟩
  have hqs : ∀ q ∈ qs, Towards (routes m) q := by
    intro q hq
    obtain ⟨x, hx, rfl⟩ := List.mem_map.mp hq
    obtain ⟨l, hl, rfl⟩ := List.mem_map.mp hx
    exact towards_change hc (hoffers l hl)
  have hpairs : qs.map pair = cs.lambdas.map fun l => (l, c) := by
    simp [qs, pair, Function.comp_def]
  rw [← hpairs] at h
  refine wp_get_bind (wp_bind (Q := fun (F : List String) s' => Sending m s.theRouters (qs.map pair) s' ∧
    ∀ x ∈ s.theRouters.toList, x.1 ∈ F ∨ table s' x.2 = routes m)
    (fun _ => stable_false _) ?_ fun F s' hs' => ?_)
  · refine wp_foldlM (fun (done : List (String × String)) F s' =>
      Sending m s.theRouters (qs.map pair) s' ∧ ∀ x ∈ done, x.1 ∈ F ∨ table s' x.2 = routes m) (fun _ _ => stable_false _) _
      (fun done x rest F s' hsplit hI => ?_) (fun F s' hI => hI) ⟨h, nofun⟩
    obtain ⟨hsending, hdone⟩ := hI
    have hx : s.theRouters[x.1]? = some x.2 := lookup_of_split hsplit
    refine wp_bind_of_ok (onNetwork_ok _ s') ?_
    have hsent := hsending.sent env hqs x.2
    have hkeep : ∀ y ∈ done, y.1 ∈ F ∨ table (sent env x.2 qs s') y.2 = routes m :=
      fun y hy => (hdone y hy).imp_right (table_stays hqs x.2)
    split
    · next hanswer =>
      refine wp_pure ⟨hsent, fun y hy => ?_⟩
      rcases List.mem_append.mp hy with hy | hy
      · exact hkeep y hy
      · obtain rfl := List.mem_singleton.mp hy
        exact .inr (table_sent hsending hqs hx hanswer)
    · refine wp_pure ⟨hsent, fun y hy => ?_⟩
      rcases List.mem_append.mp hy with hy | hy
      · exact (hkeep y hy).imp_left (List.mem_append_left _)
      · obtain rfl := List.mem_singleton.mp hy
        exact .inl (List.mem_append_right _ List.mem_cons_self)
  · obtain ⟨hsending, hall⟩ := hs'
    refine wp_forM (fun done s'' => Sending m s.theRouters (qs.map pair) s'' ∧
      s''.theDerived = s'.theDerived ∧ ∀ e ∈ done, e ∉ s''.theRouters)
      (fun _ => stable_false _) F (fun done e rest s'' _ hI => ?_) (fun s'' hI => ?_)
      ⟨hsending, rfl, nofun⟩
    · obtain ⟨hsending', hnet, hdone⟩ := hI
      refine wp_modify ⟨hsending'.removed e, hnet, fun e' he' => ?_⟩
      change e' ∉ s''.theRouters.erase e
      rw [mem_erase]
      rintro ⟨hne, hmem⟩
      rcases List.mem_append.mp he' with he' | he'
      · exact hdone e' he' hmem
      · exact hne (List.mem_singleton.mp he')
    · obtain ⟨hsending', hnet, hdone⟩ := hI
      refine ⟨hsending'.computers, fun e f hf => ?_⟩
      have hgone : e ∉ F := fun he => hdone e he (mem_of_lookup hf)
      have hright := (hall (e, f) (mem_toList.mpr (hsending'.routers e f hf))).resolve_left hgone
      rw [hsending'.computers, table, hnet]
      exact hright

/-- All routers are told that a computer is gone, and those that fail are removed
on the way. -/
theorem remove_uniform {c : String} {ls : List String} (hoffers : ∀ l ∈ ls, l ∉ offers m c)
    (h : Sending m s.theRouters (ls.map fun l => (l, c)) s) :
    wp (fun _ => False) (privateRemoveComputer env c ls)
      (fun _ s' => s'.theComputers = m ∧ Uniform s') (fun _ _ => False) s := by
  let qs : List (EdgeRouterConf ℚ) := ls.map fun l => ⟨.REMOVE, l, c, 0, false⟩
  have hqs : ∀ q ∈ qs, Towards (routes m) q := by
    intro q hq
    obtain ⟨l, hl, rfl⟩ := List.mem_map.mp hq
    exact towards_remove (hoffers l hl)
  have hpairs : qs.map pair = ls.map fun l => (l, c) := by
    simp [qs, pair, Function.comp_def]
  rw [← hpairs] at h
  refine wp_get_bind (wp_forM (fun (done : List (String × String)) s' =>
    Sending m s.theRouters (qs.map pair) s' ∧
      ∀ x ∈ done, x.1 ∉ s'.theRouters ∨ table s' x.2 = routes m) (fun _ => stable_false _) _
    (fun done x rest s' hsplit hI => ?_) (fun s' hI => ?_) ⟨h, nofun⟩)
  · obtain ⟨hsending, hdone⟩ := hI
    have hx : s.theRouters[x.1]? = some x.2 := lookup_of_split hsplit
    refine wp_bind_of_ok (onNetwork_ok _ s') ?_
    have hsent := hsending.sent env hqs x.2
    have hkeep : ∀ y ∈ done, y.1 ∉ s'.theRouters ∨ table (sent env x.2 qs s') y.2 = routes m :=
      fun y hy => (hdone y hy).imp_right (table_stays hqs x.2)
    split
    · next hanswer =>
      refine wp_pure ⟨hsent, fun y hy => ?_⟩
      rcases List.mem_append.mp hy with hy | hy
      · exact hkeep y hy
      · obtain rfl := List.mem_singleton.mp hy
        exact .inr (table_sent hsending hqs hx hanswer)
    · refine wp_modify ⟨hsent.removed x.1, fun y hy => ?_⟩
      rcases List.mem_append.mp hy with hy | hy
      · exact (hkeep y hy).imp_left fun hgone hmem => hgone (mem_erase.mp hmem).2
      · obtain rfl := List.mem_singleton.mp hy
        exact .inl fun hmem => (mem_erase.mp hmem).1 rfl
  · obtain ⟨hsending, hdone⟩ := hI
    refine ⟨hsending.computers, fun e f hf => ?_⟩
    rw [hsending.computers]
    have hx := mem_toList.mpr (hsending.routers e f hf)
    exact (hdone (e, f) hx).resolve_left fun hgone => hgone (mem_of_lookup hf)

theorem mem_lambdas {l c : String} : (l, c) ∈ lambdas m ↔ l ∈ offers m c := by
  rw [mem_offers, lambdas, List.mem_flatMap]
  constructor
  · rintro ⟨x, hx, hl⟩
    obtain ⟨l', hl', heq⟩ := List.mem_map.mp hl
    cases heq
    exact ⟨x.2, mem_toList.mp hx, hl'⟩
  · rintro ⟨cs, hcs, hl⟩
    exact ⟨(c, cs), mem_toList.mpr hcs, List.mem_map.mpr ⟨l, hl, rfl⟩⟩

/-- A router with an empty table or the right one is told of all computers. -/
theorem announceRouter_uniform {e f : String}
    (hs : ∀ e' f' : String, e' ≠ e → s.theRouters[e']? = some f' → table s f' = routes s.theComputers)
    (hf : table s f = (fun _ => none) ∨ table s f = routes s.theComputers)
    (hnames : "" ∉ s.theComputers) : wp (fun _ => False) (announceRouter (hooks env) e f)
      (fun _ s' => s'.theComputers = s.theComputers ∧ Uniform s') (fun _ _ => False) s := by
  let m := s.theComputers
  let s₁ : State := { s with theRouters := s.theRouters.insert e f }
  let qs : List (EdgeRouterConf ℚ) := ((lambdas m).map fun x => Route.mk x.1 x.2 1 true).map fun x =>
    ⟨.CHANGE, x.lambda, x.destination, x.weight, x.final⟩
  have hpairs : qs.map pair = lambdas m := by
    simp [qs, pair, Function.comp_def]
  have hqs : ∀ q ∈ qs, Towards (routes m) q := by
    intro q hq
    obtain ⟨x, hx, rfl⟩ := List.mem_map.mp hq
    obtain ⟨y, hy, rfl⟩ := List.mem_map.mp hx
    have hoffer := mem_lambdas.mp hy
    obtain ⟨cs, hcs, _⟩ := mem_offers.mp hoffer
    refine towards_change ?_ hoffer
    rintro hempty
    exact hnames (hempty ▸ mem_of_lookup hcs)
  have hoff : Off (qs.map pair) (routes m) (table s f) := by
    rcases hf with hf | hf
    · intro p hp
      rw [hf, routes, if_neg]
      rw [hpairs] at hp
      exact fun hl => hp (mem_lambdas.mpr hl)
    · intro p _
      rw [hf]
  have hother : ∀ e' f', e' ≠ e → s₁.theRouters[e']? = some f' → table s₁ f' = routes m := by
    intro e' f' hne he'
    change (s.theRouters.insert e f)[e']? = some f' at he'
    rw [lookup_insert, if_neg hne] at he'
    exact hs e' f' hne he'
  have hrouter : s₁.theRouters[e]? = some f := by
    change (s.theRouters.insert e f)[e]? = some f
    rw [lookup_insert, if_pos rfl]
  refine wp_modify_bind (wp_get_bind ?_)
  change wp _ (if (lambdas m).map (fun x => Route.mk x.1 x.2 1 true) = [] then _ else _) _ _ s₁
  split
  · next hnil =>
    refine wp_pure ⟨rfl, fun e' f' he' => ?_⟩
    by_cases hne : e' = e
    · subst hne
      obtain rfl := Option.some.inj (hrouter.symm.trans he')
      have hkeys : qs.map pair = [] := by simp only [qs, hnil, List.map_nil]
      rw [hkeys] at hoff
      exact funext fun p => hoff p List.not_mem_nil
    · exact hother e' f' hne he'
  · refine wp_bind_of_ok (onNetwork_ok _ s₁) ?_
    split
    · next hanswer =>
      refine wp_pure ⟨rfl, fun e' f' he' => ?_⟩
      by_cases hne : e' = e
      · subst hne
        obtain rfl := Option.some.inj (hrouter.symm.trans he')
        exact flags_reach hqs hanswer hoff
      · exact table_stays (s := s₁) hqs f (hother e' f' hne he')
    · refine wp_modify ⟨rfl, fun e' f' he' => ?_⟩
      obtain ⟨hne, he'⟩ : e' ≠ e ∧ s₁.theRouters[e']? = some f' := by
        change (s₁.theRouters.erase e)[e']? = some f' at he'
        rw [lookup_erase] at he'
        split at he'
        · cases he'
        · exact ⟨‹_›, he'⟩
      exact table_stays (s := s₁) hqs f (hother e' f' hne he')

end Loops

end ServerlessEdge.Controller.EdgeControllerFlat
