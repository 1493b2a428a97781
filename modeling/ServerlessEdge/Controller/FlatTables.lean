import ServerlessEdge.Controller.FlatRoutes

/-! The tables along whole runs of a controller with flat routing. -/
namespace ServerlessEdge.Controller.EdgeControllerFlat
open Std Library Maps Triple Writes Runs EdgeController Forwarding

variable {env : Environment} {m : ExtTreeMap String ContainerList} {s : State}
  {c e f : String} {cs : ContainerList}

theorem routes_erase (m : ExtTreeMap String ContainerList) (c : String) :
    Off ((offers m c).map fun l => (l, c)) (routes (m.erase c)) (routes m) := by
  rintro ⟨l, c'⟩ hout
  simp only [routes, offers_erase]
  by_cases hc : c' = c
  · subst hc
    have hoffer : l ∉ offers m c' := fun hl => hout (List.mem_map.mpr ⟨l, hl, rfl⟩)
    rw [if_neg hoffer, if_pos rfl, if_neg List.not_mem_nil]
  · rw [if_neg hc]

theorem routes_insert (hc : m[c]? = none) (cs : ContainerList) :
    Off (cs.lambdas.map fun l => (l, c)) (routes (m.insert c cs)) (routes m) := by
  rintro ⟨l, c'⟩ hout
  simp only [routes, offers_insert]
  by_cases hc' : c' = c
  · subst hc'
    have hbefore : offers m c' = [] := by rw [offers, hc]; rfl
    have hoffer : l ∉ cs.lambdas := fun hl => hout (List.mem_map.mpr ⟨l, hl, rfl⟩)
    rw [hbefore, if_neg List.not_mem_nil, if_pos rfl, if_neg hoffer]
  · rw [if_neg hc']

/-- The lambdas of a computer are taken out of all tables. -/
theorem removeComputer_uniform (hs : Uniform s) (c : String) :
    wp (fun _ => False) (removeComputer (hooks env) c)
      (fun _ s' => s'.theComputers = s.theComputers.erase c ∧ Uniform s') (fun _ _ => False) s := by
  obtain ⟨ls, hls⟩ := unmarks_silent (h := hooks env) (c := c) (fun _ => rfl)
    (offers s.theComputers c) { s with theComputers := s.theComputers.erase c }
  apply wp_congr (removeComputer_eq (hooks env) c s)
  apply wp_bind_of_ok hls
  refine wp_bind_of_ok rfl (remove_uniform (fun l _ => ?_) ⟨rfl, fun _ _ h => h, fun e f hf => ?_⟩)
  · rw [offers_erase, if_pos rfl]
    exact List.not_mem_nil
  · have htable : table s f = routes s.theComputers := hs e f hf
    exact htable ▸ routes_erase s.theComputers c

/-- The lambdas of a new computer are put in all tables. -/
theorem newComputer_uniform (hs : Uniform s) (hc : c ≠ "") (hnew : s.theComputers[c]? = none) :
    wp (fun _ => False) (announceComputer (hooks env) c cs)
      (fun _ s' => s'.theComputers = s.theComputers.insert c cs ∧ Uniform s')
      (fun _ _ => False) s := by
  obtain ⟨ls, hls⟩ := marks_silent (h := hooks env) (c := c) (fun _ => rfl) cs.lambdas
    { s with theComputers := s.theComputers.insert c cs }
  apply wp_congr (announceComputer_new (hooks env) hnew)
  apply wp_bind_of_ok hls
  refine wp_bind_of_ok rfl (announce_uniform hc (fun l hl => ?_)
    ⟨rfl, fun _ _ h => h, fun e f hf => ?_⟩)
  · rw [offers_insert, if_pos rfl]
    exact hl
  · have htable : table s f = routes s.theComputers := hs e f hf
    exact htable ▸ routes_insert hnew cs

/-- A computer whose containers have changed is taken out of all tables first. -/
theorem announceComputer_uniform (hs : Uniform s) (hc : c ≠ "") :
    wp (fun _ => False) (announceComputer (hooks env) c cs)
      (fun _ s' => s'.theComputers = s.theComputers.insert c cs ∧ Uniform s')
      (fun _ _ => False) s := by
  cases hknown : s.theComputers[c]? with
  | none => exact newComputer_uniform hs hc hknown
  | some cs' =>
    by_cases hsame : cs' = cs
    · subst hsame
      apply wp_congr (announceComputer_again (hooks env) hknown)
      exact wp_pure ⟨(insert_self hknown).symm, hs⟩
    · apply wp_congr (announceComputer_changed (hooks env) hknown hsame)
      refine wp_bind (fun _ => stable_false _) (removeComputer_uniform hs c) fun _ s' hs' => ?_
      obtain ⟨hcomputers, hs'⟩ := hs'
      have hgone : s'.theComputers[c]? = none := by rw [hcomputers, lookup_erase, if_pos rfl]
      apply wp_congr (addNotify_eq (hooks env) hgone)
      refine wp_mono (newComputer_uniform hs' hc hgone) (fun _ s'' hs'' => ?_) (fun _ _ => id)
      rw [hcomputers, insert_erase] at hs''
      exact hs''

theorem table_start (s : State) (f f' : String) :
    table (withNetwork s (startTables f s.theDerived.theNetwork)) f' =
      if f' = f then fun _ => none else table s f' := by
  simp only [table, withNetwork, startTables, Network.flags]
  rw [lookup_insert]
  by_cases hf : f' = f
  · rw [if_pos hf, if_pos hf]
    exact ForwardingTable.flags_new
  · rw [if_neg hf, if_neg hf]

/-- What a controller may be asked for: a table server is that of one router, a
router repeats its announcement as long as it is registered, or else with an empty
table, and a computer has an end-point. -/
def Admissible (s : State) : Call → Prop
  | .startRouter e f => ∀ x ∈ s.theRouters.toList, x.2 = f → x.1 = e
  | .announceRouter e f => table s f = (fun _ => none) ∨ s.theRouters[e]? = some f
  | .computer (.announceComputer c _) => c ≠ ""
  | .computer (.removeComputer _) => True

/-- All computers have end-points, and the tables of all registered routers are right. -/
def Consistent (s : State) : Prop := "" ∉ s.theComputers ∧ Uniform s

/-- Every call keeps the tables right, whoever fails to answer. -/
theorem consistent_step (env : Environment) {s : State} {x : Call} (hs : Consistent s)
    (hx : Admissible s x) : Consistent (step env s x) := by
  obtain ⟨hnames, huniform⟩ := hs
  suffices hw : ∃ m : ExtTreeMap String ContainerList, "" ∉ m ∧
      wp (fun _ => False) (serve env x) (fun _ s' => s'.theComputers = m ∧ Uniform s')
        (fun _ _ => False) s by
    obtain ⟨m, hm, hw⟩ := hw
    refine after_of_wp (wp_mono hw (fun _ s' hs' => ?_) (fun _ _ => False.elim))
    exact ⟨hs'.1 ▸ hm, hs'.2⟩
  cases x with
  | startRouter e f =>
    refine ⟨s.theComputers, hnames, wp_modify_bind (announceRouter_uniform (fun e' f' hne hf' => ?_)
      (.inl ?_) hnames)⟩
    · have hother : f' ≠ f := fun heq => hne (hx (e', f') (mem_toList.mpr hf') heq)
      rw [table_start, if_neg hother]
      exact huniform e' f' hf'
    · rw [table_start, if_pos rfl]
  | announceRouter e f =>
    exact ⟨s.theComputers, hnames, announceRouter_uniform (fun e' f' _ hf' => huniform e' f' hf')
      (hx.imp_right (huniform e f)) hnames⟩
  | computer x =>
    cases x with
    | announceComputer c cs =>
      refine ⟨s.theComputers.insert c cs, fun hmem => ?_, announceComputer_uniform huniform hx⟩
      exact (mem_insert.mp hmem).elim (Ne.symm hx) hnames
    | removeComputer c =>
      exact ⟨s.theComputers.erase c, fun hmem => hnames (mem_erase.mp hmem).2,
        removeComputer_uniform huniform c⟩

/-- In every run the table of every router still registered is that of all
computers with a container for the lambda, and final. -/
theorem tables_uniform (env : Environment) (aTables : ExtTreeMap String (EdgeRouter ℚ))
    (calls : List Call) (h : Along (step env) Admissible (new aTables) calls) :
    ∀ t ∈ states (step env) (new aTables) calls, Uniform t := by
  have hnew : Consistent (new aTables) := by
    refine ⟨ExtTreeMap.not_mem_empty, fun e f hf => ?_⟩
    have hnone : (∅ : ExtTreeMap String String)[e]? = some f := hf
    rw [ExtTreeMap.getElem?_empty] at hnone
    cases hnone
  intro t ht
  exact (invariant_along (fun _ _ hs hx => consistent_step env hs hx) hnew h t ht).2

/-- Two routers, the first of which does not answer the eighth command. -/
private def lossy : Environment := ⟨fun n => if n = 7 then .lost else .answered, fun _ => 0, id⟩

private def offering (ls : List String) : ContainerList := ⟨ls.map fun l => ⟨l, "cpu", l, 1⟩⟩

theorem tables_uniform_lossy :
    let calls := [.startRouter "r1:1" "r1:2", .computer (.announceComputer "c1" (offering ["a", "b", "a"])),
      .startRouter "r2:1" "r2:2", .computer (.announceComputer "c1" (offering ["b"])),
      .announceRouter "r2:1" "r2:2", .startRouter "r1:1" "r1:2", .computer (.removeComputer "c1")]
    ∀ t ∈ states (step lossy) (new ∅) calls, Uniform t := by
  refine tables_uniform lossy ∅ _ ⟨?_, ?_, ?_, ?_, .inr (by decide +kernel), ?_, trivial, trivial⟩
  all_goals
    unfold Admissible
    decide +kernel

private def oneRouter : ExtTreeMap String (EdgeRouter ℚ) := {("r:2", .new)}

private def losesSecond : Environment := ⟨fun n => if n = 1 then .lost else .answered, fun _ => 0, id⟩

/-- The routes are missing for a computer without an end-point, and left behind in a
router that has not answered and announces itself again. -/
theorem tables_not_uniform :
    (¬ ∀ t ∈ states (step losesSecond) (new oneRouter) [.announceRouter "r:1" "r:2",
      .computer (.announceComputer "" (offering ["a"]))], Uniform t) ∧
    ¬ ∀ t ∈ states (step losesSecond) (new oneRouter) [.announceRouter "r:1" "r:2",
      .computer (.announceComputer "c" (offering ["a"])), .computer (.removeComputer "c"),
      .announceRouter "r:1" "r:2"], Uniform t := by
  constructor
  · intro h
    have hfinal := congrFun (h _ (final_mem_states _ _ _) "r:1" "r:2" (by decide +kernel)) ("a", "")
    revert hfinal
    decide +kernel
  · intro h
    have hfinal := congrFun (h _ (final_mem_states _ _ _) "r:1" "r:2" (by decide +kernel)) ("a", "c")
    revert hfinal
    decide +kernel

end ServerlessEdge.Controller.EdgeControllerFlat
