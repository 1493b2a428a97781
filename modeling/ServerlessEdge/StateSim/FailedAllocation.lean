import ServerlessEdge.StateSim.Loads

/-! Measuring the performance after an allocation that has failed: the loads are no longer empty,
so that nothing refuses, but some tasks are missing in them. -/
namespace ServerlessEdge.StateSim
open Library Checks Triple

namespace Scenario

/-- The scenarios that calls lead to, with what the last successful allocation has left. -/
inductive Made (env : Env) (dijkstra : Dijkstra) : Scenario → Option Scenario → Prop
  | create {aAffinities : Std.ExtTreeMap String Affinity} {aNetwork : Network} {aJobs : List Job}
      {aRnd : ℕ → ℕ} {s : Scenario} : Accepted env aNetwork →
    Scenario.create aAffinities aNetwork aJobs aRnd = .ok s → Made env dijkstra s none
  | allocated {s s' : Scenario} {last : Option Scenario} {aPolicy : AllocPolicy} {myRnd : ℕ → ℚ} :
    Made env dijkstra s last → allocateTasks dijkstra aPolicy myRnd s = .ok () s' →
    Made env dijkstra s' (some s')
  | failed {s s' : Scenario} {last : Option Scenario} {aPolicy : AllocPolicy} {myRnd : ℕ → ℚ}
      {what : String} : Made env dijkstra s last →
    allocateTasks dijkstra aPolicy myRnd s = .error (.thrown what) s' → Made env dijkstra s' last
  | cloud {s : Scenario} {last : Option Scenario} (theCloudParams : CloudParams) :
    Made env dijkstra s last →
    Made env dijkstra { s with theCloudParams := some theCloudParams }
      (last.map fun l => { l with theCloudParams := some theCloudParams })

/-- Measuring the performance either refuses, or finds what it would have found before. -/
def Recovers (dijkstra : Dijkstra) (last : Option Scenario) (s : Scenario) (aPolicy : ExecPolicy) : Prop :=
  s.performance dijkstra aPolicy = .error noAllocation ∨
    ∃ l d, last = some l ∧ l.performance dijkstra aPolicy = .ok d ∧ s.performance dijkstra aPolicy = .ok d

/-- The loads are those of a number of tasks on processing nodes. -/
def Loaded (s : Scenario) (k : ℕ) : Prop :=
  ∃ choices : List Choice, choices.length = k ∧
    (∀ c ∈ choices, c.myNode ∈ s.theNetwork.theProcessing) ∧
    ∀ i, s.theLoad[i]?.getD 0 = loadOf choices i

variable {env : Env} {dijkstra : Dijkstra} {aPolicy : AllocPolicy} {s s' s₀ : Scenario}
  {last : Option Scenario}

theorem Follows.loaded {choices : List Choice} (h : Follows dijkstra aPolicy s₀ choices s) :
    s.Loaded choices.length := by
  refine ⟨choices, rfl, fun c hc => ?_, h.load_eq⟩
  rw [h.network]
  exact h.processing hc

/-- What holds of all scenarios: there is a client for each job, and the loads after the last
successful allocation are those of all tasks. -/
structure Sound (s : Scenario) (last : Option Scenario) : Prop where
  clients : s.theClients.length = s.theJobs.length
  nodes : ∀ n ∈ s.theClients, n ∈ s.theNetwork.nodes
  last : ∀ l, last = some l → l.theNetwork = s.theNetwork ∧ l.Loaded (allTasks s.theJobs).length

/-- An allocation changes the loads and the table only. -/
theorem Sound.of_follows (h : Sound s₀ last) {choices : List Choice}
    (hfollows : Follows dijkstra aPolicy s₀ choices s) : Sound s last := by
  obtain ⟨l, a, rfl⟩ := hfollows.frame
  exact ⟨h.clients, h.nodes, h.last⟩

theorem randomClients_ok {aRnd : ℕ → ℕ} {aNumJobs : ℕ} {aNetwork : Network} {theClients : List Node}
    (h : randomClients aRnd aNumJobs aNetwork = .ok theClients) :
    theClients.length = aNumJobs ∧ ∀ n ∈ theClients, n ∈ aNetwork.theClients := by
  refine ⟨?_, fun n hn => ?_⟩
  · rw [← (mapM_ok_iff.mp h).length_eq, List.length_range]
  · obtain ⟨i, -, hi⟩ := mem_of_mapM_ok h hn
    exact List.mem_of_getElem? (access_eq_ok.mp hi)

theorem follows_of_thrown {myRnd : ℕ → ℚ} {what : String}
    (h : allocateTasks dijkstra aPolicy myRnd s = .error (.thrown what) s') :
    ∃ choices, choices.length < (allTasks s.theJobs).length ∧ Follows dijkstra aPolicy s choices s' := by
  rcases wp_of_error (allocateTasks_spec myRnd s) h id with hrange | hfollows
  · cases hrange
  · exact hfollows

theorem Made.sound (h : Made env dijkstra s last) : Sound s last := by
  induction h with
  | create hnet hs =>
    obtain ⟨theClients, hclients, hs⟩ := bind_ok.mp hs
    cases hs
    obtain ⟨hlen, hmem⟩ := randomClients_ok hclients
    exact ⟨hlen, fun n hn => hnet.wellFormed.clients n (hmem n hn), nofun⟩
  | allocated _ hrun ih =>
    obtain ⟨choices, htasks, hfollows⟩ := wp_of_ok (allocateTasks_spec _ _) hrun id
    obtain ⟨hclients, hnodes, -⟩ := ih.of_follows hfollows
    refine ⟨hclients, hnodes, fun l hl => ?_⟩
    cases hl
    refine ⟨rfl, ?_⟩
    rw [hfollows.jobs, ← htasks.length_eq, List.length_map]
    exact hfollows.loaded
  | failed _ hrun ih =>
    obtain ⟨choices, -, hfollows⟩ := follows_of_thrown hrun
    exact ih.of_follows hfollows
  | cloud c _ ih =>
    refine ⟨ih.clients, ih.nodes, fun l hl => ?_⟩
    obtain ⟨l', hl', rfl⟩ := Option.map_eq_some_iff.mp hl
    exact ih.last l' hl'

/-- Where there is a task the loads are not empty after the allocation. -/
theorem Sound.load_ne (h : Sound s₀ last) {choices : List Choice}
    (hfollows : Follows dijkstra aPolicy s₀ choices s) (htasks : (allTasks s₀.theJobs).length ≠ 0) :
    s.theLoad ≠ [] := by
  intro hnil
  have hlen := hfollows.length
  rw [hnil, List.length_nil, eq_comm, List.length_eq_zero_iff] at hlen
  have hclients : s₀.theClients = [] := by
    apply List.eq_nil_iff_forall_not_mem.mpr
    intro n hn
    have hmem := h.nodes n hn
    rw [hlen] at hmem
    cases hmem
  have hjobs := h.clients
  rw [hclients, List.length_nil, eq_comm, List.length_eq_zero_iff] at hjobs
  rw [hjobs] at htasks
  exact htasks rfl

/-- Measurements with the same loads on the processing nodes are of the same number of tasks. -/
theorem Loaded.length_eq {l : Scenario} {k m : ℕ} (hl : l.Loaded k) (hs : s.Loaded m)
    (hnet : l.theNetwork = s.theNetwork)
    (h : ∀ n ∈ s.theNetwork.theProcessing, l.theLoad[n.theId]? = s.theLoad[n.theId]?) : k = m := by
  obtain ⟨cs, rfl, hcs, hloads⟩ := hl
  obtain ⟨ds, rfl, hds, hloads'⟩ := hs
  have hcount : ∀ (xs : List Choice) (i : ℕ),
      (xs.map fun c => c.myNode.theId).count i = loadOf xs i := by
    intro xs i
    rw [List.count, List.countP_map, loadOf]
    rfl
  have hperm : (cs.map fun c => c.myNode.theId).Perm (ds.map fun c => c.myNode.theId) := by
    rw [List.perm_iff_count]
    intro i
    rw [hcount, hcount]
    by_cases hi : ∃ n ∈ s.theNetwork.theProcessing, n.theId = i
    · obtain ⟨n, hn, rfl⟩ := hi
      rw [← hloads, ← hloads', h n hn]
    · push Not at hi
      rw [loadOf_eq_zero fun c hc => hi _ (hnet ▸ hcs c hc), loadOf_eq_zero fun c hc => hi _ (hds c hc)]
  have hlen := hperm.length_eq
  rwa [List.length_map, List.length_map] at hlen

theorem access_inj {α : Type} {l l' : List α} {i : ℕ} (h : access l i = access l' i) : l[i]? = l'[i]? := by
  rw [access, access] at h
  cases hl : l[i]? with
  | some a =>
    rw [hl] at h
    exact (access_eq_ok.mp h.symm).symm
  | none =>
    rw [hl] at h
    cases hl' : l'[i]? with
    | some a =>
      rw [hl'] at h
      cases h
    | none => rfl

theorem performance_loads {aExecPolicy : ExecPolicy} {d : PerformanceData ℚ ℕ}
    (h : s.performance dijkstra aExecPolicy = .ok d) :
    s.theNetwork.theProcessing.mapM (fun myNode => access s.theLoad myNode.theId) = .ok d.theLoad := by
  rw [performance] at h
  split at h
  · cases h
  · obtain ⟨theJobData, -, h⟩ := bind_ok.mp h
    obtain ⟨theLoad, hload, h⟩ := bind_ok.mp h
    cases h
    exact hload

/-- After an allocation that has thrown, measuring the performance neither refuses nor finds the
performance of the last successful allocation. -/
theorem performance_not_recovers (env : Env) (dijkstra : Dijkstra) (s : Scenario) (last : Option Scenario)
    (hmade : Made env dijkstra s last) (aPolicy : AllocPolicy) (myRnd : ℕ → ℚ) (what : String)
    (s' : Scenario) (h : allocateTasks dijkstra aPolicy myRnd s = .error (.thrown what) s')
    (aExecPolicy : ExecPolicy) : ¬ Recovers dijkstra last s' aExecPolicy := by
  obtain ⟨choices, hfewer, hfollows⟩ := follows_of_thrown h
  have hsound := hmade.sound
  rintro (hrefused | ⟨l, d, hlast, hl, hd⟩)
  · have husual : Usual (· ≠ noAllocation) := ⟨nofun, nofun, by decide⟩
    have hload := hsound.load_ne hfollows (Nat.ne_zero_of_lt hfewer)
    exact performance_usual husual dijkstra s' hload (fun _ _ _ _ => .inl nofun) _ _ hrefused rfl
  · obtain ⟨hnet, hloaded⟩ := hsound.last l hlast
    rw [← hfollows.network] at hnet
    have hsame := (performance_loads hl).trans (performance_loads hd).symm
    rw [hnet] at hsame
    have hat := eq_of_mapM_ok (hsame.trans (performance_loads hd)) (performance_loads hd)
    refine hfewer.ne' (hloaded.length_eq hfollows.loaded hnet fun n hn => ?_)
    exact access_inj (hat n hn)

end Scenario

section Samples

/-- A job with a task whose function has no affinity, after one that can be allocated. -/
def twoFunctions : Job := ⟨0, 0, [⟨0, 1, 1, "f", []⟩, ⟨1, 1, 1, "g", []⟩], [], 1⟩

/-- An allocation that throws, and how measuring the performance fails after it. -/
def failedAllocation (theJobs : List Job) : Except Failure (Scenario × String × Scenario) := do
  let s ← sampleScenario theJobs
  match Scenario.allocateTasks joinedPaths .ProcOnly (fun _ => 0) s with
  | .error (.thrown what) s' => pure (s, what, s')
  | .error e _ => .error e
  | .ok _ _ => .error .outOfRange

def failureOf {α : Type} : Except Failure α → Option Failure
  | .error e => some e
  | .ok _ => none

theorem sampleScenario_made {theJobs : List Job} {s : Scenario} (h : sampleScenario theJobs = .ok s) :
    Scenario.Made plainEnv joinedPaths s none := by
  obtain ⟨net, hnet, hcreate⟩ := bind_ok.mp h
  exact .create (.sets hnet) hcreate

theorem failedAllocation_twoFunctions : ∃ s what s', Scenario.Made plainEnv joinedPaths s none ∧
    Scenario.allocateTasks joinedPaths .ProcOnly (fun _ => 0) s = .error (.thrown what) s' ∧
    s'.theLoad = [1, 0] ∧ s'.performance joinedPaths .PureFaaS = .error .outOfRange := by
  obtain ⟨⟨s, what, s'⟩, hrun, hparts⟩ := ok_of_toOption (m := failedAllocation [twoFunctions])
    (f := fun r => (r.2.2.theLoad, failureOf (r.2.2.performance joinedPaths .PureFaaS)))
    (b := ([1, 0], some .outOfRange)) (by decide +kernel)
  simp only [Prod.mk.injEq] at hparts
  obtain ⟨hload, hfail⟩ := hparts
  obtain ⟨s₁, hs₁, hrun⟩ := bind_ok.mp hrun
  refine ⟨s, what, s', ?_, ?_, hload, ?_⟩
  · split at hrun <;> cases hrun
    exact sampleScenario_made hs₁
  · split at hrun
    · rename_i hthrown
      cases hrun
      exact hthrown
    · cases hrun
    · cases hrun
  · cases hperf : s'.performance joinedPaths .PureFaaS with
    | ok d =>
      rw [hperf] at hfail
      cases hfail
    | error e =>
      rw [hperf] at hfail
      rw [Option.some.inj hfail]

/-- The second task has no node, and still the performance of the job is measured. -/
theorem partial_allocation_measured : ∃ s what s', Scenario.Made plainEnv joinedPaths s none ∧
    Scenario.allocateTasks joinedPaths .ProcOnly (fun _ => 0) s = .error (.thrown what) s' ∧
    s'.theLoad = [1, 0] ∧ s'.performance joinedPaths .PureFaaS = .error .outOfRange ∧
    ¬ Scenario.Recovers joinedPaths none s' .PureFaaS := by
  obtain ⟨s, what, s', hmade, hrun, hload, hfail⟩ := failedAllocation_twoFunctions
  refine ⟨s, what, s', hmade, hrun, hload, hfail, ?_⟩
  rintro (hrefused | ⟨l, d, -, -, hd⟩)
  · rw [hfail] at hrefused
    exact absurd hrefused (by simp [Scenario.noAllocation])
  · rw [hfail] at hd
    cases hd

theorem Scenario.performance_not_recovers_twoFunctions : ∃ s',
    ¬ Scenario.Recovers joinedPaths none s' .UnchainedInClient := by
  obtain ⟨s, what, s', hmade, hrun, -, -⟩ := failedAllocation_twoFunctions
  exact ⟨s', performance_not_recovers plainEnv joinedPaths s none hmade .ProcOnly (fun _ => 0) what s' hrun
    .UnchainedInClient⟩

end Samples

end ServerlessEdge.StateSim
