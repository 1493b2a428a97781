import ServerlessEdge.Library.Scores
import ServerlessEdge.StateSim.Scenario

/-! The allocation of the tasks: the nodes chosen, one after the other, and the loads that they
leave. -/
namespace ServerlessEdge.StateSim
open Library Checks Triple

/-- A task, by its job and its position there, and the node chosen for it. -/
structure Choice where
  myJobId : ℕ
  myTaskId : ℕ
  myNode : Node

def Choice.task (c : Choice) : ℕ × ℕ := (c.myJobId, c.myTaskId)

/-- How many tasks are on the node with an identifier. -/
def loadOf (choices : List Choice) (i : ℕ) : ℕ := choices.countP fun c => c.myNode.theId = i

def tasksOfJob (theJobs : List Job) (i : ℕ) : List (ℕ × ℕ) :=
  match theJobs[i]? with
  | some myJob => (List.range myJob.theTasks.length).map (i, ·)
  | none => []

/-- The tasks of all jobs, by positions. -/
def allTasks (theJobs : List Job) : List (ℕ × ℕ) :=
  (List.range theJobs.length).flatMap (tasksOfJob theJobs)

/-- The jobs are identified by their positions. -/
def ById (theJobs : List Job) : Prop := ∀ i, ∀ myJob : Job, theJobs[i]? = some myJob → myJob.theId = i

theorem access_eq_ok {α : Type} {l : List α} {i : ℕ} {a : α} : access l i = .ok a ↔ l[i]? = some a := by
  rw [access]
  cases l[i]? <;> simp

theorem access_fails {α : Type} {l : List α} {i : ℕ} : FailsOnly (· = .outOfRange) (access l i) := by
  rw [access]
  cases l[i]? with
  | some a => exact failsOnly_pure a
  | none => exact failsOnly_error rfl

theorem sum_set_add_one {l : List ℕ} {i a : ℕ} (h : l[i]? = some a) :
    (l.set i (a + 1)).sum = l.sum + 1 := by
  induction l generalizing i with
  | nil => cases h
  | cons b l ih =>
    cases i with
    | zero =>
      cases h
      rw [List.set_cons_zero, List.sum_cons, List.sum_cons, Nat.add_right_comm]
    | succ i => rw [List.set_cons_succ, List.sum_cons, List.sum_cons, ih h, Nat.add_assoc]

theorem loadOf_snoc (choices : List Choice) (c : Choice) (i : ℕ) :
    loadOf (choices ++ [c]) i = loadOf choices i + if c.myNode.theId = i then 1 else 0 := by
  rw [loadOf, List.countP_append, List.countP_singleton, loadOf]
  simp only [decide_eq_true_eq]

namespace Scenario

variable (dijkstra : Dijkstra) (aPolicy : AllocPolicy)

/-- A processing node with the affinity of the function of a task. -/
def Suits (s : Scenario) (myTask : Task) (myNode : Node) : Prop :=
  myNode ∈ s.theNetwork.theProcessing ∧ s.theAffinities[myTask.theFunc]? = some myNode.theAffinity

/-- A node that suits a task, with an execution time that is the shortest one under some loads. -/
def Best (s : Scenario) (load : ℕ → ℕ) (myJob : Job) (myClient : Node) (myTask : Task)
    (myNode : Node) : Prop :=
  s.Suits myTask myNode ∧ ∃ sizes t, allocSizes aPolicy myJob myTask = .ok sizes ∧
    s.execTime dijkstra (load myNode.theId) myTask.theOps sizes.1 sizes.2 myClient myNode = .ok t ∧
    ∀ n, s.Suits myTask n → ∃ t',
      s.execTime dijkstra (load n.theId) myTask.theOps sizes.1 sizes.2 myClient n = .ok t' ∧ t ≤ t'

/-- The choice is the best one under some loads. -/
def Chosen (s : Scenario) (load : ℕ → ℕ) (c : Choice) : Prop :=
  ∃ myJob myClient myTask, s.theJobs[c.myJobId]? = some myJob ∧
    s.theClients[c.myJobId]? = some myClient ∧ myJob.theTasks[c.myTaskId]? = some myTask ∧
    s.Best dijkstra aPolicy load myJob myClient myTask c.myNode

/-- A state that choices have led to from the one in which the allocation started. -/
structure Follows (s₀ : Scenario) (choices : List Choice) (s : Scenario) : Prop where
  frame : ∃ theLoad theAllocation,
    s = { s₀ with theLoad := theLoad, theAllocation := theAllocation }
  length : s.theLoad.length = s₀.theNetwork.nodes.length
  inside : ∀ c ∈ choices, c.myNode.theId < s.theLoad.length
  loads : ∀ i load, s.theLoad[i]? = some load → load = loadOf choices i
  sum : s.theLoad.sum = choices.length
  chosen : ∀ k c, choices[k]? = some c →
    s₀.Chosen dijkstra aPolicy (loadOf (choices.take k)) c
  stored : ById s₀.theJobs → ∀ i t n, s.nodeOf i t = .ok n ↔ ⟨i, t, n⟩ ∈ choices

variable {dijkstra aPolicy}

section Selection

theorem tryNode_eq (s : Scenario) (myAffinity : Affinity) (aOps aInSize aOutSize : ℕ) (aClient : Node) :
    s.tryNode dijkstra myAffinity aOps aInSize aOutSize aClient =
      Scores.improve (fun n => n.theAffinity = myAffinity)
        (s.execTimeNew dijkstra aOps aInSize aOutSize aClient) := by
  funext best myNode
  rw [tryNode, Scores.improve, ite_not]
  cases best <;> rfl

theorem execTimeNew_ok {s : Scenario} {load : ℕ → ℕ} (hload : ∀ i l, s.theLoad[i]? = some l → l = load i)
    {aOps aInSize aOutSize : ℕ} {aClient aNode : Node} {t : ℚ}
    (h : s.execTimeNew dijkstra aOps aInSize aOutSize aClient aNode = .ok t) :
    s.execTime dijkstra (load aNode.theId) aOps aInSize aOutSize aClient aNode = .ok t := by
  obtain ⟨l, hl, h⟩ := bind_ok.mp h
  rw [← hload _ l (access_eq_ok.mp hl)]
  exact h

theorem selectNode_best {s : Scenario} {load : ℕ → ℕ}
    (hload : ∀ i l, s.theLoad[i]? = some l → l = load i) {myJob : Job} {myClient myNode : Node}
    {myTask : Task} (h : s.selectNode dijkstra aPolicy myJob myClient myTask = .ok myNode) :
    s.Best dijkstra aPolicy load myJob myClient myTask myNode := by
  rw [selectNode] at h
  split at h
  · cases h
  rename_i myAffinity haffinity
  obtain ⟨sizes, hsizes, h⟩ := bind_ok.mp h
  obtain ⟨best, hbest, h⟩ := bind_ok.mp h
  rw [tryNode_eq] at hbest
  have hleast := Scores.foldlM_improve hbest
  cases best with
  | none => cases h
  | some m =>
    cases h
    obtain ⟨⟨hmem, haff, hcost⟩, hle⟩ := hleast
    have hsuits : ∀ n, s.Suits myTask n ↔ n ∈ s.theNetwork.theProcessing ∧ n.theAffinity = myAffinity := by
      intro n
      rw [Suits, haffinity, Option.some_inj]
      exact and_congr_right fun _ => eq_comm
    refine ⟨(hsuits _).mpr ⟨hmem, haff⟩, sizes, m.1, hsizes, execTimeNew_ok hload hcost, ?_⟩
    intro n hn
    obtain ⟨hn, hnaff⟩ := (hsuits n).mp hn
    obtain ⟨t', ht', htt'⟩ := hle n hn hnaff
    exact ⟨t', execTimeNew_ok hload ht', htt'⟩

end Selection

section Table

theorem nodeOf_ok {s : Scenario} {i t : ℕ} {n : Node} : s.nodeOf i t = .ok n ↔
    ∃ row, s.theAllocation[i]? = some row ∧ row[t]? = some (some n) := by
  rw [nodeOf, bind_ok]
  constructor
  · rintro ⟨row, hrow, h⟩
    obtain ⟨entry, hentry, h⟩ := bind_ok.mp h
    refine ⟨row, access_eq_ok.mp hrow, ?_⟩
    cases entry with
    | none => cases h
    | some m =>
      cases h
      exact access_eq_ok.mp hentry
  · rintro ⟨row, hrow, hentry⟩
    exact ⟨row, access_eq_ok.mpr hrow, bind_ok.mpr ⟨some n, access_eq_ok.mpr hentry, rfl⟩⟩

theorem nodeOf_place {s : Scenario} {i t load : ℕ} {m : Node} {row : List (Option Node)}
    (hrow : s.theAllocation[i]? = some row) (ht : t < row.length) (j u : ℕ) (n : Node) :
    (s.place i t m load).nodeOf j u = .ok n ↔
      if j = i ∧ u = t then m = n else s.nodeOf j u = .ok n := by
  rw [nodeOf_ok, nodeOf_ok, place]
  simp only [List.getElem?_modify]
  by_cases hj : j = i
  · subst hj
    rw [hrow]
    by_cases hu : u = t
    · subst hu
      simp [ht]
    · simp [hu, Ne.symm hu]
  · simp [hj, Ne.symm hj]

theorem getElem?_resize {l : List (Option Node)} {k t : ℕ} {n : Node}
    (h : (resize l k)[t]? = some (some n)) : l[t]? = some (some n) := by
  rw [resize, List.getElem?_append] at h
  split at h
  · rw [List.getElem?_take] at h
    split at h
    · exact h
    · cases h
  · rw [List.getElem?_replicate] at h
    split at h <;> cases h

theorem nodeOf_of_makeRoom {s : Scenario} {i k j t : ℕ} {n : Node}
    (h : (s.makeRoom i k).nodeOf j t = .ok n) : s.nodeOf j t = .ok n := by
  rw [nodeOf_ok] at h ⊢
  obtain ⟨row, hrow, hentry⟩ := h
  rw [makeRoom, List.getElem?_modify, Option.map_eq_map, Option.map_eq_some_iff] at hrow
  obtain ⟨row', hrow', rfl⟩ := hrow
  refine ⟨row', hrow', ?_⟩
  split at hentry
  · exact getElem?_resize hentry
  · exact hentry

theorem nodeOf_makeRoom {s : Scenario} {i j : ℕ} (h : i ≠ j) (k t : ℕ) :
    (s.makeRoom i k).nodeOf j t = s.nodeOf j t := by
  have hrow : access (s.makeRoom i k).theAllocation j = access s.theAllocation j := by
    simp [makeRoom, access, h]
  rw [nodeOf, nodeOf, hrow]

end Table

section Steps

variable {s₀ s : Scenario} {choices : List Choice}

theorem Follows.jobs (h : Follows dijkstra aPolicy s₀ choices s) : s.theJobs = s₀.theJobs := by
  obtain ⟨l, a, rfl⟩ := h.frame
  rfl

theorem Follows.place (h : Follows dijkstra aPolicy s₀ choices s) {c : Choice} {i load : ℕ}
    {row : List (Option Node)} (hfresh : c.task ∉ choices.map Choice.task)
    (hchosen : s₀.Chosen dijkstra aPolicy (loadOf choices) c) (hid : ById s₀.theJobs → i = c.myJobId)
    (hrow : s.theAllocation[i]? = some row) (ht : c.myTaskId < row.length)
    (hload : s.theLoad[c.myNode.theId]? = some load) :
    Follows dijkstra aPolicy s₀ (choices ++ [c]) (s.place i c.myTaskId c.myNode load) where
  frame := by
    obtain ⟨l, a, rfl⟩ := h.frame
    exact ⟨_, _, rfl⟩
  length := List.length_set.trans h.length
  inside := by
    have hlt := (List.getElem?_eq_some_iff.mp hload).1
    rw [Scenario.place, List.length_set]
    exact List.forall_mem_append.mpr ⟨h.inside, List.forall_mem_singleton.mpr hlt⟩
  loads := by
    intro j load' hj
    have hold := h.loads _ _ hload
    rw [loadOf_snoc]
    rw [Scenario.place, List.getElem?_set] at hj
    split at hj
    · rename_i hsame
      rw [if_pos (List.getElem?_eq_some_iff.mp hload).1] at hj
      rw [if_pos hsame, ← hsame, ← hold]
      exact (Option.some.inj hj).symm
    · rename_i hother
      rw [if_neg hother]
      exact h.loads j load' hj
  sum := by
    rw [List.length_append, List.length_singleton, ← h.sum]
    exact sum_set_add_one hload
  chosen := by
    intro k c' hc'
    rw [List.getElem?_append] at hc'
    split at hc'
    · rename_i hk
      rw [List.take_append_of_le_length hk.le]
      exact h.chosen k c' hc'
    · rename_i hk
      have hlt := (List.getElem?_eq_some_iff.mp hc').1
      rw [List.length_singleton] at hlt
      have hend : k = choices.length := by omega
      rw [hend, Nat.sub_self, List.getElem?_cons_zero, Option.some_inj] at hc'
      rw [hend, List.take_left, ← hc']
      exact hchosen
  stored := by
    intro hids j u n
    obtain rfl := hid hids
    rw [nodeOf_place hrow ht, List.mem_append, List.mem_singleton]
    split
    · rename_i hsame
      obtain ⟨rfl, rfl⟩ := hsame
      have hnot : (⟨c.myJobId, c.myTaskId, n⟩ : Choice) ∉ choices := fun hmem =>
        hfresh (List.mem_map.mpr ⟨_, hmem, rfl⟩)
      constructor
      · rintro rfl
        exact .inr rfl
      · rintro (hmem | heq)
        · exact absurd hmem hnot
        · rw [← heq]
    · rename_i hother
      rw [h.stored hids]
      refine ⟨.inl, fun hmem => hmem.resolve_right ?_⟩
      rintro rfl
      exact hother ⟨rfl, rfl⟩

theorem Follows.makeRoom (h : Follows dijkstra aPolicy s₀ choices s) {i : ℕ}
    (hfresh : ∀ c ∈ choices, c.myJobId ≠ i) (k : ℕ) :
    Follows dijkstra aPolicy s₀ choices (s.makeRoom i k) where
  frame := by
    obtain ⟨l, a, rfl⟩ := h.frame
    exact ⟨_, _, rfl⟩
  length := h.length
  inside := h.inside
  loads := h.loads
  sum := h.sum
  chosen := h.chosen
  stored := by
    intro hids j u n
    rw [← h.stored hids]
    by_cases hj : i = j
    · subst hj
      refine ⟨nodeOf_of_makeRoom, fun hn => ?_⟩
      exact absurd rfl (hfresh _ ((h.stored hids _ _ _).mp hn))
    · rw [nodeOf_makeRoom hj]

theorem clear_follows (s : Scenario) : Follows dijkstra aPolicy s [] s.clear where
  frame := ⟨_, _, rfl⟩
  length := List.length_replicate
  inside := List.forall_mem_nil _
  loads := by
    intro i load h
    rw [clear, List.getElem?_replicate] at h
    split at h
    · cases h
      rfl
    · cases h
  sum := by
    rw [clear, List.sum_replicate]
    rfl
  chosen := nofun
  stored := by
    intro _ i t n
    rw [nodeOf_ok]
    constructor
    · rintro ⟨row, hrow, hentry⟩
      rw [clear, List.getElem?_replicate] at hrow
      split at hrow
      · cases hrow
        cases hentry
      · cases hrow
    · intro h
      cases h

/-- A task is allocated to the best node, or nothing changes. -/
theorem allocateTask_spec (h : Follows dijkstra aPolicy s₀ choices s) {i t : ℕ}
    (hfresh : (i, t) ∉ choices.map Choice.task) :
    wp (fun _ => False) (allocateTask dijkstra aPolicy i t)
      (fun _ s' => ∃ n, Follows dijkstra aPolicy s₀ (choices ++ [⟨i, t, n⟩]) s') (fun _ s' => s' = s) s := by
  rw [allocateTask]
  apply wp_get_bind
  refine wp_ofExcept_bind (fun _ _ => rfl) fun myJob hjob => ?_
  refine wp_ofExcept_bind (fun _ _ => rfl) fun myClient hclient => ?_
  refine wp_ofExcept_bind (fun _ _ => rfl) fun myTask htask => ?_
  refine wp_ofExcept_bind (fun _ _ => rfl) fun myNode hnode => ?_
  refine wp_ofExcept_bind (fun _ _ => rfl) fun row hrow => ?_
  refine wp_ofExcept_bind (fun _ _ => rfl) fun entry hentry => ?_
  refine wp_ofExcept_bind (fun _ _ => rfl) fun load hload => ?_
  apply wp_set
  rw [access_eq_ok] at hjob hclient htask hrow hentry hload
  have hbest := selectNode_best h.loads hnode
  have hchosen : s₀.Chosen dijkstra aPolicy (loadOf choices) ⟨i, t, myNode⟩ := by
    obtain ⟨l, a, rfl⟩ := h.frame
    exact ⟨myJob, myClient, myTask, hjob, hclient, htask, hbest⟩
  refine ⟨myNode, h.place hfresh hchosen (fun hids => ?_) hrow
    (List.getElem?_eq_some_iff.mp hentry).1 hload⟩
  exact hids i myJob (h.jobs ▸ hjob)

/-- The tasks of a job are allocated one after the other, all of them or, if that fails, fewer. -/
theorem allocateJob_spec (h : Follows dijkstra aPolicy s₀ choices s) {i : ℕ}
    (hfresh : ∀ c ∈ choices, c.myJobId ≠ i) :
    wp (fun _ => False) (allocateJob dijkstra aPolicy i)
      (fun _ s' => ∃ more, more.map Choice.task = tasksOfJob s₀.theJobs i ∧
        Follows dijkstra aPolicy s₀ (choices ++ more) s')
      (fun e s' => e = .outOfRange ∨ ∃ more, more.length < (tasksOfJob s₀.theJobs i).length ∧
        Follows dijkstra aPolicy s₀ (choices ++ more) s') s := by
  rw [allocateJob]
  apply wp_get_bind
  refine wp_ofExcept_bind (fun e he => .inl (access_fails e he)) fun myJob hjob => ?_
  apply wp_set_bind
  have hroom := h.makeRoom hfresh myJob.theTasks.length
  rw [access_eq_ok, h.jobs] at hjob
  have htasks : tasksOfJob s₀.theJobs i = (List.range myJob.theTasks.length).map (i, ·) := by
    rw [tasksOfJob, hjob]
  rw [htasks]
  refine wp_forM (fun l s' => ∃ more, more.map Choice.task = l.map (i, ·) ∧
    Follows dijkstra aPolicy s₀ (choices ++ more) s') (fun _ _ => id) _ ?_ (fun _ => id) ?_
  · rintro l t r s' hsplit ⟨more, hmore, hfollows⟩
    have hnodup : (l ++ t :: r).Nodup := hsplit ▸ List.nodup_range
    have hnew : (i, t) ∉ (choices ++ more).map Choice.task := by
      rw [List.map_append, hmore, List.mem_append, List.mem_map, List.mem_map]
      rintro (⟨c, hc, heq⟩ | ⟨t', ht', heq⟩)
      · exact hfresh c hc (congrArg Prod.fst heq)
      · obtain rfl : t' = t := congrArg Prod.snd heq
        exact (List.nodup_append.mp hnodup).2.2 t' ht' t' List.mem_cons_self rfl
    refine wp_mono (allocateTask_spec hfollows hnew) ?_ ?_
    · rintro - s'' ⟨n, hn⟩
      refine ⟨more ++ [⟨i, t, n⟩], ?_, by rwa [← List.append_assoc]⟩
      rw [List.map_append, List.map_append, hmore]
      rfl
    · rintro e s'' rfl
      refine .inr ⟨more, ?_, hfollows⟩
      have hlen := congrArg List.length hmore
      rw [List.length_map, List.length_map] at hlen
      rw [List.length_map, hsplit, hlen, List.length_append, List.length_cons]
      omega
  · exact ⟨[], rfl, by rwa [List.append_nil]⟩

theorem mem_tasksOfJob {theJobs : List Job} {i : ℕ} {x : ℕ × ℕ} (h : x ∈ tasksOfJob theJobs i) :
    x.1 = i := by
  rw [tasksOfJob] at h
  split at h
  · obtain ⟨t, -, rfl⟩ := List.mem_map.mp h
    rfl
  · cases h

/-- The jobs are shuffled. -/
theorem shuffle_perm {myRnd : ℕ → ℚ} {n : ℕ} {myIds ret : List ℕ} (hlen : myIds.length = n)
    (h : shuffle myRnd n myIds = .ok ret) : ret.Perm myIds := by
  induction n generalizing myIds ret with
  | zero =>
    cases h
    rw [List.length_eq_zero_iff.mp hlen]
  | succ n ih =>
    rw [shuffle, bind_ok] at h
    obtain ⟨myId, hid, h⟩ := h
    obtain ⟨rest, hrest, h⟩ := bind_ok.mp h
    cases h
    obtain ⟨hlt, hget⟩ := List.getElem?_eq_some_iff.mp (access_eq_ok.mp hid)
    have hperm := ih (by rw [List.length_eraseIdx_of_lt hlt, hlen, Nat.add_sub_cancel]) hrest
    rw [← hget]
    exact (hperm.cons _).trans (List.getElem_cons_eraseIdx_perm hlt)

theorem shuffle_fails (myRnd : ℕ → ℚ) (n : ℕ) (myIds : List ℕ) :
    FailsOnly (· = .outOfRange) (shuffle myRnd n myIds) := by
  induction n generalizing myIds with
  | zero => exact failsOnly_pure []
  | succ n ih =>
    rw [shuffle]
    apply failsOnly_bind access_fails
    intro myId hid
    apply failsOnly_bind (ih _)
    intro rest hrest
    exact failsOnly_pure _

/-- All tasks are allocated or, if the allocation fails, fewer. -/
theorem allocateTasks_spec (myRnd : ℕ → ℚ) (s : Scenario) :
    wp (fun _ => False) (allocateTasks dijkstra aPolicy myRnd)
      (fun _ s' => ∃ choices, (choices.map Choice.task).Perm (allTasks s.theJobs) ∧
        Follows dijkstra aPolicy s choices s')
      (fun e s' => e = .outOfRange ∨ ∃ choices, choices.length < (allTasks s.theJobs).length ∧
        Follows dijkstra aPolicy s choices s') s := by
  rw [allocateTasks]
  apply wp_modify_bind
  apply wp_get_bind
  refine wp_ofExcept_bind (fun e he => .inl (shuffle_fails _ _ _ e he)) fun myJobIds hids => ?_
  have hperm : myJobIds.Perm (List.range s.theJobs.length) := shuffle_perm List.length_range hids
  have htasks : (myJobIds.flatMap (tasksOfJob s.theJobs)).Perm (allTasks s.theJobs) :=
    hperm.flatMap_right _
  refine wp_forM (fun l s' => ∃ choices, choices.map Choice.task = l.flatMap (tasksOfJob s.theJobs) ∧
    Follows dijkstra aPolicy s choices s') (fun _ _ => id) _ ?_ ?_ ⟨[], rfl, clear_follows s⟩
  · rintro l i r s' hsplit ⟨choices, hchoices, hfollows⟩
    have hnodup : (l ++ i :: r).Nodup := hsplit ▸ hperm.nodup_iff.mpr List.nodup_range
    have hnew : ∀ c ∈ choices, c.myJobId ≠ i := by
      rintro c hc rfl
      have hmem : c.task ∈ choices.map Choice.task := List.mem_map_of_mem hc
      rw [hchoices] at hmem
      obtain ⟨j, hj, hmem⟩ := List.mem_flatMap.mp hmem
      have hsame := mem_tasksOfJob hmem
      exact (List.nodup_append.mp hnodup).2.2 j hj _ List.mem_cons_self hsame.symm
    refine wp_mono (allocateJob_spec hfollows hnew) ?_ ?_
    · rintro - s'' ⟨more, hmore, hs''⟩
      refine ⟨choices ++ more, ?_, hs''⟩
      rw [List.map_append, List.flatMap_append, hchoices, hmore, List.flatMap_singleton]
    · rintro e s'' (he | ⟨more, hmore, hs''⟩)
      · exact .inl he
      · refine .inr ⟨choices ++ more, ?_, hs''⟩
        have hlen := congrArg List.length hchoices
        rw [List.length_map] at hlen
        rw [← htasks.length_eq, hsplit, List.flatMap_append, List.flatMap_cons, List.length_append,
          List.length_append, List.length_append, hlen]
        omega
  · rintro s' ⟨choices, hchoices, hfollows⟩
    exact ⟨choices, hchoices ▸ htasks, hfollows⟩

end Steps

end Scenario

end ServerlessEdge.StateSim
