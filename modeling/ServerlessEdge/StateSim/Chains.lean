import Mathlib.Data.Finset.Card
import Mathlib.Data.Finset.Range
import Mathlib.Data.Finset.Dedup
import Mathlib.Data.Finset.SDiff
import ServerlessEdge.Library.DepthFirst
import ServerlessEdge.StateSim.Traces

/-! The processing chain of a job: the search finds the tasks that can be reached from the
first one, and it finds them in the order of their numbers if these are numbers of a
depth-first search. -/
namespace ServerlessEdge.StateSim
open Library DepthFirst Relation

section Search

variable {aTasks : List TaskData}

/-- How many tasks are not in a chain. -/
private def missing (n : ℕ) (aChain : List ℕ) : ℕ := (Finset.range n \ aChain.toFinset).card

private theorem missing_lt {n i : ℕ} {aChain : List ℕ} (hi : i < n) (hnew : i ∉ aChain) :
    missing n (aChain ++ [i]) < missing n aChain := by
  refine Finset.card_lt_card (Finset.ssubset_iff_of_subset ?_ |>.mpr ⟨i, ?_, ?_⟩)
  · intro x hx
    simp only [Finset.mem_sdiff, List.mem_toFinset, List.mem_append] at hx ⊢
    exact ⟨hx.1, fun hmem => hx.2 (.inl hmem)⟩
  · simp [hi, hnew]
  · simp

private theorem missing_le {n : ℕ} {aChain aChain' : List ℕ} (h : aChain ⊆ aChain') :
    missing n aChain' ≤ missing n aChain := by
  refine Finset.card_le_card fun x hx => ?_
  simp only [Finset.mem_sdiff, List.mem_toFinset] at hx ⊢
  exact ⟨hx.1, fun hmem => hx.2 (h hmem)⟩

/-- With a call for each task that is missing, the search does not run out of calls. -/
theorem findChain_scan (calls : ℕ) (aChain : List ℕ) (aCurTask : ℕ)
    (h : missing aTasks.length aChain < calls) :
    Scan (fun aCurTask i => Depends aTasks i aCurTask) (List.range aTasks.length) aCurTask
      (List.range aTasks.length) aChain (findChain aTasks calls aChain aCurTask) := by
  induction calls generalizing aChain aCurTask with
  | zero => exact absurd h (Nat.not_lt_zero _)
  | succ calls ih =>
    have hloop : ∀ (l aChain : List ℕ), (∀ i ∈ l, i < aTasks.length) →
        missing aTasks.length aChain < calls + 1 →
        Scan (fun aCurTask i => Depends aTasks i aCurTask) (List.range aTasks.length) aCurTask l
          aChain (l.foldl (fun aChain i =>
            if i ∈ aChain then aChain
            else if Depends aTasks i aCurTask then findChain aTasks calls (aChain ++ [i]) i
            else aChain) aChain) := by
      intro l
      induction l with
      | nil => exact fun aChain _ _ => .nil
      | cons i l ihl =>
        intro aChain hl hmissing
        obtain ⟨hi, hrest⟩ := List.forall_mem_cons.mp hl
        rw [List.foldl_cons]
        by_cases hmem : i ∈ aChain
        · rw [if_pos hmem]
          exact .seen hmem (ihl aChain hrest hmissing)
        · by_cases hdep : Depends aTasks i aCurTask
          · have hlt := missing_lt hi hmem
            have hfirst := ih (aChain ++ [i]) i (by omega)
            have hle := missing_le (n := aTasks.length) (hfirst.subset)
            rw [if_neg hmem, if_pos hdep]
            exact .found hmem hdep hfirst (ihl _ hrest (by omega))
          · rw [if_neg hmem, if_neg hdep]
            exact .apart hdep (ihl aChain hrest hmissing)
    rw [findChain]
    exact hloop _ _ (fun i hi => List.mem_range.mp hi) h

/-- The chain found from task 0, as the search finds it. -/
theorem chainOf_scan (myJob : JobData) : ∃ c, chainOf myJob = 0 :: c ∧
    Scan (fun aCurTask i => Depends myJob.theTasks i aCurTask) (List.range myJob.theTasks.length) 0
      (List.range myJob.theTasks.length) [] c := by
  refine ⟨_, rfl, findChain_scan _ _ _ ?_⟩
  simp [missing]

end Search

section Numbers

variable (args : LoadArgs) {g : List TraceRow}

/-- A path of dependencies leads from the first task of a group to a task. -/
def FromFirst (g : List TraceRow) : ℕ → Prop := ReflTransGen (fun p t => DependsOn g t p) 1

/-- No task depends on itself, directly or through other tasks. -/
def Acyclic (g : List TraceRow) : Prop := ∀ t, ¬ TransGen (fun p t => DependsOn g t p) t t

theorem DependsOn.task {t p : ℕ} (h : DependsOn g t p) (hg : ∀ r ∈ g, r.Valid) :
    0 < t ∧ t ≤ numTasks g := by
  obtain ⟨r, hr, rfl, -⟩ := h
  exact ⟨(hg r hr).pos, le_numTasks hr⟩

theorem numTasks_pos (hg : ∀ r ∈ g, r.Valid) (hne : g ≠ []) : 0 < numTasks g := by
  obtain ⟨r, hr⟩ := List.exists_mem_of_ne_nil g hne
  exact (hg r hr).pos.trans_le (le_numTasks hr)

/-- The tasks of the vector depend on each other as the rows say. -/
theorem depends_iff (hg : ∀ r ∈ g, r.Valid) {i cur : ℕ} (hcur : cur < numTasks g) :
    Depends (tasksOf args g) i cur ↔ DependsOn g (i + 1) (cur + 1) := by
  have hlt := numTasks_lt hg
  rw [depends_tasksOf args hg]
  constructor
  · rintro ⟨p, ⟨r, hr, htask, hp⟩, hdec⟩
    rw [decrement_eq ((hg r hr).precedences p hp)] at hdec
    split at hdec
    · omega
    · obtain rfl : p = cur + 1 := by omega
      exact ⟨r, hr, htask, hp⟩
  · intro h
    refine ⟨cur + 1, h, ?_⟩
    rw [decrement_eq (by omega), if_neg (Nat.succ_ne_zero cur), Nat.add_sub_cancel]

theorem reached_lt (hne : 0 < numTasks g) {x : ℕ}
    (h : Reached (fun cur i => Depends (tasksOf args g) i cur) (List.range (numTasks g)) 0 x) :
    x < numTasks g := by
  cases h with
  | refl => exact hne
  | tail _ hstep => exact List.mem_range.mp hstep.1

/-- The search reaches the tasks that are reached by dependencies. -/
theorem fromFirst_iff (hg : ∀ r ∈ g, r.Valid) (hne : g ≠ []) (t : ℕ) :
    FromFirst g t ↔ ∃ x, x + 1 = t ∧
      Reached (fun cur i => Depends (tasksOf args g) i cur) (List.range (numTasks g)) 0 x := by
  have hpos := numTasks_pos hg hne
  constructor
  · intro h
    induction h with
    | refl => exact ⟨0, rfl, .refl⟩
    | @tail p t _ hstep ih =>
      obtain ⟨x, rfl, hx⟩ := ih
      obtain ⟨ht, hle⟩ := hstep.task hg
      refine ⟨t - 1, Nat.sub_add_cancel ht, hx.tail ⟨List.mem_range.mpr (by omega), ?_⟩⟩
      refine (depends_iff args hg (reached_lt args hpos hx)).mpr ?_
      rw [Nat.sub_add_cancel ht]
      exact hstep
  · rintro ⟨x, rfl, h⟩
    induction h with
    | refl => exact .refl
    | tail hx hstep ih =>
      exact ih.tail ((depends_iff args hg (reached_lt args hpos hx)).mp hstep.2)

theorem acyclic_root (hg : ∀ r ∈ g, r.Valid) (hne : g ≠ []) (hacyclic : Acyclic g) :
    ¬ TransGen (fun cur i => i ∈ List.range (numTasks g) ∧ Depends (tasksOf args g) i cur) 0 0 := by
  have hpath : ∀ x, TransGen (fun cur i => i ∈ List.range (numTasks g) ∧
      Depends (tasksOf args g) i cur) 0 x → TransGen (fun p t => DependsOn g t p) 1 (x + 1) := by
    intro x h
    induction h with
    | single hstep => exact .single ((depends_iff args hg (numTasks_pos hg hne)).mp hstep.2)
    | tail hx hstep ih =>
      exact ih.tail ((depends_iff args hg
        (reached_lt args (numTasks_pos hg hne) hx.to_reflTransGen)).mp hstep.2)
  exact fun h => hacyclic 1 (hpath 0 h)

theorem chainOf_group (k : ℕ) (hg : ∀ r ∈ g, r.Valid) :
    ∃ c, chainOf (jobDataOf args k g) = 0 :: c ∧
      Scan (fun cur i => Depends (tasksOf args g) i cur) (List.range (numTasks g)) 0
        (List.range (numTasks g)) [] c := by
  obtain ⟨c, hc, hscan⟩ := chainOf_scan (jobDataOf args k g)
  rw [jobDataOf, length_tasksOf args hg] at hscan
  exact ⟨c, hc, hscan⟩

/-- The chain has the tasks that are reached from the first one. -/
theorem mem_chainOf (k : ℕ) (hg : ∀ r ∈ g, r.Valid) (hne : g ≠ []) (x : ℕ) :
    x ∈ chainOf (jobDataOf args k g) ↔ FromFirst g (x + 1) := by
  obtain ⟨c, hc, hscan⟩ := chainOf_group args k hg
  rw [hc, hscan.mem_iff, fromFirst_iff args hg hne]
  constructor
  · exact fun h => ⟨x, rfl, h⟩
  · rintro ⟨y, hy, h⟩
    obtain rfl : y = x := by omega
    exact h

theorem chainOf_lt (k : ℕ) (hg : ∀ r ∈ g, r.Valid) (hne : g ≠ []) {x : ℕ}
    (hx : x ∈ chainOf (jobDataOf args k g)) : x < numTasks g := by
  obtain ⟨c, hc, hscan⟩ := chainOf_group args k hg
  rw [hc, hscan.mem_iff] at hx
  exact reached_lt args (numTasks_pos hg hne) hx

/-- The tasks are found in the order of their numbers if these are the numbers of a
depth-first search from the first one. -/
theorem chainOf_sorted_iff (k : ℕ) (hg : ∀ r ∈ g, r.Valid) (hne : g ≠ []) (hacyclic : Acyclic g) :
    (chainOf (jobDataOf args k g)).Pairwise (· < ·) ↔
      Numbered (fun p t => DependsOn g t p) (FromFirst g) := by
  obtain ⟨c, hc, hscan⟩ := chainOf_group args k hg
  rw [hc, hscan.sorted_iff List.pairwise_lt_range (List.mem_range.mpr (numTasks_pos hg hne))
    (fun v _ => Nat.zero_le v) (acyclic_root args hg hne hacyclic)]
  refine (numbered_iff (f := (· + 1)) (fun a b hab => Nat.add_lt_add_right hab 1)
    (fromFirst_iff args hg hne) fun x y hx => ?_).symm
  exact (depends_iff args hg (reached_lt args (numTasks_pos hg hne) hx)).symm

/-- A set whose elements come in increasing order is the list of them. -/
theorem toSet_eq_iff {l : List ℕ} : toSet l = l ↔ l.Pairwise (· < ·) := by
  refine ⟨fun h => h ▸ toSet_sorted l, fun h => ?_⟩
  have hperm : (toSet l).Perm l := (List.perm_ext_iff_of_nodup
    ((toSet_sorted l).imp Nat.ne_of_lt) (h.imp Nat.ne_of_lt)).mpr fun _ => mem_toSet
  exact hperm.eq_of_pairwise (fun a b _ _ hab hba => absurd hab (Nat.lt_asymm hba))
    (toSet_sorted l) h

end Numbers

section Order

/-- The tasks of a job, as they are numbered in the trace, in the order in which they are
added to it: the chain, and every task but the first comes after one that it depends on. -/
structure InChainOrder (myJob : JobData) (myTaskIds : List ℕ) : Prop where
  chain : myTaskIds = chainOf myJob
  preceded : ∀ before myTaskId after, myTaskIds = before ++ myTaskId :: after → before ≠ [] →
    ∃ myPrec ∈ before, Depends myJob.theTasks myTaskId myPrec

/-- In the chain a task comes after one that it depends on. -/
theorem chainOf_inChainOrder (myJob : JobData) : InChainOrder myJob (chainOf myJob) := by
  refine ⟨rfl, fun before myTaskId after heq hbefore => ?_⟩
  obtain ⟨c, hc, hscan⟩ := chainOf_scan myJob
  rw [hc] at heq
  rcases List.cons_eq_append_iff.mp heq with ⟨rfl, -⟩ | ⟨pre, rfl, hpre⟩
  · exact absurd rfl hbefore
  · obtain ⟨d, hd, hdep⟩ := hscan.preceded pre myTaskId after hpre
    refine ⟨d, ?_, hdep⟩
    rcases hd with rfl | hd
    · exact List.mem_cons_self
    · exact List.mem_cons_of_mem _ hd

/-- The tasks in increasing order are in the order of the chain for some numbers of them only. -/
theorem toSet_inChainOrder_iff (args : LoadArgs) {g : List TraceRow} (k : ℕ)
    (hg : ∀ r ∈ g, r.Valid) (hne : g ≠ []) (hacyclic : Acyclic g) :
    InChainOrder (jobDataOf args k g) (toSet (chainOf (jobDataOf args k g))) ↔
      Numbered (fun p t => DependsOn g t p) (FromFirst g) := by
  rw [← chainOf_sorted_iff args k hg hne hacyclic, ← toSet_eq_iff]
  refine ⟨InChainOrder.chain, fun h => ?_⟩
  rw [h]
  exact chainOf_inChainOrder _

end Order

end ServerlessEdge.StateSim
