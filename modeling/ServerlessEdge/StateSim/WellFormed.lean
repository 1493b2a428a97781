import ServerlessEdge.StateSim.LoadedJobs

/-! For which traces the jobs are loaded without an access to an element that does not exist,
are well formed, and have their tasks in the order of the chain. -/
namespace ServerlessEdge.StateSim
open Library Checks DepthFirst Relation

section Samples

/-- Lines without empty tokens, and numbers without fractions. -/
def plainEnv : Env where
  split t sep := t.splitOn (sep.headD ' ')
  stod t := (stoull t).map fun n => (n : ℚ)
  stof t := (stoull t).map fun n => (n : ℚ)
  to_string x := toString x.num

def plainArgs : LoadArgs := ⟨1, 1, 1, [("f", 1)], fun _ => 0, false, .Spar⟩

/-- What is read from a row of the first job. -/
def plainRow (theTaskName : Text) (theTask : ℕ) (thePrecedences : List ℕ) : TraceRow :=
  ⟨1, theTask, thePrecedences, ⟨0, ['j', '_', '1'], theTaskName, 1, 1, 1, 1⟩⟩

private theorem eq_ok {ε α : Type} {m : Except ε α} {a : α} (h : m.toOption = some a) : m = .ok a := by
  cases m with
  | error e => cases h
  | ok b =>
    cases h
    rfl

end Samples

section InRange

variable {args : LoadArgs} {g : List TraceRow}

theorem mem_statesOfTask {myJob : JobData} {myId x : ℕ} :
    x ∈ statesOfTask myJob myId ↔ Depends myJob.theTasks myId x ∧ x ∉ chainOf myJob := by
  rw [statesOfTask, List.mem_filter, decide_eq_true_eq, mem_toSet, Depends]
  refine and_congr_left fun _ => ?_
  cases myJob.theTasks[myId]? with
  | none => simp
  | some myTask => simp

/-- The precedences of the tasks that are reached from the first one are numbers of tasks. -/
def PrecedencesExist (g : List TraceRow) : Prop :=
  ∀ t p, FromFirst g t → DependsOn g t p → 0 < p ∧ p ≤ numTasks g

/-- The states of a job, unless it is discarded, are tasks if and only if the precedences are. -/
theorem statesExist_iff (k : ℕ) (hg : ∀ r ∈ g, r.Valid) (hne : g ≠ []) :
    (Kept args (jobDataOf args k g) → StatesExist (jobDataOf args k g)) ↔ PrecedencesExist g := by
  have hlt := numTasks_lt hg
  have hlength : (jobDataOf args k g).theTasks.length = numTasks g := length_tasksOf args hg
  constructor
  · intro h t p ht hdep
    obtain ⟨x, rfl, hx⟩ := (fromFirst_iff args hg hne t).mp ht
    have hp : p < 2 ^ 64 := by
      obtain ⟨r, hr, -, hmem⟩ := hdep
      exact (hg r hr).precedences p hmem
    have hdec : decrement p < numTasks g := by
      by_cases hchain : decrement p ∈ chainOf (jobDataOf args k g)
      · exact chainOf_lt args k hg hne hchain
      · have hxchain := (mem_chainOf args k hg hne x).mpr ht
        have hstate : decrement p ∈ statesOfTask (jobDataOf args k g) x :=
          mem_statesOfTask.mpr ⟨(depends_tasksOf args hg x _).mpr ⟨p, hdep, rfl⟩, hchain⟩
        have hkept : Kept args (jobDataOf args k g) := by
          rintro ⟨-, hstateless⟩
          rw [hstateless x hxchain] at hstate
          cases hstate
        rw [← hlength]
        exact h hkept _ (mem_allStates.mpr ⟨x, hxchain, hstate⟩)
    rw [decrement_eq hp] at hdec
    split at hdec <;> omega
  · intro h _ y hy
    obtain ⟨x, hx, hy⟩ := mem_allStates.mp hy
    obtain ⟨p, hdep, rfl⟩ := (depends_tasksOf args hg x y).mp (mem_statesOfTask.mp hy).1
    obtain ⟨hpos, hle⟩ := h (x + 1) p ((mem_chainOf args k hg hne x).mp hx) hdep
    rw [hlength, decrement_eq (by omega)]
    split <;> omega

theorem forall_statesExist_iff {env : Env} {myFile : Text} {rows : List TraceRow}
    (hrows : rowsOf env args.aBatchTaskFormat myFile = .ok rows) :
    (∀ d ∈ jobsDataOf args (groupsOf rows), Kept args d → StatesExist d) ↔
      ∀ g ∈ groupsOf rows, PrecedencesExist g := by
  have hgroup : ∀ g ∈ groupsOf rows, g ≠ [] ∧ ∀ r ∈ g, r.Valid := fun g hg =>
    ⟨(groupsOf_mem hg).1, fun r hr => rowsOf_valid hrows r ((groupsOf_mem hg).2 r hr)⟩
  constructor
  · intro h g hg
    obtain ⟨k, hk, hget⟩ := List.mem_iff_getElem.mp hg
    refine (@statesExist_iff args g k (hgroup g hg).2 (hgroup g hg).1).mp ?_
    refine h _ (List.mem_mapIdx.mpr ⟨k, hk, ?_⟩)
    rw [hget]
  · intro h d hd
    obtain ⟨g, hg, k, rfl⟩ := mem_jobsDataOf hd
    exact (statesExist_iff k (hgroup g hg).2 (hgroup g hg).1).mpr (h g hg)

/-- When no exception is thrown, all accesses are within range if and only if the first job does
not have the number that the last job has at the beginning and each precedence of a task that is
reached from the first one of its job is the number of a task. -/
theorem loadJobs_inRange_iff (env : Env) (args : LoadArgs) (aPath : String) (myFile : Text)
    (h : ∀ what, loadJobs env args aPath (some myFile) ≠ .error (.thrown what)) :
    loadJobs env args aPath (some myFile) ≠ .error .outOfRange ↔
      firstJob env args.aBatchTaskFormat (linesOf myFile) ≠ some 0 ∧
        ∀ rows, rowsOf env args.aBatchTaskFormat myFile = .ok rows →
          ∀ g ∈ groupsOf rows, PrecedencesExist g := by
  rcases loadJobs_cases env args aPath myFile with ⟨rows, hrows, -, hfirst, hjobs⟩ | ⟨what, hwhat⟩ |
    ⟨hfirst, hjobs⟩
  · have hall : (∀ rows', rowsOf env args.aBatchTaskFormat myFile = .ok rows' →
        ∀ g ∈ groupsOf rows', PrecedencesExist g) ↔ ∀ g ∈ groupsOf rows, PrecedencesExist g := by
      refine ⟨fun h => h rows hrows, fun h rows' hrows' => ?_⟩
      rw [hrows] at hrows'
      cases hrows'
      exact h
    rw [and_iff_right hfirst, hall, ← forall_statesExist_iff hrows]
    rcases hjobs with ⟨hexist, hjobs⟩ | ⟨hexist, hjobs⟩
    · rw [hjobs]
      exact iff_of_true (fun h => nomatch h) hexist
    · rw [hjobs]
      exact iff_of_false (fun h => h rfl) hexist
  · exact absurd hwhat (h what)
  · rw [hjobs]
    exact iff_of_false (fun h => h rfl) fun h => h.1 hfirst

theorem loadJobs_inRange_iff_oneTask :
    loadJobs plainEnv plainArgs "" (some "0,j_1,M1,1,1,1,1".toList) ≠ .error .outOfRange ↔
      firstJob plainEnv .Spar (linesOf "0,j_1,M1,1,1,1,1".toList) ≠ some 0 ∧
        ∀ rows, rowsOf plainEnv .Spar "0,j_1,M1,1,1,1,1".toList = .ok rows →
          ∀ g ∈ groupsOf rows, PrecedencesExist g := by
  refine loadJobs_inRange_iff plainEnv plainArgs "" "0,j_1,M1,1,1,1,1".toList fun what hwhat => ?_
  have hreturns : (loadJobs plainEnv plainArgs "" (some "0,j_1,M1,1,1,1,1".toList)).toOption.isSome =
    true := by decide +kernel
  rw [hwhat] at hreturns
  cases hreturns

/-- No exception is thrown, but there is no vector of tasks for a first job of number 0, and
no task for a precedence that is not one. -/
theorem access_out_of_range :
    loadJobs plainEnv plainArgs "" (some "0,j_0,M1,1,1,1,1".toList) = .error .outOfRange ∧
      loadJobs plainEnv plainArgs "" (some "0,j_1,M1_5,1,1,1,1".toList) = .error .outOfRange := by
  decide +kernel

end InRange

section WellFormed

/-- The simulator finds tasks and states by their identifiers, which are positions. -/
structure Job.WellFormed (job : Job) : Prop where
  tasks : job.theTasks ≠ []
  taskIds : ∀ (i : ℕ) (myTask : Task), job.theTasks[i]? = some myTask → myTask.theId = i
  distinct : ∀ myTask ∈ job.theTasks, myTask.theDeps.Nodup
  deps : ∀ myTask ∈ job.theTasks, ∀ dep ∈ myTask.theDeps, dep < job.theStateSizes.length
  needed : ∀ dep < job.theStateSizes.length, ∃ myTask ∈ job.theTasks, dep ∈ myTask.theDeps

variable {args : LoadArgs} {myJob : JobData}

theorem mem_tasksFrom {picked : ℕ} {myTask : Task} : myTask ∈ tasksFrom args myJob picked →
    ∃ myTaskId ∈ chainOf myJob, ∃ picked, myTask = taskFrom args myJob myTaskId picked := by
  rw [tasksFrom, List.mem_map]
  rintro ⟨x, hx, rfl⟩
  exact ⟨x.1, mem_toSet.mp (List.fst_mem_of_mem_zipIdx hx), _, rfl⟩

theorem exists_taskFrom (picked : ℕ) {myTaskId : ℕ} (h : myTaskId ∈ chainOf myJob) :
    ∃ picked', taskFrom args myJob myTaskId picked' ∈ tasksFrom args myJob picked := by
  obtain ⟨i, hi, hget⟩ := List.mem_iff_getElem.mp (mem_toSet.mpr h)
  refine ⟨picked + i, List.mem_map.mpr ⟨(myTaskId, i), ?_, rfl⟩⟩
  exact List.mem_zipIdx_iff_getElem?.mpr (by rw [List.getElem?_eq_getElem hi, hget])

theorem chainOf_ne_nil : toSet (chainOf myJob) ≠ [] :=
  List.ne_nil_of_mem (mem_toSet.mpr (List.mem_cons_self (a := 0)))

/-- A job that is made from tasks with sets of precedences is well formed. -/
theorem jobFrom_wellFormed (theId picked : ℕ)
    (h : ∀ myTask ∈ myJob.theTasks, myTask.thePrecedences.Pairwise (· < ·)) :
    (jobFrom args myJob theId picked).WellFormed where
  tasks := by
    have hne := @chainOf_ne_nil myJob
    simpa [jobFrom, tasksFrom] using hne
  taskIds := by
    intro i myTask hget
    simp only [jobFrom, tasksFrom, List.getElem?_map, List.getElem?_zipIdx, Option.map_map,
      Option.map_eq_some_iff] at hget
    obtain ⟨myTaskId, hid, rfl⟩ := hget
    obtain ⟨hi, rfl⟩ := List.getElem?_eq_some_iff.mp hid
    have hnodup : (toSet (chainOf myJob)).Nodup := (toSet_sorted _).imp Nat.ne_of_lt
    exact hnodup.idxOf_getElem i hi
  distinct := by
    intro myTask hmem
    obtain ⟨myTaskId, hchain, _, rfl⟩ := mem_tasksFrom hmem
    have hstates : (statesOfTask myJob myTaskId).Nodup := by
      refine List.Nodup.filter _ ?_
      cases hget : myJob.theTasks[myTaskId]? with
      | none => exact List.nodup_nil
      | some myTask => exact (h myTask (List.mem_of_getElem? hget)).imp Nat.ne_of_lt
    refine hstates.map_on fun x hx y _ hxy => ?_
    exact (List.idxOf_inj (mem_allStates.mpr ⟨myTaskId, hchain, hx⟩)).mp hxy
  deps := by
    intro myTask hmem dep hdep
    obtain ⟨myTaskId, hchain, _, rfl⟩ := mem_tasksFrom hmem
    obtain ⟨x, hx, rfl⟩ := List.mem_map.mp hdep
    rw [jobFrom, List.length_map]
    exact List.idxOf_lt_length_of_mem (mem_allStates.mpr ⟨myTaskId, hchain, hx⟩)
  needed := by
    intro dep hdep
    rw [jobFrom, List.length_map] at hdep
    obtain ⟨myTaskId, hchain, hx⟩ := mem_allStates.mp (List.getElem_mem hdep)
    obtain ⟨picked', hmem⟩ := @exists_taskFrom args myJob picked _ hchain
    refine ⟨_, hmem, List.mem_map.mpr ⟨_, hx, ?_⟩⟩
    have hnodup : (allStates myJob).Nodup := (toSet_sorted _).imp Nat.ne_of_lt
    exact hnodup.idxOf_getElem dep hdep

theorem loadJobs_wellFormed (env : Env) (args : LoadArgs) (aPath : String) (myFile : Text)
    (rows : List TraceRow) (hrows : rowsOf env args.aBatchTaskFormat myFile = .ok rows)
    (hfirst : ∀ r ∈ rows.head?, r.theJob ≠ 0)
    (hprecs : ∀ g ∈ groupsOf rows, ∀ r ∈ g, ∀ p ∈ r.thePrecedences, 0 < p ∧ p ≤ numTasks g) :
    loadJobs env args aPath (some myFile) ≠ .error .outOfRange ∧
      ∀ jobs, loadJobs env args aPath (some myFile) = .ok jobs →
        ∀ (i : ℕ) (job : Job), jobs[i]? = some job → job.theId = i ∧ job.WellFormed := by
  have hexist : ∀ g ∈ groupsOf rows, PrecedencesExist g := by
    rintro g hg t p - ⟨r, hr, -, hp⟩
    exact hprecs g hg r hr p hp
  rw [← forall_statesExist_iff hrows] at hexist
  rcases loadJobs_cases env args aPath myFile with ⟨rows', hrows', -, -, hjobs⟩ | ⟨what, hwhat⟩ |
    ⟨hzero, hjobs⟩
  · rw [hrows] at hrows'
    cases hrows'
    obtain ⟨-, hjobs⟩ := hjobs.resolve_right fun h => h.1 hexist
    rw [hjobs]
    refine ⟨by simp, fun jobs heq i job hget => ?_⟩
    cases heq
    refine ⟨(jobsFrom_ids 0 0 _ hget).trans (Nat.zero_add i), ?_⟩
    obtain ⟨d, hd, theId, picked, rfl⟩ := mem_jobsFrom (List.mem_of_getElem? hget)
    obtain ⟨g, -, k, rfl⟩ := mem_jobsDataOf hd
    exact jobFrom_wellFormed theId picked (tasksOf_sorted args g)
  · rw [hwhat]
    exact ⟨by simp, by simp⟩
  · rw [rowsOf] at hrows
    obtain ⟨lines, hlines, rfl⟩ := map_ok.mp hrows
    rw [firstJob_eq hlines] at hzero
    obtain ⟨r, hr, hnumber⟩ := Option.map_eq_some_iff.mp hzero
    exact absurd hnumber (hfirst r hr)

theorem loadJobs_wellFormed_oneState : ∃ jobs,
    loadJobs plainEnv plainArgs "" (some "0,j_1,M1,1,1,1,1\n0,j_1,R3_1_2,1,1,1,1".toList) = .ok jobs ∧
      jobs.length = 1 ∧
      ∀ (i : ℕ) (job : Job), jobs[i]? = some job → job.theId = i ∧ job.WellFormed := by
  obtain ⟨jobs, hjobs, hlength⟩ := ok_of_toOption (m := loadJobs plainEnv plainArgs ""
    (some "0,j_1,M1,1,1,1,1\n0,j_1,R3_1_2,1,1,1,1".toList)) (f := List.length) (b := 1)
    (by decide +kernel)
  refine ⟨jobs, hjobs, hlength, (loadJobs_wellFormed plainEnv plainArgs ""
    "0,j_1,M1,1,1,1,1\n0,j_1,R3_1_2,1,1,1,1".toList
    [plainRow ['M', '1'] 1 [], plainRow ['R', '3', '_', '1', '_', '2'] 3 [1, 2]]
    (eq_ok (by decide +kernel)) ?_ ?_).2 jobs hjobs⟩
  · decide
  · decide

end WellFormed

section ChainOrder

/-- The tasks of a job as they are numbered in the trace: the identifiers that were mapped to
those of the tasks. -/
def traceIds (myJob : JobData) (job : Job) : List ℕ :=
  job.theTasks.map fun myTask => (toSet (chainOf myJob)).getD myTask.theId 0

theorem traceIds_jobFrom (args : LoadArgs) (myJob : JobData) (theId picked : ℕ) :
    traceIds myJob (jobFrom args myJob theId picked) = toSet (chainOf myJob) := by
  rw [traceIds, jobFrom, tasksFrom, List.map_map]
  refine (List.map_congr_left fun x hx => ?_).trans (List.zipIdx_map_fst 0 _)
  have hmem : x.1 ∈ toSet (chainOf myJob) := List.fst_mem_of_mem_zipIdx hx
  have hlt := List.idxOf_lt_length_of_mem hmem
  rw [Function.comp_apply, taskFrom, List.getD_eq_getElem?_getD, List.getElem?_eq_getElem hlt,
    List.getElem_idxOf hlt]
  rfl

/-- There is a job for each group of rows, unless it is discarded. -/
theorem jobsFrom_groups {args : LoadArgs} (theId picked : ℕ) (gs : List (List TraceRow))
    {f : ℕ → List TraceRow → JobData} (hf : ∀ k g, ∃ j, f k g = jobDataOf args j g) :
    List.Forall₂ (fun job g => ∃ k theId picked, job = jobFrom args (jobDataOf args k g) theId picked)
      (jobsFrom args theId picked (gs.mapIdx f))
      (gs.filter fun g => Kept args (jobDataOf args 0 g)) := by
  induction gs generalizing theId picked f with
  | nil => exact .nil
  | cons g gs ih =>
    obtain ⟨j, hj⟩ := hf 0 g
    have hsame : Kept args (jobDataOf args j g) ↔ Kept args (jobDataOf args 0 g) := Iff.rfl
    rw [List.mapIdx_cons, jobsFrom, hj]
    by_cases hkept : Kept args (jobDataOf args 0 g)
    · rw [if_pos (hsame.mpr hkept), List.filter_cons_of_pos (by simpa using hkept)]
      exact .cons ⟨j, theId, picked, rfl⟩ (ih _ _ fun k g => hf (k + 1) g)
    · rw [if_neg fun h => hkept (hsame.mp h), List.filter_cons_of_neg (by simpa using hkept)]
      exact ih _ _ fun k g => hf (k + 1) g

/-- A job that is returned has its tasks in the order of the chain if and only if, whenever a
task depends on another that is reached, each task reached that is numbered between the two
depends on one that is reached and numbered from the other on, before itself. -/
theorem loadJobs_inChainOrder_iff (env : Env) (args : LoadArgs) (aPath : String) (myFile : Text)
    (rows : List TraceRow) (jobs : List Job)
    (hrows : rowsOf env args.aBatchTaskFormat myFile = .ok rows)
    (hjobs : loadJobs env args aPath (some myFile) = .ok jobs)
    (hacyclic : ∀ g ∈ groupsOf rows, Acyclic g) :
    List.Forall₂ (fun job g => ∃ k theId picked,
        job = jobFrom args (jobDataOf args k g) theId picked ∧
        (InChainOrder (jobDataOf args k g) (traceIds (jobDataOf args k g) job) ↔
          Numbered (fun p t => DependsOn g t p) (FromFirst g)))
      jobs ((groupsOf rows).filter fun g => Kept args (jobDataOf args 0 g)) := by
  rcases loadJobs_cases env args aPath myFile with ⟨rows', hrows', -, -, hloaded⟩ | ⟨what, hwhat⟩ |
    ⟨-, hloaded⟩
  · rw [hrows] at hrows'
    cases hrows'
    rcases hloaded with ⟨-, hloaded⟩ | ⟨-, hloaded⟩
    · rw [hloaded] at hjobs
      cases hjobs
      have hgroups := @jobsFrom_groups args 0 0 (groupsOf rows) _ fun k g => ⟨k, rfl⟩
      refine List.forall₂_iff_zip.mpr ⟨hgroups.length_eq, fun {job g} hmem => ?_⟩
      obtain ⟨k, theId, picked, rfl⟩ := (List.forall₂_iff_zip.mp hgroups).2 hmem
      have hg : g ∈ groupsOf rows := List.mem_of_mem_filter (List.of_mem_zip hmem).2
      obtain ⟨hne, hrow⟩ := groupsOf_mem hg
      refine ⟨k, theId, picked, rfl, ?_⟩
      rw [traceIds_jobFrom]
      exact toSet_inChainOrder_iff args k (fun r hr => rowsOf_valid hrows r (hrow r hr)) hne
        (hacyclic g hg)
    · rw [hloaded] at hjobs
      cases hjobs
  · rw [hwhat] at hjobs
    cases hjobs
  · rw [hloaded] at hjobs
    cases hjobs

theorem acyclic_of_rank {g : List TraceRow} (rank : ℕ → ℕ)
    (h : ∀ r ∈ g, ∀ p ∈ r.thePrecedences, rank p < rank r.theTask) : Acyclic g := by
  have hlt : ∀ p t, TransGen (fun p t => DependsOn g t p) p t → rank p < rank t := by
    intro p t hpath
    induction hpath with
    | single hstep =>
      obtain ⟨r, hr, rfl, hp⟩ := hstep
      exact h r hr _ hp
    | tail _ hstep ih =>
      obtain ⟨r, hr, rfl, hp⟩ := hstep
      exact ih.trans (h r hr _ hp)
  exact fun t hpath => lt_irrefl _ (hlt t t hpath)

theorem loadJobs_inChainOrder_iff_twoTasks : ∃ rows jobs,
    rowsOf plainEnv .Spar "0,j_1,M1,1,1,1,1\n0,j_1,R2_1,1,1,1,1".toList = .ok rows ∧
      loadJobs plainEnv plainArgs "" (some "0,j_1,M1,1,1,1,1\n0,j_1,R2_1,1,1,1,1".toList) = .ok jobs ∧
      jobs.length = 1 ∧
      List.Forall₂ (fun job g => ∃ k theId picked,
          job = jobFrom plainArgs (jobDataOf plainArgs k g) theId picked ∧
          (InChainOrder (jobDataOf plainArgs k g) (traceIds (jobDataOf plainArgs k g) job) ↔
            Numbered (fun p t => DependsOn g t p) (FromFirst g)))
        jobs ((groupsOf rows).filter fun g => Kept plainArgs (jobDataOf plainArgs 0 g)) := by
  have hrows : rowsOf plainEnv .Spar "0,j_1,M1,1,1,1,1\n0,j_1,R2_1,1,1,1,1".toList =
    .ok [plainRow ['M', '1'] 1 [], plainRow ['R', '2', '_', '1'] 2 [1]] := eq_ok (by decide +kernel)
  obtain ⟨jobs, hjobs, hlength⟩ := ok_of_toOption (m := loadJobs plainEnv plainArgs ""
    (some "0,j_1,M1,1,1,1,1\n0,j_1,R2_1,1,1,1,1".toList)) (f := List.length) (b := 1)
    (by decide +kernel)
  refine ⟨_, jobs, hrows, hjobs, hlength, loadJobs_inChainOrder_iff plainEnv plainArgs "" _ _ jobs
    hrows hjobs fun g hg => acyclic_of_rank id ?_⟩
  have hranks : ∀ g ∈ groupsOf [plainRow ['M', '1'] 1 [], plainRow ['R', '2', '_', '1'] 2 [1]],
    ∀ r ∈ g, ∀ p ∈ r.thePrecedences, p < r.theTask := by decide
  exact hranks g hg

/-- The third task depends on the first and the second on the third, but the second one comes
before the third. -/
theorem chain_not_in_order : ∃ rows g jobs job,
    rowsOf plainEnv .Spar
      "0,j_1,M1,1,1,1,1\n0,j_1,R3_1,1,1,1,1\n0,j_1,R2_3,1,1,1,1".toList = .ok rows ∧
    groupsOf rows = [g] ∧ Acyclic g ∧ (∀ r ∈ g, ∀ p ∈ r.thePrecedences, 0 < p ∧ p ≤ numTasks g) ∧
    loadJobs plainEnv plainArgs ""
      (some "0,j_1,M1,1,1,1,1\n0,j_1,R3_1,1,1,1,1\n0,j_1,R2_3,1,1,1,1".toList) = .ok jobs ∧
    jobs = [job] ∧ job = jobFrom plainArgs (jobDataOf plainArgs 0 g) 0 0 ∧
    ¬ InChainOrder (jobDataOf plainArgs 0 g) (traceIds (jobDataOf plainArgs 0 g) job) := by
  have hrows : rowsOf plainEnv .Spar
      "0,j_1,M1,1,1,1,1\n0,j_1,R3_1,1,1,1,1\n0,j_1,R2_3,1,1,1,1".toList =
    .ok [plainRow ['M', '1'] 1 [], plainRow ['R', '3', '_', '1'] 3 [1],
      plainRow ['R', '2', '_', '3'] 2 [3]] := eq_ok (by decide +kernel)
  refine ⟨_, [plainRow ['M', '1'] 1 [], plainRow ['R', '3', '_', '1'] 3 [1],
    plainRow ['R', '2', '_', '3'] 2 [3]], _, _, hrows, ?_, ?_, ?_, eq_ok ?_, rfl, rfl, ?_⟩
  · decide
  · exact acyclic_of_rank (fun t => if t = 2 then 4 else t) (by decide)
  · decide
  · decide +kernel
  · intro h
    exact absurd h.chain (by decide +kernel)

end ChainOrder

end ServerlessEdge.StateSim
