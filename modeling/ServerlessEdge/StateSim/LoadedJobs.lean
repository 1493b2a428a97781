import ServerlessEdge.StateSim.Chains

/-! The jobs that are loaded from a trace: their tasks and states are numbered anew, in the
order of the numbers that they have in the trace. -/
namespace ServerlessEdge.StateSim
open Library Checks DepthFirst Relation

section AddJob

variable (args : LoadArgs) (myJob : JobData)

/-- The state dependencies of a task: its precedences that are not in the chain. -/
def statesOfTask (myId : ℕ) : List ℕ :=
  ((myJob.theTasks[myId]?.map TaskData.thePrecedences).getD []).filter
    (· ∉ toSet (chainOf myJob))

/-- The states of a job, as they are numbered in the trace. -/
def allStates : List ℕ := toSet ((chainOf myJob).flatMap (statesOfTask myJob))

def Stateless : Prop := ∀ myId ∈ chainOf myJob, statesOfTask myJob myId = []

instance : Decidable (Stateless myJob) := inferInstanceAs (Decidable (∀ _ ∈ _, _))

/-- The job is not discarded. -/
def Kept : Prop := ¬ (args.aStatefulOnly = true ∧ Stateless myJob)

instance : Decidable (Kept args myJob) := inferInstanceAs (Decidable (¬ _))

/-- The states of a job are tasks of the trace. -/
def StatesExist : Prop := ∀ x ∈ allStates myJob, x < myJob.theTasks.length

instance : Decidable (StatesExist myJob) := inferInstanceAs (Decidable (∀ _ ∈ _, _))

/-- What the trace says of a task. -/
def dataOf (myId : ℕ) : TaskData := myJob.theTasks.getD myId ⟨[], 0, 0⟩

/-- A task of the job, made from one of the trace. -/
def taskFrom (myTaskId picked : ℕ) : Task where
  theId := (toSet (chainOf myJob)).idxOf myTaskId
  theSize := toSize (args.aArgFactor * (dataOf myJob myTaskId).theSize)
  theOps := (dataOf myJob myTaskId).theOps
  theFunc := pick args.aFuncWeights (args.aRnd picked)
  theDeps := (statesOfTask myJob myTaskId).map (allStates myJob).idxOf

/-- The tasks of the job, where that many functions have been picked before. -/
def tasksFrom (picked : ℕ) : List Task :=
  (toSet (chainOf myJob)).zipIdx.map fun x => taskFrom args myJob x.1 (picked + x.2)

/-- The job that is made from the data of one. -/
def jobFrom (theId picked : ℕ) : Job where
  theId := theId
  theStart := myJob.theStartTime
  theTasks := tasksFrom args myJob picked
  theStateSizes := (allStates myJob).map fun x => toSize (args.aStateFactor * (dataOf myJob x).theSize)
  theRetSize := ((tasksFrom args myJob picked).head?.map Task.theSize).getD 0

variable {args myJob}

theorem access_ok {α : Type} {l : List α} {i : ℕ} (d : α) (h : i < l.length) :
    access l i = .ok (l.getD i d) := by
  rw [access, List.getD_eq_getElem?_getD, List.getElem?_eq_getElem h]
  rfl

theorem access_error {α : Type} {l : List α} {i : ℕ} (h : ¬ i < l.length) :
    access l i = .error .outOfRange := by
  rw [access, List.getElem?_eq_none (Nat.not_lt.mp h)]

theorem newId_ok {aElements : List ℕ} {x : ℕ} (h : x ∈ aElements) :
    newId aElements x = .ok (aElements.idxOf x) := if_pos h

theorem chainOf_lt_length (hne : myJob.theTasks ≠ []) {x : ℕ} (hx : x ∈ chainOf myJob) :
    x < myJob.theTasks.length := by
  obtain ⟨c, hc, hscan⟩ := chainOf_scan myJob
  rw [hc] at hx
  rcases List.mem_cons.mp hx with rfl | hx
  · exact List.length_pos_iff.mpr hne
  · exact List.mem_range.mp (hscan.mem_vs (fun _ h => h) (List.nil_subset _) hx)

theorem statesOfTask_eq {myId : ℕ} (h : myId < myJob.theTasks.length) :
    statesOfTask myJob myId =
      (dataOf myJob myId).thePrecedences.filter (· ∉ toSet (chainOf myJob)) := by
  rw [statesOfTask, dataOf, List.getD_eq_getElem?_getD, List.getElem?_eq_getElem h]
  rfl

theorem mem_allStates {x : ℕ} :
    x ∈ allStates myJob ↔ ∃ myId ∈ chainOf myJob, x ∈ statesOfTask myJob myId := by
  rw [allStates, mem_toSet, List.mem_flatMap]

/-- The loop over the states, from some of them on, fails if one of the states is not a task. -/
private theorem sizes_spec (args : LoadArgs) (myJob : JobData) (states rest pre : List ℕ) (hstates : states = pre ++ rest)
    (hnodup : states.Nodup) : rest.foldlM (setStateSize args myJob states)
        (pre.map (fun x => toSize (args.aStateFactor * (dataOf myJob x).theSize)) ++
          List.replicate rest.length 0) =
    if ∀ x ∈ rest, x < myJob.theTasks.length then
      .ok (states.map fun x => toSize (args.aStateFactor * (dataOf myJob x).theSize))
    else .error .outOfRange := by
  induction rest generalizing pre with
  | nil =>
    rw [if_pos (by simp), hstates]
    simp only [List.foldlM_nil, List.length_nil, List.replicate_zero, List.append_nil]
    rfl
  | cons x rest ih =>
    have hmem : x ∈ states := hstates ▸ List.mem_append_right _ List.mem_cons_self
    have hpre : x ∉ pre := by
      rw [hstates] at hnodup
      exact fun hx => (List.nodup_append.mp hnodup).2.2 x hx x List.mem_cons_self rfl
    have hidx : states.idxOf x = pre.length := by
      rw [hstates, List.idxOf_append_of_notMem hpre, List.idxOf_cons_self, Nat.add_zero]
    rw [List.foldlM_cons, setStateSize, newId_ok hmem, ok_bind, hidx]
    by_cases hx : x < myJob.theTasks.length
    · rw [access_ok ⟨[], 0, 0⟩ hx, ok_bind, access_ok 0 (by simp), ok_bind]
      have hset : (pre.map (fun x => toSize (args.aStateFactor * (dataOf myJob x).theSize)) ++
          List.replicate (x :: rest).length 0).set pre.length
            (toSize (args.aStateFactor * (myJob.theTasks.getD x ⟨[], 0, 0⟩).theSize)) =
          (pre ++ [x]).map (fun x => toSize (args.aStateFactor * (dataOf myJob x).theSize)) ++
            List.replicate rest.length 0 := by
        rw [List.set_append_right _ _ (by simp)]
        simp [List.replicate_succ, dataOf]
      rw [hset]
      refine (ih (pre ++ [x]) (by simp [hstates])).trans (if_congr ?_ rfl rfl)
      rw [List.forall_mem_cons]
      exact (and_iff_right hx).symm
    · rw [access_error hx, if_neg fun h => hx (h x List.mem_cons_self)]
      rfl

/-- What the loop does with a job: it is discarded, or there is a state that is not a task, or
it is added. -/
theorem addJob_spec (s : List Job × ℕ) (hne : myJob.theTasks ≠ []) : addJob args s myJob =
    if Kept args myJob then
      if StatesExist myJob then
        .ok (s.1 ++ [jobFrom args myJob s.1.length s.2], s.2 + (toSet (chainOf myJob)).length)
      else .error .outOfRange
    else .ok s := by
  have hlt : ∀ x ∈ chainOf myJob, x < myJob.theTasks.length := fun x => chainOf_lt_length hne
  have hdeps : (chainOf myJob).mapM (fun myId => do
      let myTask ← access myJob.theTasks myId
      pure (myId, myTask.thePrecedences.filter fun myPrec => myPrec ∉ toSet (chainOf myJob)) :
        ℕ → Except Failure (ℕ × List ℕ)) =
      .ok ((chainOf myJob).map fun myId => (myId, statesOfTask myJob myId)) := by
    refine mapM_of_ok fun myId hmem => ?_
    rw [access_ok ⟨[], 0, 0⟩ (hlt myId hmem), ok_bind, statesOfTask_eq (hlt myId hmem)]
    rfl
  have hstates : toSet (((chainOf myJob).map fun myId => (myId, statesOfTask myJob myId)).flatMap
      Prod.snd) = allStates myJob := by
    rw [List.flatMap_map, allStates]
  have hstateless : (((chainOf myJob).map fun myId => (myId, statesOfTask myJob myId)).all
      fun elem => elem.2.isEmpty) = decide (Stateless myJob) := by
    rw [List.all_map, Bool.eq_iff_iff, List.all_eq_true, decide_eq_true_eq, Stateless]
    exact forall₂_congr fun myId _ => List.isEmpty_iff
  simp only [addJob, hdeps, ok_bind, hstates, hstateless]
  by_cases hkept : Kept args myJob
  · have hnot : (args.aStatefulOnly && decide (Stateless myJob)) = false := by
      rw [Kept, not_and_or] at hkept
      rcases hkept with h | h
      · rw [eq_false_of_ne_true h, Bool.false_and]
      · rw [decide_eq_false h, Bool.and_false]
    rw [hnot, if_neg Bool.false_ne_true, if_pos hkept]
    have htasks : (toSet (chainOf myJob)).zipIdx.mapM (fun x =>
        newTask args myJob (toSet (chainOf myJob))
          ((chainOf myJob).map fun myId => (myId, statesOfTask myJob myId)) (allStates myJob)
          (s.2 + x.2) x.1) = .ok (tasksFrom args myJob s.2) := by
      refine mapM_of_ok fun x hx => ?_
      have hset : x.1 ∈ toSet (chainOf myJob) := List.fst_mem_of_mem_zipIdx hx
      have hmem : x.1 ∈ chainOf myJob := mem_toSet.mp hset
      have hnew : ∀ y ∈ statesOfTask myJob x.1,
          newId (allStates myJob) y = .ok ((allStates myJob).idxOf y) :=
        fun y hy => newId_ok (mem_allStates.mpr ⟨x.1, hmem, hy⟩)
      rw [newTask, dependenciesOf, List.lookup_graph (statesOfTask myJob) hmem, ok_bind,
        mapM_of_ok hnew, ok_bind, newId_ok hset, ok_bind, access_ok ⟨[], 0, 0⟩ (hlt _ hmem), ok_bind]
      rfl
    have hsizes := sizes_spec args myJob (allStates myJob) (allStates myJob) [] rfl
      ((toSet_sorted _).imp Nat.ne_of_lt)
    rw [List.map_nil, List.nil_append] at hsizes
    have hpos : 0 < (tasksFrom args myJob s.2).length := by
      rw [tasksFrom, List.length_map, List.length_zipIdx]
      exact List.length_pos_of_mem (mem_toSet.mpr (List.mem_cons_self (a := 0)))
    simp only [htasks, ok_bind]
    by_cases hexist : ∀ x ∈ allStates myJob, x < myJob.theTasks.length
    · rw [hsizes, if_pos hexist, if_pos (show StatesExist myJob from hexist)]
      obtain ⟨first, hfirst⟩ : ∃ first, (tasksFrom args myJob s.2)[0]? = some first :=
        ⟨_, List.getElem?_eq_getElem hpos⟩
      rw [ok_bind, access, hfirst]
      have hlen : (tasksFrom args myJob s.2).length = (toSet (chainOf myJob)).length := by
        rw [tasksFrom, List.length_map, List.length_zipIdx]
      simp only [ok_bind, hlen, jobFrom, List.head?_eq_getElem?, hfirst]
      rfl
    · rw [hsizes, if_neg hexist, if_neg (show ¬ StatesExist myJob from hexist)]
      rfl
  · have hboth : (args.aStatefulOnly && decide (Stateless myJob)) = true := by
      rw [Kept, not_not] at hkept
      rw [hkept.1, decide_eq_true hkept.2]
      rfl
    rw [hboth, if_pos rfl, if_neg hkept]
    rfl

end AddJob

section AddJobs

variable (args : LoadArgs)

/-- The jobs that are made from the data of some, after that many jobs and that many picks. -/
def jobsFrom : ℕ → ℕ → List JobData → List Job
  | _, _, [] => []
  | theId, picked, myJob :: rest =>
    if Kept args myJob then
      jobFrom args myJob theId picked ::
        jobsFrom (theId + 1) (picked + (toSet (chainOf myJob)).length) rest
    else jobsFrom theId picked rest

/-- The loop over the jobs fails if a state of a job that is not discarded is not a task. -/
theorem foldlM_addJob (data : List JobData) (s : List Job × ℕ) (hne : ∀ d ∈ data, d.theTasks ≠ []) :
    ((∀ d ∈ data, Kept args d → StatesExist d) ∧ ∃ picked, data.foldlM (addJob args) s =
      .ok (s.1 ++ jobsFrom args s.1.length s.2 data, picked)) ∨
    (¬ (∀ d ∈ data, Kept args d → StatesExist d) ∧
      data.foldlM (addJob args) s = .error .outOfRange) := by
  induction data generalizing s with
  | nil => exact .inl ⟨by simp, s.2, by rw [jobsFrom, List.append_nil]; rfl⟩
  | cons d data ih =>
    obtain ⟨hd, hdata⟩ := List.forall_mem_cons.mp hne
    rw [List.foldlM_cons, addJob_spec s hd, List.forall_mem_cons, jobsFrom]
    by_cases hkept : Kept args d
    · rw [if_pos hkept, if_pos hkept]
      by_cases hexist : StatesExist d
      · rw [if_pos hexist, ok_bind]
        rcases ih (s.1 ++ [jobFrom args d s.1.length s.2], s.2 + (toSet (chainOf d)).length) hdata with
          ⟨hall, picked, hrest⟩ | ⟨hall, hrest⟩
        · refine .inl ⟨⟨fun _ => hexist, hall⟩, picked, ?_⟩
          rw [hrest, List.append_assoc, List.length_append, List.length_singleton,
            List.singleton_append]
        · exact .inr ⟨fun h => hall h.2, hrest⟩
      · rw [if_neg hexist]
        exact .inr ⟨fun h => hexist (h.1 hkept), rfl⟩
    · rw [if_neg hkept, if_neg hkept, ok_bind]
      rcases ih s hdata with ⟨hall, hrest⟩ | ⟨hall, hrest⟩
      · exact .inl ⟨⟨fun h => absurd h hkept, hall⟩, hrest⟩
      · exact .inr ⟨fun h => hall h.2, hrest⟩

variable {args}

theorem mem_jobsFrom {theId picked : ℕ} {data : List JobData} {job : Job}
    (h : job ∈ jobsFrom args theId picked data) :
    ∃ d ∈ data, ∃ theId picked, job = jobFrom args d theId picked := by
  induction data generalizing theId picked with
  | nil => cases h
  | cons d data ih =>
    rw [jobsFrom] at h
    split at h
    · rcases List.mem_cons.mp h with rfl | h
      · exact ⟨d, List.mem_cons_self, theId, picked, rfl⟩
      · obtain ⟨d', hd', hjob⟩ := ih h
        exact ⟨d', List.mem_cons_of_mem _ hd', hjob⟩
    · obtain ⟨d', hd', hjob⟩ := ih h
      exact ⟨d', List.mem_cons_of_mem _ hd', hjob⟩

/-- The identifier of a job is its position. -/
theorem jobsFrom_ids (theId picked : ℕ) (data : List JobData) {i : ℕ} {job : Job}
    (h : (jobsFrom args theId picked data)[i]? = some job) : job.theId = theId + i := by
  induction data generalizing theId picked i with
  | nil => cases h
  | cons d data ih =>
    rw [jobsFrom] at h
    split at h
    · cases i with
      | zero =>
        cases h
        rfl
      | succ i =>
        rw [ih _ _ h]
        omega
    · exact ih _ _ h

theorem groupsOf_mem {rows : List TraceRow} {g : List TraceRow} (hg : g ∈ groupsOf rows) :
    g ≠ [] ∧ ∀ r ∈ g, r ∈ rows := by
  constructor
  · rintro rfl
    exact List.nil_notMem_splitBy _ _ hg
  · intro r hr
    have hflatten : (groupsOf rows).flatten = rows := List.flatten_splitBy _ _
    rw [← hflatten]
    exact List.mem_flatten.mpr ⟨g, hg, hr⟩

theorem mem_jobsDataOf {gs : List (List TraceRow)} {d : JobData} :
    d ∈ jobsDataOf args gs → ∃ g ∈ gs, ∃ k, d = jobDataOf args k g := by
  rw [jobsDataOf, List.mem_mapIdx]
  rintro ⟨k, hk, rfl⟩
  exact ⟨gs[k], List.getElem_mem hk, k, rfl⟩

theorem jobNumber_of_readRow {env : Env} {f : BatchTaskFormat} {myLine : Text} {r : Option TraceRow}
    (h : readRow env f myLine = .ok r) : jobNumber env f myLine = .ok (r.map TraceRow.theJob) := by
  rw [readRow, bind_ok] at h
  obtain ⟨row, hrow, h⟩ := h
  rw [jobNumber, hrow, ok_bind]
  cases row with
  | none =>
    cases h
    rfl
  | some myRow =>
    simp only [bind_ok] at h
    obtain ⟨myJob, hjob, h⟩ := h
    simp only [hjob, ok_bind]
    split at h
    · cases h
    · obtain ⟨myTask, -, h⟩ := bind_ok.mp h
      split at h
      · cases h
      · obtain ⟨precs, -, h⟩ := bind_ok.mp h
        cases h
        rfl

theorem firstJob_eq {env : Env} {f : BatchTaskFormat} {myLines : List Text}
    {rows : List (Option TraceRow)} (h : myLines.mapM (readRow env f) = .ok rows) :
    firstJob env f myLines = rows.reduceOption.head?.map TraceRow.theJob := by
  induction myLines generalizing rows with
  | nil =>
    cases h
    rfl
  | cons myLine rest ih =>
    obtain ⟨r, rows', hr, hrows', rfl⟩ := mapM_cons_ok.mp h
    rw [firstJob, jobNumber_of_readRow hr]
    cases r with
    | none =>
      have htail := ih hrows'
      exact htail
    | some r => rfl

end AddJobs

section LoadJobs

variable (env : Env) (args : LoadArgs) (aPath : String) (myFile : Text)

/-- What is loaded from a trace: all jobs that are not discarded, if the first one does not
have number 0 and the states of these jobs are tasks, unless an exception is thrown. -/
theorem loadJobs_cases :
    (∃ rows, rowsOf env args.aBatchTaskFormat myFile = .ok rows ∧ (∀ r ∈ rows.head?, r.theJob ≠ 0) ∧
      firstJob env args.aBatchTaskFormat (linesOf myFile) ≠ some 0 ∧
      (((∀ d ∈ jobsDataOf args (groupsOf rows), Kept args d → StatesExist d) ∧
        loadJobs env args aPath (some myFile) =
          .ok (jobsFrom args 0 0 (jobsDataOf args (groupsOf rows)))) ∨
      (¬ (∀ d ∈ jobsDataOf args (groupsOf rows), Kept args d → StatesExist d) ∧
        loadJobs env args aPath (some myFile) = .error .outOfRange))) ∨
    (∃ what, loadJobs env args aPath (some myFile) = .error (.thrown what)) ∨
    (firstJob env args.aBatchTaskFormat (linesOf myFile) = some 0 ∧
      loadJobs env args aPath (some myFile) = .error .outOfRange) := by
  rw [loadJobs]
  split
  · exact .inr (.inl ⟨_, rfl⟩)
  · rcases @readLines_cases env args ⟨0, 0, []⟩ (linesOf myFile) with
      ⟨rows, hrows, hloop, hfirst⟩ | ⟨what, hloop⟩ | ⟨hloop, -, hfirst⟩
    · refine .inl ⟨rows.reduceOption, by rw [rowsOf, hrows]; rfl, ?_⟩
      have hnot : firstJob env args.aBatchTaskFormat (linesOf myFile) ≠ some 0 :=
        hfirst.resolve_left (not_not.mpr rfl)
      have hhead : ∀ r ∈ rows.reduceOption.head?, r.theJob ≠ 0 := by
        intro r hr hzero
        rw [firstJob_eq hrows, hr, Option.map_some, hzero] at hnot
        exact hnot rfl
      have hvalid : ∀ r ∈ rows.reduceOption, r.Valid :=
        rowsOf_valid (show rowsOf env args.aBatchTaskFormat myFile = _ by rw [rowsOf, hrows]; rfl)
      have hne : ∀ d ∈ jobsDataOf args (groupsOf rows.reduceOption), d.theTasks ≠ [] := by
        intro d hd
        obtain ⟨g, hg, k, rfl⟩ := mem_jobsDataOf hd
        obtain ⟨hgne, hmem⟩ := groupsOf_mem hg
        refine List.length_pos_iff.mp ?_
        rw [jobDataOf, length_tasksOf args fun r hr => hvalid r (hmem r hr)]
        exact numTasks_pos (fun r hr => hvalid r (hmem r hr)) hgne
      rw [hloop, foldl_add args _ hhead, ok_bind]
      refine ⟨hhead, hnot, ?_⟩
      rcases foldlM_addJob args _ ([], 0) hne with ⟨hall, picked, hjobs⟩ | ⟨hall, hjobs⟩
      · rw [hjobs]
        exact .inl ⟨hall, rfl⟩
      · rw [hjobs]
        exact .inr ⟨hall, rfl⟩
    · rw [hloop]
      exact .inr (.inl ⟨what, rfl⟩)
    · rw [hloop]
      exact .inr (.inr ⟨hfirst, rfl⟩)

end LoadJobs

end ServerlessEdge.StateSim
