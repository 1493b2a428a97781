import Mathlib.Data.List.ReduceOption
import Mathlib.Data.List.SplitBy
import ServerlessEdge.Library.Checks
import ServerlessEdge.StateSim.Job

/-! The rows of a trace and their groups of the same job, against the data that the loop
over the lines collects. -/
namespace ServerlessEdge.StateSim
open Library Checks

/-- What a valid row says: the number of its job, the number of its task and those of the
tasks that it depends on. -/
structure TraceRow where
  theJob : ℕ
  theTask : ℕ
  thePrecedences : List ℕ
  theRow : Row
  deriving DecidableEq

variable (env : Env) (f : BatchTaskFormat)

/-- The number of the job of a row, if the row is valid. -/
def jobNumber (myLine : Text) : Except String (Option ℕ) := do
  match ← parseRow env myLine f with
  | none => pure none
  | some myRow =>
    let myJob ← stoull (myRow.theJobName.drop 2)
    pure (some myJob)

/-- A row, if it is valid. -/
def readRow (myLine : Text) : Except String (Option TraceRow) := do
  match ← parseRow env myLine f with
  | none => pure none
  | some myRow =>
    let myJob ← stoull (myRow.theJobName.drop 2)
    match env.split (myRow.theTaskName.drop 1) ['_'] with
    | [] => .error "Invalid task"
    | first :: tokens =>
      let myTask ← stoull first
      if myTask = 0 then
        .error "Invalid task identifier (0)"
      else
        let myPrecedences ← tokens.mapM stoull
        pure (some ⟨myJob, myTask, myPrecedences, myRow⟩)

/-- The valid rows of a trace. -/
def rowsOf (myFile : Text) : Except String (List TraceRow) :=
  ((linesOf myFile).mapM (readRow env f)).map List.reduceOption

/-- The number of the job of the first valid row, unless an exception comes before. -/
def firstJob : List Text → Option ℕ
  | [] => none
  | myLine :: rest =>
    match jobNumber env f myLine with
    | .ok none => firstJob rest
    | .ok (some myJob) => some myJob
    | .error _ => none

/-- The consecutive rows of the same job. -/
def groupsOf (rows : List TraceRow) : List (List TraceRow) :=
  rows.splitBy fun r r' => r.theJob = r'.theJob

variable {env f} (args : LoadArgs)

/-- The tasks with what a row says of one of them. -/
def TraceRow.addTo (r : TraceRow) (theTasks : List TaskData) : List TaskData :=
  addTask args r.theRow (r.theTask - 1) (r.thePrecedences.map decrement) theTasks

/-- The variables of the loop with what a row adds to them. -/
def Parsing.add (s : Parsing) (r : TraceRow) : Parsing :=
  match (s.enter r.theJob r.theRow.theStartTime).myJobsData.getLast? with
  | none => s
  | some myJob =>
    (s.enter r.theJob r.theRow.theStartTime).setTasks myJob (r.addTo args myJob.theTasks)

/-- The row is of the job of the last row, but there is no job. -/
theorem enter_empty {s : Parsing} {myCurJobId : ℕ} {theStartTime : ℚ}
    (h : (s.enter myCurJobId theStartTime).myJobsData = []) :
    s.myLastJobId = myCurJobId ∧ s.myJobsData = [] := by
  rw [Parsing.enter] at h
  split at h
  · simp at h
  · rename_i hsame
    exact ⟨not_not.mp hsame, h⟩

/-- What the loop does with a line. -/
theorem readLine_cases (s : Parsing) (myLine : Text) :
    (readRow env args.aBatchTaskFormat myLine = .ok none ∧
      jobNumber env args.aBatchTaskFormat myLine = .ok none ∧
      readLine env args s myLine = .ok s) ∨
    (∃ r, readRow env args.aBatchTaskFormat myLine = .ok (some r) ∧
      jobNumber env args.aBatchTaskFormat myLine = .ok (some r.theJob) ∧
      (s.myLastJobId ≠ r.theJob ∨ s.myJobsData ≠ []) ∧
      readLine env args s myLine = .ok (s.add args r)) ∨
    (∃ what, readLine env args s myLine = .error (.thrown what)) ∨
    (jobNumber env args.aBatchTaskFormat myLine = .ok (some s.myLastJobId) ∧ s.myJobsData = [] ∧
      readLine env args s myLine = .error .outOfRange) := by
  rw [readLine, readRow, jobNumber]
  cases hrow : parseRow env myLine args.aBatchTaskFormat with
  | error what => exact .inr (.inr (.inl ⟨what, rfl⟩))
  | ok row =>
    cases row with
    | none => exact .inl ⟨rfl, rfl, rfl⟩
    | some myRow =>
      simp only [Except.mapError, ok_bind, readTask]
      cases hjob : stoull (myRow.theJobName.drop 2) with
      | error what => exact .inr (.inr (.inl ⟨what, rfl⟩))
      | ok myJob =>
        simp only [ok_bind]
        cases htokens : env.split (myRow.theTaskName.drop 1) ['_'] with
        | nil => exact .inr (.inr (.inl ⟨_, rfl⟩))
        | cons first tokens =>
          simp only
          cases htask : stoull first with
          | error what => exact .inr (.inr (.inl ⟨what, rfl⟩))
          | ok myTask =>
            simp only [ok_bind]
            by_cases hzero : myTask = 0
            · simp only [if_pos hzero]
              exact .inr (.inr (.inl ⟨_, rfl⟩))
            · simp only [if_neg hzero]
              cases hlast : (s.enter myJob myRow.theStartTime).myJobsData.getLast? with
              | none =>
                obtain ⟨hjob, hempty⟩ := enter_empty (List.getLast?_eq_none_iff.mp hlast)
                subst hjob
                exact .inr (.inr (.inr ⟨rfl, hempty, rfl⟩))
              | some job =>
                simp only
                split
                · exact .inr (.inr (.inl ⟨_, rfl⟩))
                · cases hprecs : tokens.mapM stoull with
                  | error what => exact .inr (.inr (.inl ⟨what, rfl⟩))
                  | ok precs =>
                    refine .inr (.inl ⟨⟨myJob, myTask, precs, myRow⟩, rfl, rfl, ?_, ?_⟩)
                    · by_contra hnone
                      rw [not_or, not_not, not_not] at hnone
                      rw [Parsing.enter, if_neg (not_not.mpr hnone.1), hnone.2] at hlast
                      cases hlast
                    · rw [Parsing.add, hlast]
                      rfl

theorem add_ne_nil {s : Parsing} {r : TraceRow} (h : s.myLastJobId ≠ r.theJob ∨ s.myJobsData ≠ []) :
    (s.add args r).myJobsData ≠ [] := by
  rw [Parsing.add]
  split
  · rename_i hlast
    obtain ⟨hjob, hempty⟩ := enter_empty (List.getLast?_eq_none_iff.mp hlast)
    rcases h with h | h
    · exact absurd hjob h
    · exact h
  · simp [Parsing.setTasks]

/-- What the loop over the lines does: it adds all the valid rows, or an exception is thrown, or
there is no job for the first valid row. -/
theorem readLines_cases (s : Parsing) (myLines : List Text) :
    (∃ rows, myLines.mapM (readRow env args.aBatchTaskFormat) = .ok rows ∧
      myLines.foldlM (readLine env args) s = .ok (rows.reduceOption.foldl (Parsing.add args) s) ∧
      (s.myJobsData ≠ [] ∨ firstJob env args.aBatchTaskFormat myLines ≠ some s.myLastJobId)) ∨
    (∃ what, myLines.foldlM (readLine env args) s = .error (.thrown what)) ∨
    (myLines.foldlM (readLine env args) s = .error .outOfRange ∧ s.myJobsData = [] ∧
      firstJob env args.aBatchTaskFormat myLines = some s.myLastJobId) := by
  induction myLines generalizing s with
  | nil => exact .inl ⟨[], rfl, rfl, .inr (by simp [firstJob])⟩
  | cons myLine rest ih =>
    rw [List.foldlM_cons, List.mapM_cons, firstJob]
    rcases readLine_cases args s myLine with ⟨hrow, hjob, hline⟩ | ⟨r, hrow, hjob, hne, hline⟩ |
      ⟨what, hline⟩ | ⟨hjob, hempty, hline⟩
    · rw [hrow, hjob, hline, ok_bind, ok_bind]
      rcases ih s with ⟨rows, hrows, hrest, hne⟩ | hrest | hrest
      · rw [hrows]
        exact .inl ⟨none :: rows, rfl, hrest, hne⟩
      · exact .inr (.inl hrest)
      · exact .inr (.inr hrest)
    · rw [hrow, hjob, hline, ok_bind, ok_bind]
      rcases ih (s.add args r) with ⟨rows, hrows, hrest, -⟩ | hrest | ⟨-, hempty, -⟩
      · rw [hrows]
        refine .inl ⟨some r :: rows, rfl, hrest, ?_⟩
        rcases hne with hne | hne
        · exact .inr fun h => hne (Option.some.inj h).symm
        · exact .inl hne
      · exact .inr (.inl hrest)
      · exact absurd hempty (add_ne_nil args hne)
    · rw [hline]
      exact .inr (.inl ⟨what, rfl⟩)
    · rw [hline, hjob]
      exact .inr (.inr ⟨rfl, hempty, rfl⟩)

section Sets

theorem mem_insertSet {s : List ℕ} {x y : ℕ} : y ∈ insertSet s x ↔ y = x ∨ y ∈ s := by
  rw [insertSet]
  split
  · rename_i hx
    refine ⟨.inr, ?_⟩
    rintro (rfl | hy)
    · exact hx
    · exact hy
  · exact List.mem_orderedInsert _

theorem insertSet_sorted {s : List ℕ} (h : s.Pairwise (· < ·)) (x : ℕ) :
    (insertSet s x).Pairwise (· < ·) := by
  rw [insertSet]
  split
  · exact h
  · rename_i hx
    have hle := (h.imp fun hlt => Nat.le_of_lt hlt).orderedInsert x s
    have hnodup : (s.orderedInsert (· ≤ ·) x).Nodup :=
      (List.perm_orderedInsert _ x s).nodup_iff.mpr (List.nodup_cons.mpr ⟨hx, h.imp Nat.ne_of_lt⟩)
    exact (hle.and hnodup).imp fun hlt => Nat.lt_of_le_of_ne hlt.1 hlt.2

theorem mem_foldl_insertSet {l s : List ℕ} {y : ℕ} : y ∈ l.foldl insertSet s ↔ y ∈ s ∨ y ∈ l := by
  induction l generalizing s with
  | nil => simp
  | cons x l ih =>
    rw [List.foldl_cons, ih, mem_insertSet, List.mem_cons]
    tauto

theorem foldl_insertSet_sorted {l s : List ℕ} (h : s.Pairwise (· < ·)) :
    (l.foldl insertSet s).Pairwise (· < ·) := by
  induction l generalizing s with
  | nil => exact h
  | cons x l ih => exact ih (insertSet_sorted h x)

theorem mem_toSet {l : List ℕ} {y : ℕ} : y ∈ toSet l ↔ y ∈ l := by
  rw [toSet, mem_foldl_insertSet]
  exact or_iff_right List.not_mem_nil

theorem toSet_sorted (l : List ℕ) : (toSet l).Pairwise (· < ·) := foldl_insertSet_sorted .nil

end Sets

section Groups

/-- The tasks of a group of rows. -/
def tasksOf (g : List TraceRow) : List TaskData := g.foldl (fun theTasks r => r.addTo args theTasks) []

/-- The data of the job of a group of rows. -/
def jobDataOf (theId : ℕ) (g : List TraceRow) : JobData where
  theId := theId
  theStartTime := (g.head?.map fun r => r.theRow.theStartTime).getD 0
  theTasks := tasksOf args g

/-- The data of the jobs of all groups. -/
def jobsDataOf (gs : List (List TraceRow)) : List JobData := gs.mapIdx (jobDataOf args)

theorem groupsOf_append_new {rows : List TraceRow} {r : TraceRow}
    (h : ∀ x ∈ rows.getLast?, x.theJob ≠ r.theJob) :
    groupsOf (rows ++ [r]) = groupsOf rows ++ [[r]] := by
  have hlast : ∀ x ∈ rows.getLast?, decide (x.theJob = r.theJob) = false :=
    fun x hx => decide_eq_false (h x hx)
  have hsplit : groupsOf (rows ++ [r]) = groupsOf rows ++ groupsOf [r] :=
    List.splitBy_append_cons [] hlast
  rw [hsplit]
  rfl

theorem groupsOf_append_same {rows : List TraceRow} {x r : TraceRow} (hx : rows.getLast? = some x)
    (h : x.theJob = r.theJob) : ∃ gs g, g ≠ [] ∧ groupsOf rows = gs ++ [g] ∧
      groupsOf (rows ++ [r]) = gs ++ [g ++ [r]] := by
  have hrows : rows ≠ [] := by
    rintro rfl
    cases hx
  have hne : groupsOf rows ≠ [] := List.splitBy_ne_nil.mpr hrows
  obtain ⟨gs, g, hgroups⟩ : ∃ gs g, groupsOf rows = gs ++ [g] :=
    ⟨_, _, (List.dropLast_append_getLast hne).symm⟩
  obtain ⟨hflatten, hnil, hchain, hapart⟩ := List.splitBy_eq_iff.mp hgroups
  have hg : g ≠ [] := by
    rintro rfl
    exact hnil (by simp)
  rw [List.flatten_append, List.flatten_singleton] at hflatten
  have hgx : g.getLast? = some x := by
    rw [hflatten, List.getLast?_append_of_ne_nil _ hg] at hx
    exact hx
  refine ⟨gs, g, hg, hgroups, ?_⟩
  have hgs : gs.flatten.splitBy (fun r r' => r.theJob = r'.theJob) = gs :=
    List.splitBy_flatten (fun hmem => hnil (List.mem_append_left _ hmem))
      (fun m hm => hchain m (List.mem_append_left _ hm)) (List.isChain_append.mp hapart).1
  have hlast : (g ++ [r]).splitBy (fun r r' => r.theJob = r'.theJob) = [g ++ [r]] := by
    refine List.splitBy_of_isChain (by simp) (List.isChain_append.mpr
      ⟨hchain g (List.mem_append_right _ List.mem_cons_self), List.isChain_singleton r, ?_⟩)
    intro y hy z hz
    rw [hgx] at hy
    cases hy
    cases hz
    exact decide_eq_true h
  rw [groupsOf, hflatten, List.append_assoc, List.splitBy_append, hgs, hlast]
  intro y hy z hz
  -- the last row of the groups before is of another job
  rcases List.eq_nil_or_concat gs with rfl | ⟨gs', m, rfl⟩
  · cases hy
  · obtain ⟨hm, _, hfalse⟩ := (List.isChain_append.mp hapart).2.2 m (by simp) g (by simp)
    rw [List.concat_eq_append, List.flatten_append, List.flatten_singleton,
      List.getLast?_append_of_ne_nil _ hm,
      List.getLast?_eq_some_getLast hm] at hy
    rw [List.head?_append_of_ne_nil _ hg, List.head?_eq_some_head hg] at hz
    cases hy
    cases hz
    exact hfalse

theorem jobsDataOf_concat (gs : List (List TraceRow)) (g : List TraceRow) :
    jobsDataOf args (gs ++ [g]) = jobsDataOf args gs ++ [jobDataOf args gs.length g] := by
  rw [jobsDataOf, List.mapIdx_append]
  simp [jobsDataOf]

/-- A group with one more row. -/
theorem jobDataOf_concat (k : ℕ) {g : List TraceRow} (hg : g ≠ []) (r : TraceRow) :
    jobDataOf args k (g ++ [r]) =
      { jobDataOf args k g with theTasks := r.addTo args (tasksOf args g) } := by
  simp only [jobDataOf, tasksOf, List.foldl_append, List.foldl_cons, List.foldl_nil,
    List.head?_append_of_ne_nil _ hg]

theorem add_of_enter {s : Parsing} {r : TraceRow} {jobs : List JobData} {myJob : JobData}
    (h : (s.enter r.theJob r.theRow.theStartTime).myJobsData = jobs ++ [myJob]) :
    s.add args r = { s.enter r.theJob r.theRow.theStartTime with
      myJobsData := jobs ++ [{ myJob with theTasks := r.addTo args myJob.theTasks }] } := by
  rw [Parsing.add, h, List.getLast?_concat]
  simp only [Parsing.setTasks, h, List.dropLast_concat]

/-- The loop collects the data of the jobs of all groups, if the number of the first job is
not that of the last job at the beginning. -/
theorem foldl_add (rows : List TraceRow) (hfirst : ∀ r ∈ rows.head?, r.theJob ≠ 0) :
    rows.foldl (Parsing.add args) ⟨0, 0, []⟩ =
      ⟨(groupsOf rows).length, (rows.getLast?.map TraceRow.theJob).getD 0,
        jobsDataOf args (groupsOf rows)⟩ := by
  induction rows using List.reverseRecOn with
  | nil => rfl
  | append_singleton rows r ih =>
    have hrows : ∀ r ∈ rows.head?, r.theJob ≠ 0 := by
      intro x hx
      refine hfirst x ?_
      cases rows with
      | nil => cases hx
      | cons y rows => exact hx
    rw [List.foldl_append, ih hrows, List.foldl_cons, List.foldl_nil, List.getLast?_concat]
    by_cases hsame : (rows.getLast?.map TraceRow.theJob).getD 0 = r.theJob
    · cases hlast : rows.getLast? with
      | none =>
        -- the first row is not of job 0
        rw [List.getLast?_eq_none_iff] at hlast
        subst hlast
        exact absurd hsame.symm (hfirst r rfl)
      | some x =>
        rw [hlast] at hsame
        obtain ⟨gs, g, hg, hgroups, hnext⟩ := groupsOf_append_same hlast hsame
        have henter : ∀ s : Parsing, s.myLastJobId = r.theJob →
            s.enter r.theJob r.theRow.theStartTime = s := fun s hs => if_neg (not_not.mpr hs)
        have hdata : (Parsing.enter ⟨(groupsOf rows).length, ((some x).map TraceRow.theJob).getD 0,
            jobsDataOf args (groupsOf rows)⟩ r.theJob r.theRow.theStartTime).myJobsData =
              jobsDataOf args gs ++ [jobDataOf args gs.length g] := by
          rw [henter _ hsame, hgroups, jobsDataOf_concat]
        rw [add_of_enter args hdata, henter _ hsame, hnext, jobsDataOf_concat,
          jobDataOf_concat args _ hg, hgroups]
        simp only [List.length_append, List.length_singleton]
        rw [hsame]
        rfl
    · have hnew : ∀ x ∈ rows.getLast?, x.theJob ≠ r.theJob := by
        intro x hx heq
        rw [hx] at hsame
        exact hsame heq
      have henter : ∀ s : Parsing, s.myLastJobId ≠ r.theJob →
          s.enter r.theJob r.theRow.theStartTime = ⟨s.myNextJobId + 1, r.theJob,
            s.myJobsData ++ [⟨s.myNextJobId, r.theRow.theStartTime, []⟩]⟩ := fun s hs => if_pos hs
      rw [add_of_enter args (by rw [henter _ hsame]), henter _ hsame, groupsOf_append_new hnew,
        jobsDataOf_concat, List.length_append]
      rfl

theorem length_addTask (myRow : Row) (myTaskId : ℕ) (precs : List ℕ) (theTasks : List TaskData) :
    (addTask args myRow myTaskId precs theTasks).length = max theTasks.length (myTaskId + 1) := by
  rw [addTask, List.length_modify, List.length_append, List.length_replicate]
  omega

/-- Tasks that are added without a row have no precedences. -/
theorem depends_append_replicate (theTasks : List TaskData) (n i q : ℕ) :
    Depends (theTasks ++ List.replicate n ⟨[], 0, 0⟩) i q ↔ Depends theTasks i q := by
  simp only [Depends, Option.mem_def]
  rcases Nat.lt_or_ge i theTasks.length with hi | hi
  · rw [List.getElem?_append_left hi]
  · rw [List.getElem?_append_right hi, List.getElem?_eq_none hi]
    refine iff_of_false ?_ (by simp)
    rintro ⟨myTask, hget, hq⟩
    rw [List.getElem?_replicate] at hget
    split at hget
    · cases hget
      exact List.not_mem_nil hq
    · cases hget

theorem depends_addTask (myRow : Row) (myTaskId : ℕ) (precs : List ℕ) (theTasks : List TaskData)
    (i q : ℕ) : Depends (addTask args myRow myTaskId precs theTasks) i q ↔
      Depends theTasks i q ∨ i = myTaskId ∧ q ∈ precs := by
  rw [← depends_append_replicate theTasks (myTaskId + 1 - theTasks.length)]
  have hget : myTaskId < (theTasks ++ List.replicate (myTaskId + 1 - theTasks.length)
      (⟨[], 0, 0⟩ : TaskData)).length := by
    rw [List.length_append, List.length_replicate]
    omega
  simp only [addTask, Depends, Option.mem_def, List.getElem?_modify]
  by_cases hi : i = myTaskId
  · subst hi
    rw [List.getElem?_eq_getElem hget]
    simp [mem_foldl_insertSet]
  · simp [hi, Ne.symm hi]

theorem addTask_sorted (myRow : Row) (myTaskId : ℕ) (precs : List ℕ) {theTasks : List TaskData}
    (h : ∀ myTask ∈ theTasks, myTask.thePrecedences.Pairwise (· < ·)) :
    ∀ myTask ∈ addTask args myRow myTaskId precs theTasks, myTask.thePrecedences.Pairwise (· < ·) := by
  have hresized : ∀ myTask ∈ theTasks ++ List.replicate (myTaskId + 1 - theTasks.length)
      (⟨[], 0, 0⟩ : TaskData), myTask.thePrecedences.Pairwise (· < ·) := by
    intro myTask hmem
    rcases List.mem_append.mp hmem with hmem | hmem
    · exact h myTask hmem
    · rw [List.eq_of_mem_replicate hmem]
      exact .nil
  intro myTask hmem
  obtain ⟨i, hi, rfl⟩ := List.mem_iff_getElem.mp hmem
  rw [addTask, List.length_modify] at hi
  simp only [addTask, List.getElem_modify]
  split
  · exact foldl_insertSet_sorted (hresized _ (List.getElem_mem hi))
  · exact hresized _ (List.getElem_mem hi)

/-- The number of the largest task of a group. -/
def numTasks (g : List TraceRow) : ℕ := g.foldl (fun n r => max n r.theTask) 0

/-- Some row says that a task depends on another. -/
def DependsOn (g : List TraceRow) (t p : ℕ) : Prop :=
  ∃ r ∈ g, r.theTask = t ∧ p ∈ r.thePrecedences

/-- The numbers of a row are those of a valid one, which fit 64 bits. -/
structure TraceRow.Valid (r : TraceRow) : Prop where
  pos : 0 < r.theTask
  lt : r.theTask < 2 ^ 64
  precedences : ∀ p ∈ r.thePrecedences, p < 2 ^ 64

theorem withSign_lt {what : String} {negative : Bool} {n m : ℕ} (h : withSign what negative n = .ok m) :
    m < 2 ^ 64 := by
  rw [withSign] at h
  split at h
  · cases h
  · cases h
    split
    · exact Nat.mod_lt _ (by norm_num)
    · omega

theorem parseUnsigned_lt {what : String} {t : Text} {n : ℕ} (h : parseUnsigned what t = .ok n) :
    n < 2 ^ 64 := by
  rw [parseUnsigned] at h
  split at h
  · cases h
  · exact withSign_lt h

theorem readRow_valid {f : BatchTaskFormat} {myLine : Text} {r : TraceRow}
    (h : readRow env f myLine = .ok (some r)) : r.Valid := by
  rw [readRow, bind_ok] at h
  obtain ⟨row, -, h⟩ := h
  cases row with
  | none => cases h
  | some myRow =>
    simp only [bind_ok] at h
    obtain ⟨myJob, -, h⟩ := h
    split at h
    · cases h
    · rename_i first tokens htokens
      obtain ⟨myTask, htask, h⟩ := bind_ok.mp h
      split at h
      · cases h
      · rename_i hzero
        obtain ⟨precs, hprecs, h⟩ := bind_ok.mp h
        cases h
        refine ⟨Nat.pos_of_ne_zero hzero, parseUnsigned_lt htask, fun p hp => ?_⟩
        obtain ⟨token, -, htoken⟩ := mem_of_mapM_ok hprecs hp
        exact parseUnsigned_lt htoken

theorem rowsOf_valid {f : BatchTaskFormat} {myFile : Text} {rows : List TraceRow}
    (h : rowsOf env f myFile = .ok rows) : ∀ r ∈ rows, r.Valid := by
  rw [rowsOf] at h
  obtain ⟨lines, hlines, rfl⟩ := map_ok.mp h
  intro r hr
  obtain ⟨myLine, -, hline⟩ := mem_of_mapM_ok hlines (List.reduceOption_mem_iff.mp hr)
  exact readRow_valid hline

theorem decrement_eq {p : ℕ} (h : p < 2 ^ 64) : decrement p = if p = 0 then 2 ^ 64 - 1 else p - 1 := by
  rw [decrement]
  split <;> omega

variable {g : List TraceRow}

theorem tasksOf_concat (g : List TraceRow) (r : TraceRow) :
    tasksOf args (g ++ [r]) = r.addTo args (tasksOf args g) := by
  rw [tasksOf, List.foldl_append]
  rfl

theorem length_tasksOf (hg : ∀ r ∈ g, r.Valid) : (tasksOf args g).length = numTasks g := by
  induction g using List.reverseRecOn with
  | nil => rfl
  | append_singleton g r ih =>
    have hpos := (hg r (List.mem_append_right _ List.mem_cons_self)).pos
    rw [tasksOf_concat, TraceRow.addTo, length_addTask,
      ih fun r hr => hg r (List.mem_append_left _ hr), Nat.sub_add_cancel hpos, numTasks, numTasks,
      List.foldl_append]
    rfl

theorem depends_tasksOf (hg : ∀ r ∈ g, r.Valid) (i q : ℕ) : Depends (tasksOf args g) i q ↔
    ∃ p, DependsOn g (i + 1) p ∧ decrement p = q := by
  induction g using List.reverseRecOn with
  | nil => simp [Depends, tasksOf, DependsOn]
  | append_singleton g r ih =>
    have hpos := (hg r (List.mem_append_right _ List.mem_cons_self)).pos
    rw [tasksOf_concat, TraceRow.addTo, depends_addTask,
      ih fun r hr => hg r (List.mem_append_left _ hr), List.mem_map]
    constructor
    · rintro (⟨p, ⟨r', hr', hdep⟩, hp⟩ | ⟨rfl, p, hp, rfl⟩)
      · exact ⟨p, ⟨r', List.mem_append_left _ hr', hdep⟩, hp⟩
      · exact ⟨p, ⟨r, List.mem_append_right _ List.mem_cons_self, by omega, hp⟩, rfl⟩
    · rintro ⟨p, ⟨r', hr', htask, hdep⟩, hp⟩
      rcases List.mem_append.mp hr' with hr' | hr'
      · exact .inl ⟨p, ⟨r', hr', htask, hdep⟩, hp⟩
      · rw [List.mem_singleton.mp hr'] at htask hdep
        exact .inr ⟨by omega, p, hdep, hp⟩

theorem tasksOf_sorted (g : List TraceRow) :
    ∀ myTask ∈ tasksOf args g, myTask.thePrecedences.Pairwise (· < ·) := by
  induction g using List.reverseRecOn with
  | nil => exact fun _ h => absurd h List.not_mem_nil
  | append_singleton g r ih =>
    rw [tasksOf_concat]
    exact addTask_sorted args _ _ _ ih

theorem le_numTasks {r : TraceRow} (hr : r ∈ g) : r.theTask ≤ numTasks g := by
  induction g using List.reverseRecOn with
  | nil => cases hr
  | append_singleton g x ih =>
    rw [numTasks, List.foldl_append, List.foldl_cons, List.foldl_nil]
    rcases List.mem_append.mp hr with hr | hr
    · exact (ih hr).trans (le_max_left _ _)
    · rw [List.mem_singleton.mp hr]
      exact le_max_right _ _

theorem numTasks_lt (hg : ∀ r ∈ g, r.Valid) : numTasks g < 2 ^ 64 := by
  induction g using List.reverseRecOn with
  | nil => simp [numTasks]
  | append_singleton g x ih =>
    rw [numTasks, List.foldl_append, List.foldl_cons, List.foldl_nil]
    exact max_lt (ih fun r hr => hg r (List.mem_append_left _ hr))
      (hg x (List.mem_append_right _ List.mem_cons_self)).lt

end Groups

end ServerlessEdge.StateSim
