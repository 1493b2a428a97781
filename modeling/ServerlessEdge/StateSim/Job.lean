import Mathlib.Data.List.Sort
import Mathlib.Data.Rat.Floor
import Mathlib.Data.List.Infix

/-! The jobs of the simulator of stateful tasks, loaded from the trace of the tasks that a
cluster has executed. -/
namespace ServerlessEdge.StateSim

/-- A string of the trace. -/
abbrev Text := List Char

/-- A call that does not return: an exception, an access to an element that does not
exist, after which anything may happen, a loop without an end, or a division by zero. -/
inductive Failure where
  | thrown (what : String)
  | outOfRange
  | endless
  | divisionByZero
  deriving DecidableEq

/-- The element of a vector. -/
def access {α : Type} (l : List α) (i : ℕ) : Except Failure α :=
  match l[i]? with
  | some a => .ok a
  | none => .error .outOfRange

structure Task where
  theId : ℕ
  theSize : ℕ
  theOps : ℕ
  theFunc : String
  theDeps : List ℕ
  deriving DecidableEq

structure Job where
  theId : ℕ
  theStart : ℚ
  theTasks : List Task
  theStateSizes : List ℕ
  theRetSize : ℕ
  deriving DecidableEq

inductive BatchTaskFormat where
  | Spar | Alibaba

/-- The functions of the support library and of the conversions of numbers that are used. -/
structure Env where
  split : Text → Text → List Text
  stod : Text → Except String ℚ
  stof : Text → Except String ℚ
  to_string : ℚ → String

/-- Blanks, tabs, ends of lines and of pages. -/
def isSpace (c : Char) : Bool := c = ' ' ∨ 9 ≤ c.toNat ∧ c.toNat ≤ 13

/-- A number, negated if there is a minus, unless 64 bits do not hold it. -/
def withSign (what : String) (negative : Bool) (n : ℕ) : Except String ℕ :=
  if 2 ^ 64 ≤ n then .error what else .ok (if negative then (2 ^ 64 - n) % 2 ^ 64 else n)

/-- A number of 64 bits at the beginning of a string. -/
def parseUnsigned (what : String) (t : Text) : Except String ℕ :=
  let t := t.dropWhile isSpace
  let negative := t.head? = some '-'
  let t := if t.head? = some '-' ∨ t.head? = some '+' then t.tail else t
  match t.takeWhile Char.isDigit with
  | [] => .error what
  | digits => withSign what negative (digits.foldl (fun n d => 10 * n + (d.toNat - 48)) 0)

def stoul : Text → Except String ℕ := parseUnsigned "stoul"

def stoull : Text → Except String ℕ := parseUnsigned "stoull"

/-- A conversion to an integer after rounding. -/
def toSize (x : ℚ) : ℕ := ⌊1 / 2 + x⌋.toNat

structure Row where
  theStartTime : ℚ
  theJobName : Text
  theTaskName : Text
  theDuration : ℕ
  theCpu : ℚ
  theMem : ℚ
  theNumInstances : ℕ
  deriving DecidableEq

def myStrangeKeywords : List Text :=
  [['t', 'a', 's', 'k', '_'], ['M', 'e', 'r', 'g', 'e', 'T', 'a', 's', 'k'], ['S', 't', 'g']]

/-- The row, none if it is to be skipped. -/
def Row.unlessStrange (ret : Row) : Option Row :=
  if ∃ myKeyword ∈ myStrangeKeywords, myKeyword <:+: ret.theTaskName then none else some ret

/-- The tokens of a valid task have a job name with its prefix, and a task name. -/
def validNames (theJobName theTaskName : Text) : Prop :=
  2 ≤ theJobName.length ∧ theJobName.take 2 = ['j', '_'] ∧ theTaskName ≠ []

instance (theJobName theTaskName : Text) : Decidable (validNames theJobName theTaskName) :=
  inferInstanceAs (Decidable (_ ∧ _ ∧ _))

def parseRow (env : Env) (aLine : Text) : BatchTaskFormat → Except String (Option Row)
  | .Spar =>
    match env.split aLine [','] with
    | [start, job, task, duration, cpu, mem, instances] =>
      if validNames job task then do
        let theStartTime ← env.stod start
        let theDuration ← stoul duration
        let theCpu ← env.stod cpu
        let theMem ← env.stod mem
        let theNumInstances ← stoul instances
        pure (Row.unlessStrange
          ⟨theStartTime, job, task, theDuration % 2 ^ 32, theCpu, theMem, theNumInstances⟩)
      else pure none
    | _ => pure none
  | .Alibaba =>
    match env.split aLine [','] with
    | [task, instances, job, _, _, start, stop, cpu, mem] =>
      if validNames job task then do
        let theStartTime ← env.stod start
        let theStopTime ← env.stod stop
        let theCpu ← env.stod cpu
        let theMem ← env.stod mem
        let theNumInstances ← stoul instances
        pure (Row.unlessStrange ⟨theStartTime, job, task,
          ⌊theStartTime - theStopTime⌋.toNat % 2 ^ 32, theCpu, theMem, theNumInstances⟩)
      else pure none
    | _ => pure none

structure TaskData where
  thePrecedences : List ℕ
  theOps : ℕ
  theSize : ℚ

structure JobData where
  theId : ℕ
  theStartTime : ℚ
  theTasks : List TaskData

/-- The arguments of `loadJobs` but for the file, with the values that the generator
of random numbers gives for the seed. -/
structure LoadArgs where
  aOpsFactor : ℚ
  aArgFactor : ℚ
  aStateFactor : ℚ
  aFuncWeights : List (String × ℚ)
  aRnd : ℕ → ℚ
  aStatefulOnly : Bool
  aBatchTaskFormat : BatchTaskFormat

/-- The weights are summed up until the sum exceeds the random number. -/
def pickFrom (myRandom : ℚ) : ℚ → List (String × ℚ) → Option String
  | _, [] => none
  | mySum, elem :: rest =>
    if myRandom < mySum + elem.2 then some elem.1 else pickFrom myRandom (mySum + elem.2) rest

/-- `FunctionPicker::operator()`, with the last function for want of another. -/
def pick (theWeights : List (String × ℚ)) (myRandom : ℚ) : String :=
  (pickFrom myRandom 0 theWeights).getD ((theWeights.getLast?.map Prod.fst).getD "")

/-- The insertion in a set, which is the list of its elements in increasing order. -/
def insertSet (s : List ℕ) (x : ℕ) : List ℕ :=
  if x ∈ s then s else s.orderedInsert (· ≤ ·) x

def toSet (l : List ℕ) : List ℕ := l.foldl insertSet []

/-- The variables of the loop over the lines. -/
structure Parsing where
  myNextJobId : ℕ
  myLastJobId : ℕ
  myJobsData : List JobData

/-- As many tasks as a vector can hold. -/
def maxTasks : ℕ := (2 ^ 63 - 1) / 64

/-- A number less one, in 64 bits. -/
def decrement (n : ℕ) : ℕ := (n + (2 ^ 64 - 1)) % 2 ^ 64

/-- What a row says of a task is added to the tasks of the job. -/
def addTask (args : LoadArgs) (myRow : Row) (myTaskId : ℕ) (precs : List ℕ)
    (theTasks : List TaskData) : List TaskData :=
  let resized := theTasks ++ List.replicate (myTaskId + 1 - theTasks.length) ⟨[], 0, 0⟩
  resized.modify myTaskId fun myTask =>
    ⟨precs.foldl insertSet myTask.thePrecedences,
      toSize (1 * myRow.theDuration * myRow.theCpu / 100 * args.aOpsFactor), myRow.theMem⟩

/-- A job is added, unless it is that of the last row. -/
def Parsing.enter (s : Parsing) (myCurJobId : ℕ) (theStartTime : ℚ) : Parsing :=
  if s.myLastJobId ≠ myCurJobId then
    { myNextJobId := s.myNextJobId + 1
      myLastJobId := myCurJobId
      myJobsData := s.myJobsData ++ [⟨s.myNextJobId, theStartTime, []⟩] }
  else s

/-- The last job gets other tasks. -/
def Parsing.setTasks (s : Parsing) (myJob : JobData) (theTasks : List TaskData) : Parsing :=
  { s with myJobsData := s.myJobsData.dropLast ++ [{ myJob with theTasks := theTasks }] }

/-- The body of the loop, after the row has been parsed. -/
def readTask (env : Env) (args : LoadArgs) (s : Parsing) (myLine : Text) (myRow : Row) :
    Except Failure Parsing := do
  let myCurJobId ← (stoull (myRow.theJobName.drop 2)).mapError .thrown
  let s := s.enter myCurJobId myRow.theStartTime
  match env.split (myRow.theTaskName.drop 1) ['_'] with
  | [] => .error (.thrown ("Invalid task: " ++ String.ofList myLine))
  | first :: tokens =>
    let myTaskId ← (stoull first).mapError .thrown
    if myTaskId = 0 then
      .error (.thrown ("Invalid task identifier (0): " ++ String.ofList myLine))
    else
      match s.myJobsData.getLast? with
      | none => .error .outOfRange
      | some myJob =>
        if maxTasks < myTaskId ∧ myJob.theTasks.length < myTaskId then
          .error (.thrown "vector::_M_default_append")
        else
          let precs ← (tokens.mapM stoull).mapError .thrown
          pure (s.setTasks myJob
            (addTask args myRow (myTaskId - 1) (precs.map decrement) myJob.theTasks))

def readLine (env : Env) (args : LoadArgs) (s : Parsing) (myLine : Text) : Except Failure Parsing := do
  match ← (parseRow env myLine args.aBatchTaskFormat).mapError .thrown with
  | none => pure s
  | some myRow => readTask env args s myLine myRow

/-- The lines that are read, up to the first one that is empty. -/
def linesOf (myFile : Text) : List Text := (myFile.splitOn '\n').takeWhile (· ≠ [])

/-- A task exists, with a precedence. -/
def Depends (aTasks : List TaskData) (i myPrec : ℕ) : Prop :=
  ∃ myTask ∈ aTasks[i]?, myPrec ∈ myTask.thePrecedences

instance (aTasks : List TaskData) (i myPrec : ℕ) : Decidable (Depends aTasks i myPrec) :=
  inferInstanceAs (Decidable (∃ _ ∈ _, _))

/-- The loop over the tasks in search of those that depend on one, with at most that many
nested calls. -/
def findChain (aTasks : List TaskData) : ℕ → List ℕ → ℕ → List ℕ
  | 0, aChain, _ => aChain
  | calls + 1, aChain, aCurTask =>
    (List.range aTasks.length).foldl (fun aChain i =>
      if i ∈ aChain then aChain
      else if Depends aTasks i aCurTask then findChain aTasks calls (aChain ++ [i]) i
      else aChain) aChain

/-- The processing chain starting from task 0. -/
def chainOf (myJob : JobData) : List ℕ :=
  0 :: findChain myJob.theTasks (myJob.theTasks.length + 1) [] 0

/-- The new identifier of an element of a set. -/
def newId (aElements : List ℕ) (x : ℕ) : Except Failure ℕ :=
  if x ∈ aElements then .ok (aElements.idxOf x) else .error .outOfRange

/-- The states that a task depends on. -/
def dependenciesOf (myStateDependencies : List (ℕ × List ℕ)) (myTaskId : ℕ) :
    Except Failure (List ℕ) :=
  match myStateDependencies.lookup myTaskId with
  | some myStates => .ok myStates
  | none => .error .outOfRange

/-- A task of the job, when that many functions have been picked before. -/
def newTask (args : LoadArgs) (myJob : JobData) (myTasksInChain : List ℕ)
    (myStateDependencies : List (ℕ × List ℕ)) (myAllStates : List ℕ) (picked myTaskId : ℕ) :
    Except Failure Task := do
  let myStates ← dependenciesOf myStateDependencies myTaskId
  let myDeps ← myStates.mapM (newId myAllStates)
  let theId ← newId myTasksInChain myTaskId
  let myTask ← access myJob.theTasks myTaskId
  pure ⟨theId, toSize (args.aArgFactor * myTask.theSize), myTask.theOps,
    pick args.aFuncWeights (args.aRnd picked), myDeps⟩

/-- The size of a state is set. -/
def setStateSize (args : LoadArgs) (myJob : JobData) (myAllStates myStateSizes : List ℕ)
    (myStateId : ℕ) : Except Failure (List ℕ) := do
  let i ← newId myAllStates myStateId
  let myTask ← access myJob.theTasks myStateId
  let _ ← access myStateSizes i
  pure (myStateSizes.set i (toSize (args.aStateFactor * myTask.theSize)))

/-- The loop over the jobs, with the jobs added and the number of functions picked so far. -/
def addJob (args : LoadArgs) (s : List Job × ℕ) (myJob : JobData) : Except Failure (List Job × ℕ) := do
  let myChain := chainOf myJob
  let myTasksInChain := toSet myChain
  -- the state dependencies are the precedences that are not in the chain
  let myStateDependencies ← myChain.mapM fun myId => do
    let myTask ← access myJob.theTasks myId
    pure (myId, myTask.thePrecedences.filter fun myPrec => myPrec ∉ myTasksInChain)
  let myAllStates := toSet (myStateDependencies.flatMap Prod.snd)
  let myStatelessJob := myStateDependencies.all fun elem => elem.2.isEmpty
  if args.aStatefulOnly && myStatelessJob then
    pure s
  else
    let myTasks ← myTasksInChain.zipIdx.mapM fun x =>
      newTask args myJob myTasksInChain myStateDependencies myAllStates (s.2 + x.2) x.1
    let myStateSizes ← myAllStates.foldlM (setStateSize args myJob myAllStates)
      (List.replicate myAllStates.length 0)
    let first ← access myTasks 0
    pure (s.1 ++ [⟨s.1.length, myJob.theStartTime, myTasks, myStateSizes, first.theSize⟩],
      s.2 + myTasks.length)

/-- The jobs of a trace, none if the file cannot be opened. -/
def loadJobs (env : Env) (args : LoadArgs) (aPath : String) (aFile : Option Text) :
    Except Failure (List Job) :=
  if args.aFuncWeights = [] then
    .error (.thrown "Empty function weights")
  else
    match aFile with
    | none => .error (.thrown ("Cannot open file for reading: " ++ aPath))
    | some myFile => do
      let s ← (linesOf myFile).foldlM (readLine env args) ⟨0, 0, []⟩
      let r ← s.myJobsData.foldlM (addJob args) ([], 0)
      pure r.1

end ServerlessEdge.StateSim
