import ServerlessEdge.Hosting.Container
import ServerlessEdge.Library.Maps
import ServerlessEdge.Library.Triple
import ServerlessEdge.Library.Runs

/-! A computer: processors, containers, and the dispatcher that hands over the
tasks that are completed. -/
namespace ServerlessEdge.Hosting
open Std Library Messages
open ServerlessEdge.Computer (Lambda)

/-- The times at which the callback is called are those of theNotified, the
latest call first. -/
structure Computer (R : Type) where
  theName : String
  theInitDone : Bool
  theNextId : UInt64
  theChrono : Bool
  theProcessors : ExtTreeMap String (Processor R)
  theContainerNames : ExtTreeSet String
  theContainers : ExtTreeMap String (Container R)
  theNotified : List (UInt64 × Rpc.LambdaResponse)

namespace Computer

variable {R : Type}

def new (aName : String) : Computer R := ⟨aName, false, 0, false, ∅, ∅, ∅, []⟩

abbrev Op (R α : Type) := EStateM String (Computer R) α

/-- A container together with the processor that it refers to. -/
def hosted (s : Computer R) (aLambda : String) : Option (Processor R × Container R) := do
  let c ← s.theContainers[aLambda]?
  let p ← s.theProcessors[c.theProcessor]?
  return (p, c)

def update (s : Computer R) (aLambda : String) (t : Processor R × Container R) : Computer R :=
  { s with
    theProcessors := s.theProcessors.insert t.2.theProcessor t.1
    theContainers := s.theContainers.insert aLambda t.2 }

def throwIfInitDone : Op R Unit := do
  if (← get).theInitDone then throw "Configuration after initialization is complete"

def someActive (s : Computer R) : Bool := s.theContainers.toList.any fun e => 0 < e.2.theActive.length

/-- Restart the system timer if there are active tasks. -/
def resume : Op R Unit := modify fun s => { s with theChrono := s.theChrono || s.someActive }

variable [Speed R] [DecidableLT R] [DecidableEq R]

def addProcessor (aName : String) (aSpeed : R) (aCores : Nat) (aMem : UInt64) : Op R Unit := do
  throwIfInitDone
  let s ← get
  if aName ∈ s.theProcessors then
    throw ("Duplicate processor " ++ aName ++ " added to computer " ++ s.theName)
  else if aName = "" then throw "Invalid empty name for a processor"
  else if aSpeed < 0 ∨ aSpeed = 0 then throw "Invalid negative speed for a processor"
  else if aCores = 0 then throw "Invalid 0 cores for a processor"
  else if aMem = 0 then throw "Invalid 0 memory available for a processor"
  else set { s with theProcessors := s.theProcessors.insert aName ⟨aSpeed, aCores, aMem, 0, 0⟩ }

def addContainer (aName aProcName : String) (aLambda : HostedLambda R) (aNumWorkers : Nat) :
    Op R Unit := do
  throwIfInitDone
  let s ← get
  if aName ∈ s.theContainerNames then
    throw ("Duplicate container " ++ aName ++ " hosted by processor " ++ aProcName ++
      " added to computer " ++ s.theName)
  else if aLambda.theName ∈ s.theContainers then
    throw ("Duplicate lambda " ++ aLambda.theName ++ " added to computer " ++ s.theName)
  else if aProcName ∉ s.theProcessors then
    throw ("No processor " ++ aProcName ++ " found in computer " ++ s.theName)
  else
    modify fun s => { s with theContainerNames := s.theContainerNames.insert aName }
    match Container.new aName aProcName aLambda aNumWorkers with
    | .error e => throw e
    | .ok c => modify fun s => { s with theContainers := s.theContainers.insert aLambda.theName c }

/-- A call on one of the containers and on its processor. -/
def advanceAt (aLambda : String) (aElapsed : R) : Op R Unit := do
  let s ← get
  match s.hosted aLambda with
  | none => return
  | some (p, c) =>
    match c.advance .wrapping p aElapsed with
    | .error e => throw e
    | .ok c' => set (s.update aLambda (p, c'))

def pushAt (aLambda : String) (aRequest : LambdaRequest) (aId : UInt64) : Op R Unit := do
  let s ← get
  match s.hosted aLambda with
  | none => return
  | some (p, c) =>
    match c.push .wrapping p aRequest aId with
    | .error e => throw e
    | .ok t => set (s.update aLambda t)

/-- The completed task goes to the callback. -/
def popAt (aLambda : String) : Op R Unit := do
  let s ← get
  match s.hosted aLambda with
  | none => return
  | some (p, c) =>
    let (r, t) := c.pop .wrapping p
    match r with
    | .error e => do set (s.update aLambda t); throw e
    | .ok myTask =>
      set { s.update aLambda t with theNotified := (myTask.theId, myTask.theResp) :: s.theNotified }

/-- Advance clocks of all containers and stop the system timer. -/
def pause (aElapsed : R) : Op R Unit := do
  if (← get).theChrono then
    modify fun s => { s with theChrono := false }
    (← get).theContainers.keys.forM fun k => advanceAt k aElapsed

/-- The time is what the clock shows if the computer is paused. -/
def addTask (aElapsed : R) (aRequest : LambdaRequest) : Op R UInt64 := do
  let s ← get
  if aRequest.theName ∉ s.theContainers then
    throw ("No container for lambda " ++ aRequest.theName ++ " found in computer " ++ s.theName)
  else
    let myId := s.theNextId
    modify fun s => { s with theInitDone := true, theNextId := s.theNextId + 1 }
    pause aElapsed
    pushAt aRequest.theName aRequest myId
    resume
    return myId

/-- There is an active task that has no operations left. -/
def ready (s : Computer R) (aLambda : String) : Bool :=
  match s.hosted aLambda with
  | none => false
  | some (p, c) =>
    match c.nearest p with
    | .error _ => false
    | .ok t => t = 0

/-- The inner loop, which ends before as many tasks are gone as there are. -/
def dispatchContainer (aLambda : String) : Nat → Op R Unit
  | 0 => return
  | n + 1 => do
    if (← get).ready aLambda then
      popAt aLambda
      dispatchContainer aLambda n

def tasks (s : Computer R) (aLambda : String) : Nat :=
  match s.theContainers[aLambda]? with
  | none => 0
  | some c => c.theActive.length + c.thePending.length

def dispatchCompletedTasks : Op R Unit := do
  (← get).theContainers.keys.forM fun k => do dispatchContainer k ((← get).tasks k)

/-- What the dispatcher does when it wakes up. -/
def dispatcher (aElapsed : R) : Op R Unit := do
  if (← get).someActive then
    pause aElapsed
    dispatchCompletedTasks
    resume

inductive Event (R : Type) where
  | addProcessor (aName : String) (aSpeed : R) (aCores : Nat) (aMem : UInt64)
  | addContainer (aName aProcName : String) (aLambda : HostedLambda R) (aNumWorkers : Nat)
  | addTask (aElapsed : R) (aRequest : LambdaRequest)
  | dispatch (aElapsed : R)

def perform : Event R → Op R Unit
  | .addProcessor aName aSpeed aCores aMem => addProcessor aName aSpeed aCores aMem
  | .addContainer aName aProcName aLambda aNumWorkers =>
    addContainer aName aProcName aLambda aNumWorkers
  | .addTask aElapsed aRequest => do
    let _ ← addTask aElapsed aRequest
    return
  | .dispatch aElapsed => dispatcher aElapsed

def step (s : Computer R) (e : Event R) : Computer R := Triple.after (perform e) s

/-- The states in which a dispatch takes a task from a container, with the
function of the container. -/
def containerCompletions (aLambda : String) : Nat → Computer R → List (Computer R × String)
  | 0, _ => []
  | n + 1, s =>
    if s.ready aLambda then
      (s, aLambda) :: containerCompletions aLambda n (Triple.after (popAt aLambda) s)
    else []

def dispatchCompletions : List String → Computer R → List (Computer R × String)
  | [], _ => []
  | k :: ks, s => containerCompletions k (s.tasks k) s ++
    dispatchCompletions ks (Triple.after (dispatchContainer k (s.tasks k)) s)

def completions (s : Computer R) : Event R → List (Computer R × String)
  | .dispatch aElapsed =>
    if s.someActive then
      match pause aElapsed s with
      | .ok _ t => dispatchCompletions t.theContainers.keys t
      | .error _ _ => []
    else []
  | _ => []

section Rules

variable {I : Computer R → Prop}

omit [Speed R] [DecidableLT R] [DecidableEq R] in
theorem hosted_eq_some {s : Computer R} {k : String} {p : Processor R} {c : Container R} :
    s.hosted k = some (p, c) ↔
      s.theContainers[k]? = some c ∧ s.theProcessors[c.theProcessor]? = some p := by
  unfold hosted
  cases hc : s.theContainers[k]? with
  | none => simp
  | some c' =>
    cases hp : s.theProcessors[c'.theProcessor]? with
    | none =>
      simp only [Option.bind_eq_bind, Option.bind_some, hp, Option.bind_none, reduceCtorEq,
        Option.some.injEq, false_iff, not_and]
      rintro rfl
      simp [hp]
    | some p' =>
      simp only [Option.bind_eq_bind, Option.bind_some, hp, Option.pure_def, Option.some.injEq,
        Prod.mk.injEq]
      constructor
      · rintro ⟨rfl, rfl⟩
        exact ⟨rfl, hp⟩
      · rintro ⟨rfl, hp'⟩
        rw [hp] at hp'
        exact ⟨Option.some.inj hp', rfl⟩

omit [DecidableLT R] in
theorem ready_iff {s : Computer R} {k : String} : s.ready k = true ↔ ∃ p c t l,
    s.hosted k = some (p, c) ∧ c.theActive = t :: l ∧ p.opsToTime t.theResidualOps = 0 := by
  unfold ready
  cases hk : s.hosted k with
  | none => simp
  | some x =>
    obtain ⟨p, c⟩ := x
    cases hl : c.theActive with
    | nil => simp [Container.nearest, hl]
    | cons t l => simp [Container.nearest, hl, pure, Except.pure]

omit [Speed R] [DecidableLT R] [DecidableEq R] in
private theorem throwIfInitDone_apply (s : Computer R) :
    throwIfInitDone s = .ok () s ∨ ∃ e, throwIfInitDone s = .error e s := by
  by_cases h : s.theInitDone
  · exact .inr ⟨_, by simp only [throwIfInitDone, Triple.get_bind_apply, h, if_true]; rfl⟩
  · exact .inl (by simp only [throwIfInitDone, Triple.get_bind_apply, h]; rfl)

theorem addProcessor_spec (s : Computer R) (aName : String) (aSpeed : R) (aCores : Nat)
    (aMem : UInt64) : s.step (.addProcessor aName aSpeed aCores aMem) = s ∨
      aName ∉ s.theProcessors ∧ s.step (.addProcessor aName aSpeed aCores aMem) =
        { s with theProcessors := s.theProcessors.insert aName ⟨aSpeed, aCores, aMem, 0, 0⟩ } := by
  simp only [step, perform, addProcessor, Triple.after]
  rcases throwIfInitDone_apply s with h | ⟨e, h⟩
  · rw [Triple.bind_of_ok h, Triple.get_bind_apply]
    by_cases hnew : aName ∈ s.theProcessors
    · rw [if_pos hnew]
      exact .inl rfl
    · rw [if_neg hnew]
      split_ifs
      · exact .inl rfl
      · exact .inl rfl
      · exact .inl rfl
      · exact .inl rfl
      · exact .inr ⟨hnew, rfl⟩
  · rw [Triple.bind_of_error h]
    exact .inl rfl

/-- The name of a container is kept also when the container has no workers. -/
theorem addContainer_spec (s : Computer R) (aName aProcName : String) (aLambda : HostedLambda R)
    (aNumWorkers : Nat) {t : Computer R}
    (ht : s.step (.addContainer aName aProcName aLambda aNumWorkers) = t) :
    t.theProcessors = s.theProcessors ∧ (t.theContainers = s.theContainers ∨
      aLambda.theName ∉ s.theContainers ∧ aProcName ∈ s.theProcessors ∧
        t.theContainers = s.theContainers.insert aLambda.theName
          ⟨aName, aProcName, aLambda, aNumWorkers, [], []⟩) := by
  subst ht
  simp only [step, perform, addContainer, Triple.after]
  rcases throwIfInitDone_apply s with h | ⟨e, h⟩
  · rw [Triple.bind_of_ok h, Triple.get_bind_apply]
    by_cases hname : aName ∈ s.theContainerNames
    · rw [if_pos hname]
      exact ⟨rfl, .inl rfl⟩
    by_cases hlambda : aLambda.theName ∈ s.theContainers
    · rw [if_neg hname, if_pos hlambda]
      exact ⟨rfl, .inl rfl⟩
    by_cases hproc : aProcName ∈ s.theProcessors
    · rw [if_neg hname, if_neg hlambda, if_neg (not_not.mpr hproc)]
      unfold Container.new
      by_cases hworkers : aNumWorkers = 0
      · rw [if_pos hworkers]
        exact ⟨rfl, .inl rfl⟩
      · rw [if_neg hworkers]
        exact ⟨rfl, .inr ⟨hlambda, hproc, rfl⟩⟩
    · rw [if_neg hname, if_neg hlambda, if_pos hproc]
      exact ⟨rfl, .inl rfl⟩
  · rw [Triple.bind_of_error h]
    exact ⟨rfl, .inl rfl⟩

/-- An invariant of the processors and the containers that single calls on a
container keep. -/
structure Kept (I : Computer R → Prop) : Prop where
  congr : ∀ {s s' : Computer R}, I s → s'.theProcessors = s.theProcessors →
    s'.theContainers = s.theContainers → I s'
  advance : ∀ {s : Computer R} {k p c e c'}, I s → s.hosted k = some (p, c) →
    c.advance .wrapping p e = .ok c' → I (s.update k (p, c'))
  push : ∀ {s : Computer R} {k p c aReq aId t}, I s → s.hosted k = some (p, c) →
    c.push .wrapping p aReq aId = .ok t → I (s.update k t)

namespace Kept

omit [DecidableEq R] in
private theorem advanceAt (h : Kept I) (k : String) (aElapsed : R) :
    Triple.Stable I (advanceAt k aElapsed) := by
  intro s hs
  simp only [Triple.after, Computer.advanceAt, Triple.get_bind_apply]
  cases hk : s.hosted k with
  | none => exact hs
  | some x =>
    obtain ⟨p, c⟩ := x
    cases hc : c.advance .wrapping p aElapsed with
    | error e =>
      simp only [hc]
      exact hs
    | ok c' =>
      simp only [hc]
      exact h.advance hs hk hc

omit [DecidableEq R] in
private theorem pushAt (h : Kept I) (k : String) (aRequest : LambdaRequest) (aId : UInt64) :
    Triple.Stable I (pushAt k aRequest aId) := by
  intro s hs
  simp only [Triple.after, Computer.pushAt, Triple.get_bind_apply]
  cases hk : s.hosted k with
  | none => exact hs
  | some x =>
    obtain ⟨p, c⟩ := x
    cases hc : c.push .wrapping p aRequest aId with
    | error e =>
      simp only [hc]
      exact hs
    | ok t =>
      simp only [hc]
      exact h.push hs hk hc

omit [DecidableEq R] in
theorem pause (h : Kept I) (aElapsed : R) : Triple.Stable I (pause aElapsed) := by
  refine Triple.moves_bind Triple.moves_get fun s => ?_
  split
  · refine Triple.moves_bind (Triple.moves_modify fun s hs => h.congr hs rfl rfl) fun _ => ?_
    refine Triple.moves_bind Triple.moves_get fun s => ?_
    exact Triple.moves_forM (fun k => h.advanceAt k aElapsed) _
  · exact Triple.moves_pure _

omit [DecidableEq R] in
private theorem resume (h : Kept I) : Triple.Stable I (resume : Op R Unit) :=
  Triple.moves_modify fun _ hs => h.congr hs rfl rfl

theorem addTask (h : Kept I) {s : Computer R} (hs : I s) (aElapsed : R)
    (aRequest : LambdaRequest) : I (s.step (.addTask aElapsed aRequest)) := by
  have hadd : Triple.Stable I (Computer.addTask aElapsed aRequest) := by
    refine Triple.moves_bind Triple.moves_get fun s => ?_
    split
    · exact Triple.moves_throw _
    · refine Triple.moves_bind (Triple.moves_modify fun s hs => h.congr hs rfl rfl) fun _ => ?_
      refine Triple.moves_bind (h.pause aElapsed) fun _ => ?_
      refine Triple.moves_bind (h.pushAt _ aRequest _) fun _ => ?_
      exact Triple.moves_bind h.resume fun _ => Triple.moves_pure _
  exact Triple.moves_bind hadd (fun _ => Triple.moves_pure _) s hs

omit [DecidableLT R] in
private theorem dispatchContainer {P : Computer R → String → Prop}
    (hpop : ∀ s k, I s → s.ready k → P s k → I (Triple.after (popAt k) s)) (k : String) (n : ℕ)
    {s : Computer R} (hs : I s) (hP : ∀ x ∈ containerCompletions k n s, P x.1 x.2) :
    I (Triple.after (dispatchContainer k n) s) := by
  induction n generalizing s with
  | zero => exact hs
  | succ n ih =>
    rw [containerCompletions] at hP
    show I (Triple.after (if s.ready k then do popAt k; Computer.dispatchContainer k n else return) s)
    by_cases hr : s.ready k = true
    · rw [if_pos hr] at hP ⊢
      have hnext := hpop s k hs hr (hP (s, k) List.mem_cons_self)
      refine Triple.after_bind hnext fun a t hm => ?_
      rw [Triple.after_of_ok hm] at hP hnext
      exact ih hnext fun x hx => hP x (List.mem_cons_of_mem _ hx)
    · rw [if_neg hr]
      exact hs

omit [DecidableLT R] in
private theorem dispatchAll {P : Computer R → String → Prop}
    (hpop : ∀ s k, I s → s.ready k → P s k → I (Triple.after (popAt k) s)) (ks : List String)
    {s : Computer R} (hs : I s) (hP : ∀ x ∈ dispatchCompletions ks s, P x.1 x.2) :
    I (Triple.after (ks.forM fun k => do Computer.dispatchContainer k ((← get).tasks k)) s) := by
  induction ks generalizing s with
  | nil => exact hs
  | cons k ks ih =>
    have hfirst := Kept.dispatchContainer hpop k (s.tasks k) hs fun x hx =>
      hP x (List.mem_append_left _ hx)
    refine Triple.after_bind hfirst fun a t hm => ?_
    have hm' : Computer.dispatchContainer k (s.tasks k) s = .ok a t := hm
    rw [dispatchCompletions, Triple.after_of_ok hm'] at hP
    exact ih (Triple.after_of_ok hm' ▸ hfirst) fun x hx => hP x (List.mem_append_right _ hx)

/-- A dispatch keeps what each of its completions keeps. -/
theorem dispatch (h : Kept I) {P : Computer R → String → Prop}
    (hpop : ∀ s k, I s → s.ready k → P s k → I (Triple.after (popAt k) s)) {s : Computer R}
    (hs : I s) {aElapsed : R} (hP : ∀ x ∈ s.completions (.dispatch aElapsed), P x.1 x.2) :
    I (s.step (.dispatch aElapsed)) := by
  rw [completions] at hP
  show I (Triple.after (if s.someActive then do
    Computer.pause aElapsed; dispatchCompletedTasks; Computer.resume else return) s)
  by_cases hactive : s.someActive = true
  · rw [if_pos hactive] at hP ⊢
    have hpause := h.pause aElapsed s hs
    refine Triple.after_bind hpause fun a t hm => ?_
    rw [Triple.after_of_ok hm] at hpause
    rw [hm] at hP
    have hall : I (Triple.after dispatchCompletedTasks t) := dispatchAll hpop _ hpause hP
    refine Triple.after_bind hall fun a' t' hd => ?_
    exact h.resume t' (Triple.after_of_ok hd ▸ hall)
  · rw [if_neg hactive]
    exact hs

end Kept

end Rules

end Computer

end ServerlessEdge.Hosting
