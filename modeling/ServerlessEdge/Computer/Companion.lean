import ServerlessEdge.Computer.EdgeComputer
import ServerlessEdge.Library.Runs

/-! Workers and a companion that may be set, changed or cleared at any time. -/
namespace ServerlessEdge.Computer
open Std Library Messages EdgeComputer

/-- A worker waits for a request, executes its function, or has the response. -/
inductive Worker where
  | idle
  | executing (aReq : Rpc.LambdaRequest)
  | concluding (aReq : Rpc.LambdaRequest) (aResp : Rpc.LambdaResponse)

/-- A computer with its workers, and what they have sent to which end-point. -/
structure Workers where
  theSystem : System
  theCompanionClient : Option String
  theWorkers : List Worker
  theInvocations : List (String × LambdaRequest)
  /-- A client that does not exist has been used: nothing is defined after that. -/
  theCrashed : Bool

namespace Workers

inductive Action where
  | companion (aCompanionEndpoint : String)
  | process (aReq : Rpc.LambdaRequest)
  /-- The worker takes the first request of the queue. -/
  | pop (w : Nat)
  | execute (w : Nat)
  /-- The companion accepts n invocations and then fails, if there are more. -/
  | conclude (w n : Nat)

/-- A computer without workers throws. -/
def companion (aCompanionEndpoint : String) (s : Workers) : Workers :=
  if s.theSystem.theComputer.theAsyncWorkers then
    { s with theCompanionClient := if aCompanionEndpoint = "" then none else some aCompanionEndpoint }
  else s

/-- What a worker does with a response that is not the last one. -/
def invoke (aReq : Rpc.LambdaRequest) (aResp : Rpc.LambdaResponse) (n : Nat) (s : Workers) :
    Workers :=
  let myFunctions := if s.theCompanionClient = none then [] else nextFunctions aReq
  match s.theCompanionClient with
  -- the end-point is read also if the companion is not set
  | none => { s with theCrashed := true }
  | some myCompanionEndpoint => match LambdaRequest.ofProtobuf aReq with
    | .error _ => s
    | .ok myRequest =>
      let theNew := (myFunctions.take n).map fun elem =>
        (myCompanionEndpoint, myRequest.regenerate elem.2 elem.1 aResp)
      { s with theInvocations := s.theInvocations ++ theNew }

def become (w : Nat) (aWorker : Worker) (s : Workers) : Workers :=
  { s with theWorkers := s.theWorkers.set w aWorker }

def step (env : Environment) (s : Workers) (a : Action) : Workers :=
  if s.theCrashed then s else match a with
  | .companion aCompanionEndpoint => s.companion aCompanionEndpoint
  | .process aReq => { s with theSystem := (EdgeComputer.process env aReq s.theSystem).2 }
  | .pop w => match s.theWorkers[w]?, s.theSystem.theComputer.theAsyncQueue with
    | some .idle, aReq :: theAsyncQueue =>
      { s.become w (.executing aReq) with theSystem := { s.theSystem with
        theComputer := { s.theSystem.theComputer with theAsyncQueue := theAsyncQueue } } }
    | _, _ => s
  | .execute w => match s.theWorkers[w]? with
    | some (.executing aReq) => match blockingExecution env aReq s.theSystem with
      | .error _ s' => { s.become w .idle with theSystem := s'.record (.failed aReq) }
      | .ok myResp s' => { s.become w (.concluding aReq myResp) with theSystem := s' }
    | _ => s
  | .conclude w n => match s.theWorkers[w]? with
    | some (.concluding aReq myResp) =>
      if lastFunction aReq then
        { s.become w .idle with theSystem := EdgeComputer.conclude aReq myResp s.theSystem }
      else (s.become w .idle).invoke aReq myResp n
    | _ => s

/-- A computer whose workers are idle, and whose companion is not set. -/
def new (aSystem : System) (aNumThreads : Nat) : Workers where
  theSystem := aSystem
  theCompanionClient := none
  theWorkers := .replicate aNumThreads .idle
  theInvocations := []
  theCrashed := false

/-- A worker that has to invoke functions finds the companion set. -/
def Finds (s : Workers) : Action → Prop
  | .conclude w _ => ∀ aReq myResp, s.theWorkers[w]? = some (.concluding aReq myResp) →
    lastFunction aReq = false → s.theCompanionClient ≠ none
  | _ => True

/-- A worker that has a response ends by waiting for the next request. It does not use
a companion that is not set, and invokes nothing then. -/
def Serves (env : Environment) (s : Workers) : Action → Prop
  | .conclude w n => ∀ aReq myResp, s.theWorkers[w]? = some (.concluding aReq myResp) →
    (step env s (.conclude w n)).theCrashed = false ∧
    (step env s (.conclude w n)).theWorkers = s.theWorkers.set w .idle ∧
    (s.theCompanionClient = none →
      (step env s (.conclude w n)).theInvocations = s.theInvocations)
  | _ => True

section Steps

variable {env : Environment} {s : Workers} {w n : Nat} {aReq : Rpc.LambdaRequest}
  {aResp : Rpc.LambdaResponse} {e : String}

/-- With a companion that answers, a worker sends what it sends to itself in the system
of the other modules. -/
theorem invoke_eq_conclude (he : s.theCompanionClient = some e) (hlast : lastFunction aReq = false)
    (hn : (nextFunctions aReq).length ≤ n) : ∃ ms : List LambdaRequest,
      (s.invoke aReq aResp n).theInvocations = s.theInvocations ++ ms.map (fun m => (e, m)) ∧
      (EdgeComputer.conclude aReq aResp s.theSystem).theMessages =
        s.theSystem.theMessages ++ ms.map fun m =>
          (⟨some aReq.nextfunctionindex, m.toProtobuf⟩ : Message) := by
  have hno : ¬ lastFunction aReq = true := by simp [hlast]
  unfold invoke EdgeComputer.conclude
  rw [he, if_neg hno]
  cases LambdaRequest.ofProtobuf aReq with
  | error err => exact ⟨[], by simp, by simp⟩
  | ok q =>
    refine ⟨(nextFunctions aReq).map fun x => q.regenerate x.2 x.1 aResp, ?_, ?_⟩
    · simp [List.take_of_length_le hn]
    · simp

theorem invoke_crashed : (s.invoke aReq aResp n).theCrashed = true ↔
    s.theCrashed = true ∨ s.theCompanionClient = none := by
  unfold invoke
  cases hc : s.theCompanionClient with
  | none => simp
  | some e => cases LambdaRequest.ofProtobuf aReq <;> simp

theorem invoke_theWorkers : (s.invoke aReq aResp n).theWorkers = s.theWorkers := by
  unfold invoke
  cases s.theCompanionClient with
  | none => rfl
  | some e => cases LambdaRequest.ofProtobuf aReq <;> rfl

theorem invoke_theCompanionClient :
    (s.invoke aReq aResp n).theCompanionClient = s.theCompanionClient := by
  unfold invoke
  dsimp only
  split
  · rfl
  · cases LambdaRequest.ofProtobuf aReq <;> rfl

/-- Only a worker that concludes can use a client that does not exist. -/
theorem step_crashed_iff {a : Action} (hs : s.theCrashed = false) :
    (step env s a).theCrashed = false ↔ Finds s a := by
  unfold step
  rw [if_neg (by simp [hs])]
  cases a with
  | companion e =>
    simp only [companion, Finds, iff_true]
    split <;> exact hs
  | process m => exact ⟨fun _ => trivial, fun _ => hs⟩
  | pop w =>
    simp only [Finds, iff_true]
    split <;> exact hs
  | execute w =>
    simp only [Finds, iff_true]
    split
    · split <;> exact hs
    · exact hs
  | conclude w n =>
    dsimp only [Finds]
    cases hw : s.theWorkers[w]? with
    | none => exact ⟨fun _ => nofun, fun _ => hs⟩
    | some worker =>
      cases worker with
      | idle => exact ⟨fun _ => nofun, fun _ => hs⟩
      | executing m => exact ⟨fun _ => nofun, fun _ => hs⟩
      | concluding m resp =>
        dsimp only
        split
        · next hlast =>
          refine ⟨fun _ => ?_, fun _ => hs⟩
          rintro m' resp' ⟨⟩ hno
          rw [hlast] at hno
          cases hno
        · next hlast =>
          have hcrash : ((s.become w .idle).invoke m resp n).theCrashed = true ↔
              s.theCompanionClient = none := by
            rw [invoke_crashed]
            exact or_iff_right (by rw [become, hs]; exact nofun)
          rw [← Bool.not_eq_true, hcrash]
          refine ⟨fun h m' resp' _ _ => h, fun h => ?_⟩
          exact h m resp rfl (Bool.not_eq_true _ ▸ hlast)

theorem step_serves {a : Action} (hs : s.theCrashed = false) (ha : Finds s a) :
    Serves env s a := by
  cases a with
  | conclude w n =>
    intro m resp hw
    refine ⟨(step_crashed_iff hs).mpr ha, ?_⟩
    have hstep : step env s (.conclude w n) = if lastFunction m then
        { s.become w .idle with theSystem := EdgeComputer.conclude m resp s.theSystem }
        else (s.become w .idle).invoke m resp n := by
      rw [step, if_neg (by simp [hs])]
      simp only [hw]
    rw [hstep]
    cases hlast : lastFunction m with
    | true => exact ⟨rfl, fun _ => rfl⟩
    | false => exact ⟨invoke_theWorkers, fun hnone => absurd hnone (ha m resp hw hlast)⟩
  | _ => trivial

end Steps

section Runs

theorem step_theCompanionClient {env : Environment} {s : Workers} {a : Action}
    (hs : s.theCompanionClient ≠ none) (ha : a ≠ .companion "") :
    (step env s a).theCompanionClient ≠ none := by
  unfold step
  split
  · exact hs
  cases a with
  | companion e =>
    have he : e ≠ "" := fun h => ha (h ▸ rfl)
    simp only [companion, if_neg he]
    split
    · exact nofun
    · exact hs
  | process m => exact hs
  | pop w =>
    dsimp only
    split <;> exact hs
  | execute w =>
    dsimp only
    split
    · split <;> exact hs
    · exact hs
  | conclude w n =>
    dsimp only
    split
    · split
      · exact hs
      · rw [invoke_theCompanionClient]
        exact hs
    · exact hs

/-- A companion that is set and never cleared, only changed, is found. -/
theorem finds_of_not_cleared {env : Environment} {s : Workers} {as : List Action}
    (hs : s.theCompanionClient ≠ none) (has : .companion "" ∉ as) :
    Library.Runs.Along (step env) Finds s as := by
  induction as generalizing s with
  | nil => trivial
  | cons a as ih =>
    rw [List.mem_cons, not_or] at has
    refine ⟨?_, ih (step_theCompanionClient hs (Ne.symm has.1)) has.2⟩
    cases a with
    | conclude w n => exact fun _ _ _ _ => hs
    | _ => trivial

/-- The workers go on in exactly the runs in which a worker with functions to invoke
finds the companion set. -/
theorem companion_safe_iff (env : Environment) (aSystem : System) (aNumThreads : Nat)
    (as : List Action) :
    (∀ s ∈ Library.Runs.states (step env) (new aSystem aNumThreads) as, s.theCrashed = false) ∧
        Library.Runs.Along (step env) (Serves env) (new aSystem aNumThreads) as ↔
      Library.Runs.Along (step env) Finds (new aSystem aNumThreads) as := by
  have hiff : (∀ s ∈ Library.Runs.states (step env) (new aSystem aNumThreads) as,
      s.theCrashed = false) ↔
      Library.Runs.Along (step env) Finds (new aSystem aNumThreads) as :=
    Library.Runs.invariant_iff_along (I := fun s : Workers => s.theCrashed = false)
      (fun s a hs => step_crashed_iff hs) rfl
  refine ⟨fun h => hiff.mp h.1, fun h => ⟨hiff.mpr h, ?_⟩⟩
  exact h.of_invariant (I := fun s : Workers => s.theCrashed = false)
    (fun s a hs ha => (step_crashed_iff hs).mpr ha) (fun s a hs ha => step_serves hs ha) rfl

/-- The companion is cleared between the two functions of a chain. -/
def clearedActions : List Action :=
  [.companion "router0", .process { name := "f0", callback := "client0", chain := ["f0", "f1"] },
    .pop 0, .execute 0, .companion "", .conclude 0 1]

theorem not_companion_safe : ¬ ∀ env aSystem aNumThreads as,
    (∀ s ∈ Library.Runs.states (step env) (new aSystem aNumThreads) as, s.theCrashed = false) ∧
      Library.Runs.Along (step env) (Serves env) (new aSystem aNumThreads) as := by
  intro h
  let env : Environment := ⟨fun _ _ => .ok {}, fun _ _ => .ok ⟨⟩⟩
  let aSystem : System := ⟨⟨"host0:6473", none, true, [], ∅⟩, ∅, [], [], []⟩
  have hsafe := (h env aSystem 1 clearedActions).1 _ (Library.Runs.final_mem_states _ _ _)
  have hcrash : (Library.Runs.final (step env) (new aSystem 1) clearedActions).theCrashed = true := rfl
  rw [hcrash] at hsafe
  cases hsafe

end Runs

end Workers

end ServerlessEdge.Computer
