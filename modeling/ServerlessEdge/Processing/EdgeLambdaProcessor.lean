import ServerlessEdge.Library.Maps
import ServerlessEdge.Library.Runs
import ServerlessEdge.Estimator.PtimeEstimator

/-! The loop by which a router or a dispatcher serves a request. Any number of
requests are served at once, and their steps interleave with each other and with
the changes that others make to the tables. -/
namespace ServerlessEdge.Processing
open Library
open Std (ExtTreeMap)
open Estimator (LambdaResponse)

/-- What a derived class adds. A request is known by its address. A reading is
what a call finds outside the tables, and processFailure is given as the steps
between which others may come in. -/
structure Processor where
  State : Type
  Reading : Type
  /-- The changes made by others. -/
  Event : Type
  change : Event → State → State
  destination : Reading → ℕ → Rpc.LambdaRequest → EStateM String State String
  processSuccess : Reading → ℕ → Rpc.LambdaRequest → String → LambdaResponse → ℚ →
    EStateM String State Unit
  processFailure : Reading → ℕ → Rpc.LambdaRequest → String → List (State → State)

/-- Where a request is in the loop. A response stands for both its forms, the one
received and the one sent back. -/
inductive Phase where
  | looping
  | chosen (myDestination : String)
  | waiting (myDestination : String)
  | served (myDestination : String) (ret : LambdaResponse) (aTime : ℚ)
  | failing (myDestination : String) (aDone : ℕ)
  | finished (myResp : LambdaResponse)
  deriving DecidableEq

/-- What a request makes the processor do that others can see. -/
inductive Action where
  | sent (myDestination : String)
  | returned (myDestination : String) (ret : LambdaResponse)
  | purged (myDestination : String)
  | withdrawn (myDestination : String)
  deriving DecidableEq

structure Request where
  aReq : Rpc.LambdaRequest
  myRetCode : String := "OK"
  phase : Phase := .looping
  /-- What was done so far, in order. -/
  actions : List Action := []

namespace Request

def finish (q : Request) (myResp : LambdaResponse) : Request := { q with phase := .finished myResp }

/-- Leave the loop with the current return code. -/
def giveUp (q : Request) : Request := q.finish { retcode := q.myRetCode }

def act (q : Request) (a : Action) : Request := { q with actions := q.actions ++ [a] }

/-- The attempt has failed: purge the destination, if there is one. -/
def fail (q : Request) (aRetCode myDestination : String) : Request :=
  let q := { q with myRetCode := aRetCode }
  if myDestination = "" then q.giveUp else { q with phase := .failing myDestination 0 }

end Request

structure Conf where
  theFakeProcessor : Bool
  /-- There is a controller to be told of failed destinations. -/
  theControllerClient : Bool

/-- What a step of a request reads: the outcome is that of the client, which the
destination or the network decides, and the random number is for fake answers. -/
structure Input (P : Processor) where
  reading : P.Reading
  outcome : Except String (LambdaResponse × ℚ)
  random : ℚ

variable (conf : Conf) {P : Processor}

/-- The client has returned. -/
def received (myDestination : String) (ret : LambdaResponse) (aTime : ℚ) (q : Request) : Request :=
  let q := { q with myRetCode := ret.retcode }.act (.returned myDestination ret)
  if ret.retcode = "OK" then { q with phase := .served myDestination ret aTime }
  else q.fail ret.retcode myDestination

/-- The next step of a request. -/
def process (key : ℕ) (i : Input P) (s : P.State) (q : Request) : P.State × Request :=
  match q.phase with
  | .looping =>
    -- loop detection
    if q.aReq.hops > 254 then (s, { q with myRetCode := "loop detected" }.giveUp)
    else match P.destination i.reading key q.aReq s with
      | .ok myDestination s => (s, { q with phase := .chosen myDestination })
      | .error aErr s => (s, q.fail aErr "")
  | .chosen myDestination =>
    if conf.theFakeProcessor then
      (s, received myDestination { retcode := "OK" } (1 / 1000 + i.random) q)
    else (s, { q with phase := .waiting myDestination }.act (.sent myDestination))
  | .waiting myDestination => match i.outcome with
    | .ok (ret, aTime) => (s, received myDestination ret aTime q)
    | .error aErr => (s, q.fail aErr myDestination)
  | .served myDestination ret aTime =>
    match P.processSuccess i.reading key q.aReq myDestination ret aTime s with
    | .ok _ s => (s, q.finish ret)
    | .error aErr s => (s, q.fail aErr myDestination)
  | .failing myDestination aDone =>
    match (P.processFailure i.reading key q.aReq myDestination)[aDone]? with
    | some purge =>
      (purge s, { q with phase := .failing myDestination (aDone + 1) }.act (.purged myDestination))
    | none =>
      let q := { q with phase := .looping }
      (s, if conf.theControllerClient then q.act (.withdrawn myDestination) else q)
  | .finished _ => (s, q)

/-- The tables and the requests served so far, or being served. -/
structure System (P : Processor) where
  theState : P.State
  theRequests : ExtTreeMap ℕ Request

inductive Event (P : Processor) where
  /-- A request comes in, at an address that no request occupies. -/
  | arrive (key : ℕ) (aReq : Rpc.LambdaRequest)
  | change (e : P.Event)
  | advance (key : ℕ) (i : Input P)

def Request.Over (q : Request) : Prop := ∃ myResp, q.phase = .finished myResp

instance (q : Request) : Decidable q.Over :=
  match h : q.phase with
  | .finished myResp => .isTrue ⟨myResp, h⟩
  | .looping | .chosen _ | .waiting _ | .served .. | .failing .. => .isFalse fun ⟨_, h'⟩ => by
    rw [h] at h'
    cases h'

namespace System

def new (s : P.State) : System P := ⟨s, ∅⟩

def step (s : System P) : Event P → System P
  | .arrive key aReq =>
    if ∀ q ∈ s.theRequests[key]?, q.Over then
      { s with theRequests := s.theRequests.insert key { aReq } }
    else s
  | .change e => { s with theState := P.change e s.theState }
  | .advance key i => match s.theRequests[key]? with
    | none => s
    | some q =>
      let (myState, q) := process conf key i s.theState q
      ⟨myState, s.theRequests.insert key q⟩

end System

/-- Once a destination has answered OK, nothing else is done for the request, and
the answer is sent back as soon as the success is notified. -/
def Request.Settled (q : Request) : Prop :=
  ∀ before myDestination ret after, q.actions = before ++ .returned myDestination ret :: after →
    ret.retcode = "OK" →
      after = [] ∧ ((∃ aTime, q.phase = .served myDestination ret aTime) ∨ q.phase = .finished ret)

/-- When the derived class takes the notification of a success. -/
structure Accepting (P : Processor) where
  Accepts (r : P.Reading) (aReq : Rpc.LambdaRequest) (myDestination : String)
    (ret : LambdaResponse) (aTime : ℚ) (s : P.State) : Prop
  processSuccess_iff (r : P.Reading) (key : ℕ) (aReq : Rpc.LambdaRequest) (myDestination : String)
    (ret : LambdaResponse) (aTime : ℚ) (s : P.State) :
    (∃ s', P.processSuccess r key aReq myDestination ret aTime s = .ok () s') ↔
      Accepts r aReq myDestination ret aTime s
  /-- No exception has the text that stands for a success. -/
  error_ne_ok {r : P.Reading} {key : ℕ} {aReq : Rpc.LambdaRequest} {myDestination : String}
    {ret : LambdaResponse} {aTime : ℚ} {s s' : P.State} {aErr : String}
    (h : P.processSuccess r key aReq myDestination ret aTime s = .error aErr s') : aErr ≠ "OK"

namespace Request

variable {q : Request}

/-- No destination has answered OK. -/
def Unserved (q : Request) : Prop :=
  ∀ myDestination ret, .returned myDestination ret ∈ q.actions → ret.retcode ≠ "OK"

/-- A success to be notified is the last thing that happened. -/
def Serving (q : Request) : Prop :=
  ∀ myDestination ret aTime, q.phase = .served myDestination ret aTime →
    ret.retcode = "OK" ∧ ∃ before, q.actions = before ++ [.returned myDestination ret]

theorem settled_of_unserved (h : q.Unserved) : q.Settled := by
  intro before d ret after hq hok
  exact absurd hok (h d ret (by simp [hq]))

theorem Settled.unserved (h : q.Settled) (hserved : ∀ d ret t, q.phase ≠ .served d ret t)
    (hfinished : ∀ ret, q.phase ≠ .finished ret) : q.Unserved := by
  intro d ret hmem hok
  obtain ⟨before, after, hq⟩ := List.append_of_mem hmem
  obtain ⟨_, ⟨t, hphase⟩ | hphase⟩ := h before d ret after hq hok
  · exact hserved d ret t hphase
  · exact hfinished ret hphase

theorem Unserved.act (h : q.Unserved) {a : Action}
    (ha : ∀ d ret, a = .returned d ret → ret.retcode ≠ "OK") : (q.act a).Unserved := by
  intro d ret hmem
  rcases List.mem_append.mp hmem with hmem | hmem
  · exact h d ret hmem
  · exact ha d ret (List.mem_singleton.mp hmem).symm

theorem fail_actions (aRetCode d : String) : (q.fail aRetCode d).actions = q.actions := by
  unfold fail
  dsimp only
  split <;> rfl

theorem Unserved.fail (h : q.Unserved) (aRetCode d : String) : (q.fail aRetCode d).Unserved := by
  intro d' ret hmem
  rw [fail_actions] at hmem
  exact h d' ret hmem

theorem serving_fail (aRetCode d : String) : (q.fail aRetCode d).Serving := by
  intro d' ret t hphase
  unfold Request.fail at hphase
  dsimp only at hphase
  split at hphase <;> cases hphase

/-- An OK at the end is the only one if there was none before it. -/
theorem settled_received (h : q.Unserved) (d : String) (ret : LambdaResponse) (t : ℚ) :
    (received d ret t q).Settled := by
  unfold received
  dsimp only
  split
  · intro before d' ret' after hq hok'
    have hlast : q.actions ++ [.returned d ret] = before ++ .returned d' ret' :: after := hq
    rcases List.eq_nil_or_concat after with rfl | ⟨after, a, rfl⟩
    · obtain ⟨_, heq⟩ := List.append_inj' hlast rfl
      cases heq
      exact ⟨rfl, .inl ⟨t, rfl⟩⟩
    · rw [List.concat_eq_append, ← List.cons_append, ← List.append_assoc] at hlast
      obtain ⟨heq, _⟩ := List.append_inj' hlast rfl
      exact absurd hok' (h d' ret' (by simp [heq]))
  · next hok =>
    apply settled_of_unserved
    apply Unserved.fail
    apply Unserved.act (q := { q with myRetCode := ret.retcode }) h
    rintro d' ret' ⟨⟩
    exact hok

theorem serving_received (d : String) (ret : LambdaResponse) (t : ℚ) :
    (received d ret t q).Serving := by
  unfold received
  dsimp only
  split
  · next hok =>
    intro d' ret' t' hphase
    cases hphase
    exact ⟨hok, q.actions, rfl⟩
  · exact serving_fail _ _

/-- Once the success is notified, the response is sent back. -/
theorem Settled.finish (h : q.Settled) (hq : q.Serving) {d : String} {ret : LambdaResponse} {t : ℚ}
    (hphase : q.phase = .served d ret t) : (q.finish ret).Settled := by
  obtain ⟨_, before, hactions⟩ := hq d ret t hphase
  intro before' d' ret' after' hsplit hok
  obtain ⟨rfl, _⟩ := h before' d' ret' after' hsplit hok
  obtain ⟨_, heq⟩ := List.append_inj' (hactions.symm.trans hsplit) rfl
  cases heq
  exact ⟨rfl, .inr rfl⟩

/-- If the notification fails, the request is not settled any more. -/
theorem not_settled_fail (hq : q.Serving) {d : String} {ret : LambdaResponse} {t : ℚ}
    (hphase : q.phase = .served d ret t) {aErr : String} (herr : aErr ≠ "OK") :
    ¬ (q.fail aErr d).Settled := by
  obtain ⟨hok, before, hactions⟩ := hq d ret t hphase
  intro h
  have hend := (h before d ret [] ((fail_actions aErr d).trans hactions) hok).2
  unfold fail giveUp finish at hend
  dsimp only at hend
  split at hend
  · rcases hend with ⟨_, hserved⟩ | hfinished
    · cases hserved
    · cases hfinished
      exact herr hok
  · rcases hend with ⟨_, hserved⟩ | hfinished
    · cases hserved
    · cases hfinished

end Request

section Steps

/-- What a step of a request does to the state of the derived class. -/
theorem process_state (key : ℕ) (i : Input P) (s : P.State) (q : Request) :
    (process conf key i s q).1 = s ∨
    (process conf key i s q).1 = Triple.after (P.destination i.reading key q.aReq) s ∨
    (∃ d ret t, (process conf key i s q).1 =
      Triple.after (P.processSuccess i.reading key q.aReq d ret t) s) ∨
    ∃ d, ∃ purge ∈ P.processFailure i.reading key q.aReq d, (process conf key i s q).1 = purge s := by
  cases hphase : q.phase with
  | looping =>
    simp only [process, hphase, Triple.after]
    split
    · exact .inl rfl
    cases hrun : P.destination i.reading key q.aReq s with
    | ok d s' => exact .inr (.inl rfl)
    | error err s' => exact .inr (.inl rfl)
  | chosen d =>
    simp only [process, hphase]
    split
    · exact .inl rfl
    · exact .inl rfl
  | waiting d =>
    simp only [process, hphase]
    cases i.outcome with
    | ok ret => exact .inl rfl
    | error err => exact .inl rfl
  | served d ret t =>
    refine .inr (.inr (.inl ⟨d, ret, t, ?_⟩))
    simp only [process, hphase, Triple.after]
    cases hrun : P.processSuccess i.reading key q.aReq d ret t s with
    | ok u s' => rfl
    | error err s' => rfl
  | failing d n =>
    simp only [process, hphase]
    cases hpurge : (P.processFailure i.reading key q.aReq d)[n]? with
    | none => exact .inl rfl
    | some purge => exact .inr (.inr (.inr ⟨d, purge, List.mem_of_getElem? hpurge, rfl⟩))
  | finished ret =>
    simp only [process, hphase]
    exact .inl trivial

theorem Request.fail_phase (aErr d d' : String) (q : Request) :
    (q.fail aErr d').phase ≠ .chosen d ∧ (q.fail aErr d').aReq = q.aReq := by
  rw [Request.fail]
  dsimp only
  split
  · exact ⟨nofun, rfl⟩
  · exact ⟨nofun, rfl⟩

theorem received_phase (d d' : String) (ret : LambdaResponse) (t : ℚ) (q : Request) :
    (received d' ret t q).phase ≠ .chosen d ∧ (received d' ret t q).aReq = q.aReq := by
  rw [received]
  split
  · exact ⟨nofun, rfl⟩
  · exact Request.fail_phase _ _ _ _

/-- A request stays the same, and a destination is chosen for it by the derived class
when it is looking for one. -/
theorem process_request (key : ℕ) (i : Input P) (s : P.State) (q : Request) :
    (process conf key i s q).2.aReq = q.aReq ∧ ∀ d, (process conf key i s q).2.phase = .chosen d →
      q.phase = .looping ∧ ∃ s', P.destination i.reading key q.aReq s = .ok d s' := by
  cases hphase : q.phase with
  | looping =>
    simp only [process, hphase]
    split
    · exact ⟨rfl, nofun⟩
    cases hrun : P.destination i.reading key q.aReq s with
    | ok d s' =>
      refine ⟨rfl, ?_⟩
      rintro d' ⟨⟩
      exact ⟨trivial, s', rfl⟩
    | error err s' =>
      obtain ⟨_, haReq⟩ := Request.fail_phase err "" "" q
      exact ⟨haReq, fun d hd => absurd hd (Request.fail_phase err d "" q).1⟩
  | chosen d' =>
    simp only [process, hphase]
    split
    · exact ⟨(received_phase "" _ _ _ q).2, fun d hd => absurd hd (received_phase d _ _ _ q).1⟩
    · exact ⟨rfl, nofun⟩
  | waiting d' =>
    simp only [process, hphase]
    cases i.outcome with
    | ok ret =>
      exact ⟨(received_phase "" _ _ _ q).2, fun d hd => absurd hd (received_phase d _ _ _ q).1⟩
    | error err =>
      exact ⟨(Request.fail_phase err "" _ q).2,
        fun d hd => absurd hd (Request.fail_phase err d _ q).1⟩
  | served d' ret t =>
    simp only [process, hphase]
    cases hrun : P.processSuccess i.reading key q.aReq d' ret t s with
    | ok u s' => exact ⟨rfl, nofun⟩
    | error err s' =>
      exact ⟨(Request.fail_phase err "" _ q).2,
        fun d hd => absurd hd (Request.fail_phase err d _ q).1⟩
  | failing d' n =>
    simp only [process, hphase]
    split
    · exact ⟨rfl, nofun⟩
    split
    · exact ⟨rfl, nofun⟩
    · exact ⟨rfl, nofun⟩
  | finished ret =>
    simp only [process, hphase]
    refine ⟨trivial, fun d hd => ?_⟩
    cases hd

theorem serving_process (key : ℕ) (i : Input P) (s : P.State) (q : Request) :
    (process conf key i s q).2.Serving := by
  cases hphase : q.phase with
  | looping =>
    simp only [process, hphase]
    split
    · exact nofun
    split
    · exact nofun
    · exact Request.serving_fail _ _
  | chosen d =>
    simp only [process, hphase]
    split
    · exact Request.serving_received d _ _
    · exact nofun
  | waiting d =>
    simp only [process, hphase]
    split
    · exact Request.serving_received d _ _
    · exact Request.serving_fail _ _
  | served d ret t =>
    simp only [process, hphase]
    split
    · exact nofun
    · exact Request.serving_fail _ _
  | failing d n =>
    simp only [process, hphase]
    split
    · exact nofun
    split <;> exact nofun
  | finished ret =>
    simp only [process, hphase]
    intro d' ret' t' hserved
    cases hphase.symm.trans hserved

/-- A step of a request that was not served yet leaves it settled. -/
theorem process_unserved {q : Request} (h : q.Unserved) (hserved : ∀ d ret t, q.phase ≠ .served d ret t)
    (hfinished : ∀ ret, q.phase ≠ .finished ret) (key : ℕ) (i : Input P) (s : P.State) :
    (process conf key i s q).2.Settled := by
  cases hphase : q.phase with
  | looping =>
    simp only [process, hphase]
    split
    · exact Request.settled_of_unserved h
    split
    · exact Request.settled_of_unserved h
    · exact Request.settled_of_unserved (h.fail _ _)
  | chosen d =>
    simp only [process, hphase]
    split
    · exact Request.settled_received h d _ _
    · apply Request.settled_of_unserved
      exact Request.Unserved.act (q := { q with phase := .waiting d }) h nofun
  | waiting d =>
    simp only [process, hphase]
    split
    · exact Request.settled_received h d _ _
    · exact Request.settled_of_unserved (h.fail _ _)
  | served d ret t => exact absurd hphase (hserved d ret t)
  | failing d n =>
    simp only [process, hphase]
    split
    · apply Request.settled_of_unserved
      exact Request.Unserved.act (q := { q with phase := .failing d (n + 1) }) h nofun
    split
    · apply Request.settled_of_unserved
      exact Request.Unserved.act (q := { q with phase := .looping }) h nofun
    · exact Request.settled_of_unserved h
  | finished ret => exact absurd hphase (hfinished ret)

variable (A : Accepting P)

/-- A step keeps a request settled unless it notifies a success that is refused. -/
theorem process_settled_iff {q : Request} (h : q.Settled) (hq : q.Serving) (key : ℕ) (i : Input P)
    (s : P.State) : (process conf key i s q).2.Settled ↔ ∀ d ret t, q.phase = .served d ret t →
      A.Accepts i.reading q.aReq d ret t s := by
  by_cases hserved : ∃ d ret t, q.phase = .served d ret t
  · obtain ⟨d, ret, t, hphase⟩ := hserved
    have haccepts : (∀ d' ret' t', q.phase = .served d' ret' t' →
        A.Accepts i.reading q.aReq d' ret' t' s) ↔ A.Accepts i.reading q.aReq d ret t s := by
      constructor
      · exact fun hall => hall d ret t hphase
      · intro hone d' ret' t' hphase'
        cases hphase.symm.trans hphase'
        exact hone
    rw [haccepts, ← A.processSuccess_iff i.reading key]
    simp only [process, hphase]
    cases hnotify : P.processSuccess i.reading key q.aReq d ret t s with
    | ok _ s' => exact iff_of_true (h.finish hq hphase) ⟨s', rfl⟩
    | error aErr s' =>
      apply iff_of_false (Request.not_settled_fail hq hphase (A.error_ne_ok hnotify))
      rintro ⟨_, hok⟩
      cases hok
  have hidle (d : String) (ret : LambdaResponse) (t : ℚ) : q.phase ≠ .served d ret t :=
    fun hphase => hserved ⟨d, ret, t, hphase⟩
  refine iff_of_true ?_ fun d ret t hphase => absurd hphase (hidle d ret t)
  by_cases hover : q.Over
  · obtain ⟨ret, hphase⟩ := hover
    have hsame : process conf key i s q = (s, q) := by simp only [process, hphase]
    rw [hsame]
    exact h
  · have hrunning (ret : LambdaResponse) : q.phase ≠ .finished ret :=
      fun hphase => hover ⟨ret, hphase⟩
    exact process_unserved conf (h.unserved hidle hrunning) hidle hrunning key i s

/-- Whenever a success is notified, the derived class takes it. -/
def System.Accepted (s : System P) : Event P → Prop
  | .advance key i => ∀ q : Request, s.theRequests[key]? = some q → ∀ d ret t,
    q.phase = .served d ret t → A.Accepts i.reading q.aReq d ret t s.theState
  | _ => True

/-- The requests in a state have a property. -/
def System.Every (I : Request → Prop) (s : System P) : Prop :=
  ∀ (key : ℕ) (q : Request), s.theRequests[key]? = some q → I q

/-- A property of new requests is kept by an event if a step of a request keeps it. -/
theorem System.every_step {I : Request → Prop} (hnew : ∀ aReq, I { aReq }) {s : System P}
    (h : s.Every I) (e : Event P) : (step conf s e).Every I ↔ match e with
      | .advance key i => ∀ q : Request, s.theRequests[key]? = some q →
        I (process conf key i s.theState q).2
      | _ => True := by
  cases e with
  | arrive key aReq =>
    refine iff_of_true ?_ trivial
    intro k q hq
    simp only [step] at hq
    split at hq
    · rw [Maps.lookup_insert] at hq
      split at hq
      · cases hq
        exact hnew aReq
      · exact h k q hq
    · exact h k q hq
  | change e => exact iff_of_true h trivial
  | advance key i =>
    cases hk : s.theRequests[key]? with
    | none =>
      simp only [step, hk, reduceCtorEq, false_implies, implies_true, iff_true]
      exact h
    | some q =>
      simp only [step, hk, Option.some.injEq, forall_eq']
      constructor
      · intro hevery
        exact hevery key _ (by rw [Maps.lookup_insert, if_pos rfl])
      · intro hq k q' hq'
        rw [Maps.lookup_insert] at hq'
        split at hq'
        · cases hq'
          exact hq
        · exact h k q' hq'

/-- What the changes and the steps of requests keep of the state, every event keeps. -/
theorem System.theState_step {I : P.State → Prop} (hchange : ∀ s e, I s → I (P.change e s))
    (hprocess : ∀ s key i q, I s → I (process conf key i s q).1) {s : System P} (h : I s.theState)
    (e : Event P) : I (step conf s e).theState := by
  cases e with
  | arrive key aReq =>
    simp only [step]
    split
    · exact h
    · exact h
  | change e => exact hchange _ e h
  | advance key i =>
    cases hk : s.theRequests[key]? with
    | none =>
      simp only [step, hk]
      exact h
    | some q =>
      simp only [step, hk]
      exact hprocess _ key i q h

theorem System.serving_step {s : System P} (h : s.Every Request.Serving) (e : Event P) :
    (step conf s e).Every Request.Serving := by
  rw [every_step conf (fun _ => nofun) h]
  cases e with
  | advance key i => exact fun q _ => serving_process conf key i s.theState q
  | _ => trivial

/-- One event keeps all requests settled exactly when it is accepted. -/
theorem System.settled_step_iff {s : System P} (h : s.Every Request.Settled)
    (hs : s.Every Request.Serving) (e : Event P) :
    (step conf s e).Every Request.Settled ↔ s.Accepted A e := by
  rw [every_step conf (fun _ => Request.settled_of_unserved nofun) h]
  cases e with
  | advance key i =>
    apply forall_congr'
    intro q
    apply imp_congr_right
    intro hq
    exact process_settled_iff conf A (h key q hq) (hs key q hq) key i s.theState
  | arrive key aReq => exact Iff.rfl
  | change e => exact Iff.rfl

/-- In a run all requests are settled in every state exactly when each success
that is notified is accepted. -/
theorem System.settled_iff_accepted (s₀ : P.State) (events : List (Event P)) :
    (∀ s ∈ Runs.states (step conf) (new s₀) events, s.Every Request.Settled) ↔
      Runs.Along (step conf) (Accepted A) (new s₀) events := by
  have hnew (I : Request → Prop) : (new s₀ : System P).Every I := by
    intro key q hq
    simp [new] at hq
  have hserving := Runs.invariant (I := System.Every Request.Serving)
    (fun s e h => serving_step conf h e) events (hnew _ : (new s₀ : System P).Every Request.Serving)
  have hboth : (∀ s ∈ Runs.states (step conf) (new s₀) events,
      s.Every Request.Settled ∧ s.Every Request.Serving) ↔
      Runs.Along (step conf) (Accepted A) (new s₀) events := by
    apply Runs.invariant_iff_along (P := Accepted A) _ ⟨hnew _, hnew _⟩
    intro s e h
    exact (and_iff_left (serving_step conf h.2 e)).trans (settled_step_iff conf A h.1 h.2 e)
  rw [← hboth]
  constructor
  · exact fun h s hs => ⟨h s hs, hserving s hs⟩
  · exact fun h s hs => (h s hs).1

end Steps

end ServerlessEdge.Processing
