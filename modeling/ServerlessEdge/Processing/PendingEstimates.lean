import ServerlessEdge.Estimator.Choosing
import ServerlessEdge.Processing.EdgeDispatcher

/-! The estimates that a dispatcher keeps for the requests under way. They are put
when a destination is chosen, and dropped by the notification of the outcome. -/
namespace ServerlessEdge.Processing
open Library Estimator Maps
open Std (ExtTreeMap)

namespace Request

/-- A destination has been chosen, and neither its success nor its failure notified. -/
def Pending (q : Request) : Prop := match q.phase with
  | .chosen d => d ≠ ""
  | .waiting d => d ≠ ""
  | .served d _ _ => d ≠ ""
  | .failing d 0 => d ≠ ""
  | .looping => False
  | .failing _ (_ + 1) => False
  | .finished _ => False

/-- The destination that the request deals with has a name. -/
def Named (q : Request) : Prop := match q.phase with
  | .chosen d => d ≠ ""
  | .waiting d => d ≠ ""
  | .served d _ _ => d ≠ ""
  | .failing d _ => d ≠ ""
  | .looping => True
  | .finished _ => True

/-- The next step of the request is a notification. -/
def Notifying (q : Request) : Prop := match q.phase with
  | .served _ _ _ => True
  | .failing _ 0 => True
  | _ => False

variable {q : Request} {d : String}

theorem Notifying.pending (h : q.Notifying) (hq : q.Named) : q.Pending := by
  obtain ⟨aReq, myRetCode, phase, actions⟩ := q
  cases phase with
  | served d ret t => exact hq
  | failing d n =>
    cases n with
    | zero => exact hq
    | succ n => exact h.elim
  | _ => exact h.elim

theorem pending_fail (aRetCode : String) (hd : d ≠ "") :
    (q.fail aRetCode d).Pending ∧ (q.fail aRetCode d).Named := by
  rw [fail, if_neg hd]
  exact ⟨hd, hd⟩

/-- Without a destination there is nothing to be purged. -/
theorem not_pending_fail (aRetCode : String) :
    ¬ (q.fail aRetCode "").Pending ∧ (q.fail aRetCode "").Named := by
  rw [fail, if_pos rfl]
  exact ⟨id, trivial⟩

theorem pending_received (hd : d ≠ "") (ret : LambdaResponse) (t : ℚ) :
    (received d ret t q).Pending ∧ (received d ret t q).Named := by
  rw [received]
  split
  · exact ⟨hd, hd⟩
  · exact pending_fail _ hd

theorem Over.not_pending (h : q.Over) : ¬ q.Pending := by
  obtain ⟨myResp, hphase⟩ := h
  rw [Pending, hphase]
  exact id

end Request

namespace EdgeDispatcher

variable {D : Type} [Derived D] {conf : Conf}

section Estimates

variable {r : Readings} {key : ℕ} {aReq : Rpc.LambdaRequest} {e e' : PtimeEstimator D} {d : String}

theorem estimates_internalRemove (l d : String) (e : PtimeEstimator D) :
    (e.internalRemove l d).theEstimates = e.theEstimates := by
  rw [PtimeEstimator.internalRemove]
  cases e.theTable[l]? with
  | none => rfl
  | some row =>
    dsimp only
    split
    · rfl
    · rfl

/-- The estimates of the request are put if the choice returns. -/
theorem mem_operator (h : PtimeEstimator.operator r key aReq e = .ok d e') :
    (∃ x d', Derived.choose r aReq e.theDerived = .ok (d, x) d') ∧
      ∀ k, k ∈ e'.theEstimates ↔ k = key ∨ k ∈ e.theEstimates := by
  simp only [PtimeEstimator.operator] at h
  cases hchoose : Derived.choose r aReq e.theDerived with
  | error err d' =>
    rw [hchoose] at h
    cases h
  | ok x d' =>
    rw [hchoose] at h
    cases h
    refine ⟨⟨x.2, d', rfl⟩, fun k => ?_⟩
    rw [ExtTreeMap.mem_insertIfNew, Std.LawfulEqCmp.compare_eq_iff_eq, eq_comm]

theorem estimates_operator_error {err : String}
    (h : PtimeEstimator.operator r key aReq e = .error err e') : e'.theEstimates = e.theEstimates := by
  simp only [PtimeEstimator.operator] at h
  cases hchoose : Derived.choose r aReq e.theDerived with
  | error err' d' =>
    rw [hchoose] at h
    cases h
    rfl
  | ok x d' =>
    rw [hchoose] at h
    cases h

/-- The estimates of a request that is successful are dropped even if the response
cannot be learnt from. -/
theorem processSuccess_cases (r : Readings) (key : ℕ) (aReq : Rpc.LambdaRequest) (d : String)
    (ret : LambdaResponse) (t : ℚ) (e : PtimeEstimator D) :
    ∃ e', e'.theEstimates = e.theEstimates.erase key ∧
      (PtimeEstimator.processSuccess r key aReq d ret t e = .ok () e' ∨
        ∃ err, PtimeEstimator.processSuccess r key aReq d ret t e = .error err e') := by
  simp only [PtimeEstimator.processSuccess]
  cases Derived.learn r aReq d ret t e.theDerived with
  | ok _ d' => exact ⟨_, rfl, .inl rfl⟩
  | error err d' => exact ⟨_, rfl, .inr ⟨err, rfl⟩⟩

theorem estimates_processFailure (key : ℕ) (aReq : Rpc.LambdaRequest) (d : String)
    (e : PtimeEstimator D) :
    (e.processFailure key aReq d).theEstimates = e.theEstimates.erase key :=
  estimates_internalRemove _ _ _

end Estimates

/-- A change of the table, which is all that the controller makes. -/
def OfTable : PtimeEstimator.Call → Prop
  | .change .. => True
  | .changeWeight .. => True
  | .remove .. => True
  | .removeLambda .. => True
  | .operator .. => False
  | .processSuccess .. => False
  | .processFailure .. => False

theorem estimates_ofTable {c : PtimeEstimator.Call} (h : OfTable c) (e : PtimeEstimator D) :
    (e.step c).theEstimates = e.theEstimates := by
  cases c with
  | change l d w f =>
    simp only [PtimeEstimator.step, PtimeEstimator.change]
    cases e.theTable[l]? with
    | none => rfl
    | some row =>
      dsimp only
      split
      · rfl
      · rfl
  | changeWeight l d w => rfl
  | remove l d => exact estimates_internalRemove l d e
  | removeLambda l => rfl
  | _ => exact h.elim

/-- A dispatcher with empty tables and no requests. -/
def new (aDerived : D) : System (processor D) := System.new (PtimeEstimator.new aDerived)

/-- There are estimates for exactly the requests that are pending. -/
def Balanced (s : System (processor D)) : Prop :=
  ∀ key : ℕ, key ∈ s.theState.theEstimates ↔ ∃ q : Request, s.theRequests[key]? = some q ∧ q.Pending

/-- A notification finds the estimates of its request. -/
def Finds (s : System (processor D)) : Event (processor D) → Prop
  | .advance key _ => ∀ q : Request, s.theRequests[key]? = some q → q.Notifying →
    key ∈ s.theState.theEstimates
  | _ => True

variable [Knowing D] [Choosing D]

/-- The tables are changed by the controller only, there is a destination to choose
whenever one is asked for, and the estimators know the pair of a success. -/
def Sound (s : System (processor D)) : Event (processor D) → Prop
  | .arrive _ _ => True
  | .change c => OfTable c
  | .advance key i => ∀ q : Request, s.theRequests[key]? = some q →
    (q.phase = .looping → q.aReq.hops ≤ 254 →
      Choosing.Offers i.reading q.aReq s.theState.theDerived) ∧
    ∀ d ret t, q.phase = .served d ret t → Knowing.Knows s.theState.theDerived q.aReq.name d

section Steps

variable (conf) {key : ℕ} {i : Input (processor D)} {e : PtimeEstimator D} {q : Request}
  {d : String}

omit [Choosing D] [Knowing D] in
theorem process_purge (hphase : q.phase = .failing d 0) : process conf key i e q =
    (e.processFailure key q.aReq d, { q with phase := .failing d 1 }.act (.purged d)) := by
  simp only [process, hphase]
  rfl

omit [Choosing D] [Knowing D] in
theorem process_again {n : ℕ} (hphase : q.phase = .failing d (n + 1)) : process conf key i e q =
    (e, if conf.theControllerClient then { q with phase := .looping }.act (.withdrawn d)
      else { q with phase := .looping }) := by
  simp only [process, hphase]
  rfl

omit [Choosing D] [Knowing D] in
/-- A step of a request leaves the estimates of the other ones alone. -/
theorem process_others {k : ℕ} (hk : k ≠ key) :
    k ∈ (process conf key i e q).1.theEstimates ↔ k ∈ e.theEstimates := by
  have herase {m : ExtTreeMap ℕ Estimates} : k ∈ m.erase key ↔ k ∈ m := by
    rw [mem_erase, and_iff_right hk]
  cases hphase : q.phase with
  | looping =>
    simp only [process, hphase]
    split
    · rfl
    cases hrun : (processor D).destination i.reading key q.aReq e with
    | ok d e' =>
      rw [(mem_operator hrun).2 k]
      exact or_iff_right hk
    | error err e' => rw [estimates_operator_error hrun]
  | chosen d =>
    simp only [process, hphase]
    split
    · rfl
    · rfl
  | waiting d =>
    simp only [process, hphase]
    cases i.outcome with
    | ok ret => rfl
    | error err => rfl
  | served d ret t =>
    simp only [process, hphase]
    obtain ⟨e', he', hrun | ⟨err, hrun⟩⟩ := processSuccess_cases i.reading key q.aReq d ret t e
    · simp only [processor, hrun]
      rw [he', herase]
    · simp only [processor, hrun]
      rw [he', herase]
  | failing d n =>
    cases n with
    | zero =>
      rw [process_purge conf hphase]
      change k ∈ (e.processFailure key q.aReq d).theEstimates ↔ _
      rw [estimates_processFailure, herase]
    | succ n => rw [process_again conf hphase]
  | finished ret => simp only [process, hphase]

/-- One step of a request keeps its estimates as long as it is pending. -/
theorem process_balanced (hq : key ∈ e.theEstimates ↔ q.Pending) (hn : q.Named)
    (hchoose : q.phase = .looping → q.aReq.hops ≤ 254 →
      Choosing.Offers i.reading q.aReq e.theDerived)
    (hknow : ∀ d ret t, q.phase = .served d ret t → Knowing.Knows e.theDerived q.aReq.name d) :
    (key ∈ (process conf key i e q).1.theEstimates ↔ (process conf key i e q).2.Pending) ∧
      (process conf key i e q).2.Named := by
  have herase {m : ExtTreeMap ℕ Estimates} : key ∉ m.erase key := fun h => (mem_erase.mp h).1 rfl
  rw [Request.Pending] at hq
  rw [Request.Named] at hn
  cases hphase : q.phase with
  | looping =>
    rw [hphase] at hq
    simp only [process, hphase]
    split
    · exact ⟨hq, trivial⟩
    · next hhops =>
      cases hrun : (processor D).destination i.reading key q.aReq e with
      | ok d e' =>
        obtain ⟨⟨x, d', hx⟩, hmem⟩ := mem_operator hrun
        have hd : d ≠ "" := Choosing.choose_ne (hchoose hphase (not_lt.mp hhops)) hx
        exact ⟨iff_of_true ((hmem key).mpr (.inl rfl)) hd, hd⟩
      | error err e' =>
        have hsame := estimates_operator_error hrun
        refine ⟨iff_of_false ?_ (Request.not_pending_fail err).1, (Request.not_pending_fail err).2⟩
        rw [hsame, hq]
        exact id
  | chosen d =>
    rw [hphase] at hq hn
    simp only [process, hphase]
    split
    · have hboth := Request.pending_received (q := q) hn { retcode := "OK" } (1 / 1000 + i.random)
      exact ⟨iff_of_true (hq.mpr hn) hboth.1, hboth.2⟩
    · exact ⟨hq, hn⟩
  | waiting d =>
    rw [hphase] at hq hn
    simp only [process, hphase]
    cases i.outcome with
    | ok ret =>
      obtain ⟨hpending, hnamed⟩ := Request.pending_received (q := q) hn ret.1 ret.2
      exact ⟨iff_of_true (hq.mpr hn) hpending, hnamed⟩
    | error err =>
      obtain ⟨hpending, hnamed⟩ := Request.pending_fail (q := q) err hn
      exact ⟨iff_of_true (hq.mpr hn) hpending, hnamed⟩
  | served d ret t =>
    obtain ⟨e'', hok⟩ := ((accepting D).processSuccess_iff i.reading key q.aReq d ret t e).mpr
      (hknow d ret t hphase)
    obtain ⟨e', he', hrun | ⟨err, hrun⟩⟩ := processSuccess_cases i.reading key q.aReq d ret t e
    · simp only [process, hphase, processor, hrun]
      refine ⟨iff_of_false ?_ id, trivial⟩
      rw [he']
      exact herase
    · cases hrun.symm.trans hok
  | failing d n =>
    rw [hphase] at hq hn
    cases n with
    | zero =>
      rw [process_purge conf hphase]
      refine ⟨iff_of_false ?_ id, hn⟩
      change key ∉ (e.processFailure key q.aReq d).theEstimates
      rw [estimates_processFailure]
      exact herase
    | succ n =>
      rw [process_again conf hphase]
      dsimp only
      split
      · exact ⟨hq, trivial⟩
      · exact ⟨hq, trivial⟩
  | finished ret =>
    rw [hphase] at hq
    simp only [process, hphase]
    rw [Request.Pending, Request.Named, hphase]
    exact ⟨hq, trivial⟩

end Steps

/-- What holds of every state: the estimates are right, and no request deals with a
destination without a name. -/
def Kept (s : System (processor D)) : Prop := Balanced s ∧ s.Every Request.Named

theorem kept_step {s : System (processor D)} (h : Kept s) {x : Event (processor D)}
    (hx : Sound s x) : Kept (System.step conf s x) := by
  obtain ⟨hbalanced, hnamed⟩ := h
  cases x with
  | change c =>
    refine ⟨fun key => ?_, hnamed⟩
    have hsame := estimates_ofTable hx s.theState
    change key ∈ (s.theState.step c).theEstimates ↔ _
    rw [hsame]
    exact hbalanced key
  | arrive key aReq =>
    refine ⟨fun k => ?_, ?_⟩
    · simp only [System.step]
      split
      · next hover =>
        refine (hbalanced k).trans ?_
        simp only [lookup_insert]
        by_cases hk : k = key
        · subst hk
          refine iff_of_false ?_ ?_
          · rintro ⟨q, hq, hpending⟩
            exact (hover q hq).not_pending hpending
          · rintro ⟨q, hq, hpending⟩
            rw [if_pos rfl] at hq
            cases hq
            exact hpending
        · rw [if_neg hk]
      · exact hbalanced k
    · rw [System.every_step conf (fun _ => trivial) hnamed]
      trivial
  | advance key i =>
    cases hk : s.theRequests[key]? with
    | none =>
      simp only [System.step, hk]
      exact ⟨hbalanced, hnamed⟩
    | some q =>
      obtain ⟨hchoose, hknow⟩ := hx q hk
      have hq : key ∈ s.theState.theEstimates ↔ q.Pending := by
        rw [hbalanced key, hk]
        simp only [Option.some.injEq, exists_eq_left']
      obtain ⟨hstep, hname⟩ := process_balanced conf (i := i) hq (hnamed key q hk) hchoose
        hknow
      refine ⟨fun k => ?_, ?_⟩
      · simp only [System.step, hk, lookup_insert]
        by_cases hkey : k = key
        · subst hkey
          simp only [if_true, Option.some.injEq, exists_eq_left']
          exact hstep
        · rw [if_neg hkey]
          exact (process_others conf hkey).trans (hbalanced k)
      · rw [System.every_step conf (fun _ => trivial) hnamed]
        intro q' hq'
        cases hk.symm.trans hq'
        exact hname

omit [Knowing D] [Choosing D] in
theorem kept_finds {s : System (processor D)} (h : Kept s) (x : Event (processor D)) : Finds s x := by
  cases x with
  | advance key i =>
    intro q hq hnotifying
    exact (h.1 key).mpr ⟨q, hq, hnotifying.pending (h.2 key q hq)⟩
  | _ => trivial

variable (D) in
/-- In every run with a destination for every choice and an estimator for every
success, the estimates are those of the pending requests in every state, and every
notification finds those of its request. -/
def Balances : Prop := ∀ (conf : Conf) (aDerived : D) (events : List (Event (processor D))),
  Runs.Along (System.step conf) Sound (new aDerived) events →
    (∀ s ∈ Runs.states (System.step conf) (new aDerived) events, Balanced s) ∧
      Runs.Along (System.step conf) Finds (new aDerived) events

theorem balances : Balances D := by
  intro conf aDerived events h
  have hnew : Kept (new aDerived) := by
    refine ⟨fun key => iff_of_false ExtTreeMap.not_mem_empty ?_, fun key q hq => ?_⟩
    · rintro ⟨q, hq, -⟩
      simp [new, System.new] at hq
    · simp [new, System.new] at hq
  constructor
  · have hkept := Runs.invariant_along (I := Kept) (fun _ _ hs hx => kept_step hs hx) hnew h
    exact fun s hs => (hkept s hs).1
  · exact Runs.Along.of_invariant (I := Kept) (fun _ _ hs hx => kept_step hs hx)
      (fun _ x hs _ => kept_finds hs x) hnew h

/-- The estimates are balanced whichever estimator is used. -/
theorem estimates_balanced (E : Type) [LinearEstimator E] : Balances (PtimeEstimatorRtt E) ∧
    Balances (PtimeEstimatorUtil E) ∧ Balances (PtimeEstimatorDelay E) ∧
      Balances PtimeEstimatorProbe := ⟨balances, balances, balances, balances⟩

/-- What a step of a request asks of the probing estimator. -/
theorem sound_probe {s : System (processor PtimeEstimatorProbe)} {key : ℕ}
    {i : Input (processor PtimeEstimatorProbe)}
    (h : ∀ q ∈ s.theRequests[key]?, q.phase = .looping →
      ∀ row ∈ s.theState.theDerived.theDestinations.theDescriptors[q.aReq.name]?,
        Leads (-PtimeEstimatorProbe.maxPtime)
          ((PtimeEstimatorProbe.answered i.reading row.keys).map fun x => (x.1, -(x.2 : ℚ)))) :
    Sound s (.advance key i) :=
  fun q hq => ⟨fun hphase _ => h q hq hphase, fun _ _ _ _ => trivial⟩

private def polled (aRetCode : String) : Input (processor PtimeEstimatorProbe) where
  reading := ⟨fun _ => 0, fun _ => .ok { retcode := aRetCode, ptime := 5 }⟩
  outcome := .ok ({ retcode := aRetCode }, 1)
  random := 0

/-- A request for a lambda with one destination. -/
private def polling (aRetCode : String) : List (Event (processor PtimeEstimatorProbe)) :=
  [.change (.change "lambda0" "a:1" 1 true), .arrive 0 { name := "lambda0" },
    .advance 0 (polled aRetCode), .advance 0 (polled aRetCode), .advance 0 (polled aRetCode),
    .advance 0 (polled aRetCode)]

theorem estimates_balanced_polling :
    (∀ s ∈ Runs.states (System.step ⟨false, true⟩) (new PtimeEstimatorProbe.new) (polling "OK"),
      Balanced s) ∧
    Runs.Along (System.step ⟨false, true⟩) Finds (new PtimeEstimatorProbe.new) (polling "OK") := by
  refine (@estimates_balanced Unit ⟨fun _ _ => (), fun _ _ _ _ => (), fun _ _ _ => (0, ())⟩).2.2.2
    ⟨false, true⟩ _ _ ⟨trivial, trivial, sound_probe ?_, sound_probe ?_, sound_probe ?_,
      sound_probe ?_, trivial⟩
  all_goals decide +kernel

private instance linearUnit : LinearEstimator Unit :=
  ⟨fun _ _ => (), fun _ _ _ _ => (), fun _ _ _ => (0, ())⟩

private def timed : Input (processor (PtimeEstimatorRtt Unit)) where
  reading := ⟨fun _ => 0, fun _ => .error "unused"⟩
  outcome := .ok ({ retcode := "OK" }, 1)
  random := 0

/-- The controller removes the lambda while the request is under way. -/
private def removing : List (Event (processor (PtimeEstimatorRtt Unit))) :=
  [.change (.change "lambda0" "a:1" 1 true), .arrive 0 { name := "lambda0" }, .advance 0 timed,
    .advance 0 timed, .change (.removeLambda "lambda0"), .advance 0 timed, .advance 0 timed]

/-- The estimates of a request that cannot be learnt from are gone when its failure is
notified; those of one without a destination stay when it has been answered. -/
theorem estimates_unbalanced :
    ¬ Balanced (Runs.final (System.step ⟨false, true⟩) (new (PtimeEstimatorRtt.new 1 0)) removing) ∧
    ¬ Finds (Runs.final (System.step ⟨false, true⟩) (new (PtimeEstimatorRtt.new 1 0)) removing)
      (.advance 0 timed) ∧
    ¬ Balanced (Runs.final (System.step ⟨false, true⟩) (new PtimeEstimatorProbe.new)
      (polling "busy")) := by
  let s := Runs.final (System.step ⟨false, true⟩) (new (PtimeEstimatorRtt.new 1 0)) removing
  have hphase : (s.theRequests[0]?).map Request.phase = some (.failing "a:1" 0) := by decide +kernel
  have hgone : 0 ∉ s.theState.theEstimates := by decide +kernel
  obtain ⟨q, hq, hqp⟩ := Option.map_eq_some_iff.mp hphase
  refine ⟨fun h => hgone ((h 0).mpr ⟨q, hq, ?_⟩), fun h => hgone (h q hq ?_), fun h => ?_⟩
  · rw [Request.Pending, hqp]
    decide
  · rw [Request.Notifying, hqp]
    trivial
  · obtain ⟨q', hq', hpending⟩ := (h 0).mp (by decide +kernel)
    have hover : ∀ q ∈ (Runs.final (System.step ⟨false, true⟩) (new PtimeEstimatorProbe.new)
      (polling "busy")).theRequests[0]?, q.Over := by decide +kernel
    exact (hover q' hq').not_pending hpending

end EdgeDispatcher
end ServerlessEdge.Processing
