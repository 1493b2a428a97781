import ServerlessEdge.Simulation.RequestLoop

/-! What holds throughout the runs of a client that sends its requests one after another, and that
they go on to their ends. -/
namespace ServerlessEdge.Simulation
open Std (ExtTreeMap)
open Library Steps Messages
open Estimator (LambdaResponse)

namespace Stage

/-- The requests whose end the thread has to see: at most one. -/
def inFlight : Stage → ℕ
  | looping => 0
  | finished thrown => thrown.toNat
  | _ => 1

def held : Stage → List LambdaResponse
  | recording myResp => [myResp]
  | _ => []

def pushes : Stage → ℕ
  | pushing => 1
  | _ => 0

/-- The steps until the next iteration, or the end. -/
def left : Stage → ℕ
  | finished _ => 0
  | looping => 1
  | popping => 2
  | pushing => 3
  | recording _ => 4
  | calling => 5

end Stage

namespace Saving

def held : Saving → List LambdaResponse
  | recording myResponse => [myResponse]
  | _ => []

def pushes : Saving → ℕ
  | pushing => 1
  | _ => 0

def left : Saving → ℕ
  | popping => 0
  | pushing => 1
  | recording _ => 2

end Saving

namespace SingleClient

def unanswered (l : Ledger) : ℕ := l.theCalls.countP fun myCall => myCall.theAnswer.isNone

/-- The responses that are still to be recorded. -/
def held (s : Session) : List LambdaResponse := s.theQueue ++ s.saving.held ++ s.stage.held

/-- The responses recorded of which the thread of the client has not heard. -/
def unheard (s : Session) : ℕ := s.stage.pushes + s.saving.pushes + s.theSendRequestQueue

/-- A request in flight is in one place: with the servers, as a response to be recorded, or on the
way back to sendRequest(), if the queue for that has not been closed. -/
structure Kept (c : SingleClient) (s : Session) : Prop where
  sound : Sound c s.toLedger
  count : unanswered s.toLedger + (held s).length + s.theRecords.length = s.theCalls.length
  inbox : ∀ r ∈ held s, ∃ myCall, s.theCalls[s.theRecords.length]? = some myCall ∧
    myCall.theAnswer = some r
  flight : unanswered s.toLedger + (held s).length + unheard s ≤ s.stage.inFlight
  tight : s.theStopFlag = false → s.stage ≠ .finished true →
    s.stage.inFlight ≤ unanswered s.toLedger + (held s).length + unheard s
  counter : s.theCalls.length ≤ s.myCounter + s.stage.inFlight
  full : s.stage ≠ .finished true → s.myCounter + s.stage.inFlight ≤ s.theCalls.length
  total : s.myCounter + s.stage.inFlight ≤ c.theNumRequests
  ended : s.stage = .finished false → s.theStopFlag = true ∨ c.theNumRequests ≤ s.myCounter

section Sessions

variable {c : SingleClient} {s s' : Session} {e : Event}

theorem inFlight_le (x : Stage) : x.inFlight ≤ 1 := by
  cases x with
  | finished thrown => exact Bool.toNat_le thrown
  | looping => exact Nat.zero_le 1
  | _ => exact Nat.le_refl 1

theorem kept_new (c : SingleClient) : Kept c c.new := by
  refine ⟨sound_new c, rfl, ?_, ?_, ?_, ?_, ?_, ?_, ?_⟩
  all_goals simp [new, held, unheard, unanswered, Stage.inFlight, Stage.held, Stage.pushes, Saving.held,
    Saving.pushes]

/-- The next response to be recorded is to the first request that has no record. -/
theorem Kept.oldest {n : ℕ} {myCall : Call} (h : Kept c s) (hcall : s.theCalls[n]? = some myCall)
    (hnone : myCall.theAnswer = none) : n = s.theRecords.length ∧
      s.theCalls.length = s.theRecords.length + 1 ∧ unanswered s.toLedger = 1 ∧ held s = [] := by
  have hlt := (List.getElem?_eq_some_iff.mp hcall).1
  have hpos : 0 < unanswered s.toLedger :=
    List.countP_pos_iff.mpr ⟨myCall, List.mem_of_getElem? hcall, Option.isNone_iff_eq_none.mpr hnone⟩
  have hflight := h.flight
  have hone := inFlight_le s.stage
  have hcount := h.count
  have hempty : (held s).length = 0 := by omega
  refine ⟨?_, by omega, by omega, List.length_eq_zero_iff.mp hempty⟩
  by_contra hne
  obtain ⟨r, hr⟩ : ∃ r, s.theRecords[n]? = some r := ⟨_, List.getElem?_eq_getElem (by omega)⟩
  obtain ⟨myCall', hcall', hanswer, -⟩ := h.sound.recorded n r hr
  rw [hcall] at hcall'
  cases hcall'
  rw [hnone] at hanswer
  cases hanswer

/-- What an answer does to the books. -/
theorem Kept.answered {n : ℕ} {myResp : LambdaResponse} {l : Ledger} (h : Kept c s)
    (hl : answer n myResp s.toLedger = some l) : Sound c l ∧ unanswered l = 0 ∧ held s = [] ∧
      unanswered s.toLedger = 1 ∧ l.theRecords = s.theRecords ∧
      l.theCalls.length = s.theCalls.length ∧ ∃ myCall,
        l.theCalls[s.theRecords.length]? = some myCall ∧ myCall.theAnswer = some myResp := by
  have hsound := h.sound.answer hl
  obtain ⟨myCall, hcall, hnone, -, rfl⟩ := answer_cases hl
  obtain ⟨rfl, hlength, hone, hempty⟩ := h.oldest hcall hnone
  have hlt := (List.getElem?_eq_some_iff.mp hcall).1
  refine ⟨hsound, ?_, hempty, hone, rfl, List.length_set, _, List.getElem?_set_self hlt, rfl⟩
  have hvalue : s.theCalls[s.theRecords.length] = myCall := (List.getElem?_eq_some_iff.mp hcall).2
  rw [unanswered, List.countP_set hlt, hvalue, hnone]
  rw [unanswered] at hone
  simp [hone]

/-- What a record does to the books, of a response that is held. -/
theorem Kept.recorded {myResp : LambdaResponse} {now : ℚ} {l : Ledger} (h : Kept c s)
    (hheld : myResp ∈ held s) (hl : c.recordStat myResp now s.toLedger = some l) :
    Sound c l ∧ unanswered l = unanswered s.toLedger ∧ held s = [myResp] ∧
      l.theRecords.length = s.theRecords.length + 1 ∧ l.theCalls = s.theCalls := by
  obtain ⟨myCall, hcall, hanswer⟩ := h.inbox myResp hheld
  have hpos := List.length_pos_of_mem hheld
  have hflight := h.flight
  have hone := inFlight_le s.stage
  have hcount := h.count
  obtain ⟨r, hr⟩ := List.length_eq_one_iff.mp (show (held s).length = 1 by omega)
  rw [hr, List.mem_singleton] at hheld
  subst hheld
  have hsound := h.sound.record (by omega) hcall hanswer hl
  obtain ⟨-, -, -, -, hcalls, hrecords, -⟩ := recordStat_cases hl
  refine ⟨hsound, ?_, hr, ?_, hcalls⟩
  · rw [unanswered, hcalls, unanswered]
  · rw [hrecords, List.length_append, List.length_singleton]

/-- A step of a thread that changes nothing in the books. -/
theorem Kept.move {t : Session} (h : Kept c s) (hledger : t.toLedger = s.toLedger)
    (hheld : (held t).Perm (held s))
    (hflight : unheard t + s.stage.inFlight ≤ unheard s + t.stage.inFlight)
    (htight : t.theStopFlag = false → t.stage ≠ .finished true → s.theStopFlag = false ∧
      unheard s + t.stage.inFlight ≤ unheard t + s.stage.inFlight)
    (hcounter : t.myCounter + t.stage.inFlight = s.myCounter + s.stage.inFlight)
    (hthrown : s.stage = .finished true → t.stage = .finished true)
    (hended : t.stage = .finished false → t.theStopFlag = true ∨ c.theNumRequests ≤ t.myCounter) :
    Kept c t := by
  have hlength := hheld.length_eq
  have hbound := h.flight
  constructor
  · rw [hledger]
    exact h.sound
  · rw [hledger, hlength]
    exact h.count
  · intro r hr
    rw [hledger]
    exact h.inbox r (hheld.mem_iff.mp hr)
  · rw [hledger, hlength]
    omega
  · intro hstop hstage
    obtain ⟨hstop', hle⟩ := htight hstop hstage
    have hfull := h.tight hstop' fun hthrown' => hstage (hthrown hthrown')
    rw [hledger, hlength]
    omega
  · rw [hledger, hcounter]
    exact h.counter
  · intro hstage
    rw [hledger, hcounter]
    exact h.full fun hthrown' => hstage (hthrown hthrown')
  · rw [hcounter]
    exact h.total
  · exact hended

theorem Kept.send {aSize : ℕ} {now : ℚ} (h : Kept c s) (hloops : c.Loops s) :
    Kept c (c.sendRequest aSize now s) := by
  obtain ⟨hstage, hless, hstop⟩ := hloops
  have hflight := h.flight
  have hcounter := h.counter
  have hfull := h.full (by rw [hstage]; decide)
  have hcount := h.count
  rw [hstage, Stage.inFlight] at hflight hcounter hfull
  rw [sendRequest]
  split
  · -- the request cannot be made
    have hheld : held { s with stage := .finished true } = held s := by
      rw [held, held, hstage]
      rfl
    have hunheard : unheard { s with stage := .finished true } = unheard s := by
      rw [unheard, unheard, hstage]
      rfl
    refine ⟨h.sound, ?_, ?_, ?_, ?_, ?_, ?_, ?_, ?_⟩
    · rw [hheld]
      exact hcount
    · rw [hheld]
      exact h.inbox
    · rw [hheld, hunheard]
      exact hflight.trans (Nat.zero_le 1)
    · exact fun _ hthrown => absurd rfl hthrown
    · exact hcounter.trans (Nat.le_succ _)
    · exact fun hthrown => absurd rfl hthrown
    · exact hless
    · exact fun hended => by cases hended
  · next myReq hreq =>
    have hempty : held s = [] := List.length_eq_zero_iff.mp (by omega)
    have hnone : unanswered s.toLedger = 0 := by omega
    have hsound := h.sound.ask now (by omega) hreq
    have hheld : held { s with toLedger := ask myReq now s.toLedger, stage := .calling } = [] := by
      rw [← hempty, held, held, hstage]
      rfl
    have hunheard : unheard { s with toLedger := ask myReq now s.toLedger, stage := .calling } = 0 := by
      have hzero : unheard s = 0 := by omega
      rw [← hzero, unheard, unheard, hstage]
      rfl
    have hopen : unanswered (ask myReq now s.toLedger) = 1 := by
      rw [unanswered] at hnone
      rw [unanswered, ask, List.countP_append, hnone]
      rfl
    have hlength : (ask myReq now s.toLedger).theCalls.length = s.theCalls.length + 1 :=
      List.length_append
    refine ⟨hsound, ?_, ?_, ?_, ?_, ?_, ?_, ?_, ?_⟩
    · rw [hheld, hopen, hlength]
      show 1 + 0 + s.theRecords.length = _
      omega
    · rw [hheld]
      exact List.forall_mem_nil _
    · rw [hheld, hopen, hunheard]
      exact Nat.le_refl 1
    · rw [hheld, hopen, hunheard]
      exact fun _ _ => Nat.le_refl 1
    · rw [hlength]
      exact Nat.succ_le_succ hcounter
    · rw [hlength]
      exact fun _ => Nat.succ_le_succ hfull
    · exact hless
    · exact fun hended => by cases hended

/-- What no answer and no record changes. -/
structure Alike (s t : Session) : Prop where
  stop : t.theStopFlag = s.theStopFlag
  counter : t.myCounter = s.myCounter
  inFlight : t.stage.inFlight = s.stage.inFlight
  thrown : s.stage = .finished true → t.stage = .finished true
  ended : t.stage = .finished false → s.stage = .finished false

theorem Kept.books {t : Session} (h : Kept c s) (halike : Alike s t) (hsound : Sound c t.toLedger)
    (hlength : t.theCalls.length = s.theCalls.length)
    (hcount : unanswered t.toLedger + (held t).length + t.theRecords.length =
      unanswered s.toLedger + (held s).length + s.theRecords.length)
    (hinbox : ∀ r ∈ held t, ∃ myCall, t.theCalls[t.theRecords.length]? = some myCall ∧
      myCall.theAnswer = some r)
    (hflight : unanswered t.toLedger + (held t).length + unheard t =
      unanswered s.toLedger + (held s).length + unheard s) : Kept c t := by
  constructor
  · exact hsound
  · rw [hcount, hlength]
    exact h.count
  · exact hinbox
  · rw [hflight, halike.inFlight]
    exact h.flight
  · intro hstop hstage
    rw [hflight, halike.inFlight]
    exact h.tight (halike.stop ▸ hstop) fun hthrown => hstage (halike.thrown hthrown)
  · rw [hlength, halike.counter, halike.inFlight]
    exact h.counter
  · intro hstage
    rw [hlength, halike.counter, halike.inFlight]
    exact h.full fun hthrown => hstage (halike.thrown hthrown)
  · rw [halike.counter, halike.inFlight]
    exact h.total
  · intro hstage
    rw [halike.stop, halike.counter]
    exact h.ended (halike.ended hstage)

theorem Kept.answer {n : ℕ} {myResp : LambdaResponse} {l : Ledger} {t : Session} (h : Kept c s)
    (hl : answer n myResp s.toLedger = some l) (hledger : t.toLedger = l) (halike : Alike s t)
    (hheld : held s = [] → held t = [myResp]) (hunheard : unheard t = unheard s) : Kept c t := by
  obtain ⟨hsound, hzero, hempty, hone, hrecords, hlength, hcall⟩ := h.answered hl
  have hnow := hheld hempty
  subst hledger
  refine h.books halike hsound hlength ?_ (fun r hr => ?_) ?_
  · rw [hzero, hnow, hone, hempty, hrecords]
    rfl
  · rw [hnow, List.mem_singleton] at hr
    subst hr
    rw [hrecords]
    exact hcall
  · rw [hzero, hnow, hone, hempty, hunheard]
    rfl

theorem Kept.record {myResp : LambdaResponse} {now : ℚ} {l : Ledger} {t : Session} (h : Kept c s)
    (hmem : myResp ∈ held s) (hl : c.recordStat myResp now s.toLedger = some l)
    (hledger : t.toLedger = l) (halike : Alike s t)
    (hheld : (held t).length + 1 = (held s).length) (hunheard : unheard t = unheard s + 1) :
    Kept c t := by
  obtain ⟨hsound, hanswers, hone, hrecords, hcalls⟩ := h.recorded hmem hl
  rw [hone, List.length_singleton, Nat.add_eq_right] at hheld
  subst hledger
  refine h.books halike hsound (by rw [hcalls]) ?_ (fun r hr => ?_) ?_
  · rw [hanswers, hheld, hone, hrecords, List.length_singleton]
    omega
  · rw [List.length_eq_zero_iff.mp hheld] at hr
    cases hr
  · rw [hanswers, hheld, hone, hunheard, List.length_singleton]
    omega

theorem Kept.step (h : Kept c s) (hs : c.step s e = some s') : Kept c s' := by
  rcases s with ⟨l, stage, saving, myCounter, theStopFlag, theSendRequestQueue, theQueue⟩
  cases e with
  | idle =>
    obtain ⟨-, hs⟩ := Option.ite_none_right_eq_some.mp hs
    cases hs
    exact h
  | send aSize now =>
    obtain ⟨hloops, hs⟩ := Option.ite_none_right_eq_some.mp hs
    cases hs
    exact h.send hloops
  | finish =>
    obtain ⟨⟨rfl, hloops⟩, hs⟩ := Option.ite_none_right_eq_some.mp hs
    cases hs
    refine h.move rfl (List.Perm.refl _) (Nat.le_refl _) (fun hstop _ => ⟨hstop, Nat.le_refl _⟩)
      rfl (fun hx => by cases hx) fun _ => ?_
    rw [Loops] at hloops
    by_contra hnot
    obtain ⟨hstop, hless⟩ := not_or.mp hnot
    exact hloops ⟨rfl, Nat.not_le.mp hless, Bool.eq_false_of_not_eq_true hstop⟩
  | respond myResp =>
    rw [SingleClient.step] at hs
    split at hs
    · next hstage =>
      change stage = .calling at hstage
      subst hstage
      split at hs
      · cases hs
        exact h.move rfl (List.Perm.refl _) (Nat.le_refl _)
          (fun hstop _ => ⟨hstop, Nat.le_refl _⟩) rfl (fun hx => by cases hx) fun hx => by cases hx
      · obtain ⟨l', hl, rfl⟩ := Option.map_eq_some_iff.mp hs
        refine h.answer hl rfl ⟨rfl, rfl, rfl, (fun hx => by cases hx), fun hx => by cases hx⟩
          (fun hempty => ?_) rfl
        simp only [held, Stage.held, List.append_nil] at hempty ⊢
        rw [hempty, List.nil_append]
    · cases hs
  | fail =>
    obtain ⟨rfl, hs⟩ := Option.ite_none_right_eq_some.mp hs
    cases hs
    exact h.move rfl (List.Perm.refl _) (Nat.le_refl _) (fun _ hthrown => absurd rfl hthrown) rfl
      (fun hx => by cases hx) fun hx => by cases hx
  | record now =>
    rw [SingleClient.step] at hs
    cases stage with
    | recording myResp =>
      obtain ⟨l', hl, rfl⟩ := Option.map_eq_some_iff.mp hs
      refine h.record ?_ hl rfl ⟨rfl, rfl, rfl, (fun hx => by cases hx), fun hx => by cases hx⟩ ?_ ?_
      · simp [held, Stage.held]
      · simp [held, Stage.held, Nat.add_assoc]
      · simp only [unheard, Stage.pushes]
        omega
    | _ => cases hs
  | push =>
    obtain ⟨rfl, hs⟩ := Option.ite_none_right_eq_some.mp hs
    cases hs
    refine h.move rfl (List.Perm.refl _) (Nat.le_of_eq ?_)
      (fun hstop _ => ⟨hstop, Nat.le_of_eq ?_⟩) rfl (fun hx => by cases hx) fun hx => by cases hx
    all_goals
      simp only [unheard, Stage.pushes, Stage.inFlight]
      omega
  | pop =>
    obtain ⟨⟨rfl, hpos⟩, hs⟩ := Option.ite_none_right_eq_some.mp hs
    cases hs
    change 0 < theSendRequestQueue at hpos
    refine h.move rfl (List.Perm.refl _) ?_ (fun hstop _ => ⟨hstop, ?_⟩) rfl (fun hx => by cases hx)
      fun hx => by cases hx
    all_goals
      simp only [unheard, Stage.pushes, Stage.inFlight]
      omega
  | receive n myResp =>
    obtain ⟨l', hl, rfl⟩ := Option.map_eq_some_iff.mp hs
    refine h.answer hl rfl ⟨rfl, rfl, rfl, id, id⟩ (fun hempty => ?_) rfl
    simp only [held, List.append_eq_nil_iff] at hempty ⊢
    obtain ⟨⟨hqueue, hsaving⟩, hstage⟩ := hempty
    rw [hqueue, hsaving, hstage]
    rfl
  | take =>
    rw [SingleClient.step] at hs
    split at hs
    · next myResponse theQueue' hsaving hqueue =>
      change saving = .popping at hsaving
      change theQueue = _ at hqueue
      subst hsaving hqueue
      cases hs
      refine h.move rfl ?_ (Nat.le_refl _) (fun hstop _ => ⟨hstop, Nat.le_refl _⟩) rfl id
        h.ended
      simp only [held, Saving.held, List.append_nil]
      exact List.Perm.append_right _ List.perm_append_comm
    · cases hs
  | recordAsync now =>
    rw [SingleClient.step] at hs
    cases saving with
    | recording myResponse =>
      obtain ⟨l', hl, rfl⟩ := Option.map_eq_some_iff.mp hs
      refine h.record ?_ hl rfl ⟨rfl, rfl, rfl, id, id⟩ ?_ ?_
      · simp [held, Saving.held]
      · simp only [held, Saving.held, List.length_append, List.length_singleton, List.length_nil]
        omega
      · simp only [unheard, Saving.pushes]
        omega
    | _ => cases hs
  | pushAsync =>
    obtain ⟨rfl, hs⟩ := Option.ite_none_right_eq_some.mp hs
    cases hs
    refine h.move rfl (List.Perm.refl _) (Nat.le_of_eq ?_)
      (fun hstop _ => ⟨hstop, Nat.le_of_eq ?_⟩) rfl id h.ended
    all_goals
      simp only [unheard, Saving.pushes]
      omega
  | stop =>
    obtain ⟨-, hs⟩ := Option.ite_none_right_eq_some.mp hs
    cases hs
    exact h.move rfl (List.Perm.refl _) (Nat.le_refl _) (fun hx => by cases hx) rfl id fun _ => .inl rfl
  | closed =>
    obtain ⟨⟨-, hstage⟩, hs⟩ := Option.ite_none_right_eq_some.mp hs
    cases hs
    change stage = .pushing ∨ stage = .popping at hstage
    rcases hstage with rfl | rfl
    all_goals
      refine h.move rfl (List.Perm.refl _) ?_ (fun _ hthrown => absurd rfl hthrown) rfl
        (fun hx => by cases hx) fun hx => by cases hx
      simp only [unheard, Stage.pushes, Stage.inFlight, Bool.toNat_true]
      omega
  | closedAsync =>
    obtain ⟨⟨hstop, rfl⟩, hs⟩ := Option.ite_none_right_eq_some.mp hs
    cases hs
    refine h.move rfl (List.Perm.refl _) ?_ (fun hopen => ?_) rfl id h.ended
    · simp only [unheard, Saving.pushes]
      omega
    · rw [hstop] at hopen
      cases hopen

/-- No assertion fails when a response that is held is recorded. -/
theorem Kept.recordable {myResp : LambdaResponse} (h : Kept c s) (hmem : myResp ∈ held s) (now : ℚ) :
    ∃ l, c.recordStat myResp now s.toLedger = some l := by
  obtain ⟨myCall, hcall, hanswer⟩ := h.inbox myResp hmem
  have hknown := (h.sound.known myCall (List.mem_of_getElem? hcall)).2 myResp hanswer
  have hsaved : ∀ x ∈ deserializeStates myResp.states, x ∈ s.theLastStates := fun x hx =>
    hknown x (ExtTreeMap.mem_keys.mpr (ExtTreeMap.mem_map.mp hx))
  obtain ⟨theLastStates, hsave, -⟩ := Client.saveStates_ok hsaved
  rw [recordStat, hsave]
  dsimp only
  split <;> exact ⟨_, rfl⟩

/-- What the threads of the client do themselves, other than to sleep. -/
def own : Event → Bool
  | .idle | .respond _ | .fail | .receive _ _ | .stop => false
  | _ => true

/-- The response to the request in flight reaches sendRequest() by the threads of the client alone. -/
theorem Kept.next_of_answered (h : Kept c s) (hstage : s.stage = .popping)
    (hstop : s.theStopFlag = false) (hzero : unanswered s.toLedger = 0) :
    ∃ e, own e = true ∧ ∃ s', c.step s e = some s' := by
  rcases Nat.eq_zero_or_pos s.theSendRequestQueue with hnone | hsome
  · cases hsaving : s.saving with
    | recording myResponse =>
      have hmem : myResponse ∈ held s := by simp [held, hsaving, Saving.held]
      obtain ⟨l, hl⟩ := h.recordable hmem 0
      refine ⟨.recordAsync 0, rfl, ?_⟩
      rw [SingleClient.step, hsaving]
      exact ⟨_, Option.map_eq_some_iff.mpr ⟨l, hl, rfl⟩⟩
    | pushing => exact ⟨.pushAsync, rfl, _, if_pos hsaving⟩
    | popping =>
      refine ⟨.take, rfl, ?_⟩
      cases hqueue : s.theQueue with
      | nil =>
        have htight := h.tight hstop (by rw [hstage]; decide)
        rw [held, unheard, hstage, hqueue, hsaving, hzero, hnone] at htight
        exact absurd htight (by decide)
      | cons myResponse theQueue =>
        rw [SingleClient.step, hsaving, hqueue]
        exact ⟨_, rfl⟩
  · exact ⟨.pop, rfl, _, if_pos ⟨hstage, hsome⟩⟩

/-- The client waits for nothing but the servers. -/
theorem Kept.next (h : Kept c s) : (∃ thrown, s.stage = .finished thrown) ∨ s.stage = .calling ∨
    (s.stage = .popping ∧ ∃ myCall ∈ s.theCalls, myCall.theAnswer = none) ∨
    ∃ e, own e = true ∧ ∃ s', c.step s e = some s' := by
  cases hstage : s.stage with
  | finished thrown => exact .inl ⟨thrown, rfl⟩
  | calling => exact .inr (.inl rfl)
  | looping =>
    refine .inr (.inr (.inr ?_))
    by_cases hloops : c.Loops s
    · exact ⟨.send 0 0, rfl, _, if_pos hloops⟩
    · exact ⟨.finish, rfl, _, if_pos ⟨hstage, hloops⟩⟩
  | recording myResp =>
    refine .inr (.inr (.inr ⟨.record 0, rfl, ?_⟩))
    have hmem : myResp ∈ held s := by simp [held, hstage, Stage.held]
    obtain ⟨l, hl⟩ := h.recordable hmem 0
    rw [SingleClient.step, hstage]
    exact ⟨_, Option.map_eq_some_iff.mpr ⟨l, hl, rfl⟩⟩
  | pushing => exact .inr (.inr (.inr ⟨.push, rfl, _, if_pos hstage⟩))
  | popping =>
    rcases Nat.eq_zero_or_pos (unanswered s.toLedger) with hzero | hpos
    · refine .inr (.inr (.inr ?_))
      cases hstop : s.theStopFlag with
      | false => exact h.next_of_answered hstage hstop hzero
      | true => exact ⟨.closed, rfl, _, if_pos ⟨hstop, .inr hstage⟩⟩
    · refine .inr (.inr (.inl ⟨rfl, ?_⟩))
      obtain ⟨myCall, hmem, hanswer⟩ := List.countP_pos_iff.mp hpos
      exact ⟨myCall, hmem, Option.isNone_iff_eq_none.mp hanswer⟩

def left (c : SingleClient) (s : Session) : ℕ :=
  9 * (c.theNumRequests - (s.myCounter + s.stage.inFlight)) + s.stage.left + 3 * s.theQueue.length +
    s.saving.left + 4 * unanswered s.toLedger + (!s.theStopFlag).toNat

def busy : Event → Bool
  | .idle => false
  | _ => true

theorem unanswered_recordStat {l l' : Ledger} {myResp : LambdaResponse} {now : ℚ}
    (h : c.recordStat myResp now l = some l') : unanswered l' = unanswered l := by
  obtain ⟨-, -, -, -, hcalls, -⟩ := recordStat_cases h
  rw [unanswered, hcalls, unanswered]

/-- Each step leaves less to do, except an iteration that only sleeps. -/
theorem Kept.left_lt (h : Kept c s) (hs : c.step s e = some s') (hbusy : busy e = true) :
    c.left s' < c.left s := by
  rcases s with ⟨l, stage, saving, myCounter, theStopFlag, theSendRequestQueue, theQueue⟩
  cases e with
  | idle => cases hbusy
  | send aSize now =>
    obtain ⟨⟨hstage, hless, -⟩, hs⟩ := Option.ite_none_right_eq_some.mp hs
    change stage = .looping at hstage
    change myCounter < c.theNumRequests at hless
    subst hstage
    cases hs
    rw [sendRequest]
    split
    · simp only [left, Stage.inFlight, Stage.left, Bool.toNat_true]
      omega
    · have hopen (myReq : LambdaRequest) : unanswered (ask myReq now l) = unanswered l + 1 := by
        rw [unanswered, ask, List.countP_append]
        rfl
      simp only [left, Stage.inFlight, Stage.left, hopen]
      omega
  | finish =>
    obtain ⟨⟨rfl, -⟩, hs⟩ := Option.ite_none_right_eq_some.mp hs
    cases hs
    simp only [left, Stage.inFlight, Stage.left, Bool.toNat_false]
    omega
  | respond myResp =>
    rw [SingleClient.step] at hs
    split at hs
    · next hstage =>
      change stage = .calling at hstage
      subst hstage
      split at hs
      · cases hs
        simp only [left, Stage.inFlight, Stage.left]
        omega
      · obtain ⟨l', hl, rfl⟩ := Option.map_eq_some_iff.mp hs
        obtain ⟨-, hzero, -⟩ := h.answered hl
        simp only [left, Stage.inFlight, Stage.left, hzero]
        omega
    · cases hs
  | fail =>
    obtain ⟨rfl, hs⟩ := Option.ite_none_right_eq_some.mp hs
    cases hs
    simp only [left, Stage.inFlight, Stage.left, Bool.toNat_true]
    omega
  | record now =>
    rw [SingleClient.step] at hs
    cases stage with
    | recording myResp =>
      obtain ⟨l', hl, rfl⟩ := Option.map_eq_some_iff.mp hs
      simp only [left, Stage.inFlight, Stage.left, unanswered_recordStat hl]
      omega
    | _ => cases hs
  | push =>
    obtain ⟨rfl, hs⟩ := Option.ite_none_right_eq_some.mp hs
    cases hs
    simp only [left, Stage.inFlight, Stage.left]
    omega
  | pop =>
    obtain ⟨⟨rfl, -⟩, hs⟩ := Option.ite_none_right_eq_some.mp hs
    cases hs
    simp only [left, Stage.inFlight, Stage.left]
    omega
  | receive n myResp =>
    obtain ⟨l', hl, rfl⟩ := Option.map_eq_some_iff.mp hs
    obtain ⟨-, hzero, -, hone, -⟩ := h.answered hl
    change unanswered l = 1 at hone
    simp only [left, hzero, hone, List.length_append, List.length_singleton]
    omega
  | take =>
    rw [SingleClient.step] at hs
    split at hs
    · next myResponse theQueue' hsaving hqueue =>
      change saving = .popping at hsaving
      change theQueue = _ at hqueue
      subst hsaving hqueue
      cases hs
      simp only [left, Saving.left, List.length_cons]
      omega
    · cases hs
  | recordAsync now =>
    rw [SingleClient.step] at hs
    cases saving with
    | recording myResponse =>
      obtain ⟨l', hl, rfl⟩ := Option.map_eq_some_iff.mp hs
      simp only [left, Saving.left, unanswered_recordStat hl]
      omega
    | _ => cases hs
  | pushAsync =>
    obtain ⟨rfl, hs⟩ := Option.ite_none_right_eq_some.mp hs
    cases hs
    simp only [left, Saving.left]
    omega
  | stop =>
    obtain ⟨rfl, hs⟩ := Option.ite_none_right_eq_some.mp hs
    cases hs
    simp only [left, Bool.not_true, Bool.not_false, Bool.toNat_true, Bool.toNat_false]
    omega
  | closed =>
    obtain ⟨⟨-, hstage⟩, hs⟩ := Option.ite_none_right_eq_some.mp hs
    cases hs
    change stage = .pushing ∨ stage = .popping at hstage
    rcases hstage with rfl | rfl
    all_goals
      simp only [left, Stage.inFlight, Stage.left, Bool.toNat_true]
      omega
  | closedAsync =>
    obtain ⟨⟨-, rfl⟩, hs⟩ := Option.ite_none_right_eq_some.mp hs
    cases hs
    simp only [left, Saving.left]
    omega

/-- Both hold throughout a run. -/
theorem kept_of_reaches {es : List Event} (h : Reaches c.step c.new es s) :
    Kept c s ∧ es.countP busy + c.left s ≤ 9 * c.theNumRequests + 2 := by
  refine h.keeps (I := fun es s => Kept c s ∧ es.countP busy + c.left s ≤ 9 * c.theNumRequests + 2)
    ⟨kept_new c, Nat.le_of_eq ?_⟩ fun es s e s' hkept hs => ⟨hkept.1.step hs, ?_⟩
  · show 0 + (9 * (c.theNumRequests - 0) + 1 + 3 * 0 + 0 + 4 * 0 + 1) = _
    omega
  · have hbound := hkept.2
    rw [List.countP_append, List.countP_singleton]
    split
    · next hbusy =>
      have hless := hkept.1.left_lt hs hbusy
      omega
    · next hidle =>
      cases e with
      | idle =>
        obtain ⟨-, hs⟩ := Option.ite_none_right_eq_some.mp hs
        cases hs
        exact hbound
      | _ => exact absurd rfl hidle

end Sessions

/-- A client has at most one request without a record, and after its last one none. It never does
more than there is to do, and until the end waits for nothing but a response. -/
theorem requests_recorded_in_order (c : SingleClient) (es : List Event) (s : Session)
    (h : Reaches c.step c.new es s) : Sound c s.toLedger ∧
      s.theRecords.length ≤ s.theCalls.length ∧ s.theCalls.length ≤ s.theRecords.length + 1 ∧
      s.theCalls.length ≤ c.theNumRequests ∧
      (s.stage = .finished false → s.theRecords.length = s.theCalls.length ∧
        (s.theStopFlag = true ∨ s.theRecords.length = c.theNumRequests)) ∧
      es.countP busy ≤ 9 * c.theNumRequests + 2 ∧
      ((∃ thrown, s.stage = .finished thrown) ∨ s.stage = .calling ∨
        (s.stage = .popping ∧ ∃ myCall ∈ s.theCalls, myCall.theAnswer = none) ∨
        ∃ e, own e = true ∧ ∃ s', c.step s e = some s') := by
  obtain ⟨hkept, hbound⟩ := kept_of_reaches h
  have hcount := hkept.count
  have hflight := hkept.flight
  have hone := inFlight_le s.stage
  have hcounter := hkept.counter
  have htotal := hkept.total
  refine ⟨hkept.sound, by omega, by omega, by omega, fun hstage => ?_, by omega, hkept.next⟩
  have hfull := hkept.full (by rw [hstage]; decide)
  rw [hstage, Stage.inFlight, Bool.toNat_false] at hflight hcounter htotal hfull
  refine ⟨by omega, (hkept.ended hstage).imp_right fun hended => ?_⟩
  omega


/-- One request for a function, to whose callback the response comes. -/
def oneRequest : SingleClient where
  theNumRequests := 1
  theMode := .function "lambda0"
  theCallback := "127.0.0.1:6480"
  theContent := ""
  theDry := false
  theStateSizes := ∅
  theStateEndpoint := ""
  aUuids _ := ""
  called h := by cases h

theorem requests_recorded_in_order_oneRequest : ∃ (es : List Event) (s : Session),
    Reaches oneRequest.step oneRequest.new es s ∧ es.length = 9 ∧ s.theRecords.length = 1 := by
  obtain ⟨s, hrun, hstage, hopen⟩ : ∃ s : Session,
      Reaches oneRequest.step oneRequest.new [.idle, .send 20 1, .respond { asynchronous := true },
        .receive 0 { retcode := "OK" }, .take, .recordAsync 3, .pushAsync, .pop, .finish] s ∧
        s.stage = .finished false ∧ s.theStopFlag = false := by
    refine ⟨_, reaches_cons.mpr ⟨_, rfl, reaches_cons.mpr ⟨_, rfl, reaches_cons.mpr ⟨_, rfl,
      reaches_cons.mpr ⟨_, rfl, reaches_cons.mpr ⟨_, rfl, reaches_cons.mpr ⟨_, rfl,
      reaches_cons.mpr ⟨_, rfl, reaches_cons.mpr ⟨_, rfl, reaches_cons.mpr ⟨_, rfl,
      reaches_nil.mpr rfl⟩⟩⟩⟩⟩⟩⟩⟩⟩, rfl, rfl⟩
  refine ⟨_, s, hrun, rfl, ?_⟩
  obtain ⟨-, -, -, -, hend, -⟩ := requests_recorded_in_order oneRequest _ s hrun
  refine (hend hstage).2.resolve_left fun hstop => ?_
  rw [hopen] at hstop
  cases hstop

end SingleClient

end ServerlessEdge.Simulation
