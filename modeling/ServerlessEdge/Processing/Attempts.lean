import ServerlessEdge.Processing.Retries
import Mathlib.Data.Finset.Card

/-! How many steps a request may still take. Each attempt takes a bounded number of
them, and at its end the table lists one destination less. -/
namespace ServerlessEdge.Processing
open Library Forwarding Triple
open Estimator (LambdaResponse)

namespace EdgeRouter

variable {P : Policy ℚ} {aReq : Rpc.LambdaRequest} {s s' : EdgeRouter P} {q : Request} {d : String}

/-- The destinations that the table of a request lists for its lambda. -/
def destinations (s : EdgeRouter P) (aReq : Rpc.LambdaRequest) : Finset String :=
  match (s.table aReq.forward).plain.theTable[aReq.name]? with
  | none => ∅
  | some e => (e.theDestinations.map Element.theDestination).toFinset

theorem mem_destinations :
    d ∈ s.destinations aReq ↔ (s.flags aReq.forward (aReq.name, d)).isSome := by
  rw [destinations, flags, ForwardingTable.flags, Option.isSome_map, ForwardingTable.find]
  cases (s.table aReq.forward).plain.theTable[aReq.name]? with
  | none => simp
  | some e => rw [List.mem_toFinset, Option.bind_some, e.find_isSome_iff]

theorem destinations_loses (h : Loses aReq.name s s') :
    s'.destinations aReq ⊆ s.destinations aReq := by
  intro d hd
  rw [mem_destinations, Option.isSome_iff_ne_none] at hd ⊢
  exact fun hnone => hd (h _ d hnone)

/-- An upper bound for the steps that a request still takes: seven for an attempt at
each destination listed, and those of the current one. -/
def remaining (s : EdgeRouter P) (q : Request) : ℕ :=
  let others (d : String) : ℕ := 7 * ((s.destinations q.aReq).erase d).card
  match q.phase with
  | .looping => 7 * (s.destinations q.aReq).card + 1
  | .chosen d => others d + 7
  | .waiting d => others d + 6
  | .served d _ _ => others d + 5
  | .failing d n => others d + (4 - min n 2)
  | .finished _ => 0

theorem over_of_remaining (h : remaining s q = 0) : q.Over := by
  cases hphase : q.phase with
  | finished ret => exact ⟨ret, hphase⟩
  | looping | chosen d | waiting d | served d ret t | failing d n =>
    simp only [remaining, hphase] at h
    omega

/-- The changes made by others do not add to it. -/
theorem remaining_loses (h : Loses q.aReq.name s s') : remaining s' q ≤ remaining s q := by
  have hall := destinations_loses h
  have hcard := Finset.card_le_card hall
  have hothers (d : String) := Finset.card_le_card (Finset.erase_subset_erase d hall)
  cases hphase : q.phase with
  | looping =>
    simp only [remaining, hphase]
    omega
  | chosen d | waiting d | served d _ _ | failing d _ =>
    have hd := hothers d
    simp only [remaining, hphase]
    omega
  | finished ret => simp only [remaining, hphase, le_refl]

theorem remaining_fail (hd : d ≠ "") (aErr : String) :
    remaining s (q.fail aErr d) = 7 * ((s.destinations q.aReq).erase d).card + 4 := by
  have hfail : q.fail aErr d = { q with myRetCode := aErr, phase := .failing d 0 } := by
    rw [Request.fail]
    exact if_neg hd
  rw [hfail]
  rfl

theorem remaining_received (hd : d ≠ "") (ret : LambdaResponse) (t : ℚ) :
    remaining s (received d ret t q) ≤ 7 * ((s.destinations q.aReq).erase d).card + 5 := by
  rw [received]
  split
  · exact le_rfl
  · rw [remaining_fail hd]
    exact Nat.le_succ _

section Steps

variable (conf : Conf) (key : ℕ) (i : Input (processor P))

/-- Every step of a request brings it closer to its end. -/
theorem remaining_process (h : Retried s q) (hchoice : q.phase = .looping → Chooses s q.aReq)
    (hover : ¬ q.Over) :
    remaining (P := P) (process conf key i s q).1 (process conf key i s q).2 < remaining s q := by
  have hl := (shrinks_process conf key i s q).loses q.aReq.name
  have hstage := h.stage
  cases hphase : q.phase with
  | looping =>
    have hnow : remaining s q = 7 * (s.destinations q.aReq).card + 1 := by
      simp only [remaining, hphase]
    rw [hnow]
    simp only [process, hphase] at hl ⊢
    split
    · exact Nat.succ_pos _
    next hhops =>
    rw [if_neg hhops] at hl
    cases hrun : (processor P).destination i.reading key q.aReq s with
    | ok d s' =>
      simp only [hrun] at hl
      obtain ⟨t, ht⟩ := destination_ok hrun
      have hd := mem_destinations.mpr (hchoice hphase _ d t ht)
      have hless := remaining_loses (q := { q with phase := .chosen d }) hl
      have hcard := Finset.card_erase_add_one hd
      simp only [remaining] at hless ⊢
      omega
    | error err s' => exact Nat.succ_pos _
  | chosen d =>
    simp only [Stage, hphase] at hstage
    have hnow : remaining s q = 7 * ((s.destinations q.aReq).erase d).card + 7 := by
      simp only [remaining, hphase]
    rw [hnow]
    simp only [process, hphase]
    split
    · have hreceived := remaining_received (s := s) (q := q) hstage.2.1 { retcode := "OK" }
        (1 / 1000 + i.random)
      exact Nat.lt_succ_of_le (hreceived.trans (Nat.le_succ _))
    · exact Nat.lt_succ_self _
  | waiting d =>
    simp only [Stage, hphase] at hstage
    have hnow : remaining s q = 7 * ((s.destinations q.aReq).erase d).card + 6 := by
      simp only [remaining, hphase]
    rw [hnow]
    simp only [process, hphase]
    cases i.outcome with
    | ok ret => exact Nat.lt_succ_of_le (remaining_received hstage.2 ret.1 ret.2)
    | error err =>
      rw [remaining_fail hstage.2]
      omega
  | served d ret t =>
    simp only [Stage, hphase] at hstage
    have hnow : remaining s q = 7 * ((s.destinations q.aReq).erase d).card + 5 := by
      simp only [remaining, hphase]
    rw [hnow]
    simp only [process, hphase] at hl ⊢
    cases hrun : (processor P).processSuccess i.reading key q.aReq d ret t s with
    | ok u s' => exact Nat.succ_pos _
    | error err s' =>
      simp only [hrun] at hl
      have hless := remaining_loses (q := q.fail err d)
        (by rwa [(Request.fail_phase err "" d q).2])
      rw [remaining_fail hstage.2.1] at hless
      exact Nat.lt_succ_of_le hless
  | failing d n =>
    simp only [Stage, hphase] at hstage
    obtain ⟨-, -, hoverall, hfinal⟩ := hstage
    have hnow : remaining s q = 7 * ((s.destinations q.aReq).erase d).card + (4 - min n 2) := by
      simp only [remaining, hphase]
    rw [hnow]
    simp only [process, hphase] at hl ⊢
    rcases n with _ | _ | n
    · have hless := remaining_loses (q := { q with phase := .failing d 1 }.act (.purged d)) hl
      exact Nat.lt_succ_of_le hless
    · have hless := remaining_loses (q := { q with phase := .failing d 2 }.act (.purged d)) hl
      exact Nat.lt_succ_of_le hless
    · have hgone : d ∉ s.destinations q.aReq := by
        rw [mem_destinations, Option.not_isSome_iff_eq_none]
        cases q.aReq.forward with
        | false => exact hoverall (by omega)
        | true => exact hfinal (by omega)
      rw [Finset.erase_eq_of_notMem hgone]
      show remaining s (if conf.theControllerClient then _ else _) < _
      split
      · exact Nat.add_lt_add_left (by omega) _
      · exact Nat.add_lt_add_left (by omega) _
  | finished ret => exact absurd ⟨ret, hphase⟩ hover

end Steps

section Run

/-- No destination is added for the lambda while the request is served, and no other
request takes its address. -/
def Undisturbed (key : ℕ) (l : String) (s : System (processor P)) :
    Processing.Event (processor P) → Prop
  | .arrive k _ => k ≠ key
  | .change e => Loses l s.theState (change e s.theState)
  | .advance _ _ => True

/-- The choices made for the request are in the table. -/
def Listing (key : ℕ) (s : System (processor P)) : Processing.Event (processor P) → Prop
  | .advance k _ => k = key → ∀ q : Request, s.theRequests[key]? = some q → q.phase = .looping →
    Chooses s.theState q.aReq
  | _ => True

/-- The event is a step of the request. -/
def advances (key : ℕ) : Processing.Event (processor P) → Bool
  | .advance k _ => k = key
  | _ => false

/-- The request has taken n steps, of which it has no more than the bound. -/
def Bounded (key : ℕ) (aReq : Rpc.LambdaRequest) (bound n : ℕ) (s : System (processor P)) : Prop :=
  ∃ q : Request, s.theRequests[key]? = some q ∧ q.aReq = aReq ∧ Retried s.theState q ∧
    (q.Over ∨ remaining s.theState q + n ≤ bound)

variable (conf : Conf) {key bound n : ℕ} {s : System (processor P)}

theorem Bounded.loses {s' : System (processor P)} (h : Bounded key aReq bound n s)
    (hsame : s'.theRequests[key]? = s.theRequests[key]?)
    (hl : Loses aReq.name s.theState s'.theState) : Bounded key aReq bound n s' := by
  obtain ⟨q, hq, rfl, hretried, hbound⟩ := h
  refine ⟨q, hsame.trans hq, rfl, hretried.loses hl, hbound.imp_right fun hle => ?_⟩
  exact (Nat.add_le_add_right (remaining_loses hl) n).trans hle

/-- Its own steps count, those of others do not matter. -/
theorem Bounded.step (h : Bounded key aReq bound n s) (hhops : aReq.hops ≤ 254)
    {e : Processing.Event (processor P)} (hothers : Undisturbed key aReq.name s e)
    (hchoice : Listing key s e) :
    Bounded key aReq bound (n + if advances key e then 1 else 0) (System.step conf s e) := by
  cases e with
  | arrive k aReq' =>
    refine h.loses ?_ ?_
    · simp only [System.step]
      split
      · rw [Maps.lookup_insert, if_neg (Ne.symm hothers)]
      · rfl
    · simp only [System.step]
      split
      · exact fun _ _ hnone => hnone
      · exact fun _ _ hnone => hnone
  | change e => exact h.loses rfl hothers
  | advance k i =>
    by_cases hk : k = key
    · subst hk
      obtain ⟨q, hq, rfl, hretried, hbound⟩ := h
      have hlooping := hchoice rfl q hq
      have hstep : System.step conf s (.advance k i) =
          ⟨(process conf k i s.theState q).1,
            s.theRequests.insert k (process conf k i s.theState q).2⟩ := by
        simp only [System.step, hq]
      rw [hstep]
      refine ⟨_, by rw [Maps.lookup_insert, if_pos rfl], (process_request conf k i _ q).1,
        hretried.process conf k i hhops hlooping, ?_⟩
      by_cases hover : q.Over
      · obtain ⟨ret, hphase⟩ := hover
        left
        simp only [process, hphase]
        exact ⟨ret, hphase⟩
      · right
        have hless := remaining_process conf k i hretried hlooping hover
        have hle := hbound.resolve_left hover
        simp only [advances, decide_true, if_true]
        omega
    · have hidle : advances key (.advance k i : Processing.Event (processor P)) = false :=
        decide_eq_false hk
      rw [hidle]
      cases hq : s.theRequests[k]? with
      | none =>
        have hsame : System.step conf s (.advance k i) = s := by simp only [System.step, hq]
        rw [hsame]
        exact h
      | some q =>
        have hstep : System.step conf s (.advance k i) =
            ⟨(process conf k i s.theState q).1,
              s.theRequests.insert k (process conf k i s.theState q).2⟩ := by
          simp only [System.step, hq]
        rw [hstep]
        refine h.loses ?_ ((shrinks_process conf k i s.theState q).loses aReq.name)
        rw [Maps.lookup_insert, if_neg (Ne.symm hk)]

/-- What one event does, a run does, by induction on its events. -/
theorem Bounded.final (hhops : aReq.hops ≤ 254) {events : List (Processing.Event (processor P))}
    (h : Bounded key aReq bound n s)
    (hothers : Runs.Along (System.step conf) (Undisturbed key aReq.name) s events)
    (hchoice : Runs.Along (System.step conf) (Listing key) s events) :
    Bounded key aReq bound (n + events.countP (advances key))
      (Runs.final (System.step conf) s events) := by
  induction events generalizing s n with
  | nil => exact h
  | cons e events ih =>
    have hnext := ih (h.step conf hhops hothers.1 hchoice.1) hothers.2 hchoice.2
    have hcount : n + (e :: events).countP (advances key) =
        n + (if advances key e then 1 else 0) + events.countP (advances key) := by
      rw [List.countP_cons]
      omega
    rw [hcount]
    exact hnext

end Run

section Reached

/-- No table lists the empty destination. -/
def Named (s : EdgeRouter P) : Prop := ∀ l, Gone s l ""

/-- A pair comes into a table only by a change of that pair that is not refused. -/
theorem flags_call {l : String} {f f' : Bool} {c : TypedTable.Call P}
    (hnone : s.flags f' (l, d) = none)
    (hc : f' = f → ∀ r w b, c = .change r l d w b → ForwardingTable.Refused d w) :
    (change (.call f c) s).flags f' (l, d) = none := by
  change ((s.setTable f ((s.table f).step c)).table f').plain.flags (l, d) = none
  rw [table_setTable]
  split
  · next hf =>
    subst hf
    rcases (s.table f').flags_step c (l, d) with hsame | hgone | ⟨r, l', d', w, b, hcall, hp, haccepted⟩
    · exact hsame.trans hnone
    · exact hgone
    · cases hp
      exact absurd (hc rfl r w b hcall) haccepted
  · exact hnone

/-- What is not a new destination of the lambda is no addition. -/
theorem loses_call {l : String} {f : Bool} {c : TypedTable.Call P}
    (hc : ∀ r d w b, c = .change r l d w b → ¬ ForwardingTable.Refused d w →
      (s.flags f (l, d)).isSome) : Loses l s (change (.call f c) s) := by
  intro f' d hnone
  apply flags_call hnone
  rintro rfl r w b hcall
  by_contra haccepted
  have hlisted := hc r d w b hcall haccepted
  rw [hnone] at hlisted
  cases hlisted

theorem loses_update (l : String) (f : Bool) (s : EdgeRouter P) :
    Loses l s (change (.update f) s) := by
  intro f' d hnone
  rw [change]
  split
  · rw [flags, table_setOptimizer]
    exact hnone
  · exact hnone

theorem Named.change (h : s.Named) (e : Event P) : (EdgeRouter.change e s).Named := by
  intro l
  cases e with
  | call f c => exact fun f' => flags_call (h l f') fun _ _ _ _ _ => .inr (.inl rfl)
  | update f => exact (h l).loses (loses_update l f s)

theorem named_step (conf : Conf) {s : System (processor P)} (h : s.theState.Named)
    (e : Processing.Event (processor P)) : (System.step conf s e).theState.Named := by
  refine System.theState_step conf (I := Named) (fun s e hs => hs.change e) ?_ h e
  exact fun s key i q hs l => (hs l).loses ((shrinks_process conf key i s q).loses l)

theorem good_step {L : Lists P} (conf : Conf) {s : System (processor P)} (h : s.theState.Good L)
    (e : Processing.Event (processor P)) : EdgeRouter.Good L (System.step conf s e).theState :=
  System.theState_step conf (I := Good L) (fun _ e hs => hs.change e)
    (fun _ key i q hs => hs.process conf key i q) h e

/-- A router with empty tables, after some run. -/
def reached (conf : Conf) (o o' : LocalOptimizer) (before : List (Processing.Event (processor P))) :
    System (processor P) :=
  Runs.final (System.step conf) (System.new (P := processor P) ⟨.new, o, .new, o'⟩) before

theorem named_reached (conf : Conf) (o o' : LocalOptimizer)
    (before : List (Processing.Event (processor P))) :
    Named (reached conf o o' before).theState := by
  have hnew : Named (⟨.new, o, .new, o'⟩ : EdgeRouter P) := fun l f => flags_new o o' f (l, "")
  have hrun := Runs.invariant (I := fun s : System (processor P) => Named s.theState)
    (fun s e h => named_step conf h e) before
    (s := System.new (P := processor P) ⟨.new, o, .new, o'⟩) hnew
  exact hrun _ (Runs.final_mem_states _ _ _)

theorem good_reached {L : Lists P} (conf : Conf) (o o' : LocalOptimizer)
    (before : List (Processing.Event (processor P))) :
    Good L (reached conf o o' before).theState := by
  have hnew : Good L (⟨.new, o, .new, o'⟩ : EdgeRouter P) := by
    intro f
    cases f <;> exact TypedTable.good_new
  exact Runs.invariant (I := fun s : System (processor P) => Good L s.theState)
    (fun s e h => good_step conf h e) before hnew _ (Runs.final_mem_states _ _ _)

end Reached

/-- How a request is served: it ends after a bounded number of steps, it is sent to no
destination twice, the answer is an error only if the table lists nothing, and the
destinations that failed are gone at the end. -/
structure Served (bound n : ℕ) (s : EdgeRouter P) (q : Request) : Prop where
  terminates : bound ≤ n → q.Over
  once : q.contacted.Nodup
  error : ∀ ret, q.phase = .finished ret → ret.retcode ≠ "OK" →
    ∀ d, s.flags q.aReq.forward (q.aReq.name, d) = none
  failed : q.Over → ∀ d ∈ q.contacted, (∀ ret, .returned d ret ∈ q.actions → ret.retcode ≠ "OK") →
    Gone s q.aReq.name d

/-- The least-impedance entry of the lambda, if it is one, is at a listed destination
whenever the request looks for one. -/
def Designates (num : TypedTable.Numerics ℚ) (theAlpha theBeta : ℚ) (aType : TypedTable.EntryType)
    (key : ℕ) (s : System (processor (aType.policy num theAlpha theBeta))) :
    Processing.Event (processor (aType.policy num theAlpha theBeta)) → Prop
  | .advance k _ => k = key → ∀ q : Request, s.theRequests[key]? = some q → q.phase = .looping →
    ∀ e, (EdgeRouter.table s.theState q.aReq.forward).theTable[q.aReq.name]? = some e →
      aType.Designates num theAlpha theBeta e
  | _ => True

theorem Bounded.served {key bound n : ℕ} {s : System (processor P)}
    (h : Bounded key aReq bound n s) : ∃ q : Request, s.theRequests[key]? = some q ∧ q.aReq = aReq ∧
      Served bound n s.theState q := by
  obtain ⟨q, hq, haReq, hretried, hbound⟩ := h
  have hstage := hretried.stage
  refine ⟨q, hq, haReq, fun hle => ?_, hretried.nodup, fun ret hphase hret => ?_, ?_⟩
  · rcases hbound with hover | hbound
    · exact hover
    · exact over_of_remaining (s := s.theState) (by omega)
  · simp only [Stage, hphase, if_neg hret] at hstage
    exact hstage.2
  · rintro ⟨ret, hphase⟩ d hd hfailed
    simp only [Stage, hphase] at hstage
    split at hstage
    · next hok =>
      obtain ⟨d', hreturned, hpurged⟩ := hstage
      refine hpurged d hd fun heq => ?_
      cases heq
      exact hfailed ret hreturned hok
    · exact hstage.1 d hd (Option.some_ne_none d)

variable {num : TypedTable.Numerics ℚ} {theAlpha theBeta : ℚ} {aType : TypedTable.EntryType}

theorem chooses_of_designates {s : EdgeRouter (aType.policy num theAlpha theBeta)}
    (hgood : ∀ h, s.Good (aType.lists num theAlpha theBeta h))
    (hmin : ∀ e, (s.table aReq.forward).theTable[aReq.name]? = some e →
      aType.Designates num theAlpha theBeta e) : Chooses s aReq := by
  intro r d t hok
  rw [flags, ForwardingTable.flags, Option.isSome_map]
  exact TypedTable.EntryType.operator_listed (fun h => hgood h aReq.forward) hmin hok

/-- After any run of a router of any type, a request is served as it should be while no
destination is added for its lambda, as long as no choice is made through an iterator
that is dangling. -/
theorem retries_end (num : TypedTable.Numerics ℚ) (theAlpha theBeta : ℚ)
    (aType : TypedTable.EntryType) (conf : Conf) (o o' : LocalOptimizer)
    (before events : List (Processing.Event (processor (aType.policy num theAlpha theBeta))))
    (key : ℕ) (aReq : Rpc.LambdaRequest) (hhops : aReq.hops ≤ 254)
    (hfree : ∀ q ∈ (reached conf o o' before).theRequests[key]?, q.Over)
    (hothers : Runs.Along (System.step conf) (Undisturbed key aReq.name)
      ((reached conf o o' before).step conf (.arrive key aReq)) events)
    (hmin : Runs.Along (System.step conf) (Designates num theAlpha theBeta aType key)
      ((reached conf o o' before).step conf (.arrive key aReq)) events) :
    let t := Runs.final (System.step conf) ((reached conf o o' before).step conf (.arrive key aReq)) events
    ∃ q : Request, t.theRequests[key]? = some q ∧ q.aReq = aReq ∧
      Served (7 * (destinations (reached conf o o' before).theState aReq).card + 1)
        (events.countP (advances key)) t.theState q := by
  have hgood (h : aType ≠ .LeastImpedance) := good_reached (L := aType.lists num theAlpha theBeta h)
    conf o o' before
  have hnamed := named_reached conf o o' before
  generalize reached conf o o' before = s at *
  have harrive : s.step conf (.arrive key aReq) =
      { s with theRequests := s.theRequests.insert key { aReq } } := if_pos hfree
  have hlisting : Runs.Along (System.step conf) (Listing key) (s.step conf (.arrive key aReq)) events := by
    refine Runs.Along.of_invariant
      (I := fun s => ∀ h, Good (aType.lists num theAlpha theBeta h) s.theState)
      (fun s e hs _ h => good_step conf (hs h) e) (fun s e hs he => ?_) ?_ hmin
    · cases e with
      | advance k i =>
        intro hk q hq hphase
        exact chooses_of_designates hs (he hk q hq hphase)
      | arrive k aReq' => trivial
      | change e => trivial
    · rw [harrive]
      exact hgood
  have hstart : Bounded key aReq (7 * (destinations s.theState aReq).card + 1) 0
      (s.step conf (.arrive key aReq)) := by
    rw [harrive]
    refine ⟨{ aReq }, ?_, rfl, ⟨List.nodup_nil, nofun, hnamed aReq.name⟩, .inr le_rfl⟩
    rw [Maps.lookup_insert, if_pos rfl]
  have hend := hstart.final conf hhops hothers hlisting
  rw [Nat.zero_add] at hend
  exact hend.served

section Inputs

private def randomPolicy : Policy ℚ := TypedTable.EntryType.policy TypedTable.rationals 1 1 .Random

private def leastPolicy : Policy ℚ :=
  TypedTable.EntryType.policy TypedTable.rationals 1 1 .LeastImpedance

private def answering (outcome : Except String (LambdaResponse × ℚ)) : Input (processor randomPolicy) where
  reading := ((0 : ℚ), 0)
  outcome := outcome
  random := 0

/-- Two destinations for a lambda. -/
private def twoDestinations (r : P.Reading) : List (Processing.Event (processor P)) :=
  [.change (.call false (.change r "lambda0" "a:1" 1 true)),
    .change (.call false (.change r "lambda0" "b:1" 2 true))]

/-- The first one fails and is removed by someone else as well, the other one answers. -/
private def failedOnce : List (Processing.Event (processor randomPolicy)) :=
  let failed : Processing.Event (processor randomPolicy) := .advance 0 (answering (.error "timeout"))
  let served : Processing.Event (processor randomPolicy) :=
    .advance 0 (answering (.ok ({ retcode := "OK" }, 1)))
  [failed, failed, failed, .change (.call false (.remove (0 : ℚ) "lambda0" "a:1")), failed, failed,
    failed, served, served, served, served]

theorem retries_end_answered :
    let t := Runs.final (System.step ⟨false, true⟩)
      ((reached ⟨false, true⟩ .asyncPF .asyncPF (twoDestinations (P := randomPolicy) (0 : ℚ))).step
        ⟨false, true⟩ (.arrive 0 { name := "lambda0" })) failedOnce
    ∃ q : Request, t.theRequests[0]? = some q ∧ q.aReq = { name := "lambda0" } ∧
      Served (7 * (destinations (reached ⟨false, true⟩ .asyncPF .asyncPF
        (twoDestinations (P := randomPolicy) (0 : ℚ))).theState { name := "lambda0" }).card + 1)
          (failedOnce.countP (advances 0)) t.theState q := by
  refine retries_end TypedTable.rationals 1 1 .Random ⟨false, true⟩ .asyncPF .asyncPF
    (twoDestinations (P := randomPolicy) (0 : ℚ)) failedOnce 0 { name := "lambda0" } (by decide)
    (by decide +kernel) ?_ ?_
  · exact ⟨trivial, trivial, trivial, loses_call nofun, trivial, trivial, trivial, trivial, trivial,
      trivial, trivial, trivial⟩
  · refine ⟨?_, ?_, ?_, ?_, ?_, ?_, ?_, ?_, ?_, ?_, ?_, trivial⟩
    case refine_4 => trivial
    all_goals exact fun _ _ _ _ _ _ => trivial

example : ((Runs.final (System.step ⟨false, true⟩)
    ((reached ⟨false, true⟩ .asyncPF .asyncPF (twoDestinations (P := randomPolicy) (0 : ℚ))).step
      ⟨false, true⟩ (.arrive 0 { name := "lambda0" })) failedOnce).theRequests[0]?).map
        (fun q => (q.contacted, q.phase)) =
      some (["a:1", "b:1"], .finished { retcode := "OK" }) := by decide +kernel

/-- The element that the iterator was at is freed when its destination fails, and the
freed memory is what the next attempt reads. -/
theorem freed_destination_contacted : ¬ ∀ (aType : TypedTable.EntryType) (conf : Conf)
    (o o' : LocalOptimizer)
    (before events : List (Processing.Event (processor (aType.policy TypedTable.rationals 1 1))))
    (key : ℕ) (aReq : Rpc.LambdaRequest), aReq.hops ≤ 254 →
    (∀ q ∈ (reached conf o o' before).theRequests[key]?, q.Over) →
    Runs.Along (System.step conf) (Undisturbed key aReq.name)
      ((reached conf o o' before).step conf (.arrive key aReq)) events →
    let t := Runs.final (System.step conf) ((reached conf o o' before).step conf (.arrive key aReq)) events
    ∃ q : Request, t.theRequests[key]? = some q ∧ q.aReq = aReq ∧
      Served (7 * (destinations (reached conf o o' before).theState aReq).card + 1)
        (events.countP (advances key)) t.theState q := by
  intro h
  let freed : Element ℚ := ⟨"a:1", 5, true⟩
  let failed : Input (processor leastPolicy) := ⟨(freed, 0), .error "timeout", 0⟩
  obtain ⟨q, hq, -, hserved⟩ := h .LeastImpedance ⟨false, true⟩ .asyncPF .asyncPF
    (twoDestinations (P := leastPolicy) freed) (List.replicate 8 (.advance 0 failed)) 0
    { name := "lambda0" } (by decide) (by decide +kernel)
    ⟨trivial, trivial, trivial, trivial, trivial, trivial, trivial, trivial, trivial⟩
  have hcontacted : ((Runs.final (System.step ⟨false, true⟩)
      ((reached ⟨false, true⟩ .asyncPF .asyncPF (twoDestinations (P := leastPolicy) freed)).step
        ⟨false, true⟩ (.arrive 0 { name := "lambda0" }))
      (List.replicate 8 (.advance 0 failed))).theRequests[0]?).map Request.contacted =
        some ["a:1", "a:1"] := by
    decide +kernel
  have htwice := Option.some.inj (hcontacted.symm.trans (congrArg (Option.map Request.contacted) hq))
  have honce := hserved.once
  rw [← htwice] at honce
  exact absurd honce (by decide)

end Inputs

end EdgeRouter
end ServerlessEdge.Processing
