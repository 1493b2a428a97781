import Mathlib.Data.List.Nodup
import Mathlib.Data.List.Induction
import ServerlessEdge.Library.Slots
import ServerlessEdge.Messages.LambdaRequest

/-! The server of lambda requests: threads take events from a completion queue, and an object
for each call of a client is created, holds the call while it is processed, and deletes itself
once the response has been sent. What the runtime does in between may happen in any order. -/
namespace ServerlessEdge.Processing.EdgeServerGrpc
open Library Slots

inductive CallStatus where
  | CREATE | PROCESS | FINISH
  deriving DecidableEq

/-- An object, and the call of a client that has been handed over to it. -/
structure CallData where
  theStatus : CallStatus
  theCall : Option ℕ
  theRequest : Rpc.LambdaRequest

/-- A thread has not begun yet, or waits for an event, or processes the call of an object. -/
inductive Handler where
  | starting
  | waiting
  | processing (aTag : ℕ)
  deriving DecidableEq

def Handler.tag : Handler → Option ℕ
  | .processing aTag => some aTag
  | _ => none

def Handler.started : Handler → Option Unit
  | .starting => none
  | _ => some ()

/-- The objects by their addresses, none where one has been deleted, the threads, and the runtime:
the objects for which it has been asked for a call and those whose responses it is to send, the
completion queue, the calls of the clients, those not handed over yet, and the responses. -/
structure Server where
  theObjects : List (Option CallData)
  theHandlers : List Handler
  theRequested : List ℕ
  theFinishing : List ℕ
  theCq : List (ℕ × Bool)
  theCalls : List Rpc.LambdaRequest
  thePending : List ℕ
  theResponses : List (ℕ × Rpc.LambdaResponse)

inductive Event where
  | start (aHandler : ℕ)
  | call (aReq : Rpc.LambdaRequest)
  | accept (aTag aCall : ℕ)
  | next (aHandler aTag : ℕ) (myOk : Bool)
  | respond (aHandler : ℕ)
  | sent (aTag : ℕ) (myOk : Bool)
  deriving DecidableEq

/-- What is answered to a request, where an exception may have been thrown by its processing. -/
def reply (aReq : Rpc.LambdaRequest) :
    Except (Option String) Rpc.LambdaResponse → Rpc.LambdaResponse
  | .ok myResponse => myResponse
  | .error (some what) => { retcode := "invalid '" ++ aReq.name ++ "' request: " ++ what }
  | .error none => { retcode := "invalid '" ++ aReq.name ++ "' request: unknown reasons" }

namespace Server

/-- A server with that many threads. -/
def new (aNumThreads : ℕ) : Server :=
  ⟨[], List.replicate aNumThreads .starting, [], [], [], [], [], []⟩

/-- A new object, which asks for a call right away. -/
def create (s : Server) : Server :=
  { s with
    theObjects := s.theObjects ++ [some ⟨.PROCESS, none, {}⟩]
    theRequested := s.theRequested ++ [s.theObjects.length] }

def setHandler (s : Server) (aHandler : ℕ) (h : Handler) : Server :=
  { s with theHandlers := s.theHandlers.set aHandler h }

def setObject (s : Server) (aTag : ℕ) (o : Option CallData) : Server :=
  { s with theObjects := s.theObjects.set aTag o }

/-- The objects whose calls are being processed. -/
def processing (s : Server) : List ℕ := s.theHandlers.filterMap Handler.tag

variable (process : ℕ → Rpc.LambdaRequest → Except (Option String) Rpc.LambdaResponse)

/-- The call is answered, by what processing its request returns this time. -/
def answer (s : Server) (aHandler aTag aCall : ℕ) (c : CallData) : Server :=
  { (s.setHandler aHandler .waiting).setObject aTag (some { c with theStatus := .FINISH }) with
    theFinishing := s.theFinishing ++ [aTag]
    theResponses := s.theResponses ++
      [(aCall, reply c.theRequest (process s.theResponses.length c.theRequest))] }

def step (s : Server) : Event → Option Server
  | .start aHandler =>
    match s.theHandlers[aHandler]? with
    | some .starting => some (s.setHandler aHandler .waiting).create
    | _ => none
  | .call aReq =>
    some { s with theCalls := s.theCalls ++ [aReq], thePending := s.thePending ++ [s.theCalls.length] }
  | .accept aTag aCall =>
    match s.theObjects[aTag]?, s.theCalls[aCall]? with
    | some (some c), some aReq =>
      if aTag ∈ s.theRequested ∧ aCall ∈ s.thePending then
        some { s.setObject aTag (some { c with theCall := some aCall, theRequest := aReq }) with
          theRequested := s.theRequested.erase aTag
          thePending := s.thePending.erase aCall
          theCq := s.theCq ++ [(aTag, true)] }
      else none
    | _, _ => none
  | .next aHandler aTag myOk =>
    if s.theHandlers[aHandler]? = some .waiting ∧ (aTag, myOk) ∈ s.theCq then
      let s' := { s with theCq := s.theCq.erase (aTag, myOk) }
      match myOk, s.theObjects[aTag]? with
      -- the event is dropped
      | false, _ => some s'
      | true, some (some c) =>
        match c.theStatus with
        | .FINISH => some (s'.setObject aTag none)
        | .PROCESS => some (s'.setHandler aHandler (.processing aTag)).create
        | .CREATE => none
      -- the object has been deleted
      | true, _ => none
    else none
  | .respond aHandler =>
    match s.theHandlers[aHandler]? with
    | some (.processing aTag) =>
      match s.theObjects[aTag]? with
      | some (some c) => c.theCall.map fun aCall => s.answer process aHandler aTag aCall c
      | _ => none
    | _ => none
  | .sent aTag myOk =>
    if aTag ∈ s.theFinishing then
      some { s with theFinishing := s.theFinishing.erase aTag, theCq := s.theCq ++ [(aTag, myOk)] }
    else none

/-- What an event does to a server. -/
inductive Step (s : Server) : Event → Server → Prop where
  | start {h : ℕ} (hh : s.theHandlers[h]? = some .starting) :
      Step s (.start h) (s.setHandler h .waiting).create
  | call (aReq : Rpc.LambdaRequest) : Step s (.call aReq)
      { s with theCalls := s.theCalls ++ [aReq], thePending := s.thePending ++ [s.theCalls.length] }
  | accept {t r : ℕ} {c : CallData} {aReq : Rpc.LambdaRequest}
      (ht : s.theObjects[t]? = some (some c)) (hr : s.theCalls[r]? = some aReq)
      (hrequested : t ∈ s.theRequested) (hpending : r ∈ s.thePending) : Step s (.accept t r)
      { s.setObject t (some { c with theCall := some r, theRequest := aReq }) with
        theRequested := s.theRequested.erase t
        thePending := s.thePending.erase r
        theCq := s.theCq ++ [(t, true)] }
  | drop {h t : ℕ} (hh : s.theHandlers[h]? = some .waiting) (hcq : (t, false) ∈ s.theCq) :
      Step s (.next h t false) { s with theCq := s.theCq.erase (t, false) }
  | delete {h t : ℕ} {c : CallData} (hh : s.theHandlers[h]? = some .waiting)
      (hcq : (t, true) ∈ s.theCq) (ht : s.theObjects[t]? = some (some c))
      (hc : c.theStatus = .FINISH) :
      Step s (.next h t true) ({ s with theCq := s.theCq.erase (t, true) }.setObject t none)
  | process {h t : ℕ} {c : CallData} (hh : s.theHandlers[h]? = some .waiting)
      (hcq : (t, true) ∈ s.theCq) (ht : s.theObjects[t]? = some (some c))
      (hc : c.theStatus = .PROCESS) : Step s (.next h t true)
      ({ s with theCq := s.theCq.erase (t, true) }.setHandler h (.processing t)).create
  | respond {h t r : ℕ} {c : CallData} (hh : s.theHandlers[h]? = some (.processing t))
      (ht : s.theObjects[t]? = some (some c)) (hr : c.theCall = some r) :
      Step s (.respond h) (s.answer process h t r c)
  | sent {t : ℕ} (ok : Bool) (ht : t ∈ s.theFinishing) : Step s (.sent t ok)
      { s with theFinishing := s.theFinishing.erase t, theCq := s.theCq ++ [(t, ok)] }

variable {process}

theorem step_of_eq_some {s s' : Server} {e : Event} (h : step process s e = some s') :
    Step process s e s' := by
  cases e with
  | start aHandler =>
    rw [step] at h
    split at h
    · rename_i hh
      cases h
      exact .start hh
    · cases h
  | call aReq =>
    cases h
    exact .call aReq
  | accept aTag aCall =>
    rw [step] at h
    split at h
    · rename_i c aReq ht hr
      rw [Option.ite_none_right_eq_some] at h
      obtain ⟨⟨hrequested, hpending⟩, h⟩ := h
      cases h
      exact .accept ht hr hrequested hpending
    · cases h
  | next aHandler aTag myOk =>
    rw [step, Option.ite_none_right_eq_some] at h
    obtain ⟨⟨hh, hcq⟩, h⟩ := h
    split at h
    · cases h
      exact .drop hh hcq
    · rename_i c ht
      split at h
      · rename_i hc
        cases h
        exact .delete hh hcq ht hc
      · rename_i hc
        cases h
        exact .process hh hcq ht hc
      · cases h
    · cases h
  | respond aHandler =>
    rw [step] at h
    split at h
    · rename_i t hh
      split at h
      · rename_i c ht
        obtain ⟨r, hr, rfl⟩ := Option.map_eq_some_iff.mp h
        exact .respond hh ht hr
      · cases h
    · cases h
  | sent aTag myOk =>
    rw [step, Option.ite_none_right_eq_some] at h
    obtain ⟨ht, h⟩ := h
    cases h
    exact .sent myOk ht

section Places

/-- How often an object is where it waits for a call, in the queue, with a thread, or where its
response is being sent. -/
def asked (s : Server) (t : ℕ) : ℕ := s.theRequested.count t

def queued (s : Server) (t : ℕ) (ok : Bool) : ℕ := s.theCq.count (t, ok)

def busy (s : Server) (t : ℕ) : ℕ := s.processing.count t

def finishing (s : Server) (t : ℕ) : ℕ := s.theFinishing.count t

/-- The object at an address, where it is processing a call of which the request is right. -/
def Holds (s : Server) (t : ℕ) : Prop := ∃ r q,
  s.theObjects[t]? = some (some ⟨.PROCESS, some r, q⟩) ∧ s.theCalls[r]? = some q

def Over (s : Server) (t : ℕ) : Prop := ∃ r q, s.theObjects[t]? = some (some ⟨.FINISH, r, q⟩)

/-- An address is in one place at most, and it is the one where its object belongs. -/
structure Placed (s : Server) (t : ℕ) : Prop where
  one : s.asked t + s.queued t true + s.queued t false + s.busy t + s.finishing t ≤ 1
  asks : 0 < s.asked t ↔ ∃ q, s.theObjects[t]? = some (some ⟨.PROCESS, none, q⟩)
  held : ∀ r q, s.theObjects[t]? = some (some ⟨.PROCESS, some r, q⟩) → 0 < s.queued t true ∨ 0 < s.busy t
  queue : 0 < s.queued t true → Holds s t ∨ Over s t
  failed : 0 < s.queued t false → Over s t
  busy : 0 < s.busy t → Holds s t
  finish : 0 < s.finishing t → Over s t
  created : ∀ r q, s.theObjects[t]? ≠ some (some ⟨.CREATE, r, q⟩)

theorem asked_pos {s : Server} {t : ℕ} : 0 < s.asked t ↔ t ∈ s.theRequested := List.count_pos_iff

theorem queued_pos {s : Server} {t : ℕ} {ok : Bool} : 0 < s.queued t ok ↔ (t, ok) ∈ s.theCq :=
  List.count_pos_iff

theorem busy_pos {s : Server} {t : ℕ} : 0 < s.busy t ↔ t ∈ s.processing := List.count_pos_iff

theorem finishing_pos {s : Server} {t : ℕ} : 0 < s.finishing t ↔ t ∈ s.theFinishing :=
  List.count_pos_iff

/-- Nothing changes for the object at an address. -/
structure Same (s s' : Server) (t : ℕ) : Prop where
  object : s'.theObjects[t]? = s.theObjects[t]?
  asked : s'.asked t = s.asked t
  queued : ∀ ok, s'.queued t ok = s.queued t ok
  busy : s'.busy t = s.busy t
  finishing : s'.finishing t = s.finishing t
  calls : ∀ (r : ℕ) (q : Rpc.LambdaRequest), s.theCalls[r]? = some q → s'.theCalls[r]? = some q

variable {s s' : Server} {t : ℕ}

theorem Same.holds (h : Same s s' t) (hs : Holds s t) : Holds s' t := by
  obtain ⟨r, q, hobject, hcall⟩ := hs
  exact ⟨r, q, h.object.trans hobject, h.calls r q hcall⟩

theorem Same.over (h : Same s s' t) (hs : Over s t) : Over s' t := by
  obtain ⟨r, q, hobject⟩ := hs
  exact ⟨r, q, h.object.trans hobject⟩

theorem Same.placed (h : Same s s' t) (hs : Placed s t) : Placed s' t where
  one := by
    rw [h.asked, h.queued, h.queued, h.busy, h.finishing]
    exact hs.one
  asks := by
    rw [h.asked, h.object]
    exact hs.asks
  held := by
    rw [h.queued, h.busy, h.object]
    exact hs.held
  queue := by
    rw [h.queued]
    exact fun hpos => (hs.queue hpos).imp h.holds h.over
  failed := by
    rw [h.queued]
    exact fun hpos => h.over (hs.failed hpos)
  busy := by
    rw [h.busy]
    exact fun hpos => h.holds (hs.busy hpos)
  finish := by
    rw [h.finishing]
    exact fun hpos => h.over (hs.finish hpos)
  created := by
    rw [h.object]
    exact hs.created

/-- Where there is no object, its address is nowhere. -/
theorem Placed.nowhere (h : Placed s t) (hnone : ∀ c, s.theObjects[t]? ≠ some (some c)) :
    s.asked t = 0 ∧ (∀ ok, s.queued t ok = 0) ∧ s.busy t = 0 ∧ s.finishing t = 0 := by
  have hholds : ¬ Holds s t := by
    rintro ⟨r, q, hobject, -⟩
    exact hnone _ hobject
  have hover : ¬ Over s t := by
    rintro ⟨r, q, hobject⟩
    exact hnone _ hobject
  refine ⟨?_, fun ok => ?_, ?_, ?_⟩
  · by_contra hne
    obtain ⟨q, hobject⟩ := h.asks.mp (Nat.pos_of_ne_zero hne)
    exact hnone _ hobject
  · by_contra hne
    cases ok with
    | false => exact hover (h.failed (Nat.pos_of_ne_zero hne))
    | true => exact (h.queue (Nat.pos_of_ne_zero hne)).elim hholds hover
  · by_contra hne
    exact hholds (h.busy (Nat.pos_of_ne_zero hne))
  · by_contra hne
    exact hover (h.finish (Nat.pos_of_ne_zero hne))

theorem placed_create (h : ∀ t, Placed s t) (t : ℕ) : Placed s.create t := by
  have hasked : s.create.asked t = s.asked t + if s.theObjects.length = t then 1 else 0 := by
    rw [asked, create, List.count_append, List.count_singleton]
    simp [asked]
  rcases Nat.lt_trichotomy t s.theObjects.length with hlt | rfl | hgt
  · have hsame : Same s s.create t := by
      refine ⟨List.getElem?_append_left hlt, ?_, fun _ => rfl, rfl, rfl, fun _ _ => id⟩
      rw [hasked, if_neg (Nat.ne_of_gt hlt), Nat.add_zero]
    exact hsame.placed (h t)
  · have hnone : s.theObjects[s.theObjects.length]? = none := List.getElem?_eq_none (Nat.le_refl _)
    obtain ⟨ha, hq, hb, hf⟩ := (h s.theObjects.length).nowhere (by simp)
    have hnew : s.create.theObjects[s.theObjects.length]? = some (some ⟨.PROCESS, none, {}⟩) := by
      rw [create, List.getElem?_append_right (Nat.le_refl _), Nat.sub_self]
      rfl
    have hone : s.create.asked s.theObjects.length = 1 := by rw [hasked, ha, if_pos rfl]
    have hqueue : ∀ ok, s.create.queued s.theObjects.length ok = 0 := hq
    have hbusy : s.create.busy s.theObjects.length = 0 := hb
    have hfinish : s.create.finishing s.theObjects.length = 0 := hf
    refine ⟨?_, ?_, ?_, ?_, ?_, ?_, ?_, ?_⟩
    · rw [hone, hqueue, hqueue, hbusy, hfinish]
    · rw [hone, hnew]
      exact iff_of_true Nat.one_pos ⟨_, rfl⟩
    · intro r q hobject
      rw [hnew] at hobject
      cases hobject
    · rw [hqueue]
      exact fun hpos => absurd hpos (Nat.lt_irrefl 0)
    · rw [hqueue]
      exact fun hpos => absurd hpos (Nat.lt_irrefl 0)
    · rw [hbusy]
      exact fun hpos => absurd hpos (Nat.lt_irrefl 0)
    · rw [hfinish]
      exact fun hpos => absurd hpos (Nat.lt_irrefl 0)
    · intro r q hobject
      rw [hnew] at hobject
      cases hobject
  · have hlength : s.create.theObjects.length ≤ t := by
      rw [create, List.length_append, List.length_singleton]
      exact hgt
    have hsame : Same s s.create t := by
      refine ⟨?_, ?_, fun _ => rfl, rfl, rfl, fun _ _ => id⟩
      · rw [List.getElem?_eq_none hlength, List.getElem?_eq_none (Nat.le_of_lt hgt)]
      · rw [hasked, if_neg (Nat.ne_of_lt hgt), Nat.add_zero]
    exact hsame.placed (h t)

theorem placed_over (h : Over s t) (hasked : s.asked t = 0) (hbusy : s.busy t = 0)
    (hone : s.queued t true + s.queued t false + s.finishing t ≤ 1) : Placed s t := by
  obtain ⟨r, q, hobject⟩ := h
  refine ⟨by omega, ?_, ?_, fun _ => .inr ⟨r, q, hobject⟩, fun _ => ⟨r, q, hobject⟩, ?_,
    fun _ => ⟨r, q, hobject⟩, ?_⟩
  · rw [hasked, hobject]
    exact iff_of_false (Nat.lt_irrefl 0) (by simp)
  · intro r' q' hobject'
    rw [hobject] at hobject'
    cases hobject'
  · intro hpos
    omega
  · intro r' q' hobject'
    rw [hobject] at hobject'
    cases hobject'

theorem placed_holds (h : Holds s t) (hasked : s.asked t = 0) (hfailed : s.queued t false = 0)
    (hfinishing : s.finishing t = 0) (hone : s.queued t true + s.busy t = 1) : Placed s t := by
  obtain ⟨r, q, hobject, hcall⟩ := h
  refine ⟨by omega, ?_, fun _ _ _ => by omega, fun _ => .inl ⟨r, q, hobject, hcall⟩, fun _ => by omega,
    fun _ => ⟨r, q, hobject, hcall⟩, fun _ => by omega, ?_⟩
  · rw [hasked, hobject]
    exact iff_of_false (Nat.lt_irrefl 0) (by simp)
  · intro r' q' hobject'
    rw [hobject] at hobject'
    cases hobject'

theorem placed_nowhere (h : ∀ c, s.theObjects[t]? ≠ some (some c)) (hasked : s.asked t = 0)
    (hqueued : ∀ ok, s.queued t ok = 0) (hbusy : s.busy t = 0) (hfinishing : s.finishing t = 0) :
    Placed s t := by
  refine ⟨by rw [hasked, hqueued, hqueued, hbusy, hfinishing]; exact Nat.zero_le 1, ?_,
    fun r q hobject => absurd hobject (h _), ?_, ?_, ?_, ?_, fun r q => h _⟩
  · rw [hasked]
    refine iff_of_false (Nat.lt_irrefl 0) ?_
    rintro ⟨q, hobject⟩
    exact h _ hobject
  · rw [hqueued]
    exact fun hpos => absurd hpos (Nat.lt_irrefl 0)
  · rw [hqueued]
    exact fun hpos => absurd hpos (Nat.lt_irrefl 0)
  · rw [hbusy]
    exact fun hpos => absurd hpos (Nat.lt_irrefl 0)
  · rw [hfinishing]
    exact fun hpos => absurd hpos (Nat.lt_irrefl 0)

theorem busy_setHandler {h : ℕ} {x : Handler} (hh : s.theHandlers[h]? = some x) (y : Handler) (t : ℕ) :
    x.tag.toList.count t + (s.setHandler h y).busy t = y.tag.toList.count t + s.busy t :=
  count_filterMap_set hh t

theorem count_append_singleton {α : Type} [DecidableEq α] [BEq α] [LawfulBEq α] (l : List α) (a b : α) :
    (l ++ [a]).count b = l.count b + if a = b then 1 else 0 := by
  rw [List.count_append, List.count_singleton]
  simp

theorem count_erase_add {α : Type} [DecidableEq α] [BEq α] [LawfulBEq α] {l : List α} {a : α}
    (h : a ∈ l) (b : α) :
    (l.erase a).count b + (if a = b then 1 else 0) = l.count b := by
  rw [(List.perm_cons_erase h).count_eq b, List.count_cons]
  simp

theorem getElem?_setObject (o : Option CallData) (t' : ℕ) (hlt : t < s.theObjects.length) :
    (s.setObject t o).theObjects[t']? = if t = t' then some o else s.theObjects[t']? := by
  rw [setObject, List.getElem?_set, if_pos hlt]

theorem placed_step {e : Event} (h : ∀ t, Placed s t) (he : Step process s e s') : ∀ t, Placed s' t := by
  cases he with
  | @start k hh =>
    refine placed_create fun t => Same.placed (s := s) ⟨rfl, rfl, fun _ => rfl, ?_, rfl, fun _ _ => id⟩ (h t)
    have hbusy := busy_setHandler hh .waiting t
    simpa only [Handler.tag, Option.toList_none, List.count_nil, Nat.zero_add] using hbusy
  | call aReq =>
    intro t
    refine Same.placed (s := s) ⟨rfl, rfl, fun _ => rfl, rfl, rfl, fun r q hcall => ?_⟩ (h t)
    rw [List.getElem?_append_left (List.getElem?_eq_some_iff.mp hcall).1]
    exact hcall
  | @accept t r c aReq ht hr hrequested hpending =>
    intro t'
    have hlt := (List.getElem?_eq_some_iff.mp ht).1
    have hobjects := getElem?_setObject (s := s) (some { c with theCall := some r, theRequest := aReq })
      t' hlt
    have hasked := count_erase_add hrequested t'
    have hqueued := fun ok => count_append_singleton s.theCq (t, true) (t', ok)
    by_cases htt : t = t'
    · subst htt
      have hpos := asked_pos.mpr hrequested
      have hone := (h t).one
      obtain ⟨q, hobject⟩ := (h t).asks.mp hpos
      rw [ht] at hobject
      cases hobject
      rw [if_pos rfl] at hobjects hasked
      have htrue := hqueued true
      have hfalse := hqueued false
      rw [if_pos rfl] at htrue
      rw [if_neg (by simp)] at hfalse
      refine placed_holds ⟨r, aReq, hobjects, hr⟩ ?_ ?_ ?_ ?_ <;>
        simp only [asked, queued, busy, finishing, setObject, processing] at * <;> omega
    · rw [if_neg htt] at hobjects hasked
      refine Same.placed (s := s) ⟨hobjects, hasked, fun ok => ?_, rfl, rfl, fun _ _ => id⟩ (h t')
      have hcount := hqueued ok
      rw [if_neg (by simp [htt])] at hcount
      exact hcount
  | @drop k t hh hcq =>
    intro t'
    have hqueued := fun ok => count_erase_add hcq (t', ok)
    by_cases htt : t = t'
    · subst htt
      have hone := (h t).one
      have hover := (h t).failed (queued_pos.mpr hcq)
      have htrue := hqueued true
      have hfalse := hqueued false
      rw [if_neg (by simp)] at htrue
      rw [if_pos rfl] at hfalse
      refine placed_over hover ?_ ?_ ?_ <;>
        simp only [asked, queued, busy, finishing, processing] at * <;> omega
    · refine Same.placed (s := s) ⟨rfl, rfl, fun ok => ?_, rfl, rfl, fun _ _ => id⟩ (h t')
      have hcount := hqueued ok
      rw [if_neg (by simp [htt])] at hcount
      exact hcount
  | @delete k t c hh hcq ht hc =>
    intro t'
    have hlt := (List.getElem?_eq_some_iff.mp ht).1
    have hobjects := getElem?_setObject (s := { s with theCq := s.theCq.erase (t, true) }) none t' hlt
    have hqueued := fun ok => count_erase_add hcq (t', ok)
    by_cases htt : t = t'
    · subst htt
      have hone := (h t).one
      have hpos := queued_pos.mpr hcq
      have htrue := hqueued true
      have hfalse := hqueued false
      rw [if_pos rfl] at htrue hobjects
      rw [if_neg (by simp)] at hfalse
      refine placed_nowhere (by rw [hobjects]; simp) ?_ ?_ ?_ ?_
      · simp only [asked, queued, busy, finishing, processing, setObject] at *
        omega
      · intro ok
        cases ok <;> simp only [asked, queued, busy, finishing, processing, setObject] at * <;> omega
      · simp only [asked, queued, busy, finishing, processing, setObject] at *
        omega
      · simp only [asked, queued, busy, finishing, processing, setObject] at *
        omega
    · rw [if_neg htt] at hobjects
      refine Same.placed (s := s) ⟨hobjects, rfl, fun ok => ?_, rfl, rfl, fun _ _ => id⟩ (h t')
      have hcount := hqueued ok
      rw [if_neg (by simp [htt])] at hcount
      exact hcount
  | @process k t c hh hcq ht hc =>
    refine placed_create fun t' => ?_
    have hqueued := fun ok => count_erase_add hcq (t', ok)
    have hbusy := busy_setHandler (s := { s with theCq := s.theCq.erase (t, true) }) hh
      (.processing t) t'
    by_cases htt : t = t'
    · subst htt
      have hone := (h t).one
      have hholds : Holds s t := by
        refine ((h t).queue (queued_pos.mpr hcq)).resolve_right ?_
        rintro ⟨r, q, hobject⟩
        rw [ht] at hobject
        cases hobject
        cases hc
      have hpos := queued_pos.mpr hcq
      have htrue := hqueued true
      have hfalse := hqueued false
      rw [if_pos rfl] at htrue
      rw [if_neg (by simp)] at hfalse
      simp only [Handler.tag, Option.toList_none, Option.toList_some, List.count_nil,
        List.count_singleton_self] at hbusy
      refine placed_holds hholds ?_ ?_ ?_ ?_ <;>
        simp only [asked, queued, finishing, busy, processing, setHandler] at * <;> omega
    · refine Same.placed (s := s) ⟨rfl, rfl, fun ok => ?_, ?_, rfl, fun _ _ => id⟩ (h t')
      · have hcount := hqueued ok
        rw [if_neg (by simp [htt])] at hcount
        exact hcount
      · simp [Handler.tag, htt] at hbusy
        exact hbusy
  | @respond k t r c hh ht hr =>
    intro t'
    have hlt := (List.getElem?_eq_some_iff.mp ht).1
    have hobjects := getElem?_setObject (s := s.setHandler k .waiting)
      (some { c with theStatus := .FINISH }) t' hlt
    have hbusy := busy_setHandler hh .waiting t'
    have hfinishing := count_append_singleton s.theFinishing t t'
    by_cases htt : t = t'
    · subst htt
      have hone := (h t).one
      rw [if_pos rfl] at hobjects hfinishing
      simp only [Handler.tag, Option.toList_none, Option.toList_some, List.count_nil,
        List.count_singleton_self] at hbusy
      refine placed_over ⟨_, _, hobjects⟩ ?_ ?_ ?_ <;>
        simp only [asked, queued, finishing, busy, processing, setHandler, setObject, answer] at * <;>
        omega
    · rw [if_neg htt] at hobjects hfinishing
      refine Same.placed (s := s) ⟨hobjects, rfl, fun _ => rfl, ?_, hfinishing, fun _ _ => id⟩ (h t')
      simp [Handler.tag, htt] at hbusy
      exact hbusy
  | @sent t ok ht =>
    intro t'
    have hfinishing := count_erase_add ht t'
    have hqueued := fun ok' => count_append_singleton s.theCq (t, ok) (t', ok')
    by_cases htt : t = t'
    · subst htt
      have hone := (h t).one
      have hover := (h t).finish (finishing_pos.mpr ht)
      rw [if_pos rfl] at hfinishing
      have htrue := hqueued true
      have hfalse := hqueued false
      refine placed_over hover ?_ ?_ ?_ <;> cases ok <;>
        simp only [asked, queued, finishing, busy, processing, Prod.mk.injEq, true_and,
          reduceCtorEq, if_true, if_false] at * <;> omega
    · rw [if_neg htt] at hfinishing
      refine Same.placed (s := s) ⟨rfl, rfl, fun ok' => ?_, rfl, hfinishing, fun _ _ => id⟩ (h t')
      have hcount := hqueued ok'
      rw [if_neg (by simp [htt])] at hcount
      exact hcount

end Places

end Server

end ServerlessEdge.Processing.EdgeServerGrpc
