import ServerlessEdge.Library.Steps
import ServerlessEdge.Processing.EdgeServerGrpc

/-! What becomes of the calls that a server is sent, in whatever order the threads and the runtime
do what they do: each is in one place, and ends up there where it has been answered once. -/
namespace ServerlessEdge.Processing.EdgeServerGrpc
open Library Slots

/-- The call that an object has not answered yet. -/
def holding : Option CallData → Option ℕ
  | some c => if c.theStatus = .PROCESS then c.theCall else none
  | none => none

/-- The runtime could not send a response. -/
def Event.unsent : Event → Bool
  | .sent _ myOk => !myOk
  | _ => false

/-- What a client asks for. -/
def Event.request : Event → Option Rpc.LambdaRequest
  | .call aReq => some aReq
  | _ => none

namespace Server

def held (s : Server) : List ℕ := s.theObjects.filterMap holding

def answered (s : Server) : List ℕ := s.theResponses.map Prod.fst

/-- The objects that have not been deleted. -/
def live (s : Server) : List CallData := s.theObjects.filterMap id

def started (s : Server) : List Unit := s.theHandlers.filterMap Handler.started

/-- The events in the queue that will not be dropped. -/
def good (s : Server) : ℕ := s.theCq.countP Prod.snd

variable {process : ℕ → Rpc.LambdaRequest → Except (Option String) Rpc.LambdaResponse}
  {s s' : Server} {t k : ℕ} {e : Event}

section Fields

@[simp] theorem held_create (s : Server) : s.create.held = s.held := by
  rw [held, create, List.filterMap_append]
  simp [holding, held]

@[simp] theorem live_create (s : Server) : s.create.live.length = s.live.length + 1 := by
  rw [live, create, List.filterMap_append, List.length_append]
  rfl

theorem count_held {x : Option CallData} (ht : s.theObjects[t]? = some x) (y : Option CallData) (r : ℕ) :
    (holding x).toList.count r + (s.setObject t y).held.count r =
      (holding y).toList.count r + s.held.count r :=
  count_filterMap_set ht r

theorem length_held {x : Option CallData} (ht : s.theObjects[t]? = some x) (y : Option CallData) :
    (holding x).toList.length + (s.setObject t y).held.length =
      (holding y).toList.length + s.held.length :=
  length_filterMap_set ht

theorem length_live {x : Option CallData} (ht : s.theObjects[t]? = some x) (y : Option CallData) :
    x.toList.length + (s.setObject t y).live.length = y.toList.length + s.live.length :=
  length_filterMap_set ht (f := id)

theorem length_started {x : Handler} (hh : s.theHandlers[k]? = some x) (y : Handler) :
    x.started.toList.length + (s.setHandler k y).started.length =
      y.started.toList.length + s.started.length :=
  length_filterMap_set hh

theorem length_processing {x : Handler} (hh : s.theHandlers[k]? = some x) (y : Handler) :
    x.tag.toList.length + (s.setHandler k y).processing.length =
      y.tag.toList.length + s.processing.length :=
  length_filterMap_set hh

theorem mem_processing (hh : s.theHandlers[k]? = some (.processing t)) : t ∈ s.processing :=
  List.mem_filterMap.mpr ⟨_, List.mem_of_getElem? hh, rfl⟩

theorem good_erase {ok : Bool} (h : (t, ok) ∈ s.theCq) :
    (s.theCq.erase (t, ok)).countP Prod.snd + (if ok then 1 else 0) = s.good := by
  rw [good, (List.perm_cons_erase h).countP_eq Prod.snd, List.countP_cons]

end Fields

/-- An object for which a call has been asked has none. -/
theorem Placed.asked_object {c : CallData} (h : Placed s t) (ht : s.theObjects[t]? = some (some c))
    (hrequested : t ∈ s.theRequested) : c.theStatus = .PROCESS ∧ c.theCall = none := by
  obtain ⟨q, hobject⟩ := h.asks.mp (asked_pos.mpr hrequested)
  rw [ht] at hobject
  cases hobject
  exact ⟨rfl, rfl⟩

/-- An object that is being processed holds a call, whose request it has. -/
theorem Placed.busy_object {c : CallData} {r : ℕ} (h : Placed s t)
    (ht : s.theObjects[t]? = some (some c)) (hr : c.theCall = some r)
    (hh : s.theHandlers[k]? = some (.processing t)) :
    c.theStatus = .PROCESS ∧ s.theCalls[r]? = some c.theRequest := by
  obtain ⟨r', q, hobject, hcall⟩ := h.busy (busy_pos.mpr (mem_processing hh))
  rw [ht] at hobject
  cases hobject
  cases hr
  exact ⟨rfl, hcall⟩

/-- Each call is not handed over yet, or held by one object, or answered once. -/
def Calls (s : Server) : Prop := ∀ r, s.thePending.count r + s.held.count r + s.answered.count r =
  if r < s.theCalls.length then 1 else 0

theorem calls_step (h : ∀ t, Placed s t) (hs : Calls s) (he : Step process s e s') : Calls s' := by
  intro r'
  have hcalls := hs r'
  cases he with
  | start hh =>
    rw [held_create]
    exact hcalls
  | call aReq =>
    have hpending := count_append_singleton s.thePending s.theCalls.length r'
    simp only [held, answered, List.length_append, List.length_singleton] at hcalls ⊢
    rw [hpending]
    split_ifs at hcalls ⊢ <;> omega
  | @accept t r c aReq ht hr hrequested hpending =>
    obtain ⟨status, call, q⟩ := c
    obtain ⟨rfl, rfl⟩ : status = .PROCESS ∧ call = none := (h t).asked_object ht hrequested
    have hheld := count_held ht (some ⟨.PROCESS, some r, aReq⟩) r'
    have herase := count_erase_add hpending r'
    simp only [holding, if_true, Option.toList_none, Option.toList_some, List.count_nil,
      List.count_singleton, beq_iff_eq] at hheld
    refine Eq.trans ?_ hcalls
    simp only [answered, setObject, held] at hheld ⊢
    omega
  | drop hh hcq => exact hcalls
  | delete hh hcq ht hc =>
    have hheld := count_held ht none r'
    simp only [holding, hc, reduceCtorEq, if_false, Option.toList_none, List.count_nil, Nat.zero_add]
      at hheld
    simp only [held, setObject] at hheld
    simp only [answered, setObject, held, hheld] at hcalls ⊢
    exact hcalls
  | process hh hcq ht hc =>
    rw [held_create]
    exact hcalls
  | @respond k t r c hh ht hr =>
    obtain ⟨status, call, q⟩ := c
    obtain ⟨rfl, -⟩ : status = .PROCESS ∧ s.theCalls[r]? = some q := (h t).busy_object ht hr hh
    obtain rfl : call = some r := hr
    have hheld := count_held ht (some ⟨.FINISH, some r, q⟩) r'
    simp only [holding, if_true, reduceCtorEq, if_false, Option.toList_none,
      Option.toList_some, List.count_nil, List.count_singleton, beq_iff_eq] at hheld
    refine Eq.trans ?_ hcalls
    simp only [answer, answered, setObject, setHandler, held, List.map_append, List.map_cons, List.map_nil,
      count_append_singleton] at hheld ⊢
    omega
  | sent ok ht => exact hcalls

/-- Each response is what is answered to the request of its call. -/
def Responses (process : ℕ → Rpc.LambdaRequest → Except (Option String) Rpc.LambdaResponse)
    (s : Server) : Prop := ∀ k r resp, s.theResponses[k]? = some (r, resp) →
  ∃ q, s.theCalls[r]? = some q ∧ resp = reply q (process k q)

theorem responses_step (h : ∀ t, Placed s t) (hs : Responses process s) (he : Step process s e s') :
    Responses process s' := by
  intro k r resp hk
  cases he with
  | call aReq =>
    obtain ⟨q, hq, hresp⟩ := hs k r resp hk
    refine ⟨q, ?_, hresp⟩
    rw [List.getElem?_append_left (List.getElem?_eq_some_iff.mp hq).1]
    exact hq
  | @respond k' t r' c hh ht hr =>
    rw [answer] at hk
    rcases Nat.lt_trichotomy k s.theResponses.length with hlt | rfl | hgt
    · rw [List.getElem?_append_left hlt] at hk
      exact hs k r resp hk
    · rw [List.getElem?_concat_length] at hk
      cases hk
      exact ⟨c.theRequest, ((h t).busy_object ht hr hh).2, rfl⟩
    · rw [List.getElem?_eq_none (by rw [List.length_append, List.length_singleton]; exact hgt)] at hk
      cases hk
  | start hh => exact hs k r resp hk
  | accept ht hr hrequested hpending => exact hs k r resp hk
  | drop hh hcq => exact hs k r resp hk
  | delete hh hcq ht hc => exact hs k r resp hk
  | process hh hcq ht hc => exact hs k r resp hk
  | sent ok ht => exact hs k r resp hk

/-- There are as many objects that wait for a call, or for a thread once they have one, as threads. -/
def Waiting (s : Server) : Prop :=
  s.theRequested.length + s.held.length = s.started.length + s.processing.length

theorem waiting_step (h : ∀ t, Placed s t) (hs : Waiting s) (he : Step process s e s') : Waiting s' := by
  cases he with
  | start hh =>
    have hstarted := length_started hh .waiting
    have hprocessing := length_processing hh .waiting
    simp only [Waiting, held, started, processing, setHandler, create, Handler.started, Handler.tag,
      Option.toList_none, Option.toList_some, List.length_nil, List.length_singleton, List.length_append,
      List.filterMap_append] at hs hstarted hprocessing ⊢
    simp [holding]
    omega
  | call aReq => exact hs
  | @accept t r c aReq ht hr hrequested hpending =>
    obtain ⟨status, call, q⟩ := c
    obtain ⟨rfl, rfl⟩ : status = .PROCESS ∧ call = none := (h t).asked_object ht hrequested
    have hheld := length_held ht (some ⟨.PROCESS, some r, aReq⟩)
    have herase := List.length_erase_add_one hrequested
    simp only [Waiting, held, started, processing, setObject, holding, if_true,
      Option.toList_none, Option.toList_some, List.length_nil, List.length_singleton] at hs hheld ⊢
    omega
  | drop hh hcq => exact hs
  | delete hh hcq ht hc =>
    have hheld := length_held ht none
    simp only [Waiting, held, started, processing, setObject, holding, hc, reduceCtorEq, if_false,
      Option.toList_none, List.length_nil] at hs hheld ⊢
    omega
  | @process k t c hh hcq ht hc =>
    have hstarted := length_started hh (.processing t)
    have hprocessing := length_processing hh (.processing t)
    simp only [Waiting, held, started, processing, setHandler, create, Handler.started, Handler.tag,
      Option.toList_none, Option.toList_some, List.length_nil, List.length_singleton, List.length_append,
      List.filterMap_append] at hs hstarted hprocessing ⊢
    simp [holding]
    omega
  | @respond k t r c hh ht hr =>
    obtain ⟨status, call, q⟩ := c
    obtain ⟨rfl, -⟩ : status = .PROCESS ∧ s.theCalls[r]? = some q := (h t).busy_object ht hr hh
    obtain rfl : call = some r := hr
    have hheld := length_held ht (some ⟨.FINISH, some r, q⟩)
    have hstarted := length_started hh .waiting
    have hprocessing := length_processing hh .waiting
    simp only [Waiting, held, started, processing, setHandler, setObject, answer, Handler.started,
      Handler.tag, holding, if_true, reduceCtorEq, if_false, Option.toList_none,
      Option.toList_some, List.length_nil, List.length_singleton] at hs hheld hstarted hprocessing ⊢
    omega
  | sent ok ht => exact hs

/-- An object is live as long as it waits for a call, is being processed, has a response that is being
sent, or an event of its own is in the queue, and forever where its response could not be sent. -/
def Living (es : List Event) (s : Server) : Prop :=
  s.live.length = s.theRequested.length + s.processing.length + s.theFinishing.length + s.good +
    es.countP Event.unsent

theorem living_step {es : List Event} (hs : Living es s) (he : Step process s e s') :
    Living (es ++ [e]) s' := by
  rw [Living, List.countP_append, List.countP_singleton]
  rw [Living] at hs
  cases he with
  | @start k hh =>
    have hprocessing := length_processing hh .waiting
    have hlive : (s.setHandler k .waiting).live.length = s.live.length := rfl
    rw [live_create, hlive, hs]
    simp only [processing, setHandler, create, good, Handler.tag, Event.unsent, Option.toList_none,
      List.length_nil, List.length_singleton, List.length_append, Bool.false_eq_true, if_false]
      at hprocessing ⊢
    omega
  | call aReq => exact hs
  | @accept t r c aReq ht hr hrequested hpending =>
    have hlive := length_live ht (some { c with theCall := some r, theRequest := aReq })
    have herase := List.length_erase_add_one hrequested
    simp only [live, setObject, processing, good, Event.unsent, Option.toList_some, List.length_singleton,
      List.countP_append, List.countP_singleton, Bool.false_eq_true, if_true, if_false] at hs hlive ⊢
    omega
  | @drop k t hh hcq =>
    have hgood := good_erase hcq
    simp only [live, processing, good, Event.unsent, Bool.false_eq_true, if_false] at hs hgood ⊢
    omega
  | @delete k t c hh hcq ht hc =>
    have hlive := length_live ht none
    have hgood := good_erase hcq
    simp only [live, setObject, processing, good, Event.unsent, Option.toList_some, Option.toList_none,
      List.length_nil, List.length_singleton, Bool.false_eq_true, if_true, if_false] at hs hlive hgood ⊢
    omega
  | @process k t c hh hcq ht hc =>
    have hprocessing := length_processing hh (.processing t)
    have hgood := good_erase hcq
    have hlive : ({ s with theCq := s.theCq.erase (t, true) }.setHandler k (.processing t)).live.length =
      s.live.length := rfl
    rw [live_create, hlive, hs]
    simp only [processing, setHandler, create, good, Handler.tag, Event.unsent, Option.toList_none,
      Option.toList_some, List.length_nil, List.length_singleton, List.length_append, Bool.false_eq_true,
      if_true, if_false] at hprocessing hgood ⊢
    omega
  | @respond k t r c hh ht hr =>
    have hlive := length_live ht (some { c with theStatus := .FINISH })
    have hprocessing := length_processing hh .waiting
    simp only [live, processing, setHandler, setObject, answer, good, Handler.tag, Event.unsent,
      Option.toList_none, Option.toList_some, List.length_nil, List.length_singleton, List.length_append,
      Bool.false_eq_true, if_false] at hs hlive hprocessing ⊢
    omega
  | @sent t ok ht =>
    have herase := List.length_erase_add_one ht
    simp only [live, processing, good, Event.unsent, List.countP_append, List.countP_singleton] at hs ⊢
    cases ok <;> simp only [Bool.not_true, Bool.not_false, Bool.false_eq_true, if_true, if_false] <;> omega

theorem theCalls_step {es : List Event} (hs : s.theCalls = es.filterMap Event.request)
    (he : Step process s e s') : s'.theCalls = (es ++ [e]).filterMap Event.request := by
  rw [List.filterMap_append, ← hs]
  cases he with
  | call aReq => rfl
  | _ => exact (List.append_nil _).symm

theorem length_theHandlers_step (he : Step process s e s') :
    s'.theHandlers.length = s.theHandlers.length := by
  cases he with
  | start hh => exact List.length_set
  | process hh hcq ht hc => exact List.length_set
  | respond hh ht hr => exact List.length_set
  | _ => rfl

/-- What holds of a server with that many threads after any run. -/
structure Kept (process : ℕ → Rpc.LambdaRequest → Except (Option String) Rpc.LambdaResponse)
    (aNumThreads : ℕ) (es : List Event) (s : Server) : Prop where
  placed : ∀ t, Placed s t
  calls : Calls s
  responses : Responses process s
  waiting : Waiting s
  living : Living es s
  theCalls : s.theCalls = es.filterMap Event.request
  theHandlers : s.theHandlers.length = aNumThreads

theorem kept_new (aNumThreads : ℕ) : Kept process aNumThreads [] (new aNumThreads) where
  placed := fun t => placed_nowhere (by simp [new]) rfl (fun _ => rfl)
    (by simp [busy, processing, new, Handler.tag, List.filterMap_replicate]) rfl
  calls := fun r => by simp [new, held, answered]
  responses := fun k r resp hk => by simp [new] at hk
  waiting := by simp [Waiting, new, held, started, processing, Handler.started, Handler.tag,
    List.filterMap_replicate]
  living := by simp [Living, new, live, good, processing, Handler.tag, List.filterMap_replicate]
  theCalls := rfl
  theHandlers := List.length_replicate

theorem Reaches.kept {aNumThreads : ℕ} {es : List Event}
    (h : Steps.Reaches (step process) (new aNumThreads) es s) : Kept process aNumThreads es s := by
  refine h.keeps (kept_new aNumThreads) fun es t e t' hs he => ?_
  have hstep := step_of_eq_some he
  exact ⟨placed_step hs.placed hstep, calls_step hs.placed hs.calls hstep,
    responses_step hs.placed hs.responses hstep, waiting_step hs.placed hs.waiting hstep,
    living_step hs.living hstep, theCalls_step hs.theCalls hstep,
    (length_theHandlers_step hstep).trans hs.theHandlers⟩

section Progress

/-- What is left to be done where no more calls come. -/
def work (s : Server) : ℕ :=
  5 * s.thePending.length + 3 * s.held.length + 2 * s.theFinishing.length + s.theCq.length +
    (s.theHandlers.length - s.started.length)

theorem length_started_le (s : Server) : s.started.length ≤ s.theHandlers.length :=
  List.length_filterMap_le _ _

theorem work_step (h : ∀ t, Placed s t) (he : Step process s e s') (hcall : e.request = none) :
    s'.work < s.work := by
  have hbound := length_started_le s'
  rw [length_theHandlers_step he] at hbound
  rw [work, work, length_theHandlers_step he]
  cases he with
  | @start k hh =>
    have hstarted := length_started hh .waiting
    rw [held_create]
    simp only [held, started, setHandler, create, Handler.started, Option.toList_none, Option.toList_some,
      List.length_nil, List.length_singleton] at hstarted hbound ⊢
    omega
  | call aReq => cases hcall
  | @accept t r c aReq ht hr hrequested hpending =>
    obtain ⟨status, call, q⟩ := c
    obtain ⟨rfl, rfl⟩ : status = .PROCESS ∧ call = none := (h t).asked_object ht hrequested
    have hheld := length_held ht (some ⟨.PROCESS, some r, aReq⟩)
    have herase := List.length_erase_add_one hpending
    simp only [held, started, setObject, holding, if_true, Option.toList_none, Option.toList_some,
      List.length_nil, List.length_singleton, List.length_append] at hheld ⊢
    omega
  | drop hh hcq =>
    have herase := List.length_erase_add_one hcq
    simp only [held, started]
    omega
  | @delete k t c hh hcq ht hc =>
    have hheld := length_held ht none
    have herase := List.length_erase_add_one hcq
    simp only [held, started, setObject, holding, hc, reduceCtorEq, if_false, Option.toList_none,
      List.length_nil] at hheld ⊢
    omega
  | @process k t c hh hcq ht hc =>
    have hstarted := length_started hh (.processing t)
    have herase := List.length_erase_add_one hcq
    rw [held_create]
    simp only [held, started, setHandler, create, Handler.started, Option.toList_some,
      List.length_singleton] at hstarted ⊢
    omega
  | @respond k t r c hh ht hr =>
    obtain ⟨status, call, q⟩ := c
    obtain ⟨rfl, -⟩ : status = .PROCESS ∧ s.theCalls[r]? = some q := (h t).busy_object ht hr hh
    obtain rfl : call = some r := hr
    have hheld := length_held ht (some ⟨.FINISH, some r, q⟩)
    have hstarted := length_started hh .waiting
    simp only [held, started, setHandler, setObject, answer, Handler.started, holding, if_true,
      reduceCtorEq, if_false, Option.toList_none, Option.toList_some, List.length_nil,
      List.length_singleton, List.length_append] at hheld hstarted ⊢
    omega
  | @sent t ok ht =>
    have herase := List.length_erase_add_one ht
    simp only [held, started, List.length_append, List.length_singleton]
    omega

/-- Nothing can happen but a further call. -/
def Resting (process : ℕ → Rpc.LambdaRequest → Except (Option String) Rpc.LambdaResponse)
    (s : Server) : Prop := ∀ e, e.request = none → step process s e = none

theorem resting_of (hhandlers : ∀ x ∈ s.theHandlers, x = .waiting) (hcq : s.theCq = [])
    (hfinishing : s.theFinishing = []) (hpending : s.thePending = []) : Resting process s := by
  intro e hcall
  refine Option.eq_none_iff_forall_ne_some.mpr fun s' hs' => ?_
  cases step_of_eq_some hs' with
  | start hh => cases hhandlers _ (List.mem_of_getElem? hh)
  | call aReq => cases hcall
  | accept ht hr hrequested hin => exact absurd hin (by simp [hpending])
  | drop hh hin => exact absurd hin (by simp [hcq])
  | delete hh hin ht hc => exact absurd hin (by simp [hcq])
  | process hh hin ht hc => exact absurd hin (by simp [hcq])
  | respond hh ht hr => cases hhandlers _ (List.mem_of_getElem? hh)
  | sent ok hin => exact absurd hin (by simp [hfinishing])

theorem Resting.handler {x : Handler} (h : Resting process s) (hs : ∀ t, Placed s t)
    (hh : s.theHandlers[k]? = some x) : x = .waiting := by
  cases x with
  | starting =>
    have hnone := h (.start k) rfl
    rw [step, hh] at hnone
    cases hnone
  | waiting => rfl
  | processing t =>
    obtain ⟨r, q, hobject, -⟩ := (hs t).busy (busy_pos.mpr (mem_processing hh))
    have hnone := h (.respond k) rfl
    rw [step, hh] at hnone
    simp only [hobject, Option.map_some, reduceCtorEq] at hnone

theorem Resting.handlers (h : Resting process s) (hs : ∀ t, Placed s t) :
    s.theHandlers = List.replicate s.theHandlers.length .waiting := by
  refine List.eq_replicate_iff.mpr ⟨rfl, fun x hx => ?_⟩
  obtain ⟨k, hk⟩ := List.mem_iff_getElem?.mp hx
  exact h.handler hs hk

theorem Resting.theCq (h : Resting process s) (hs : ∀ t, Placed s t) (hpos : 0 < s.theHandlers.length) :
    s.theCq = [] := by
  refine List.eq_nil_iff_forall_not_mem.mpr ?_
  rintro ⟨t, ok⟩ hcq
  have hh : s.theHandlers[0]? = some .waiting := by
    rw [h.handlers hs, List.getElem?_replicate, if_pos hpos]
  have hnone := h (.next 0 t ok) rfl
  rw [step, if_pos ⟨hh, hcq⟩] at hnone
  cases ok with
  | false => cases hnone
  | true =>
    rcases (hs t).queue (queued_pos.mpr hcq) with ⟨r, q, hobject, -⟩ | ⟨r, q, hobject⟩
    · simp only [hobject, reduceCtorEq] at hnone
    · simp only [hobject, reduceCtorEq] at hnone

theorem Resting.theFinishing (h : Resting process s) : s.theFinishing = [] := by
  refine List.eq_nil_iff_forall_not_mem.mpr fun t ht => ?_
  have hnone := h (.sent t true) rfl
  rw [step, if_pos ht] at hnone
  cases hnone

theorem Resting.processing (h : Resting process s) (hs : ∀ t, Placed s t) : s.processing = [] := by
  rw [Server.processing, h.handlers hs, List.filterMap_replicate]
  rfl

theorem Resting.held (h : Resting process s) (hs : ∀ t, Placed s t) (hpos : 0 < s.theHandlers.length) :
    s.held = [] := by
  refine List.eq_nil_iff_forall_not_mem.mpr fun r hr => ?_
  obtain ⟨o, ho, hholding⟩ := List.mem_filterMap.mp hr
  obtain ⟨t, ht⟩ := List.mem_iff_getElem?.mp ho
  cases o with
  | none => cases hholding
  | some c =>
    obtain ⟨hstatus, hcall⟩ := Option.ite_none_right_eq_some.mp hholding
    obtain ⟨status, call, q⟩ := c
    obtain rfl : status = .PROCESS := hstatus
    obtain rfl : call = some r := hcall
    rcases (hs t).held r q ht with hqueued | hbusy
    · rw [queued_pos, h.theCq hs hpos] at hqueued
      cases hqueued
    · rw [busy_pos, h.processing hs] at hbusy
      cases hbusy

theorem Resting.started (h : Resting process s) (hs : ∀ t, Placed s t) :
    s.started.length = s.theHandlers.length := by
  rw [Server.started, h.handlers hs, List.filterMap_replicate]
  simp [Handler.started]

/-- Where nothing is left to do, no call waits: an object of each thread would take it. -/
theorem Resting.thePending {n : ℕ} {es : List Event} (h : Resting process s) (hs : Kept process n es s)
    (hpos : 0 < n) : s.thePending = [] := by
  have hthreads : 0 < s.theHandlers.length := hs.theHandlers ▸ hpos
  have hwaiting := hs.waiting
  rw [Waiting, h.held hs.placed hthreads, h.processing hs.placed, h.started hs.placed, List.length_nil,
    Nat.add_zero, Nat.add_zero] at hwaiting
  refine List.eq_nil_iff_forall_not_mem.mpr fun r hr => ?_
  obtain ⟨t, ht⟩ := List.exists_mem_of_length_pos (hwaiting ▸ hthreads)
  obtain ⟨q, hobject⟩ := (hs.placed t).asks.mp (asked_pos.mpr ht)
  have hcalls := hs.calls r
  have hcount := List.count_pos_iff.mpr hr
  have hlt : r < s.theCalls.length := by
    by_contra hle
    rw [if_neg hle] at hcalls
    omega
  have hnone := h (.accept t r) rfl
  simp only [step, hobject, List.getElem?_eq_getElem hlt, if_pos (And.intro ht hr), reduceCtorEq] at hnone

end Progress

/-- Each call is in one place: it has not been handed over yet, or an object holds it, or it has been
answered, once, by what processing its own request returned. -/
theorem calls_accounted {n : ℕ} {es : List Event} (h : Steps.Reaches (step process) (new n) es s) :
    s.theCalls = es.filterMap Event.request ∧
    (∀ r, s.thePending.count r + s.held.count r + s.answered.count r =
      if r < s.theCalls.length then 1 else 0) ∧
    ∀ k r resp, s.theResponses[k]? = some (r, resp) →
      ∃ q, s.theCalls[r]? = some q ∧ resp = reply q (process k q) :=
  have hs := Reaches.kept h
  ⟨hs.theCalls, hs.calls, hs.responses⟩

/-- No thread and no part of the runtime ever refers to an object that has been deleted, and calls are
taken over from the runtime only as long as there are threads for them. -/
theorem objects_accounted {n : ℕ} {es : List Event} (h : Steps.Reaches (step process) (new n) es s) :
    (∀ t, t ∈ s.theRequested ∨ t ∈ s.theCq.map Prod.fst ∨ t ∈ s.processing ∨ t ∈ s.theFinishing →
      ∃ c, s.theObjects[t]? = some (some c)) ∧
    s.theRequested.length + s.held.length = s.started.length + s.processing.length ∧
    s.live.length = s.theRequested.length + s.processing.length + s.theFinishing.length +
      s.theCq.countP Prod.snd + es.countP Event.unsent := by
  have hs := Reaches.kept h
  refine ⟨fun t ht => ?_, hs.waiting, hs.living⟩
  by_contra hdeleted
  obtain ⟨hasked, hqueued, hbusy, hfinishing⟩ :=
    (hs.placed t).nowhere fun c hc => hdeleted ⟨c, hc⟩
  rcases ht with ht | ht | ht | ht
  · exact absurd (asked_pos.mpr ht) (by omega)
  · obtain ⟨⟨t, ok⟩, hcq, rfl⟩ := List.mem_map.mp ht
    have hpos := queued_pos.mpr hcq
    rw [hqueued] at hpos
    exact Nat.lt_irrefl 0 hpos
  · exact absurd (busy_pos.mpr ht) (by omega)
  · exact absurd (finishing_pos.mpr ht) (by omega)

/-- Where no more calls come, everything ends after as many events as there is work left, whatever
their order, and then every call has been answered once. Of the objects, one remains for each thread
and one for each response that could not be sent. -/
theorem calls_end {n : ℕ} {es : List Event} (hpos : 0 < n)
    (h : Steps.Reaches (step process) (new n) es s) :
    (∀ es' s', Steps.Reaches (step process) s es' s' → (∀ e ∈ es', e.request = none) →
      es'.length ≤ s.work) ∧
    (Resting process s → (∀ r < s.theCalls.length, s.answered.count r = 1) ∧
      s.live.length = n + es.countP Event.unsent) := by
  have hs := Reaches.kept h
  refine ⟨fun es' s' hrun hquiet => ?_, fun hrest => ⟨fun r hr => ?_, ?_⟩⟩
  · have hless : ∀ (u : Server) (e : Event) u', (∀ t, Placed u t) → step process u e = some u' →
        e.request = none → u'.work < u.work :=
      fun u e u' hu he hcall => work_step hu (step_of_eq_some he) hcall
    have hbound := Steps.Reaches.length_le
      (fun u e u' hu he => placed_step hu (step_of_eq_some he)) hless hs.placed hrun hquiet
    omega
  · have hcalls := hs.calls r
    have hthreads : 0 < s.theHandlers.length := hs.theHandlers ▸ hpos
    rw [hrest.thePending hs hpos, hrest.held hs.placed hthreads, if_pos hr] at hcalls
    simpa using hcalls
  · have hthreads : 0 < s.theHandlers.length := hs.theHandlers ▸ hpos
    have hwaiting := hs.waiting
    have hliving := hs.living
    rw [Waiting, hrest.held hs.placed hthreads, hrest.processing hs.placed, hrest.started hs.placed,
      hs.theHandlers] at hwaiting
    rw [Living, hrest.processing hs.placed, hrest.theFinishing, good, hrest.theCq hs.placed hthreads]
      at hliving
    rw [hliving, show s.theRequested.length = n from hwaiting]
    rfl

section Examples

/-- Two threads and three calls, of which the second is answered first; processing one of them throws,
and the response of another cannot be sent. -/
def threeCalls : List Event :=
  [.start 1, .call { name := "a" }, .call { name := "b" }, .accept 0 1, .start 0, .next 1 0 true,
    .accept 1 0, .call { name := "c" }, .next 0 1 true, .respond 1, .accept 2 2, .next 1 2 true,
    .respond 1, .sent 2 false, .respond 0, .next 0 2 false, .sent 0 true, .next 1 0 true,
    .sent 1 true, .next 0 1 true]

def threeReplies (k : ℕ) (aReq : Rpc.LambdaRequest) : Except (Option String) Rpc.LambdaResponse :=
  if k = 1 then .error (some "no computer") else .ok { retcode := "OK", output := aReq.name }

theorem threeCalls_run : ∃ s, Steps.Reaches (step threeReplies) (new 2) threeCalls s ∧
    Resting threeReplies s ∧ s.theCalls.length = 3 ∧ s.work = 0 := by
  have hsome : (threeCalls.foldlM (step threeReplies) (new 2)).any (fun s =>
      s.theHandlers = [.waiting, .waiting] ∧ s.theCq = [] ∧ s.theFinishing = [] ∧ s.thePending = [] ∧
        s.theCalls.length = 3 ∧ s.work = 0) = true := by decide +kernel
  obtain ⟨s, hrun, hparts⟩ := (Option.any_eq_true _ _).mp hsome
  obtain ⟨hhandlers, hcq, hfinishing, hpending, hcalls, hwork⟩ := of_decide_eq_true hparts
  refine ⟨s, hrun, resting_of (fun x hx => ?_) hcq hfinishing hpending, hcalls, hwork⟩
  rw [hhandlers] at hx
  simpa using hx

theorem calls_accounted_threeCalls : ∃ s, Steps.Reaches (step threeReplies) (new 2) threeCalls s ∧
    s.theCalls = [{ name := "a" }, { name := "b" }, { name := "c" }] ∧
    ∀ k r resp, s.theResponses[k]? = some (r, resp) →
      ∃ q, s.theCalls[r]? = some q ∧ resp = reply q (threeReplies k q) := by
  obtain ⟨s, hrun, -⟩ := threeCalls_run
  obtain ⟨hcalls, -, hresponses⟩ := calls_accounted hrun
  exact ⟨s, hrun, hcalls, hresponses⟩

theorem objects_accounted_threeCalls : ∃ s, Steps.Reaches (step threeReplies) (new 2) threeCalls s ∧
    s.theRequested.length + s.held.length = s.started.length + s.processing.length := by
  obtain ⟨s, hrun, -⟩ := threeCalls_run
  exact ⟨s, hrun, (objects_accounted hrun).2.1⟩

theorem calls_end_threeCalls : ∃ s, Steps.Reaches (step threeReplies) (new 2) threeCalls s ∧
    (∀ r < 3, s.answered.count r = 1) ∧ s.live.length = 3 := by
  obtain ⟨s, hrun, hrest, hcalls, -⟩ := threeCalls_run
  obtain ⟨hanswered, hlive⟩ := (calls_end (by decide) hrun).2 hrest
  rw [hcalls] at hanswered
  exact ⟨s, hrun, hanswered, hlive⟩

end Examples

end Server

end ServerlessEdge.Processing.EdgeServerGrpc
