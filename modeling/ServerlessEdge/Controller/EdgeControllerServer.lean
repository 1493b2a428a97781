import Mathlib.Data.Fintype.Basic
import ServerlessEdge.Controller.EdgeControllerFlat
import ServerlessEdge.Library.Runs
import ServerlessEdge.Library.Slots
import ServerlessEdge.Library.Steps

/-! The server of announcements, and the clients that call it. A call is applied to the subscribed
controllers in turn, each of which serves one call at a time; calls overlap in any way. -/
namespace ServerlessEdge.Controller.EdgeControllerServer
open Library Slots Steps EdgeController

namespace Rpc

structure Container where
  name : String
  processor : String
  lambda : String
  numWorkers : UInt32
  deriving DecidableEq

structure ComputerInfo where
  edgeServerEndpoint : String
  containers : List Container
  deriving DecidableEq

structure RouterInfo where
  edgeServerEndpoint : String
  forwardingTableEndpoint : String
  deriving DecidableEq

end Rpc

def toProtobuf (aEdgeServerEndpoint : String) (aContainers : ContainerList) : Rpc.ComputerInfo where
  edgeServerEndpoint := aEdgeServerEndpoint
  containers := aContainers.theContainers.map fun myContainer =>
    ⟨myContainer.theName, myContainer.theProcessor, myContainer.theLambda, myContainer.theNumWorkers⟩

def containerListFromProtobuf (aMessage : Rpc.ComputerInfo) : ContainerList where
  theContainers := aMessage.containers.map fun myContainer =>
    ⟨myContainer.name, myContainer.processor, myContainer.lambda, myContainer.numWorkers⟩

/-- A request of a client to the server. -/
inductive Request where
  | AnnounceComputer (aReq : Rpc.ComputerInfo)
  | AnnounceRouter (aReq : Rpc.RouterInfo)
  | RemoveComputer (aReq : Rpc.ComputerInfo)
  deriving DecidableEq

/-- What the server has each controller do for a request. -/
def Request.handler {D : Type} (h : Hooks D) : Request → Member D Unit
  | .AnnounceComputer aReq =>
    announceComputer h aReq.edgeServerEndpoint (containerListFromProtobuf aReq)
  | .AnnounceRouter aReq => announceRouter h aReq.edgeServerEndpoint aReq.forwardingTableEndpoint
  | .RemoveComputer aReq => removeComputer h aReq.edgeServerEndpoint

/-- A call of a member function of the client. -/
inductive Announcement where
  | announceComputer (aEdgeServerEndpoint : String) (aContainers : ContainerList)
  | announceRouter (aEdgeServerEndpoint aEdgeRouterEndpoint : String)
  | removeComputer (aEdgeServerEndpoint : String)
  deriving DecidableEq

namespace Announcement

/-- The request that the client sends. -/
def request : Announcement → Request
  | .announceComputer aEdgeServerEndpoint aContainers =>
    .AnnounceComputer (toProtobuf aEdgeServerEndpoint aContainers)
  | .announceRouter aEdgeServerEndpoint aEdgeRouterEndpoint =>
    .AnnounceRouter ⟨aEdgeServerEndpoint, aEdgeRouterEndpoint⟩
  | .removeComputer aEdgeServerEndpoint => .RemoveComputer (toProtobuf aEdgeServerEndpoint ⟨[]⟩)

variable {D : Type} (h : Hooks D)

/-- The function of a controller with the name and the arguments of the client's. -/
def serve : Announcement → Member D Unit
  | .announceComputer aEdgeServerEndpoint aContainers =>
    EdgeController.announceComputer h aEdgeServerEndpoint aContainers
  | .announceRouter aEdgeServerEndpoint aEdgeRouterEndpoint =>
    EdgeController.announceRouter h aEdgeServerEndpoint aEdgeRouterEndpoint
  | .removeComputer aEdgeServerEndpoint => EdgeController.removeComputer h aEdgeServerEndpoint

/-- A controller after a call, which may have ended by an exception. -/
def direct (s : EdgeController D) (a : Announcement) : EdgeController D := Triple.after (a.serve h) s

end Announcement

theorem containerListFromProtobuf_toProtobuf (aEdgeServerEndpoint : String)
    (aContainers : ContainerList) :
    containerListFromProtobuf (toProtobuf aEdgeServerEndpoint aContainers) = aContainers := by
  rw [containerListFromProtobuf, toProtobuf, List.map_map]
  exact congrArg ContainerList.mk (List.map_id _)

@[simp] theorem handler_request {D : Type} (h : Hooks D) (a : Announcement) :
    a.request.handler h = a.serve h := by
  cases a with
  | announceComputer aEdgeServerEndpoint aContainers =>
    rw [Announcement.request, Request.handler, containerListFromProtobuf_toProtobuf]
    rfl
  | announceRouter | removeComputer => rfl

/-- A call that the server has received: the controller that it is applied to next, the number of
controllers in the end, and whether the client has its reply. -/
structure Call where
  theRequest : Request
  theNext : ℕ := 0
  theReplied : Bool := false

variable {n : ℕ} {D : Fin n → Type}

structure Server (D : Fin n → Type) where
  theControllers : ∀ i, EdgeController (D i)
  theCalls : List Call

/-- Calls are numbered as they are received. -/
inductive Event (n : ℕ) where
  | call (aAnnouncement : Announcement)
  | apply (aCall : ℕ) (aController : Fin n)
  | reply (aCall : ℕ)
  deriving DecidableEq

/-- An exception that is thrown by a controller is caught before the next one is called. -/
def step (hooks : ∀ i, Hooks (D i)) (s : Server D) : Event n → Option (Server D)
  | .call aAnnouncement => some { s with theCalls := s.theCalls ++ [{ theRequest := aAnnouncement.request }] }
  | .apply aCall aController => match s.theCalls[aCall]? with
    | some x =>
      if x.theNext = aController then some {
        theControllers := Function.update s.theControllers aController
          (Triple.after (x.theRequest.handler (hooks aController)) (s.theControllers aController))
        theCalls := s.theCalls.set aCall { x with theNext := aController + 1 } }
      else none
    | none => none
  | .reply aCall => match s.theCalls[aCall]? with
    | some x =>
      if x.theNext = n ∧ x.theReplied = false then
        some { s with theCalls := s.theCalls.set aCall { x with theReplied := true } }
      else none
    | none => none

def Event.announcement : Event n → Option Announcement
  | .call a => some a
  | _ => none

/-- The call that a controller serves. -/
def Event.served (i : Fin n) : Event n → Option ℕ
  | .apply c j => if j = i then some c else none
  | _ => none

/-- The announcements that have been received, by their numbers. -/
def announced (es : List (Event n)) : List Announcement := es.filterMap Event.announcement

/-- The calls that a controller has served, in the order in which it has. -/
def order (i : Fin n) (es : List (Event n)) : List ℕ := es.filterMap (Event.served i)

/-- The announcements with these numbers. -/
def chosen (as : List Announcement) (cs : List ℕ) : List Announcement := cs.filterMap fun c => as[c]?

/-- What the calls have come to after these events. -/
structure Follows (hooks : ∀ i, Hooks (D i)) (theControllers : ∀ i, EdgeController (D i))
    (es : List (Event n)) (s : Server D) : Prop where
  requests : s.theCalls.map Call.theRequest = (announced es).map Announcement.request
  served : ∀ c i, c ∈ order i es ↔ ∃ x, s.theCalls[c]? = some x ∧ i.val < x.theNext
  once : ∀ i, (order i es).Nodup
  replied : ∀ c, .reply c ∈ es → ∃ x, s.theCalls[c]? = some x ∧ x.theNext = n
  controllers : ∀ i, s.theControllers i =
    Runs.final (Announcement.direct (hooks i)) (theControllers i) (chosen (announced es) (order i es))

variable {hooks : ∀ i, Hooks (D i)} {theControllers : ∀ i, EdgeController (D i)}
  {es : List (Event n)} {s s' : Server D} {c : ℕ} {i : Fin n}

theorem Follows.length (h : Follows hooks theControllers es s) :
    s.theCalls.length = (announced es).length := by
  have hlength := congrArg List.length h.requests
  rwa [List.length_map, List.length_map] at hlength

theorem Follows.lt (h : Follows hooks theControllers es s) (hc : c ∈ order i es) :
    c < (announced es).length := by
  obtain ⟨x, hx, -⟩ := (h.served c i).mp hc
  rw [← h.length]
  exact (List.getElem?_eq_some_iff.mp hx).1

theorem chosen_append {as : List Announcement} {cs : List ℕ} (h : ∀ c ∈ cs, c < as.length)
    (a : Announcement) : chosen (as ++ [a]) cs = chosen as cs :=
  List.filterMap_congr fun c hc => List.getElem?_append_left (h c hc)

theorem Follows.call (h : Follows hooks theControllers es s) (a : Announcement) :
    Follows hooks theControllers (es ++ [.call a])
      { s with theCalls := s.theCalls ++ [{ theRequest := a.request }] } := by
  have hannounced : announced (es ++ [Event.call a]) = announced es ++ [a] := List.filterMap_append
  have horder : ∀ i, order i (es ++ [Event.call a]) = order i es := by
    intro i
    rw [order, List.filterMap_append]
    exact List.append_nil _
  have hold : ∀ (c : ℕ) x, s.theCalls[c]? = some x →
      (s.theCalls ++ [{ theRequest := a.request }])[c]? = some x := by
    intro c x hx
    rw [List.getElem?_append_left (List.getElem?_eq_some_iff.mp hx).1, hx]
  refine ⟨?_, fun c i => ?_, fun i => ?_, fun c hc => ?_, fun i => ?_⟩
  · rw [hannounced, List.map_append, List.map_append, h.requests]
    rfl
  · rw [horder, h.served]
    constructor
    · rintro ⟨x, hx, hlt⟩
      exact ⟨x, hold c x hx, hlt⟩
    · rintro ⟨x, hx, hlt⟩
      rcases Nat.lt_or_ge c s.theCalls.length with hc | hc
      · rw [List.getElem?_append_left hc] at hx
        exact ⟨x, hx, hlt⟩
      · -- the new call has not been applied to any controller
        rw [List.getElem?_append_right hc, List.getElem?_singleton] at hx
        split at hx
        · cases hx
          cases hlt
        · cases hx
  · rw [horder]
    exact h.once i
  · rcases List.mem_append.mp hc with hc | hc
    · obtain ⟨x, hx, hall⟩ := h.replied c hc
      exact ⟨x, hold c x hx, hall⟩
    · cases List.mem_singleton.mp hc
  · rw [hannounced, horder, chosen_append fun c hc => h.lt hc]
    exact h.controllers i

theorem Follows.apply (h : Follows hooks theControllers es s) {x : Call} (hx : s.theCalls[c]? = some x)
    (hnext : x.theNext = i) : Follows hooks theControllers (es ++ [.apply c i])
      { theControllers := Function.update s.theControllers i
          (Triple.after (x.theRequest.handler (hooks i)) (s.theControllers i))
        theCalls := s.theCalls.set c { x with theNext := i + 1 } } := by
  have hlt := (List.getElem?_eq_some_iff.mp hx).1
  have hannounced : announced (es ++ [Event.apply c i]) = announced es := by
    rw [announced, List.filterMap_append]
    exact List.append_nil _
  have hsame : order i (es ++ [.apply c i]) = order i es ++ [c] := by
    rw [order, List.filterMap_append]
    simp [order, Event.served]
  have hother : ∀ j, j ≠ i → order j (es ++ [.apply c i]) = order j es := by
    intro j hj
    rw [order, List.filterMap_append]
    simp [order, Event.served, hj.symm]
  have hnew : c ∉ order i es := by
    intro hc
    obtain ⟨x', hx', hpast⟩ := (h.served c i).mp hc
    rw [hx] at hx'
    cases hx'
    omega
  have hcalls : ∀ c' : ℕ, (s.theCalls.set c { x with theNext := i + 1 })[c']? =
      if c = c' then some { x with theNext := i.val + 1 } else s.theCalls[c']? := by
    intro c'
    rw [List.getElem?_set, if_pos hlt]
  refine ⟨?_, fun c' j => ?_, fun j => ?_, fun c' hc' => ?_, fun j => ?_⟩
  · rw [hannounced, ← h.requests]
    exact map_set_of_eq hx rfl
  · have hbefore := h.served c' j
    rw [hcalls]
    by_cases hc : c = c'
    · subst hc
      rw [if_pos rfl]
      simp only [hx, Option.some.injEq, exists_eq_left'] at hbefore ⊢
      by_cases hj : j = i
      · subst hj
        rw [hsame]
        simp
      · have hne : j.val ≠ i.val := fun heq => hj (Fin.ext heq)
        rw [hother j hj, hbefore]
        omega
    · rw [if_neg hc, ← hbefore]
      by_cases hj : j = i
      · subst hj
        rw [hsame]
        simp [Ne.symm hc]
      · rw [hother j hj]
  · by_cases hj : j = i
    · subst hj
      rw [hsame, ← List.concat_eq_append]
      exact (h.once j).concat hnew
    · rw [hother j hj]
      exact h.once j
  · rcases List.mem_append.mp hc' with hc' | hc'
    · obtain ⟨x', hx', hall⟩ := h.replied c' hc'
      rw [hcalls]
      by_cases hc : c = c'
      · subst hc
        -- a call that has been replied to has been applied everywhere
        rw [hx] at hx'
        cases hx'
        omega
      · exact ⟨x', by rw [if_neg hc, hx'], hall⟩
    · cases List.mem_singleton.mp hc'
  · rw [hannounced]
    by_cases hj : j = i
    · subst hj
      obtain ⟨a, ha, hrequest⟩ : ∃ a, (announced es)[c]? = some a ∧ a.request = x.theRequest := by
        have hmap := congrArg (fun l : List Request => l[c]?) h.requests
        simp only [List.getElem?_map, hx, Option.map_some] at hmap
        exact Option.map_eq_some_iff.mp hmap.symm
      have hchosen : chosen (announced es) (order j es ++ [c]) =
          chosen (announced es) (order j es) ++ [a] := by
        rw [chosen, List.filterMap_append, List.filterMap_cons, ha]
        rfl
      rw [hsame, hchosen, Runs.final_append, ← h.controllers j]
      dsimp only
      rw [Function.update_self, ← hrequest, handler_request]
      rfl
    · rw [hother j hj, ← h.controllers j]
      exact Function.update_of_ne hj _ _

theorem Follows.reply (h : Follows hooks theControllers es s) {x : Call} (hx : s.theCalls[c]? = some x)
    (hnext : x.theNext = n) : Follows hooks theControllers (es ++ [.reply c])
      { s with theCalls := s.theCalls.set c { x with theReplied := true } } := by
  have hlt := (List.getElem?_eq_some_iff.mp hx).1
  have hannounced : announced (es ++ [Event.reply c]) = announced es := by
    rw [announced, List.filterMap_append]
    exact List.append_nil _
  have horder : ∀ i, order i (es ++ [Event.reply c]) = order i es := by
    intro i
    rw [order, List.filterMap_append]
    exact List.append_nil _
  have hcalls : ∀ c' : ℕ, (s.theCalls.set c { x with theReplied := true })[c']? =
      if c = c' then some { x with theReplied := true } else s.theCalls[c']? := by
    intro c'
    rw [List.getElem?_set, if_pos hlt]
  refine ⟨?_, fun c' i => ?_, fun i => ?_, fun c' hc' => ?_, fun i => ?_⟩
  · rw [hannounced, ← h.requests]
    exact map_set_of_eq hx rfl
  · rw [horder, h.served, hcalls]
    split
    · next hc =>
      subst hc
      simp only [hx, Option.some.injEq, exists_eq_left']
    · rfl
  · rw [horder]
    exact h.once i
  · rw [hcalls]
    split
    · next hc => exact ⟨_, rfl, hnext⟩
    · next hc =>
      rcases List.mem_append.mp hc' with hc' | hc'
      · exact h.replied c' hc'
      · cases List.mem_singleton.mp hc'
        exact absurd rfl hc
  · rw [hannounced, horder]
    exact h.controllers i

theorem Follows.step (h : Follows hooks theControllers es s) {e : Event n}
    (he : step hooks s e = some s') : Follows hooks theControllers (es ++ [e]) s' := by
  cases e with
  | call a =>
    cases he
    exact h.call a
  | apply c i =>
    rw [EdgeControllerServer.step] at he
    split at he
    · next x hx =>
      rw [Option.ite_none_right_eq_some] at he
      obtain ⟨hnext, he⟩ := he
      cases he
      exact h.apply hx hnext
    · cases he
  | reply c =>
    rw [EdgeControllerServer.step] at he
    split at he
    · next x hx =>
      rw [Option.ite_none_right_eq_some] at he
      obtain ⟨⟨hnext, -⟩, he⟩ := he
      cases he
      exact h.reply hx hnext
    · cases he

theorem follows_of_reaches (h : Reaches (step hooks) ⟨theControllers, []⟩ es s) :
    Follows hooks theControllers es s :=
  h.keeps ⟨rfl, fun c i => by simp [order], fun _ => List.nodup_nil,
      fun c hc => absurd hc List.not_mem_nil, fun _ => rfl⟩
    fun _ _ _ _ hfollows he => hfollows.step he

/-- However the calls of the clients overlap, each controller ends as if it had been called directly,
call by call, in an order that has every call once that has been replied to, some of the others at
most once, and a call after all those that had been replied to when it was received. Whatever the
other controllers throw makes no difference. -/
theorem announcements_linearized (hooks : ∀ i, Hooks (D i))
    (theControllers : ∀ i, EdgeController (D i)) {es : List (Event n)} {s : Server D}
    (h : Reaches (step hooks) ⟨theControllers, []⟩ es s) (i : Fin n) :
    ∃ cs : List ℕ, cs.Nodup ∧ (∀ c ∈ cs, c < (announced es).length) ∧
      (∀ c, .reply c ∈ es → c ∈ cs) ∧
      (∀ es₁ es₂ a b, es = es₁ ++ es₂ → .reply a ∈ es₁ → (announced es₁).length ≤ b → b ∈ cs →
        [a, b].Sublist cs) ∧
      s.theControllers i =
        Runs.final (Announcement.direct (hooks i)) (theControllers i) (chosen (announced es) cs) := by
  have hfollows := follows_of_reaches h
  have hserved : ∀ {es : List (Event n)} {s}, Follows hooks theControllers es s →
      ∀ c, .reply c ∈ es → c ∈ order i es := by
    intro es s hfollows c hc
    obtain ⟨x, hx, hall⟩ := hfollows.replied c hc
    exact (hfollows.served c i).mpr ⟨x, hx, hall ▸ i.isLt⟩
  refine ⟨order i es, hfollows.once i, fun c hc => hfollows.lt hc, hserved hfollows, ?_,
    hfollows.controllers i⟩
  rintro es₁ es₂ a b rfl ha hb hmem
  obtain ⟨t, ht, -⟩ := reaches_append.mp h
  have hearlier := follows_of_reaches ht
  -- the second call had not been received when the first one was replied to
  rw [order, List.filterMap_append] at hmem ⊢
  rcases List.mem_append.mp hmem with hmem | hmem
  · exact absurd (hearlier.lt (i := i) hmem) (Nat.not_lt.mpr hb)
  · exact (List.singleton_sublist.mpr (hserved hearlier a ha)).append (List.singleton_sublist.mpr hmem)

section Overlapping

private abbrev TwoFlat : Fin 2 → Type := fun _ => EdgeControllerFlat

private def twoHooks : ∀ i, Hooks (TwoFlat i) :=
  fun _ => EdgeControllerFlat.hooks ⟨fun _ => .answered, fun _ => 0, id⟩

/-- A computer is announced and removed at the same time. -/
private def overlapping : List (Event 2) :=
  [.call (.announceComputer "c:1" ⟨[⟨"container", "cpu", "f", 1⟩]⟩), .call (.removeComputer "c:1"),
    .apply 0 0, .apply 1 0, .apply 1 1, .apply 0 1, .reply 1, .reply 0]

/-- The order need not be the same for all controllers. -/
theorem announcements_linearized_overlapping : ∃ s : Server TwoFlat,
    Reaches (step twoHooks) ⟨fun _ => EdgeControllerFlat.new ∅, []⟩ overlapping s ∧
      "c:1" ∉ (s.theControllers 0).theComputers ∧ "c:1" ∈ (s.theControllers 1).theComputers ∧
      ∀ i, ∃ cs : List ℕ, cs.Nodup ∧ 0 ∈ cs ∧ 1 ∈ cs ∧
        s.theControllers i = Runs.final (Announcement.direct (twoHooks i)) (EdgeControllerFlat.new ∅)
          (chosen (announced overlapping) cs) := by
  have hrun : (overlapping.foldlM (step twoHooks) ⟨fun _ => EdgeControllerFlat.new ∅, []⟩).any
      (fun s => decide ("c:1" ∉ (s.theControllers 0).theComputers ∧
        "c:1" ∈ (s.theControllers 1).theComputers)) = true := by
    decide +kernel
  obtain ⟨s, hs, hends⟩ := (Option.any_eq_true _ _).mp hrun
  obtain ⟨hfirst, hsecond⟩ := of_decide_eq_true hends
  refine ⟨s, hs, hfirst, hsecond, fun i => ?_⟩
  obtain ⟨cs, hnodup, -, hreplied, -, hcontroller⟩ := announcements_linearized twoHooks _ hs i
  exact ⟨cs, hnodup, hreplied 0 (by decide), hreplied 1 (by decide), hcontroller⟩

end Overlapping

end ServerlessEdge.Controller.EdgeControllerServer
