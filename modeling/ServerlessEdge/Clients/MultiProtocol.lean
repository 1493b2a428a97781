import ServerlessEdge.Clients.EdgeClientMulti

/-! The token of the client of several servers: who holds it, and which
responses are still to come. -/
namespace ServerlessEdge.Clients
open Std Library Messages

/-- Between the token and the hand-over. -/
def Phase.active : Phase → Bool
  | .selecting | .copying _ | .sending _ _ | .collecting _ _ _ => true
  | .waiting | .leaving _ _ => false

/-- The servers that have been sent the request and whose response has not been popped. -/
def Phase.awaited : Phase → Finset ℕ
  | .sending selected rest => selected \ rest.toFinset
  | .collecting _ myPending _ => myPending
  | _ => ∅

/-- Where the token is: in the queue, at a caller, or as a set of servers whose
responses are left to the consumer. -/
inductive Baton where
  | token
  | caller (c : ℕ) (cl : Caller)
  | queued (myPending : Finset ℕ)
  | held (myPending : Finset ℕ)

namespace Baton

def tokens : Baton → ℕ
  | .token => 1
  | _ => 0

def queue : Baton → List (Finset ℕ)
  | .queued myPending => [myPending]
  | _ => []

def consuming : Baton → Option (Finset ℕ)
  | .held myPending => some myPending
  | _ => none

def awaited : Baton → Finset ℕ
  | .token => ∅
  | .caller _ cl => cl.phase.awaited
  | .queued myPending => myPending
  | .held myPending => myPending

def holder (c : ℕ) : Baton → Option Caller
  | .caller c' cl => if c = c' then some cl else none
  | _ => none

end Baton

namespace EdgeClientMulti

/-- The caller, if it is between the token and the hand-over. -/
def holding (s : EdgeClientMulti) (c : ℕ) : Option Caller :=
  s.callers[c]?.filter fun cl => cl.phase.active

/-- The token is in one place only. -/
structure HeldBy (s : EdgeClientMulti) (b : Baton) : Prop where
  calling : s.theCallingQueue = b.tokens
  queue : s.theConsumerQueue = b.queue
  consuming : s.consuming = b.consuming
  holding : ∀ c, s.holding c = b.holder c

/-- The addresses in the messages to and from a server, the latest response last. -/
def messages (s : EdgeClientMulti) (i : ℕ) : List ℕ :=
  (s.theQueueIn i).map MessageIn.theRequest ++
    ((s.executing i).toList.map MessageIn.theRequest ++
      (s.theQueueOut.filter fun m => m.theIndex = i).map MessageOut.theRequest)

/-- Each server is sent the current request once, if at all, and no other request. -/
def Flying (s : EdgeClientMulti) (awaited : Finset ℕ) : Prop :=
  ∀ i, s.messages i = if i ∈ awaited then [s.thePendingRequest] else []

/-- What has come of the request at an address. -/
def Outcome (s : EdgeClientMulti) (theRequest i : ℕ) (m : MessageOut) : Prop :=
  m ∈ s.outcomes ∧ m.theIndex = i ∧ m.theRequest = theRequest

/-- An answer is an error if all servers selected have failed, and otherwise the
response of one of them to the request of the caller. -/
structure Good (s : EdgeClientMulti) (a : Answer) : Prop where
  request : s.theRequests[a.theRequest]? = some a.aReq
  response : a.response.retcode ≠ "OK" ∧
      (∀ i ∈ a.selected, ∃ m, s.Outcome a.theRequest i m ∧ m.ok = false) ∨
    ∃ i ∈ a.selected, ∃ m r, s.Outcome a.theRequest i m ∧ m.theResponse = some r ∧
      r.retcode = "OK" ∧ a.response = { r with responder := s.theEndpoints.getD i "" }

/-- What the caller that holds the token knows. -/
def Knows (s : EdgeClientMulti) (cl : Caller) : Prop :=
  match cl.phase with
  | .sending selected rest => s.theRequests[s.thePendingRequest]? = some cl.aReq ∧
    rest.Nodup ∧ ∀ i ∈ rest, i ∈ selected
  | .collecting selected myPending myFastest =>
    s.theRequests[s.thePendingRequest]? = some cl.aReq ∧ myPending ⊆ selected ∧
    (∀ m, myFastest = some m → m.theIndex ∈ selected ∧
      s.Outcome s.thePendingRequest m.theIndex m) ∧
    (myFastest.any MessageOut.ok = false → ∀ i ∈ selected, i ∉ myPending →
      ∃ m, s.Outcome s.thePendingRequest i m ∧ m.ok = false)
  | _ => True

structure Inv (s : EdgeClientMulti) (b : Baton) : Prop where
  held : s.HeldBy b
  flying : s.Flying b.awaited
  knows : ∀ c cl, b = .caller c cl → s.Knows cl
  logged : ∀ m ∈ s.theQueueOut, m ∈ s.outcomes
  answers : ∀ a ∈ s.answers, s.Good a
  leaving : ∀ (c : ℕ) cl i a, s.callers[c]? = some cl → cl.phase = .leaving i a → s.Good a

variable {s s' : EdgeClientMulti} {b : Baton} {c i : ℕ} {cl : Caller}

/-- What has been logged stays logged. -/
structure Grows (s s' : EdgeClientMulti) : Prop where
  endpoints : s'.theEndpoints = s.theEndpoints
  requests : ∀ (q : ℕ) aReq, s.theRequests[q]? = some aReq → s'.theRequests[q]? = some aReq
  outcomes : s.outcomes ⊆ s'.outcomes

theorem Grows.of_eq (he : s'.theEndpoints = s.theEndpoints) (hr : s'.theRequests = s.theRequests)
    (ho : s'.outcomes = s.outcomes) : Grows s s' :=
  ⟨he, fun _ _ h => by rw [hr]; exact h, fun _ h => by rw [ho]; exact h⟩

theorem Outcome.grows {q : ℕ} {m : MessageOut} (h : s.Outcome q i m) (hg : Grows s s') :
    s'.Outcome q i m := ⟨hg.outcomes h.1, h.2⟩

theorem Good.grows {a : Answer} (h : s.Good a) (hg : Grows s s') : s'.Good a where
  request := hg.requests _ _ h.request
  response := by
    rcases h.response with ⟨hne, hall⟩ | ⟨i, hi, m, r, ho, hr, hok, ha⟩
    · refine .inl ⟨hne, fun i hi => ?_⟩
      obtain ⟨m, ho, hm⟩ := hall i hi
      exact ⟨m, ho.grows hg, hm⟩
    · exact .inr ⟨i, hi, m, r, ho.grows hg, hr, hok, by rw [hg.endpoints]; exact ha⟩

theorem Knows.grows (h : s.Knows cl) (hg : Grows s s')
    (hp : s'.thePendingRequest = s.thePendingRequest) : s'.Knows cl := by
  unfold Knows at h ⊢
  rw [hp]
  split at h
  · exact ⟨hg.requests _ _ h.1, h.2⟩
  · obtain ⟨hreq, hsub, hfastest, hfailed⟩ := h
    refine ⟨hg.requests _ _ hreq, hsub, fun m hm => ?_, fun hany i hi hnot => ?_⟩
    · exact ⟨(hfastest m hm).1, (hfastest m hm).2.grows hg⟩
    · obtain ⟨m, hm, hok⟩ := hfailed hany i hi hnot
      exact ⟨m, hm.grows hg, hok⟩
  · trivial

section Callers

variable {phase : Phase}

theorem holding_of_insert (h : s'.callers = s.callers.insert c cl) (c' : ℕ) : s'.holding c' =
    if c' = c then if cl.phase.active then some cl else none else s.holding c' := by
  rw [holding, h, Maps.lookup_insert]
  by_cases hc : c' = c
  · simp [hc, Option.filter]
  · simp [hc, holding]

theorem holding_of_erase (h : s'.callers = s.callers.erase c) (c' : ℕ) : s'.holding c' =
    if c' = c then none else s.holding c' := by
  rw [holding, h, Maps.lookup_erase]
  by_cases hc : c' = c
  · simp [hc]
  · simp [hc, holding]

theorem HeldBy.of_active (h : s.HeldBy b) (hc : s.callers[c]? = some cl)
    (hactive : cl.phase.active = true) : b = .caller c cl := by
  have hh := h.holding c
  rw [EdgeClientMulti.holding, hc, Option.filter_some, if_pos hactive] at hh
  cases b with
  | caller c' cl' =>
    rw [Baton.holder] at hh
    split at hh
    · rename_i heq
      rw [heq, Option.some.inj hh]
    · cases hh
  | token => cases hh
  | queued P => cases hh
  | held P => cases hh

/-- The holder goes on to another phase before the hand-over. -/
theorem HeldBy.go_on (h : s.HeldBy (.caller c cl)) {cl' : Caller} (hactive : cl'.phase.active = true)
    (hcallers : s'.callers = s.callers.insert c cl')
    (hcalling : s'.theCallingQueue = s.theCallingQueue)
    (hqueue : s'.theConsumerQueue = s.theConsumerQueue) (hconsuming : s'.consuming = s.consuming) :
    s'.HeldBy (.caller c cl') where
  calling := hcalling.trans h.calling
  queue := hqueue.trans h.queue
  consuming := hconsuming.trans h.consuming
  holding c' := by
    rw [holding_of_insert hcallers, if_pos hactive, h.holding]
    simp only [Baton.holder]
    split <;> rfl

end Callers

/-- The next response is one that is awaited, and is then awaited no more. -/
theorem Flying.pop {P : Finset ℕ} (h : s.Flying P) {out : MessageOut} {rest : List MessageOut}
    (hout : s.theQueueOut = out :: rest) : out.theIndex ∈ P ∧ out.theRequest = s.thePendingRequest ∧
      Flying { s with theQueueOut := rest } (P.erase out.theIndex) := by
  have hhead := h out.theIndex
  rw [messages, hout, List.filter_cons_of_pos (by simp), List.map_cons] at hhead
  have hmem : out.theIndex ∈ P := by
    by_contra hnot
    rw [if_neg hnot] at hhead
    simp at hhead
  simp only [if_pos hmem, List.append_eq_singleton_iff, List.append_eq_nil_iff, List.cons.injEq,
    reduceCtorEq, and_false, or_false] at hhead
  obtain ⟨hin, hexecuting, hrequest, hothers⟩ := hhead
  refine ⟨hmem, hrequest, fun i => ?_⟩
  by_cases hi : i = out.theIndex
  · rw [hi, if_neg (Finset.notMem_erase _ _)]
    show _ ++ (_ ++ List.map _ (rest.filter _)) = []
    rw [hin, hexecuting, hothers]
    rfl
  · have hother := h i
    rw [messages, hout, List.filter_cons_of_neg (by simpa using Ne.symm hi)] at hother
    rw [messages]
    simp only [Finset.mem_erase, ne_eq, hi, not_false_eq_true, true_and]
    exact hother

/-- Only the queues and the executors matter for what is in flight. -/
theorem Flying.congr {P : Finset ℕ} (h : s.Flying P) (hin : s'.theQueueIn = s.theQueueIn)
    (hexecuting : s'.executing = s.executing) (hout : s'.theQueueOut = s.theQueueOut)
    (hpending : s'.thePendingRequest = s.thePendingRequest) : s'.Flying P := by
  intro i
  rw [messages, hin, hexecuting, hout, hpending]
  exact h i

/-- The thread of a server takes a request, or has executed it. -/
theorem Flying.perm {P : Finset ℕ} (h : s.Flying P)
    (hperm : ∀ i, (s'.messages i).Perm (s.messages i))
    (hpending : s'.thePendingRequest = s.thePendingRequest) : s'.Flying P := by
  intro i
  have hi := hperm i
  rw [h i] at hi
  rw [hpending]
  split
  · rename_i hmem
    rw [if_pos hmem] at hi
    exact List.perm_singleton.mp hi
  · rename_i hmem
    rw [if_neg hmem] at hi
    exact hi.eq_nil

private theorem start_perm {m : MessageIn} {rest : List MessageIn}
    (hidle : s.executing i = none) (hin : s.theQueueIn i = m :: rest) (j : ℕ) :
    (messages { s with
      theQueueIn := Function.update s.theQueueIn i rest
      executing := Function.update s.executing i (some m) } j).Perm (s.messages j) := by
  by_cases hj : j = i
  · subst hj
    simp only [messages, Function.update_self, hidle, hin, Option.toList_some, Option.toList_none,
      List.map_cons, List.map_nil, List.nil_append, List.cons_append]
    exact List.perm_middle
  · simp only [messages, Function.update_of_ne hj]
    exact .refl _

private theorem finish_perm {m : MessageIn} (hrun : s.executing i = some m)
    (outcome : Option Rpc.LambdaResponse) (outcomes : List MessageOut) (j : ℕ) :
    (messages { s with
      executing := Function.update s.executing i none
      theQueueOut := s.theQueueOut ++ [⟨i, outcome, m.theRequest⟩]
      outcomes := outcomes } j).Perm (s.messages j) := by
  by_cases hj : j = i
  · subst hj
    simp only [messages, Function.update_self, hrun, Option.toList_some, Option.toList_none,
      List.map_cons, List.map_nil, List.nil_append, List.filter_append, List.map_append]
    refine .append_left _ ?_
    rw [List.filter_cons_of_pos (by simp)]
    exact List.perm_append_comm
  · simp only [messages, Function.update_of_ne hj, List.filter_append, List.map_append]
    rw [List.filter_cons_of_neg (by simpa using Ne.symm hj)]
    simp

section Executors

/-- The thread of a server changes neither the token nor what the callers know. -/
private theorem Inv.executed (h : s.Inv b) (hg : Grows s s')
    (hperm : ∀ i, (s'.messages i).Perm (s.messages i))
    (hpending : s'.thePendingRequest = s.thePendingRequest)
    (hcalling : s'.theCallingQueue = s.theCallingQueue)
    (hqueue : s'.theConsumerQueue = s.theConsumerQueue) (hconsuming : s'.consuming = s.consuming)
    (hcallers : s'.callers = s.callers) (hanswers : s'.answers = s.answers)
    (hlogged : ∀ m ∈ s'.theQueueOut, m ∈ s'.outcomes) : s'.Inv b where
  held := ⟨hcalling.trans h.held.calling, hqueue.trans h.held.queue,
    hconsuming.trans h.held.consuming, fun c => by
      rw [EdgeClientMulti.holding, hcallers]
      exact h.held.holding c⟩
  flying := h.flying.perm hperm hpending
  knows c cl hb := (h.knows c cl hb).grows hg hpending
  logged := hlogged
  answers a ha := (h.answers a (hanswers ▸ ha)).grows hg
  leaving c cl i a hc hphase := (h.leaving c cl i a (hcallers ▸ hc) hphase).grows hg

private theorem Inv.start (h : s.Inv b) (i : ℕ) : (s.execLambda (.start i)).Inv b := by
  simp only [execLambda]
  split
  · rename_i m rest hidle hin
    exact h.executed (.of_eq rfl rfl rfl) (start_perm hidle hin) rfl rfl rfl rfl rfl
      rfl h.logged
  · exact h

private theorem Inv.finish (h : s.Inv b) (i : ℕ) (outcome : Option Rpc.LambdaResponse) :
    (s.execLambda (.finish i outcome)).Inv b := by
  simp only [execLambda]
  split
  · rename_i m hrun
    have hgrows : s.outcomes ⊆ ⟨i, outcome, m.theRequest⟩ :: s.outcomes :=
      List.subset_cons_self _ _
    refine h.executed ⟨rfl, fun _ _ h => h, hgrows⟩ (finish_perm hrun outcome _) rfl rfl rfl rfl rfl
      rfl fun out hout => ?_
    rcases List.mem_append.mp hout with hout | hout
    · exact hgrows (h.logged out hout)
    · rw [List.mem_singleton.mp hout]
      exact List.mem_cons_self
  · exact h

end Executors

section Consumer

private theorem Baton.of_held {P : Finset ℕ} (h : b.consuming = some P) : b = .held P := by
  cases b with
  | held P' => exact congrArg _ (Option.some.inj h)
  | token => cases h
  | caller c cl => cases h
  | queued P' => cases h

private theorem Baton.of_queued {P : Finset ℕ} {rest : List (Finset ℕ)} (h : b.queue = P :: rest) :
    b = .queued P ∧ rest = [] := by
  cases b with
  | queued P' =>
    obtain ⟨hp, hrest⟩ := List.cons.inj h
    exact ⟨congrArg _ hp, hrest.symm⟩
  | token => cases h
  | caller c cl => cases h
  | held P' => cases h

/-- The consumer passes the token on with what is still awaited. -/
private theorem Inv.passed (h : s.Inv b) {b' : Baton} (hg : Grows s s')
    (hb : ∀ c, b.holder c = none) (hb' : ∀ c, b'.holder c = none)
    (hcalling : s'.theCallingQueue = b'.tokens) (hqueue : s'.theConsumerQueue = b'.queue)
    (hconsuming : s'.consuming = b'.consuming) (hflying : s'.Flying b'.awaited)
    (hcallers : s'.callers = s.callers) (hanswers : s'.answers = s.answers)
    (hlogged : ∀ m ∈ s'.theQueueOut, m ∈ s'.outcomes) : s'.Inv b' where
  held := ⟨hcalling, hqueue, hconsuming, fun c => by
    rw [EdgeClientMulti.holding, hcallers, hb']
    exact (h.held.holding c).trans (hb c)⟩
  flying := hflying
  knows c cl heq := by
    have := hb' c
    rw [heq, Baton.holder, if_pos rfl] at this
    cases this
  logged := hlogged
  answers a ha := (h.answers a (hanswers ▸ ha)).grows hg
  leaving c cl i a hc hphase := (h.leaving c cl i a (hcallers ▸ hc) hphase).grows hg

private theorem Inv.consume (h : s.Inv b) : ∃ b', (s.consumer .consume).Inv b' := by
  simp only [consumer]
  split
  · rename_i P rest hconsuming hqueue
    have hq := h.held.queue
    rw [hqueue] at hq
    obtain ⟨rfl, rfl⟩ := Baton.of_queued hq.symm
    exact ⟨.held P, h.passed (.of_eq rfl rfl rfl) (fun _ => rfl) (fun _ => rfl) h.held.calling rfl rfl
      (h.flying.congr rfl rfl rfl rfl) rfl rfl h.logged⟩
  · exact ⟨b, h⟩

private theorem Inv.discard (h : s.Inv b) : ∃ b', (s.consumer .discard).Inv b' := by
  simp only [consumer]
  split
  · rename_i P out rest hconsuming hout
    have hc := h.held.consuming
    rw [hconsuming] at hc
    obtain rfl := Baton.of_held hc.symm
    split
    · exact ⟨_, h⟩
    · obtain ⟨-, -, hflying⟩ := h.flying.pop hout
      refine ⟨.held (P.erase out.theIndex), h.passed (.of_eq rfl rfl rfl) (fun _ => rfl) (fun _ => rfl)
        h.held.calling h.held.queue rfl (hflying.congr rfl rfl rfl rfl) rfl rfl fun m hm => ?_⟩
      exact h.logged m (hout ▸ List.mem_cons_of_mem _ hm)
  · exact ⟨b, h⟩

private theorem Inv.release (h : s.Inv b) : ∃ b', (s.consumer .release).Inv b' := by
  simp only [consumer]
  split
  · rename_i hconsuming
    have hc := h.held.consuming
    rw [hconsuming] at hc
    obtain rfl := Baton.of_held hc.symm
    have hcalling : s.theCallingQueue = 0 := h.held.calling
    exact ⟨.token, h.passed (.of_eq rfl rfl rfl) (fun _ => rfl) (fun _ => rfl) (by rw [hcalling]; rfl)
      h.held.queue rfl (h.flying.congr rfl rfl rfl rfl) rfl rfl h.logged⟩
  · exact ⟨b, h⟩

end Consumer

section Callers

/-- The caller that holds the token takes a step that keeps it. -/
private theorem Inv.holds (h : s.Inv (.caller c cl)) {cl' : Caller} (hg : Grows s s')
    (hactive : cl'.phase.active = true) (hcallers : s'.callers = s.callers.insert c cl')
    (hcalling : s'.theCallingQueue = s.theCallingQueue)
    (hqueue : s'.theConsumerQueue = s.theConsumerQueue) (hconsuming : s'.consuming = s.consuming)
    (hflying : s'.Flying cl'.phase.awaited) (hknows : s'.Knows cl')
    (hanswers : s'.answers = s.answers) (hlogged : ∀ m ∈ s'.theQueueOut, m ∈ s'.outcomes) :
    s'.Inv (.caller c cl') where
  held := h.held.go_on hactive hcallers hcalling hqueue hconsuming
  flying := hflying
  knows c' cl'' hb := by
    cases hb
    exact hknows
  logged := hlogged
  answers a ha := (h.answers a (hanswers ▸ ha)).grows hg
  leaving c' cl'' i a hc hphase := by
    rw [hcallers, Maps.lookup_insert] at hc
    split at hc
    · cases hc
      rw [hphase] at hactive
      cases hactive
    · exact (h.leaving c' cl'' i a hc hphase).grows hg

variable (hc : s.callers[c]? = some cl)

include hc

/-- A caller in one of the phases before the hand-over holds the token. -/
private theorem Inv.caller_eq (h : s.Inv b) (hactive : cl.phase.active = true) :
    s.Inv (.caller c cl) := h.held.of_active hc hactive ▸ h

private theorem Inv.select (h : s.Inv b) (secondary : Finset ℕ) :
    ∃ b', (s.runLambda c cl (.select c secondary)).Inv b' := by
  simp only [runLambda]
  split
  · rename_i hphase
    have h := h.caller_eq hc (by rw [hphase]; rfl)
    refine ⟨_, h.holds (.of_eq rfl rfl rfl) rfl rfl rfl rfl rfl ?_ trivial rfl h.logged⟩
    have hflying := h.flying
    rw [Baton.awaited, hphase] at hflying
    exact hflying.congr rfl rfl rfl rfl
  · exact ⟨b, h⟩

private theorem Inv.copy (h : s.Inv b) : ∃ b', (s.runLambda c cl (.copy c)).Inv b' := by
  simp only [runLambda]
  split
  · rename_i myPending hphase
    have h := h.caller_eq hc (by rw [hphase]; rfl)
    have hgrows : ∀ (q : ℕ) aReq, s.theRequests[q]? = some aReq →
        (s.theRequests ++ [cl.aReq])[q]? = some aReq := by
      intro q aReq hq
      rw [List.getElem?_append_left (List.getElem?_eq_some_iff.mp hq).1]
      exact hq
    refine ⟨_, h.holds ⟨rfl, hgrows, fun _ h => h⟩ rfl rfl rfl rfl rfl ?_ ?_ rfl h.logged⟩
    · -- no thread has the address of the request that is freed
      have hflying := h.flying
      rw [Baton.awaited, hphase] at hflying
      intro i
      have hi := hflying i
      have hnone : (Phase.copying myPending).awaited = ∅ := rfl
      rw [hnone, if_neg (Finset.notMem_empty i)] at hi
      simp only [Phase.awaited, Finset.sort_toFinset, sdiff_self, Finset.bot_eq_empty,
        Finset.notMem_empty, if_false]
      exact hi
    · refine ⟨List.getElem?_concat_length, Finset.sort_nodup _ _, fun i hi => ?_⟩
      exact (Finset.mem_sort _).mp hi
  · exact ⟨b, h⟩

private theorem Inv.send (h : s.Inv b) : ∃ b', (s.runLambda c cl (.send c)).Inv b' := by
  simp only [runLambda]
  split
  · rename_i selected ndx rest hphase
    have h := h.caller_eq hc (by rw [hphase]; rfl)
    obtain ⟨hreq, hnodup, hrest⟩ : s.theRequests[s.thePendingRequest]? = some cl.aReq ∧
        (ndx :: rest).Nodup ∧ ∀ i ∈ ndx :: rest, i ∈ selected := by
      have hknows := h.knows c cl rfl
      rw [Knows, hphase] at hknows
      exact hknows
    have hflying := h.flying
    rw [Baton.awaited, hphase] at hflying
    refine ⟨_, h.holds (.of_eq rfl rfl rfl) rfl rfl rfl rfl rfl ?_ ?_ rfl h.logged⟩
    · intro i
      have hi := hflying i
      simp only [Phase.awaited, Finset.mem_sdiff, List.mem_toFinset, List.mem_cons, not_or] at hi ⊢
      by_cases hndx : i = ndx
      · subst hndx
        rw [if_neg (by simp)] at hi
        simp only [messages, List.append_eq_nil_iff] at hi
        obtain ⟨hin, hexecuting, hout⟩ := hi
        rw [if_pos ⟨hrest i List.mem_cons_self, (List.nodup_cons.mp hnodup).1⟩]
        simp only [messages, Function.update_self, List.map_append, hin]
        show _ ++ _ ++ (List.map _ (s.executing i).toList ++ List.map _ (s.theQueueOut.filter _)) = _
        rw [hexecuting, hout]
        rfl
      · simp only [hndx, not_false_eq_true, true_and] at hi
        simp only [messages, Function.update_of_ne hndx]
        exact hi
    · exact ⟨hreq, (List.nodup_cons.mp hnodup).2, fun i hi => hrest i (List.mem_cons_of_mem _ hi)⟩
  · rename_i selected hphase
    have h := h.caller_eq hc (by rw [hphase]; rfl)
    have hknows := h.knows c cl rfl
    rw [Knows, hphase] at hknows
    have hflying := h.flying
    rw [Baton.awaited, hphase, Phase.awaited, List.toFinset_nil, Finset.sdiff_empty] at hflying
    refine ⟨_, h.holds (.of_eq rfl rfl rfl) rfl rfl rfl rfl rfl (hflying.congr rfl rfl rfl rfl) ?_
      rfl h.logged⟩
    refine ⟨hknows.1, fun _ h => h, fun m hm => ?_, fun _ i hi hnot => absurd hi hnot⟩
    cases hm
  · exact ⟨b, h⟩

private theorem Inv.pop (h : s.Inv b) : ∃ b', (s.runLambda c cl (.pop c)).Inv b' := by
  simp only [runLambda]
  split
  · rename_i selected myPending myFastest out rest hphase hout
    split
    · exact ⟨b, h⟩
    · rename_i hgo
      simp only [not_or, Bool.not_eq_true] at hgo
      have h := h.caller_eq hc (by rw [hphase]; rfl)
      have hknows := h.knows c cl rfl
      rw [Knows, hphase] at hknows
      obtain ⟨hreq, hsub, -, hfailed⟩ := hknows
      have hflying := h.flying
      rw [Baton.awaited, hphase] at hflying
      obtain ⟨hmem, hrequest, hflying'⟩ := hflying.pop hout
      have hlogged : s.Outcome s.thePendingRequest out.theIndex out :=
        ⟨h.logged out (hout ▸ List.mem_cons_self), rfl, hrequest⟩
      refine ⟨_, h.holds (.of_eq rfl rfl rfl) rfl rfl rfl rfl rfl (hflying'.congr rfl rfl rfl rfl)
        ?_ rfl fun m hm => h.logged m (hout ▸ List.mem_cons_of_mem _ hm)⟩
      refine ⟨hreq, (Finset.erase_subset _ _).trans hsub, fun m hm => ?_, fun hany i hi hnot => ?_⟩
      · cases hm
        exact ⟨hsub hmem, hlogged⟩
      · by_cases hindex : i = out.theIndex
        · subst hindex
          exact ⟨out, hlogged, by simpa using hany⟩
        · exact hfailed hgo.2 i hi fun hin => hnot (Finset.mem_erase.mpr ⟨hindex, hin⟩)
  · exact ⟨b, h⟩

omit hc in
/-- The caller hands the token over, and has an answer to give. -/
private theorem Inv.hands (h : s.Inv (.caller c cl)) {b' : Baton} (hg : Grows s s')
    (hb' : ∀ c, b'.holder c = none) (hcalling : s'.theCallingQueue = b'.tokens)
    (hqueue : s'.theConsumerQueue = b'.queue) (hconsuming : s'.consuming = b'.consuming)
    (hflying : s'.Flying b'.awaited) {answer : Answer} (hgood : s.Good answer)
    (hcallers : s'.callers = s.callers.erase c ∨ ∃ i, s'.callers =
      s.callers.insert c { cl with phase := .leaving i answer })
    (hanswers : ∀ a ∈ s'.answers, a = answer ∨ a ∈ s.answers)
    (hlogged : ∀ m ∈ s'.theQueueOut, m ∈ s'.outcomes) : s'.Inv b' where
  held := ⟨hcalling, hqueue, hconsuming, fun c' => by
    have hold := h.held.holding c'
    rw [Baton.holder] at hold
    rw [hb']
    rcases hcallers with hcallers | ⟨i, hcallers⟩
    · rw [holding_of_erase hcallers, hold]
      split <;> rfl
    · rw [holding_of_insert hcallers, hold]
      simp [Phase.active]⟩
  flying := hflying
  knows c' cl' heq := by
    have := hb' c'
    rw [heq, Baton.holder, if_pos rfl] at this
    cases this
  logged := hlogged
  answers a ha := by
    rcases hanswers a ha with rfl | ha
    · exact hgood.grows hg
    · exact (h.answers a ha).grows hg
  leaving c' cl' i a hc hphase := by
    rcases hcallers with hcallers | ⟨j, hcallers⟩
    · rw [hcallers, Maps.lookup_erase] at hc
      split at hc
      · cases hc
      · exact (h.leaving c' cl' i a hc hphase).grows hg
    · rw [hcallers, Maps.lookup_insert] at hc
      split at hc
      · cases hc
        cases hphase
        exact hgood.grows hg
      · exact (h.leaving c' cl' i a hc hphase).grows hg

omit hc in
private theorem Inv.fail (h : s.Inv (.caller c cl)) (hawaited : cl.phase.awaited = ∅)
    {answer : Answer} (hgood : s.Good answer) : (s.fail c answer).Inv .token := by
  have hcalling : s.theCallingQueue = 0 := h.held.calling
  have hflying := h.flying
  rw [Baton.awaited, hawaited] at hflying
  refine h.hands (.of_eq rfl rfl rfl) (fun _ => rfl) ?_ h.held.queue h.held.consuming
    (hflying.congr rfl rfl rfl rfl) hgood (.inl rfl) (fun a ha => List.mem_cons.mp ha) h.logged
  show s.theCallingQueue + 1 = 1
  rw [hcalling]

private theorem Inv.handOver (h : s.Inv b) : ∃ b', (s.runLambda c cl (.handOver c)).Inv b' := by
  simp only [runLambda]
  split
  · rename_i selected myPending myFastest hphase
    split
    · exact ⟨b, h⟩
    · rename_i hdone
      have h := h.caller_eq hc (by rw [hphase]; rfl)
      have hknows := h.knows c cl rfl
      rw [Knows, hphase] at hknows
      obtain ⟨hreq, -, hfastest, hfailed⟩ := hknows
      -- without a good response all servers have answered
      have hall (hnot : myFastest.any MessageOut.ok = false) : myPending = ∅ := by
        by_contra hne
        exact hdone ⟨hne, by simp [hnot]⟩
      have herror (r : Rpc.LambdaResponse) (hr : r.retcode ≠ "OK")
          (hnot : myFastest.any MessageOut.ok = false) :
          s.Good ⟨cl.aReq, s.thePendingRequest, selected, r⟩ := by
        refine ⟨hreq, .inl ⟨hr, fun i hi => hfailed hnot i hi ?_⟩⟩
        rw [hall hnot]
        exact Finset.notMem_empty i
      have hawaited (hnot : myFastest.any MessageOut.ok = false) : cl.phase.awaited = ∅ := by
        rw [hphase]
        exact hall hnot
      split
      · rename_i hnone
        have hnot : myFastest.any MessageOut.ok = false := by
          cases myFastest with
          | none => rfl
          | some m =>
            have hm : m.theResponse = none := hnone
            simp [MessageOut.ok, hm]
        exact ⟨.token, h.fail (hawaited hnot) (herror _ (by simp) hnot)⟩
      · rename_i r hsome
        obtain ⟨m, rfl, hm⟩ := Option.bind_eq_some_iff.mp hsome
        split
        · rename_i hr
          have hnot : (some m).any MessageOut.ok = false := by simp [MessageOut.ok, hm, hr]
          exact ⟨.token, h.fail (hawaited hnot) (herror _ hr hnot)⟩
        · rename_i hr
          have hok := not_not.mp hr
          obtain ⟨hselected, hlogged⟩ := hfastest m rfl
          have hgood : s.Good ⟨cl.aReq, s.thePendingRequest, selected,
              { r with responder := s.theEndpoints.getD m.theIndex "" }⟩ :=
            ⟨hreq, .inr ⟨m.theIndex, hselected, m, r, hlogged, hm, hok, rfl⟩⟩
          have hflying := h.flying
          rw [Baton.awaited, hphase] at hflying
          have hcalling : s.theCallingQueue = 0 := h.held.calling
          have hqueue : s.theConsumerQueue = [] := h.held.queue
          split
          · rename_i hempty
            subst hempty
            refine ⟨.token, h.hands (.of_eq rfl rfl rfl) (fun _ => rfl) ?_ hqueue h.held.consuming
              (hflying.congr rfl rfl rfl rfl) hgood (.inr ⟨_, rfl⟩) (fun a ha => .inr ha) h.logged⟩
            show s.theCallingQueue + 1 = 1
            rw [hcalling]
          · refine ⟨.queued myPending, h.hands (.of_eq rfl rfl rfl) (fun _ => rfl) hcalling ?_
              h.held.consuming (hflying.congr rfl rfl rfl rfl) hgood (.inr ⟨_, rfl⟩)
              (fun a ha => .inr ha) h.logged⟩
            show s.theConsumerQueue ++ [myPending] = [myPending]
            rw [hqueue]
            rfl
  · exact ⟨b, h⟩

omit hc in
/-- A caller that does not hold the token comes or goes. -/
private theorem Inv.aside (h : s.Inv b) (hg : Grows s s') (hholding : ∀ c, s'.holding c = s.holding c)
    (hcalling : s'.theCallingQueue = s.theCallingQueue)
    (hqueue : s'.theConsumerQueue = s.theConsumerQueue) (hconsuming : s'.consuming = s.consuming)
    (hflying : s'.Flying b.awaited) (hpending : s'.thePendingRequest = s.thePendingRequest)
    (hlogged : ∀ m ∈ s'.theQueueOut, m ∈ s'.outcomes) (hanswers : ∀ a ∈ s'.answers, s.Good a)
    (hleaving : ∀ (c : ℕ) cl i a, s'.callers[c]? = some cl → cl.phase = .leaving i a → s.Good a) :
    s'.Inv b where
  held := ⟨hcalling.trans h.held.calling, hqueue.trans h.held.queue,
    hconsuming.trans h.held.consuming, fun c => (hholding c).trans (h.held.holding c)⟩
  flying := hflying
  knows c cl hb := (h.knows c cl hb).grows hg hpending
  logged := hlogged
  answers a ha := (hanswers a ha).grows hg
  leaving c cl i a hc hphase := (hleaving c cl i a hc hphase).grows hg

private theorem Inv.leave (h : s.Inv b) : ∃ b', (s.runLambda c cl (.leave c)).Inv b' := by
  simp only [runLambda]
  split
  · rename_i theIndex answer hphase
    have hgood := h.leaving c cl theIndex answer hc hphase
    refine ⟨b, h.aside (.of_eq rfl rfl rfl) (fun c' => ?_) rfl rfl rfl
      (h.flying.congr rfl rfl rfl rfl) rfl h.logged (fun a ha => ?_) fun c' cl' i a hc' hp => ?_⟩
    · rw [holding_of_erase rfl]
      split
      · rename_i heq
        rw [heq, EdgeClientMulti.holding, hc, Option.filter_some, hphase]
        rfl
      · rfl
    · rcases List.mem_cons.mp ha with rfl | ha
      · exact hgood
      · exact h.answers a ha
    · have hc'' : (s.callers.erase c)[c']? = some cl' := hc'
      rw [Maps.lookup_erase] at hc''
      split at hc''
      · cases hc''
      · exact h.leaving c' cl' i a hc'' hp
  · exact ⟨b, h⟩

omit hc in
private theorem Inv.token (h : s.Inv b) : ∃ b', (s.runLambda c cl (.token c)).Inv b' := by
  simp only [runLambda]
  split
  · rename_i hphase
    split
    · exact ⟨b, h⟩
    · rename_i hpos
      have hb : b = .token := by
        have hcalling := h.held.calling
        cases b with
        | token => rfl
        | caller c' cl' => exact absurd hcalling hpos
        | queued P => exact absurd hcalling hpos
        | held P => exact absurd hcalling hpos
      subst hb
      have hcalling : s.theCallingQueue = 1 := h.held.calling
      refine ⟨.caller c { cl with phase := .selecting }, ⟨⟨?_, h.held.queue, h.held.consuming,
        fun c' => ?_⟩, h.flying.congr rfl rfl rfl rfl, fun c' cl' hb => ?_, h.logged,
        fun a ha => (h.answers a ha).grows (.of_eq rfl rfl rfl), fun c' cl' i a hc' hp => ?_⟩⟩
      · show s.theCallingQueue - 1 = 0
        rw [hcalling]
      · rw [holding_of_insert rfl, h.held.holding c']
        simp [Baton.holder, Phase.active]
      · cases hb
        trivial
      · have hc'' : (s.callers.insert c { cl with phase := .selecting })[c']? = some cl' := hc'
        rw [Maps.lookup_insert] at hc''
        split at hc''
        · cases hc''
          cases hp
        · exact (h.leaving c' cl' i a hc'' hp).grows (.of_eq rfl rfl rfl)
  · exact ⟨b, h⟩

omit hc in
private theorem Inv.call (h : s.Inv b) (hnew : c ∉ s.callers) (aReq : LambdaRequest) (aDry : Bool) :
    Inv { s with callers := s.callers.insert c ⟨aReq, aDry, .waiting⟩ } b := by
  refine h.aside (.of_eq rfl rfl rfl) (fun c' => ?_) rfl rfl rfl (h.flying.congr rfl rfl rfl rfl) rfl
    h.logged h.answers fun c' cl' i a hc' hp => ?_
  · rw [holding_of_insert rfl]
    split
    · rename_i heq
      have hnone : s.callers[c]? = none := ExtTreeMap.getElem?_eq_none hnew
      rw [heq, EdgeClientMulti.holding, hnone]
      rfl
    · rfl
  · have hc'' : (s.callers.insert c ⟨aReq, aDry, .waiting⟩)[c']? = some cl' := hc'
    rw [Maps.lookup_insert] at hc''
    split at hc''
    · cases hc''
      cases hp
    · exact h.leaving c' cl' i a hc'' hp

end Callers

/-- A step of a caller that is there. -/
private theorem Inv.runLambda (h : s.Inv b) (hc : s.callers[c]? = some cl) (e : Event) :
    ∃ b', (s.runLambda c cl e).Inv b' := by
  cases e with
  | token c' => exact h.token
  | select c' secondary => exact h.select hc secondary
  | copy c' => exact h.copy hc
  | send c' => exact h.send hc
  | pop c' => exact h.pop hc
  | handOver c' => exact h.handOver hc
  | leave c' => exact h.leave hc
  | _ => exact ⟨b, h⟩

theorem Inv.step (h : s.Inv b) (e : Event) : ∃ b', (s.step e).Inv b' := by
  cases e with
  | call c aReq aDry =>
    simp only [EdgeClientMulti.step]
    split
    · exact ⟨b, h⟩
    · rename_i hnew
      exact ⟨b, h.call hnew aReq aDry⟩
  | start i => exact ⟨b, h.start i⟩
  | finish i outcome => exact ⟨b, h.finish i outcome⟩
  | consume => exact h.consume
  | discard => exact h.discard
  | release => exact h.release
  | token c | select c secondary | copy c | send c | pop c | handOver c | leave c =>
    simp only [EdgeClientMulti.step]
    split
    · rename_i c' cl hsome
      obtain ⟨c'', -, hmap⟩ := Option.bind_eq_some_iff.mp hsome
      obtain ⟨cl', hc, heq⟩ := Option.map_eq_some_iff.mp hmap
      cases heq
      exact h.runLambda hc _
    · exact ⟨b, h⟩

theorem Inv.new (aServerEndpoints : List String) : (new aServerEndpoints).Inv .token where
  held := ⟨rfl, rfl, rfl, fun c => by simp [EdgeClientMulti.holding, EdgeClientMulti.new, Baton.holder]⟩
  flying i := by simp [messages, EdgeClientMulti.new, Baton.awaited]
  knows c cl hb := by cases hb
  logged m hm := by cases hm
  answers a ha := by cases ha
  leaving c cl i a hc := absurd hc (by simp [EdgeClientMulti.new])

/-- The callers between the token and the hand-over. -/
def activeCallers (s : EdgeClientMulti) : ℕ :=
  Maps.total (fun _ cl => if cl.phase.active then 1 else 0) s.callers

/-- The protocol of the token. -/
structure Protocol (s : EdgeClientMulti) : Prop where
  /-- The token is in the queue, or at a caller, or at the consumer. -/
  token : s.theCallingQueue + s.activeCallers +
    (s.theConsumerQueue.length + s.consuming.toList.length) = 1
  /-- A caller pops no response to another request or of a server that is not pending. -/
  popped : ∀ (c : ℕ) cl selected myPending myFastest, s.callers[c]? = some cl →
    cl.phase = .collecting selected myPending myFastest →
      ∀ m ∈ s.theQueueOut, m.theIndex ∈ myPending ∧ m.theRequest = s.thePendingRequest ∧
        s.theRequests[s.thePendingRequest]? = some cl.aReq
  discarded : ∀ myPending, s.consuming = some myPending →
    ∀ m ∈ s.theQueueOut, m.theIndex ∈ myPending
  /-- The threads of the servers refer to the request that is not freed. -/
  request : ∀ i, ∀ m, m ∈ s.theQueueIn i ∨ s.executing i = some m → m.theRequest = s.thePendingRequest
  answers : ∀ a ∈ s.answers, s.Good a

private theorem HeldBy.activeCallers (h : s.HeldBy b) :
    s.activeCallers = match b with
      | .caller _ _ => 1
      | _ => 0 := by
  have hnone (hb : ∀ c, b.holder c = none) : s.activeCallers = 0 := by
    refine Maps.total_eq_zero _ fun c cl hc => if_neg fun hactive => ?_
    have hheld := h.holding c
    rw [EdgeClientMulti.holding, hc, Option.filter_some, if_pos hactive, hb] at hheld
    cases hheld
  cases b with
  | token => exact hnone fun _ => rfl
  | queued P => exact hnone fun _ => rfl
  | held P => exact hnone fun _ => rfl
  | caller c cl =>
    have hheld := h.holding c
    rw [Baton.holder, if_pos rfl, EdgeClientMulti.holding, Option.filter_eq_some_iff] at hheld
    rw [EdgeClientMulti.activeCallers, Maps.total_of_lookup _ hheld.1, if_pos hheld.2]
    have hothers : Maps.total (fun _ cl => if cl.phase.active then 1 else 0) (s.callers.erase c) = 0 := by
      refine Maps.total_eq_zero _ fun c' cl' hc' => if_neg fun hactive => ?_
      rw [Maps.lookup_erase] at hc'
      split at hc'
      · cases hc'
      · rename_i hne
        have hheld' := h.holding c'
        rw [EdgeClientMulti.holding, hc', Option.filter_some, if_pos hactive, Baton.holder,
          if_neg hne] at hheld'
        cases hheld'
    rw [hothers]

/-- What is in the queues is awaited, and concerns the current request. -/
private theorem Flying.out {P : Finset ℕ} (h : s.Flying P) {m : MessageOut}
    (hm : m ∈ s.theQueueOut) : m.theIndex ∈ P ∧ m.theRequest = s.thePendingRequest := by
  have hmem : m.theRequest ∈ s.messages m.theIndex := by
    refine List.mem_append_right _ (List.mem_append_right _ (List.mem_map_of_mem ?_))
    exact List.mem_filter.mpr ⟨hm, by simp⟩
  rw [h m.theIndex] at hmem
  split at hmem
  · rename_i hi
    exact ⟨hi, List.mem_singleton.mp hmem⟩
  · cases hmem

private theorem Flying.sent {P : Finset ℕ} (h : s.Flying P) {m : MessageIn}
    (hm : m ∈ s.theQueueIn i ∨ s.executing i = some m) : m.theRequest = s.thePendingRequest := by
  have hmem : m.theRequest ∈ s.messages i := by
    rcases hm with hm | hm
    · exact List.mem_append_left _ (List.mem_map_of_mem hm)
    · refine List.mem_append_right _ (List.mem_append_left _ (List.mem_map_of_mem ?_))
      rw [hm]
      exact List.mem_singleton_self m
  rw [h i] at hmem
  split at hmem
  · exact List.mem_singleton.mp hmem
  · cases hmem

theorem Inv.protocol (h : s.Inv b) : s.Protocol where
  token := by
    rw [h.held.activeCallers, h.held.calling, h.held.queue, h.held.consuming]
    cases b <;> rfl
  popped c cl selected myPending myFastest hc hphase m hm := by
    have h := h.caller_eq hc (by rw [hphase]; rfl)
    have hknows := h.knows c cl rfl
    rw [Knows, hphase] at hknows
    have hflying := h.flying
    rw [Baton.awaited, hphase] at hflying
    obtain ⟨hmem, hrequest⟩ := hflying.out hm
    exact ⟨hmem, hrequest, hknows.1⟩
  discarded myPending hconsuming m hm := by
    have hc := h.held.consuming
    rw [hconsuming] at hc
    obtain rfl := Baton.of_held hc.symm
    exact (h.flying.out hm).1
  request i m hm := h.flying.sent hm
  answers := h.answers

/-- The protocol holds whatever the servers selected and their responses, for any
order of the steps of any number of callers and of the threads. -/
theorem token_protocol (aServerEndpoints : List String) (events : List Event) :
    ∀ s ∈ Runs.states step (new aServerEndpoints) events, s.Protocol := by
  intro s hs
  obtain ⟨b, h⟩ := Runs.invariant (I := fun s : EdgeClientMulti => ∃ b, s.Inv b)
    (fun _ e ⟨_, h⟩ => h.step e) events ⟨.token, .new aServerEndpoints⟩ s hs
  exact h.protocol

/-- A call to two servers, the second of which fails. -/
def exampleCall (aReq : LambdaRequest) : List Event :=
  [.call 0 aReq false, .token 0, .select 0 {1}, .copy 0, .send 0, .send 0, .send 0, .start 0,
    .start 1, .finish 1 none, .finish 0 (some { retcode := "OK" }), .pop 0, .pop 0, .handOver 0,
    .leave 0]

theorem token_protocol_example :
    (Runs.final step (new ["host0:6473", "host1:6473"]) (exampleCall
      ⟨"f0", "input", "", true, 0, ∅, "", none, none, 0, ""⟩)).Protocol :=
  token_protocol _ _ _ (Runs.final_mem_states step _ _)

end EdgeClientMulti

end ServerlessEdge.Clients
