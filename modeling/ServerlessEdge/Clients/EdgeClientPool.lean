import ServerlessEdge.Library.Maps
import ServerlessEdge.Library.Runs

/-! The pool of clients, shared by calls that are in progress at the same time. -/
namespace ServerlessEdge.Clients
open Std Library

structure Descriptor (C : Type) where
  theFree : List C := []
  theBusy : ℕ := 0

/-- At most theMaxClients for each destination, or any number if it is zero. -/
structure EdgeClientPool (C : Type) where
  theMaxClients : ℕ
  thePool : ExtTreeMap String (Descriptor C)

/-- What a call finds in the pool: no client, or one that the factory fails to
make, or a client. -/
inductive Got (C : Type) where
  | blocked
  | thrown
  | client (myClient : C)

variable {C : Type}

namespace EdgeClientPool

def desc (p : EdgeClientPool C) (aDestination : String) : Descriptor C :=
  p.thePool.getD aDestination {}

def set (p : EdgeClientPool C) (aDestination : String) (aDesc : Descriptor C) : EdgeClientPool C :=
  { p with thePool := p.thePool.insert aDestination aDesc }

/-- The condition on which a call waits. -/
def available (p : EdgeClientPool C) (aDestination : String) : Bool :=
  p.theMaxClients = 0 || !(p.desc aDestination).theFree.isEmpty ||
    (p.desc aDestination).theBusy < p.theMaxClients

/-- The client that the factory makes, if it does, is given. -/
def getClient (p : EdgeClientPool C) (aDestination : String) (aMade : Option C) :
    Got C × EdgeClientPool C :=
  let myDesc := p.desc aDestination
  if !p.available aDestination then (.blocked, p.set aDestination myDesc)
  else match myDesc.theFree with
    | [] =>
      let q := p.set aDestination { myDesc with theBusy := myDesc.theBusy + 1 }
      match aMade with
      | none => (.thrown, q)
      | some myClient => (.client myClient, q)
    | myClient :: theFree =>
      (.client myClient, p.set aDestination ⟨theFree, myDesc.theBusy + 1⟩)

def releaseClient (p : EdgeClientPool C) (aDestination : String) (aClient : C) : EdgeClientPool C :=
  let myDesc := p.desc aDestination
  p.set aDestination ⟨myDesc.theFree ++ [aClient], myDesc.theBusy - 1⟩

end EdgeClientPool

/-- A call to a destination, which waits as long as it has no client. -/
structure Call (C : Type) where
  aDestination : String
  myClient : Option C
  deriving DecidableEq

/-- The pool with the calls in progress. -/
structure System (C : Type) where
  pool : EdgeClientPool C
  calls : ExtTreeMap ℕ (Call C)

inductive Event (C : Type) where
  | call (id : ℕ) (aDestination : String) (aMade : Option C)
  | wake (id : ℕ) (aMade : Option C)
  | returned (id : ℕ)
  | failed (id : ℕ)

namespace System

def new (aMaxClients : ℕ) : System C := ⟨⟨aMaxClients, ∅⟩, ∅⟩

/-- The part of a call up to the invocation of the client. -/
def get (s : System C) (id : ℕ) (aDestination : String) (aMade : Option C) : System C :=
  let (got, pool) := s.pool.getClient aDestination aMade
  match got with
  | .blocked => ⟨pool, s.calls.insert id ⟨aDestination, none⟩⟩
  | .thrown => ⟨pool, s.calls.erase id⟩
  | .client myClient => ⟨pool, s.calls.insert id ⟨aDestination, some myClient⟩⟩

/-- An exception of the client ends the call. -/
def step (s : System C) : Event C → System C
  | .call id aDestination aMade =>
    if id ∈ s.calls then s else s.get id aDestination aMade
  | .wake id aMade =>
    match s.calls[id]? with
    | some ⟨aDestination, none⟩ => s.get id aDestination aMade
    | _ => s
  | .returned id =>
    match s.calls[id]? with
    | some ⟨aDestination, some myClient⟩ =>
      ⟨s.pool.releaseClient aDestination myClient, s.calls.erase id⟩
    | _ => s
  | .failed id =>
    match s.calls[id]? with
    | some ⟨_, some _⟩ => { s with calls := s.calls.erase id }
    | _ => s

/-- A client is to be made for the call, and is not. -/
def cannotMake (s : System C) (aDestination : String) (aMade : Option C) : Bool :=
  s.pool.available aDestination && (s.pool.desc aDestination).theFree.isEmpty && aMade.isNone

/-- A call ends with an exception. -/
def throws (s : System C) : Event C → Bool
  | .call id aDestination aMade => id ∉ s.calls && s.cannotMake aDestination aMade
  | .wake id aMade =>
    match s.calls[id]? with
    | some ⟨aDestination, none⟩ => s.cannotMake aDestination aMade
    | _ => false
  | .returned _ => false
  | .failed id =>
    match s.calls[id]? with
    | some ⟨_, some _⟩ => true
    | _ => false

/-- What a call counts for as a holder of a client of a destination. -/
def counts (aDestination : String) (c : Call C) : ℕ :=
  if c.aDestination = aDestination ∧ c.myClient.isSome then 1 else 0

/-- The number of calls that hold a client of a destination. -/
def holders (s : System C) (aDestination : String) : ℕ :=
  Maps.total (fun _ c => counts aDestination c) s.calls

/-- The busy count of each destination is that of the calls that hold a client of
it, and a call waits only for other calls. -/
structure Counted (s : System C) : Prop where
  busy : ∀ d, (s.pool.desc d).theBusy = s.holders d
  bounded : ∀ d, (s.pool.desc d).theBusy ≤ s.pool.theMaxClients
  idle : ∀ d, (∀ (id : ℕ) c, s.calls[id]? = some c → c.aDestination ≠ d) → s.pool.available d

end System

namespace EdgeClientPool

theorem desc_set (p : EdgeClientPool C) (d d' : String) (aDesc : Descriptor C) :
    (p.set d aDesc).desc d' = if d' = d then aDesc else p.desc d' := by
  simp only [desc, set, ExtTreeMap.getD_eq_getD_getElem?, Maps.lookup_insert]
  split <;> rfl

theorem getClient_cases (p : EdgeClientPool C) (d : String) (aMade : Option C) :
    p.available d = false ∧ p.getClient d aMade = (.blocked, p.set d (p.desc d)) ∨
    p.available d = true ∧ (p.desc d).theFree = [] ∧
      (aMade = none ∧ p.getClient d aMade = (.thrown, p.set d ⟨[], (p.desc d).theBusy + 1⟩) ∨
      ∃ c, aMade = some c ∧
        p.getClient d aMade = (.client c, p.set d ⟨[], (p.desc d).theBusy + 1⟩)) ∨
    p.available d = true ∧ ∃ c rest, (p.desc d).theFree = c :: rest ∧
      p.getClient d aMade = (.client c, p.set d ⟨rest, (p.desc d).theBusy + 1⟩) := by
  cases ha : p.available d with
  | false => exact .inl ⟨rfl, by simp [getClient, ha]⟩
  | true =>
    cases hf : (p.desc d).theFree with
    | nil =>
      cases aMade with
      | none => exact .inr (.inl ⟨rfl, rfl, .inl ⟨rfl, by simp [getClient, ha, hf]⟩⟩)
      | some c => exact .inr (.inl ⟨rfl, rfl, .inr ⟨c, rfl, by simp [getClient, ha, hf]⟩⟩)
    | cons c rest => exact .inr (.inr ⟨rfl, c, rest, rfl, by simp [getClient, ha, hf]⟩)

end EdgeClientPool

namespace System

variable {s : System C}

theorem holders_erase {id : ℕ} {c : Call C} (h : s.calls[id]? = some c) (d : String) :
    s.holders d = counts d c + Maps.total (fun _ c => counts d c) (s.calls.erase id) :=
  Maps.total_of_lookup _ h

/-- What always holds of a pool with a maximum, also after exceptions. -/
structure Bounded (s : System C) : Prop where
  holders : ∀ d, s.holders d ≤ (s.pool.desc d).theBusy
  clients : ∀ d, (s.pool.desc d).theBusy + (s.pool.desc d).theFree.length ≤ s.pool.theMaxClients

/-- A call that has no client yet is none of the holders. -/
private theorem holders_others {id : ℕ} (h : id ∉ s.calls ∨ ∃ d, s.calls[id]? = some ⟨d, none⟩)
    (d : String) : Maps.total (fun _ c => counts d c) (s.calls.erase id) = s.holders d := by
  rcases h with h | ⟨d', h⟩
  · exact Maps.total_erase_of_not_mem _ h
  · rw [holders_erase h d]
    simp [counts]

/-- What a step changes: a leak is a busy client without a call that holds it. -/
private structure Change (s s' : System C) (leak : String → ℕ) : Prop where
  busy : ∀ d, (s'.pool.desc d).theBusy + s.holders d =
    (s.pool.desc d).theBusy + s'.holders d + leak d
  bounded : s'.Bounded
  maximum : s'.pool.theMaxClients = s.pool.theMaxClients

private theorem Change.refl (h : s.Bounded) : Change s s fun _ => 0 where
  busy _ := rfl
  bounded := h
  maximum := rfl

section Get

variable {id : ℕ} {d : String}

/-- A call takes a client, and holds it unless the client could not be made. -/
private theorem taken_change (h : s.Bounded) {rest : List C} {calls : ExtTreeMap ℕ (Call C)}
    {leak : ℕ} (hroom : (s.pool.desc d).theBusy + 1 + rest.length ≤ s.pool.theMaxClients)
    (hcalls : ∀ d', holders ⟨s.pool.set d ⟨rest, (s.pool.desc d).theBusy + 1⟩, calls⟩ d' +
      (if d' = d then leak else 0) = s.holders d' + if d' = d then 1 else 0) :
    Change s ⟨s.pool.set d ⟨rest, (s.pool.desc d).theBusy + 1⟩, calls⟩
      fun d' => if d' = d then leak else 0 := by
  refine ⟨fun d' => ?_, ⟨fun d' => ?_, fun d' => ?_⟩, rfl⟩
  · have hc := hcalls d'
    rw [EdgeClientPool.desc_set]
    split at hc
    · rename_i hd
      subst hd
      simp only [if_true]
      omega
    · rename_i hd
      simp only [hd, if_false]
      omega
  · have hc := hcalls d'
    have hh := h.holders d'
    rw [EdgeClientPool.desc_set]
    split at hc
    · rename_i hd
      subst hd
      simp only [if_true]
      omega
    · rename_i hd
      simp only [hd, if_false]
      omega
  · rw [EdgeClientPool.desc_set]
    split
    · exact hroom
    · exact h.clients d'

private theorem get_change (hM : 0 < s.pool.theMaxClients) (h : s.Bounded)
    (hid : id ∉ s.calls ∨ ∃ d, s.calls[id]? = some ⟨d, none⟩) (aMade : Option C) :
    Change s (s.get id d aMade) fun d' => if d' = d then (s.cannotMake d aMade).toNat else 0 := by
  have hothers := holders_others hid
  have hclients := h.clients d
  have hinsert (p : EdgeClientPool C) (c : Call C) (d' : String) :
      holders ⟨p, s.calls.insert id c⟩ d' = counts d' c + s.holders d' := by
    rw [holders, Maps.total_insert, hothers]
  have herase (p : EdgeClientPool C) (d' : String) :
      holders ⟨p, s.calls.erase id⟩ d' = s.holders d' := hothers d'
  have hheld (c : C) (d' : String) :
      counts d' (⟨d, some c⟩ : Call C) = if d' = d then 1 else 0 := by
    simp [counts, eq_comm]
  rcases s.pool.getClient_cases d aMade with ⟨hblocked, hget⟩ |
      ⟨hgo, hnil, ⟨rfl, hget⟩ | ⟨c, rfl, hget⟩⟩ | ⟨hgo, c, rest, hcons, hget⟩
  · have hs' : s.get id d aMade = ⟨s.pool.set d (s.pool.desc d), s.calls.insert id ⟨d, none⟩⟩ := by
      rw [get, hget]
    have hdesc (d' : String) : (s.pool.set d (s.pool.desc d)).desc d' = s.pool.desc d' := by
      rw [EdgeClientPool.desc_set]
      split
      · rename_i hd
        rw [hd]
      · rfl
    have hwaits (d' : String) : counts d' (⟨d, none⟩ : Call C) = 0 := by simp [counts]
    have hcannot : s.cannotMake d aMade = false := by rw [cannotMake, hblocked]; rfl
    rw [hs', hcannot]
    refine ⟨fun d' => ?_, ⟨fun d' => ?_, fun d' => ?_⟩, rfl⟩
    · rw [hinsert, hdesc, hwaits]
      simp
    · rw [hinsert, hdesc, hwaits, Nat.zero_add]
      exact h.holders d'
    · rw [hdesc]
      exact h.clients d'
  · have hs' : s.get id d none = ⟨s.pool.set d ⟨[], (s.pool.desc d).theBusy + 1⟩, s.calls.erase id⟩ := by
      rw [get, hget]
    have hcannot : s.cannotMake d none = true := by simp [cannotMake, hgo, hnil]
    rw [hs', hcannot]
    refine taken_change h ?_ fun d' => by rw [herase]; rfl
    have hlt : (s.pool.desc d).theBusy < s.pool.theMaxClients := by
      simpa [EdgeClientPool.available, hnil, Nat.pos_iff_ne_zero.mp hM] using hgo
    exact hlt
  · have hs' : s.get id d (some c) = ⟨s.pool.set d ⟨[], (s.pool.desc d).theBusy + 1⟩,
        s.calls.insert id ⟨d, some c⟩⟩ := by
      rw [get, hget]
    have hcannot : s.cannotMake d (some c) = false := by simp [cannotMake]
    rw [hs', hcannot]
    refine taken_change h ?_ fun d' => by rw [hinsert, hheld]; simp [Nat.add_comm]
    have hlt : (s.pool.desc d).theBusy < s.pool.theMaxClients := by
      simpa [EdgeClientPool.available, hnil, Nat.pos_iff_ne_zero.mp hM] using hgo
    exact hlt
  · have hs' : s.get id d aMade = ⟨s.pool.set d ⟨rest, (s.pool.desc d).theBusy + 1⟩,
        s.calls.insert id ⟨d, some c⟩⟩ := by
      rw [get, hget]
    have hcannot : s.cannotMake d aMade = false := by simp [cannotMake, hcons]
    rw [hs', hcannot]
    refine taken_change h ?_ fun d' => by rw [hinsert, hheld]; simp [Nat.add_comm]
    rw [hcons, List.length_cons] at hclients
    omega

end Get

/-- A call that ends gives up its client, and only a call that returns gives it
back to the pool. -/
private theorem ended_change (h : s.Bounded) {id : ℕ} {d : String} {c : C}
    (hc : s.calls[id]? = some ⟨d, some c⟩) :
    Change s ⟨s.pool.releaseClient d c, s.calls.erase id⟩ (fun _ => 0) ∧
      Change s { s with calls := s.calls.erase id } fun d' => if d' = d then 1 else 0 := by
  have herase (p : EdgeClientPool C) (d' : String) :
      s.holders d' = (if d' = d then 1 else 0) + holders ⟨p, s.calls.erase id⟩ d' := by
    have hone : counts d' (⟨d, some c⟩ : Call C) = if d' = d then 1 else 0 := by
      simp [counts, eq_comm]
    rw [holders_erase hc, hone]
    rfl
  have hheld := h.holders d
  have hclients := h.clients d
  have hd := herase s.pool d
  rw [if_pos rfl] at hd
  constructor
  · refine ⟨fun d' => ?_, ⟨fun d' => ?_, fun d' => ?_⟩, rfl⟩
    · rw [herase (s.pool.releaseClient d c) d', EdgeClientPool.releaseClient,
        EdgeClientPool.desc_set]
      split
      · rename_i heq
        subst heq
        dsimp only
        omega
      · omega
    · have hd' := herase (s.pool.releaseClient d c) d'
      have hh := h.holders d'
      rw [EdgeClientPool.releaseClient, EdgeClientPool.desc_set]
      rw [EdgeClientPool.releaseClient] at hd'
      split
      · rename_i heq
        subst heq
        simp only [if_true] at hd' ⊢
        omega
      · rename_i heq
        simp only [heq, if_false] at hd'
        omega
    · rw [EdgeClientPool.releaseClient, EdgeClientPool.desc_set]
      split
      · simp only [List.length_append, List.length_cons, List.length_nil]
        show _ ≤ s.pool.theMaxClients
        omega
      · exact h.clients d'
  · refine ⟨fun d' => ?_, ⟨fun d' => ?_, h.clients⟩, rfl⟩
    · rw [herase s.pool d']
      show (s.pool.desc d').theBusy + _ = _
      omega
    · refine Nat.le_trans ?_ (h.holders d')
      rw [herase s.pool d']
      exact Nat.le_add_left _ _

/-- A step leaks a client of one destination if and only if a call throws. -/
private theorem step_change (hM : 0 < s.pool.theMaxClients) (h : s.Bounded) (e : Event C) :
    ∃ d, Change s (s.step e) fun d' => if d' = d then (s.throws e).toNat else 0 := by
  have hsame : Change s s fun d' => if d' = "" then false.toNat else 0 := by
    simpa using Change.refl h
  cases e with
  | call id d aMade =>
    by_cases hid : id ∈ s.calls
    · refine ⟨"", ?_⟩
      simpa [step, throws, hid] using hsame
    · refine ⟨d, ?_⟩
      simpa [step, throws, hid] using get_change hM h (d := d) (.inl hid) aMade
  | wake id aMade =>
    cases hc : s.calls[id]? with
    | none =>
      refine ⟨"", ?_⟩
      simpa [step, throws, hc] using hsame
    | some c =>
      obtain ⟨d, _ | myClient⟩ := c
      · refine ⟨d, ?_⟩
        simpa [step, throws, hc] using get_change hM h (d := d) (.inr ⟨d, hc⟩) aMade
      · refine ⟨"", ?_⟩
        simpa [step, throws, hc] using hsame
  | returned id =>
    cases hc : s.calls[id]? with
    | none =>
      refine ⟨"", ?_⟩
      simpa [step, throws, hc] using hsame
    | some c =>
      obtain ⟨d, _ | myClient⟩ := c
      · refine ⟨"", ?_⟩
        simpa [step, throws, hc] using hsame
      · refine ⟨d, ?_⟩
        simpa [step, throws, hc] using (ended_change h hc).1
  | failed id =>
    cases hc : s.calls[id]? with
    | none =>
      refine ⟨"", ?_⟩
      simpa [step, throws, hc] using hsame
    | some c =>
      obtain ⟨d, _ | myClient⟩ := c
      · refine ⟨"", ?_⟩
        simpa [step, throws, hc] using hsame
      · refine ⟨d, ?_⟩
        simpa [step, throws, hc] using (ended_change h hc).2

/-- Without leaks a pool counts its busy clients, and with none it never does again. -/
private theorem counted_iff (hM : 0 < s.pool.theMaxClients) (h : s.Bounded) :
    s.Counted ↔ ∀ d, (s.pool.desc d).theBusy = s.holders d := by
  refine ⟨fun hc => hc.busy, fun hbusy => ⟨hbusy, fun d => ?_, fun d hidle => ?_⟩⟩
  · have := h.clients d
    omega
  · have hnone : s.holders d = 0 := by
      refine Maps.total_eq_zero _ fun id c hc => ?_
      rw [counts, if_neg fun hd => hidle id c hc hd.1]
    simp [EdgeClientPool.available, hbusy d, hnone, hM]

private theorem step_counted (hM : 0 < s.pool.theMaxClients) (h : s.Bounded) (hc : s.Counted)
    (e : Event C) : (s.step e).Counted ↔ s.throws e = false := by
  obtain ⟨d, hchange⟩ := step_change hM h e
  rw [counted_iff (hchange.maximum ▸ hM) hchange.bounded]
  constructor
  · intro hnext
    have hbusy := hchange.busy d
    rw [hnext d, hc.busy d, if_pos rfl] at hbusy
    cases ht : s.throws e with
    | false => rfl
    | true =>
      rw [ht, Bool.toNat_true] at hbusy
      omega
  · intro ht d'
    have hbusy := hchange.busy d'
    rw [hc.busy d', ht, Bool.toNat_false, ite_self] at hbusy
    omega

/-- In a run of calls the pool counts its busy clients in every state if and only
if no call throws. -/
theorem busy_counted {aMaxClients : ℕ} (hM : 0 < aMaxClients) (events : List (Event C)) :
    (∀ s ∈ Runs.states step (new aMaxClients) events, s.Counted) ↔
      Runs.Along step (fun s e => s.throws e = false) (new aMaxClients) events := by
  have hbounded (s : System C) (e : Event C)
      (h : s.Bounded ∧ s.pool.theMaxClients = aMaxClients) :
      (s.step e).Bounded ∧ (s.step e).pool.theMaxClients = aMaxClients := by
    obtain ⟨d, hchange⟩ := step_change (h.2 ▸ hM) h.1 e
    exact ⟨hchange.bounded, hchange.maximum.trans h.2⟩
  have hempty (d : String) : ((new aMaxClients : System C).pool.desc d) = {} := by
    simp [new, EdgeClientPool.desc]
  have hnone (d : String) : (new aMaxClients : System C).holders d = 0 :=
    Maps.total_eq_zero _ fun id c hc => absurd hc (by simp [new])
  have hnew : (new aMaxClients : System C).Bounded :=
    ⟨fun d => by rw [hnone]; exact Nat.zero_le _, fun d => by rw [hempty]; exact Nat.zero_le _⟩
  have hcounted : (new aMaxClients : System C).Counted := by
    rw [counted_iff hM hnew]
    intro d
    rw [hempty, hnone]
  have hall := Runs.invariant (I := fun s : System C => s.Bounded ∧ s.pool.theMaxClients = aMaxClients)
    hbounded events ⟨hnew, rfl⟩
  let I (s : System C) : Prop := (s.Bounded ∧ s.pool.theMaxClients = aMaxClients) ∧ s.Counted
  have hstep (s : System C) (e : Event C) (hI : I s) : I (s.step e) ↔ s.throws e = false := by
    rw [← step_counted (hI.1.2 ▸ hM) hI.1.1 hI.2 e]
    exact and_iff_right (hbounded s e hI.1)
  have hrun : (∀ s ∈ Runs.states step (new aMaxClients) events, I s) ↔
      Runs.Along step (fun s e => s.throws e = false) (new aMaxClients) events :=
    Runs.invariant_iff_along hstep ⟨⟨hnew, rfl⟩, hcounted⟩
  rw [← hrun]
  exact ⟨fun h s hs => ⟨hall s hs, h s hs⟩, fun h s hs => (h s hs).2⟩

/-- Two calls, the second of which waits for the client of the first one. -/
def exampleCalls : List (Event Unit) :=
  [.call 0 "host1:6473" (some ()), .call 1 "host1:6473" (some ()), .returned 0,
    .wake 1 (some ()), .returned 1]

theorem busy_counted_example :
    Runs.Along step (fun s e => s.throws e = false) (new 1) exampleCalls ∧
    ∀ s ∈ Runs.states step (new 1) exampleCalls, s.Counted := by
  have hnone : Runs.Along step (fun s e => s.throws e = false) (new 1) exampleCalls := by
    decide +kernel
  exact ⟨hnone, (busy_counted Nat.one_pos exampleCalls).mpr hnone⟩

/-- One exception, and all later calls to the destination wait for ever. -/
theorem busy_leaked : ¬ ∀ s ∈ Runs.states step (new 1)
    [.call 0 "host1:6473" (some ()), .failed 0], s.Counted := by
  intro h
  have hidle := (h _ (Runs.final_mem_states step _ _)).idle "host1:6473"
  have hnone : (Runs.final step (new 1) [.call 0 "host1:6473" (some ()), .failed 0]).calls = ∅ := by
    decide +kernel
  have hblocked : (Runs.final step (new 1)
      [.call 0 "host1:6473" (some ()), .failed 0]).pool.available "host1:6473" = false := by
    decide +kernel
  rw [hblocked, hnone] at hidle
  exact absurd (hidle fun id c hc => by simp at hc) Bool.false_ne_true

end System

end ServerlessEdge.Clients
