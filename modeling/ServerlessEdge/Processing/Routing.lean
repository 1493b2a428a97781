import ServerlessEdge.Processing.RouterTables

/-! Routers that forward the requests of clients to each other. A request goes on as
a message with the forward flag and one more hop. -/
namespace ServerlessEdge.Processing
open Library Forwarding Maps
open Std (ExtTreeMap)

/-- The message by which a request is forwarded. -/
def forwarded (aReq : Rpc.LambdaRequest) : Except String Rpc.LambdaRequest := do
  let myReq ← Messages.LambdaRequest.ofProtobuf aReq
  return myReq.makeOneMoreHop.toProtobuf

theorem forwarded_ok {aReq m : Rpc.LambdaRequest} (h : forwarded aReq = .ok m) :
    m.forward = true ∧ m.hops = (aReq.hops + 1) % 2 ^ 32 := by
  obtain ⟨myReq, hmsg, hret⟩ := Checks.bind_ok.mp h
  unfold Messages.LambdaRequest.ofProtobuf at hmsg
  obtain ⟨c, -, hmsg⟩ := Checks.bind_ok.mp hmsg
  obtain ⟨d, -, hmsg⟩ := Checks.bind_ok.mp hmsg
  cases hmsg
  cases hret
  exact ⟨rfl, rfl⟩

/-- A router, with the routers that each of its requests has traversed, itself
included. -/
structure Node (P : Policy ℚ) where
  theSystem : System (EdgeRouter.processor P)
  thePaths : ExtTreeMap ℕ (List String)

/-- A request on its way to a destination. -/
structure Message where
  theDestination : String
  theRequest : Rpc.LambdaRequest
  thePath : List String

/-- Routers by their end-point; what is not one of them is a computer. -/
structure Routers (P : Policy ℚ) where
  theNodes : ExtTreeMap String (Node P)
  theMessages : List Message

namespace Routers

variable {P : Policy ℚ}

inductive Event (P : Policy ℚ) where
  | client (aRouter : String) (key : ℕ) (aReq : Rpc.LambdaRequest)
  | change (aRouter : String) (e : EdgeRouter.Event P)
  | advance (aRouter : String) (key : ℕ) (i : Input (EdgeRouter.processor P))
  | deliver (n key : ℕ)
  | lose (n : ℕ)

/-- Routers with empty tables and their optimizers. -/
def new (aRouters : ExtTreeMap String (LocalOptimizer × LocalOptimizer)) : Routers P where
  theNodes := aRouters.map fun _ o => ⟨System.new (P := EdgeRouter.processor P) ⟨.new, o.1, .new, o.2⟩, ∅⟩
  theMessages := []

variable (conf : Conf)

/-- A request comes in, at an address that no request occupies. -/
def Node.arrive (key : ℕ) (aReq : Rpc.LambdaRequest) (aPath : List String) (n : Node P) : Node P :=
  if ∀ q ∈ n.theSystem.theRequests[key]?, q.Over then
    ⟨n.theSystem.step conf (.arrive key aReq), n.thePaths.insert key aPath⟩
  else n

/-- The message sent by the next step of a request, if any. -/
def Node.sends (key : ℕ) (n : Node P) : List Message :=
  match n.theSystem.theRequests[key]? with
  | none => []
  | some q => match q.phase, forwarded q.aReq with
    | .chosen d, .ok m => if conf.theFakeProcessor then [] else [⟨d, m, n.thePaths.getD key []⟩]
    | _, _ => []

def setNode (s : Routers P) (aRouter : String) (n : Node P) : Routers P :=
  { s with theNodes := s.theNodes.insert aRouter n }

def step (s : Routers P) : Event P → Routers P
  | .client e key aReq => match s.theNodes[e]? with
    | none => s
    | some n => s.setNode e (Node.arrive conf key aReq [e] n)
  | .change e x => match s.theNodes[e]? with
    | none => s
    | some n => s.setNode e { n with theSystem := n.theSystem.step conf (.change x) }
  | .advance e key i => match s.theNodes[e]? with
    | none => s
    | some n =>
      let s := s.setNode e { n with theSystem := n.theSystem.step conf (.advance key i) }
      { s with theMessages := s.theMessages ++ Node.sends conf key n }
  | .deliver k key => match s.theMessages[k]? with
    | none => s
    | some m =>
      let s := { s with theMessages := s.theMessages.eraseIdx k }
      match s.theNodes[m.theDestination]? with
      | none => s
      | some n => s.setNode m.theDestination
        (Node.arrive conf key m.theRequest (m.thePath ++ [m.theDestination]) n)
  | .lose k => { s with theMessages := s.theMessages.eraseIdx k }

/-- What holds of the requests of a router, of the destinations chosen for them, of
the messages sent and of the tables, and hangs together. -/
structure Discipline (R : String → Prop) where
  Holds : String → Rpc.LambdaRequest → List String → Prop
  Chooses : String → Rpc.LambdaRequest → List String → String → Prop
  Sends : Message → Prop
  Tables : String → EdgeRouter P → Prop
  client {e : String} {aReq : Rpc.LambdaRequest} (hR : R e) (hforward : aReq.forward = false)
    (hhops : aReq.hops = 0) : Holds e aReq [e]
  choose {e : String} {aReq : Rpc.LambdaRequest} {aPath : List String} {s : EdgeRouter P} {d : String}
    (hs : Tables e s) (h : Holds e aReq aPath) (hd : (s.flags aReq.forward (aReq.name, d)).isSome) :
    Chooses e aReq aPath d
  send {e : String} {aReq m : Rpc.LambdaRequest} {aPath : List String} {d : String}
    (h : Holds e aReq aPath) (hd : Chooses e aReq aPath d) (hm : forwarded aReq = .ok m) :
    Sends ⟨d, m, aPath⟩
  deliver {m : Message} (h : Sends m) (hR : R m.theDestination) :
    Holds m.theDestination m.theRequest (m.thePath ++ [m.theDestination])
  shrink {e : String} {s s' : EdgeRouter P} (h : Tables e s) (hs : EdgeRouter.Shrinks s s') :
    Tables e s'

/-- The destinations chosen are in the tables. -/
def Listed (s : Routers P) : Event P → Prop
  | .advance e key i => ∀ n : Node P, s.theNodes[e]? = some n → ∀ q : Request,
    n.theSystem.theRequests[key]? = some q → q.phase = .looping → ∀ d t,
      TypedTable.operator i.reading.1 q.aReq.name (n.theSystem.theState.table q.aReq.forward) =
        .ok d t → (n.theSystem.theState.flags q.aReq.forward (q.aReq.name, d)).isSome
  | _ => True

section Run

variable {R : String → Prop} (D : Discipline (P := P) R)

/-- The requests of a router follow the discipline. -/
structure Node.Follows (e : String) (n : Node P) : Prop where
  tables : D.Tables e n.theSystem.theState
  requests : ∀ (key : ℕ) (q : Request), n.theSystem.theRequests[key]? = some q →
    ∃ aPath, n.thePaths[key]? = some aPath ∧ D.Holds e q.aReq aPath ∧
      ∀ d, q.phase = .chosen d → D.Chooses e q.aReq aPath d

structure Follows (s : Routers P) : Prop where
  routers : ∀ e : String, e ∈ s.theNodes ↔ R e
  nodes : ∀ (e : String) (n : Node P), s.theNodes[e]? = some n → Node.Follows D e n
  messages : ∀ m ∈ s.theMessages, D.Sends m

/-- A client's request has not been forwarded, the tables are disciplined after every
change, and the destinations chosen are in the tables. -/
def Disciplined (s : Routers P) : Event P → Prop
  | .client _ _ aReq => aReq.forward = false ∧ aReq.hops = 0
  | .change e x => ∀ n : Node P, s.theNodes[e]? = some n →
    D.Tables e (EdgeRouter.change x n.theSystem.theState)
  | _ => True

variable {D} {conf} {s : Routers P} {e : String} {n : Node P} {key : ℕ}

theorem Node.Follows.arrive (h : Node.Follows D e n) {aReq : Rpc.LambdaRequest} {aPath : List String}
    (hnew : D.Holds e aReq aPath) : Node.Follows D e (Node.arrive conf key aReq aPath n) := by
  unfold Node.arrive
  split
  · next hover =>
    have hstep : n.theSystem.step conf (.arrive key aReq) =
        { n.theSystem with theRequests := n.theSystem.theRequests.insert key { aReq } } := if_pos hover
    rw [hstep]
    refine ⟨h.tables, fun k q hq => ?_⟩
    simp only [lookup_insert] at hq ⊢
    by_cases hk : k = key
    · rw [if_pos hk] at hq
      rw [if_pos hk]
      cases hq
      exact ⟨aPath, rfl, hnew, nofun⟩
    · rw [if_neg hk] at hq
      rw [if_neg hk]
      exact h.requests k q hq
  · exact h

/-- One step of a request: it goes on along its path, and is sent where the tables say. -/
theorem Node.Follows.advance (conf : Conf) (h : Node.Follows D e n) {i : Input (EdgeRouter.processor P)}
    (hlisted : ∀ q : Request, n.theSystem.theRequests[key]? = some q → q.phase = .looping → ∀ d t,
      TypedTable.operator i.reading.1 q.aReq.name (n.theSystem.theState.table q.aReq.forward) =
        .ok d t → (n.theSystem.theState.flags q.aReq.forward (q.aReq.name, d)).isSome) :
    Node.Follows D e { n with theSystem := n.theSystem.step conf (.advance key i) } := by
  cases hkey : n.theSystem.theRequests[key]? with
  | none =>
    have hsame : n.theSystem.step conf (.advance key i) = n.theSystem := by
      simp only [System.step, hkey]
    rw [hsame]
    exact h
  | some q =>
    obtain ⟨aPath, hpath, hholds, -⟩ := h.requests key q hkey
    obtain ⟨haReq, hchosen⟩ := process_request conf key i n.theSystem.theState q
    have hstep : n.theSystem.step conf (.advance key i) =
        ⟨(process conf key i n.theSystem.theState q).1,
          n.theSystem.theRequests.insert key (process conf key i n.theSystem.theState q).2⟩ := by
      simp only [System.step, hkey]
    rw [hstep]
    refine ⟨D.shrink h.tables (EdgeRouter.shrinks_process conf key i _ q), fun k q' hq' => ?_⟩
    simp only [lookup_insert] at hq'
    by_cases hk : k = key
    · rw [if_pos hk] at hq'
      cases hq'
      subst hk
      refine ⟨aPath, hpath, haReq ▸ hholds, fun d hd => ?_⟩
      obtain ⟨hphase, s', hs'⟩ := hchosen d hd
      obtain ⟨t, ht⟩ := EdgeRouter.destination_ok hs'
      rw [haReq]
      exact D.choose h.tables hholds (hlisted q hkey hphase d t ht)
    · rw [if_neg hk] at hq'
      exact h.requests k q' hq'

theorem Node.Follows.sends (h : Node.Follows D e n) : ∀ m ∈ Node.sends conf key n, D.Sends m := by
  intro m hm
  unfold Node.sends at hm
  cases hkey : n.theSystem.theRequests[key]? with
  | none =>
    rw [hkey] at hm
    cases hm
  | some q =>
    obtain ⟨aPath, hpath, hholds, hchoose⟩ := h.requests key q hkey
    rw [hkey] at hm
    dsimp only at hm
    split at hm
    · next d m' hphase hforwarded =>
      split at hm
      · cases hm
      · have hgetD : n.thePaths.getD key [] = aPath := by
          rw [ExtTreeMap.getD_eq_getD_getElem?, hpath]
          rfl
        rw [List.mem_singleton.mp hm, hgetD]
        exact D.send hholds (hchoose d hphase) hforwarded
    · cases hm

theorem Follows.setNode (h : Follows D s) (hn : s.theNodes[e]? = some n) {n' : Node P}
    (hn' : Node.Follows D e n') : Follows D (s.setNode e n') := by
  refine ⟨fun e' => ?_, fun e' n'' he' => ?_, h.messages⟩
  · change e' ∈ s.theNodes.insert e n' ↔ _
    rw [mem_insert, ← h.routers]
    constructor
    · rintro (rfl | hmem)
      · exact mem_of_lookup hn
      · exact hmem
    · exact .inr
  · change (s.theNodes.insert e n')[e']? = some n'' at he'
    rw [lookup_insert] at he'
    split at he'
    · next heq =>
      cases he'
      exact heq ▸ hn'
    · exact h.nodes e' n'' he'

/-- Every event keeps to the discipline. -/
theorem follows_step (h : Follows D s) {x : Event P} (hx : Disciplined D s x) (hl : Listed s x) :
    Follows D (step conf s x) := by
  have hmessages (k : ℕ) : Follows D { s with theMessages := s.theMessages.eraseIdx k } :=
    ⟨h.routers, h.nodes, fun m hm => h.messages m (List.mem_of_mem_eraseIdx hm)⟩
  cases x with
  | client e key aReq =>
    cases hn : s.theNodes[e]? with
    | none => simpa only [step, hn] using h
    | some n =>
      simp only [step, hn]
      have hR := (h.routers e).mp (mem_of_lookup hn)
      exact h.setNode hn ((h.nodes e n hn).arrive (D.client hR hx.1 hx.2))
  | change e x =>
    cases hn : s.theNodes[e]? with
    | none => simpa only [step, hn] using h
    | some n =>
      simp only [step, hn]
      exact h.setNode hn ⟨hx n hn, (h.nodes e n hn).requests⟩
  | advance e key i =>
    cases hn : s.theNodes[e]? with
    | none => simpa only [step, hn] using h
    | some n =>
      simp only [step, hn]
      have hnode := h.setNode hn ((h.nodes e n hn).advance conf (hl n hn))
      refine ⟨hnode.routers, hnode.nodes, fun m hm => ?_⟩
      rcases List.mem_append.mp hm with hm | hm
      · exact h.messages m hm
      · exact (h.nodes e n hn).sends m hm
  | deliver k key =>
    cases hm : s.theMessages[k]? with
    | none => simpa only [step, hm] using h
    | some m =>
      simp only [step, hm]
      cases hn : s.theNodes[m.theDestination]? with
      | none => exact hmessages k
      | some n =>
        have hR := (h.routers m.theDestination).mp (mem_of_lookup hn)
        have hsent := h.messages m (List.mem_of_getElem? hm)
        exact (hmessages k).setNode hn ((h.nodes _ n hn).arrive (D.deliver hsent hR))
  | lose k => exact hmessages k

theorem follows_new (aRouters : ExtTreeMap String (LocalOptimizer × LocalOptimizer))
    (hR : ∀ e : String, e ∈ aRouters ↔ R e)
    (hT : ∀ e (o o' : LocalOptimizer), D.Tables e ⟨.new, o, .new, o'⟩) : Follows D (new aRouters) := by
  refine ⟨fun e => ?_, fun e n hn => ?_, nofun⟩
  · rw [← hR]
    exact ExtTreeMap.mem_map
  · simp only [new, ExtTreeMap.getElem?_map] at hn
    obtain ⟨o, -, rfl⟩ := Option.map_eq_some_iff.mp hn
    refine ⟨hT e o.1 o.2, fun key q hq => ?_⟩
    simp [System.new] at hq

/-- The discipline holds along every run. -/
theorem follows_states {aRouters : ExtTreeMap String (LocalOptimizer × LocalOptimizer)}
    (hR : ∀ e : String, e ∈ aRouters ↔ R e)
    (hT : ∀ e (o o' : LocalOptimizer), D.Tables e ⟨.new, o, .new, o'⟩) {events : List (Event P)}
    (h : Runs.Along (step conf) (fun s x => Disciplined D s x ∧ Listed s x) (new aRouters) events) :
    ∀ t ∈ Runs.states (step conf) (new aRouters) events, Follows D t :=
  Runs.invariant_along (fun _ _ hs hx => follows_step hs hx.1 hx.2) (follows_new aRouters hR hT) h

end Run

theorem mem_step (s : Routers P) (x : Event P) (e : String) :
    e ∈ (step conf s x).theNodes ↔ e ∈ s.theNodes := by
  have hset {s : Routers P} {e' : String} {n : Node P} (hn : s.theNodes[e']? = some n) (n' : Node P) :
      e ∈ (s.setNode e' n').theNodes ↔ e ∈ s.theNodes := by
    rw [setNode, mem_insert, or_iff_right_iff_imp]
    rintro rfl
    exact mem_of_lookup hn
  cases x with
  | client e' key aReq =>
    cases hn : s.theNodes[e']? with
    | none => simp only [step, hn]
    | some n =>
      simp only [step, hn]
      exact hset hn _
  | change e' x =>
    cases hn : s.theNodes[e']? with
    | none => simp only [step, hn]
    | some n =>
      simp only [step, hn]
      exact hset hn _
  | advance e' key i =>
    cases hn : s.theNodes[e']? with
    | none => simp only [step, hn]
    | some n =>
      simp only [step, hn]
      exact hset hn _
  | deliver k key =>
    cases hm : s.theMessages[k]? with
    | none => simp only [step, hm]
    | some m =>
      simp only [step, hm]
      cases hn : s.theNodes[m.theDestination]? with
      | none => rfl
      | some n => exact hset (s := { s with theMessages := s.theMessages.eraseIdx k }) hn _
  | lose k => rfl

section Depth

variable (R : String → Prop)

/-- A request is that of a client, or has been forwarded once; then it goes to a
computer. -/
def depth : Discipline (P := P) R where
  Holds _ aReq aPath := aReq.hops + 1 = aPath.length ∧
    (aReq.forward = true ∧ aReq.hops = 1 ∨ aReq.forward = false ∧ aReq.hops = 0)
  Chooses _ aReq _ d := aReq.forward = true → ¬ R d
  Sends m := m.theRequest.forward = true ∧ m.theRequest.hops = m.thePath.length ∧
    (m.thePath.length = 1 ∨ m.thePath.length = 2 ∧ ¬ R m.theDestination)
  Tables _ s := ∀ p, (s.flags true p).isSome → ¬ R p.2
  client _ hforward hhops := ⟨by rw [hhops]; rfl, .inr ⟨hforward, hhops⟩⟩
  choose hs _ hd hforward := by
    rw [hforward] at hd
    exact hs _ hd
  send {e aReq m aPath d} h hd hm := by
    obtain ⟨hforward, hhops⟩ := forwarded_ok hm
    obtain ⟨hlength, ⟨hf, h1⟩ | ⟨-, h0⟩⟩ := h
    · rw [h1] at hlength hhops
      exact ⟨hforward, hhops.trans hlength, .inr ⟨hlength.symm, hd hf⟩⟩
    · rw [h0] at hlength hhops
      exact ⟨hforward, hhops.trans hlength, .inl hlength.symm⟩
  deliver {m} h hR := by
    obtain ⟨hforward, hhops, hlength | ⟨-, hn⟩⟩ := h
    · rw [List.length_append, hhops, hlength]
      exact ⟨rfl, .inl ⟨hforward, rfl⟩⟩
    · exact absurd hR hn
  shrink h hs p hp := h p (hs.isSome hp)

/-- Besides, no router is traversed twice. -/
def revisits : Discipline (P := P) R where
  Holds e aReq aPath := (depth (P := P) R).Holds e aReq aPath ∧ aPath.Nodup ∧ (∀ x ∈ aPath, R x) ∧
    (aReq.forward = false → aPath = [e])
  Chooses e aReq aPath d := (depth (P := P) R).Chooses e aReq aPath d ∧ d ∉ aPath
  Sends m := (depth (P := P) R).Sends m ∧ m.thePath.Nodup ∧ (∀ x ∈ m.thePath, R x) ∧
    m.theDestination ∉ m.thePath
  Tables e s := (depth R).Tables e s ∧ ∀ p, (s.flags false p).isSome → p.2 ≠ e
  client {e aReq} hR hforward hhops := by
    refine ⟨(depth (P := P) R).client hR hforward hhops, List.nodup_singleton e, ?_, fun _ => rfl⟩
    intro x hx
    rw [List.mem_singleton.mp hx]
    exact hR
  choose {e aReq aPath s d} hs h hd := by
    have hcomputer := (depth R).choose hs.1 h.1 hd
    refine ⟨hcomputer, fun hmem => ?_⟩
    cases hforward : aReq.forward with
    | true => exact hcomputer hforward (h.2.2.1 d hmem)
    | false =>
      rw [h.2.2.2 hforward, List.mem_singleton] at hmem
      rw [hforward] at hd
      exact hs.2 _ hd hmem
  send h hd hm := ⟨(depth (P := P) R).send h.1 hd.1 hm, h.2.1, h.2.2.1, hd.2⟩
  deliver {m} h hR := by
    obtain ⟨hdepth, hnodup, hrouters, hnew⟩ := h
    refine ⟨(depth (P := P) R).deliver hdepth hR, ?_, fun x hx => ?_, fun hforward => ?_⟩
    · rw [List.nodup_append]
      refine ⟨hnodup, List.nodup_singleton _, fun x hx y hy => ?_⟩
      rw [List.mem_singleton.mp hy]
      exact fun heq => hnew (heq ▸ hx)
    · rcases List.mem_append.mp hx with hx | hx
      · exact hrouters x hx
      · rw [List.mem_singleton.mp hx]
        exact hR
    · rw [hdepth.1] at hforward
      cases hforward
  shrink h hs := ⟨(depth R).shrink h.1 hs, fun p hp => h.2 p (hs.isSome hp)⟩

end Depth

/-- The final entries of a router point to computers. -/
def FinalToComputers (s : Routers P) (r : EdgeRouter P) : Prop :=
  ∀ p, (r.flags true p).isSome → p.2 ∉ s.theNodes

/-- Besides, the final flag of the overall table is right: the other entries point to
other routers. -/
structure Canonical (s : Routers P) (e : String) (r : EdgeRouter P) : Prop where
  final : FinalToComputers s r
  computers : ∀ p, r.flags false p = some true → p.2 ∉ s.theNodes
  routers : ∀ p, r.flags false p = some false → p.2 ∈ s.theNodes ∧ p.2 ≠ e

/-- The requests that come in are those of clients, and the final entries point to
computers after every change. -/
def Ends (s : Routers P) : Event P → Prop
  | .client _ _ aReq => aReq.forward = false ∧ aReq.hops = 0
  | .change e x => ∀ n : Node P, s.theNodes[e]? = some n →
    FinalToComputers s (EdgeRouter.change x n.theSystem.theState)
  | _ => True

/-- The tables are canonical after every change. -/
def StaysCanonical (s : Routers P) : Event P → Prop
  | .change e x => ∀ n : Node P, s.theNodes[e]? = some n →
    Canonical s e (EdgeRouter.change x n.theSystem.theState)
  | _ => True

/-- No request traverses more than two routers, nor has it more than one hop; after
two routers it goes to a computer. -/
structure Shallow (s : Routers P) : Prop where
  requests : ∀ (e : String) (n : Node P), s.theNodes[e]? = some n → ∀ (key : ℕ) (q : Request),
    n.theSystem.theRequests[key]? = some q → ∃ aPath, n.thePaths[key]? = some aPath ∧
      aPath.length ≤ 2 ∧ q.aReq.hops ≤ 1
  messages : ∀ m ∈ s.theMessages, m.thePath.length ≤ 2 ∧
    (m.thePath.length = 2 → m.theDestination ∉ s.theNodes)

/-- No request traverses a router twice. -/
def NoRevisit (s : Routers P) : Prop := ∀ (e : String) (n : Node P), s.theNodes[e]? = some n →
  ∀ (key : ℕ) (q : Request), n.theSystem.theRequests[key]? = some q →
    ∃ aPath, n.thePaths[key]? = some aPath ∧ aPath.Nodup

variable {conf}

theorem shallow_of_follows {R : String → Prop} {s : Routers P} (h : Follows (depth R) s) :
    Shallow s := by
  constructor
  · intro e n hn key q hq
    obtain ⟨aPath, hpath, ⟨hlength, hcases⟩, -⟩ := (h.nodes e n hn).requests key q hq
    refine ⟨aPath, hpath, ?_, ?_⟩ <;> omega
  · intro m hm
    obtain ⟨-, -, hcases⟩ := h.messages m hm
    refine ⟨by omega, fun htwo hmem => ?_⟩
    rcases hcases with hone | ⟨-, hR⟩
    · omega
    · exact hR ((h.routers _).mp hmem)

theorem noRevisit_of_follows {R : String → Prop} {s : Routers P} (h : Follows (revisits R) s) :
    NoRevisit s := by
  intro e n hn key q hq
  obtain ⟨aPath, hpath, ⟨-, hnodup, -, -⟩, -⟩ := (h.nodes e n hn).requests key q hq
  exact ⟨aPath, hpath, hnodup⟩

section Listing

variable {L : Lists P}

/-- The tables of all routers choose listed destinations. -/
def Good (L : Lists P) (s : Routers P) : Prop :=
  ∀ (e : String) (n : Node P), s.theNodes[e]? = some n → n.theSystem.theState.Good L

theorem Node.arrive_theState (key : ℕ) (aReq : Rpc.LambdaRequest) (aPath : List String) (n : Node P) :
    (Node.arrive conf key aReq aPath n).theSystem.theState = n.theSystem.theState := by
  rw [Node.arrive]
  split
  · rw [System.step]
    split <;> rfl
  · rfl

theorem Good.setNode {s : Routers P} (h : Good L s) {n : Node P} (hn : n.theSystem.theState.Good L)
    (e : String) : Good L (s.setNode e n) := by
  intro e' n' he'
  change (s.theNodes.insert e n)[e']? = some n' at he'
  rw [lookup_insert] at he'
  split at he'
  · cases he'
    exact hn
  · exact h e' n' he'

theorem good_step {s : Routers P} (h : Good L s) (x : Event P) : Good L (step conf s x) := by
  have harrive {n : Node P} (hn : n.theSystem.theState.Good L) (key : ℕ) (aReq : Rpc.LambdaRequest)
      (aPath : List String) : (Node.arrive conf key aReq aPath n).theSystem.theState.Good L := by
    rw [Node.arrive_theState]
    exact hn
  cases x with
  | client e key aReq =>
    cases hn : s.theNodes[e]? with
    | none => simpa only [step, hn] using h
    | some n =>
      simp only [step, hn]
      exact h.setNode (harrive (h e n hn) key aReq [e]) e
  | change e x =>
    cases hn : s.theNodes[e]? with
    | none => simpa only [step, hn] using h
    | some n =>
      simp only [step, hn]
      exact h.setNode (EdgeRouter.Good.change (h e n hn) x) e
  | advance e key i =>
    cases hn : s.theNodes[e]? with
    | none => simpa only [step, hn] using h
    | some n =>
      simp only [step, hn]
      refine h.setNode ?_ e
      simp only [System.step]
      cases n.theSystem.theRequests[key]? with
      | none => exact h e n hn
      | some q => exact EdgeRouter.Good.process conf key i (h e n hn) q
  | deliver k key =>
    cases hm : s.theMessages[k]? with
    | none => simpa only [step, hm] using h
    | some m =>
      simp only [step, hm]
      cases hn : s.theNodes[m.theDestination]? with
      | none => exact h
      | some n =>
        have hrest : Good L { s with theMessages := s.theMessages.eraseIdx k } := h
        exact hrest.setNode (harrive (h _ n hn) key _ _) _
  | lose k => exact h

theorem good_new (aRouters : ExtTreeMap String (LocalOptimizer × LocalOptimizer)) :
    Good L (new aRouters) := by
  intro e n hn
  simp only [new, ExtTreeMap.getElem?_map] at hn
  obtain ⟨o, -, rfl⟩ := Option.map_eq_some_iff.mp hn
  intro f
  cases f <;> exact TypedTable.good_new

theorem Good.listed {s : Routers P} (h : Good L s) (x : Event P) : Listed s x := by
  cases x with
  | advance e key i =>
    intro n hn q _ _ d t hok
    have hfound := (h e n hn q.aReq.forward).operator hok
    change (((EdgeRouter.table n.theSystem.theState q.aReq.forward).plain.find q.aReq.name d).map
      Element.theFinal).isSome
    rw [Option.isSome_map]
    exact hfound.1
  | _ => trivial

end Listing

section Claims

variable {aRouters : ExtTreeMap String (LocalOptimizer × LocalOptimizer)} {events : List (Event P)}

/-- The end-points of the routers stay the same. -/
theorem along_routers {C D : Routers P → Event P → Prop}
    (hCD : ∀ s x, (∀ e : String, e ∈ s.theNodes ↔ e ∈ aRouters) → C s x → D s x)
    (h : Runs.Along (step conf) C (new aRouters) events) :
    Runs.Along (step conf) D (new aRouters) events := by
  refine Runs.Along.of_invariant (I := fun s => ∀ e : String, e ∈ s.theNodes ↔ e ∈ aRouters)
    (fun s x hs _ e => (mem_step conf s x e).trans (hs e)) hCD (fun e => ?_) h
  exact ExtTreeMap.mem_map

theorem flags_new (o o' : LocalOptimizer) (f : Bool) (p : String × String) :
    ¬ ((⟨.new, o, .new, o'⟩ : EdgeRouter P).flags f p).isSome := by
  rw [EdgeRouter.flags_new]
  exact nofun

theorem shallow_states (h : Runs.Along (step conf) (fun s x => Ends s x ∧ Listed s x) (new aRouters)
    events) : ∀ t ∈ Runs.states (step conf) (new aRouters) events, Shallow t := by
  have hdisciplined := along_routers (D := fun s x =>
    Disciplined (depth fun d => d ∈ aRouters) s x ∧ Listed s x) (fun s x hs hx => ⟨?_, hx.2⟩) h
  · intro t ht
    have hnew (e : String) (o o' : LocalOptimizer) :
        (depth fun d => d ∈ aRouters).Tables e (⟨.new, o, .new, o'⟩ : EdgeRouter P) :=
      fun p hp => absurd hp (flags_new o o' true p)
    exact shallow_of_follows (follows_states (fun _ => Iff.rfl) hnew hdisciplined t ht)
  · cases x with
    | client e key aReq => exact hx.1
    | change e x => exact fun n hn p hp => (hs p.2).not.mp (hx.1 n hn p hp)
    | _ => trivial

theorem noRevisit_states (h : Runs.Along (step conf) (fun s x => Ends s x ∧ Listed s x)
    (new aRouters) events) (hcanonical : Runs.Along (step conf) StaysCanonical (new aRouters) events) :
    ∀ t ∈ Runs.states (step conf) (new aRouters) events, NoRevisit t := by
  have hdisciplined := along_routers (D := fun s x =>
    Disciplined (revisits fun d => d ∈ aRouters) s x ∧ Listed s x)
      (fun s x hs hx => ⟨?_, hx.1.2⟩) (h.and hcanonical)
  · intro t ht
    have hnew (e : String) (o o' : LocalOptimizer) :
        (revisits fun d => d ∈ aRouters).Tables e (⟨.new, o, .new, o'⟩ : EdgeRouter P) :=
      ⟨fun p hp => absurd hp (flags_new o o' true p), fun p hp => absurd hp (flags_new o o' false p)⟩
    exact noRevisit_of_follows (follows_states (fun _ => Iff.rfl) hnew hdisciplined t ht)
  · cases x with
    | client e key aReq => exact hx.1.1
    | change e x =>
      intro n hn
      have hc := hx.2 n hn
      refine ⟨fun p hp => (hs p.2).not.mp (hc.final p hp), fun p hp heq => ?_⟩
      obtain ⟨f, hf⟩ := Option.isSome_iff_exists.mp hp
      cases f with
      | true => exact hc.computers p hf (heq ▸ mem_of_lookup hn)
      | false => exact (hc.routers p hf).2 heq
    | _ => trivial

/-- The first final entry of a router may be any one for a computer. -/
theorem ends_change {s : Routers P} {e l d : String} {w : ℚ} {f b : Bool} {r : P.Reading}
    (hd : f = true → d ∉ s.theNodes)
    (h : ∀ n ∈ s.theNodes[e]?, n.theSystem.theState.theFinalTable.theTable.isEmpty = true) :
    Ends s (.change e (.call f (.change r l d w b))) := by
  intro n hn p hp
  have hempty : n.theSystem.theState.theFinalTable.plain.flags = fun _ => none := by
    funext p
    have htable := ExtTreeMap.isEmpty_iff.mp (h n hn)
    simp [ForwardingTable.flags, ForwardingTable.find, TypedTable.plain, htable]
  cases f with
  | false =>
    have hnone : n.theSystem.theState.theFinalTable.plain.flags p = none := congrFun hempty p
    change (n.theSystem.theState.theFinalTable.plain.flags p).isSome at hp
    rw [hnone] at hp
    cases hp
  | true =>
    change ((n.theSystem.theState.theFinalTable.step (.change r l d w b)).plain.flags p).isSome at hp
    rw [TypedTable.step, TypedTable.run, TypedTable.plain_after (TypedTable.plain_change r l d w b _)]
      at hp
    obtain ⟨-, err, t', hrun, hflags⟩ | ⟨-, t', hrun, hflags⟩ :=
      ForwardingTable.change_cases n.theSystem.theState.theFinalTable.plain l d w b
    · rw [Triple.after, hrun, hflags, hempty] at hp
      cases hp
    · rw [Triple.after, hrun, hflags, hempty, Function.update_apply] at hp
      split at hp
      · next heq => exact heq ▸ hd rfl
      · cases hp

end Claims

section Run

private def twoRouters : ExtTreeMap String (LocalOptimizer × LocalOptimizer) :=
  .ofList [("r1:1", LocalOptimizer.none, LocalOptimizer.none),
    ("r2:1", LocalOptimizer.none, LocalOptimizer.none)]

private def firstPolicy : Policy ℚ := TypedTable.EntryType.policy TypedTable.rationals 1 1 .Random

private def answered : Input (EdgeRouter.processor firstPolicy) where
  reading := ((0 : ℚ), 0)
  outcome := .ok ({ retcode := "OK" }, 1)
  random := 0

/-- A request goes from one router to the other one, and from there to a computer. -/
private def forwarding : List (Event firstPolicy) :=
  [.change "r2:1" (.call true (.change (0 : ℚ) "lambda0" "c:1" 1 true)),
    .change "r1:1" (.call false (.change (0 : ℚ) "lambda0" "r2:1" 1 false)),
    .client "r1:1" 0 { name := "lambda0" }, .advance "r1:1" 0 answered, .advance "r1:1" 0 answered,
    .deliver 0 0, .advance "r2:1" 0 answered, .advance "r2:1" 0 answered]

example : (Runs.final (step ⟨false, true⟩) (new twoRouters) forwarding).theMessages.map
    (fun m => (m.theDestination, m.thePath)) = [("c:1", ["r1:1", "r2:1"])] := by decide +kernel

end Run

end Routers
end ServerlessEdge.Processing
