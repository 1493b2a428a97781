import ServerlessEdge.Computer.EdgeComputerSim
import ServerlessEdge.Computer.Executions

/-! No function of a DAG is executed twice for a request, and none before all
the functions that it follows have invoked it. -/
namespace ServerlessEdge.Computer
open Std Library Messages EdgeComputer Joins

/-- How many times a function was executed for a request. -/
def executions (u : String) (v : Nat) (es : List Event) : Nat :=
  es.countP fun
    | .executed m => m.uuid = u ∧ m.nextfunctionindex = v
    | _ => false

/-- How many invocations of a function by another one have arrived. -/
def arrivals (u : String) (i v : Nat) (es : List Event) : Nat :=
  es.countP fun
    | .arrived x => x.source = some i ∧ x.request.uuid = u ∧ x.request.nextfunctionindex = v
    | _ => false

def startOf (u : String) : Event → Option (Option Nat)
  | .executed m => nodeOf u m
  | _ => none

/-- The executions that the log tells of are those that go on or have ended, and
each began after all the tokens that it needs. -/
structure Ordered (rs : List LambdaRequest) (s : System) : Prop where
  coupled : Coupled rs s
  started : ∀ r ∈ rs, none ::ₘ ↑(s.theLog.filterMap (startOf r.theUuid)) =
    (marking r.theUuid s).begun
  ordered : ∀ r ∈ rs, ∀ m es, (.executed m :: es) <:+ s.theLog → m.uuid = r.theUuid →
    into ↑(es.filterMap (arrivalOf r.theUuid)) (some m.nextfunctionindex) =
      into (edges r.toProtobuf) (some m.nextfunctionindex)

section Counting

variable {u : String}

theorem executions_eq (u : String) (v : Nat) (es : List Event) :
    executions u v es = (↑(es.filterMap (startOf u)) : Multiset (Option Nat)).count (some v) := by
  rw [count_filterMap, executions]
  apply List.countP_congr
  intro e _
  cases e <;> simp [startOf, nodeOf]

theorem arrivals_eq (u : String) (i v : Nat) (es : List Event) :
    arrivals u i v es =
      (into ↑(es.filterMap (arrivalOf u)) (some v)).count (some i, some v) := by
  rw [into, Multiset.count_filter, if_pos rfl, count_filterMap, arrivals]
  apply List.countP_congr
  intro e _
  cases e <;> simp [arrivalOf, tokenOf, and_left_comm]

private theorem suffix_of_append {α : Type} {x : α} {es l log : List α} (hl : x ∉ l)
    (h : x :: es <:+ l ++ log) : x :: es <:+ log := by
  induction l with
  | nil => exact h
  | cons y l ih =>
    rw [List.mem_cons, not_or] at hl
    rcases List.suffix_cons_iff.mp h with heq | hsuf
    · exact absurd (List.cons.inj heq).1 hl.1
    · exact ih hl.2 hsuf

end Counting

section Steps

variable {rs : List LambdaRequest} {s s' : System} {env : Environment}

/-- Only a worker that takes a request begins an execution. -/
theorem log_change (hs : Change env rs s s') :
    (∃ es, s'.theLog = es ++ s.theLog ∧ (∀ m, .executed m ∉ es) ∧
      ∃ q, s'.theComputer.theAsyncQueue = s.theComputer.theAsyncQueue ++ q) ∨
    ∃ i m, s.theComputer.theAsyncQueue[i]? = some m ∧ s' = started i m s := by
  cases hs with
  | idle => exact .inl ⟨[], rfl, fun m => List.not_mem_nil, [], (List.append_nil _).symm⟩
  | deliver hi hr hb he =>
    rename_i i m r
    refine .inl ⟨[.arrived m], rfl, fun m => by simp, ?_⟩
    simp only [delivered]
    split
    · exact ⟨[m.request], rfl⟩
    · exact ⟨[], (List.append_nil _).symm⟩
  | start hi hr hb => exact .inr ⟨_, _, hi, rfl⟩
  | finish hi hr hb hrun hms hbel =>
    rename_i i m r resp ms c
    refine .inl ⟨.completed m :: responses m resp s, rfl, fun m' hm' => ?_, [],
      (List.append_nil _).symm⟩
    unfold responses at hm'
    split at hm' <;> simp at hm'
  | fail hi hr hb hrun =>
    rename_i i m r err c
    exact .inl ⟨[.failed m], rfl, fun m => by simp, [], (List.append_nil _).symm⟩

private theorem filterMap_startOf {u : String} {es : List Event} (h : ∀ m, .executed m ∉ es) :
    es.filterMap (startOf u) = [] := by
  apply List.filterMap_eq_nil_iff.mpr
  intro e he
  cases e with
  | executed m => exact absurd he (h m)
  | _ => rfl

theorem ordered_change (hrs : ∀ r ∈ rs, Accepted r) (huuid : (rs.map LambdaRequest.theUuid).Nodup)
    (h : Ordered rs s) (hs : Change env rs s s') : Ordered rs s' := by
  have hcoupled := coupled_change hrs huuid h.coupled hs
  rcases log_change hs with ⟨es, hlog, hno, q, hq⟩ | ⟨i, m, hi, rfl⟩
  · refine ⟨hcoupled, fun r hr => ?_, fun r hr m es' hsuf hu => ?_⟩
    · have hbegun : (marking r.theUuid s').begun = (marking r.theUuid s).begun := by
        rcases marking_change hrs huuid h.coupled hs hr with heq | hstep
        · rw [heq]
        · apply hstep.begun_eq
          simp only [marking, hq, List.filterMap_append]
          rw [← Multiset.coe_add]
          exact Multiset.le_add_right _ _
      rw [hbegun, hlog, List.filterMap_append, filterMap_startOf hno, List.nil_append]
      exact h.started r hr
    · rw [hlog] at hsuf
      exact h.ordered r hr m es' (suffix_of_append (hno m) hsuf) hu
  · refine ⟨hcoupled, fun r hr => ?_, fun r hr m' es hsuf hu => ?_⟩
    · have hstarted := h.started r hr
      by_cases hu : m.uuid = r.theUuid
      · have hnode : nodeOf r.theUuid m = some (some m.nextfunctionindex) := if_pos hu
        simp only [Marking.begun, marking, started, List.filterMap_cons, startOf, completionOf,
          failureOf, hnode] at hstarted ⊢
        rw [← Multiset.cons_coe, Multiset.cons_swap, hstarted, ← Multiset.cons_coe,
          Multiset.cons_add, Multiset.cons_add]
      · have hnode : nodeOf r.theUuid m = none := if_neg hu
        rw [marking_started_ne hi hu, ← hstarted]
        simp only [started, List.filterMap_cons, startOf, hnode]
    · rcases List.suffix_cons_iff.mp hsuf with heq | hsuf
      · -- the function was ready, so that its last token has arrived
        obtain ⟨hm, rfl⟩ := List.cons.inj heq
        cases hm
        have hready : some m.nextfunctionindex ∈ (marking r.theUuid s).ready := by
          apply List.mem_filterMap.mpr
          exact ⟨m, List.mem_of_getElem? hi, if_pos hu⟩
        have hvisits : some m.nextfunctionindex ∈ (marking r.theUuid s).visits := by
          simp only [Marking.visits, Multiset.mem_add]
          tauto
        exact (h.coupled.accounted r hr).all_arrived hvisits (Option.some_ne_none _)
      · exact h.ordered r hr m' es hsuf hu

theorem ordered_run (hrs : ∀ r ∈ rs, Accepted r) (huuid : (rs.map LambdaRequest.theUuid).Nodup)
    (env : Environment) (aServerEndpoint : String) (aStateClient : Option String)
    (aStateRepos : ExtTreeMap String (ExtTreeMap String String)) (aActions : List Action) :
    ∀ s ∈ Runs.states (step env) (System.new aServerEndpoint aStateClient aStateRepos rs) aActions,
      Ordered rs s := by
  apply Runs.invariant
  · intro s a h
    exact ordered_change hrs huuid h (step_change hrs h.coupled a)
  · refine ⟨coupled_new hrs huuid aServerEndpoint aStateClient aStateRepos, fun r hr => rfl,
      fun r hr m es hsuf => ?_⟩
    exact absurd (List.suffix_nil.mp hsuf) (List.cons_ne_nil _ _)

end Steps

section Safety

variable {rs : List LambdaRequest} {r : LambdaRequest}

/-- The incoming edges of a function, by the functions at their other ends. -/
theorem count_edges (h : Accepted r) {d : Model.Dag} (hd : r.theDag = some d) (i v : Nat) :
    (into (edges r.toProtobuf) (some v)).count (some i, some v) =
      (d.theSuccessors.getD i []).count v := by
  have hchain := h.chain_length hd
  have hnext : nextIndices r.toProtobuf i = d.theSuccessors.getD i [] := by
    rw [nextIndices_eq, if_neg (by omega), successors, hd]
  have hout : (into (edges r.toProtobuf) (some v)).count (some i, some v) =
      (out (edges r.toProtobuf) (some i)).count (some i, some v) := by
    rw [into, out, Multiset.count_filter, Multiset.count_filter, if_pos rfl, if_pos rfl]
  have hinj : Function.Injective fun j : Nat => ((some i, some j) : Option Nat × Option Nat) := by
    intro j k hjk
    exact Option.some.inj (Prod.ext_iff.mp hjk).2
  rw [hout, out_edges, hnext, ← Multiset.map_coe]
  exact (Multiset.count_map_eq_count' _ _ hinj v).trans (Multiset.coe_count v _)

/-- The functions of a DAG are executed once at most, after an invocation for
each of their incoming edges. -/
theorem executed_once_after_predecessors (hrs : ∀ r ∈ rs, Accepted r)
    (huuid : (rs.map LambdaRequest.theUuid).Nodup) (env : Environment) (aServerEndpoint : String)
    (aStateClient : Option String) (aStateRepos : ExtTreeMap String (ExtTreeMap String String))
    (aActions : List Action) {s : System} (hs : s ∈ Runs.states (step env)
      (System.new aServerEndpoint aStateClient aStateRepos rs) aActions)
    (hr : r ∈ rs) {d : Model.Dag} (hd : r.theDag = some d) :
    (∀ v, executions r.theUuid v s.theLog ≤ 1) ∧
      ∀ m es, (.executed m :: es) <:+ s.theLog → m.uuid = r.theUuid →
        ∀ i, arrivals r.theUuid i m.nextfunctionindex es =
          (d.theSuccessors.getD i []).count m.nextfunctionindex := by
  have h := ordered_run hrs huuid env aServerEndpoint aStateClient aStateRepos aActions s hs
  constructor
  · intro v
    have hcount : executions r.theUuid v s.theLog ≤ (marking r.theUuid s).begun.count (some v) := by
      rw [executions_eq, ← h.started r hr]
      exact Multiset.count_le_count_cons _ _ _
    have hvisits := Multiset.count_le_of_le (some v) (begun_le_visits (marking r.theUuid s))
    have hone := (h.coupled.accounted r hr).visits_le_one (some v)
    omega
  · intro m es hsuf hu i
    rw [arrivals_eq, h.ordered r hr m es hsuf hu]
    exact count_edges (hrs r hr) hd i m.nextfunctionindex

/-- Two executions of the example DAG, up to the last function of both. -/
def exampleActions : List Action :=
  [.deliver 0, .deliver 0, .start 1, .start 0, .finish 0, .finish 0, .deliver 3, .deliver 0,
    .deliver 0, .deliver 0, .start 0, .start 0, .start 0, .start 0, .finish 3, .finish 0, .finish 1,
    .finish 0, .deliver 2, .deliver 0, .deliver 0, .deliver 0, .start 0, .start 0]

theorem executed_once_after_predecessors_twice :
    let s := Runs.final (step exampleComputer.environment) (System.new "host0:6473" none ∅
      [exampleRequest "uuid0" ∅, exampleRequest "uuid1" ∅]) exampleActions
    s.theRunning.length = 2 ∧ (∀ v, executions "uuid1" v s.theLog ≤ 1) ∧
      ∀ m es, (.executed m :: es) <:+ s.theLog → m.uuid = "uuid1" →
        ∀ i, arrivals "uuid1" i m.nextfunctionindex es =
          (Model.exampleDag.theSuccessors.getD i []).count m.nextfunctionindex := by
  have hrs : ∀ r ∈ [exampleRequest "uuid0" ∅, exampleRequest "uuid1" ∅], Accepted r := by
    intro r hr
    simp only [List.mem_cons, List.not_mem_nil, or_false] at hr
    rcases hr with rfl | rfl
    · exact ⟨rfl, by decide, rfl⟩
    · exact ⟨rfl, by decide, rfl⟩
  refine ⟨by decide +kernel, ?_⟩
  apply executed_once_after_predecessors hrs (r := exampleRequest "uuid1" ∅)
  · decide
  · exact Runs.final_mem_states _ _ _
  · simp
  · rfl

end Safety

end ServerlessEdge.Computer
