import ServerlessEdge.Computer.EdgeComputer
import ServerlessEdge.Library.Joins

/-! The graph of the functions that a request leads to, and the requests that
belong to the same execution. -/
namespace ServerlessEdge.Computer
open Std Library Messages EdgeComputer Joins Maps Checks

/-- The indices of the functions invoked after the i-th one. -/
def nextIndices (m : Rpc.LambdaRequest) (i : Nat) : List Nat :=
  (nextFunctions { m with nextfunctionindex := i }).map Prod.fst

/-- The invocations of an execution, the one of the client included. -/
def edges (m : Rpc.LambdaRequest) : Multiset (Option Nat × Option Nat) :=
  (none, some 0) ::ₘ ↑((List.range (m.chain.length + m.dag.successors.length)).flatMap fun i =>
    (nextIndices m i).map fun j => (some i, some j))

/-- A request that process() queues, or holds back until its preconditions are met. -/
structure Accepted (r : LambdaRequest) : Prop where
  valid : checkRequest r.toProtobuf = .ok ()
  callback : r.theCallback ≠ ""
  index : r.theNextFunctionIndex = 0

/-- A message for a function of the same execution. -/
structure Belongs (r : LambdaRequest) (m : Rpc.LambdaRequest) : Prop where
  dry : m.dry = false
  callback : m.callback = r.theCallback
  chain : m.chain = r.toProtobuf.chain
  dag : m.dag = r.toProtobuf.dag
  dependencies : m.dependencies = r.toProtobuf.dependencies
  uuid : m.uuid = r.theUuid

theorem Belongs.self (r : LambdaRequest) : Belongs r r.toProtobuf := ⟨rfl, rfl, rfl, rfl, rfl, rfl⟩

section Graph

variable {m : Rpc.LambdaRequest}

theorem nextIndices_eq_nil {i : Nat} (h : m.chain.length + m.dag.successors.length ≤ i) :
    nextIndices m i = [] := by
  unfold nextIndices nextFunctions
  have hc : m.chain[i + 1]? = none := List.getElem?_eq_none (by omega)
  have hd : m.dag.successors[i]? = none := List.getElem?_eq_none (by omega)
  simp only [hc, hd]
  split <;> rfl

private theorem flatMap_range_single {α : Type} (n i : Nat) (g : Nat → List α) :
    ((List.range n).flatMap fun k => if k = i then g k else []) = if i < n then g i else [] := by
  induction n with
  | zero => simp
  | succ n ih =>
    rw [List.range_succ, List.flatMap_append, ih, List.flatMap_singleton]
    by_cases hi : n = i
    · subst hi
      simp
    · have hlt : i < n + 1 ↔ i < n := by omega
      simp [hi, hlt]

/-- The invocations that a function makes. -/
theorem out_edges (m : Rpc.LambdaRequest) (i : Nat) :
    out (edges m) (some i) = ↑((nextIndices m i).map fun j => (some i, some j)) := by
  have hfilter (k : Nat) : ((nextIndices m k).map fun j => (some k, some j)).filter
      (fun e : Option Nat × Option Nat => decide (e.1 = some i)) =
        if k = i then (nextIndices m k).map fun j => (some k, some j) else [] := by
    split
    · next h => exact List.filter_eq_self.mpr (by simp [h])
    · next h => exact List.filter_eq_nil_iff.mpr (by simp [h])
  unfold out edges
  rw [Multiset.filter_cons_of_neg _ (by simp), Multiset.filter_coe, List.filter_flatMap]
  simp only [hfilter]
  rw [flatMap_range_single]
  split
  · rfl
  · rw [nextIndices_eq_nil (by omega)]
    rfl

theorem out_edges_client (m : Rpc.LambdaRequest) : out (edges m) none = {(none, some 0)} := by
  unfold out edges
  rw [Multiset.filter_cons_of_pos (p := fun e : Option Nat × Option Nat => e.1 = none) _ rfl,
    Multiset.filter_coe]
  have hnil : ((List.range (m.chain.length + m.dag.successors.length)).flatMap fun i =>
      (nextIndices m i).map fun j => (some i, some j)).filter
        (fun e : Option Nat × Option Nat => decide (e.1 = none)) = [] := by
    apply List.filter_eq_nil_iff.mpr
    intro e he
    simp only [List.mem_flatMap, List.mem_map] at he
    obtain ⟨i, -, j, -, rfl⟩ := he
    simp
  rw [hnil]
  rfl

/-- Nobody invokes the client. -/
theorem edges_root (m : Rpc.LambdaRequest) : ∀ e ∈ edges m, e.2 ≠ none := by
  intro e he
  rcases Multiset.mem_cons.mp he with rfl | he
  · simp
  · simp only [Multiset.mem_coe, List.mem_flatMap, List.mem_map] at he
    obtain ⟨i, -, j, -, rfl⟩ := he
    simp

theorem mem_edges {i j : Nat} : (some i, some j) ∈ edges m ↔ j ∈ nextIndices m i := by
  have hout : (some i, some j) ∈ out (edges m) (some i) ↔ (some i, some j) ∈ edges m := by
    simp [out]
  rw [← hout, out_edges]
  simp

theorem mem_edges_client {j : Nat} : (none, some j) ∈ edges m ↔ j = 0 := by
  have hout : (none, some j) ∈ out (edges m) none ↔ (none, some j) ∈ edges m := by simp [out]
  rw [← hout, out_edges_client]
  simp

theorem card_into_edges (m : Rpc.LambdaRequest) (v : Nat) :
    (into (edges m) (some v)).card = (if v = 0 then 1 else 0) +
      ((List.range (m.chain.length + m.dag.successors.length)).map
        fun i => (nextIndices m i).count v).sum := by
  have hfilter (i : Nat) : (((nextIndices m i).map fun j => (some i, some j)).filter
      (fun e : Option Nat × Option Nat => decide (e.2 = some v))).length = (nextIndices m i).count v := by
    rw [← List.countP_eq_length_filter, List.countP_map]
    apply List.countP_congr
    simp
  unfold edges
  rw [card_into_cons, into, Multiset.filter_coe, Multiset.coe_card, List.filter_flatMap,
    List.length_flatMap, Nat.add_comm]
  simp only [hfilter, Option.some.injEq, eq_comm (a := (0 : Nat))]

end Graph

section Kinds

variable {m : Rpc.LambdaRequest}

theorem nextIndices_chain (h : 0 < m.chain.length) (i : Nat) :
    nextIndices m i = if i + 1 < m.chain.length then [i + 1] else [] := by
  unfold nextIndices nextFunctions
  by_cases hi : i + 1 < m.chain.length
  · simp only [h, if_true, List.getElem?_eq_getElem hi, hi]
    rfl
  · have hnone : m.chain[i + 1]? = none := List.getElem?_eq_none (by omega)
    simp only [h, if_true, hnone, hi, if_false]
    rfl

theorem nextIndices_dag (h : m.chain = []) (hd : ∀ js ∈ m.dag.successors, ∀ j ∈ js,
    j < m.dag.names.length) (i : Nat) : nextIndices m i = m.dag.successors.getD i [] := by
  have hall : ∀ js ∈ m.dag.successors, (js.filterMap fun j => m.dag.names[j]?.map
      fun f => (j, f)).map Prod.fst = js := by
    intro js hjs
    rw [List.map_filterMap]
    have hsome : ∀ j ∈ js, (m.dag.names[j]?.map fun f => (j, f)).map Prod.fst = some j := by
      intro j hj
      rw [List.getElem?_eq_getElem (hd js hjs j hj)]
      rfl
    rw [List.filterMap_congr hsome]
    exact List.filterMap_some
  unfold nextIndices nextFunctions
  simp only [h, List.length_nil, Nat.lt_irrefl, if_false]
  cases hi : m.dag.successors[i]? with
  | none => simp [List.getD_eq_getElem?_getD, hi]
  | some js =>
    simp only [List.getD_eq_getElem?_getD, hi, Option.getD_some]
    exact hall js (List.mem_of_getElem? hi)

private theorem map_range_getD {α β : Type} (xs : List α) (x : α) (f : α → β) :
    (List.range xs.length).map (fun i => f (xs.getD i x)) = xs.map f := by
  apply List.ext_getElem (by simp)
  intro i hi hi'
  have hx : i < xs.length := by simpa using hi'
  simp only [List.getElem_map, List.getElem_range, List.getD_eq_getElem?_getD,
    List.getElem?_eq_getElem hx, Option.getD_some]

private theorem sum_range_single (n i : Nat) :
    ((List.range n).map fun k => if k = i then 1 else 0).sum = if i < n then 1 else 0 := by
  induction n with
  | zero => simp
  | succ n ih =>
    rw [List.range_succ, List.map_append, List.sum_append, ih]
    simp only [List.map_singleton, List.sum_singleton]
    split_ifs <;> omega

/-- The four checks, in the order in which they are made. -/
theorem checkRequest_ok : checkRequest m = .ok () ↔
    (m.chain.length = 0 ∨ m.dag.names.length = 0) ∧
    (m.chain.length ≤ 1 ∧ m.dag.names.length ≤ 1 ∨ m.callback ≠ "") ∧
    (m.chain.length = 0 ∨ m.nextfunctionindex < m.chain.length) ∧
    (m.dag.names.length ≤ 1 ∨ m.uuid ≠ "") := by
  unfold checkRequest
  split_ifs with hboth hcallback hrange huuid
  · exact iff_of_false (fun h => by cases h) (by omega)
  · exact iff_of_false (fun h => by cases h) (by grind)
  · exact iff_of_false (fun h => by cases h) (by omega)
  · exact iff_of_false (fun h => by cases h) (by grind)
  · exact iff_of_true rfl (by grind)

end Kinds

section Accepted

variable {r : LambdaRequest} {m : Rpc.LambdaRequest}

/-- The successors of a function in the DAG of a request. -/
def successors (r : LambdaRequest) : List (List Nat) :=
  match r.theDag with
  | none => []
  | some d => d.theSuccessors

theorem Accepted.dag_eq_none (h : Accepted r) (hc : 0 < r.toProtobuf.chain.length) :
    r.theDag = none := by
  obtain ⟨hboth, -⟩ := checkRequest_ok.mp h.valid
  cases hd : r.theDag with
  | none => rfl
  | some d =>
    have hnames : r.toProtobuf.dag.names = d.theFunctionNames := by
      simp only [LambdaRequest.toProtobuf, hd]
    have hsized := d.sized
    rw [hnames] at hboth
    omega

theorem Accepted.chain_length (h : Accepted r) {d : Model.Dag} (hd : r.theDag = some d) :
    r.toProtobuf.chain.length = 0 := by
  by_contra hc
  have hnone := h.dag_eq_none (Nat.pos_of_ne_zero hc)
  rw [hd] at hnone
  cases hnone

/-- The functions that follow another one, in a chain or in a DAG. -/
theorem nextIndices_eq (r : LambdaRequest) (i : Nat) : nextIndices r.toProtobuf i =
    if 0 < r.toProtobuf.chain.length then
      if i + 1 < r.toProtobuf.chain.length then [i + 1] else []
    else (successors r).getD i [] := by
  split
  · next hc => exact nextIndices_chain hc i
  · next hc =>
    have hchain : r.toProtobuf.chain = [] := List.length_eq_zero_iff.mp (by omega)
    have hsucc : r.toProtobuf.dag.successors = successors r := by
      simp only [LambdaRequest.toProtobuf, successors]
      cases r.theDag <;> rfl
    rw [nextIndices_dag hchain ?_ i, hsucc]
    intro js hjs j hj
    cases hd : r.theDag with
    | none => simp [LambdaRequest.toProtobuf, hd] at hjs
    | some d =>
      simp only [LambdaRequest.toProtobuf, hd] at hjs ⊢
      obtain ⟨-, hle⟩ := d.successor_range hjs hj
      have hsized := d.sized
      omega

theorem next_pos {i j : Nat} (hj : j ∈ nextIndices r.toProtobuf i) :
    1 ≤ j := by
  rw [nextIndices_eq] at hj
  split at hj
  · split at hj
    · simp only [List.mem_singleton] at hj
      omega
    · simp at hj
  · cases hd : r.theDag with
    | none => simp [successors, hd] at hj
    | some d =>
      simp only [successors, hd, List.getD_eq_getElem?_getD] at hj
      cases hi : d.theSuccessors[i]? with
      | none => simp [hi] at hj
      | some js =>
        rw [hi] at hj
        exact (d.successor_range (List.mem_of_getElem? hi) hj).1

theorem length_successors (r : LambdaRequest) :
    r.toProtobuf.dag.successors = successors r := by
  simp only [LambdaRequest.toProtobuf, successors]
  cases r.theDag <;> rfl

/-- The entry function has one invocation to wait for, the one of the client. -/
theorem card_into_entry (r : LambdaRequest) : (into (edges r.toProtobuf) (some 0)).card = 1 := by
  have hzero : ∀ i, (nextIndices r.toProtobuf i).count 0 = 0 := by
    intro i
    apply List.count_eq_zero.mpr
    intro h
    have hpos := next_pos h
    omega
  simp [card_into_edges, hzero]

/-- So has a function that does not belong to a DAG. -/
theorem card_into_single (hn : r.toProtobuf.dag.names.length ≤ 1) {src : Option Nat} {v : Nat}
    (he : (src, some v) ∈ edges r.toProtobuf) : (into (edges r.toProtobuf) (some v)).card = 1 := by
  by_cases hv : v = 0
  · rw [hv]
    exact card_into_entry r
  cases src with
  | none => exact absurd (mem_edges_client.mp he) hv
  | some i =>
    have hi := mem_edges.mp he
    rw [nextIndices_eq] at hi
    by_cases hc : 0 < r.toProtobuf.chain.length
    · -- only the function before it in the chain
      rw [if_pos hc] at hi
      have hlen : v < r.toProtobuf.chain.length := by
        split at hi
        · simp only [List.mem_singleton] at hi
          omega
        · simp at hi
      have hcount (k : Nat) : (nextIndices r.toProtobuf k).count v = if k = v - 1 then 1 else 0 := by
        rw [nextIndices_eq, if_pos hc]
        by_cases hk : k = v - 1
        · rw [if_pos hk, if_pos (by omega), List.count_singleton, if_pos (by simp; omega)]
        · rw [if_neg hk]
          apply List.count_eq_zero.mpr
          split
          · simp only [List.mem_singleton]
            omega
          · simp
      rw [card_into_edges, if_neg hv, Nat.zero_add]
      simp only [hcount]
      rw [sum_range_single, if_pos (by omega)]
    · rw [if_neg hc] at hi
      have hnil : successors r = [] := by
        cases hd : r.theDag with
        | none => simp only [successors, hd]
        | some d =>
          simp only [LambdaRequest.toProtobuf, hd] at hn
          have hsized := d.sized
          simp only [successors, hd]
          exact List.length_eq_zero_iff.mp (by omega)
      simp [hnil] at hi

/-- What the code counts in a DAG is the number of the incoming edges. -/
theorem card_into_dag (hc : r.toProtobuf.chain.length = 0) (hb : Belongs r m)
    (hv : m.nextfunctionindex ≠ 0) :
    (into (edges r.toProtobuf) (some m.nextfunctionindex)).card = expected m := by
  have hnext (i : Nat) : nextIndices r.toProtobuf i = (successors r).getD i [] := by
    rw [nextIndices_eq, if_neg (by omega)]
  have hsucc : m.dag.successors = successors r := by
    rw [hb.dag, length_successors]
  rw [card_into_edges, if_neg hv, Nat.zero_add, hc, Nat.zero_add, length_successors, expected, hsucc]
  simp only [hnext]
  rw [map_range_getD (successors r) [] fun js => js.count m.nextfunctionindex]

end Accepted

section Reachability

variable {r : LambdaRequest}

/-- One function invokes another one, in a chain or in a DAG. -/
def Follows (r : LambdaRequest) (i j : Nat) : Prop := j ∈ nextIndices r.toProtobuf i

private theorem edge_cases {e : Option Nat × Option Nat} (he : e ∈ edges r.toProtobuf) :
    e = (none, some 0) ∨ ∃ i j, e = (some i, some j) ∧ Follows r i j := by
  obtain ⟨u, v⟩ := e
  cases v with
  | none => exact absurd rfl (edges_root _ _ he)
  | some j =>
    cases u with
    | none =>
      rw [mem_edges_client.mp he]
      exact .inl rfl
    | some i => exact .inr ⟨i, j, rfl, mem_edges.mp he⟩

theorem path_iff {v : Nat} : Path (edges r.toProtobuf) none (some v) ↔
    Relation.ReflTransGen (Follows r) 0 v := by
  constructor
  · intro h
    have hall : ∀ x, Path (edges r.toProtobuf) none x →
        ∀ v, x = some v → Relation.ReflTransGen (Follows r) 0 v := by
      intro x hx
      induction hx with
      | refl => exact fun v hv => by cases hv
      | tail _ he ih =>
        intro v hv
        subst hv
        rcases edge_cases he with heq | ⟨i, j, heq, hij⟩
        · cases heq
          exact .refl
        · cases heq
          exact (ih i rfl).tail hij
    exact hall _ h v rfl
  · intro h
    have hzero : Path (edges r.toProtobuf) none (some 0) := .single (mem_edges_client.mpr rfl)
    exact hzero.trans (h.lift some fun i j hij => mem_edges.mpr hij)

private theorem cycle_iff {v : Nat} :
    Relation.TransGen (fun u v => (u, v) ∈ edges r.toProtobuf) (some v) (some v) ↔
      Relation.TransGen (Follows r) v v := by
  constructor
  · intro h
    have hall : ∀ x, Relation.TransGen (fun u v => (u, v) ∈ edges r.toProtobuf) (some v) x →
        ∃ j, x = some j ∧ Relation.TransGen (Follows r) v j := by
      intro x hx
      induction hx with
      | single he =>
        rcases edge_cases he with heq | ⟨i, j, heq, hij⟩
        · cases heq
        · cases heq
          exact ⟨j, rfl, .single hij⟩
      | tail _ he ih =>
        obtain ⟨i, rfl, hi⟩ := ih
        rcases edge_cases he with heq | ⟨i', j, heq, hij⟩
        · cases heq
        · cases heq
          exact ⟨j, rfl, hi.tail hij⟩
    obtain ⟨j, hj, hcycle⟩ := hall _ h
    cases hj
    exact hcycle
  · intro h
    exact h.lift some fun i j hij => mem_edges.mpr hij

/-- The soundness of the graph, in terms of the functions only. -/
theorem sound_iff : Sound (edges r.toProtobuf) none ↔
    (∀ i j, Follows r i j → Relation.ReflTransGen (Follows r) 0 j →
      Relation.ReflTransGen (Follows r) 0 i) ∧
    ∀ j, Relation.ReflTransGen (Follows r) 0 j → ¬ Relation.TransGen (Follows r) j j := by
  constructor
  · intro h
    constructor
    · intro i j hij hj
      exact path_iff.mp (h.closed _ _ (mem_edges.mpr hij) (path_iff.mpr hj))
    · intro j hj hcycle
      exact h.acyclic _ (path_iff.mpr hj) (cycle_iff.mpr hcycle)
  · rintro ⟨hclosed, hacyclic⟩
    constructor
    · intro u v he hv
      rcases edge_cases he with heq | ⟨i, j, heq, hij⟩
      · cases heq
        exact .refl
      · cases heq
        exact path_iff.mpr (hclosed i j hij (path_iff.mp hv))
    · intro v hv hcycle
      cases v with
      | none =>
        obtain ⟨u, -, he⟩ := Relation.TransGen.tail'_iff.mp hcycle
        exact edges_root _ _ he rfl
      | some j => exact hacyclic j (path_iff.mp hv) (cycle_iff.mp hcycle)

theorem follows_chain (hc : 0 < r.toProtobuf.chain.length) {i j : Nat} :
    Follows r i j ↔ j = i + 1 ∧ i + 1 < r.toProtobuf.chain.length := by
  unfold Follows
  rw [nextIndices_eq, if_pos hc]
  split
  · simp [*]
  · simp [*]

theorem follows_dag (h : Accepted r) {d : Model.Dag} (hd : r.theDag = some d) :
    Follows r = d.Follows := by
  funext i j
  unfold Follows Model.Dag.Follows
  rw [nextIndices_eq, if_neg (by rw [h.chain_length hd]; exact Nat.lt_irrefl 0), successors, hd]

theorem follows_single (hc : ¬ 0 < r.toProtobuf.chain.length) (hd : r.theDag = none)
    {i j : Nat} : ¬ Follows r i j := by
  unfold Follows
  rw [nextIndices_eq, if_neg hc, successors, hd]
  simp

end Reachability

section Preconditions

variable {r : LambdaRequest} {m : Rpc.LambdaRequest}

private theorem ne_dash_of_mem_toString (n : Nat) : ∀ c ∈ (toString n).toList, (c != '-') = true := by
  intro c hc
  have hdigits : (toString n).toList = Nat.toDigits 10 n := by simp
  rw [hdigits] at hc
  have hdigit := Nat.isDigit_of_mem_toDigits (by decide) (by decide) hc
  apply bne_iff_ne.mpr
  rintro rfl
  exact absurd hdigit (by decide)

/-- The string that stands for a function of an execution. -/
def hash (v : Nat) (u : String) : String := toString v ++ "-" ++ u

/-- There are no two of them with the same one: no number has a dash in it. -/
theorem hash_inj {v w : Nat} {u x : String} (h : hash v u = hash w x) : v = w ∧ u = x := by
  have hlist := congrArg String.toList h
  have hdash : "-".toList = ['-'] := rfl
  simp only [hash, String.toList_append, List.append_assoc, hdash, List.cons_append,
    List.nil_append] at hlist
  have htake := congrArg (List.takeWhile (· != '-')) hlist
  rw [List.takeWhile_append_of_pos (ne_dash_of_mem_toString v),
    List.takeWhile_append_of_pos (ne_dash_of_mem_toString w)] at htake
  simp only [bne_self_eq_false, Bool.false_eq_true, not_false_eq_true, List.takeWhile_cons_of_neg,
    List.append_nil] at htake
  have hvw : v = w := Nat.repr_injective (String.toList_inj.mp htake)
  subst hvw
  refine ⟨rfl, String.toList_inj.mp ?_⟩
  simpa using hlist

/-- What the map holds for a function with d invocations to come once n have. -/
def waiting (d n : Nat) : Option Nat := if d ∣ n then none else some (n % d)

theorem waiting_getD (d n : Nat) : (waiting d n).getD 0 = n % d := by
  unfold waiting
  split
  · next h => exact (Nat.mod_eq_zero_of_dvd h).symm
  · rfl

/-- A function goes ahead with the last of its invocations; the map counts the
others, and has nothing to say about a function that is not waiting. -/
theorem checkPreconditions_spec (h : Accepted r) (hb : Belongs r m) {src : Option Nat}
    (he : (src, some m.nextfunctionindex) ∈ edges r.toProtobuf) (n : Nat)
    {i : ExtTreeMap String Nat}
    (hi : i[makeHash m]? = waiting (into (edges r.toProtobuf) (some m.nextfunctionindex)).card n) :
    ((checkPreconditions m i).1 = true ↔
        (into (edges r.toProtobuf) (some m.nextfunctionindex)).card ∣ n + 1) ∧
      ∀ k : String, (checkPreconditions m i).2[k]? = if k = makeHash m then
        waiting (into (edges r.toProtobuf) (some m.nextfunctionindex)).card (n + 1) else i[k]? := by
  have hpos : 0 < (into (edges r.toProtobuf) (some m.nextfunctionindex)).card :=
    Multiset.card_pos_iff_exists_mem.mpr ⟨_, mem_into.mpr ⟨he, rfl⟩⟩
  -- a function with one invocation to come is never in the map
  have hone (hd : (into (edges r.toProtobuf) (some m.nextfunctionindex)).card = 1) :
      (true = true ↔ (into (edges r.toProtobuf) (some m.nextfunctionindex)).card ∣ n + 1) ∧
        ∀ k : String, i[k]? = if k = makeHash m then
          waiting (into (edges r.toProtobuf) (some m.nextfunctionindex)).card (n + 1) else i[k]? := by
    rw [hd] at hi ⊢
    refine ⟨iff_of_true rfl (Nat.one_dvd _), fun k => ?_⟩
    split
    · next hk => rw [hk, hi, waiting, waiting, if_pos (Nat.one_dvd _), if_pos (Nat.one_dvd _)]
    · rfl
  unfold checkPreconditions
  by_cases hfirst : m.dag.names.length ≤ 1 ∨ m.nextfunctionindex = 0
  · have hd : (into (edges r.toProtobuf) (some m.nextfunctionindex)).card = 1 := by
      rcases hfirst with hn | hv
      · rw [hb.dag] at hn
        exact card_into_single hn he
      · rw [hv]
        exact card_into_entry r
    rw [if_pos hfirst]
    exact hone hd
  rw [if_neg hfirst]
  obtain ⟨hn, hv⟩ := not_or.mp hfirst
  have hchain : r.toProtobuf.chain.length = 0 := by
    obtain ⟨hboth, -⟩ := checkRequest_ok.mp h.valid
    rw [hb.dag] at hn
    omega
  have hexp := card_into_dag hchain hb hv
  by_cases hsingle : expected m = 1
  · have hd := hexp.trans hsingle
    rw [if_pos hsingle]
    exact hone hd
  rw [if_neg hsingle]
  rw [hexp] at hi hpos ⊢
  have hcount : i.getD (makeHash m) 0 = n % expected m := by
    rw [ExtTreeMap.getD_eq_getD_getElem?, hi, waiting_getD]
  have hlt : n % expected m < expected m := Nat.mod_lt n hpos
  have hdvd : n % expected m + 1 = expected m ↔ expected m ∣ n + 1 := by
    rw [Nat.dvd_iff_mod_eq_zero, Nat.add_mod, Nat.mod_eq_of_lt (a := 1) (by omega)]
    constructor
    · intro heq
      rw [heq, Nat.mod_self]
    · intro hz
      by_contra hne
      rw [Nat.mod_eq_of_lt (by omega)] at hz
      omega
  dsimp only
  rw [hcount]
  by_cases hlast : n % expected m + 1 = expected m
  · rw [if_pos hlast]
    refine ⟨iff_of_true rfl (hdvd.mp hlast), fun k => ?_⟩
    rw [lookup_erase, waiting, if_pos (hdvd.mp hlast)]
  · rw [if_neg hlast]
    have hnot := fun hd => hlast (hdvd.mpr hd)
    refine ⟨iff_of_false Bool.false_ne_true hnot, fun k => ?_⟩
    have hmod : (n + 1) % expected m = n % expected m + 1 := by
      rw [Nat.add_mod, Nat.mod_eq_of_lt (a := 1) (by omega), Nat.mod_eq_of_lt (by omega)]
    rw [lookup_insert, waiting, if_neg hnot, hmod]

end Preconditions

section Invocations

variable {r : LambdaRequest} {m : Rpc.LambdaRequest}

/-- A computer with workers takes in each request of an accepted execution. -/
theorem process_accepted (h : Accepted r) (hb : Belongs r m) {src : Option Nat}
    (he : (src, some m.nextfunctionindex) ∈ edges r.toProtobuf) (env : Environment) {s : System}
    (hs : s.theComputer.theAsyncWorkers = true) :
    (process env m s).2 = { s with theComputer := { s.theComputer with
      theInvocations := (checkPreconditions m s.theComputer.theInvocations).2
      theAsyncQueue := if (checkPreconditions m s.theComputer.theInvocations).1 then
        s.theComputer.theAsyncQueue ++ [m] else s.theComputer.theAsyncQueue } } := by
  have hindex : r.toProtobuf.chain.length = 0 ∨
      m.nextfunctionindex < r.toProtobuf.chain.length := by
    cases src with
    | none =>
      have hzero := mem_edges_client.mp he
      omega
    | some i =>
      have hnext := mem_edges.mp he
      rw [nextIndices_eq] at hnext
      split_ifs at hnext with hc hi
      · simp only [List.mem_singleton] at hnext
        omega
      · simp at hnext
      · omega
  have hvalid : checkRequest m = .ok () := by
    obtain ⟨hboth, -, -, huuid⟩ := checkRequest_ok.mp h.valid
    apply checkRequest_ok.mpr
    rw [hb.chain, hb.dag, hb.callback, hb.uuid]
    exact ⟨hboth, .inr h.callback, hindex, huuid⟩
  have hcallback : m.callback ≠ "" := by
    rw [hb.callback]
    exact h.callback
  simp only [process, hvalid, hb.dry, hcallback, hs, ne_eq, not_false_eq_true, Bool.false_eq_true,
    if_false, if_true]

/-- A message has the chain of its execution, unless that is empty. -/
theorem chainOf_belongs (h : Accepted r) (hb : Belongs r m) :
    LambdaRequest.chainOf m = .ok (if r.toProtobuf.chain = [] then none else r.theChain) := by
  apply LambdaRequest.chainOf_ok.mpr
  by_cases hc : r.toProtobuf.chain = []
  · rw [if_pos hc]
    exact .inl ⟨hb.chain.trans hc, rfl⟩
  · rw [if_neg hc]
    have hd := h.dag_eq_none (List.length_pos_iff.mpr hc)
    cases hrc : r.theChain with
    | none => simp [LambdaRequest.toProtobuf, hrc] at hc
    | some c =>
      refine .inr ⟨hb.chain ▸ hc, c, rfl, ?_, ?_⟩
      · simp only [hb.chain, LambdaRequest.toProtobuf, hrc]
      · simp only [hb.dependencies, LambdaRequest.toProtobuf, hrc, hd]

/-- It has the DAG of its execution, unless that is a single function. -/
theorem dagOf_belongs (hb : Belongs r m) :
    LambdaRequest.dagOf m = .ok (if successors r = [] then none else r.theDag) := by
  apply LambdaRequest.dagOf_ok.mpr
  have hsucc : m.dag.successors = successors r := by rw [hb.dag, length_successors]
  by_cases hs : successors r = []
  · rw [if_pos hs]
    exact .inl ⟨hsucc.trans hs, rfl⟩
  · rw [if_neg hs]
    cases hd : r.theDag with
    | none => simp [successors, hd] at hs
    | some d =>
      refine .inr ⟨hsucc ▸ hs, d, rfl, ?_, ?_, ?_⟩
      · simp only [hsucc, successors, hd]
      · simp only [hb.dag, LambdaRequest.toProtobuf, hd]
      · simp only [hb.dependencies, LambdaRequest.toProtobuf, hd]

/-- What a worker sends belongs to the execution that it is about. -/
theorem regenerate_belongs (h : Accepted r) (hb : Belongs r m) (hnext : nextFunctions m ≠ []) :
    ∃ q, LambdaRequest.ofProtobuf m = .ok q ∧
      ∀ f j resp, Belongs r (q.regenerate f j resp).toProtobuf := by
  obtain ⟨q, hq, hqc, hqd, hcallback, huuid⟩ :=
    LambdaRequest.ofProtobuf_ok (chainOf_belongs h hb) (dagOf_belongs hb)
  have hsucc : m.dag.successors = successors r := by rw [hb.dag, length_successors]
  refine ⟨q, hq, fun f j resp => ?_⟩
  by_cases hc : r.toProtobuf.chain = []
  · -- a DAG, which does not depend on whether there is an empty chain
    have hs : successors r ≠ [] := by
      intro hs
      apply hnext
      simp [nextFunctions, hb.chain, hc, hsucc, hs]
    rw [if_pos hc] at hqc
    rw [if_neg hs] at hqd
    cases hd : r.theDag with
    | none => simp [successors, hd] at hs
    | some d =>
      refine ⟨rfl, hcallback.trans hb.callback, ?_, ?_, ?_, huuid.trans hb.uuid⟩
      · rw [hc]
        simp only [LambdaRequest.toProtobuf, LambdaRequest.regenerate, hqc]
      · simp only [LambdaRequest.toProtobuf, LambdaRequest.regenerate, hqd, hd]
      · simp only [LambdaRequest.toProtobuf, LambdaRequest.regenerate, hqd, hd]
  · have hd := h.dag_eq_none (List.length_pos_iff.mpr hc)
    rw [if_neg hc] at hqc
    rw [hd, ite_self] at hqd
    refine ⟨rfl, hcallback.trans hb.callback, ?_, ?_, ?_, huuid.trans hb.uuid⟩
    · simp only [LambdaRequest.toProtobuf, LambdaRequest.regenerate, hqc]
    · simp only [LambdaRequest.toProtobuf, LambdaRequest.regenerate, hqd, hd]
    · simp only [LambdaRequest.toProtobuf, LambdaRequest.regenerate, hqc, hqd, hd]

theorem Belongs.nextIndices_eq (hb : Belongs r m) (i : Nat) :
    nextIndices m i = nextIndices r.toProtobuf i := by
  simp only [nextIndices, nextFunctions, hb.chain, hb.dag]

end Invocations

end ServerlessEdge.Computer
