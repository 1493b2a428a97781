import Mathlib.Algebra.Order.BigOperators.Group.List
import Mathlib.Algebra.Order.Floor.Ring
import ServerlessEdge.StateSim.Measures
import ServerlessEdge.StateSim.Simulation

/-! The batch of scenarios that is made from the files for a run: the lambda functions are given
the affinities of the processing nodes, in proportion to the speeds of these. -/
namespace ServerlessEdge.StateSim
open Library Checks Triple
open Std (ExtTreeMap)

namespace Simulation

structure Conf where
  theNodesPath : String
  theLinksPath : String
  theEdgesPath : String
  theTasksPath : String
  theNumFunctions : ℕ
  theNumJobs : ℕ
  theCloudLatency : ℚ
  theCloudRate : ℚ
  theOpsFactor : ℚ
  theArgFactor : ℚ
  theStateFactor : ℚ

/-- The files with these paths, those that can be opened. -/
structure Files where
  nodes : Option Text
  links : Option Text
  edges : Option Text
  tasks : Option Text

/-- The numbers that the generators draw: for the functions of the tasks, and with each seed for
the selection of jobs, for the clients and for the order of allocation. -/
structure Draws where
  func : ℕ → ℚ
  select : ℕ → ℕ → ℚ
  client : ℕ → ℕ → ℕ
  shuffle : ℕ → ℕ → ℚ

/-- The speeds of the processing nodes, by their affinities. -/
def affinityWeights (theProcessing : List Node) : List (Affinity × ℚ) :=
  [Affinity.NotAvailable, .Cpu, .Gpu].filterMap fun myAffinity =>
    let myNodes := theProcessing.filter fun myNode => myNode.theAffinity = myAffinity
    if myNodes = [] then none else some (myAffinity, (myNodes.map Node.theSpeed).sum)

def functionName (i : ℕ) : String := "f" ++ toString i

def functionWeights (aNumFunctions : ℕ) : ExtTreeMap String ℚ :=
  (List.range aNumFunctions).foldl (fun m i => m.insertIfNew (functionName i) 1) ∅

/-- The number of functions with an affinity. -/
def numFunctions (aNumFunctions : ℕ) (mySum weight : ℚ) : ℕ :=
  ⌊1 / 2 + aNumFunctions * weight / mySum⌋.toNat

/-- The next functions are given the affinity, as long as there are any. -/
def assignAffinity (aNumFunctions : ℕ) (mySum : ℚ) (s : List String × ExtTreeMap String Affinity)
    (elem : Affinity × ℚ) : List String × ExtTreeMap String Affinity :=
  let myNumFunctions := numFunctions aNumFunctions mySum elem.2
  (s.1.drop myNumFunctions,
    (s.1.take myNumFunctions).foldl (fun m f => m.insertIfNew f elem.1) s.2)

/-- The affinities of the functions, which are taken in the order of their names. -/
def affinities (aNumFunctions : ℕ) (theProcessing : List Node) : ExtTreeMap String Affinity :=
  let myAffinityWeights := affinityWeights theProcessing
  let mySum := (myAffinityWeights.map Prod.snd).sum
  (myAffinityWeights.foldl (assignAffinity aNumFunctions mySum)
    ((functionWeights aNumFunctions).keys, ∅)).2

/-- The job with another identifier. -/
def clone (aAnother : Job) (aId : ℕ) : Job := { aAnother with theId := aId }

/-- Each job is selected with the same probability. -/
def selectJobs (aJobs : List Job) (aNumJobs : ℕ) (aRng : ℕ → ℚ) : List Job :=
  let myProb : ℚ := aNumJobs / aJobs.length
  (aJobs.zipIdx.filter fun x => aRng x.2 < myProb).mapIdx fun myCounter x => clone x.1 myCounter

/-- The characteristics of the cloud, which are checked. -/
def cloudParams (env : Env) (aLatency aRate : ℚ) : Except Failure CloudParams :=
  match Network.cloud env aLatency aRate ⟨[], none, none⟩ with
  | .ok _ s => match s.theCloudParams with
    | some myCloudParams => pure myCloudParams
    | none => throw .outOfRange
  | .error e _ => throw e

/-- The scenario of a replication under two policies. -/
def describe (draws : Draws) (aConf : Conf) (myNetwork : Network) (myCloudParams : CloudParams)
    (myJobs : List Job) (x : AllocPolicy × ExecPolicy × ℕ) : Except Failure Desc := do
  let myScenario ← Scenario.create (affinities aConf.theNumFunctions myNetwork.theProcessing)
    myNetwork (selectJobs myJobs aConf.theNumJobs (draws.select x.2.2)) (draws.client x.2.2)
  pure ⟨{ myScenario with theCloudParams := some myCloudParams }, x.1, x.2.1, draws.shuffle x.2.2,
    ⟨[], []⟩⟩

/-- The scenarios of a run, for all policies and all seeds. -/
def prepare (env : Env) (files : Files) (draws : Draws) (aConf : Conf)
    (aStartingSeed aNumReplications : ℕ) (aAllocPolicies : List AllocPolicy)
    (aExecPolicies : List ExecPolicy) : Except Failure (List Desc) :=
  if aConf.theNumJobs = 0 then .error (.thrown "Invalid zero jobs")
  else if aConf.theNumFunctions = 0 then .error (.thrown "Invalid zero lambda function")
  else do
    let myNetwork ← fromFiles env aConf.theNodesPath aConf.theLinksPath aConf.theEdgesPath
      files.nodes files.links files.edges
    let myCloudParams ← cloudParams env aConf.theCloudLatency aConf.theCloudRate
    let myJobs ← loadJobs env ⟨aConf.theOpsFactor, aConf.theArgFactor, aConf.theStateFactor,
      (functionWeights aConf.theNumFunctions).toList, draws.func, true, .Spar⟩ aConf.theTasksPath
      files.tasks
    (aAllocPolicies.flatMap fun myAllocPolicy => aExecPolicies.flatMap fun myExecPolicy =>
      (List.range aNumReplications).map fun myRun =>
        (myAllocPolicy, myExecPolicy, myRun + aStartingSeed)).mapM
      (describe draws aConf myNetwork myCloudParams myJobs)

section Affinities

theorem foldl_insertIfNew_of_some {V : Type} {names : List String} {v v' : V}
    {m : ExtTreeMap String V} {k : String} (h : m[k]? = some v') :
    (names.foldl (fun m f => m.insertIfNew f v) m)[k]? = some v' := by
  induction names generalizing m with
  | nil => exact h
  | cons f names ih =>
    apply ih
    rw [Maps.lookup_emplace]
    split
    · rename_i hk
      subst hk
      rw [h]
      rfl
    · exact h

theorem foldl_insertIfNew_cases {V : Type} {names : List String} {v v' : V} {m : ExtTreeMap String V}
    {k : String} (h : (names.foldl (fun m f => m.insertIfNew f v) m)[k]? = some v') :
    m[k]? = some v' ∨ v' = v := by
  induction names generalizing m with
  | nil => exact .inl h
  | cons f names ih =>
    rcases ih h with hfrom | hfrom
    · rw [Maps.lookup_emplace] at hfrom
      split at hfrom
      · rename_i hk
        subst hk
        cases hm : m[k]? with
        | none =>
          rw [hm] at hfrom
          cases hfrom
          exact .inr rfl
        | some w =>
          rw [hm] at hfrom
          exact .inl hfrom
      · exact .inl hfrom
    · exact .inr hfrom

theorem foldl_insertIfNew_of_mem {V : Type} {names : List String} {v : V} {m : ExtTreeMap String V}
    {k : String} (h : k ∈ names) : ∃ v', (names.foldl (fun m f => m.insertIfNew f v) m)[k]? = some v' := by
  induction names generalizing m with
  | nil => cases h
  | cons f names ih =>
    rcases List.mem_cons.mp h with rfl | h
    · have hk : (m.insertIfNew k v)[k]? = some (m[k]?.getD v) := by
        rw [Maps.lookup_emplace, if_pos rfl]
      exact ⟨_, foldl_insertIfNew_of_some (m := m.insertIfNew k v) hk⟩
    · exact ih h

variable {n : ℕ} {mySum : ℚ} {ws : List (Affinity × ℚ)}

/-- A function that has an affinity keeps it. -/
theorem foldl_assignAffinity_of_some {s : List String × ExtTreeMap String Affinity} {f : String}
    {a : Affinity} (h : s.2[f]? = some a) :
    (ws.foldl (assignAffinity n mySum) s).2[f]? = some a := by
  induction ws generalizing s with
  | nil => exact h
  | cons elem ws ih => exact ih (foldl_insertIfNew_of_some h)

theorem foldl_assignAffinity_cases {s : List String × ExtTreeMap String Affinity} {f : String}
    {a : Affinity} (h : (ws.foldl (assignAffinity n mySum) s).2[f]? = some a) :
    s.2[f]? = some a ∨ a ∈ ws.map Prod.fst := by
  induction ws generalizing s with
  | nil => exact .inl h
  | cons elem ws ih =>
    rcases ih h with hfrom | hfrom
    · rcases foldl_insertIfNew_cases hfrom with hfirst | rfl
      · exact .inl hfirst
      · exact .inr List.mem_cons_self
    · exact .inr (List.mem_cons_of_mem _ hfrom)

/-- As many functions have an affinity as are counted for all affinities. -/
theorem foldl_assignAffinity_of_mem {s : List String × ExtTreeMap String Affinity} {f : String}
    (h : f ∈ s.1.take (ws.map fun elem => numFunctions n mySum elem.2).sum) :
    ∃ a, (ws.foldl (assignAffinity n mySum) s).2[f]? = some a := by
  induction ws generalizing s with
  | nil => cases h
  | cons elem ws ih =>
    rw [List.map_cons, List.sum_cons, List.take_add, List.mem_append] at h
    rcases h with h | h
    · obtain ⟨a, ha⟩ := foldl_insertIfNew_of_mem (m := s.2) (v := elem.1) h
      exact ⟨a, foldl_assignAffinity_of_some (s := assignAffinity n mySum s elem) ha⟩
    · exact ih h

theorem mem_affinityWeights {theProcessing : List Node} {elem : Affinity × ℚ}
    (h : elem ∈ affinityWeights theProcessing) :
    (∃ myNode ∈ theProcessing, myNode.theAffinity = elem.1) ∧
      elem.2 = ((theProcessing.filter fun myNode => myNode.theAffinity = elem.1).map
        Node.theSpeed).sum := by
  obtain ⟨a, -, ha⟩ := List.mem_filterMap.mp h
  simp only [Option.ite_none_left_eq_some] at ha
  obtain ⟨hne, helem⟩ := ha
  cases helem
  obtain ⟨myNode, hnode⟩ := List.exists_mem_of_ne_nil _ hne
  obtain ⟨hmem, haff⟩ := List.mem_filter.mp hnode
  exact ⟨⟨myNode, hmem, of_decide_eq_true haff⟩, rfl⟩

/-- Rounding two parts of a whole number does not lose any of it. -/
theorem le_round_add_round {x y : ℚ} {n : ℕ} (h : x + y = n) :
    n ≤ ⌊1 / 2 + x⌋.toNat + ⌊1 / 2 + y⌋.toNat := by
  have hx := Int.lt_floor_add_one (1 / 2 + x)
  have hy := Int.lt_floor_add_one (1 / 2 + y)
  have hsum : ((n : ℤ) : ℚ) < ((⌊1 / 2 + x⌋ + ⌊1 / 2 + y⌋ + 1 : ℤ) : ℚ) := by
    push_cast
    linarith
  have hless := Int.cast_lt.mp hsum
  omega

theorem length_functionWeights (n : ℕ) : (functionWeights n).keys.length ≤ n := by
  have hfold : ∀ (l : List ℕ) (m : ExtTreeMap String ℚ),
      (l.foldl (fun m i => m.insertIfNew (functionName i) 1) m).size ≤ m.size + l.length := by
    intro l
    induction l with
    | nil => exact fun m => Nat.le_refl _
    | cons i l ih =>
      intro m
      have hrest := ih (m.insertIfNew (functionName i) 1)
      have hsize := ExtTreeMap.size_insertIfNew_le (t := m) (k := functionName i) (v := (1 : ℚ))
      rw [List.foldl_cons, List.length_cons]
      omega
  have hsize := hfold (List.range n) ∅
  rw [List.length_range, ExtTreeMap.size_empty, Nat.zero_add] at hsize
  rwa [ExtTreeMap.length_keys]

/-- There are as many functions with an affinity as functions: at most two counts are rounded. -/
theorem le_sum_numFunctions (n : ℕ) {theProcessing : List Node} (hne : theProcessing ≠ [])
    (hkinds : ∀ myNode ∈ theProcessing, myNode.theAffinity = .Cpu ∨ myNode.theAffinity = .Gpu)
    (hspeed : ∀ myNode ∈ theProcessing, 0 < myNode.theSpeed) :
    n ≤ ((affinityWeights theProcessing).map fun elem => numFunctions n
      ((affinityWeights theProcessing).map Prod.snd).sum elem.2).sum := by
  have hnone : (theProcessing.filter fun myNode => myNode.theAffinity = .NotAvailable) = [] := by
    rw [List.filter_eq_nil_iff]
    intro myNode hmem
    rcases hkinds myNode hmem with h | h <;> simp [h]
  have hpos : ∀ a : Affinity, (theProcessing.filter fun myNode => myNode.theAffinity = a) ≠ [] →
      0 < ((theProcessing.filter fun myNode => myNode.theAffinity = a).map Node.theSpeed).sum := by
    intro a ha
    refine List.sum_pos _ (fun x hx => ?_) (by simpa using ha)
    obtain ⟨myNode, hnode, rfl⟩ := List.mem_map.mp hx
    exact hspeed myNode (List.mem_of_mem_filter hnode)
  have hsome : (theProcessing.filter fun myNode => myNode.theAffinity = .Cpu) ≠ [] ∨
      (theProcessing.filter fun myNode => myNode.theAffinity = .Gpu) ≠ [] := by
    obtain ⟨myNode, hmem⟩ := List.exists_mem_of_ne_nil _ hne
    rcases hkinds myNode hmem with h | h
    · exact .inl (List.ne_nil_of_mem (List.mem_filter.mpr ⟨hmem, decide_eq_true h⟩))
    · exact .inr (List.ne_nil_of_mem (List.mem_filter.mpr ⟨hmem, decide_eq_true h⟩))
  have hcpu := hpos .Cpu
  have hgpu := hpos .Gpu
  simp only [affinityWeights, List.filterMap_cons, List.filterMap_nil, hnone, if_true]
  generalize (theProcessing.filter fun myNode => myNode.theAffinity = .Cpu) = cpu at *
  generalize (theProcessing.filter fun myNode => myNode.theAffinity = .Gpu) = gpu at *
  by_cases hc : cpu = [] <;> by_cases hg : gpu = []
  · rcases hsome with h | h
    · exact absurd hc h
    · exact absurd hg h
  · have hw := hgpu hg
    simp only [hc, hg, if_true, if_false, List.map_cons, List.map_nil, List.sum_cons, List.sum_nil,
      add_zero, numFunctions]
    have hround := @le_round_add_round (n * (gpu.map Node.theSpeed).sum / (gpu.map Node.theSpeed).sum)
      0 n (by rw [add_zero, mul_div_cancel_right₀ _ hw.ne'])
    norm_num at hround ⊢
    exact hround
  · have hw := hcpu hc
    simp only [hc, hg, if_true, if_false, List.map_cons, List.map_nil, List.sum_cons, List.sum_nil,
      add_zero, numFunctions]
    have hround := @le_round_add_round (n * (cpu.map Node.theSpeed).sum / (cpu.map Node.theSpeed).sum)
      0 n (by rw [add_zero, mul_div_cancel_right₀ _ hw.ne'])
    norm_num at hround ⊢
    exact hround
  · have hw := hcpu hc
    have hv := hgpu hg
    simp only [hc, hg, if_false, List.map_cons, List.map_nil, List.sum_cons, List.sum_nil,
      add_zero, numFunctions]
    refine le_round_add_round ?_
    rw [← add_div, ← mul_add, mul_div_cancel_right₀ _ (add_pos hw hv).ne']

/-- Every function has the affinity of some processing node. -/
theorem affinities_cover {n : ℕ} {theProcessing : List Node} (hne : theProcessing ≠ [])
    (hkinds : ∀ myNode ∈ theProcessing, myNode.theAffinity = .Cpu ∨ myNode.theAffinity = .Gpu)
    (hspeed : ∀ myNode ∈ theProcessing, 0 < myNode.theSpeed) {f : String}
    (hf : f ∈ (functionWeights n).keys) :
    ∃ myNode ∈ theProcessing, (affinities n theProcessing)[f]? = some myNode.theAffinity := by
  have hall := Nat.le_trans (length_functionWeights n) (le_sum_numFunctions n hne hkinds hspeed)
  rw [← List.take_of_length_le hall] at hf
  obtain ⟨a, ha⟩ := foldl_assignAffinity_of_mem (s := ((functionWeights n).keys, ∅)) hf
  rcases foldl_assignAffinity_cases ha with hfrom | hfrom
  · simp at hfrom
  · obtain ⟨elem, helem, rfl⟩ := List.mem_map.mp hfrom
    obtain ⟨⟨myNode, hnode, haff⟩, -⟩ := mem_affinityWeights helem
    exact ⟨myNode, hnode, haff ▸ ha⟩

end Affinities

section Processing

theorem processing_kind {env : Env} {aName : String} {aId : ℕ} {aSpeed : ℚ} {aMemory : ℕ}
    {aAffinity : Affinity} {aClient : Bool} {myNode : Node}
    (h : Node.processing env aName aId aSpeed aMemory aAffinity aClient = .ok myNode) :
    myNode.theAffinity = aAffinity ∧ 0 < myNode.theSpeed := by
  rw [Node.processing] at h
  split at h
  · cases h
  · split at h
    · cases h
    · rename_i hspeed
      cases h
      exact ⟨rfl, not_le.mp hspeed⟩

/-- A node from the file has one of the affinities of the known types, and a speed. -/
theorem make_kind {env : Env} {aString : Text} {aCounter : ℕ} {made : Node × ℕ}
    (h : Node.make env aString aCounter = .ok made) :
    (made.1.theAffinity = .Cpu ∨ made.1.theAffinity = .Gpu) ∧ 0 < made.1.theSpeed := by
  rw [Node.make] at h
  split at h
  · rename_i type _
    split at h
    · cases h
    · rename_i myAffinity myClient hlookup
      obtain ⟨mySpeed, -, h⟩ := bind_ok.mp h
      obtain ⟨myMemory, -, h⟩ := bind_ok.mp h
      obtain ⟨myNode, hnode, h⟩ := bind_ok.mp h
      cases h
      obtain ⟨rfl, hspeed⟩ := processing_kind hnode
      refine ⟨?_, hspeed⟩
      have hmem : (String.ofList type, myNode.theAffinity, myClient) ∈ myAffinitiesClients := by
        obtain ⟨l, r, hsplit, -⟩ := List.lookup_eq_some_iff.mp hlookup
        rw [hsplit]
        exact List.mem_append_right _ List.mem_cons_self
      simp only [myAffinitiesClients, List.mem_cons, Prod.mk.injEq, List.not_mem_nil, or_false] at hmem
      rcases hmem with ⟨-, h, -⟩ | ⟨-, h, -⟩ | ⟨-, h, -⟩ | ⟨-, h, -⟩ <;> simp [h]
  · cases h

/-- What holds of all that is made from lines holds of all that is loaded from a file. -/
theorem loadFile_forall {T : Type} {make : Text → ℕ → Except Failure (T × ℕ)} {P : T → Prop}
    (hmake : ∀ line k made, make line k = .ok made → P made.1) {aPath : String} {aFile : Option Text}
    {aCounter : ℕ} {r : List T × ℕ} (h : loadFile make aPath aFile aCounter = .ok r) :
    ∀ t ∈ r.1, P t := by
  cases aFile with
  | none => cases h
  | some myFile =>
    refine (foldlM_ok (I := fun r : List T × ℕ => ∀ t ∈ r.1, P t) (P := fun _ => True) ?_
      (List.forall_mem_nil _) h).2
    intro b line b' hb hline
    obtain ⟨made, hmade, hline⟩ := bind_ok.mp hline
    cases hline
    refine ⟨trivial, fun t ht => ?_⟩
    rcases List.mem_append.mp ht with ht | ht
    · exact hb t ht
    · rw [List.mem_singleton.mp ht]
      exact hmake line b.2 made hmade

/-- The processing nodes of a network from files. -/
theorem fromFiles_processing {env : Env} {aNodesPath aLinksPath aEdgesPath : String}
    {aNodes aLinks aEdges : Option Text} {net : Network}
    (h : fromFiles env aNodesPath aLinksPath aEdgesPath aNodes aLinks aEdges = .ok net) :
    ∀ myNode ∈ net.theProcessing,
      (myNode.theAffinity = .Cpu ∨ myNode.theAffinity = .Gpu) ∧ 0 < myNode.theSpeed := by
  simp only [fromFiles, bind_ok] at h
  obtain ⟨⟨myNodes, c₁⟩, hnodes, ⟨myLinks, c₂⟩, -, ⟨myNodeLists, c₃⟩, -, ⟨theNodes, c₄⟩, -, edges, -,
    h⟩ := h
  have hkinds := loadFile_forall (P := fun n : Node =>
    (n.theAffinity = .Cpu ∨ n.theAffinity = .Gpu) ∧ 0 < n.theSpeed) (fun _ _ _ => make_kind) hnodes
  obtain ⟨theElements, -, h⟩ := bind_ok.mp h
  cases h
  intro myNode hmem
  obtain ⟨⟨k, n⟩, hn, rfl⟩ := List.mem_map.mp hmem
  have hget := Maps.mem_toList.mp hn
  have hfold : ∀ (l : List Node) (m : ExtTreeMap String Node), (∀ (k : String) n, m[k]? = some n →
      n ∈ myNodes) → (∀ n ∈ l, n ∈ myNodes) → ∀ (k : String) n,
      (l.foldl (fun m n => m.insertIfNew n.theName n) m)[k]? = some n → n ∈ myNodes := by
    intro l
    induction l with
    | nil => exact fun m hm _ => hm
    | cons n₀ l ih =>
      intro m hm hl
      obtain ⟨hn₀, hl⟩ := List.forall_mem_cons.mp hl
      refine ih _ (fun k n hk => ?_) hl
      rw [Maps.lookup_emplace] at hk
      split at hk
      · cases hm₀ : m[n₀.theName]? with
        | none =>
          rw [hm₀] at hk
          cases hk
          exact hn₀
        | some n' =>
          rw [hm₀] at hk
          cases hk
          exact hm _ _ hm₀
      · exact hm k n hk
  exact hkinds n (hfold myNodes ∅ (by simp) (fun _ => id) k n hget)

end Processing

section Functions

theorem pickFrom_mem {myRandom mySum : ℚ} {l : List (String × ℚ)} {f : String}
    (h : pickFrom myRandom mySum l = some f) : f ∈ l.map Prod.fst := by
  induction l generalizing mySum with
  | nil => cases h
  | cons elem rest ih =>
    rw [pickFrom] at h
    split at h
    · cases h
      exact List.mem_cons_self
    · exact List.mem_cons_of_mem _ (ih h)

theorem pick_mem {theWeights : List (String × ℚ)} (hne : theWeights ≠ []) (myRandom : ℚ) :
    pick theWeights myRandom ∈ theWeights.map Prod.fst := by
  rw [pick]
  cases hpick : pickFrom myRandom 0 theWeights with
  | some f => exact pickFrom_mem hpick
  | none =>
    rw [List.getLast?_eq_some_getLast hne]
    exact List.mem_map_of_mem (List.getLast_mem hne)

/-- The functions of the tasks that are loaded are among those with a weight. -/
theorem loadJobs_functions {env : Env} {args : LoadArgs} {aPath : String} {aFile : Option Text}
    {jobs : List Job} (h : loadJobs env args aPath aFile = .ok jobs) :
    ∀ job ∈ jobs, ∀ myTask ∈ job.theTasks, myTask.theFunc ∈ args.aFuncWeights.map Prod.fst := by
  have hne : args.aFuncWeights ≠ [] := by
    intro hnil
    simp only [loadJobs, if_pos hnil] at h
    cases h
  cases aFile with
  | none =>
    simp only [loadJobs, if_neg hne] at h
    cases h
  | some myFile =>
    rcases loadJobs_cases env args aPath myFile with ⟨rows, -, -, -, ⟨-, hjobs⟩ | ⟨-, hjobs⟩⟩ |
      ⟨what, hjobs⟩ | ⟨-, hjobs⟩
    · rw [hjobs] at h
      cases h
      intro job hjob myTask htask
      obtain ⟨d, -, theId, picked, rfl⟩ := mem_jobsFrom hjob
      obtain ⟨x, -, rfl⟩ := List.mem_map.mp htask
      exact pick_mem hne _
    · rw [hjobs] at h
      cases h
    · rw [hjobs] at h
      cases h
    · rw [hjobs] at h
      cases h

end Functions

section Exceptions

/-- A failure that is not an exception. -/
def Silent (e : Failure) : Prop := ∀ what, e ≠ .thrown what

theorem silent_outOfRange : Silent .outOfRange := by
  intro what h
  cases h

theorem silent_endless : Silent .endless := by
  intro what h
  cases h

theorem silent_divisionByZero : Silent .divisionByZero := by
  intro what h
  cases h

theorem access_silent {α : Type} (l : List α) (i : ℕ) : FailsOnly Silent (access l i) := by
  intro e he
  rw [access_fails e he]
  exact silent_outOfRange

variable {net : Network} {dijkstra : Dijkstra} {steps : ℕ}

theorem wayTo_silent (myCacheEntry : PredVec) (aSrcId aDstId : ℕ) :
    FailsOnly Silent (net.wayTo steps myCacheEntry aSrcId aDstId) := by
  rw [Network.wayTo]
  split
  · exact failsOnly_error silent_endless
  · exact failsOnly_mapM fun i _ => access_silent _ i

theorem txTimeOf_silent (aSrc aDst : Node) (aBytes : ℕ) :
    FailsOnly Silent (txTimeOf net dijkstra steps aSrc aDst aBytes) := by
  rw [txTimeOf]
  split
  · exact failsOnly_pure 0
  · exact failsOnly_bind (wayTo_silent _ _ _) fun _ _ => failsOnly_pure _

theorem hopsOf_silent (aSrc aDst : Node) : FailsOnly Silent (hopsOf net dijkstra steps aSrc aDst) := by
  rw [hopsOf]
  exact failsOnly_bind (wayTo_silent _ _ _) fun _ _ => failsOnly_pure _

theorem worstOf_silent (myCandidate : Node) :
    FailsOnly Silent (worstOf net dijkstra steps myCandidate) := by
  rw [worstOf]
  refine failsOnly_bind (failsOnly_mapM fun myTarget _ => ?_) fun ts _ => failsOnly_pure _
  refine failsOnly_bind (txTimeOf_silent _ _ _) fun there _ => ?_
  exact failsOnly_bind (txTimeOf_silent _ _ _) fun back _ => failsOnly_pure _

theorem centralOf_silent (s : Option Node) :
    wp (fun _ => False) (centralOf net dijkstra steps) (fun _ _ => True) (fun e _ => Silent e) s := by
  rw [centralOf]
  apply wp_get_bind
  cases s with
  | some myNode => exact wp_pure trivial
  | none =>
    refine wp_bind (fun _ _ => id) (wp_foldlM (fun _ _ _ => True) (fun _ _ _ => id) _ ?_
      (fun _ _ => id) trivial) fun _ _ _ => .inr trivial
    intro l x r b s' _ _
    rw [tryCandidateOf]
    refine wp_ofExcept_bind (worstOf_silent x) fun myWorst _ => ?_
    apply wp_get_bind
    split
    · exact wp_set_bind (wp_pure trivial)
    · exact wp_pure trivial

variable {s : Scenario}

theorem central_silent : FailsOnly Silent (s.central dijkstra) := by
  have h : wp (fun _ => False) (centralOf s.theNetwork dijkstra s.theNetwork.theElements.length)
      (fun _ _ => True) (fun e _ => Silent e) none := centralOf_silent none
  rw [Scenario.central]
  split
  · exact failsOnly_pure _
  · exact failsOnly_error silent_outOfRange
  · rename_i e s' hc
    exact failsOnly_error (wp_of_error h hc id)

theorem stateSize_silent (aJob : Job) (aTask : Task) (aAll : Bool) :
    FailsOnly Silent (stateSize aJob aTask aAll) := by
  rw [stateSize]
  split
  · exact failsOnly_pure _
  · exact failsOnly_bind (failsOnly_mapM fun i _ => access_silent _ i) fun _ _ => failsOnly_pure _

theorem allStatesArgSizes_silent (aJob : Job) (aTask : Task) (aAll : Bool) :
    FailsOnly Silent (allStatesArgSizes aJob aTask aAll) := by
  rw [allStatesArgSizes]
  refine failsOnly_bind (stateSize_silent aJob aTask aAll) fun myStateSize _ => ?_
  split
  · exact failsOnly_pure _
  · exact failsOnly_bind (access_silent _ _) fun _ _ => failsOnly_pure _

theorem procTime_silent (aOps : ℕ) (aTarget : Node) : FailsOnly Silent (s.procTime aOps aTarget) := by
  rw [Scenario.procTime]
  split
  · exact failsOnly_pure _
  · refine failsOnly_bind (access_silent _ _) fun load _ => ?_
    split
    · exact failsOnly_error silent_divisionByZero
    · exact failsOnly_pure _

theorem execStatsTwoWay_silent (aOps aInSize aOutSize : ℕ) (aOrigin aTarget : Node) :
    FailsOnly Silent (s.execStatsTwoWay dijkstra aOps aInSize aOutSize aOrigin aTarget) := by
  rw [Scenario.execStatsTwoWay]
  refine failsOnly_bind (procTime_silent _ _) fun _ _ => ?_
  refine failsOnly_bind (txTimeOf_silent _ _ _) fun _ _ => ?_
  refine failsOnly_bind (txTimeOf_silent _ _ _) fun _ _ => ?_
  refine failsOnly_bind (hopsOf_silent _ _) fun _ _ => ?_
  exact failsOnly_bind (hopsOf_silent _ _) fun _ _ => failsOnly_pure _

theorem execStatsOneWay_silent (aOps aSize : ℕ) (aOrigin aTarget : Node) :
    FailsOnly Silent (s.execStatsOneWay dijkstra aOps aSize aOrigin aTarget) := by
  rw [Scenario.execStatsOneWay]
  refine failsOnly_bind (procTime_silent _ _) fun _ _ => ?_
  refine failsOnly_bind (txTimeOf_silent _ _ _) fun _ _ => ?_
  exact failsOnly_bind (hopsOf_silent _ _) fun _ _ => failsOnly_pure _

/-- The parameters of the cloud are only missed where there are none. -/
theorem execStatsTwoWayCloud_silent (hcloud : s.theCloudParams ≠ none) (aInSize aOutSize : ℕ) :
    FailsOnly Silent (s.execStatsTwoWayCloud aInSize aOutSize) := by
  have htime : ∀ aBytes, FailsOnly Silent (s.txTimeCloud aBytes) := by
    intro aBytes
    rw [Scenario.txTimeCloud]
    split
    · exact failsOnly_pure _
    · split
      · rename_i hnone
        exact absurd hnone hcloud
      · exact failsOnly_pure _
  rw [Scenario.execStatsTwoWayCloud]
  refine failsOnly_bind (htime _) fun _ _ => ?_
  exact failsOnly_bind (htime _) fun _ _ => failsOnly_pure _

theorem moveState_silent (myJob : Job) (myNode : Node) (p : JobStat × List Node) (myStateId : ℕ) :
    FailsOnly Silent (s.moveState dijkstra myJob myNode p myStateId) := by
  rw [Scenario.moveState]
  refine failsOnly_bind (access_silent _ _) fun _ _ => ?_
  refine failsOnly_bind (access_silent _ _) fun _ _ => ?_
  exact failsOnly_bind (execStatsOneWay_silent _ _ _ _) fun _ _ => failsOnly_pure _

theorem returnValue_silent (myExecStat : JobStat) (myNextTask : Option Task) (aSize : ℕ)
    (myNode myClient : Node) :
    FailsOnly Silent (s.returnValue dijkstra myExecStat myNextTask aSize myNode myClient) := by
  cases myNextTask with
  | some myTask => exact failsOnly_pure _
  | none => exact failsOnly_bind (execStatsOneWay_silent _ _ _ _) fun _ _ => failsOnly_pure _

theorem callFunction_silent (myJob : Job) (myClient myNode : Node) (myTask : Task)
    (myNextTask : Option Task) (myExecStat : JobStat) :
    FailsOnly Silent (s.callFunction dijkstra myJob myClient myNode myTask myNextTask myExecStat) := by
  rw [Scenario.callFunction]
  exact failsOnly_bind (execStatsTwoWay_silent _ _ _ _ _) fun _ _ => failsOnly_pure _

theorem execute_silent (hcloud : s.theCloudParams ≠ none) (aPolicy : ExecPolicy) (myJob : Job)
    (myClient myNode : Node) (myTask : Task) (myNextTask : Option Task) (p : Scenario.Progress) :
    FailsOnly Silent (s.execute dijkstra aPolicy myJob myClient myNode myTask myNextTask p) := by
  cases aPolicy with
  | PureFaaS =>
    refine failsOnly_bind (allStatesArgSizes_silent _ _ _) fun _ _ => ?_
    exact failsOnly_bind (execStatsTwoWay_silent _ _ _ _ _) fun _ _ => failsOnly_pure _
  | StatePropagate =>
    refine failsOnly_bind (allStatesArgSizes_silent _ _ _) fun _ _ => ?_
    refine failsOnly_bind (execStatsOneWay_silent _ _ _ _) fun _ _ => ?_
    exact failsOnly_bind (returnValue_silent _ _ _ _ _) fun _ _ => failsOnly_pure _
  | StateLocal =>
    refine failsOnly_bind (execStatsOneWay_silent _ _ _ _) fun _ _ => ?_
    refine failsOnly_bind (failsOnly_foldlM (moveState_silent _ _) _ _) fun _ _ => ?_
    exact failsOnly_bind (returnValue_silent _ _ _ _ _) fun _ _ => failsOnly_pure _
  | UnchainedExternal =>
    refine failsOnly_bind (callFunction_silent _ _ _ _ _ _) fun _ _ => ?_
    refine failsOnly_bind (stateSize_silent _ _ _) fun _ _ => ?_
    exact failsOnly_bind (execStatsTwoWayCloud_silent hcloud _ _) fun _ _ => failsOnly_pure _
  | UnchainedInEdge =>
    refine failsOnly_bind (callFunction_silent _ _ _ _ _ _) fun _ _ => ?_
    refine failsOnly_bind (stateSize_silent _ _ _) fun _ _ => ?_
    refine failsOnly_bind central_silent fun _ _ => ?_
    exact failsOnly_bind (execStatsTwoWay_silent _ _ _ _ _) fun _ _ => failsOnly_pure _
  | UnchainedInFunction =>
    refine failsOnly_bind (callFunction_silent _ _ _ _ _ _) fun _ _ => ?_
    exact failsOnly_bind (stateSize_silent _ _ _) fun _ _ => failsOnly_pure _
  | UnchainedInClient =>
    refine failsOnly_bind (allStatesArgSizes_silent _ _ _) fun _ _ => ?_
    exact failsOnly_bind (execStatsTwoWay_silent _ _ _ _ _) fun _ _ => failsOnly_pure _

theorem nodeOf_silent (aJobId aTaskId : ℕ) : FailsOnly Silent (s.nodeOf aJobId aTaskId) := by
  rw [Scenario.nodeOf]
  refine failsOnly_bind (access_silent _ _) fun row _ => ?_
  refine failsOnly_bind (access_silent _ _) fun entry _ => ?_
  cases entry with
  | none => exact failsOnly_error silent_outOfRange
  | some myNode => exact failsOnly_pure _

/-- Measuring the performance after an allocation throws no exception, if there is a cloud. -/
theorem performance_silent (hcloud : s.theCloudParams ≠ none) (hload : s.theLoad ≠ [])
    (aPolicy : ExecPolicy) : FailsOnly Silent (s.performance dijkstra aPolicy) := by
  rw [Scenario.performance, if_neg hload]
  refine failsOnly_bind (failsOnly_mapM fun myJob _ => ?_) fun _ _ => ?_
  · refine failsOnly_bind (access_silent _ _) fun myClient _ => ?_
    refine failsOnly_bind (failsOnly_foldlM (fun p x => ?_) _ _) fun _ _ => failsOnly_pure _
    refine failsOnly_bind (nodeOf_silent _ _) fun myNode _ => ?_
    exact failsOnly_bind (execute_silent hcloud _ _ _ _ _ _ _) fun _ _ => failsOnly_pure _
  · exact failsOnly_bind (failsOnly_mapM fun myNode _ => access_silent _ _) fun _ _ => failsOnly_pure _

/-- The function of each task has the affinity of some processing node. -/
def Covered (s : Scenario) : Prop :=
  ∀ job ∈ s.theJobs, ∀ myTask ∈ job.theTasks, ∃ myNode ∈ s.theNetwork.theProcessing,
    s.theAffinities[myTask.theFunc]? = some myNode.theAffinity

theorem selectNode_silent (aPolicy : AllocPolicy) (myJob : Job) (myClient : Node) {myTask : Task}
    (h : ∃ myNode ∈ s.theNetwork.theProcessing,
      s.theAffinities[myTask.theFunc]? = some myNode.theAffinity) :
    FailsOnly Silent (s.selectNode dijkstra aPolicy myJob myClient myTask) := by
  obtain ⟨myNode, hnode, haff⟩ := h
  have hsizes : FailsOnly Silent (Scenario.allocSizes aPolicy myJob myTask) := by
    cases aPolicy with
    | ProcOnly => exact failsOnly_pure _
    | ProcNet => exact allStatesArgSizes_silent _ _ _
  simp only [Scenario.selectNode, haff]
  refine failsOnly_bind hsizes fun sizes _ => ?_
  refine failsOnly_bind (failsOnly_foldlM (fun best n => ?_) _ _) fun best hbest => ?_
  · rw [Scenario.tryNode]
    split
    · exact failsOnly_pure _
    · refine failsOnly_bind ?_ fun myCurExecTime _ => ?_
      · rw [Scenario.execTimeNew]
        refine failsOnly_bind (access_silent _ _) fun load _ => ?_
        rw [Scenario.execTime]
        refine failsOnly_bind (txTimeOf_silent _ _ _) fun _ _ => ?_
        exact failsOnly_bind (txTimeOf_silent _ _ _) fun _ _ => failsOnly_pure _
      · split
        · exact failsOnly_pure _
        · split <;> exact failsOnly_pure _
  · rw [Scenario.tryNode_eq] at hbest
    have hleast := Scores.foldlM_improve hbest
    cases best with
    | none => exact absurd rfl (hleast myNode hnode)
    | some m => exact failsOnly_pure _

/-- A scenario in which nothing throws an exception once the tasks are being allocated. -/
structure Ready (s : Scenario) : Prop where
  covered : Covered s
  cloud : s.theCloudParams ≠ none
  loads : s.theLoad ≠ []

theorem allocateTask_silent (aPolicy : AllocPolicy) (i t : ℕ) (h : Ready s) :
    wp (fun _ => False) (Scenario.allocateTask dijkstra aPolicy i t) (fun _ s' => Ready s')
      (fun e _ => Silent e) s := by
  have haccess : ∀ {α : Type} {l : List α} {k : ℕ} (e : Failure), access l k = .error e → Silent e :=
    fun e he => access_silent _ _ e he
  rw [Scenario.allocateTask]
  apply wp_get_bind
  refine wp_ofExcept_bind haccess fun myJob hjob => ?_
  refine wp_ofExcept_bind haccess fun myClient _ => ?_
  refine wp_ofExcept_bind haccess fun myTask htask => ?_
  have hmem := List.mem_of_getElem? (access_eq_ok.mp htask)
  have hcovered := h.covered myJob (List.mem_of_getElem? (access_eq_ok.mp hjob)) myTask hmem
  refine wp_ofExcept_bind (selectNode_silent aPolicy myJob myClient hcovered) fun myNode _ => ?_
  refine wp_ofExcept_bind haccess fun row _ => ?_
  refine wp_ofExcept_bind haccess fun _ _ => ?_
  refine wp_ofExcept_bind haccess fun load _ => ?_
  apply wp_set
  refine ⟨h.covered, h.cloud, fun hnil => h.loads ?_⟩
  have hlength := congrArg List.length hnil
  rw [Scenario.place, List.length_set] at hlength
  exact List.length_eq_zero_iff.mp hlength

theorem allocateJob_silent (aPolicy : AllocPolicy) (i : ℕ) (h : Ready s) :
    wp (fun _ => False) (Scenario.allocateJob dijkstra aPolicy i) (fun _ s' => Ready s')
      (fun e _ => Silent e) s := by
  rw [Scenario.allocateJob]
  apply wp_get_bind
  refine wp_ofExcept_bind (fun e he => access_silent _ _ e he) fun myJob _ => ?_
  apply wp_set_bind
  refine wp_forM (fun _ s' => Ready s') (fun _ _ => id) _ ?_ (fun _ => id) ⟨h.covered, h.cloud, h.loads⟩
  exact fun l t r s' _ hready => allocateTask_silent aPolicy i t hready

/-- Allocating the tasks throws no exception. -/
theorem allocateTasks_silent (aPolicy : AllocPolicy) (myRnd : ℕ → ℚ) (hcovered : Covered s)
    (hcloud : s.theCloudParams ≠ none) (hnodes : s.theNetwork.nodes ≠ []) :
    wp (fun _ => False) (Scenario.allocateTasks dijkstra aPolicy myRnd) (fun _ s' => Ready s')
      (fun e _ => Silent e) s := by
  rw [Scenario.allocateTasks]
  apply wp_modify_bind
  apply wp_get_bind
  refine wp_ofExcept_bind ?_ fun myJobIds _ => ?_
  · intro e he
    rw [Scenario.shuffle_fails _ _ _ e he]
    exact silent_outOfRange
  have hready : Ready s.clear := by
    refine ⟨hcovered, hcloud, fun hnil => hnodes ?_⟩
    have hlength := congrArg List.length hnil
    rw [Scenario.clear, List.length_replicate] at hlength
    exact List.length_eq_zero_iff.mp hlength
  refine wp_forM (fun _ s' => Ready s') (fun _ _ => id) _ ?_ (fun _ => id) hready
  exact fun l i r s' _ h => allocateJob_silent aPolicy i h

end Exceptions

section Prepared

variable {env : Env} {files : Files} {draws : Draws} {aConf : Conf} {aStartingSeed aNumReplications : ℕ}
  {aAllocPolicies : List AllocPolicy} {aExecPolicies : List ExecPolicy} {theDesc : List Desc}

theorem mem_selectJobs {aJobs : List Job} {aNumJobs : ℕ} {aRng : ℕ → ℚ} {job : Job}
    (h : job ∈ selectJobs aJobs aNumJobs aRng) : ∃ job' ∈ aJobs, job.theTasks = job'.theTasks := by
  obtain ⟨k, hk, rfl⟩ := List.mem_mapIdx.mp h
  have hmem := List.mem_of_mem_filter (List.getElem_mem hk)
  exact ⟨_, List.fst_mem_of_mem_zipIdx hmem, rfl⟩

/-- The scenarios of a batch have a network from the files, with its nodes, a cloud, and functions
that are known. -/
theorem prepare_ok (h : prepare env files draws aConf aStartingSeed aNumReplications aAllocPolicies
    aExecPolicies = .ok theDesc) : ∃ net, fromFiles env aConf.theNodesPath aConf.theLinksPath
      aConf.theEdgesPath files.nodes files.links files.edges = .ok net ∧
      ∀ d ∈ theDesc, d.theScenario.theNetwork = net ∧ d.theScenario.theCloudParams ≠ none ∧
        d.theScenario.theAffinities = affinities aConf.theNumFunctions net.theProcessing ∧
        ∀ job ∈ d.theScenario.theJobs, ∀ myTask ∈ job.theTasks,
          myTask.theFunc ∈ (functionWeights aConf.theNumFunctions).keys := by
  rw [prepare] at h
  split at h
  · cases h
  split at h
  · cases h
  obtain ⟨net, hnet, h⟩ := bind_ok.mp h
  obtain ⟨myCloudParams, -, h⟩ := bind_ok.mp h
  obtain ⟨myJobs, hjobs, h⟩ := bind_ok.mp h
  refine ⟨net, hnet, fun d hd => ?_⟩
  obtain ⟨x, -, hx⟩ := mem_of_mapM_ok h hd
  obtain ⟨myScenario, hscenario, hx⟩ := bind_ok.mp hx
  cases hx
  obtain ⟨theClients, -, hscenario⟩ := bind_ok.mp hscenario
  cases hscenario
  refine ⟨rfl, by simp, rfl, fun job hjob myTask htask => ?_⟩
  obtain ⟨job', hjob', htasks⟩ := mem_selectJobs hjob
  have hmem := loadJobs_functions hjobs job' hjob' myTask (htasks ▸ htask)
  rwa [ExtTreeMap.map_fst_toList_eq_keys] at hmem

/-- Two nodes of different types, and a job with a state. -/
def twoTypes : Files where
  nodes := some "0;a;1000;1;0;0;rpi3b+\n1;b;1000;2;0;0;nvidia_jetson_tx2\n".toList
  links := some []
  edges := some "a b\nb a\n".toList
  tasks := some "0,j_1,M1,1,1,1,1\n0,j_1,R3_1_2,1,1,1,1".toList

def twoTypesConf : Conf := ⟨"nodes", "links", "edges", "tasks", 3, 1, 1, 1, 1, 1, 1⟩

end Prepared

end Simulation

end ServerlessEdge.StateSim
