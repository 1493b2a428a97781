import Mathlib.Data.List.Lex
import ServerlessEdge.LambdaMuSim.Simulation
import ServerlessEdge.StateSim.Termination

/-! The replications of a run: their scenarios are made of one network, which has been read from
files, and of the periods of the apps. -/
namespace ServerlessEdge.LambdaMuSim
open Library Checks Triple
open StateSim (Accepted Coherent Dijkstra Failure Finds Node Routing Stores hopsOf)

namespace Scenario

/-- The processing nodes that are not clients. -/
def edgeNodes (aNetwork : StateSim.Network) : List Node :=
  aNetwork.theProcessing.filter fun myProcessing =>
    myProcessing.theName ∉ aNetwork.theClients.map Node.theName

/-- An edge node without apps. -/
def edgeOf (aNumContainers : Node → Except Failure ℕ) (aContainerCapacity : Node → Except Failure ℤ)
    (myProcessing : Node) : Except Failure (Edge 0) := do
  let theNumContainers ← aNumContainers myProcessing
  let theContainerCapacity ← aContainerCapacity myProcessing
  pure { theNumContainers, theContainerCapacity }

section Constructor

variable (env : Env) (aNetwork : StateSim.Network)
  (aCloudDistanceFactor aCloudStorageCostLocal aCloudStorageCostRemote : ℚ)
  (aNumContainers : Node → Except Failure ℕ) (aContainerCapacity : Node → Except Failure ℤ)
  (aMuAlgorithm : MuAlgorithm) (aLambdaAlgorithm : LambdaAlgorithm)

/-- The scenario with these edges besides the cloud, and with the distances of each broker to them. -/
def assemble (myEdges : List (Edge 0)) (myDistances : List (List ℕ)) :
    Scenario aNetwork.theClients.length (edgeNodes aNetwork).length 0 where
  theCloudStorageCostLocal := aCloudStorageCostLocal
  theCloudStorageCostRemote := aCloudStorageCostRemote
  theMuAlgorithm := aMuAlgorithm
  theLambdaAlgorithm := aLambdaAlgorithm
  theApps := Fin.elim0
  theEdges := Fin.cases { theNumContainers := 0, theContainerCapacity := 0 } fun e =>
    (myEdges[e.val]?).getD { theNumContainers := 0, theContainerCapacity := 0 }
  networkCost b := Fin.cases (aCloudDistanceFactor * (myDistances.flatten.max?.getD 0 : ℕ)) fun e =>
    (((myDistances[b.val]?).bind fun row => row[e.val]?).getD 0 : ℕ)

/-- The constructor. -/
def create {M : Type → Type} [Monad M] [MonadExcept Failure M] (hops : Node → Node → M ℕ) :
    M (Scenario aNetwork.theClients.length (edgeNodes aNetwork).length 0) :=
  if aCloudDistanceFactor ≤ 0 then
    throw (.thrown ("Invalid cloud distance factor, must be > 0: " ++ env.to_string aCloudDistanceFactor))
  else if aNetwork.theClients = [] then throw (.thrown "Invalid network without brokers")
  else match (edgeNodes aNetwork).mapM (edgeOf aNumContainers aContainerCapacity) with
    | .error e => throw e
    | .ok myEdges =>
      if myEdges = [] then throw (.thrown "Invalid network without edge nodes")
      else do
        let myDistances ← aNetwork.theClients.mapM fun b => (edgeNodes aNetwork).mapM (hops b)
        pure (assemble aNetwork aCloudDistanceFactor aCloudStorageCostLocal aCloudStorageCostRemote
          aMuAlgorithm aLambdaAlgorithm myEdges myDistances)

end Constructor

end Scenario

/-- An odd number of periods is made even. -/
def trim (theBestNextPeriods : List ℚ) : List ℚ :=
  if theBestNextPeriods.length % 2 = 1 then theBestNextPeriods.dropLast else theBestNextPeriods

/-- The periods of the apps, as many in one state as in the other. -/
structure AppPeriods where
  thePeriods : List (List ℚ)
  nonempty : thePeriods ≠ []
  even : ∀ p ∈ thePeriods, p.length % 2 = 0
  positive : ∀ p ∈ thePeriods, p ≠ []

/-- The periods of the apps that have enough of them. -/
def enough (myCosts : List (List ℚ)) (aMinPeriods : ℕ) : List (List ℚ) :=
  ((myCosts.map trim).filter fun p => aMinPeriods ≤ p.length).mergeSort fun p q => p ≤ q

theorem mem_enough {myCosts : List (List ℚ)} {aMinPeriods : ℕ} {p : List ℚ} :
    p ∈ enough myCosts aMinPeriods ↔ (∃ q ∈ myCosts, trim q = p) ∧ aMinPeriods ≤ p.length := by
  rw [enough, List.mem_mergeSort, List.mem_filter, List.mem_map, decide_eq_true_iff]

theorem trim_even (p : List ℚ) : (trim p).length % 2 = 0 := by
  rw [trim]
  split
  · rw [List.length_dropLast]
    omega
  · omega

def AppPeriods.create (myCosts : List (List ℚ)) (aMinPeriods : ℕ) : Except Failure AppPeriods :=
  if hmin : aMinPeriods = 0 then .error (.thrown "Invalid number of min periods, must be > 0")
  else if hnone : enough myCosts aMinPeriods = [] then .error (.thrown "Empty app traces")
  else .ok {
    thePeriods := enough myCosts aMinPeriods
    nonempty := hnone
    even := fun p hp => by
      obtain ⟨⟨q, -, rfl⟩, -⟩ := mem_enough.mp hp
      exact trim_even q
    positive := fun p hp => by
      obtain ⟨-, hlength⟩ := mem_enough.mp hp
      exact List.ne_nil_of_length_pos (Nat.lt_of_lt_of_le (Nat.pos_of_ne_zero hmin) hlength) }

namespace Simulation

inductive ConfType where
  | Dynamic | Snapshot
  deriving DecidableEq

structure Conf where
  theType : ConfType
  theCloudDistanceFactor : ℚ
  myCloudStorageCostLocal : ℚ
  myCloudStorageCostRemote : ℚ
  theDuration : ℚ
  theWarmUp : ℚ
  theEpoch : ℚ
  theMinPeriods : ℕ
  theAlpha : ℚ
  theBeta : ℚ
  theMuAlgorithm : MuAlgorithm
  theLambdaAlgorithm : LambdaAlgorithm

/-- What is drawn with a seed: the numbers of apps, their brokers, parameters and periods, and the
numbers that the assignments use. -/
structure Drawn (B : ℕ) where
  myNumLambda : ℕ
  myNumMu : ℕ
  myNumApps : ℕ
  myBrokerRv : 0 < B → ℕ → Fin B
  theAppModel : ℕ → AppParams
  periods : ∀ aPeriods : AppPeriods, Draws aPeriods.thePeriods myNumApps
  rnd : ℕ → ℕ → ℚ

/-- As many containers as the node does billions of operations a second. -/
def numContainers (toString : Node → String) (aNode : Node) : Except Failure ℕ :=
  let myNumContainers := ⌊aNode.theSpeed / 10 ^ 9 + 1 / 2⌋₊
  if myNumContainers = 0 then .error (.thrown ("Invalid node (num containers): " ++ toString aNode))
  else .ok myNumContainers

def containerCapacity (toString : Node → String) (aNode : Node) : Except Failure ℤ :=
  if "server".toList <:+: aNode.theName.toList then .ok 20
  else if "nuc".toList <:+: aNode.theName.toList then .ok 10
  else .error (.thrown ("Invalid node (container speed): " ++ toString aNode))

/-- The simulation of a replication with the numbers drawn, a snapshot if there are no periods. -/
def analysis {B : ℕ} (aConf : Conf) (myAppPeriods : Option AppPeriods) (drawn : Drawn B) (h : 0 < B) :
    Analysis B :=
  match myAppPeriods with
  | none => .Snapshot aConf.theAlpha aConf.theBeta drawn.myNumLambda drawn.myNumMu
      ⟨fun a => drawn.myBrokerRv h a, fun a => drawn.theAppModel a⟩ drawn.rnd
  | some aPeriods => .Dynamic
      ⟨aConf.theDuration, aConf.theWarmUp, aConf.theEpoch, aConf.theAlpha, aConf.theBeta, drawn.rnd⟩
      aPeriods.thePeriods drawn.myNumApps
      ⟨fun a => drawn.myBrokerRv h a, fun a => drawn.theAppModel a⟩ (drawn.periods aPeriods)

section Prepare

variable (env : Env) (toString : Node → String) (aConf : Conf) (myNetwork : StateSim.Network)
  {M : Type → Type} [Monad M] [MonadExcept Failure M]
  (draws : ℕ → Drawn myNetwork.theClients.length) (hops : Node → Node → M ℕ)

/-- The scenario of a replication. -/
def makeScenario : M (Scenario myNetwork.theClients.length (Scenario.edgeNodes myNetwork).length 0) :=
  Scenario.create env myNetwork aConf.theCloudDistanceFactor aConf.myCloudStorageCostLocal
    aConf.myCloudStorageCostRemote (numContainers toString) (containerCapacity toString)
    aConf.theMuAlgorithm aConf.theLambdaAlgorithm hops

def describe (myAppPeriods : Option AppPeriods) (theSeed : ℕ) :
    M (Desc myNetwork.theClients.length (Scenario.edgeNodes myNetwork).length) := do
  let theScenario ← makeScenario env toString aConf myNetwork hops
  -- the constructor has checked that there is a broker
  if h : 0 < myNetwork.theClients.length then
    pure ⟨theSeed, 0, theScenario, analysis aConf myAppPeriods (draws theSeed) h⟩
  else throw .outOfRange

/-- The apps' periods, given those that cost the least. -/
def appPeriods (myCosts : List (List ℚ)) : Except Failure (Option AppPeriods) :=
  match aConf.theType with
  | .Dynamic => some <$> AppPeriods.create myCosts aConf.theMinPeriods
  | .Snapshot => .ok none

/-- The replications of a run on the network that has been loaded. -/
def prepare (myCosts : List (List ℚ)) (aStartingSeed aNumReplications : ℕ) :
    M (List (Desc myNetwork.theClients.length (Scenario.edgeNodes myNetwork).length)) :=
  match appPeriods aConf myCosts with
  | .error e => throw e
  | .ok myAppPeriods => (List.range aNumReplications).mapM fun myRun =>
    describe env toString aConf myNetwork draws hops myAppPeriods (myRun + aStartingSeed)

end Prepare

section Routes

variable {env : Env} {toString : Node → String} {aConf : Conf} {net : StateSim.Network}
  {dijkstra : Dijkstra} {steps : ℕ}

theorem mem_edgeNodes {e : Node} (h : e ∈ Scenario.edgeNodes net) : e ∈ net.theProcessing :=
  List.mem_of_mem_filter h

/-- The routes that are stored for other scenarios make no difference. -/
theorem create_alike (hnet : net.WellFormed) : Alike (Stores net dijkstra)
    (makeScenario env toString aConf net (net.hops dijkstra steps))
    (MonadExcept.ofExcept (makeScenario env toString aConf net (hopsOf net dijkstra steps)) :
      EStateM Failure (Option Node) _) := by
  rw [makeScenario, makeScenario, Scenario.create, Scenario.create]
  split
  · exact alike_throw _
  split
  · exact alike_throw _
  split
  · exact alike_throw _
  split
  · exact alike_throw _
  refine alike_answer_bind (alike_answer_mapM fun b _ => alike_answer_mapM fun e he => ?_)
    fun ds => alike_pure _
  exact StateSim.hops_alike (StateSim.node_lt hnet (hnet.processing _ (mem_edgeNodes he)))

theorem prepare_alike (env : Env) (toString : Node → String) (aConf : Conf)
    (draws : ℕ → Drawn net.theClients.length) (dijkstra : Dijkstra) (steps : ℕ) (hnet : net.WellFormed)
    (myCosts : List (List ℚ)) (aStartingSeed aNumReplications : ℕ) : Alike (Stores net dijkstra)
      (prepare env toString aConf net draws (net.hops dijkstra steps) myCosts aStartingSeed
        aNumReplications)
      (MonadExcept.ofExcept (prepare env toString aConf net draws (hopsOf net dijkstra steps) myCosts
        aStartingSeed aNumReplications) : EStateM Failure (Option Node) _) := by
  rw [prepare, prepare]
  split
  · exact alike_throw _
  refine alike_answer_mapM fun myRun _ => alike_answer_bind (create_alike hnet) fun theScenario => ?_
  split
  · exact alike_pure _
  · exact alike_throw _

/-- The hops to a node are counted if there is a path from it. -/
theorem hopsOf_ok_iff (hnet : net.WellFormed) (hfinds : Finds net dijkstra)
    (hsteps : net.theElements.length ≤ steps) {a b : Node} (ha : a ∈ net.nodes) (hb : b ∈ net.nodes) :
    (∃ n, hopsOf net dijkstra steps a b = .ok n) ↔ net.theGraph.Reachable b.theId a.theId := by
  rw [hopsOf]
  constructor
  · rintro ⟨n, hn⟩
    by_contra hnot
    rw [StateSim.wayTo_of_not_reachable hnet (hfinds.tree hnet hb) (StateSim.node_lt hnet ha) hnot] at hn
    cases hn
  · intro hreach
    obtain ⟨way, hway⟩ := StateSim.wayTo_of_reachable hnet (hfinds.tree hnet hb)
      (StateSim.node_lt hnet hb) hreach hsteps
    rw [hway]
    exact ⟨_, rfl⟩

end Routes

/-- The networks that scenarios can be made of: each edge node has a container at least, of a kind
that is known, and a path to each broker. -/
structure Usable (net : StateSim.Network) : Prop where
  brokers : net.theClients ≠ []
  edges : Scenario.edgeNodes net ≠ []
  offers : ∀ e ∈ Scenario.edgeNodes net, 10 ^ 9 / 2 ≤ e.theSpeed ∧
    ("server".toList <:+: e.theName.toList ∨ "nuc".toList <:+: e.theName.toList)
  reaches : ∀ b ∈ net.theClients, ∀ e ∈ Scenario.edgeNodes net,
    net.theGraph.Reachable e.theId b.theId

section Outcomes

variable {env : Env} {toString : Node → String} {aConf : Conf} {net : StateSim.Network}
  {hops : Node → Node → Except Failure ℕ}

theorem numContainers_ok_iff (toString : Node → String) (e : Node) :
    (∃ n, numContainers toString e = .ok n) ↔ 10 ^ 9 / 2 ≤ e.theSpeed := by
  have hzero : ⌊e.theSpeed / 10 ^ 9 + 1 / 2⌋₊ = 0 ↔ e.theSpeed < 10 ^ 9 / 2 := by
    rw [Nat.floor_eq_zero]
    constructor <;> intro h <;> linarith
  rw [numContainers]
  split
  · next hnone => exact iff_of_false (by simp) (not_le.mpr (hzero.mp hnone))
  · next hsome => exact iff_of_true ⟨_, rfl⟩ (not_lt.mp fun hlt => hsome (hzero.mpr hlt))

theorem containerCapacity_ok_iff (toString : Node → String) (e : Node) :
    (∃ n, containerCapacity toString e = .ok n) ↔
      "server".toList <:+: e.theName.toList ∨ "nuc".toList <:+: e.theName.toList := by
  delta containerCapacity
  split
  · next h => exact iff_of_true ⟨_, rfl⟩ (.inl h)
  split
  · next h => exact iff_of_true ⟨_, rfl⟩ (.inr h)
  · next hserver hnuc => exact iff_of_false (by simp) (not_or.mpr ⟨hserver, hnuc⟩)

theorem edgeOf_ok_iff {e : Node} {x : Scenario.Edge 0} :
    Scenario.edgeOf (numContainers toString) (containerCapacity toString) e = .ok x ↔
      numContainers toString e = .ok x.theNumContainers ∧
        containerCapacity toString e = .ok x.theContainerCapacity ∧ x.theMuApps = [] := by
  rw [Scenario.edgeOf, bind_ok]
  constructor
  · rintro ⟨n, hn, h⟩
    obtain ⟨k, hk, h⟩ := bind_ok.mp h
    cases h
    exact ⟨hn, hk, rfl⟩
  · rintro ⟨hn, hk, happs⟩
    refine ⟨_, hn, bind_ok.mpr ⟨_, hk, ?_⟩⟩
    rw [← happs]
    rfl

/-- The distances are those of each broker to each edge node. -/
def Measured (net : StateSim.Network) (hops : Node → Node → Except Failure ℕ)
    (myDistances : List (List ℕ)) : Prop :=
  (net.theClients.mapM fun b => (Scenario.edgeNodes net).mapM (hops b)) = .ok myDistances

theorem create_ok_iff {sc : Scenario net.theClients.length (Scenario.edgeNodes net).length 0} :
    makeScenario env toString aConf net hops = .ok sc ↔
      0 < aConf.theCloudDistanceFactor ∧ net.theClients ≠ [] ∧ ∃ myEdges myDistances,
        (Scenario.edgeNodes net).mapM
          (Scenario.edgeOf (numContainers toString) (containerCapacity toString)) = .ok myEdges ∧
        myEdges ≠ [] ∧ Measured net hops myDistances ∧
        sc = Scenario.assemble net aConf.theCloudDistanceFactor aConf.myCloudStorageCostLocal
          aConf.myCloudStorageCostRemote aConf.theMuAlgorithm aConf.theLambdaAlgorithm myEdges
          myDistances := by
  rw [makeScenario, Scenario.create]
  constructor
  · intro h
    split at h
    · cases h
    split at h
    · cases h
    split at h
    · cases h
    split at h
    · cases h
    next hfactor hclients _ myEdges hedges hnone =>
      obtain ⟨myDistances, hdistances, h⟩ := bind_ok.mp h
      cases h
      exact ⟨not_le.mp hfactor, hclients, myEdges, myDistances, hedges, hnone, hdistances, rfl⟩
  · rintro ⟨hfactor, hclients, myEdges, myDistances, hedges, hnone, hdistances, rfl⟩
    rw [if_neg (not_le.mpr hfactor), if_neg hclients, hedges]
    dsimp only
    rw [if_neg hnone]
    exact bind_ok.mpr ⟨myDistances, hdistances, rfl⟩

/-- Whether the scenario can be made, where distances are found along paths. -/
theorem exists_create_iff (env : Env) (toString : Node → String)
    (hhops : ∀ b ∈ net.theClients, ∀ e ∈ Scenario.edgeNodes net,
      (∃ n, hops b e = .ok n) ↔ net.theGraph.Reachable e.theId b.theId) :
    (∃ sc, makeScenario env toString aConf net hops = .ok sc) ↔
      0 < aConf.theCloudDistanceFactor ∧ Usable net := by
  have hedges : (∃ myEdges, (Scenario.edgeNodes net).mapM
      (Scenario.edgeOf (numContainers toString) (containerCapacity toString)) = .ok myEdges) ↔
        ∀ e ∈ Scenario.edgeNodes net, 10 ^ 9 / 2 ≤ e.theSpeed ∧
          ("server".toList <:+: e.theName.toList ∨ "nuc".toList <:+: e.theName.toList) := by
    rw [exists_mapM_ok_iff]
    refine forall₂_congr fun e _ => ?_
    rw [← numContainers_ok_iff toString, ← containerCapacity_ok_iff toString]
    constructor
    · rintro ⟨x, hx⟩
      obtain ⟨hn, hk, -⟩ := edgeOf_ok_iff.mp hx
      exact ⟨⟨_, hn⟩, _, hk⟩
    · rintro ⟨⟨n, hn⟩, k, hk⟩
      exact ⟨⟨n, k, []⟩, edgeOf_ok_iff.mpr ⟨hn, hk, rfl⟩⟩
  have hdistances : (∃ myDistances, Measured net hops myDistances) ↔
      ∀ b ∈ net.theClients, ∀ e ∈ Scenario.edgeNodes net,
        net.theGraph.Reachable e.theId b.theId := by
    unfold Measured
    rw [exists_mapM_ok_iff]
    refine forall₂_congr fun b hb => ?_
    rw [exists_mapM_ok_iff]
    exact forall₂_congr (hhops b hb)
  constructor
  · rintro ⟨sc, hsc⟩
    obtain ⟨hfactor, hclients, myEdges, myDistances, hok, hnone, hmeasured, -⟩ := create_ok_iff.mp hsc
    refine ⟨hfactor, hclients, ?_, hedges.mp ⟨_, hok⟩, hdistances.mp ⟨_, hmeasured⟩⟩
    rintro hnil
    rw [hnil] at hok
    cases hok
    exact hnone rfl
  · rintro ⟨hfactor, husable⟩
    obtain ⟨myEdges, hok⟩ := hedges.mpr husable.offers
    obtain ⟨myDistances, hmeasured⟩ := hdistances.mpr husable.reaches
    refine ⟨_, create_ok_iff.mpr
      ⟨hfactor, husable.brokers, myEdges, myDistances, hok, ?_, hmeasured, rfl⟩⟩
    rintro rfl
    have hlength := (mapM_ok_iff.mp hok).length_eq
    exact husable.edges (List.length_eq_zero_iff.mp hlength)

/-- The scenario has what the edge nodes offer, and costs the hops between brokers and edge nodes;
the cloud is as far from each broker as the farthest two are from each other, times the factor. -/
structure Priced (toString : Node → String) (aConf : Conf) (net : StateSim.Network)
    (hops : Node → Node → Except Failure ℕ) {A : ℕ}
    (sc : Scenario net.theClients.length (Scenario.edgeNodes net).length A) : Prop where
  containers : ∀ e, numContainers toString ((Scenario.edgeNodes net).get e) =
    .ok (sc.theEdges e.succ).theNumContainers
  capacity : ∀ e, containerCapacity toString ((Scenario.edgeNodes net).get e) =
    .ok (sc.theEdges e.succ).theContainerCapacity
  distance : ∀ b e, ∃ n : ℕ, hops (net.theClients.get b) ((Scenario.edgeNodes net).get e) = .ok n ∧
    sc.networkCost b e.succ = n
  farthest : ∀ b b' (e : Fin (Scenario.edgeNodes net).length),
    aConf.theCloudDistanceFactor * sc.networkCost b' e.succ ≤ sc.networkCost b Scenario.CLOUD
  attained : ∀ b, ∃ b', ∃ e : Fin (Scenario.edgeNodes net).length,
    sc.networkCost b Scenario.CLOUD = aConf.theCloudDistanceFactor * sc.networkCost b' e.succ

/-- The distance between a broker and an edge node, where they are found. -/
theorem Measured.entry {myDistances : List (List ℕ)} (h : Measured net hops myDistances)
    (b : Fin net.theClients.length) (e : Fin (Scenario.edgeNodes net).length) :
    ∃ n, hops (net.theClients.get b) ((Scenario.edgeNodes net).get e) = .ok n ∧
      ((myDistances[b.val]?).bind fun row => row[e.val]?) = some n ∧ n ∈ myDistances.flatten := by
  have hrows := mapM_ok_iff.mp h
  have hb : b.val < myDistances.length := hrows.length_eq ▸ b.isLt
  have hrow := mapM_ok_iff.mp (hrows.get b.isLt hb)
  have he : e.val < (myDistances.get ⟨b, hb⟩).length := hrow.length_eq ▸ e.isLt
  refine ⟨(myDistances.get ⟨b, hb⟩).get ⟨e, he⟩, hrow.get e.isLt he, ?_, ?_⟩
  · rw [List.getElem?_eq_getElem hb, Option.bind_some]
    exact List.getElem?_eq_getElem he
  · exact List.mem_flatten.mpr ⟨_, List.get_mem _ _, List.get_mem _ _⟩

theorem Measured.exists_entry {myDistances : List (List ℕ)} (h : Measured net hops myDistances) {n : ℕ}
    (hn : n ∈ myDistances.flatten) : ∃ b e, hops (net.theClients.get b)
      ((Scenario.edgeNodes net).get e) = .ok n := by
  obtain ⟨row, hrow, hn⟩ := List.mem_flatten.mp hn
  obtain ⟨b, hb, hdistances⟩ := mem_of_mapM_ok h hrow
  obtain ⟨e, he, hhops⟩ := mem_of_mapM_ok hdistances hn
  obtain ⟨i, rfl⟩ := List.get_of_mem hb
  obtain ⟨j, rfl⟩ := List.get_of_mem he
  exact ⟨i, j, hhops⟩

theorem priced_of_create {sc : Scenario net.theClients.length (Scenario.edgeNodes net).length 0}
    (h : makeScenario env toString aConf net hops = .ok sc) :
    Priced toString aConf net hops sc := by
  obtain ⟨hfactor, hclients, myEdges, myDistances, hedges, hnone, hmeasured, rfl⟩ := create_ok_iff.mp h
  have hoffers := mapM_ok_iff.mp hedges
  have hedge : ∀ e : Fin (Scenario.edgeNodes net).length, ∃ x, myEdges[e.val]? = some x ∧
      Scenario.edgeOf (numContainers toString) (containerCapacity toString)
        ((Scenario.edgeNodes net).get e) = .ok x := by
    intro e
    have he : e.val < myEdges.length := hoffers.length_eq ▸ e.isLt
    exact ⟨_, List.getElem?_eq_getElem he, hoffers.get e.isLt he⟩
  have hcost : ∀ b e, ∃ n : ℕ, hops (net.theClients.get b) ((Scenario.edgeNodes net).get e) = .ok n ∧
      n ∈ myDistances.flatten ∧ (Scenario.assemble net aConf.theCloudDistanceFactor
        aConf.myCloudStorageCostLocal aConf.myCloudStorageCostRemote aConf.theMuAlgorithm
        aConf.theLambdaAlgorithm myEdges myDistances).networkCost b e.succ = n := by
    intro b e
    obtain ⟨n, hn, hentry, hmem⟩ := hmeasured.entry b e
    refine ⟨n, hn, hmem, ?_⟩
    simp only [Scenario.assemble, Fin.cases_succ, hentry, Option.getD_some]
  -- there is a pair of nodes, and so a greatest distance
  obtain ⟨e, he⟩ := List.exists_mem_of_ne_nil _ hnone
  obtain ⟨myEdge, hmyEdge, -⟩ := mem_of_mapM_ok hedges he
  obtain ⟨j, -⟩ := List.get_of_mem hmyEdge
  obtain ⟨n, -, -, hn⟩ := hmeasured.entry ⟨0, List.length_pos_of_ne_nil hclients⟩ j
  obtain ⟨myMax, hmax⟩ : ∃ myMax, myDistances.flatten.max? = some myMax := by
    cases hmax : myDistances.flatten.max? with
    | none =>
      rw [List.max?_eq_none_iff.mp hmax] at hn
      cases hn
    | some myMax => exact ⟨myMax, rfl⟩
  obtain ⟨hmem, hle⟩ := List.max?_eq_some_iff.mp hmax
  have hcloud : ∀ b, (Scenario.assemble net aConf.theCloudDistanceFactor aConf.myCloudStorageCostLocal
      aConf.myCloudStorageCostRemote aConf.theMuAlgorithm aConf.theLambdaAlgorithm myEdges
      myDistances).networkCost b Scenario.CLOUD = aConf.theCloudDistanceFactor * myMax := by
    intro b
    simp only [Scenario.assemble, Scenario.CLOUD, Fin.cases_zero, hmax, Option.getD_some]
  refine ⟨fun e => ?_, fun e => ?_, fun b e => ?_, fun b b' e => ?_, fun b => ?_⟩
  · obtain ⟨x, hx, hok⟩ := hedge e
    simp only [Scenario.assemble, Fin.cases_succ, hx, Option.getD_some]
    exact (edgeOf_ok_iff.mp hok).1
  · obtain ⟨x, hx, hok⟩ := hedge e
    simp only [Scenario.assemble, Fin.cases_succ, hx, Option.getD_some]
    exact (edgeOf_ok_iff.mp hok).2.1
  · obtain ⟨n, hn, -, hcosts⟩ := hcost b e
    exact ⟨n, hn, hcosts⟩
  · obtain ⟨n, -, hin, hcosts⟩ := hcost b' e
    rw [hcloud, hcosts]
    exact mul_le_mul_of_nonneg_left (Nat.cast_le.mpr (hle n hin)) hfactor.le
  · obtain ⟨b', e, hfound⟩ := hmeasured.exists_entry hmem
    obtain ⟨n, hn, -, hcosts⟩ := hcost b' e
    rw [hfound] at hn
    cases hn
    exact ⟨b', e, by rw [hcloud, hcosts]⟩

end Outcomes

/-- The arguments that the analysis of a configuration takes, where that many apps are drawn. -/
def Conf.Valid (aConf : Conf) (myNumApps : ℕ) : Prop :=
  (0 ≤ aConf.theAlpha ∧ aConf.theAlpha ≤ 1 ∧ 0 ≤ aConf.theBeta ∧ aConf.theBeta ≤ 1) ∧
    (aConf.theType = .Dynamic → 0 ≤ aConf.theDuration ∧ 0 ≤ aConf.theWarmUp ∧ myNumApps ≠ 0)

section Performances

variable {env : Env} {B E A' A : ℕ} {s : Scenario B E A'}

/-- The analysis of a snapshot throws no exception if and only if the arguments are valid. -/
theorem perform_snapshot_iff (henv : env.AssignsAll) (theSeed : ℕ) {aAlpha aBeta : ℚ}
    {myNumLambda myNumMu : ℕ} {apps : Scenario.Population B (myNumLambda + myNumMu)}
    {rnd : ℕ → ℕ → ℚ} :
    (∀ n what, perform env n ⟨theSeed, A', s, .Snapshot aAlpha aBeta myNumLambda myNumMu apps rnd⟩ ≠
      some (.error what)) ↔ 0 ≤ aAlpha ∧ aAlpha ≤ 1 ∧ 0 ≤ aBeta ∧ aBeta ≤ 1 := by
  have hcheckArgs : Scenario.checkArgs env aAlpha aBeta = .ok () ↔ _ := Scenario.checkArgs_ok_iff
  rw [← hcheckArgs]
  have hperform : ∀ n, perform env n
      ⟨theSeed, A', s, .Snapshot aAlpha aBeta myNumLambda myNumMu apps rnd⟩ =
        some ((s.snapshot env aAlpha aBeta myNumLambda myNumMu apps rnd).map Prod.fst) := fun _ => rfl
  constructor
  · intro h
    cases hcheck : Scenario.checkArgs env aAlpha aBeta with
    | ok u => rfl
    | error what =>
      refine absurd ?_ (h 0 what)
      rw [hperform, Scenario.snapshot, hcheck]
      rfl
  · intro hargs n what h
    obtain ⟨-, data, -, s', -, -, hok, -⟩ := Scenario.snapshot_ok henv s aAlpha aBeta apps rnd hargs
    rw [hperform, hok] at h
    cases h

theorem start_ok_iff (env : Env) (s : Scenario B E A') {args : DynamicArgs} {aPeriods : List (List ℚ)}
    (apps : Scenario.Population B A) (draws : Draws aPeriods A) :
    (∃ d, Dynamic.start env s args aPeriods apps draws = .ok d) ↔
      (0 ≤ args.aAlpha ∧ args.aAlpha ≤ 1 ∧ 0 ≤ args.aBeta ∧ args.aBeta ≤ 1) ∧
        0 ≤ args.aDuration ∧ 0 ≤ args.aWarmUp ∧ A ≠ 0 := by
  constructor
  · rintro ⟨d, hd⟩
    obtain ⟨hargs, hduration, hwarmUp, -⟩ := Dynamic.start_spec hd
    refine ⟨Scenario.checkArgs_ok_iff.mp hargs, hduration, hwarmUp, ?_⟩
    rintro rfl
    exact d.myAppPool.front.theAppId.elim0
  · rintro ⟨hargs, hduration, hwarmUp, hA⟩
    exact ⟨_, Dynamic.start_initial s apps draws hargs hduration hwarmUp hA⟩

/-- A simulation throws no exception, however many iterations it has, if and only if the arguments
are valid and there are apps. -/
theorem perform_dynamic_iff (henv : env.AssignsAll) (theSeed : ℕ) {args : DynamicArgs}
    {aPeriods : List (List ℚ)} {apps : Scenario.Population B A} {draws : Draws aPeriods A} :
    (∀ n what, perform env n ⟨theSeed, A', s, .Dynamic args aPeriods A apps draws⟩ ≠
      some (.error what)) ↔
      (0 ≤ args.aAlpha ∧ args.aAlpha ≤ 1 ∧ 0 ≤ args.aBeta ∧ args.aBeta ≤ 1) ∧
        0 ≤ args.aDuration ∧ 0 ≤ args.aWarmUp ∧ A ≠ 0 := by
  rw [← start_ok_iff env s apps draws]
  cases hstart : Dynamic.start env s args aPeriods apps draws with
  | error what =>
    refine iff_of_false (fun h => h 0 what ?_) (by simp)
    rw [perform]
    simp only [hstart]
  | ok d =>
    refine iff_of_true (fun n what h => ?_) ⟨d, rfl⟩
    obtain ⟨⟨-, halpha, -, -⟩, -⟩ := Dynamic.start_ok hstart
    obtain ⟨d', hok, -⟩ := Dynamic.after_through henv halpha (I := fun _ => True)
      (fun _ _ _ _ _ _ => trivial) n (Dynamic.start_sound hstart) trivial (Dynamic.through_true n d)
    rw [perform] at h
    simp only [hstart, hok] at h
    split at h <;> cases h

end Performances

section Prepared

variable {env : Env} {toString : Node → String} {aConf : Conf} {net : StateSim.Network}
  {hops : Node → Node → Except Failure ℕ} {draws : ℕ → Drawn net.theClients.length}
  {myAppPeriods : Option AppPeriods} {theSeed : ℕ}
  {d : Desc net.theClients.length (Scenario.edgeNodes net).length}

theorem describe_ok_iff :
    describe env toString aConf net draws hops myAppPeriods theSeed = .ok d ↔
      ∃ sc, makeScenario env toString aConf net hops = .ok sc ∧
        ∃ h : 0 < net.theClients.length,
          d = ⟨theSeed, 0, sc, analysis aConf myAppPeriods (draws theSeed) h⟩ := by
  rw [describe, bind_ok]
  refine exists_congr fun sc => and_congr_right fun hsc => ?_
  have hpos := List.length_pos_of_ne_nil (create_ok_iff.mp hsc).2.1
  rw [dif_pos hpos]
  constructor
  · intro h
    cases h
    exact ⟨hpos, rfl⟩
  · rintro ⟨h, rfl⟩
    rfl

theorem exists_describe_iff :
    (∃ d, describe env toString aConf net draws hops myAppPeriods theSeed = .ok d) ↔
      ∃ sc, makeScenario env toString aConf net hops = .ok sc := by
  constructor
  · rintro ⟨d, hd⟩
    obtain ⟨sc, hsc, -⟩ := describe_ok_iff.mp hd
    exact ⟨sc, hsc⟩
  · rintro ⟨sc, hsc⟩
    have hpos := List.length_pos_of_ne_nil (create_ok_iff.mp hsc).2.1
    exact ⟨_, describe_ok_iff.mpr ⟨sc, hsc, hpos, rfl⟩⟩

theorem appPeriods_ok_iff {myCosts : List (List ℚ)} :
    (∃ ps, appPeriods aConf myCosts = .ok ps) ↔
      (aConf.theType = .Dynamic → 0 < aConf.theMinPeriods ∧
        ∃ p ∈ myCosts, aConf.theMinPeriods ≤ (trim p).length) := by
  rw [appPeriods]
  cases aConf.theType with
  | Snapshot => exact iff_of_true ⟨none, rfl⟩ fun h => absurd h (by decide)
  | Dynamic =>
    have hnil : enough myCosts aConf.theMinPeriods ≠ [] ↔
        ∃ p ∈ myCosts, aConf.theMinPeriods ≤ (trim p).length := by
      constructor
      · intro h
        obtain ⟨p, hp⟩ := List.exists_mem_of_ne_nil _ h
        obtain ⟨⟨q, hq, rfl⟩, hlength⟩ := mem_enough.mp hp
        exact ⟨q, hq, hlength⟩
      · rintro ⟨q, hq, hlength⟩
        exact List.ne_nil_of_mem (mem_enough.mpr ⟨⟨q, hq, rfl⟩, hlength⟩)
    simp only [map_ok, true_imp_iff]
    rw [← hnil, Nat.pos_iff_ne_zero, AppPeriods.create]
    by_cases hmin : aConf.theMinPeriods = 0
    · rw [dif_pos hmin]
      exact iff_of_false (by simp) fun h => h.1 hmin
    · rw [dif_neg hmin]
      by_cases hnone : enough myCosts aConf.theMinPeriods = []
      · rw [dif_pos hnone]
        exact iff_of_false (by simp) fun h => h.2 hnone
      · rw [dif_neg hnone]
        exact iff_of_true ⟨_, _, rfl, rfl⟩ ⟨hmin, hnone⟩

/-- A replication throws no exception if and only if the arguments are valid. -/
theorem perform_analysis_iff (henv : env.AssignsAll) {myCosts : List (List ℚ)}
    (hperiods : appPeriods aConf myCosts = .ok myAppPeriods) {h : 0 < net.theClients.length}
    {sc : Scenario net.theClients.length (Scenario.edgeNodes net).length 0} :
    (∀ n what, perform env n ⟨theSeed, 0, sc, analysis aConf myAppPeriods (draws theSeed) h⟩ ≠
      some (.error what)) ↔ aConf.Valid (draws theSeed).myNumApps := by
  rw [appPeriods] at hperiods
  rw [Conf.Valid]
  cases htype : aConf.theType with
  | Snapshot =>
    rw [htype] at hperiods
    cases hperiods
    rw [analysis, perform_snapshot_iff henv]
    exact (and_iff_left fun hdynamic => absurd hdynamic (by decide)).symm
  | Dynamic =>
    rw [htype] at hperiods
    obtain ⟨aPeriods, -, rfl⟩ := map_ok.mp hperiods
    rw [analysis, perform_dynamic_iff henv]
    simp only [true_imp_iff]

end Prepared

section Samples
open StateSim (fromSets joinedPaths plainEnv)

private def broker : Node := ⟨"rpi", 0, .Processing, 10 ^ 9, 1, .Cpu, true, by decide, by decide⟩

private def server : Node := ⟨"server", 1, .Processing, 10 ^ 9, 1, .Cpu, false, by decide, by decide⟩

/-- A broker and a server with edges between them. -/
theorem broker_and_server : ∃ net, fromSets [broker, server] [] [("rpi", ["server"]),
    ("server", ["rpi"])] ["rpi"] = .ok net ∧ net.theClients = [broker] ∧
      net.theProcessing = [broker, server] ∧ net.theGraph = ⟨2, [(0, 1, 0), (1, 0, 0)]⟩ := by
  obtain ⟨net, hnet, hparts⟩ := ok_of_toOption
    (m := fromSets [broker, server] [] [("rpi", ["server"]), ("server", ["rpi"])] ["rpi"])
    (f := fun net => ((net.theClients, net.theProcessing), net.theGraph.vertices, net.theGraph.edges))
    (b := (([broker], [broker, server]), 2, [(0, 1, 0), (1, 0, 0)])) (by decide +kernel)
  simp only [Prod.mk.injEq] at hparts
  obtain ⟨⟨hclients, hprocessing⟩, hvertices, hedges⟩ := hparts
  refine ⟨net, hnet, hclients, hprocessing, ?_⟩
  rw [← hvertices, ← hedges]

/-- Two snapshots of a lambda app and a mu app. -/
private def snapshots : Conf :=
  ⟨.Snapshot, 2, 0, 0, 0, 0, 0, 0, 1 / 2, 1, .Greedy, .Greedy⟩

end Samples

end Simulation

end ServerlessEdge.LambdaMuSim
