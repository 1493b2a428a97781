import Std.Data.ExtTreeMap
import ServerlessEdge.Library.Checks
import ServerlessEdge.Library.Parents
import ServerlessEdge.StateSim.Job

/-! The network of the simulator of stateful tasks: its elements, the graph of them, and the
routes, which are computed when they are first needed. -/
namespace ServerlessEdge.StateSim
open Std (ExtTreeMap)

inductive Affinity where
  | NotAvailable | Cpu | Gpu
  deriving DecidableEq

inductive NodeType where
  | Networking | Processing
  deriving DecidableEq

inductive LinkType where
  | Node | Shared | Downlink | Uplink
  deriving DecidableEq

inductive Device where
  | Link | Node
  deriving DecidableEq

/-- A node, whose name is not empty and which has a speed if it processes tasks. -/
structure Node where
  theName : String
  theId : ℕ
  theType : NodeType
  theSpeed : ℚ
  theMemory : ℕ
  theAffinity : Affinity
  theClient : Bool
  name_ne : theName ≠ ""
  speed_pos : theType = .Processing → 0 < theSpeed
  deriving DecidableEq

/-- A link, whose name is not empty and which has a capacity. -/
structure Link where
  theType : LinkType
  theName : String
  theId : ℕ
  theCapacity : ℚ
  name_ne : theName ≠ ""
  capacity_pos : 0 < theCapacity
  deriving DecidableEq

inductive Element where
  | node (myNode : Node)
  | link (myLink : Link)
  deriving DecidableEq

namespace Element

def id : Element → ℕ
  | .node myNode => myNode.theId
  | .link myLink => myLink.theId

def name : Element → String
  | .node myNode => myNode.theName
  | .link myLink => myLink.theName

def device : Element → Device
  | .node _ => .Node
  | .link _ => .Link

/-- The transmission time to traverse the element. -/
def txTime (aBytes : ℕ) : Element → ℚ
  | .node _ => 0
  | .link myLink => aBytes * 8 / myLink.theCapacity

end Element

def emptyName (aId : ℕ) : Failure :=
  .thrown ("Invalid empty name for an element: " ++ toString aId)

/-- A networking node. -/
def Node.networking (aName : String) (aId : ℕ) : Except Failure Node :=
  if h : aName = "" then .error (emptyName aId)
  else .ok ⟨aName, aId, .Networking, 0, 0, .NotAvailable, false, h, fun h => nomatch h⟩

/-- A processing node. -/
def Node.processing (env : Env) (aName : String) (aId : ℕ) (aSpeed : ℚ) (aMemory : ℕ)
    (aAffinity : Affinity) (aClient : Bool) : Except Failure Node :=
  if h : aName = "" then .error (emptyName aId)
  else if hspeed : aSpeed ≤ 0 then
    .error (.thrown ("Invalid speed (" ++ env.to_string aSpeed ++ ") for Node name: " ++ aName))
  else .ok ⟨aName, aId, .Processing, aSpeed, aMemory, aAffinity, aClient, h,
    fun _ => not_le.mp hspeed⟩

def myAffinitiesClients : List (String × Affinity × Bool) :=
  [("server", .Cpu, false), ("rpi3b+", .Cpu, true), ("nuci5", .Cpu, false),
    ("nvidia_jetson_tx2", .Gpu, true)]

/-- A node from a line of the file, with the counter of identifiers. -/
def Node.make (env : Env) (aString : Text) (aCounter : ℕ) : Except Failure (Node × ℕ) :=
  match env.split aString [';'] with
  | [_, name, memory, speed, _, _, type] =>
    match myAffinitiesClients.lookup (String.ofList type) with
    | none => .error (.thrown ("Invalid node type: " ++ String.ofList aString))
    | some (myAffinity, myClient) => do
      let mySpeed ← (env.stof speed).mapError .thrown
      let myMemory ← (stoull memory).mapError .thrown
      let myNode ← Node.processing env (String.ofList name) aCounter (mySpeed * 10 ^ 6) myMemory
        myAffinity myClient
      pure (myNode, aCounter + 1)
  | _ => .error (.thrown ("Invalid node: " ++ String.ofList aString))

def Link.create (env : Env) (aType : LinkType) (aName : String) (aId : ℕ) (aCapacity : ℚ) :
    Except Failure Link :=
  if h : aName = "" then .error (emptyName aId)
  else if hcapacity : aCapacity ≤ 0 then
    .error (.thrown ("Invalid capacity (" ++ env.to_string aCapacity ++ ") for Link name: " ++ aName))
  else .ok ⟨aType, aName, aId, aCapacity, h, not_le.mp hcapacity⟩

def linkTypes : List (String × LinkType) :=
  [("node", .Node), ("shared", .Shared), ("downlink", .Downlink), ("uplink", .Uplink)]

/-- A link from a line of the file, with the counter of identifiers. -/
def Link.make (env : Env) (aString : Text) (aCounter : ℕ) : Except Failure (Link × ℕ) :=
  match env.split aString [';'] with
  | [_, capacity, name, type] =>
    match linkTypes.lookup (String.ofList type) with
    | none => .error (.thrown ("Invalid type in Link: " ++ String.ofList aString))
    | some myType => do
      let myCapacity ← (env.stof capacity).mapError .thrown
      let myLink ← Link.create env myType (String.ofList name) aCounter (10 ^ 6 * myCapacity)
      pure (myLink, aCounter + 1)
  | _ => .error (.thrown ("Invalid Link: " ++ String.ofList aString))

/-- A list of names, with at least one edge. -/
def makeNodeList (env : Env) (aString : Text) (aCounter : ℕ) :
    Except Failure ((String × List String) × ℕ) :=
  match (env.split aString [' ']).map String.ofList with
  | source :: target :: rest => .ok ((source, target :: rest), aCounter)
  | _ => .error (.thrown ("Invalid edge: " ++ String.ofList aString))

/-- The lines of a file, without those that are empty or comments. -/
def loadFile {T : Type} (make : Text → ℕ → Except Failure (T × ℕ)) (aPath : String)
    (aFile : Option Text) (aCounter : ℕ) : Except Failure (List T × ℕ) :=
  match aFile with
  | none => .error (.thrown ("Cannot open file for reading: " ++ aPath))
  | some myFile =>
    ((myFile.splitOn '\n').filter fun myLine => myLine ≠ [] ∧ myLine.head? ≠ some '#').foldlM
      (fun ret myLine => do
        let made ← make myLine ret.2
        pure (ret.1 ++ [made.1], made.2)) ([], aCounter)

/-- A directed graph, with the weights of the edges. -/
structure Graph where
  vertices : ℕ
  edges : List (ℕ × ℕ × ℚ)

structure Network where
  theNodes : ExtTreeMap String Node
  theLinks : ExtTreeMap String Link
  theElements : List Element
  theClients : List Node
  theProcessing : List Node
  theGraph : Graph

namespace Network

section Create

variable (theNodes : ExtTreeMap String Node) (theLinks : ExtTreeMap String Link)

def id (aName : String) : Except Failure ℕ :=
  match theNodes[aName]?, theLinks[aName]? with
  | some myNode, _ => .ok myNode.theId
  | none, some myLink => .ok myLink.theId
  | none, none => .error (.thrown ("Unknown node with name: " ++ aName))

def capacity (aName : String) : Except Failure ℚ :=
  match theNodes[aName]?, theLinks[aName]? with
  | some _, _ => .ok 0
  | none, some myLink => .ok myLink.theCapacity
  | none, none => .error (.thrown ("Unknown node with name: " ++ aName))

/-- The half reciprocal of the capacity of a link. -/
def latency (aCapacity : ℚ) : ℚ := if 0 < aCapacity then 2 / aCapacity else 0

/-- The edges from an element to some others. -/
def edgesFrom (mySource : String) (myTargets : List String) : Except Failure (List (ℕ × ℕ × ℚ)) := do
  let mySourceId ← id theNodes theLinks mySource
  let mySourceCapacity ← capacity theNodes theLinks mySource
  myTargets.mapM fun myTarget => do
    let myTargetId ← id theNodes theLinks myTarget
    let myTargetCapacity ← capacity theNodes theLinks myTarget
    pure (mySourceId, myTargetId, latency mySourceCapacity + latency myTargetCapacity)

def elementsOf : List Element :=
  theNodes.toList.map (fun elem => Element.node elem.2) ++
    theLinks.toList.map fun elem => Element.link elem.2

/-- The pointer to an element is stored at its identifier. -/
def setElement (theElements : List (Option Element)) (myElement : Element) :
    Except Failure (List (Option Element)) :=
  if myElement.id < theElements.length then .ok (theElements.set myElement.id (some myElement))
  else .error .outOfRange

/-- The elements by their identifiers, if no pointer is missing. -/
def indexElements : Except Failure (List Element) := do
  let n := theNodes.size + theLinks.size
  let theElements ← (elementsOf theNodes theLinks).foldlM setElement (List.replicate n none)
  theElements.mapM fun elem => match elem with
    | some myElement => .ok myElement
    | none => .error .outOfRange

def initElementsGraph (theClients theProcessing : List Node) (aEdges : List (ℕ × ℕ × ℚ)) :
    Except Failure Network := do
  let theElements ← indexElements theNodes theLinks
  pure ⟨theNodes, theLinks, theElements, theClients, theProcessing,
    ⟨theNodes.size + theLinks.size, aEdges⟩⟩

end Create

end Network

/-- A node that is not a processing one is added, unless it is known. -/
def addNetworking (theLinks : ExtTreeMap String Link) (s : ExtTreeMap String Node × ℕ)
    (myName : String) : Except Failure (ExtTreeMap String Node × ℕ) :=
  if myName ∈ s.1 ∨ myName ∈ theLinks then pure s
  else do
    let myNode ← Node.networking myName s.2
    pure (s.1.insertIfNew myName myNode, s.2 + 1)

/-- A network from the files of nodes, links and edges. -/
def fromFiles (env : Env) (aNodesPath aLinksPath aEdgesPath : String)
    (aNodes aLinks aEdges : Option Text) : Except Failure Network := do
  let (myNodes, myCounter) ← loadFile (Node.make env) aNodesPath aNodes 0
  let (myLinks, myCounter) ← loadFile (Link.make env) aLinksPath aLinks myCounter
  let (myNodeLists, _) ← loadFile (makeNodeList env) aEdgesPath aEdges 0
  let processing := myNodes.foldl (fun m n => m.insertIfNew n.theName n) (∅ : ExtTreeMap String Node)
  let theLinks := myLinks.foldl (fun m l => m.insertIfNew l.theName l) (∅ : ExtTreeMap String Link)
  let theProcessing := processing.toList.map Prod.snd
  let (theNodes, _) ← (myNodeLists.flatMap fun myNodeList => myNodeList.1 :: myNodeList.2).foldlM
    (addNetworking theLinks) (processing, myCounter)
  let myEdges ← myNodeLists.mapM fun myNodeList =>
    Network.edgesFrom theNodes theLinks myNodeList.1 myNodeList.2
  Network.initElementsGraph theNodes theLinks (theProcessing.filter Node.theClient) theProcessing
    myEdges.flatten

/-- The variables of the loop over the nodes. -/
structure Filling where
  theNodes : ExtTreeMap String Node
  myIds : List ℕ
  theClients : List Node
  theProcessing : List Node

def addNode (aClients : List String) (s : Filling) (myNode : Node) : Except Failure Filling :=
  if myNode.theName ∈ s.theNodes then
    .error (.thrown ("Duplicated node name: " ++ myNode.theName))
  else if myNode.theId ∈ s.myIds then
    .error (.thrown ("Duplicated identifier: " ++ toString myNode.theId))
  else
    .ok ⟨s.theNodes.insertIfNew myNode.theName myNode, myNode.theId :: s.myIds,
      if myNode.theName ∈ aClients then s.theClients ++ [myNode] else s.theClients,
      if myNode.theType = .Processing then s.theProcessing ++ [myNode] else s.theProcessing⟩

def addLink (s : ExtTreeMap String Link × List ℕ) (myLink : Link) :
    Except Failure (ExtTreeMap String Link × List ℕ) :=
  if myLink.theName ∈ s.1 then
    .error (.thrown ("Duplicated link name: " ++ myLink.theName))
  else if myLink.theId ∈ s.2 then
    .error (.thrown ("Duplicated identifier: " ++ toString myLink.theId))
  else .ok (s.1.insertIfNew myLink.theName myLink, myLink.theId :: s.2)

/-- A network from nodes, links and edges, and the names of the clients. -/
def fromSets (aNodes : List Node) (aLinks : List Link) (aEdges : List (String × List String))
    (aClients : List String) : Except Failure Network := do
  let s ← aNodes.foldlM (addNode aClients) ⟨∅, [], [], []⟩
  let (theLinks, _) ← aLinks.foldlM addLink (∅, s.myIds)
  if s.theClients.length ≠ aClients.length then
    .error (.thrown ("Invalid clients passed: " ++ String.join
      ((aClients.filter fun myClient => myClient ∉ s.theClients.map Node.theName).map (" " ++ ·))))
  else do
    let myEdges ← aEdges.mapM fun elem => Network.edgesFrom s.theNodes theLinks elem.1 elem.2
    Network.initElementsGraph s.theNodes theLinks s.theClients s.theProcessing myEdges.flatten

/-- The network is accepted by one of the constructors. -/
inductive Accepted (env : Env) (net : Network) : Prop
  | files {aNodesPath aLinksPath aEdgesPath : String} {aNodes aLinks aEdges : Option Text} :
    fromFiles env aNodesPath aLinksPath aEdgesPath aNodes aLinks aEdges = .ok net → Accepted env net
  | sets {aNodes : List Node} {aLinks : List Link} {aEdges : List (String × List String)}
      {aClients : List String} : fromSets aNodes aLinks aEdges aClients = .ok net → Accepted env net

/-- Distances and next hops of all elements towards one. -/
abbrev PredVec := List (ℚ × ℕ)

structure CloudParams where
  theCloudLatency : ℚ
  theCloudRate : ℚ

/-- What a network finds out or is told later: the routes towards elements, the central node
and the characteristics of the cloud. -/
structure Routing where
  theCache : List (Option PredVec)
  theCentral : Option Node
  theCloudParams : Option CloudParams

/-- The shortest paths from a vertex, as the graph library finds them. -/
abbrev Dijkstra := Graph → ℕ → PredVec

namespace Network
open Library

variable (net : Network) (dijkstra : Dijkstra)

def nodes : List Node := net.theNodes.toList.map Prod.snd

/-- No routes are known at first. -/
def start : Routing := ⟨List.replicate net.theElements.length none, none, none⟩

def cloud (env : Env) (aLatency aRate : ℚ) : EStateM Failure Routing Unit :=
  if aLatency < 0 then
    throw (.thrown ("the cloud latency (" ++ env.to_string aLatency ++ ") cannot be negative"))
  else if aRate ≤ 0 then
    throw (.thrown ("the cloud rate (" ++ env.to_string aRate ++ ") cannot be non-positive"))
  else modify fun s => { s with theCloudParams := some ⟨aLatency, aRate⟩ }

def cacheEntry (aDstId : ℕ) : EStateM Failure Routing PredVec := do
  let s ← get
  match s.theCache[aDstId]? with
  | none => throw .outOfRange
  | some (some myCacheEntry) => pure myCacheEntry
  | some none =>
    let myCacheEntry := dijkstra net.theGraph aDstId
    set { s with theCache := s.theCache.set aDstId (some myCacheEntry) }
    pure myCacheEntry

/-- The next hop of an element, which the caller has asserted to be there. -/
def nextOf (myCacheEntry : PredVec) (myCur : ℕ) : ℕ :=
  ((myCacheEntry[myCur]?).map Prod.snd).getD myCur

/-- The distance and the next hop from a node to another. -/
def nextHop (aSrc aDst : String) : EStateM Failure Routing (ℚ × String) := do
  let myDstId ← MonadExcept.ofExcept (id net.theNodes net.theLinks aDst)
  let myCacheEntry ← net.cacheEntry dijkstra myDstId
  let mySrcId ← MonadExcept.ofExcept (id net.theNodes net.theLinks aSrc)
  let myRet ← MonadExcept.ofExcept (access myCacheEntry mySrcId)
  let myElement ← MonadExcept.ofExcept (access net.theElements myRet.2)
  pure (myRet.1, myElement.name)

/-- The elements on the way before the destination, unless there are as many as that. -/
def wayTo (steps : ℕ) (myCacheEntry : PredVec) (aSrcId aDstId : ℕ) : Except Failure (List Element) :=
  match Parents.walk (nextOf myCacheEntry) aDstId steps aSrcId with
  | none => .error .endless
  | some way => way.mapM (access net.theElements)

def txTime (steps : ℕ) (aSrc aDst : Node) (aBytes : ℕ) : EStateM Failure Routing ℚ :=
  -- a node is passed by its address, which its name stands for
  if aBytes = 0 ∨ aSrc.theName = aDst.theName then pure 0
  else do
    let myCacheEntry ← net.cacheEntry dijkstra aDst.theId
    let way ← MonadExcept.ofExcept (net.wayTo steps myCacheEntry aSrc.theId aDst.theId)
    pure (way.map (Element.txTime aBytes)).sum

def hops (steps : ℕ) (aSrc aDst : Node) : EStateM Failure Routing ℕ := do
  let myCacheEntry ← net.cacheEntry dijkstra aDst.theId
  let way ← MonadExcept.ofExcept (net.wayTo steps myCacheEntry aSrc.theId aDst.theId)
  pure (way.countP fun myNext => myNext.device = .Link)

/-- The longest transmission time between a candidate and the other processing nodes. -/
def worst (steps : ℕ) (myCandidate : Node) : EStateM Failure Routing ℚ := do
  let myTxTimes ← net.theProcessing.mapM fun myTarget => do
    let there ← net.txTime dijkstra steps myCandidate myTarget 1000
    let back ← net.txTime dijkstra steps myTarget myCandidate 1000
    pure (max there back)
  pure (myTxTimes.max?.getD 0)

/-- A candidate that is better than the last one becomes the central node. -/
def tryCandidate (steps : ℕ) (myLastWorst : ℚ) (myCandidate : Node) : EStateM Failure Routing ℚ := do
  let myWorst ← net.worst dijkstra steps myCandidate
  let s ← get
  if s.theCentral = none ∨ myWorst < myLastWorst then
    set { s with theCentral := some myCandidate }
    pure myWorst
  else pure myLastWorst

def central (steps : ℕ) : EStateM Failure Routing (Option Node) := do
  match (← get).theCentral with
  | some myNode => pure (some myNode)
  | none =>
    let _ ← net.theProcessing.foldlM (net.tryCandidate dijkstra steps) 0
    pure (← get).theCentral

end Network

end ServerlessEdge.StateSim
