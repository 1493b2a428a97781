import ServerlessEdge.Library.Maps
import ServerlessEdge.StateSim.Network

/-! What the constructors of a network make sure of: the elements are found by their
identifiers, and the processing nodes and the clients are among the nodes. -/
namespace ServerlessEdge.StateSim
open Std Library Checks

/-- The nodes are stored under their names. -/
def Named (theNodes : ExtTreeMap String Node) : Prop :=
  ∀ (k : String) (n : Node), theNodes[k]? = some n → n.theName = k

structure Network.WellFormed (net : Network) : Prop where
  named : Named net.theNodes
  ids : ∀ n ∈ net.nodes, net.theElements[n.theId]? = some (.node n)
  vertices : net.theGraph.vertices = net.theElements.length
  edges : ∀ e ∈ net.theGraph.edges, e.1 < net.theElements.length ∧ e.2.1 < net.theElements.length
  clients : ∀ n ∈ net.theClients, n ∈ net.nodes
  processing : ∀ n ∈ net.theProcessing, n ∈ net.nodes

theorem Network.mem_nodes {net : Network} {n : Node} :
    n ∈ net.nodes ↔ ∃ k : String, net.theNodes[k]? = some n := by
  rw [Network.nodes, List.mem_map]
  constructor
  · rintro ⟨⟨k, n⟩, hmem, rfl⟩
    exact ⟨k, Maps.mem_toList.mp hmem⟩
  · rintro ⟨k, hk⟩
    exact ⟨(k, n), Maps.mem_toList.mpr hk, rfl⟩

section Elements

/-- An element is stored at its own identifier. -/
private def Placed (es : List Element) (l : List (Option Element)) : Prop :=
  ∀ i e, l[i]? = some (some e) → e ∈ es ∧ e.id = i

private theorem setElement_placed {es : List Element} {l l' : List (Option Element)} {e : Element}
    (he : e ∈ es) (hl : Placed es l) (h : Network.setElement l e = .ok l') :
    Placed es l' ∧ l'.length = l.length := by
  rw [Network.setElement] at h
  split at h
  · cases h
    refine ⟨fun i e' hget => ?_, List.length_set⟩
    rw [List.getElem?_set] at hget
    split at hget
    · rename_i hi
      cases hget
      exact ⟨he, hi⟩
    · exact hl i e' hget
  · cases h

private theorem foldlM_placed {es rest : List Element} {l l' : List (Option Element)}
    (hrest : ∀ e ∈ rest, e ∈ es) (hl : Placed es l) (h : rest.foldlM Network.setElement l = .ok l') :
    Placed es l' ∧ l'.length = l.length := by
  induction rest generalizing l with
  | nil =>
    cases h
    exact ⟨hl, rfl⟩
  | cons e rest ih =>
    rw [List.foldlM_cons, bind_ok] at h
    obtain ⟨l₁, hl₁, h⟩ := h
    obtain ⟨hplaced, hlength⟩ := setElement_placed (hrest e List.mem_cons_self) hl hl₁
    obtain ⟨hplaced', hlength'⟩ := ih (fun e he => hrest e (List.mem_cons_of_mem _ he)) hplaced h
    exact ⟨hplaced', hlength'.trans hlength⟩

theorem mapM_some {l : List (Option Element)} {es : List Element} (h : l.mapM (fun elem =>
    match elem with
    | some myElement => (.ok myElement : Except Failure Element)
    | none => .error .outOfRange) = .ok es) : l = es.map some := by
  induction l generalizing es with
  | nil =>
    cases h
    rfl
  | cons elem l ih =>
    obtain ⟨e, rest, he, hrest, rfl⟩ := mapM_cons_ok.mp h
    cases elem with
    | none => cases he
    | some e' =>
      cases he
      rw [ih hrest, List.map_cons]

/-- As no pointer is missing, all identifiers are different and each element is at its own. -/
theorem indexElements_ok {theNodes : ExtTreeMap String Node} {theLinks : ExtTreeMap String Link}
    {es : List Element} (h : Network.indexElements theNodes theLinks = .ok es) :
    es.length = theNodes.size + theLinks.size ∧
      ∀ e ∈ Network.elementsOf theNodes theLinks, es[e.id]? = some e := by
  rw [Network.indexElements, bind_ok] at h
  obtain ⟨l, hl, h⟩ := h
  obtain rfl := mapM_some h
  have hnone : Placed (Network.elementsOf theNodes theLinks)
      (List.replicate (theNodes.size + theLinks.size) none) := by
    intro i e hget
    rw [List.getElem?_replicate] at hget
    split at hget <;> cases hget
  obtain ⟨hplaced, hlength⟩ := foldlM_placed (fun e he => he) hnone hl
  rw [List.length_map, List.length_replicate] at hlength
  have hcount : (Network.elementsOf theNodes theLinks).length = es.length := by
    rw [hlength, Network.elementsOf, List.length_append, List.length_map, List.length_map,
      ExtTreeMap.length_toList, ExtTreeMap.length_toList]
  have hat : ∀ i (hi : i < es.length),
      es[i] ∈ Network.elementsOf theNodes theLinks ∧ es[i].id = i := by
    intro i hi
    refine hplaced i es[i] ?_
    rw [List.getElem?_map, List.getElem?_eq_getElem hi, Option.map_some]
  -- the identifiers are all the positions, so that there are no two of the same
  have hsub : List.range es.length ⊆ (Network.elementsOf theNodes theLinks).map Element.id := by
    intro i hi
    obtain ⟨hmem, hid⟩ := hat i (List.mem_range.mp hi)
    exact List.mem_map.mpr ⟨_, hmem, hid⟩
  have hperm : (List.range es.length).Perm
      ((Network.elementsOf theNodes theLinks).map Element.id) := by
    refine (List.nodup_range.subperm hsub).perm_of_length_le ?_
    rw [List.length_map, List.length_range, hcount]
  refine ⟨hlength, fun e he => ?_⟩
  have hid : e.id < es.length :=
    List.mem_range.mp (hperm.mem_iff.mpr (List.mem_map.mpr ⟨e, he, rfl⟩))
  obtain ⟨hmem, hsame⟩ := hat e.id hid
  have hinj := List.inj_on_of_nodup_map (hperm.nodup_iff.mp List.nodup_range) hmem he hsame
  rw [List.getElem?_eq_getElem hid, hinj]

/-- Some element has an identifier. -/
def Known (theNodes : ExtTreeMap String Node) (theLinks : ExtTreeMap String Link) (i : ℕ) : Prop :=
  ∃ e ∈ Network.elementsOf theNodes theLinks, e.id = i

theorem known_of_id {theNodes : ExtTreeMap String Node} {theLinks : ExtTreeMap String Link}
    {aName : String} {i : ℕ} (h : Network.id theNodes theLinks aName = .ok i) :
    Known theNodes theLinks i := by
  rw [Network.id] at h
  split at h
  · rename_i n hn
    cases h
    exact ⟨.node n, List.mem_append_left _ (List.mem_map.mpr ⟨_, Maps.mem_toList.mpr hn, rfl⟩), rfl⟩
  · rename_i l _ hl
    cases h
    exact ⟨.link l, List.mem_append_right _ (List.mem_map.mpr ⟨_, Maps.mem_toList.mpr hl, rfl⟩), rfl⟩
  · cases h

theorem known_of_edgesFrom {theNodes : ExtTreeMap String Node} {theLinks : ExtTreeMap String Link}
    {mySource : String} {myTargets : List String} {es : List (ℕ × ℕ × ℚ)}
    (h : Network.edgesFrom theNodes theLinks mySource myTargets = .ok es) :
    ∀ e ∈ es, Known theNodes theLinks e.1 ∧ Known theNodes theLinks e.2.1 := by
  simp only [Network.edgesFrom, bind_ok] at h
  obtain ⟨i, hi, c, -, h⟩ := h
  intro e he
  obtain ⟨myTarget, -, hedge⟩ := mem_of_mapM_ok h he
  obtain ⟨j, hj, hedge⟩ := bind_ok.mp hedge
  obtain ⟨c', -, hedge⟩ := bind_ok.mp hedge
  cases hedge
  exact ⟨known_of_id hi, known_of_id hj⟩

theorem known_of_mapM {A : Type} {theNodes : ExtTreeMap String Node}
    {theLinks : ExtTreeMap String Link} {l : List A} {f : A → String} {g : A → List String}
    {ess : List (List (ℕ × ℕ × ℚ))}
    (h : l.mapM (fun x => Network.edgesFrom theNodes theLinks (f x) (g x)) = .ok ess) :
    ∀ e ∈ ess.flatten, Known theNodes theLinks e.1 ∧ Known theNodes theLinks e.2.1 := by
  intro e he
  obtain ⟨es, hes, he⟩ := List.mem_flatten.mp he
  obtain ⟨x, -, hx⟩ := mem_of_mapM_ok h hes
  exact known_of_edgesFrom hx e he

theorem initElementsGraph_wellFormed {theNodes : ExtTreeMap String Node}
    {theLinks : ExtTreeMap String Link} {theClients theProcessing : List Node}
    {aEdges : List (ℕ × ℕ × ℚ)} {net : Network} (hnamed : Named theNodes)
    (hclients : ∀ n ∈ theClients, ∃ k : String, theNodes[k]? = some n)
    (hprocessing : ∀ n ∈ theProcessing, ∃ k : String, theNodes[k]? = some n)
    (hedges : ∀ e ∈ aEdges, Known theNodes theLinks e.1 ∧ Known theNodes theLinks e.2.1)
    (h : Network.initElementsGraph theNodes theLinks theClients theProcessing aEdges = .ok net) :
    net.WellFormed := by
  rw [Network.initElementsGraph, bind_ok] at h
  obtain ⟨es, hes, h⟩ := h
  cases h
  obtain ⟨hlength, hat⟩ := indexElements_ok hes
  have hlt : ∀ i, Known theNodes theLinks i → i < es.length := by
    rintro i ⟨e, he, rfl⟩
    exact (List.getElem?_eq_some_iff.mp (hat e he)).1
  refine ⟨hnamed, fun n hn => ?_, hlength.symm,
    fun e he => ⟨hlt _ (hedges e he).1, hlt _ (hedges e he).2⟩, fun n hn => Network.mem_nodes.mpr (hclients n hn),
    fun n hn => Network.mem_nodes.mpr (hprocessing n hn)⟩
  refine hat (.node n) (List.mem_append_left _ ?_)
  obtain ⟨elem, hmem, rfl⟩ := List.mem_map.mp hn
  exact List.mem_map.mpr ⟨elem, hmem, rfl⟩

end Elements

section Constructors

theorem Named.insertIfNew {m : ExtTreeMap String Node} (hm : Named m) {k : String} {n : Node}
    (hn : n.theName = k) : Named (m.insertIfNew k n) := by
  intro k' n' hget
  rw [Maps.lookup_emplace] at hget
  split at hget
  · rename_i hk
    subst hk
    cases hmk : m[k']? with
    | none =>
      rw [hmk] at hget
      cases hget
      exact hn
    | some n₀ =>
      rw [hmk] at hget
      cases hget
      exact hm k' n₀ hmk
  · exact hm k' n' hget

theorem lookup_insertIfNew_of_some {m : ExtTreeMap String Node} {k k' : String} {n n' : Node}
    (h : m[k']? = some n') : (m.insertIfNew k n)[k']? = some n' := by
  rw [Maps.lookup_emplace]
  split
  · rename_i hk
    subst hk
    rw [h]
    rfl
  · exact h

theorem networking_name {aName : String} {aId : ℕ} {n : Node}
    (h : Node.networking aName aId = .ok n) : n.theName = aName := by
  rw [Node.networking] at h
  split at h
  · cases h
  · cases h
    rfl

/-- Nodes are only added. -/
theorem foldlM_addNetworking {theLinks : ExtTreeMap String Link} {names : List String}
    {s s' : ExtTreeMap String Node × ℕ} (hs : Named s.1)
    (h : names.foldlM (addNetworking theLinks) s = .ok s') :
    Named s'.1 ∧ ∀ (k : String) (n : Node), s.1[k]? = some n → s'.1[k]? = some n := by
  induction names generalizing s with
  | nil =>
    cases h
    exact ⟨hs, fun k n hk => hk⟩
  | cons name names ih =>
    rw [List.foldlM_cons, bind_ok] at h
    obtain ⟨s₁, hs₁, h⟩ := h
    rw [addNetworking] at hs₁
    split at hs₁
    · cases hs₁
      exact ih hs h
    · obtain ⟨n, hn, hs₁⟩ := bind_ok.mp hs₁
      cases hs₁
      obtain ⟨hnamed, hkeeps⟩ := ih (hs.insertIfNew (networking_name hn)) h
      exact ⟨hnamed, fun k n' hk => hkeeps k n' (lookup_insertIfNew_of_some hk)⟩

theorem foldl_named {ns : List Node} {m : ExtTreeMap String Node} (hm : Named m) :
    Named (ns.foldl (fun m n => m.insertIfNew n.theName n) m) := by
  induction ns generalizing m with
  | nil => exact hm
  | cons n ns ih => exact ih (hm.insertIfNew rfl)

theorem named_empty : Named ∅ := by
  intro k n h
  simp at h

theorem fromFiles_wellFormed {env : Env} {aNodesPath aLinksPath aEdgesPath : String}
    {aNodes aLinks aEdges : Option Text} {net : Network}
    (h : fromFiles env aNodesPath aLinksPath aEdgesPath aNodes aLinks aEdges = .ok net) :
    net.WellFormed := by
  simp only [fromFiles, bind_ok] at h
  obtain ⟨⟨myNodes, c₁⟩, -, ⟨myLinks, c₂⟩, -, ⟨myNodeLists, c₃⟩, -, ⟨theNodes, c₄⟩, hnodes, edges,
    hedges, h⟩ := h
  obtain ⟨hnamed, hkeeps⟩ := foldlM_addNetworking (foldl_named named_empty) hnodes
  have hprocessing : ∀ n ∈ (myNodes.foldl (fun m n => m.insertIfNew n.theName n)
      (∅ : ExtTreeMap String Node)).toList.map Prod.snd, ∃ k : String, theNodes[k]? = some n := by
    intro n hn
    obtain ⟨⟨k, n⟩, hmem, rfl⟩ := List.mem_map.mp hn
    exact ⟨k, hkeeps k n (Maps.mem_toList.mp hmem)⟩
  exact initElementsGraph_wellFormed hnamed
    (fun n hn => hprocessing n (List.mem_of_mem_filter hn)) hprocessing (known_of_mapM hedges) h

/-- The clients and the processing nodes are among the nodes added so far. -/
private structure Filling.Among (s : Filling) : Prop where
  named : Named s.theNodes
  clients : ∀ n ∈ s.theClients, ∃ k : String, s.theNodes[k]? = some n
  processing : ∀ n ∈ s.theProcessing, ∃ k : String, s.theNodes[k]? = some n

private theorem addNode_among {aClients : List String} {s s' : Filling} {n : Node} (hs : s.Among)
    (h : addNode aClients s n = .ok s') : s'.Among := by
  rw [addNode] at h
  split at h
  · cases h
  · rename_i hnew
    split at h
    · cases h
    · cases h
      have hself : (s.theNodes.insertIfNew n.theName n)[n.theName]? = some n := by
        rw [Maps.lookup_insertIfNew hnew, if_pos rfl]
      have hadd : ∀ l : List Node, (∀ n ∈ l, ∃ k : String, s.theNodes[k]? = some n) →
          ∀ (b : Prop) [Decidable b], ∀ n' ∈ (if b then l ++ [n] else l),
            ∃ k : String, (s.theNodes.insertIfNew n.theName n)[k]? = some n' := by
        intro l hl b _ n' hn'
        have hmem : n' ∈ l ∨ n' = n := by
          split at hn'
          · simpa using hn'
          · exact .inl hn'
        rcases hmem with hmem | rfl
        · obtain ⟨k, hk⟩ := hl n' hmem
          exact ⟨k, lookup_insertIfNew_of_some hk⟩
        · exact ⟨_, hself⟩
      exact ⟨hs.named.insertIfNew rfl, hadd _ hs.clients _, hadd _ hs.processing _⟩

theorem fromSets_wellFormed {aNodes : List Node} {aLinks : List Link}
    {aEdges : List (String × List String)} {aClients : List String} {net : Network}
    (h : fromSets aNodes aLinks aEdges aClients = .ok net) : net.WellFormed := by
  simp only [fromSets, bind_ok] at h
  obtain ⟨s, hs, ⟨theLinks, ids⟩, -, h⟩ := h
  have hstart : Filling.Among ⟨∅, [], [], []⟩ := ⟨named_empty, by simp, by simp⟩
  have hamong : s.Among := (foldlM_ok (P := fun _ => True)
    (fun s n s' hs h => ⟨trivial, addNode_among hs h⟩) hstart hs).2
  split at h
  · cases h
  · obtain ⟨edges, hedges, h⟩ := bind_ok.mp h
    exact initElementsGraph_wellFormed hamong.named hamong.clients hamong.processing
      (known_of_mapM hedges) h

/-- A network that is accepted is well formed. -/
theorem Accepted.wellFormed {env : Env} {net : Network} (h : Accepted env net) : net.WellFormed := by
  cases h with
  | files h => exact fromFiles_wellFormed h
  | sets h => exact fromSets_wellFormed h

end Constructors

end ServerlessEdge.StateSim
