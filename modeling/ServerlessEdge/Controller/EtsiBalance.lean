import ServerlessEdge.Controller.EdgeControllerEtsiBalanced
import ServerlessEdge.Library.Rows
import Mathlib.Algebra.GroupWithZero.Nat

/-! The associations of the ETSI controller are balanced: the groups of clients are taken
largest first, and each goes to the computer that has the fewest clients by then. -/
namespace ServerlessEdge.Controller
open Std Library Maps

namespace EdgeControllerEtsiBalanced

/-- A computer serves a lambda. -/
def Serves (aDesc : DescMap) (aLambda aEndpoint : String) : Prop :=
  ∃ d : Desc, aDesc[aLambda]? = some d ∧ aEndpoint ∈ d.theComputers

/-- The number of contexts of a client with a lambda. -/
def contexts (aTable : Table) (aClient aLambda : String) : ℕ :=
  aTable.countP fun x => x.1 = aClient ∧ x.2.1 = aLambda

/-- The number of contexts already assigned to a computer. -/
def load (aTable aRows : Table) (aEndpoint : String) : ℕ :=
  ((aRows.filter fun x => x.2.2 = aEndpoint).map fun x => contexts aTable x.1 x.2.1).sum

section Counters

variable {aTable : Table} {aClient aLambda : String}

theorem contexts_pos : 0 < contexts aTable aClient aLambda ↔ ∃ ep, (aClient, aLambda, ep) ∈ aTable := by
  rw [contexts, List.countP_pos_iff]
  constructor
  · rintro ⟨⟨c, l, ep⟩, hx, hpair⟩
    obtain ⟨rfl, rfl⟩ := of_decide_eq_true hpair
    exact ⟨ep, hx⟩
  · rintro ⟨ep, hx⟩
    exact ⟨_, hx, by simp⟩

/-- The counters are those of the pairs that the table has. -/
theorem lookup_numClientsMap (aTable : Table) (aClient aLambda : String) :
    Rows.lookup (numClientsMap aTable) aLambda aClient =
      if contexts aTable aClient aLambda = 0 then none else some (contexts aTable aClient aLambda) := by
  induction aTable using List.reverseRecOn with
  | nil => exact Rows.lookup_empty _ _
  | append_singleton t x ih =>
    have hstep : numClientsMap (t ++ [x]) = Rows.put (numClientsMap t) x.2.1 x.1
        ((((numClientsMap t).getD x.2.1 ∅).getD x.1 0) + 1) := by
      rw [numClientsMap, List.foldl_append]
      rfl
    have hcontexts : contexts (t ++ [x]) aClient aLambda =
        contexts t aClient aLambda + if x.1 = aClient ∧ x.2.1 = aLambda then 1 else 0 := by
      rw [contexts, List.countP_append, List.countP_singleton]
      simp [contexts]
    rw [hstep, Rows.lookup_put, hcontexts]
    by_cases hx : x.1 = aClient ∧ x.2.1 = aLambda
    · obtain ⟨rfl, rfl⟩ := hx
      simp only [and_self, if_true, Nat.add_one_ne_zero, if_false]
      rw [ExtTreeMap.getD_eq_getD_getElem?, Rows.lookup_getD, ih]
      split
      · next hzero => rw [hzero]; rfl
      · rfl
    · rw [if_neg hx, if_neg fun h => hx ⟨h.2.symm, h.1.symm⟩, add_zero]
      exact ih

/-- The pair that a counter is about. -/
def Counter.pair (c : Counter) : String × String := (c.theClient, c.theLambda)

/-- The counters before they are sorted. -/
private def counters (m : ExtTreeMap String (ExtTreeMap String ℕ)) : List Counter :=
  m.toList.flatMap fun outer => outer.2.toList.map fun inner => ⟨inner.1, outer.1, inner.2⟩

private theorem mem_counters {m : ExtTreeMap String (ExtTreeMap String ℕ)} {c : Counter} :
    c ∈ counters m ↔ Rows.lookup m c.theLambda c.theClient = some c.theCounter := by
  rw [counters, List.mem_flatMap, Rows.lookup, Option.bind_eq_some_iff]
  constructor
  · rintro ⟨outer, houter, hc⟩
    obtain ⟨inner, hinner, rfl⟩ := List.mem_map.mp hc
    exact ⟨outer.2, mem_toList.mp houter, mem_toList.mp hinner⟩
  · rintro ⟨r, hr, hc⟩
    exact ⟨(c.theLambda, r), mem_toList.mpr hr, List.mem_map.mpr ⟨_, mem_toList.mpr hc, rfl⟩⟩

private theorem nodup_counters (m : ExtTreeMap String (ExtTreeMap String ℕ)) :
    ((counters m).map Counter.pair).Nodup := by
  rw [counters, List.map_flatMap, List.nodup_flatMap]
  refine ⟨fun outer _ => ?_, (List.pairwise_map.mp (nodup_keys m)).imp fun {o o'} hne => ?_⟩
  · rw [List.map_map]
    have hpair : (Counter.pair ∘ fun inner : String × ℕ => (⟨inner.1, outer.1, inner.2⟩ : Counter)) =
        (fun k => (k, outer.1)) ∘ Prod.fst := rfl
    rw [hpair, ← List.map_map]
    exact (nodup_keys outer.2).map fun k k' h => congrArg Prod.fst h
  · refine List.disjoint_left.mpr ?_
    intro p hp hp'
    obtain ⟨c, hc, rfl⟩ := List.mem_map.mp hp
    obtain ⟨c', hc', heq⟩ := List.mem_map.mp hp'
    obtain ⟨inner, -, rfl⟩ := List.mem_map.mp hc
    obtain ⟨inner', -, rfl⟩ := List.mem_map.mp hc'
    exact hne (congrArg Prod.snd heq).symm

private theorem perm_numClientsList (aTable : Table) :
    (numClientsList aTable).Perm (counters (numClientsMap aTable)) := List.perm_insertionSort _ _

/-- There is a counter for each pair that has a context, with their number. -/
theorem mem_numClientsList {c : Counter} : c ∈ numClientsList aTable ↔
    0 < contexts aTable c.theClient c.theLambda ∧
      c.theCounter = contexts aTable c.theClient c.theLambda := by
  rw [(perm_numClientsList aTable).mem_iff, mem_counters, lookup_numClientsMap]
  split
  · next hzero => simp [hzero]
  · next hne => simp [Nat.pos_of_ne_zero hne, eq_comm]

theorem nodup_numClientsList : ((numClientsList aTable).map Counter.pair).Nodup :=
  ((perm_numClientsList aTable).map _).nodup_iff.mpr (nodup_counters _)

instance : Std.Total fun a b : Counter => b.theCounter ≤ a.theCounter :=
  ⟨fun a b => le_total b.theCounter a.theCounter⟩

instance : IsTrans Counter fun a b : Counter => b.theCounter ≤ a.theCounter :=
  ⟨fun _ _ _ hab hbc => hbc.trans hab⟩

theorem sorted_numClientsList :
    (numClientsList aTable).Pairwise fun a b => b.theCounter ≤ a.theCounter :=
  List.pairwise_insertionSort _ _

end Counters

section Computers

/-- A list of computers as it should be after some associations. -/
structure Ranked (aDesc : DescMap) (aLoad : String → ℕ) (xs : List Computer) : Prop where
  sorted : xs.Pairwise fun x y => x.theAssociations ≤ y.theAssociations
  distinct : (xs.map Computer.theEndpoint).Nodup
  supports : ∀ x ∈ xs, ∀ l, l ∈ x.theLambdas ↔ Serves aDesc l x.theEndpoint
  complete : ∀ l ep, Serves aDesc l ep → ∃ x ∈ xs, x.theEndpoint = ep
  loads : ∀ x ∈ xs, x.theAssociations = aLoad x.theEndpoint

variable {xs : List Computer}

theorem map_support (aLambda aEndpoint : String) (xs : List Computer) :
    (support aLambda aEndpoint xs).map Computer.theEndpoint =
      if aEndpoint ∈ xs.map Computer.theEndpoint then xs.map Computer.theEndpoint
      else xs.map Computer.theEndpoint ++ [aEndpoint] := by
  induction xs with
  | nil => rfl
  | cons x xs ih =>
    rw [support]
    split
    · next heq => simp [heq]
    · next hne =>
      rw [List.map_cons, List.map_cons, ih]
      simp only [List.mem_cons, Ne.symm hne, false_or]
      split <;> rfl

theorem associations_support (aLambda aEndpoint : String)
    (h : ∀ x ∈ xs, x.theAssociations = 0) :
    ∀ x ∈ support aLambda aEndpoint xs, x.theAssociations = 0 := by
  induction xs with
  | nil => exact List.forall_mem_singleton.mpr rfl
  | cons x xs ih =>
    obtain ⟨hx, hxs⟩ := List.forall_mem_cons.mp h
    rw [support]
    split
    · exact List.forall_mem_cons.mpr ⟨hx, hxs⟩
    · exact List.forall_mem_cons.mpr ⟨hx, ih hxs⟩

/-- Some computer of the list with this end-point supports a lambda. -/
def Noted (xs : List Computer) (aLambda aEndpoint : String) : Prop :=
  ∃ x ∈ xs, x.theEndpoint = aEndpoint ∧ aLambda ∈ x.theLambdas

theorem noted_cons (x : Computer) (l ep : String) :
    Noted (x :: xs) l ep ↔ (x.theEndpoint = ep ∧ l ∈ x.theLambdas) ∨ Noted xs l ep := by
  simp [Noted]

theorem noted_support (aLambda aEndpoint l ep : String) :
    Noted (support aLambda aEndpoint xs) l ep ↔ l = aLambda ∧ ep = aEndpoint ∨ Noted xs l ep := by
  induction xs with
  | nil =>
    have hempty : ¬ Noted [] l ep := by simp [Noted]
    rw [support, noted_cons, mem_set_insert, or_iff_left hempty, or_iff_left hempty,
      or_iff_left ExtTreeSet.not_mem_empty, and_comm, eq_comm (a := aEndpoint)]
  | cons x xs ih =>
    rw [support, noted_cons x]
    split
    · next heq =>
      rw [noted_cons, mem_set_insert, heq, and_or_left, or_assoc]
      refine or_congr_left ?_
      rw [and_comm, eq_comm (a := aEndpoint)]
    · rw [noted_cons, ih]
      exact or_left_comm

/-- The pairs of a lambda and a computer serving it, in the order of the descriptors. -/
private def servedPairs (aDesc : DescMap) : List (String × String) :=
  aDesc.toList.flatMap fun elem => elem.2.theComputers.toList.map fun ep => (elem.1, ep)

private theorem mem_servedPairs {aDesc : DescMap} {l ep : String} :
    (l, ep) ∈ servedPairs aDesc ↔ Serves aDesc l ep := by
  rw [servedPairs, List.mem_flatMap]
  constructor
  · rintro ⟨elem, helem, hp⟩
    obtain ⟨ep', hep, heq⟩ := List.mem_map.mp hp
    cases heq
    exact ⟨elem.2, mem_toList.mp helem, ExtTreeSet.mem_toList.mp hep⟩
  · rintro ⟨d, hd, hep⟩
    exact ⟨(l, d), mem_toList.mpr hd, List.mem_map.mpr ⟨ep, ExtTreeSet.mem_toList.mpr hep, rfl⟩⟩

private theorem computers_eq (aDesc : DescMap) :
    computers aDesc = (servedPairs aDesc).foldl (fun xs p => support p.1 p.2 xs) [] := by
  rw [computers, servedPairs, List.foldl_flatMap]
  simp only [List.foldl_map]

private theorem foldl_support (ps : List (String × String))
    (hzero : ∀ x ∈ xs, x.theAssociations = 0) (hdistinct : (xs.map Computer.theEndpoint).Nodup) :
    let ys := ps.foldl (fun xs p => support p.1 p.2 xs) xs
    (∀ x ∈ ys, x.theAssociations = 0) ∧ (ys.map Computer.theEndpoint).Nodup ∧
      ∀ l ep, Noted ys l ep ↔ (l, ep) ∈ ps ∨ Noted xs l ep := by
  induction ps generalizing xs with
  | nil => exact ⟨hzero, hdistinct, by simp⟩
  | cons p ps ih =>
    have hmapped : ((support p.1 p.2 xs).map Computer.theEndpoint).Nodup := by
      rw [map_support]
      split
      · exact hdistinct
      · next hnew =>
        refine List.nodup_append.mpr ⟨hdistinct, List.nodup_singleton _, ?_⟩
        intro a ha b hb heq
        rw [List.mem_singleton.mp hb] at heq
        exact hnew (heq ▸ ha)
    obtain ⟨hz, hd, hnoted⟩ := ih (associations_support _ _ hzero) hmapped
    refine ⟨hz, hd, fun l ep => (hnoted l ep).trans ?_⟩
    rw [noted_support, List.mem_cons, Prod.ext_iff, or_left_comm, or_assoc]

/-- At first the computers have no associations. -/
theorem ranked_computers (aDesc : DescMap) : Ranked aDesc (fun _ => 0) (computers aDesc) := by
  have hnil : ∀ x ∈ ([] : List Computer), x.theAssociations = 0 := nofun
  obtain ⟨hzero, hdistinct, hnoted⟩ := foldl_support (servedPairs aDesc) hnil List.nodup_nil
  rw [← computers_eq] at hzero hdistinct hnoted
  have hserves : ∀ l ep, Noted (computers aDesc) l ep ↔ Serves aDesc l ep := by
    intro l ep
    rw [hnoted, mem_servedPairs]
    simp [Noted]
  refine ⟨?_, hdistinct, fun x hx l => ?_, fun l ep hs => ?_, hzero⟩
  · refine List.pairwise_iff_forall_sublist.mpr fun {x y} hsub => ?_
    rw [hzero x (hsub.subset List.mem_cons_self)]
    exact Nat.zero_le _
  · rw [← hserves]
    constructor
    · exact fun hl => ⟨x, hx, rfl, hl⟩
    · rintro ⟨y, hy, heq, hl⟩
      rw [List.inj_on_of_nodup_map hdistinct hx hy heq.symm]
      exact hl
  · obtain ⟨x, hx, heq, -⟩ := (hserves l ep).mpr hs
    exact ⟨x, hx, heq⟩

end Computers

section Placement

instance : Std.Total fun x y : Computer => x.theAssociations ≤ y.theAssociations :=
  ⟨fun x y => le_total x.theAssociations y.theAssociations⟩

instance : IsTrans Computer fun x y => x.theAssociations ≤ y.theAssociations :=
  ⟨fun _ _ _ hxy hyz => hxy.trans hyz⟩

theorem insertComputer_eq (x : Computer) (xs : List Computer) : insertComputer x xs =
    xs.orderedInsert (fun x y => x.theAssociations ≤ y.theAssociations) x := by
  induction xs with
  | nil => rfl
  | cons y xs ih => rw [insertComputer, List.orderedInsert_cons, ih]

/-- The computer with some more associations. -/
def Computer.charge (x : Computer) (n : ℕ) : Computer :=
  { x with theAssociations := x.theAssociations + n }

/-- The first computer that supports the lambda is taken, and moves behind. -/
theorem place_cases (c : Counter) (xs : List Computer) :
    place c xs = none ∧ (∀ x ∈ xs, c.theLambda ∉ x.theLambdas) ∨
      ∃ l₁ x l₂, xs = l₁ ++ x :: l₂ ∧ (∀ y ∈ l₁, c.theLambda ∉ y.theLambdas) ∧
        c.theLambda ∈ x.theLambdas ∧ place c xs =
          some (x.theEndpoint, l₁ ++ insertComputer (x.charge c.theCounter) l₂) := by
  induction xs with
  | nil => exact .inl ⟨rfl, nofun⟩
  | cons x xs ih =>
    by_cases hx : c.theLambda ∈ x.theLambdas
    · refine .inr ⟨[], x, xs, rfl, nofun, hx, ?_⟩
      rw [place, if_pos hx]
      rfl
    rw [place, if_neg hx]
    obtain ⟨hnone, hxs⟩ | ⟨l₁, y, l₂, rfl, hl₁, hy, hsome⟩ := ih
    · refine .inl ⟨?_, List.forall_mem_cons.mpr ⟨hx, hxs⟩⟩
      rw [hnone]
      rfl
    · refine .inr ⟨x :: l₁, y, l₂, rfl, List.forall_mem_cons.mpr ⟨hx, hl₁⟩, hy, ?_⟩
      rw [hsome]
      rfl

variable {aDesc : DescMap} {aLoad : String → ℕ} {c : Counter}

/-- The load of one computer is increased. -/
def charge (aLoad : String → ℕ) (aEndpoint : String) (n : ℕ) (ep : String) : ℕ :=
  if ep = aEndpoint then aLoad ep + n else aLoad ep

/-- Moving a computer keeps the ascending order. -/
theorem Ranked.move {l₁ l₂ : List Computer} {x : Computer} (h : Ranked aDesc aLoad (l₁ ++ x :: l₂))
    (n : ℕ) : Ranked aDesc (charge aLoad x.theEndpoint n) (l₁ ++ insertComputer (x.charge n) l₂) := by
  have hperm : (l₁ ++ insertComputer (x.charge n) l₂).Perm (l₁ ++ x.charge n :: l₂) := by
    rw [insertComputer_eq]
    exact (List.perm_orderedInsert _ _ _).append_left l₁
  have hmap : (l₁ ++ x.charge n :: l₂).map Computer.theEndpoint =
      (l₁ ++ x :: l₂).map Computer.theEndpoint := by
    rw [List.map_append, List.map_append]
    rfl
  have hmem : ∀ {p : Computer → Prop}, (∀ y ∈ l₁ ++ l₂, p y) → p (x.charge n) →
      ∀ y ∈ l₁ ++ insertComputer (x.charge n) l₂, p y := by
    intro p hp hx y hy
    rcases List.mem_cons.mp ((hperm.trans List.perm_middle).mem_iff.mp hy) with rfl | hy
    · exact hx
    · exact hp y hy
  have hx : x ∈ l₁ ++ x :: l₂ := List.mem_append_right _ List.mem_cons_self
  have hkept : ∀ y ∈ l₁ ++ l₂, y ∈ l₁ ++ x :: l₂ := fun y hy =>
    List.perm_middle.mem_iff.mpr (List.mem_cons_of_mem _ hy)
  obtain ⟨hsorted₁, hsorted₂, hbefore⟩ := List.pairwise_append.mp h.sorted
  obtain ⟨hbehind, hsorted₂⟩ := List.pairwise_cons.mp hsorted₂
  refine ⟨List.pairwise_append.mpr ⟨hsorted₁, ?_, fun y hy z hz => ?_⟩, ?_,
    hmem (fun y hy => h.supports y (hkept y hy)) (h.supports x hx), fun l ep hs => ?_,
    hmem (fun y hy => ?_) ?_⟩
  · rw [insertComputer_eq]
    exact List.Pairwise.orderedInsert _ _ hsorted₂
  · rw [insertComputer_eq] at hz
    rcases (List.mem_orderedInsert _).mp hz with rfl | hz
    · exact (hbefore y hy x List.mem_cons_self).trans (Nat.le_add_right _ _)
    · exact hbefore y hy z (List.mem_cons_of_mem _ hz)
  · rw [(hperm.map _).nodup_iff, hmap]
    exact h.distinct
  · obtain ⟨y, hy, rfl⟩ := h.complete l ep hs
    have hlisted := (hmap ▸ List.mem_map_of_mem hy :
      y.theEndpoint ∈ (l₁ ++ x.charge n :: l₂).map Computer.theEndpoint)
    obtain ⟨z, hz, heq⟩ := List.mem_map.mp hlisted
    exact ⟨z, hperm.mem_iff.mpr hz, heq⟩
  · have hother : y.theEndpoint ≠ x.theEndpoint := by
      have hdistinct := h.distinct
      rw [List.map_append, List.map_cons, List.nodup_middle, List.nodup_cons, ← List.map_append]
        at hdistinct
      exact fun heq => hdistinct.1 (heq ▸ List.mem_map_of_mem hy)
    rw [charge, if_neg hother]
    exact h.loads y (hkept y hy)
  · change x.theAssociations + n = charge aLoad x.theEndpoint n x.theEndpoint
    rw [charge, if_pos rfl, h.loads x hx]

/-- The computer taken has the least load of those that serve the lambda. -/
theorem Ranked.least {l₁ l₂ : List Computer} {x : Computer} (h : Ranked aDesc aLoad (l₁ ++ x :: l₂))
    {l : String} (hl₁ : ∀ y ∈ l₁, l ∉ y.theLambdas) {ep : String} (hs : Serves aDesc l ep) :
    aLoad x.theEndpoint ≤ aLoad ep := by
  obtain ⟨y, hy, rfl⟩ := h.complete l ep hs
  rw [← h.loads y hy, ← h.loads x (List.mem_append_right _ List.mem_cons_self)]
  rcases List.mem_append.mp hy with hy₁ | hy₂
  · exact absurd ((h.supports y hy l).mpr hs) (hl₁ y hy₁)
  rcases List.mem_cons.mp hy₂ with rfl | hy₂
  · exact le_rfl
  · exact List.rel_of_pairwise_cons (List.pairwise_append.mp h.sorted).2.1 hy₂

/-- Either nobody serves the lambda, or the group goes to a computer with the least load. -/
theorem Ranked.place {xs : List Computer} (h : Ranked aDesc aLoad xs) (c : Counter) :
    EdgeControllerEtsiBalanced.place c xs = none ∧ (∀ ep, ¬ Serves aDesc c.theLambda ep) ∨
      ∃ ep xs', EdgeControllerEtsiBalanced.place c xs = some (ep, xs') ∧
        Serves aDesc c.theLambda ep ∧ (∀ ep', Serves aDesc c.theLambda ep' → aLoad ep ≤ aLoad ep') ∧
        Ranked aDesc (charge aLoad ep c.theCounter) xs' := by
  obtain ⟨hnone, hxs⟩ | ⟨l₁, x, l₂, rfl, hl₁, hx, hsome⟩ := place_cases c xs
  · refine .inl ⟨hnone, fun ep hs => ?_⟩
    obtain ⟨y, hy, rfl⟩ := h.complete _ ep hs
    exact hxs y hy ((h.supports y hy _).mpr hs)
  · refine .inr ⟨_, _, hsome, ?_, fun ep hs => h.least hl₁ hs, h.move c.theCounter⟩
    exact (h.supports x (List.mem_append_right _ List.mem_cons_self) _).mp hx

end Placement

section Assignment

variable {aDesc : DescMap} {aTable : Table}

/-- What is already assigned to a computer, when the first row is one of them. -/
theorem load_cons (x : String × String × String) (aRows : Table) (ep : String) :
    load aTable (x :: aRows) ep =
      (if ep = x.2.2 then contexts aTable x.1 x.2.1 else 0) + load aTable aRows ep := by
  rw [load, List.filter_cons]
  by_cases hep : ep = x.2.2
  · rw [if_pos hep, if_pos (by simp [hep]), List.map_cons, List.sum_cons]
    rfl
  · rw [if_neg hep, if_neg (by simp [Ne.symm hep]), zero_add]
    rfl

/-- The pairs of the rows, in the order of the counters. -/
theorem map_assign_sublist (xs : List Computer) (cs : List Counter) :
    ((assign xs cs).map fun x => (x.1, x.2.1)).Sublist (cs.map Counter.pair) := by
  induction cs generalizing xs with
  | nil => exact List.Sublist.slnil
  | cons c cs ih =>
    rw [assign]
    split
    · exact (ih xs).cons _
    · exact (ih _).cons_cons _

theorem mem_assign {aLoad : String → ℕ} {xs : List Computer} (h : Ranked aDesc aLoad xs)
    (cs : List Counter) (aClient aLambda : String) :
    (∃ ep, (aClient, aLambda, ep) ∈ assign xs cs) ↔
      (aClient, aLambda) ∈ cs.map Counter.pair ∧ ∃ ep, Serves aDesc aLambda ep := by
  induction cs generalizing xs aLoad with
  | nil => simp [assign]
  | cons c cs ih =>
    rw [assign, List.map_cons, List.mem_cons]
    obtain ⟨hnone, hnobody⟩ | ⟨ep, xs', hsome, hserves, -, hnext⟩ := h.place c
    · rw [hnone]
      refine (ih h).trans ?_
      rw [or_and_right]
      refine (or_iff_right ?_).symm
      rintro ⟨heq, ep, hs⟩
      cases heq
      exact hnobody ep hs
    · rw [hsome]
      simp only [List.mem_cons, exists_or]
      rw [ih hnext, or_and_right]
      refine or_congr_left ?_
      constructor
      · rintro ⟨ep', heq⟩
        cases heq
        exact ⟨rfl, ep, hserves⟩
      · rintro ⟨heq, -⟩
        cases heq
        exact ⟨ep, rfl⟩

/-- Each row is for a computer that serves the lambda and has the least load by then. -/
theorem assign_least {aLoad : String → ℕ} {xs : List Computer} (h : Ranked aDesc aLoad xs)
    {cs : List Counter} (hcs : ∀ c ∈ cs, c.theCounter = contexts aTable c.theClient c.theLambda)
    {pre post : Table} {x : String × String × String} (heq : assign xs cs = pre ++ x :: post) :
    Serves aDesc x.2.1 x.2.2 ∧ ∀ ep, Serves aDesc x.2.1 ep →
      aLoad x.2.2 + load aTable pre x.2.2 ≤ aLoad ep + load aTable pre ep := by
  induction cs generalizing xs aLoad pre with
  | nil => simp [assign] at heq
  | cons c cs ih =>
    obtain ⟨hc, hrest⟩ := List.forall_mem_cons.mp hcs
    rw [assign] at heq
    obtain ⟨hnone, -⟩ | ⟨ep, xs', hsome, hserves, hleast, hnext⟩ := h.place c
    · rw [hnone] at heq
      exact ih h hrest heq
    · rw [hsome] at heq
      cases pre with
      | nil =>
        cases heq
        exact ⟨hserves, hleast⟩
      | cons y pre =>
        rw [List.cons_append] at heq
        obtain ⟨rfl, hassign⟩ := List.cons_eq_cons.mp heq
        obtain ⟨hs, hle⟩ := ih hnext hrest hassign
        refine ⟨hs, fun ep' hs' => ?_⟩
        have hshift : ∀ e, aLoad e + load aTable ((c.theClient, c.theLambda, ep) :: pre) e =
            charge aLoad ep c.theCounter e + load aTable pre e := by
          intro e
          rw [load_cons, charge, hc]
          dsimp only
          split <;> omega
        rw [hshift, hshift]
        exact hle ep' hs'

end Assignment

/-- For every table of active contexts and all descriptors: one row for each pair of a
client and a lambda that somebody serves, the pairs with more contexts first, each for a
computer that serves the lambda and that has the least load by then. -/
theorem table_balanced (aTable : Table) (aDesc : DescMap) :
    ((table aTable aDesc).map fun x => (x.1, x.2.1)).Nodup ∧
    (∀ aClient aLambda, (∃ ep, (aClient, aLambda, ep) ∈ table aTable aDesc) ↔
      (∃ ep, (aClient, aLambda, ep) ∈ aTable) ∧ ∃ ep, Serves aDesc aLambda ep) ∧
    ((table aTable aDesc).Pairwise fun x y =>
      contexts aTable y.1 y.2.1 ≤ contexts aTable x.1 x.2.1) ∧
    ∀ pre x post, table aTable aDesc = pre ++ x :: post → Serves aDesc x.2.1 x.2.2 ∧
      ∀ ep, Serves aDesc x.2.1 ep → load aTable pre x.2.2 ≤ load aTable pre ep := by
  have hranked := ranked_computers aDesc
  have hcounter : ∀ c ∈ numClientsList aTable,
      c.theCounter = contexts aTable c.theClient c.theLambda := fun c hc =>
    (mem_numClientsList.mp hc).2
  have hsublist := map_assign_sublist (computers aDesc) (numClientsList aTable)
  refine ⟨hsublist.nodup nodup_numClientsList, fun aClient aLambda => ?_, ?_, ?_⟩
  · rw [table, mem_assign hranked]
    refine and_congr_left fun _ => ?_
    rw [← contexts_pos, List.mem_map]
    constructor
    · rintro ⟨c, hc, heq⟩
      cases heq
      exact (mem_numClientsList.mp hc).1
    · exact fun hpos => ⟨⟨aClient, aLambda, contexts aTable aClient aLambda⟩,
        mem_numClientsList.mpr ⟨hpos, rfl⟩, rfl⟩
  · have hpairs : ((numClientsList aTable).map Counter.pair).Pairwise fun p q =>
        contexts aTable q.1 q.2 ≤ contexts aTable p.1 p.2 := by
      refine List.pairwise_map.mpr (sorted_numClientsList.imp_of_mem fun {c c'} hc hc' hle => ?_)
      rw [hcounter c hc, hcounter c' hc'] at hle
      exact hle
    exact List.pairwise_map.mp (hpairs.sublist hsublist)
  · intro pre x post heq
    obtain ⟨hserves, hleast⟩ := assign_least hranked hcounter heq
    refine ⟨hserves, fun ep hs => ?_⟩
    have hle := hleast ep hs
    rwa [zero_add, zero_add] at hle

end EdgeControllerEtsiBalanced
end ServerlessEdge.Controller
