import ServerlessEdge.Forwarding.TypedTable

/-! Choices among the listed destinations. Three kinds of entries never choose
another one; the fourth reads through an iterator, which may be dangling. -/
namespace ServerlessEdge.Forwarding
open Library Triple
open Std (ExtTreeMap)

/-- What a kind of entry keeps of its state so that it chooses a listed destination. -/
structure Lists {W : Type} [Zero W] [LinearOrder W] (P : Policy W) where
  Good : Entry W → P.State → Prop
  good_init : Good .new P.init
  good_updateWeight {e : Entry W} {s : P.State} (h : P.Fits e s) (hg : Good e s) {aDest : String}
    {x : Element W} (hx : e.find aDest = some x) {f : Element W → Element W}
    (hf : ∀ x, (f x).theDestination = x.theDestination) {aNewWeight : W}
    (hw : ∀ x, (f x).theWeight = aNewWeight) (hpos : 0 < aNewWeight) (r : P.Reading) :
    Good (e.rewrite aDest f hf)
      (P.updateWeight r (e.rewrite aDest f hf) aDest x.theWeight aNewWeight s)
  good_updateAddDest {e : Entry W} {s : P.State} (h : P.Fits e s) (hg : Good e s) (x : Element W)
    (hx : e.find x.theDestination = none) (hpos : 0 < x.theWeight) (r : P.Reading) :
    Good (e.append x hx) (P.updateAddDest r (e.append x hx) x.theDestination x.theWeight s)
  good_updateDelDest {e : Entry W} {s : P.State} (h : P.Fits e s) (hg : Good e s) {aDest : String}
    {x : Element W} (hx : e.find aDest = some x) (r : P.Reading) :
    Good (e.remove aDest).2 (P.updateDelDest r (e.remove aDest).2 aDest x.theWeight s)
  good_operator {e : Entry W} {s s' : P.State} (h : P.Fits e s) (hg : Good e s) {r : P.Reading}
    {aDest : String} (hs : P.operator r e s = .ok (aDest, s')) :
    (e.find aDest).isSome ∧ Good e s'

section Kinds

variable {W : Type} [Field W] [LinearOrder W]

theorem EntryRandom.pick_mem (myRand mySum : W) (x : Element W) (rest : List (Element W)) :
    pick myRand mySum x rest ∈ (x :: rest).map Element.theDestination := by
  induction rest generalizing mySum x with
  | nil => exact List.mem_cons_self
  | cons y rest ih =>
    rw [pick]
    split
    · exact List.mem_cons_self
    · exact List.mem_cons_of_mem _ (ih _ y)

theorem EntryRandom.operator_listed {r : W} {e : Entry W} {s s' : State W} {aDest : String}
    (hs : operator r e s = .ok (aDest, s')) : (e.find aDest).isSome := by
  rw [e.find_isSome_iff]
  unfold operator at hs
  split at hs
  · cases hs
  · next x hone =>
    cases hs
    rw [hone]
    exact List.mem_cons_self
  · next x rest _ hmany =>
    cases hs
    rw [hmany]
    exact pick_mem _ _ x rest

def EntryRandom.lists : Lists (EntryRandom.policy (W := W)) where
  Good _ _ := True
  good_init := trivial
  good_updateWeight := by intros; trivial
  good_updateAddDest := by intros; trivial
  good_updateDelDest := by intros; trivial
  good_operator {_ _ _} _ _ {_ _} hs := ⟨operator_listed hs, trivial⟩

omit [Field W] [LinearOrder W] in
theorem EntryLeastImpedance.operator_listed {aMemory : Element W} {e : Entry W} {s s' : State}
    {aDest : String} (hmin : e.empty = false → ∃ d, s.theMinElement = .element d ∧ (e.find d).isSome)
    (hs : operator aMemory e s = .ok (aDest, s')) : (e.find aDest).isSome := by
  unfold operator at hs
  split at hs
  · cases hs
  next hempty =>
  obtain ⟨d, hd, hfound⟩ := hmin (Bool.eq_false_iff.mpr hempty)
  obtain ⟨x, hx⟩ := Option.isSome_iff_exists.mp hfound
  cases hs
  rw [hd, Iterator.deref, hx, Option.getD_some, Entry.find_dest hx, hx]
  rfl

/-- The first destination looked at replaces the empty one. -/
theorem EntryProportionalFairness.select_mem (pow : W → W → W) (theAlpha theBeta myNow : W)
    (s : State W) {e : Entry W} (he : e.empty = false) :
    (select pow theAlpha theBeta myNow s e).1 ∈ e.theDestinations.map Element.theDestination := by
  rw [Entry.empty_eq_false_iff] at he
  let g := fun (b : String × W) (x : Element W) =>
    let myStats := (s.thePFstats[x.theDestination]?).getD (0, 0)
    let myCurWeight := computeWeight pow theAlpha theBeta x.theWeight myStats.1 myStats.2 myNow
    if b.1 = "" ∨ myCurWeight > b.2 then (x.theDestination, myCurWeight) else b
  have hfold (xs : List (Element W)) (b : String × W) :
      (xs.foldl g b).1 = b.1 ∨ (xs.foldl g b).1 ∈ xs.map Element.theDestination := by
    induction xs generalizing b with
    | nil => exact .inl rfl
    | cons x xs ih =>
      rw [List.foldl_cons]
      rcases ih (g b x) with h | h
      · rw [h, List.map_cons, List.mem_cons]
        simp only [g]
        split
        · exact .inr (.inl rfl)
        · exact .inl rfl
      · exact .inr (List.mem_cons_of_mem _ h)
  change (e.theDestinations.foldl g ("", 0)).1 ∈ _
  cases hx : e.theDestinations with
  | nil => exact absurd hx he
  | cons x xs =>
    rw [List.foldl_cons, List.map_cons, List.mem_cons]
    exact hfold xs (g ("", 0) x)

theorem EntryProportionalFairness.operator_listed (pow : W → W → W) (theAlpha theBeta : W) {r : W}
    {e : Entry W} {s s' : State W} {aDest : String}
    (hs : operator pow theAlpha theBeta r e s = .ok (aDest, s')) : (e.find aDest).isSome := by
  rw [e.find_isSome_iff]
  unfold operator at hs
  split at hs
  · cases hs
  · next he =>
    cases hs
    exact select_mem _ _ _ _ _ (Bool.eq_false_iff.mpr he)

def EntryProportionalFairness.lists (pow : W → W → W) (theAlpha theBeta : W) :
    Lists (EntryProportionalFairness.policy pow theAlpha theBeta) where
  Good _ _ := True
  good_init := trivial
  good_updateWeight := by intros; trivial
  good_updateAddDest := by intros; trivial
  good_updateDelDest := by intros; trivial
  good_operator {_ _ _} _ _ {_ _} hs := ⟨operator_listed pow theAlpha theBeta hs, trivial⟩

/-- The queue is made of the keys of the cache. -/
theorem EntryRoundRobin.mem_updateActiveSet (aStat : SummaryStat W) (theMax : W) (r : Reading W)
    (s : State W) : ∀ d ∈ (updateActiveSet aStat theMax r s).theQueue,
      d ∈ (updateActiveSet aStat theMax r s).theCache := by
  intro d hd
  obtain ⟨p, hp, rfl⟩ := List.mem_map.mp hd
  have hcached := Maps.mem_toList.mp (List.mem_filter.mp hp).1
  exact ExtTreeMap.mem_map.mpr (Maps.mem_of_lookup hcached)

theorem EntryRoundRobin.mem_updateList (aStat : SummaryStat W) (theMax : W) (r : Reading W)
    (e : Entry W) (s : State W) : ∀ d ∈ (updateList aStat theMax r e s).theQueue,
      d ∈ (updateList aStat theMax r e s).theCache := by
  unfold updateList
  split
  · exact nofun
  · exact mem_updateActiveSet aStat theMax r _

theorem EntryRoundRobin.operator_listed {e : Entry W} {s s' : State W} (h : Fits e s)
    (hg : ∀ d ∈ s.theQueue, d ∈ s.theCache) {r : Reading W} {aDest : String}
    (hs : operator r s = .ok (aDest, s')) :
    (e.find aDest).isSome ∧ ∀ d ∈ s'.theQueue, d ∈ s'.theCache := by
  unfold operator at hs
  split at hs
  · cases hs
  · next d hd =>
    cases hs
    constructor
    · obtain ⟨c, hc⟩ := Maps.lookup_of_mem (hg aDest (List.mem_rotate.mp (List.argmin_mem hd)))
      obtain ⟨x, hx, -⟩ := h.caches.listed hc
      rw [hx]
      rfl
    · exact fun d' hd' => ExtTreeMap.mem_modify.mpr (hg d' hd')

variable [IsStrictOrderedRing W]

def EntryRoundRobin.lists (aStat : SummaryStat W) (theMax : W) :
    Lists (EntryRoundRobin.policy aStat theMax) where
  Good _ s := ∀ d ∈ s.theQueue, d ∈ s.theCache
  good_init := nofun
  good_updateWeight {_ _} _ _ {_ _} _ {_} _ {_} _ _ r := mem_updateActiveSet aStat theMax r _
  good_updateAddDest _ _ _ _ _ r := mem_updateList aStat theMax r _ _
  good_updateDelDest {_ _} _ _ {_ _} _ r := mem_updateList aStat theMax r _ _
  good_operator {_ _ _} h hg {_ _} hs := operator_listed h hg hs

/-- All types of tables but one choose among their destinations. -/
def TypedTable.EntryType.lists (num : TypedTable.Numerics W) (theAlpha theBeta : W) :
    (aType : TypedTable.EntryType) → aType ≠ .LeastImpedance → Lists (aType.policy num theAlpha theBeta)
  | .Random, _ => EntryRandom.lists
  | .RoundRobin, _ => EntryRoundRobin.lists num.aStat num.theMax
  | .ProportionalFairness, _ => EntryProportionalFairness.lists num.pow theAlpha theBeta
  | .LeastImpedance, h => absurd rfl h

end Kinds

section Tables

variable {W : Type} [Zero W] [LinearOrder W] {P : Policy W} (L : Lists P)

namespace PolicyEntry

variable {L} {e e' : PolicyEntry P} {r : P.Reading} {d : String}

theorem good_change (hg : L.Good e.entry e.state) {w : W} {f : Bool}
    (h : e.change r d w f = .ok e') : L.Good e'.entry e'.state := by
  unfold change at h
  split at h
  · cases h
  next hr =>
  have hpos : 0 < w := not_le.mp (not_or.mp hr).2
  dsimp only at h
  split at h
  · next x hx =>
    cases h
    exact L.good_updateWeight (f := fun x => { x with theWeight := w, theFinal := f }) e.fits hg hx
      (fun _ => rfl) (fun _ => rfl) hpos r
  · next hx =>
    cases h
    exact L.good_updateAddDest e.fits hg _ hx hpos r

theorem good_changeWeight (hg : L.Good e.entry e.state) {w : W}
    (h : e.changeWeight r d w = .ok e') : L.Good e'.entry e'.state := by
  unfold changeWeight at h
  split at h
  · cases h
  split at h
  · cases h
  next hr =>
  split at h
  · next x hx =>
    cases h
    exact L.good_updateWeight (f := fun x => { x with theWeight := w }) e.fits hg hx (fun _ => rfl)
      (fun _ => rfl) (not_le.mp hr) r
  · cases h

theorem good_remove (hg : L.Good e.entry e.state) (r : P.Reading) (d : String) :
    L.Good (e.remove r d).2.entry (e.remove r d).2.state := by
  unfold remove
  split
  · next x hx => exact L.good_updateDelDest e.fits hg hx r
  · exact hg

theorem good_operator (hg : L.Good e.entry e.state) (h : e.operator r = .ok (d, e')) :
    (e.entry.find d).isSome ∧ L.Good e'.entry e'.state := by
  unfold operator at h
  split at h
  · next hs =>
    cases h
    exact L.good_operator e.fits hg hs
  · cases h

theorem good_step (hg : L.Good e.entry e.state) (c : Call P) :
    L.Good (e.step c).entry (e.step c).state := by
  cases c with
  | change r d w f =>
    rw [step]
    cases hok : e.change r d w f with
    | ok e' => exact good_change hg hok
    | error err => exact hg
  | changeWeight r d w =>
    rw [step]
    cases hok : e.changeWeight r d w with
    | ok e' => exact good_changeWeight hg hok
    | error err => exact hg
  | remove r d => exact good_remove hg r d
  | operator r =>
    rw [step]
    cases hok : e.operator r with
    | ok x => exact (good_operator hg hok).2
    | error err => exact hg

end PolicyEntry

namespace TypedTable

/-- All entries of the table are good. -/
def Good (t : TypedTable P) : Prop :=
  ∀ (l : String) (e : PolicyEntry P), t.theTable[l]? = some e → L.Good e.entry e.state

variable {L} {t : TypedTable P} {l : String}

theorem good_new : (new : TypedTable P).Good L := by
  intro l e h
  simp [new] at h

theorem Good.setEntry (h : t.Good L) {e : PolicyEntry P} (he : L.Good e.entry e.state) (l : String) :
    (t.setEntry l e).Good L := by
  intro l' e' hl'
  rw [TypedTable.setEntry, Maps.lookup_insert] at hl'
  split at hl'
  · cases hl'
    exact he
  · exact h l' e' hl'

theorem Good.eraseEntry (h : t.Good L) (l : String) : (t.eraseEntry l).Good L := by
  intro l' e' hl'
  rw [TypedTable.eraseEntry, Maps.lookup_erase] at hl'
  split at hl'
  · cases hl'
  · exact h l' e' hl'

theorem Good.remove (h : t.Good L) (r : P.Reading) (l d : String) : (t.remove r l d).Good L := by
  unfold TypedTable.remove
  cases he : t.theTable[l]? with
  | none => exact h
  | some e =>
    dsimp only
    split
    · exact h.eraseEntry l
    · exact h.setEntry (PolicyEntry.good_remove (h l e he) r d) l

/-- A choice of the table is one of the entry of the lambda. -/
theorem operator_of_ok {t' : TypedTable P} {d : String} {r : P.Reading}
    (hok : TypedTable.operator r l t = .ok d t') :
    ∃ e s, t.theTable[l]? = some e ∧ P.operator r e.entry e.state = .ok (d, s) := by
  unfold TypedTable.operator at hok
  split at hok
  · cases hok
  next e he =>
  split at hok
  · next d' e' hop =>
    unfold PolicyEntry.operator at hop
    split at hop
    · next d'' s hs =>
      cases hop
      cases hok
      exact ⟨e, s, he, hs⟩
    · cases hop
  · cases hok

/-- The destination chosen is in the table. -/
theorem Good.operator (h : t.Good L) {r : P.Reading} {d : String} {t' : TypedTable P}
    (hok : TypedTable.operator r l t = .ok d t') :
    (t.plain.find l d).isSome ∧ t'.Good L := by
  unfold TypedTable.operator at hok
  cases he : t.theTable[l]? with
  | none =>
    rw [he] at hok
    cases hok
  | some e =>
    rw [he] at hok
    dsimp only at hok
    cases hop : e.operator r with
    | error err =>
      rw [hop] at hok
      cases hok
    | ok x =>
      rw [hop] at hok
      cases hok
      obtain ⟨hlisted, hgood⟩ := PolicyEntry.good_operator (h l e he) hop
      have hplain : t.plain.theTable[l]? = some e.entry := by rw [plain_getElem?, he, Option.map_some]
      rw [ForwardingTable.find_of_entry hplain]
      exact ⟨hlisted, h.setEntry hgood l⟩

theorem Good.changeWeight (h : t.Good L) (r : P.Reading) (l d : String) (w : W) :
    (after (TypedTable.changeWeight r l d w) t).Good L := by
  unfold after TypedTable.changeWeight
  split_ifs
  · exact h
  · exact h
  cases he : t.theTable[l]? with
  | none => exact h
  | some e =>
    dsimp only
    cases hok : e.changeWeight r d w with
    | error err => exact h
    | ok e' => exact h.setEntry (PolicyEntry.good_changeWeight (h l e he) hok) l

theorem Good.change (h : t.Good L) (r : P.Reading) (l d : String) (w : W) (f : Bool) :
    (after (TypedTable.change r l d w f) t).Good L := by
  have hrow : L.Good ((t.theTable[l]?).getD .new).entry ((t.theTable[l]?).getD .new).state := by
    cases he : t.theTable[l]? with
    | none => exact L.good_init
    | some e => exact h l e he
  unfold after TypedTable.change
  split_ifs
  · exact h
  dsimp only
  cases hok : ((t.theTable[l]?).getD .new).change r d w f with
  | error err => exact h.setEntry hrow l
  | ok e' => exact h.setEntry (PolicyEntry.good_change hrow hok) l

theorem Good.multiply [Mul W] (h : t.Good L) (r : P.Reading) (l d : String) (w : W) :
    (after (TypedTable.multiply r l d w) t).Good L := by
  unfold after TypedTable.multiply
  split_ifs
  · exact h
  · exact h
  cases he : t.theTable[l]? with
  | none => exact h
  | some e =>
    dsimp only
    cases e.entry.weight d with
    | error err => exact h
    | ok v =>
      dsimp only
      cases hok : e.changeWeight r d (v * w) with
      | error err => exact h
      | ok e' => exact h.setEntry (PolicyEntry.good_changeWeight (h l e he) hok) l

/-- Every call keeps the entries good. -/
theorem Good.step [Mul W] (h : t.Good L) (c : Call P) : (t.step c).Good L := by
  cases c with
  | change r l d w f => exact h.change r l d w f
  | changeWeight r l d w => exact h.changeWeight r l d w
  | multiply r l d w => exact h.multiply r l d w
  | remove r l d => exact h.remove r l d
  | removeLambda l => exact h.eraseEntry l
  | operator r l =>
    rw [TypedTable.step, run]
    obtain ⟨d, t', hok, -⟩ | ⟨⟨err, herr⟩, -⟩ := t.operator_cases r l
    · rw [after, bind_of_ok hok]
      exact (h.operator hok).2
    · rw [after, bind_of_error herr]
      exact h

end TypedTable

end Tables

namespace TypedTable

variable {W : Type} [Field W] [LinearOrder W] [IsStrictOrderedRing W]

/-- The iterator of a least-impedance entry is at an element of its list. The entries
of the other types have none. -/
def EntryType.Designates (num : Numerics W) (theAlpha theBeta : W) :
    (aType : EntryType) → PolicyEntry (aType.policy num theAlpha theBeta) → Prop
  | .LeastImpedance, e => e.entry.empty = false →
    ∃ d, EntryLeastImpedance.State.theMinElement e.state = .element d ∧ (e.entry.find d).isSome
  | _, _ => True

/-- Then a listed destination is chosen, whatever the memory holds. -/
theorem EntryType.operator_listed {num : Numerics W} {theAlpha theBeta : W} {aType : EntryType}
    {t t' : TypedTable (aType.policy num theAlpha theBeta)} {l d : String}
    {r : (aType.policy num theAlpha theBeta).Reading}
    (hgood : ∀ h, t.Good (aType.lists num theAlpha theBeta h))
    (hmin : ∀ e, t.theTable[l]? = some e → aType.Designates num theAlpha theBeta e)
    (hok : TypedTable.operator r l t = .ok d t') : (t.plain.find l d).isSome := by
  by_cases htype : aType = .LeastImpedance
  · subst htype
    obtain ⟨e, s, he, hop⟩ := operator_of_ok hok
    have hplain : t.plain.theTable[l]? = some e.entry := by rw [plain_getElem?, he, Option.map_some]
    rw [ForwardingTable.find_of_entry hplain]
    exact EntryLeastImpedance.operator_listed (hmin e he) hop
  · exact ((hgood htype).operator hok).1

end TypedTable

end ServerlessEdge.Forwarding
