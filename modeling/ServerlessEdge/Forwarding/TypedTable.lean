import ServerlessEdge.Library.Rows
import ServerlessEdge.Library.Runs
import ServerlessEdge.Forwarding.Entries
import ServerlessEdge.Forwarding.EntryRoundRobin
import ServerlessEdge.Forwarding.ForwardingTable
import Mathlib.Algebra.Order.Ring.Rat
import Mathlib.Data.List.Induction

/-! The forwarding table with the entries of its type, which choose among their
destinations. Without their states it is the table of weights and flags. -/
namespace ServerlessEdge.Forwarding
open Library Triple
open Std (ExtTreeMap)

/-- The destinations of an entry, with their weights and flags. -/
def Entry.destinations {W : Type} (e : Entry W) : ExtTreeMap String (W × Bool) :=
  e.theDestinations.foldl
    (fun myDestinations x => myDestinations.insertIfNew x.theDestination (x.theWeight, x.theFinal)) ∅

theorem Entry.destinations_lookup {W : Type} (e : Entry W) (d : String) :
    e.destinations[d]? = (e.find d).map fun x => (x.theWeight, x.theFinal) := by
  have hfold (l : List (Element W)) (m : ExtTreeMap String (W × Bool)) :
      (l.foldl (fun myDestinations x => myDestinations.insertIfNew x.theDestination
        (x.theWeight, x.theFinal)) m)[d]? =
        (m[d]?).or ((l.find? fun x => x.theDestination = d).map
          fun x => (x.theWeight, x.theFinal)) := by
    induction l generalizing m with
    | nil => simp
    | cons x l ih =>
      rw [List.foldl_cons, ih, Maps.lookup_emplace, List.find?_cons]
      by_cases hx : d = x.theDestination
      · subst hx
        cases m[x.theDestination]? <;> simp
      · simp [hx, Ne.symm hx]
  rw [destinations, hfold]
  simp [find]

/-- No destination is shown exactly if there is none. -/
theorem Entry.destinations_eq_nil_iff {W : Type} (e : Entry W) :
    e.destinations.toList = [] ↔ e.empty = true := by
  rw [Entry.empty_iff, ExtTreeMap.toList_eq_nil_iff]
  constructor
  · intro h d
    have hd := e.destinations_lookup d
    rw [h, ExtTreeMap.getElem?_empty, eq_comm, Option.map_eq_none_iff] at hd
    exact hd
  · intro h
    apply ExtTreeMap.ext_getElem?
    intro d
    rw [e.destinations_lookup, h, Option.map_none, ExtTreeMap.getElem?_empty]

structure TypedTable {W : Type} [Zero W] [LinearOrder W] (P : Policy W) where
  theTable : ExtTreeMap String (PolicyEntry P)

namespace TypedTable

variable {W : Type} [Zero W] [LinearOrder W] {P : Policy W}

def new : TypedTable P := ⟨∅⟩

def setEntry (t : TypedTable P) (aLambda : String) (e : PolicyEntry P) : TypedTable P :=
  ⟨t.theTable.insert aLambda e⟩

def eraseEntry (t : TypedTable P) (aLambda : String) : TypedTable P := ⟨t.theTable.erase aLambda⟩

def lambdas (t : TypedTable P) : List String := t.theTable.keys

/-- The destinations of all the lambdas that have any. -/
def fullTable (t : TypedTable P) : ExtTreeMap String (ExtTreeMap String (W × Bool)) :=
  t.theTable.toList.foldl (fun myRet myEntry =>
    myEntry.2.entry.destinations.toList.foldl (fun myRet myDestination =>
      Rows.put myRet myEntry.1 myDestination.1 myDestination.2) myRet) ∅

/-- Add a destination or overwrite its weight and flag. The row of a new lambda
is created before the entry checks its arguments, and stays if they are refused. -/
def change (r : P.Reading) (aLambda aDest : String) (aWeight : W) (aFinal : Bool) :
    EStateM (TableError W) (TypedTable P) Unit := fun t =>
  if aWeight < 0 then .error (.invalidWeight aWeight) t
  else
    let myEntry := (t.theTable[aLambda]?).getD .new
    match myEntry.change r aDest aWeight aFinal with
    | .ok e => .ok () (t.setEntry aLambda e)
    | .error err => .error err (t.setEntry aLambda myEntry)

/-- Change the weight of a listed destination. -/
def changeWeight (r : P.Reading) (aLambda aDest : String) (aWeight : W) :
    EStateM (TableError W) (TypedTable P) Unit := fun t =>
  if aDest = "" then .error (.noDestinations none) t
  else if aWeight < 0 then .error (.invalidWeight aWeight) t
  else match t.theTable[aLambda]? with
    | none => .error (.noDestinations none) t
    | some myEntry => match myEntry.changeWeight r aDest aWeight with
      | .ok e => .ok () (t.setEntry aLambda e)
      | .error err => .error err t

/-- Multiply the weight of a listed destination. -/
def multiply [Mul W] (r : P.Reading) (aLambda aDest : String) (aFactor : W) :
    EStateM (TableError W) (TypedTable P) Unit := fun t =>
  if aDest = "" then .error (.noDestinations none) t
  else if aFactor ≤ 0 then .error (.invalidWeightFactor aFactor) t
  else match t.theTable[aLambda]? with
    | none => .error (.noDestinations none) t
    | some myEntry => match myEntry.entry.weight aDest with
      | .error err => .error err t
      | .ok myWeight => match myEntry.changeWeight r aDest (myWeight * aFactor) with
        | .ok e => .ok () (t.setEntry aLambda e)
        | .error err => .error err t

/-- Remove one destination, and the row of its lambda once that is empty. -/
def remove (r : P.Reading) (t : TypedTable P) (aLambda aDest : String) : TypedTable P :=
  match t.theTable[aLambda]? with
  | none => t
  | some myEntry =>
    let e := (myEntry.remove r aDest).2
    if e.empty then t.eraseEntry aLambda else t.setEntry aLambda e

/-- Remove all the destinations of a lambda. -/
def removeLambda (t : TypedTable P) (aLambda : String) : TypedTable P := t.eraseEntry aLambda

/-- Choose a destination of a lambda. -/
def operator (r : P.Reading) (aLambda : String) : EStateM (TableError W) (TypedTable P) String :=
  fun t => match t.theTable[aLambda]? with
    | none => .error (.noDestinations none) t
    | some myEntry => match myEntry.operator r with
      | .ok (aDest, e) => .ok aDest (t.setEntry aLambda e)
      | .error err => .error err t

/-- The weights and flags alone. -/
def plain (t : TypedTable P) : ForwardingTable W := ⟨t.theTable.map fun _ e => e.entry⟩

/-- What an operation makes of the weights and flags. -/
def plainResult {α : Type} : EStateM.Result (TableError W) (TypedTable P) α →
    EStateM.Result (TableError W) (ForwardingTable W) α
  | .ok a t => .ok a t.plain
  | .error err t => .error err t.plain

theorem plain_getElem? (t : TypedTable P) (l : String) :
    t.plain.theTable[l]? = (t.theTable[l]?).map PolicyEntry.entry := by
  rw [plain, ExtTreeMap.getElem?_map]

theorem mem_plain (t : TypedTable P) (l : String) : l ∈ t.plain.theTable ↔ l ∈ t.theTable :=
  ExtTreeMap.mem_map

theorem plain_setEntry (t : TypedTable P) (l : String) (e : PolicyEntry P) :
    (t.setEntry l e).plain = t.plain.setEntry l e.entry := by
  rw [ForwardingTable.setEntry, plain, setEntry, ForwardingTable.mk.injEq]
  apply ExtTreeMap.ext_getElem?
  intro k
  rw [ExtTreeMap.getElem?_map, Maps.lookup_insert, Maps.lookup_insert, plain_getElem?]
  split <;> rfl

theorem plain_eraseEntry (t : TypedTable P) (l : String) :
    (t.eraseEntry l).plain = t.plain.eraseEntry l := by
  rw [ForwardingTable.eraseEntry, plain, eraseEntry, ForwardingTable.mk.injEq]
  apply ExtTreeMap.ext_getElem?
  intro k
  rw [ExtTreeMap.getElem?_map, Maps.lookup_erase, Maps.lookup_erase, plain_getElem?]
  split <;> rfl

theorem plain_getD (t : TypedTable P) (l : String) :
    (t.plain.theTable[l]?).getD .new = ((t.theTable[l]?).getD .new).entry := by
  rw [plain_getElem?]
  cases t.theTable[l]? <;> rfl

/-- Each operation is the one on the weights and flags. -/
theorem plain_change (r : P.Reading) (l d : String) (w : W) (f : Bool) (t : TypedTable P) :
    plainResult (change r l d w f t) = ForwardingTable.change l d w f t.plain := by
  unfold change ForwardingTable.change
  split
  · rfl
  dsimp only
  rw [plain_getD, ← PolicyEntry.change_entry r]
  cases PolicyEntry.change r _ d w f with
  | ok e => simp only [plainResult, plain_setEntry, Except.map]
  | error err => simp only [plainResult, plain_setEntry, Except.map]

theorem plain_changeWeight (r : P.Reading) (l d : String) (w : W) (t : TypedTable P) :
    plainResult (changeWeight r l d w t) = ForwardingTable.changeWeight l d w t.plain := by
  unfold changeWeight ForwardingTable.changeWeight
  split
  · rfl
  split
  · rfl
  rw [plain_getElem?]
  cases t.theTable[l]? with
  | none => rfl
  | some e =>
    simp only [Option.map_some]
    rw [← PolicyEntry.changeWeight_entry r]
    cases e.changeWeight r d w with
    | ok e => simp only [plainResult, plain_setEntry, Except.map]
    | error err => simp only [plainResult, Except.map]

theorem plain_multiply [Mul W] (r : P.Reading) (l d : String) (w : W) (t : TypedTable P) :
    plainResult (multiply r l d w t) = ForwardingTable.multiply l d w t.plain := by
  unfold multiply ForwardingTable.multiply
  split
  · rfl
  split
  · rfl
  rw [plain_getElem?]
  cases t.theTable[l]? with
  | none => rfl
  | some e =>
    simp only [Option.map_some]
    cases e.entry.weight d with
    | error err => rfl
    | ok myWeight =>
      dsimp only
      rw [← PolicyEntry.changeWeight_entry r]
      cases e.changeWeight r d (myWeight * w) with
      | ok e => simp only [plainResult, plain_setEntry, Except.map]
      | error err => simp only [plainResult, Except.map]

theorem plain_remove (r : P.Reading) (t : TypedTable P) (l d : String) :
    (t.remove r l d).plain = t.plain.remove l d := by
  unfold remove ForwardingTable.remove
  rw [plain_getElem?]
  cases t.theTable[l]? with
  | none => rfl
  | some e =>
    simp only [Option.map_some]
    rw [← PolicyEntry.remove_entry r, PolicyEntry.empty]
    split
    · exact plain_eraseEntry t l
    · exact plain_setEntry t l _

/-- A choice leaves the weights and flags alone, and is made from every row that
is not empty. -/
theorem operator_cases (r : P.Reading) (l : String) (t : TypedTable P) :
    (∃ aDest t', operator r l t = .ok aDest t' ∧ t'.plain = t.plain) ∨
      (∃ err, operator r l t = .error err t) ∧
        ∀ e, t.theTable[l]? = some e → e.empty = true := by
  unfold operator
  cases he : t.theTable[l]? with
  | none => exact .inr ⟨⟨_, rfl⟩, nofun⟩
  | some e =>
    dsimp only
    obtain ⟨hempty, hop⟩ | ⟨_, aDest, e', hop, hentry⟩ := e.operator_cases r
    · refine .inr ⟨⟨_, by rw [hop]⟩, ?_⟩
      rintro _ ⟨⟩
      exact hempty
    · refine .inl ⟨aDest, t.setEntry l e', by rw [hop], ?_⟩
      rw [plain_setEntry, hentry, ForwardingTable.setEntry_self]
      rw [plain_getElem?, he, Option.map_some]

/-- No row is empty. -/
def Full (t : TypedTable P) : Prop :=
  ∀ (l : String) (e : PolicyEntry P), t.theTable[l]? = some e → e.empty = false

theorem full_new : (new : TypedTable P).Full := by
  intro l e h
  simp [new] at h

theorem full_iff (t : TypedTable P) : t.Full ↔ t.plain.Full := by
  constructor
  · intro h l e he
    rw [plain_getElem?, Option.map_eq_some_iff] at he
    obtain ⟨e', he', rfl⟩ := he
    exact h l e' he'
  · intro h l e he
    exact h l e.entry (by rw [plain_getElem?, he, Option.map_some])

theorem mem_lambdas (t : TypedTable P) (l : String) : l ∈ t.lambdas ↔ l ∈ t.theTable :=
  ExtTreeMap.mem_keys

/-- The full table has a row for each lambda that has a destination. -/
theorem mem_fullTable (t : TypedTable P) (l : String) :
    l ∈ t.fullTable ↔ ∃ e, t.theTable[l]? = some e ∧ e.empty = false := by
  have hrow (m : ExtTreeMap String (ExtTreeMap String (W × Bool))) (k : String)
      (row : List (String × W × Bool)) :
      l ∈ row.foldl (fun myRet p => Rows.put myRet k p.1 p.2) m ↔ l = k ∧ row ≠ [] ∨ l ∈ m := by
    induction row generalizing m with
    | nil => simp
    | cons p row ih =>
      rw [List.foldl_cons, ih, Rows.put, Maps.mem_insert]
      simp only [ne_eq, reduceCtorEq, not_false_eq_true, and_true]
      tauto
  have hrows (rows : List (String × PolicyEntry P))
      (m : ExtTreeMap String (ExtTreeMap String (W × Bool))) :
      l ∈ rows.foldl (fun myRet p => p.2.entry.destinations.toList.foldl (fun myRet d =>
        Rows.put myRet p.1 d.1 d.2) myRet) m ↔
        (∃ p ∈ rows, l = p.1 ∧ p.2.empty = false) ∨ l ∈ m := by
    induction rows generalizing m with
    | nil => simp
    | cons p rows ih =>
      rw [List.foldl_cons, ih, hrow, List.exists_mem_cons_iff, Ne, Entry.destinations_eq_nil_iff,
        Bool.not_eq_true, PolicyEntry.empty, ← or_assoc]
      exact or_congr_left or_comm
  rw [fullTable, hrows]
  constructor
  · rintro (⟨p, hp, rfl, he⟩ | hl)
    · exact ⟨p.2, Maps.mem_toList.mp hp, he⟩
    · exact absurd hl ExtTreeMap.not_mem_empty
  · rintro ⟨e, he, hempty⟩
    exact .inl ⟨(l, e), Maps.mem_toList.mpr he, rfl, hempty⟩

/-- The lambdas of the table are those with destinations, and a destination can
be chosen for each of them. -/
structure Sound (t : TypedTable P) : Prop where
  full : t.Full
  listed (l : String) : l ∈ t.lambdas ↔ l ∈ t.fullTable
  chooses (l : String) (hl : l ∈ t.lambdas) (r : P.Reading) :
    ∃ aDest t', operator r l t = .ok aDest t'

theorem sound_iff (t : TypedTable P) : t.Sound ↔ t.Full := by
  refine ⟨Sound.full, fun h => ⟨h, fun l => ?_, fun l hl r => ?_⟩⟩
  · rw [mem_lambdas, mem_fullTable]
    constructor
    · intro hl
      obtain ⟨e, he⟩ := Maps.lookup_of_mem hl
      exact ⟨e, he, h l e he⟩
    · rintro ⟨e, he, _⟩
      exact Maps.mem_of_lookup he
  · obtain ⟨e, he⟩ := Maps.lookup_of_mem ((t.mem_lambdas l).mp hl)
    obtain ⟨aDest, t', hok, _⟩ | ⟨_, hempty⟩ := t.operator_cases r l
    · exact ⟨aDest, t', hok⟩
    · have hne := h l e he
      rw [hempty e he] at hne
      cases hne

theorem plain_after {m : EStateM (TableError W) (TypedTable P) Unit}
    {m' : EStateM (TableError W) (ForwardingTable W) Unit} {t : TypedTable P}
    (h : plainResult (m t) = m' t.plain) : (after m t).plain = after m' t.plain := by
  rw [after, after, ← h]
  cases m t <;> rfl

section Calls

variable [Mul W]

/-- A call of the table, with what it reads from outside. -/
inductive Call (P : Policy W) where
  | change (r : P.Reading) (aLambda aDest : String) (aWeight : W) (aFinal : Bool)
  | changeWeight (r : P.Reading) (aLambda aDest : String) (aWeight : W)
  | multiply (r : P.Reading) (aLambda aDest : String) (aFactor : W)
  | remove (r : P.Reading) (aLambda aDest : String)
  | removeLambda (aLambda : String)
  | operator (r : P.Reading) (aLambda : String)

def run : Call P → EStateM (TableError W) (TypedTable P) Unit
  | .change r aLambda aDest aWeight aFinal => change r aLambda aDest aWeight aFinal
  | .changeWeight r aLambda aDest aWeight => changeWeight r aLambda aDest aWeight
  | .multiply r aLambda aDest aFactor => multiply r aLambda aDest aFactor
  | .remove r aLambda aDest => modify fun t => t.remove r aLambda aDest
  | .removeLambda aLambda => modify fun t => t.removeLambda aLambda
  | .operator r aLambda => do
    let _ ← operator r aLambda

/-- The table after a call, whether that throws or not. -/
def step (t : TypedTable P) (c : Call P) : TypedTable P := after (run c) t

/-- If the call throws, the table is as it was. -/
def Atomic (t : TypedTable P) (c : Call P) : Prop :=
  ∀ err t', run c t = .error err t' → t' = t

/-- The call adds a destination to a lambda that is not in the table, with
arguments that the table accepts and the new entry refuses. -/
def Slips (t : TypedTable P) : Call P → Prop
  | .change _ aLambda aDest aWeight _ =>
    aLambda ∉ t.lambdas ∧ 0 ≤ aWeight ∧ (aDest = "" ∨ aWeight = 0)
  | _ => False

/-- A call adds a pair only if it changes that pair and is not refused. -/
theorem flags_step (t : TypedTable P) (c : Call P) (p : String × String) :
    (t.step c).plain.flags p = t.plain.flags p ∨ (t.step c).plain.flags p = none ∨
      ∃ r l d w f, c = .change r l d w f ∧ p = (l, d) ∧ ¬ ForwardingTable.Refused d w := by
  rw [step]
  cases c with
  | change r l d w f =>
    rw [run, plain_after (plain_change r l d w f t), after]
    obtain ⟨-, err, t', hrun, hflags⟩ | ⟨haccepted, t', hrun, hflags⟩ :=
      ForwardingTable.change_cases t.plain l d w f
    · rw [hrun]
      exact .inl (congrFun hflags p)
    · by_cases hp : p = (l, d)
      · exact .inr (.inr ⟨r, l, d, w, f, rfl, hp, haccepted⟩)
      · rw [hrun, hflags, Function.update_of_ne hp]
        exact .inl rfl
  | changeWeight r l d w =>
    obtain ⟨t', hrun | ⟨err, hrun⟩, hflags⟩ := ForwardingTable.changeWeight_cases t.plain l d w
    all_goals
      rw [run, plain_after (plain_changeWeight r l d w t), after, hrun]
      exact .inl (congrFun hflags p)
  | multiply r l d w =>
    obtain ⟨t', hrun | ⟨err, hrun⟩, hflags⟩ := ForwardingTable.multiply_cases t.plain l d w
    all_goals
      rw [run, plain_after (plain_multiply r l d w t), after, hrun]
      exact .inl (congrFun hflags p)
  | remove r l d =>
    change (t.remove r l d).plain.flags p = _ ∨ (t.remove r l d).plain.flags p = none ∨ _
    rw [plain_remove, ForwardingTable.flags_remove, Function.update_apply]
    split
    · exact .inr (.inl rfl)
    · exact .inl rfl
  | removeLambda l =>
    change (t.eraseEntry l).plain.flags p = _ ∨ (t.eraseEntry l).plain.flags p = none ∨ _
    rw [plain_eraseEntry, ← ForwardingTable.removeLambda, ForwardingTable.flags_removeLambda]
    split
    · exact .inr (.inl rfl)
    · exact .inl rfl
  | operator r l =>
    refine .inl ?_
    obtain ⟨aDest, t', hok, hplain⟩ | ⟨⟨err, herr⟩, -⟩ := t.operator_cases r l
    · rw [run, after, bind_of_ok hok]
      exact congrArg (fun t => t.flags p) hplain
    · rw [run, after, bind_of_error herr]

/-- From a table without empty rows a call makes one exactly if it slips. -/
theorem full_step_iff {t : TypedTable P} (h : t.Full) (c : Call P) :
    (step t c).Full ↔ ¬ t.Slips c := by
  rw [full_iff] at h
  rw [full_iff, step]
  cases c with
  | change r l d w f =>
    rw [run, plain_after (plain_change r l d w f t), ForwardingTable.full_change_iff h]
    apply not_congr
    rw [ForwardingTable.Slips, Slips, t.mem_plain, not_lt, t.mem_lambdas]
    constructor
    · rintro ⟨hw, hr, hl⟩
      exact ⟨hl, hw, hr.imp_right fun h => le_antisymm h hw⟩
    · rintro ⟨hl, hw, hr⟩
      exact ⟨hw, hr.imp_right le_of_eq, hl⟩
  | changeWeight r l d w =>
    rw [run, plain_after (plain_changeWeight r l d w t)]
    exact iff_of_true (ForwardingTable.full_changeWeight h l d w) not_false
  | multiply r l d w =>
    rw [run, plain_after (plain_multiply r l d w t)]
    exact iff_of_true (ForwardingTable.full_multiply h l d w) not_false
  | remove r l d =>
    refine iff_of_true ?_ not_false
    change (t.remove r l d).plain.Full
    rw [plain_remove]
    exact ForwardingTable.full_remove h l d
  | removeLambda l =>
    refine iff_of_true ?_ not_false
    change (t.eraseEntry l).plain.Full
    rw [plain_eraseEntry]
    exact ForwardingTable.full_eraseEntry h l
  | operator r l =>
    refine iff_of_true ?_ not_false
    obtain ⟨aDest, t', hok, hplain⟩ | ⟨⟨err, herr⟩, _⟩ := t.operator_cases r l
    · rw [after, run, bind_of_ok hok]
      change t'.plain.Full
      rw [hplain]
      exact h
    · rw [after, run, bind_of_error herr]
      exact h

/-- A call that does not slip is atomic. -/
theorem atomic_of_not_slips {t : TypedTable P} {c : Call P} (h : ¬ t.Slips c) : t.Atomic c := by
  intro err t' herr
  cases c with
  | change r l d w f =>
    rw [run, change] at herr
    split at herr
    · cases herr
      rfl
    next hw =>
    dsimp only at herr
    split at herr
    · cases herr
    next err' hchange =>
    have hl : l ∈ t.theTable := by
      by_contra hl
      have hrefused := PolicyEntry.refused_of_error hchange
      refine h ⟨(t.mem_lambdas l).not.mpr hl, not_lt.mp hw, hrefused.imp_right ?_⟩
      exact fun hle => le_antisymm hle (not_lt.mp hw)
    obtain ⟨e, he⟩ := Maps.lookup_of_mem hl
    cases herr
    rw [he, Option.getD_some, setEntry, Maps.insert_self he]
  | changeWeight r l d w =>
    rw [run, changeWeight] at herr
    split at herr
    · cases herr
      rfl
    split at herr
    · cases herr
      rfl
    split at herr
    · cases herr
      rfl
    split at herr
    · cases herr
    · cases herr
      rfl
  | multiply r l d w =>
    rw [run, multiply] at herr
    split at herr
    · cases herr
      rfl
    split at herr
    · cases herr
      rfl
    split at herr
    · cases herr
      rfl
    split at herr
    · cases herr
      rfl
    split at herr
    · cases herr
    · cases herr
      rfl
  | remove r l d => cases herr
  | removeLambda l => cases herr
  | operator r l =>
    obtain ⟨aDest, t₁, hok, _⟩ | ⟨⟨err', herr'⟩, _⟩ := t.operator_cases r l
    · rw [run, bind_of_ok hok] at herr
      cases herr
    · rw [run, bind_of_error herr'] at herr
      cases herr
      rfl

end Calls

/-- The type of a table says which entries it has. -/
inductive EntryType where
  | Random | LeastImpedance | RoundRobin | ProportionalFairness
  deriving DecidableEq, Repr

/-- What the entries take from elsewhere: the summary statistic, the power
function and the largest number. -/
structure Numerics (W : Type) [LinearOrder W] where
  aStat : SummaryStat W
  pow : W → W → W
  theMax : W

section Types

variable {W : Type} [Field W] [LinearOrder W] [IsStrictOrderedRing W]

def EntryType.policy (num : Numerics W) (theAlpha theBeta : W) : EntryType → Policy W
  | .Random => EntryRandom.policy
  | .LeastImpedance => EntryLeastImpedance.policy
  | .RoundRobin => EntryRoundRobin.policy num.aStat num.theMax
  | .ProportionalFairness => EntryProportionalFairness.policy num.pow theAlpha theBeta

end Types

private theorem foldl_concat {α : Type} (ws : List α) :
    ws.foldl (fun s w => s ++ [w]) [] = ws := by
  induction ws using List.reverseRecOn with
  | nil => rfl
  | append_singleton ws w ih => rw [List.foldl_append, ih, List.foldl_cons, List.foldl_nil]

/-- Exact numbers; the power function is of no importance here. -/
def rationals : Numerics ℚ where
  aStat := {
    State := List ℚ
    reset := []
    record := fun w ws => ws ++ [w]
    count := List.length
    min := fun ws => (ws.min?).getD 0
    count_record := fun ws => by rw [foldl_concat]
    min_record := fun ws w hw => by rw [foldl_concat, Option.mem_def.mp hw, Option.getD_some] }
  pow := fun a _ => a
  theMax := 1000000

end TypedTable
end ServerlessEdge.Forwarding
