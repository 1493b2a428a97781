import ServerlessEdge.Library.RowEntries
import ServerlessEdge.Forwarding.EdgeRouter
import ServerlessEdge.Forwarding.TypedTable

/-! What a client of the server of the tables reads in them, after the commands of all clients and
what the router itself does to them. -/
namespace ServerlessEdge.Forwarding
open Std Library Rows

variable {W : Type}

/-- An entry of the message that holds a table. -/
structure RpcEntry (W : Type) where
  lambda : String
  destination : String
  weight : W
  final : Bool
  deriving DecidableEq, Repr

/-- The destinations of all the lambdas that have any. -/
def ForwardingTable.fullTable (t : ForwardingTable W) :
    ExtTreeMap String (ExtTreeMap String (W × Bool)) :=
  t.theTable.toList.foldl (fun myRet myEntry =>
    myEntry.2.destinations.toList.foldl (fun myRet myDestination =>
      put myRet myEntry.1 myDestination.1 myDestination.2) myRet) ∅

namespace ForwardingTableServer

/-- The rows of a table, and none if there is no such table. -/
def GetTable (theTables : List (ForwardingTable W)) (aTableId : ℕ) : List (RpcEntry W) :=
  match theTables[aTableId]? with
  | none => []
  | some t => t.fullTable.toList.flatMap fun myRow =>
    myRow.2.toList.map fun myDestination =>
      ⟨myRow.1, myDestination.1, myDestination.2.1, myDestination.2.2⟩

def GetNumTables (theTables : List (ForwardingTable W)) : ℕ := theTables.length % 2 ^ 32

end ForwardingTableServer

namespace ForwardingTableServer

theorem length_forTables {T ε : Type} (f : ℕ → EStateM ε T Unit) (i : ℕ) (ts : List T) :
    match forTables f i ts with
    | .ok _ ts' => ts'.length = ts.length
    | .error _ ts' => ts'.length = ts.length := by
  induction ts generalizing i with
  | nil => rfl
  | cons t ts ih =>
    have ih := ih (i + 1)
    rw [forTables]
    cases f i t with
    | error err t' => rfl
    | ok _ t' =>
      dsimp only
      cases hrest : forTables f (i + 1) ts <;> rw [hrest] at ih <;> exact congrArg (· + 1) ih

theorem length_Configure {T : Type} [ForwardingTableInterface T W] [ToString W] (ts : List T)
    (q : EdgeRouterConf W) : (Configure ts q).2.length = ts.length := by
  have hlength := length_forTables (apply q ts.length) 0 ts
  rw [Configure]
  split
  · rfl
  · cases hrun : forTables (apply q ts.length) 0 ts <;> rw [hrun] at hlength <;> exact hlength

end ForwardingTableServer

namespace ForwardingTableClient
open ForwardingTableServer

def numTables (theTables : List (ForwardingTable W)) : ℕ := GetNumTables theTables

/-- The first entry of a lambda makes its row. -/
def addEntry (myTable : ExtTreeMap String (ExtTreeMap String (W × Bool))) (e : RpcEntry W) :
    ExtTreeMap String (ExtTreeMap String (W × Bool)) :=
  match myTable[e.lambda]? with
  | none => myTable.insert e.lambda
    ((∅ : ExtTreeMap String (W × Bool)).insert e.destination (e.weight, e.final))
  | some r => myTable.insert e.lambda (r.insertIfNew e.destination (e.weight, e.final))

/-- The identifier goes into a field of 32 bits. -/
def table (theTables : List (ForwardingTable W)) (aTableId : ℕ) :
    ExtTreeMap String (ExtTreeMap String (W × Bool)) :=
  (GetTable theTables (aTableId % 2 ^ 32)).foldl addEntry ∅

def flush [Zero W] : EdgeRouterConf W := ⟨.FLUSH, "", "", 0, false⟩

def change (aLambda aDestination : String) (aWeight : W) (aFinal : Bool) : EdgeRouterConf W :=
  ⟨.CHANGE, aLambda, aDestination, aWeight, aFinal⟩

def remove [Zero W] (aLambda aDestination : String) : EdgeRouterConf W :=
  ⟨.REMOVE, aLambda, aDestination, 0, false⟩

/-- The client does not look at the reply, whatever it says. -/
def send [Zero W] [LT W] [LE W] [DecidableLT W] [DecidableLE W] [ToString W]
    (theTables : List (ForwardingTable W)) (aReq : EdgeRouterConf W) : List (ForwardingTable W) :=
  (Configure theTables aReq).2

end ForwardingTableClient

namespace ForwardingTable
open ForwardingTableServer

variable {t : ForwardingTable W} {l d : String}

theorem fullTable_eq (t : ForwardingTable W) : t.fullTable =
    (entries (t.theTable.map fun _ e => e.destinations)).foldl (fun m x => put m x.1 x.2.1 x.2.2) ∅ := by
  rw [fullTable, entries, ExtTreeMap.toList_map, List.flatMap_map, List.foldl_flatMap]
  simp only [List.foldl_map]

theorem full_fullTable (t : ForwardingTable W) : Rows.Full t.fullTable := by
  rw [fullTable_eq]
  exact full_foldl (fun m x h => h.put x.1 x.2.1 x.2.2) full_empty

/-- The full table shows each pair of the table with its weight and its flag. -/
theorem lookup_fullTable (t : ForwardingTable W) (l d : String) :
    lookup t.fullTable l d = (t.find l d).map fun x => (x.theWeight, x.theFinal) := by
  rw [fullTable_eq, lookup_puts_entries, lookup, ExtTreeMap.getElem?_map, find]
  cases t.theTable[l]? with
  | none => rfl
  | some e => exact e.destinations_lookup d

end ForwardingTable

namespace ForwardingTableClient
open ForwardingTableServer

/-- The client gets the table of the server, and an empty one where there is none. -/
theorem table_eq (theTables : List (ForwardingTable W)) (aTableId : ℕ) :
    table theTables aTableId = (theTables[aTableId % 2 ^ 32]?).elim ∅ ForwardingTable.fullTable := by
  rw [table, GetTable]
  cases theTables[aTableId % 2 ^ 32]? with
  | none => rfl
  | some t =>
    have hentries : (t.fullTable.toList.flatMap fun myRow => myRow.2.toList.map fun c =>
        (⟨myRow.1, c.1, c.2.1, c.2.2⟩ : RpcEntry W)) =
          (entries t.fullTable).map fun x => ⟨x.1, x.2.1, x.2.2.1, x.2.2.2⟩ := by
      rw [entries, List.map_flatMap]
      simp only [List.map_map, Function.comp_def]
    have hadd : (fun m x => addEntry (W := W) m ⟨x.1, x.2.1, x.2.2.1, x.2.2.2⟩) = emplace := by
      funext m x
      rw [addEntry, emplace]
      cases m[x.1]? <;> rfl
    dsimp only
    rw [hentries, List.foldl_map, hadd]
    exact emplaces_entries t.full_fullTable

end ForwardingTableClient

/-- What is known of each pair lambda, destination: its weight and its flag. -/
abbrev View (W : Type) := String × String → Option (W × Bool)

def ForwardingTable.view (t : ForwardingTable W) : View W :=
  fun p => (t.find p.1 p.2).map fun x => (x.theWeight, x.theFinal)

def View.remove (v : View W) (l d : String) : View W := Function.update v (l, d) none

section Views

variable [Zero W] [LT W] [LE W] [DecidableLT W] [DecidableLE W]

def View.change (v : View W) (l d : String) (w : W) (f : Bool) : View W :=
  if ForwardingTable.Refused d w then v else Function.update v (l, d) (some (w, f))

def View.changeWeight (v : View W) (l d : String) (w : W) : View W :=
  if ForwardingTable.Refused d w then v
  else Function.update v (l, d) ((v (l, d)).map fun x => (w, x.2))

namespace ForwardingTable
open Triple

omit [Zero W] [LT W] [LE W] [DecidableLT W] [DecidableLE W] in
theorem view_setEntry {t : ForwardingTable W} {l : String} {e : Entry W} {v : View W}
    (hsame : ∀ l' d, l' ≠ l → v (l', d) = t.view (l', d))
    (hrow : ∀ d, (e.find d).map (fun x => (x.theWeight, x.theFinal)) = v (l, d)) :
    (t.setEntry l e).view = v := by
  funext ⟨l', d⟩
  rw [view, find_setEntry]
  by_cases hl : l' = l
  · subst hl
    rw [if_pos rfl]
    exact hrow d
  · rw [if_neg hl]
    exact (hsame l' d hl).symm

/-- A change that is refused is not seen, even where it leaves a row behind. -/
theorem view_change (t : ForwardingTable W) (l d : String) (w : W) (f : Bool) :
    (after (change l d w f) t).view = t.view.change l d w f := by
  rw [after, change, View.change]
  by_cases hneg : w < 0
  · rw [if_pos hneg, if_pos (.inl hneg)]
  rw [if_neg hneg]
  dsimp only
  rcases Entry.change_cases ((t.theTable[l]?).getD Entry.new) d w f with ⟨hr, he⟩ | ⟨hr, e, he, hfind⟩
  · rw [he, if_pos (.inr hr)]
    refine view_setEntry (fun _ _ _ => rfl) fun d' => ?_
    rw [find_getD]
    rfl
  · have hnot : ¬ Refused d w := fun h => h.elim hneg hr
    rw [he, if_neg hnot]
    refine view_setEntry (fun l' d' hl => ?_) fun d' => ?_
    · rw [Function.update_of_ne (by simp [hl])]
    · rw [hfind, find_getD, Function.update_apply]
      by_cases hd : d' = d
      · simp [hd]
      · simp only [hd, if_false, Prod.mk.injEq, and_false]
        rfl

theorem view_changeWeight (t : ForwardingTable W) (l d : String) (w : W) :
    (after (changeWeight l d w) t).view = t.view.changeWeight l d w := by
  rw [after, changeWeight, View.changeWeight]
  by_cases hd : d = ""
  · rw [if_pos hd, if_pos (.inr (.inl hd))]
  rw [if_neg hd]
  by_cases hneg : w < 0
  · rw [if_pos hneg, if_pos (.inl hneg)]
  rw [if_neg hneg]
  cases he : t.theTable[l]? with
  | none =>
    have hnone : t.view (l, d) = none := by simp [view, find, he]
    rw [hnone, Option.map_none, ← hnone, Function.update_eq_self, ite_self]
  | some e =>
    have hrow : ∀ d', t.view (l, d') = (e.find d').map fun x => (x.theWeight, x.theFinal) := by
      intro d'
      rw [view, find_of_entry he]
    dsimp only
    rw [Entry.changeWeight, if_neg hd]
    by_cases hpos : w ≤ 0
    · rw [if_pos hpos, if_pos (.inr (.inr hpos))]
    have hnot : ¬ Refused d w := fun h => h.elim hneg fun h => h.elim hd hpos
    rw [if_neg hpos, if_neg hnot]
    cases hx : e.find d with
    | none =>
      have hnone : t.view (l, d) = none := by rw [hrow, hx, Option.map_none]
      rw [hnone, Option.map_none, ← hnone, Function.update_eq_self]
    | some x =>
      refine view_setEntry (fun l' d' hl => ?_) fun d' => ?_
      · rw [Function.update_of_ne (by simp [hl])]
      · rw [Entry.find_rewrite, Function.update_apply, hrow, hrow]
        by_cases hd' : d' = d
        · simp [hd', hx]
        · simp [hd']

omit [Zero W] [LT W] [LE W] [DecidableLT W] [DecidableLE W] in
theorem view_remove (t : ForwardingTable W) (l d : String) :
    (t.remove l d).view = t.view.remove l d := by
  funext ⟨l', d'⟩
  rw [view, find_remove, View.remove, Function.update_apply]
  simp only [Prod.mk.injEq]
  split <;> rfl

theorem view_flush (t : ForwardingTable W) : (ForwardingTableServer.flush t).view = fun _ => none := by
  funext p
  have hflags := congrFun (flags_flush t) p
  rw [flags, Option.map_eq_none_iff] at hflags
  rw [view, hflags, Option.map_none]

end ForwardingTable

namespace EdgeRouter
open ForwardingTableServer Triple

variable [ToString W]

def views (r : EdgeRouter W) : View W × View W := (r.theOverallTable.view, r.theFinalTable.view)

/-- What a command does to the overall table and to the final one, which is told of final
destinations only; the router removes where a request fails, and its optimizers re-weigh. -/
def told (v : View W × View W) : Event W → View W × View W
  | .configure q => match q.action with
    | .FLUSH => (fun _ => none, fun _ => none)
    | .CHANGE => (v.1.change q.lambda q.destination q.weight q.final,
        if q.final then v.2.change q.lambda q.destination q.weight q.final else v.2)
    | .REMOVE => (v.1.remove q.lambda q.destination, v.2.remove q.lambda q.destination)
    | .unrecognized _ => v
  | .processFailure l d => (v.1.remove l d, v.2.remove l d)
  | .optimize true l d w => (v.1, v.2.changeWeight l d w)
  | .optimize false l d w => (v.1.changeWeight l d w, v.2)

theorem views_configure (r : EdgeRouter W) (q : EdgeRouterConf W) :
    (r.configure q).views = told r.views (.configure q) := by
  cases ha : q.action with
  | FLUSH =>
    simp only [told, ha, views, configure, Configure, forTables, apply]
    rw [ForwardingTable.view_flush, ForwardingTable.view_flush]
  | REMOVE =>
    simp only [told, ha, views, r.configure_remove ha, processFailure, ForwardingTable.view_remove]
  | unrecognized v => simp only [told, ha, r.configure_unrecognized ha]
  | CHANGE =>
    have hoverall := ForwardingTable.view_change r.theOverallTable q.lambda q.destination q.weight q.final
    have hfinal := ForwardingTable.view_change r.theFinalTable q.lambda q.destination q.weight q.final
    simp only [told, ha, views, configure, Configure, forTables, apply,
      ForwardingTableInterface.change, List.length_cons, List.length_nil, true_or, or_true, if_true]
    rw [after] at hoverall hfinal
    obtain ⟨hr, err, t, hrun, -⟩ | ⟨-, t, hrun, -⟩ := ForwardingTable.change_cases r.theOverallTable
      q.lambda q.destination q.weight q.final
    · -- the final table is not told of what the overall one has refused
      have hsame : ∀ v : View W, v.change q.lambda q.destination q.weight q.final = v := by
        intro v
        rw [View.change, if_pos hr]
      rw [hrun] at hoverall
      rw [hrun]
      dsimp only at hoverall ⊢
      rw [hoverall, hsame, hsame, ite_self]
    · rw [hrun] at hoverall
      rw [hrun]
      dsimp only at hoverall ⊢
      cases hb : q.final with
      | true =>
        rw [hb] at hoverall hfinal
        rw [if_pos rfl, ← hoverall, ← hfinal]
        cases ForwardingTable.change q.lambda q.destination q.weight true r.theFinalTable <;> rfl
      | false =>
        rw [hb] at hoverall
        rw [if_neg Bool.false_ne_true, ← hoverall]
        rfl

theorem views_step (r : EdgeRouter W) (e : Event W) : (r.step e).views = told r.views e := by
  cases e with
  | configure q => exact views_configure r q
  | processFailure l d =>
    rw [told, views, step, processFailure, ForwardingTable.view_remove, ForwardingTable.view_remove]
    rfl
  | optimize f l d w =>
    cases f with
    | true =>
      have h := ForwardingTable.view_changeWeight r.theFinalTable l d w
      rw [after] at h
      rw [told, views, step, optimize, if_pos rfl]
      cases hrun : ForwardingTable.changeWeight l d w r.theFinalTable <;> rw [hrun] at h <;>
        exact congrArg _ h
    | false =>
      have h := ForwardingTable.view_changeWeight r.theOverallTable l d w
      rw [after] at h
      rw [told, views, step, optimize, if_neg Bool.false_ne_true]
      cases hrun : ForwardingTable.changeWeight l d w r.theOverallTable <;> rw [hrun] at h <;>
        exact congrArg (·, r.theFinalTable.view) h

theorem views_final (events : List (Event W)) (r : EdgeRouter W) :
    (Runs.final step r events).views = events.foldl told r.views := by
  induction events generalizing r with
  | nil => rfl
  | cons e events ih => rw [Runs.final, List.foldl_cons, List.foldl_cons, ← views_step]; exact ih _

/-- The tables in the order in which the server has them. -/
def tables (r : EdgeRouter W) : List (ForwardingTable W) := [r.theOverallTable, r.theFinalTable]

/-- A command of a client is a step of the router, refused or not. -/
theorem send_tables (r : EdgeRouter W) (q : EdgeRouterConf W) :
    ForwardingTableClient.send r.tables q = (r.configure q).tables := by
  rw [ForwardingTableClient.send, tables, tables, configure]
  have hlength : (Configure [r.theOverallTable, r.theFinalTable] q).2.length = 2 :=
    length_Configure _ _
  obtain ⟨t, u, htu⟩ := List.length_eq_two.mp hlength
  rw [htu]

end EdgeRouter

/-- The tables of a server, by their identifiers. -/
def View.ofTable (v : View W × View W) : ℕ → View W
  | 0 => v.1
  | 1 => v.2
  | _ => fun _ => none

/-- What a client reads, at any time, is what the commands of all clients, the failures and the
optimizers have left: the same pairs with the same weights and flags, and no lambda without
destinations. -/
theorem ForwardingTableClient.table_of_history [ToString W] (events : List (EdgeRouter.Event W)) (aTableId : ℕ) :
    Rows.Full (table (Runs.final EdgeRouter.step EdgeRouter.new events).tables aTableId) ∧
      ∀ l d, lookup (table (Runs.final EdgeRouter.step EdgeRouter.new events).tables aTableId) l d =
        View.ofTable (events.foldl EdgeRouter.told (fun _ => none, fun _ => none))
          (aTableId % 2 ^ 32) (l, d) := by
  have hnew : (EdgeRouter.new : EdgeRouter W).views = (fun _ => none, fun _ => none) := by
    simp [EdgeRouter.views, EdgeRouter.new, funext_iff, ForwardingTable.view, ForwardingTable.new,
      ForwardingTable.find]
  rw [← hnew, ← EdgeRouter.views_final]
  generalize Runs.final EdgeRouter.step EdgeRouter.new events = r
  rw [table_eq, EdgeRouter.tables]
  rcases aTableId % 2 ^ 32 with - | - | i
  · exact ⟨r.theOverallTable.full_fullTable, r.theOverallTable.lookup_fullTable⟩
  · exact ⟨r.theFinalTable.full_fullTable, r.theFinalTable.lookup_fullTable⟩
  · exact ⟨full_empty, fun _ _ => rfl⟩

end Views

end ServerlessEdge.Forwarding
