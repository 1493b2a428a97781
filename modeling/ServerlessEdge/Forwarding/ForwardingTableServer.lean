import ServerlessEdge.Forwarding.ForwardingTable

/-! The server through which a controller configures the tables of a router or
dispatcher. Errors are reported in the reply and the call itself succeeds. -/
namespace ServerlessEdge.Forwarding

/-- The operations that the server uses on a table. -/
class ForwardingTableInterface (T : Type) (W : outParam Type) where
  change : String → String → W → Bool → EStateM (TableError W) T Unit
  removeDest : T → String → String → T
  removeLambda : T → String → T
  lambdas : T → List String

/-- The action of a command; an open enumeration on the wire. -/
inductive ConfAction where
  | FLUSH
  | CHANGE
  | REMOVE
  | unrecognized (aValue : Int)
  deriving DecidableEq, Repr

structure EdgeRouterConf (W : Type) where
  action : ConfAction
  lambda : String
  destination : String
  weight : W
  final : Bool

namespace ForwardingTableServer

variable {T W : Type}

/-- Run an operation on each table in turn; an exception leaves the tables that
follow untouched. -/
def forTables {ε : Type} (f : Nat → EStateM ε T Unit) : Nat → List T → EStateM.Result ε (List T) Unit
  | _, [] => .ok () []
  | i, t :: ts => match f i t with
    | .error err t' => .error err (t' :: ts)
    | .ok _ t' => match forTables f (i + 1) ts with
      | .ok _ ts' => .ok () (t' :: ts')
      | .error err ts' => .error err (t' :: ts')

variable [ForwardingTableInterface T W]
open ForwardingTableInterface

/-- Remove every lambda of a table. -/
def flush (t : T) : T := (lambdas t).foldl (fun t l => removeLambda t l) t

/-- The effect of a command on one table; if there are two tables the non-final
destinations are changed in the first one only. -/
def apply (aReq : EdgeRouterConf W) (aSize i : Nat) : EStateM (TableError W) T Unit := fun t =>
  match aReq.action with
  | .FLUSH => .ok () (flush t)
  | .CHANGE =>
    if aSize = 1 ∨ i = 0 ∨ aReq.final = true then
      change aReq.lambda aReq.destination aReq.weight aReq.final t
    else .ok () t
  | .REMOVE => .ok () (removeDest t aReq.lambda aReq.destination)
  | .unrecognized _ => .ok () t

/-- The reply to a command and the tables after it. -/
def Configure [ToString W] (theTables : List T) (aReq : EdgeRouterConf W) : String × List T :=
  match aReq.action with
  | .unrecognized _ => ("Error: Invalid action found in the configuration of a forwarding table",
      theTables)
  | _ => match forTables (apply aReq theTables.length) 0 theTables with
    | .ok _ ts => ("OK", ts)
    | .error err ts => ("Error: " ++ err.what, ts)

end ForwardingTableServer

namespace ForwardingTable

variable {W : Type}

private theorem flags_removeLambdas (ls : List String) (t : ForwardingTable W)
    (p : String × String) :
    (ls.foldl (fun t l => t.removeLambda l) t).flags p =
      if p.1 ∈ ls then none else t.flags p := by
  induction ls generalizing t with
  | nil => simp
  | cons x xs ih =>
    rw [List.foldl_cons, ih, flags_removeLambda]
    by_cases hxs : p.1 ∈ xs <;> simp [hxs]

variable [Zero W] [LT W] [LE W] [DecidableLT W] [DecidableLE W]

instance : ForwardingTableInterface (ForwardingTable W) W where
  change := change
  removeDest := remove
  removeLambda := removeLambda
  lambdas := lambdas

/-- A flushed table holds nothing. -/
theorem flags_flush (t : ForwardingTable W) :
    (ForwardingTableServer.flush t).flags = fun _ => none := by
  funext p
  refine (flags_removeLambdas t.lambdas t p).trans ?_
  split
  · rfl
  · next h => exact flags_eq_none_of_not_mem h

end ForwardingTable
end ServerlessEdge.Forwarding
