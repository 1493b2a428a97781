import ServerlessEdge.Processing.EdgeLambdaProcessor
import ServerlessEdge.Forwarding.TypedTable

/-! The router: two forwarding tables, each with an optimizer of its weights that
is told of every success. -/
namespace ServerlessEdge.Processing
open Library Forwarding Rows Triple
open Std (ExtTreeMap)
open Estimator (LambdaResponse)

/-- The last weight of a destination, and when it was written. -/
structure Elem where
  theWeight : ℚ
  theTimestamp : ℚ

/-- The optimizers. The trivial one only takes the times down, and its periodic
task uses them later. -/
inductive LocalOptimizer where
  | none
  | trivial (theLatencies : ExtTreeMap String (ExtTreeMap String (List ℚ)))
  | async (theAlpha : ℚ) (theWeights : ExtTreeMap String (ExtTreeMap String Elem))
  | asyncPF

namespace LocalOptimizer

def stalePeriod : ℚ := 5

/-- The time is averaged with the last weight unless that is stale. -/
def smooth (theAlpha : ℚ) (theWeights : ExtTreeMap String (ExtTreeMap String Elem)) (myNow : ℚ)
    (aLambda aDestination : String) (aTime : ℚ) : ℚ :=
  match lookup theWeights aLambda aDestination with
  | Option.none => aTime
  | some e =>
    if myNow - e.theTimestamp < stalePeriod then aTime * (1 - theAlpha) + theAlpha * e.theWeight
    else aTime

/-- The weight to be written into the table, if any. -/
def operator (myNow : ℚ) (aLambda aDestination : String) (aTime : ℚ) :
    LocalOptimizer → Option ℚ × LocalOptimizer
  | none => (Option.none, none)
  | trivial theLatencies =>
    let myTimes := (lookup theLatencies aLambda aDestination).getD []
    (Option.none, trivial (put theLatencies aLambda aDestination (myTimes ++ [aTime])))
  | async theAlpha theWeights =>
    let myCurWeight := smooth theAlpha theWeights myNow aLambda aDestination aTime
    (some myCurWeight,
      async theAlpha (put theWeights aLambda aDestination ⟨myCurWeight, myNow⟩))
  | asyncPF => (some aTime, asyncPF)

end LocalOptimizer

structure EdgeRouter (P : Policy ℚ) where
  theOverallTable : TypedTable P
  theOverallOptimizer : LocalOptimizer
  theFinalTable : TypedTable P
  theFinalOptimizer : LocalOptimizer

namespace EdgeRouter

variable {P : Policy ℚ}

/-- The table for the requests of clients, or of other nodes. -/
def table (s : EdgeRouter P) (aForward : Bool) : TypedTable P :=
  if aForward then s.theFinalTable else s.theOverallTable

def setTable (s : EdgeRouter P) (aForward : Bool) (t : TypedTable P) : EdgeRouter P :=
  if aForward then { s with theFinalTable := t } else { s with theOverallTable := t }

def optimizer (s : EdgeRouter P) (aForward : Bool) : LocalOptimizer :=
  if aForward then s.theFinalOptimizer else s.theOverallOptimizer

def setOptimizer (s : EdgeRouter P) (aForward : Bool) (o : LocalOptimizer) : EdgeRouter P :=
  if aForward then { s with theFinalOptimizer := o } else { s with theOverallOptimizer := o }

@[simp] theorem table_setOptimizer (s : EdgeRouter P) (f f' : Bool) (o : LocalOptimizer) :
    (s.setOptimizer f o).table f' = s.table f' := by
  cases f <;> cases f' <;> rfl

/-- A reading is that of the entries and of the clock of the optimizer. -/
abbrev Reading (P : Policy ℚ) := P.Reading × ℚ

def destination (r : Reading P) (aReq : Rpc.LambdaRequest) : EStateM String (EdgeRouter P) String :=
  fun s => match TypedTable.operator r.1 aReq.name (s.table aReq.forward) with
    | .ok myDestination t => .ok myDestination (s.setTable aReq.forward t)
    | .error err t => .error err.what (s.setTable aReq.forward t)

/-- Write a weight into the table. -/
def reweigh (r : Reading P) (aReq : Rpc.LambdaRequest) (aDestination : String) (aWeight : ℚ) :
    EStateM String (EdgeRouter P) Unit := fun s =>
  match TypedTable.changeWeight r.1 aReq.name aDestination aWeight (s.table aReq.forward) with
  | .ok _ t => .ok () (s.setTable aReq.forward t)
  | .error err t => .error err.what (s.setTable aReq.forward t)

def processSuccess (r : Reading P) (aReq : Rpc.LambdaRequest) (aDestination : String) (aTime : ℚ) :
    EStateM String (EdgeRouter P) Unit := fun s =>
  let myRet := (s.optimizer aReq.forward).operator r.2 aReq.name aDestination aTime
  let s := s.setOptimizer aReq.forward myRet.2
  match myRet.1 with
  | none => .ok () s
  | some myCurWeight => reweigh r aReq aDestination myCurWeight s

/-- Both tables, whichever the destination was chosen from. -/
def processFailure (r : Reading P) (aReq : Rpc.LambdaRequest) (aDestination : String) :
    List (EdgeRouter P → EdgeRouter P) :=
  [fun s => { s with theOverallTable := s.theOverallTable.remove r.1 aReq.name aDestination },
    fun s => { s with theFinalTable := s.theFinalTable.remove r.1 aReq.name aDestination }]

/-- The calls of the tables made by others, and the periodic task of a trivial
optimizer, which takes the times away before it makes such calls. -/
inductive Event (P : Policy ℚ) where
  | call (aForward : Bool) (c : TypedTable.Call P)
  | update (aForward : Bool)

def change (e : Event P) (s : EdgeRouter P) : EdgeRouter P :=
  match e with
  | .call aForward c => s.setTable aForward ((s.table aForward).step c)
  | .update aForward => match s.optimizer aForward with
    | .trivial _ => s.setOptimizer aForward (.trivial ∅)
    | _ => s

def processor (P : Policy ℚ) : Processor where
  State := EdgeRouter P
  Reading := Reading P
  Event := Event P
  change := change
  destination r _ := destination r
  processSuccess r _ aReq aDestination _ := processSuccess r aReq aDestination
  processFailure r _ := processFailure r

/-- The pair is in the table that the request is served from. -/
def Listed (s : EdgeRouter P) (aReq : Rpc.LambdaRequest) (aDestination : String) : Prop :=
  aDestination ≠ "" ∧ ((s.table aReq.forward).plain.find aReq.name aDestination).isSome

/-- An asynchronous optimizer needs the pair in the table and a positive weight
for it, the other ones need nothing. -/
def Accepts (r : Reading P) (aReq : Rpc.LambdaRequest) (aDestination : String)
    (_ret : LambdaResponse) (aTime : ℚ) (s : EdgeRouter P) : Prop :=
  match s.optimizer aReq.forward with
  | .none => True
  | .trivial _ => True
  | .async theAlpha theWeights => s.Listed aReq aDestination ∧
    0 < LocalOptimizer.smooth theAlpha theWeights r.2 aReq.name aDestination aTime
  | .asyncPF => s.Listed aReq aDestination ∧ 0 < aTime

theorem reweigh_error {r : Reading P} {aReq : Rpc.LambdaRequest} {d : String} {w : ℚ}
    {s s' : EdgeRouter P} {aErr : String} (h : reweigh r aReq d w s = .error aErr s') :
    aErr ≠ "OK" := by
  unfold reweigh at h
  split at h
  · cases h
  · cases h
    exact TableError.what_ne_ok _

/-- A weight is written exactly for a listed pair, if it is positive. -/
theorem reweigh_isOk_iff (r : Reading P) (aReq : Rpc.LambdaRequest) (d : String) (w : ℚ)
    (s : EdgeRouter P) :
    (∃ s', reweigh r aReq d w s = .ok () s') ↔ s.Listed aReq d ∧ 0 < w := by
  have hwhen := ForwardingTable.changeWeight_isOk_iff (s.table aReq.forward).plain aReq.name d w
  rw [← TypedTable.plain_changeWeight r.1] at hwhen
  have hweight : ¬ ForwardingTable.Refused d w ↔ d ≠ "" ∧ 0 < w := by
    rw [ForwardingTable.Refused]
    constructor
    · exact fun h => ⟨fun hd => h (.inr (.inl hd)), not_le.mp fun hw => h (.inr (.inr hw))⟩
    · rintro ⟨hd, hw⟩ (h | h | h)
      · exact lt_asymm hw h
      · exact hd h
      · exact not_le.mpr hw h
  rw [hweight] at hwhen
  rw [Listed, reweigh]
  have hgoal : (d ≠ "" ∧ 0 < w) ∧ ((s.table aReq.forward).plain.find aReq.name d).isSome ↔
      (d ≠ "" ∧ ((s.table aReq.forward).plain.find aReq.name d).isSome) ∧ 0 < w :=
    and_right_comm
  rw [← hgoal, ← hwhen]
  cases TypedTable.changeWeight r.1 aReq.name d w (s.table aReq.forward) with
  | ok _ t => exact iff_of_true ⟨_, rfl⟩ ⟨_, rfl⟩
  | error err t =>
    apply iff_of_false
    · rintro ⟨_, h⟩
      cases h
    · rintro ⟨_, h⟩
      cases h

theorem processSuccess_isOk_iff (r : Reading P) (aReq : Rpc.LambdaRequest) (d : String)
    (ret : LambdaResponse) (t : ℚ) (s : EdgeRouter P) :
    (∃ s', processSuccess r aReq d t s = .ok () s') ↔ Accepts r aReq d ret t s := by
  have hlisted (o : LocalOptimizer) :
      (s.setOptimizer aReq.forward o).Listed aReq d ↔ s.Listed aReq d := by
    rw [Listed, table_setOptimizer, Listed]
  unfold processSuccess Accepts
  cases s.optimizer aReq.forward with
  | none => exact iff_of_true ⟨_, rfl⟩ trivial
  | trivial theLatencies => exact iff_of_true ⟨_, rfl⟩ trivial
  | async theAlpha theWeights => simp only [LocalOptimizer.operator, reweigh_isOk_iff, hlisted]
  | asyncPF => simp only [LocalOptimizer.operator, reweigh_isOk_iff, hlisted]

theorem processSuccess_error {r : Reading P} {aReq : Rpc.LambdaRequest} {d : String} {t : ℚ}
    {s s' : EdgeRouter P} {aErr : String} (h : processSuccess r aReq d t s = .error aErr s') :
    aErr ≠ "OK" := by
  unfold processSuccess at h
  dsimp only at h
  split at h
  · cases h
  · exact reweigh_error h

/-- The notifications that a router takes. -/
def accepting (P : Policy ℚ) : Accepting (processor P) where
  Accepts := Accepts
  processSuccess_iff r _ := processSuccess_isOk_iff r
  error_ne_ok := processSuccess_error

end EdgeRouter
end ServerlessEdge.Processing
