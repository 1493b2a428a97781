import ServerlessEdge.Library.Runs
import ServerlessEdge.Forwarding.ForwardingTableServer
import Mathlib.Algebra.Order.Ring.Rat

/-! The two tables of an edge router: the overall one serves the requests of
clients, the final one those forwarded by another node. -/
namespace ServerlessEdge.Forwarding
open Library ForwardingTableServer

structure EdgeRouter (W : Type) where
  theOverallTable : ForwardingTable W
  theFinalTable : ForwardingTable W

namespace EdgeRouter

variable {W : Type}

def new : EdgeRouter W := ⟨.new, .new⟩

/-- A failed destination is removed from both tables, whichever chose it. -/
def processFailure (r : EdgeRouter W) (aLambda aDestination : String) : EdgeRouter W :=
  ⟨r.theOverallTable.remove aLambda aDestination, r.theFinalTable.remove aLambda aDestination⟩

/-- The final table holds the pairs that the overall table marks as final. -/
def Coherent (r : EdgeRouter W) : Prop :=
  r.theFinalTable.pairs = {p | r.theOverallTable.flags p = some true}

theorem coherent_iff (r : EdgeRouter W) :
    r.Coherent ↔ ∀ p, (r.theFinalTable.flags p).isSome ↔ r.theOverallTable.flags p = some true :=
  Set.ext_iff

theorem coherent_new : (new : EdgeRouter W).Coherent := by
  simp [coherent_iff, new]

/-- Erasing a pair from both tables keeps them coherent. -/
theorem Coherent.processFailure {r : EdgeRouter W} (h : r.Coherent) (l d : String) :
    (r.processFailure l d).Coherent := by
  rw [coherent_iff] at h ⊢
  intro p
  simp only [EdgeRouter.processFailure, ForwardingTable.flags_remove, Function.update_apply]
  split
  · simp
  · exact h p

section Steps

variable [Zero W] [LT W] [LE W] [DecidableLT W] [DecidableLE W] [ToString W]

/-- A command received by the server of the two tables. -/
def configure (r : EdgeRouter W) (aReq : EdgeRouterConf W) : EdgeRouter W :=
  match (Configure [r.theOverallTable, r.theFinalTable] aReq).2 with
  | [myOverall, myFinal] => ⟨myOverall, myFinal⟩
  | _ => r

/-- A local optimizer writes a weight into the table it is in charge of; it may
throw, which its caller catches. -/
def optimize (r : EdgeRouter W) (aForward : Bool) (aLambda aDestination : String) (aWeight : W) :
    EStateM.Result (TableError W) (EdgeRouter W) Unit :=
  if aForward then
    match ForwardingTable.changeWeight aLambda aDestination aWeight r.theFinalTable with
    | .ok _ t => .ok () { r with theFinalTable := t }
    | .error err t => .error err { r with theFinalTable := t }
  else
    match ForwardingTable.changeWeight aLambda aDestination aWeight r.theOverallTable with
    | .ok _ t => .ok () { r with theOverallTable := t }
    | .error err t => .error err { r with theOverallTable := t }

/-- What can happen to the tables of a router. -/
inductive Event (W : Type) where
  | configure (aReq : EdgeRouterConf W)
  | processFailure (aLambda aDestination : String)
  | optimize (aForward : Bool) (aLambda aDestination : String) (aWeight : W)

def step (r : EdgeRouter W) : Event W → EdgeRouter W
  | .configure aReq => r.configure aReq
  | .processFailure aLambda aDestination => r.processFailure aLambda aDestination
  | .optimize aForward aLambda aDestination aWeight =>
    match r.optimize aForward aLambda aDestination aWeight with
    | .ok _ r' => r'
    | .error _ r' => r'

theorem configure_flush (r : EdgeRouter W) {aReq : EdgeRouterConf W} (h : aReq.action = .FLUSH) :
    (r.configure aReq).theOverallTable.flags = (fun _ => none) ∧
      (r.configure aReq).theFinalTable.flags = fun _ => none := by
  simp only [configure, Configure, forTables, apply, h]
  exact ⟨ForwardingTable.flags_flush _, ForwardingTable.flags_flush _⟩

theorem configure_remove (r : EdgeRouter W) {aReq : EdgeRouterConf W} (h : aReq.action = .REMOVE) :
    r.configure aReq = r.processFailure aReq.lambda aReq.destination := by
  simp only [configure, Configure, forTables, apply, h]
  rfl

theorem configure_unrecognized (r : EdgeRouter W) {aReq : EdgeRouterConf W} {aValue : Int}
    (h : aReq.action = .unrecognized aValue) : r.configure aReq = r := by
  simp only [configure, Configure, h]

/-- A refused change is not seen in either table. -/
theorem configure_change_refused (r : EdgeRouter W) {aReq : EdgeRouterConf W}
    (h : aReq.action = .CHANGE) (hr : ForwardingTable.Refused aReq.destination aReq.weight) :
    (r.configure aReq).theOverallTable.flags = r.theOverallTable.flags ∧
      (r.configure aReq).theFinalTable.flags = r.theFinalTable.flags := by
  obtain ⟨_, err, t, he, ht⟩ | ⟨hn, _⟩ := ForwardingTable.change_cases r.theOverallTable
    aReq.lambda aReq.destination aReq.weight aReq.final
  · simp only [configure, Configure, forTables, apply, h, ForwardingTableInterface.change,
      List.length_cons, List.length_nil, true_or, or_true, if_true, he]
    exact ⟨ht, trivial⟩
  · exact absurd hr hn

/-- An accepted change sets the flag in the overall table, and adds the pair to
the final one only if it is final. -/
theorem configure_change (r : EdgeRouter W) {aReq : EdgeRouterConf W}
    (h : aReq.action = .CHANGE) (hr : ¬ ForwardingTable.Refused aReq.destination aReq.weight) :
    (r.configure aReq).theOverallTable.flags = Function.update r.theOverallTable.flags
        (aReq.lambda, aReq.destination) (some aReq.final) ∧
      (r.configure aReq).theFinalTable.flags = if aReq.final then Function.update
        r.theFinalTable.flags (aReq.lambda, aReq.destination) (some true)
        else r.theFinalTable.flags := by
  obtain ⟨hn, _⟩ | ⟨_, t, ht, hf⟩ := ForwardingTable.change_cases r.theOverallTable
    aReq.lambda aReq.destination aReq.weight aReq.final
  · exact absurd hn hr
  obtain ⟨hn, _⟩ | ⟨_, u, hu, hg⟩ := ForwardingTable.change_cases r.theFinalTable
    aReq.lambda aReq.destination aReq.weight aReq.final
  · exact absurd hn hr
  cases hb : aReq.final with
  | false =>
    rw [hb] at ht hf
    simp [configure, Configure, forTables, apply, h, ForwardingTableInterface.change, hb, ht, hf]
  | true =>
    rw [hb] at ht hf hu hg
    simp [configure, Configure, forTables, apply, h, ForwardingTableInterface.change, hb, ht, hf,
      hu, hg]

/-- Whatever an optimizer does, no pair or flag changes. -/
theorem step_optimize (r : EdgeRouter W) (aForward : Bool) (l d : String) (w : W) :
    (r.step (.optimize aForward l d w)).theOverallTable.flags = r.theOverallTable.flags ∧
      (r.step (.optimize aForward l d w)).theFinalTable.flags = r.theFinalTable.flags := by
  obtain ⟨t, ht, hf⟩ := ForwardingTable.changeWeight_cases r.theOverallTable l d w
  obtain ⟨u, hu, hg⟩ := ForwardingTable.changeWeight_cases r.theFinalTable l d w
  cases aForward with
  | false => rcases ht with ht | ⟨err, ht⟩ <;> simp [step, optimize, ht, hf]
  | true => rcases hu with hu | ⟨err, hu⟩ <;> simp [step, optimize, hu, hg]

/-- The command clears the flag of a pair that is final in the overall table.
The server then leaves the pair in the final table. -/
def ClearsFinal (r : EdgeRouter W) : Event W → Prop
  | .configure aReq => aReq.action = .CHANGE ∧
      ¬ ForwardingTable.Refused aReq.destination aReq.weight ∧ aReq.final = false ∧
      r.theOverallTable.flags (aReq.lambda, aReq.destination) = some true
  | _ => False

/-- From coherent tables a step keeps coherence exactly when it does not clear
the flag of a final pair. -/
theorem step_coherent_iff {r : EdgeRouter W} (h : r.Coherent) (e : Event W) :
    (r.step e).Coherent ↔ ¬ r.ClearsFinal e := by
  have hp := (coherent_iff r).mp h
  cases e with
  | processFailure l d => exact iff_of_true (h.processFailure l d) not_false
  | optimize b l d w =>
    obtain ⟨ho, hf⟩ := r.step_optimize b l d w
    refine iff_of_true ((coherent_iff _).mpr fun p => ?_) not_false
    rw [ho, hf]
    exact hp p
  | configure q =>
    cases ha : q.action with
    | FLUSH =>
      obtain ⟨ho, hf⟩ := r.configure_flush ha
      refine iff_of_true ((coherent_iff _).mpr fun p => ?_) (by simp [ClearsFinal, ha])
      simp only [step, ho, hf]
      simp
    | REMOVE =>
      refine iff_of_true ?_ (by simp [ClearsFinal, ha])
      simp only [step, r.configure_remove ha]
      exact h.processFailure _ _
    | unrecognized v =>
      refine iff_of_true ?_ (by simp [ClearsFinal, ha])
      simpa only [step, r.configure_unrecognized ha] using h
    | CHANGE =>
      by_cases hr : ForwardingTable.Refused q.destination q.weight
      · obtain ⟨ho, hf⟩ := r.configure_change_refused ha hr
        refine iff_of_true ((coherent_iff _).mpr fun p => ?_) (by simp [ClearsFinal, hr])
        simp only [step, ho, hf]
        exact hp p
      obtain ⟨ho, hf⟩ := r.configure_change ha hr
      simp only [coherent_iff, step, ho, hf, ClearsFinal, ha, hr, not_false_eq_true, true_and]
      cases hb : q.final with
      | true =>
        refine iff_of_true (fun p => ?_) (by simp)
        simp only [if_true, Function.update_apply]
        split
        · simp
        · exact hp p
      | false =>
        -- the pair of the command is the only one at which the tables can differ
        simp only [Bool.false_eq_true, if_false, true_and, Function.update_apply]
        constructor
        · intro hc hfin
          have hq := hc (q.lambda, q.destination)
          rw [hp, if_pos rfl] at hq
          exact absurd (hq.mp hfin) (by simp)
        · intro hn p
          split
          · next heq =>
            subst heq
            simp [hp, hn]
          · exact hp p

/-- In a run the two tables agree in every state reached exactly when no command
clears the flag of a final pair. -/
theorem final_table_of_final_pairs (events : List (Event W)) :
    (∀ r ∈ Runs.states step (new : EdgeRouter W) events, r.Coherent) ↔
      Runs.Along step (fun r e => ¬ r.ClearsFinal e) (new : EdgeRouter W) events :=
  Runs.invariant_iff_along (I := Coherent) (P := fun r e => ¬ r.ClearsFinal e)
    (fun _ e h => step_coherent_iff h e) coherent_new

end Steps

/-- A pair announced as final and then as non-final stays in the final table. -/
theorem stale_final_pair :
    ¬ ∀ events : List (Event ℚ), ∀ r ∈ Runs.states step (new : EdgeRouter ℚ) events, r.Coherent := by
  intro h
  let myFinal : EdgeRouterConf ℚ := ⟨.CHANGE, "lambda0", "host1:6473", 1, true⟩
  let events : List (Event ℚ) := [.configure myFinal, .configure { myFinal with final := false }]
  have hc := (coherent_iff _).mp (h events _ (Runs.final_mem_states step new events))
    ("lambda0", "host1:6473")
  exact absurd (hc.mp (by decide +kernel)) (by decide +kernel)

end EdgeRouter
end ServerlessEdge.Forwarding
