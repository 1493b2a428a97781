import ServerlessEdge.Processing.EdgeLambdaProcessor
import ServerlessEdge.Forwarding.Entry

/-! The dispatcher: one estimator of processing times, which chooses the
destinations and learns from every response. -/
namespace ServerlessEdge.Processing
open Library Estimator Triple

/-- Which pairs a derived class can learn about: it throws for the other ones. -/
class Knowing (D : Type) [Derived D] where
  Knows : D → String → String → Prop
  learn_cases (r : Readings) (aReq : Rpc.LambdaRequest) (x : String)
    (aRep : Estimator.LambdaResponse) (aTime : ℚ) (d : D) :
    Knows d aReq.name x ∧ (∃ d', Derived.learn r aReq x aRep aTime d = .ok () d') ∨
      ¬ Knows d aReq.name x ∧ ∃ d', Derived.learn r aReq x aRep aTime d =
        .error (invalidDestination aReq.name x) d'

section Tables

theorem invalidDestination_ne_ok (l d : String) : invalidDestination l d ≠ "OK" := by
  have h := Forwarding.append_ne_ok (t := "Invalid destination towards '") (by decide +kernel)
    (d ++ ("' for lambda function '" ++ (l ++ "'")))
  rw [← String.append_assoc, ← String.append_assoc, ← String.append_assoc] at h
  exact h

/-- A descriptor can be changed if the pair is known. -/
theorem update_cases {T : Type} (t : DestinationTable T) (l d : String) (f : T → T) :
    t.Known l d ∧ (∃ t', t.update l d f = .ok t') ∨
      ¬ t.Known l d ∧ t.update l d f = .error (invalidDestination l d) := by
  unfold DestinationTable.update DestinationTable.Known
  cases hx : Rows.lookup t.theDescriptors l d with
  | none => exact .inr ⟨nofun, rfl⟩
  | some x => exact .inl ⟨rfl, _, rfl⟩

variable {E : Type} [LinearEstimator E]

theorem addRtt_cases (e : RttEstimator E) (aClocks : Clocks) (l d : String) (n : Nat) (t : ℚ) :
    e.theTable.Known l d ∧ (∃ e', e.addRtt aClocks l d n t = .ok e') ∨
      ¬ e.theTable.Known l d ∧ e.addRtt aClocks l d n t = .error (invalidDestination l d) := by
  obtain ⟨hknown, t', ht⟩ | ⟨hknown, ht⟩ := update_cases e.theTable l d fun x =>
    { x with theEstimator := LinearEstimator.add x.theEstimator (aClocks d) n t }
  · exact .inl ⟨hknown, ⟨t'⟩, by simp only [RttEstimator.addRtt, ht]; rfl⟩
  · exact .inr ⟨hknown, by simp only [RttEstimator.addRtt, ht]; rfl⟩

theorem addPtime_cases (u : UtilEstimator E) (aClocks : Clocks) (l d : String) (n : Nat) (t : ℚ)
    (k : Nat) : u.theTable.Known l d ∧ (∃ u', u.addPtime aClocks l d n t k = .ok u') ∨
      ¬ u.theTable.Known l d ∧ u.addPtime aClocks l d n t k = .error (invalidDestination l d) := by
  obtain ⟨hknown, t', ht⟩ | ⟨hknown, ht⟩ := update_cases u.theTable l d
    (UtilEstimator.LambdaDescriptor.addPtime u.theWindowSize aClocks n t k)
  · exact .inl ⟨hknown, _, by simp only [UtilEstimator.addPtime, ht]; rfl⟩
  · exact .inr ⟨hknown, by simp only [UtilEstimator.addPtime, ht]; rfl⟩

instance : Knowing (PtimeEstimatorRtt E) where
  Knows e := e.theRttEstimator.theTable.Known
  learn_cases r aReq x aRep aTime e := by
    obtain ⟨hknown, e', he⟩ | ⟨hknown, he⟩ := addRtt_cases e.theRttEstimator r.clocks aReq.name x
      (size aReq) (aTime - aRep.processingTimeSeconds)
    · exact .inl ⟨hknown, ⟨e'⟩, by simp only [Derived.learn, get_bind_apply, he]; rfl⟩
    · exact .inr ⟨hknown, e, by simp only [Derived.learn, get_bind_apply, he]; rfl⟩

/-- The table of processing times is asked before that of round-trip times. -/
instance : Knowing (PtimeEstimatorUtil E) where
  Knows e l d := e.theUtilEstimator.theTable.Known l d ∧ e.theRttEstimator.theTable.Known l d
  learn_cases r aReq x aRep aTime e := by
    obtain ⟨hutil, u, hu⟩ | ⟨hutil, hu⟩ := addPtime_cases e.theUtilEstimator r.clocks aReq.name x
      (size aReq) aRep.processingTimeSeconds aRep.load1
    · -- what is learnt of the processing time stays if the rest throws
      have hrest : Derived.learn r aReq x aRep aTime e =
          (do
            let r ← Estimator.ofExcept (e.theRttEstimator.addRtt r.clocks aReq.name x (size aReq)
              (aTime - aRep.processingTimeSeconds))
            modify fun e => { e with theRttEstimator := r } :
            EStateM String (PtimeEstimatorUtil E) Unit) ⟨e.theRttEstimator, u⟩ := by
        simp only [Derived.learn, get_bind_apply, hu]
        rfl
      rw [hrest]
      obtain ⟨hrtt, e', he⟩ | ⟨hrtt, he⟩ := addRtt_cases e.theRttEstimator r.clocks aReq.name x
        (size aReq) (aTime - aRep.processingTimeSeconds)
      · rw [he]
        exact .inl ⟨⟨hutil, hrtt⟩, ⟨e', u⟩, rfl⟩
      · rw [he]
        exact .inr ⟨fun h => hrtt h.2, ⟨e.theRttEstimator, u⟩, rfl⟩
    · refine .inr ⟨fun h => hutil h.1, e, ?_⟩
      simp only [Derived.learn, get_bind_apply, hu]
      rfl

instance : Knowing (PtimeEstimatorDelay E) where
  Knows e := e.theUtilEstimator.theTable.Known
  learn_cases r aReq x aRep aTime e := by
    obtain ⟨hknown, u, hu⟩ | ⟨hknown, hu⟩ := addPtime_cases e.theUtilEstimator r.clocks aReq.name x
      (size aReq) aTime aRep.load1
    · exact .inl ⟨hknown, ⟨u⟩, by simp only [Derived.learn, get_bind_apply, hu]; rfl⟩
    · exact .inr ⟨hknown, e, by simp only [Derived.learn, get_bind_apply, hu]; rfl⟩

/-- Nothing is looked up. -/
instance : Knowing PtimeEstimatorProbe where
  Knows _ _ _ := True
  learn_cases _ _ _ _ _ d := .inl ⟨trivial, d, rfl⟩

end Tables

namespace EdgeDispatcher

variable (D : Type) [Derived D]

/-- Others call the table of the estimator. -/
def processor : Processor where
  State := PtimeEstimator D
  Reading := Readings
  Event := PtimeEstimator.Call
  change c e := e.step c
  destination := PtimeEstimator.operator
  processSuccess := PtimeEstimator.processSuccess
  processFailure _ key aReq aDestination := [PtimeEstimator.processFailure key aReq aDestination]

variable [Knowing D]

/-- The notifications that a dispatcher takes. -/
def accepting : Accepting (processor D) where
  Accepts _ aReq aDestination _ _ e := Knowing.Knows e.theDerived aReq.name aDestination
  processSuccess_iff r key aReq d ret t e := by
    change (∃ e', PtimeEstimator.processSuccess r key aReq d ret t e = .ok () e') ↔ _
    unfold PtimeEstimator.processSuccess
    obtain ⟨hknows, d', hd⟩ | ⟨hknows, d', hd⟩ := Knowing.learn_cases r aReq d ret t e.theDerived
    · simp only [hd]
      exact iff_of_true ⟨_, rfl⟩ hknows
    · simp only [hd]
      refine iff_of_false ?_ hknows
      rintro ⟨_, h⟩
      cases h
  error_ne_ok {r key aReq d ret t e e' aErr} h := by
    change PtimeEstimator.processSuccess r key aReq d ret t e = .error aErr e' at h
    unfold PtimeEstimator.processSuccess at h
    obtain ⟨_, d', hd⟩ | ⟨_, d', hd⟩ := Knowing.learn_cases r aReq d ret t e.theDerived
    · simp only [hd] at h
      cases h
    · simp only [hd] at h
      cases h
      exact invalidDestination_ne_ok _ _

end EdgeDispatcher
end ServerlessEdge.Processing
