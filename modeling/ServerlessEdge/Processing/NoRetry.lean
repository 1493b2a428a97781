import ServerlessEdge.Processing.EdgeRouter
import ServerlessEdge.Processing.EdgeDispatcher

/-! Whether a request that was served is left alone. The success is notified while
a failure of the notification still counts as one of the destination. -/
namespace ServerlessEdge.Processing
open Library Forwarding Estimator

/-- The routers, by the type of their tables, and the dispatchers, by their
estimator. The optimizers of a router are part of its state. -/
inductive Kind where
  | router (aType : TypedTable.EntryType) (theAlpha theBeta : ℚ)
  | rtt
  | util
  | delay
  | probe

namespace Kind

variable (num : TypedTable.Numerics ℚ) (E : Type) [LinearEstimator E]

def processor : Kind → Processor
  | router aType theAlpha theBeta => EdgeRouter.processor (aType.policy num theAlpha theBeta)
  | rtt => EdgeDispatcher.processor (PtimeEstimatorRtt E)
  | util => EdgeDispatcher.processor (PtimeEstimatorUtil E)
  | delay => EdgeDispatcher.processor (PtimeEstimatorDelay E)
  | probe => EdgeDispatcher.processor PtimeEstimatorProbe

def accepting : (aKind : Kind) → Accepting (aKind.processor num E)
  | router aType theAlpha theBeta => EdgeRouter.accepting (aType.policy num theAlpha theBeta)
  | rtt => EdgeDispatcher.accepting (PtimeEstimatorRtt E)
  | util => EdgeDispatcher.accepting (PtimeEstimatorUtil E)
  | delay => EdgeDispatcher.accepting (PtimeEstimatorDelay E)
  | probe => EdgeDispatcher.accepting PtimeEstimatorProbe

/-- For every kind of processor and every interleaving, no request that was served
is sent again, purges a destination or is answered otherwise exactly when, at each
notification of a success, the pair is still where it is looked up. -/
theorem served_once_iff_accepted (aKind : Kind) (conf : Conf) (s₀ : (aKind.processor num E).State)
    (events : List (Event (aKind.processor num E))) :
    (∀ s ∈ Runs.states (System.step conf) (System.new s₀) events, s.Every Request.Settled) ↔
      Runs.Along (System.step conf) (System.Accepted (aKind.accepting num E)) (System.new s₀)
        events :=
  System.settled_iff_accepted conf (aKind.accepting num E) s₀ events

end Kind

/-- A router with one destination for a lambda, which answers OK; the controller
removes the lambda before the success is notified. -/
def removal : List (Event (EdgeRouter.processor (EntryLeastImpedance.policy (W := ℚ)))) :=
  let i : Input (EdgeRouter.processor (EntryLeastImpedance.policy (W := ℚ))) :=
    { reading := ((⟨"", 0, false⟩ : Element ℚ), (0 : ℚ))
      outcome := .ok ({ retcode := "OK", output := "out" }, 1)
      random := 0 }
  [.change (.call false (.change (⟨"", 0, false⟩ : Element ℚ) "lambda1" "host1:1000" 1 true)),
    .arrive 0 { name := "lambda1" }, .advance 0 i, .advance 0 i, .advance 0 i,
    .change (.call false (.removeLambda "lambda1")), .advance 0 i, .advance 0 i]

/-- The answer is dropped and the destination purged. -/
theorem removed_while_served : ¬ ∀ (E : Type) [LinearEstimator E] (aKind : Kind) (conf : Conf)
    (s₀ : (aKind.processor TypedTable.rationals E).State)
    (events : List (Event (aKind.processor TypedTable.rationals E))),
    ∀ s ∈ Runs.states (System.step conf) (System.new s₀) events, s.Every Request.Settled := by
  intro h
  let myRouter : EdgeRouter (EntryLeastImpedance.policy (W := ℚ)) := ⟨.new, .asyncPF, .new, .asyncPF⟩
  have hfinal := @h Unit ⟨fun _ _ => (), fun _ _ _ _ => (), fun _ _ _ => (0, ())⟩
    (.router .LeastImpedance 1 1) ⟨false, true⟩ myRouter removal _ (Runs.final_mem_states _ _ _)
  have hactions : ((Runs.final (System.step ⟨false, true⟩)
      (System.new (P := EdgeRouter.processor EntryLeastImpedance.policy) myRouter)
      removal).theRequests[0]?).map Request.actions =
        some [.sent "host1:1000", .returned "host1:1000" { retcode := "OK", output := "out" },
          .purged "host1:1000"] := by
    decide +kernel
  obtain ⟨q, hq, hqa⟩ := Option.map_eq_some_iff.mp hactions
  have hnone := (hfinal 0 q hq [.sent "host1:1000"] _ _ [.purged "host1:1000"] hqa rfl).1
  cases hnone

end ServerlessEdge.Processing
