import ServerlessEdge.Library.Checks
import ServerlessEdge.Library.Leaders
import ServerlessEdge.Estimator.Tracking
import Mathlib.Data.Nat.Cast.Order.Basic

/-! When the estimators choose a destination. Their searches start from a bound, and
return the empty string if no value beats it. -/
namespace ServerlessEdge.Estimator
open Std Library Leaders Triple

/-- A destination with a name beats the bound, and the destination without a name if
there is one. -/
def Leads (aBound : ℚ) (aValues : List (String × ℚ)) : Prop :=
  ∃ x ∈ aValues, x.1 ≠ "" ∧ aBound < x.2 ∧ ∀ y ∈ aValues, y.1 = "" → y.2 < x.2

instance (aBound : ℚ) (aValues : List (String × ℚ)) : Decidable (Leads aBound aValues) :=
  inferInstanceAs (Decidable (∃ x ∈ aValues, x.1 ≠ "" ∧ aBound < x.2 ∧
    ∀ y ∈ aValues, y.1 = "" → y.2 < x.2))

/-- When a derived class chooses a destination, if it does not throw. -/
class Choosing (D : Type) [Derived D] where
  Offers : Readings → Rpc.LambdaRequest → D → Prop
  choose_ne {r : Readings} {aReq : Rpc.LambdaRequest} {d d' : D} {x : String × Estimates}
    (h : Offers r aReq d) (hok : Derived.choose r aReq d = .ok x d') : x.1 ≠ ""

theorem largestOf_ne {T : Type} {ys : List (String × ℚ × T)}
    (h : Leads lowest (ys.map fun x => (x.1, x.2.1))) : (DestinationTable.largestOf ys).1 ≠ "" := by
  obtain ⟨_, hmem, -, hbound, hother⟩ := h
  obtain ⟨x, hx, rfl⟩ := List.mem_map.mp hmem
  refine fold_finds (P := fun b : String × ℚ => b.1 ≠ "") (Q := fun y => y.1 ≠ "")
    (k := fun b => b.2) (w := fun y => y.2.1) (fun b y hless => ?_) (fun b y hless => ?_) hx
    (fun y hy hyn => ?_) hbound
  · simp only [if_pos hless, true_and]
    exact id
  · simp only [if_neg hless]
  · exact hother _ (List.mem_map.mpr ⟨y, hy, rfl⟩) (not_not.mp hyn)

theorem leastTime_ne {vs ps : List (String × ℚ)}
    (h : Leads lowest ((vs.zip ps).map fun x => (x.1.1, -(x.1.2 + x.2.2)))) :
    (UtilEstimator.leastTime vs ps).1 ≠ "" := by
  obtain ⟨_, hmem, -, hbound, hother⟩ := h
  obtain ⟨x, hx, rfl⟩ := List.mem_map.mp hmem
  refine fold_finds (P := fun b : (String × ℚ × ℚ) × ℚ => b.1.1 ≠ "") (Q := fun y => y.1.1 ≠ "")
    (k := fun b => -b.2) (w := fun y => -(y.1.2 + y.2.2)) (fun b y hless => ?_)
    (fun b y hless => ?_) hx (fun y hy hyn => ?_) hbound
  · simp only [if_pos (neg_lt_neg_iff.mp hless), true_and]
    exact id
  · simp only [if_neg fun hlt => hless (neg_lt_neg_iff.mpr hlt)]
  · exact hother _ (List.mem_map.mpr ⟨y, hy, rfl⟩) (not_not.mp hyn)

namespace PtimeEstimatorProbe

/-- The destinations that answer OK, with the simulated processing times. -/
def answered (aReadings : Readings) (ds : List String) : List (String × Nat) :=
  ds.filterMap fun d => match aReadings.probe d with
    | .ok ret => if ret.retcode = "OK" then some (d, ret.ptime) else none
    | .error _ => none

theorem poll_eq {r : Readings} {ds : List String} {b b' : String × Nat} (h : poll r ds b = .ok b') :
    b' = (answered r ds).foldl (fun b x => if x.2 < b.2 then x else b) b := by
  induction ds generalizing b with
  | nil =>
    cases h
    rfl
  | cons d ds ih =>
    obtain ⟨ret, hret, hrest⟩ := Checks.bind_ok.mp h
    by_cases hok : ret.retcode = "OK"
    · have hcons : answered r (d :: ds) = (d, ret.ptime) :: answered r ds := by
        simp only [answered, List.filterMap_cons, hret, if_pos hok]
      rw [hcons, List.foldl_cons]
      by_cases hless : ret.ptime < b.2
      · rw [if_pos ⟨hok, hless⟩] at hrest
        rw [if_pos hless]
        exact ih hrest
      · rw [if_neg fun hboth => hless hboth.2] at hrest
        rw [if_neg hless]
        exact ih hrest
    · have hcons : answered r (d :: ds) = answered r ds := by
        simp only [answered, List.filterMap_cons, hret, if_neg hok]
      rw [if_neg fun hboth => hok hboth.1] at hrest
      rw [hcons]
      exact ih hrest

theorem poll_ne {r : Readings} {ds : List String} {b' : String × Nat}
    (h : poll r ds ("", maxPtime) = .ok b')
    (hleads : Leads (-maxPtime) ((answered r ds).map fun x => (x.1, -(x.2 : ℚ)))) : b'.1 ≠ "" := by
  obtain ⟨_, hmem, -, hbound, hother⟩ := hleads
  obtain ⟨x, hx, rfl⟩ := List.mem_map.mp hmem
  rw [poll_eq h]
  refine fold_finds (P := fun b : String × Nat => b.1 ≠ "") (Q := fun y => y.1 ≠ "")
    (k := fun b => -(b.2 : ℚ)) (w := fun y => -(y.2 : ℚ)) (fun b y hless => ?_)
    (fun b y hless => ?_) hx (fun y hy hyn => ?_) hbound
  · simp only [if_pos (Nat.cast_lt.mp (neg_lt_neg_iff.mp hless)), true_and]
    exact id
  · simp only [if_neg fun hlt => hless (neg_lt_neg_iff.mpr (Nat.cast_lt.mpr hlt))]
  · exact hother _ (List.mem_map.mpr ⟨y, hy, rfl⟩) (not_not.mp hyn)

end PtimeEstimatorProbe

/-- What an estimator inside the state has returned. -/
theorem ok_of_ofExcept_bind {D A B : Type} {x : Except String A} {f : A → EStateM String D B}
    {d d' : D} {b : B} (h : (ofExcept x >>= f) d = .ok b d') : ∃ a, x = .ok a ∧ f a d = .ok b d' := by
  cases x with
  | ok a => exact ⟨a, rfl, h⟩
  | error err => cases h

/-- The values of all destinations of a lambda that is in the table. -/
theorem all_ok {S T : Type} {t t' : DestinationTable T} {l : String} {f : ObjFunc S T} {s s' : S}
    {vs : List (String × ℚ)} (h : t.all l f s = .ok (vs, t', s')) :
    ∃ row : ExtTreeMap String T, t.theDescriptors[l]? = some row ∧ vs.map Prod.fst = row.keys := by
  unfold DestinationTable.all at h
  cases hr : t.theDescriptors[l]? with
  | none =>
    rw [hr] at h
    cases h
  | some row =>
    rw [hr] at h
    cases h
    refine ⟨row, rfl, ?_⟩
    rw [← ExtTreeMap.map_fst_toList_eq_keys, ← DestinationTable.evaluate_keys (f := f) row.toList s,
      List.map_map]
    rfl

/-- The best destination of a lambda that is in the table. -/
theorem best_ne {S T : Type} {t t' : DestinationTable T} {l : String} {f : ObjFunc S T} {s s' : S}
    {b : String × ℚ} (h : t.best l f s = .ok (b, t', s'))
    (hleads : ∀ row : ExtTreeMap String T, t.theDescriptors[l]? = some row →
      Leads lowest ((evaluate f row.toList s).1.map fun x => (x.1, x.2.1))) : b.1 ≠ "" := by
  unfold DestinationTable.best at h
  cases hr : t.theDescriptors[l]? with
  | none =>
    rw [hr] at h
    cases h
  | some row =>
    rw [hr] at h
    cases h
    exact largestOf_ne (hleads row hr)

section Instances

variable {E : Type} [LinearEstimator E]

/-- The round-trip times of the destinations, negated. -/
instance : Choosing (PtimeEstimatorRtt E) where
  Offers r aReq e := ∀ row : ExtTreeMap String (RttEstimator.Descriptor E),
    e.theRttEstimator.theTable.theDescriptors[aReq.name]? = some row →
      Leads lowest ((evaluate (fun x (_ : Unit) => ((-(x.rtt r.clocks (size aReq)).1,
        (x.rtt r.clocks (size aReq)).2), ())) row.toList ()).1.map fun x => (x.1, x.2.1))
  choose_ne h hok := by
    obtain ⟨⟨b, e'⟩, hshort, hret⟩ := ok_of_ofExcept_bind hok
    obtain ⟨⟨b', t, u⟩, hbest, hb⟩ := Checks.bind_ok.mp hshort
    cases hb
    cases hret
    exact best_ne hbest h

/-- The sums of round-trip and processing times, negated. -/
instance : Choosing (PtimeEstimatorUtil E) where
  Offers r aReq e := ∀ vs e' ps t cs,
    e.theRttEstimator.rtts r.clocks aReq.name (size aReq) = .ok (vs, e') →
    e.theUtilEstimator.theTable.all aReq.name (UtilEstimator.LambdaDescriptor.ptime
      e.theUtilEstimator.theLoadTimeout r.clocks (size aReq)) e.theUtilEstimator.theComputers =
        .ok (ps, t, cs) → Leads lowest ((vs.zip ps).map fun x => (x.1.1, -(x.1.2 + x.2.2)))
  choose_ne h hok := by
    obtain ⟨⟨vs, e'⟩, hrtts, hrest⟩ := ok_of_ofExcept_bind hok
    obtain ⟨⟨b, u⟩, hbest, hret⟩ := ok_of_ofExcept_bind hrest
    obtain ⟨⟨ps, t, cs⟩, hall, hb⟩ := Checks.bind_ok.mp hbest
    cases hb
    cases hret
    exact leastTime_ne (h vs e' ps t cs hrtts hall)

/-- The overall times of the destinations, negated. -/
instance : Choosing (PtimeEstimatorDelay E) where
  Offers r aReq e := ∀ row : ExtTreeMap String (UtilEstimator.LambdaDescriptor E),
    e.theUtilEstimator.theTable.theDescriptors[aReq.name]? = some row →
      Leads lowest ((evaluate (fun x cs =>
        let myRet := UtilEstimator.LambdaDescriptor.ptime e.theUtilEstimator.theLoadTimeout r.clocks
          (size aReq) x cs
        ((-myRet.1.1, myRet.1.2), myRet.2)) row.toList e.theUtilEstimator.theComputers).1.map
          fun x => (x.1, x.2.1))
  choose_ne h hok := by
    obtain ⟨⟨b, u⟩, hsmall, hret⟩ := ok_of_ofExcept_bind hok
    obtain ⟨⟨b', t, cs⟩, hbest, hb⟩ := Checks.bind_ok.mp hsmall
    cases hb
    cases hret
    exact best_ne hbest h

/-- The simulated processing times of the destinations that answer OK, negated. -/
instance : Choosing PtimeEstimatorProbe where
  Offers r aReq e := ∀ row : ExtTreeMap String Unit,
    e.theDestinations.theDescriptors[aReq.name]? = some row →
      Leads (-PtimeEstimatorProbe.maxPtime)
        ((PtimeEstimatorProbe.answered r row.keys).map fun x => (x.1, -(x.2 : ℚ)))
  choose_ne h hok := by
    obtain ⟨⟨vs, t, u⟩, hall, hrest⟩ := ok_of_ofExcept_bind hok
    obtain ⟨b, hpoll, hret⟩ := ok_of_ofExcept_bind hrest
    cases hret
    obtain ⟨row, hrow, hkeys⟩ := all_ok hall
    rw [hkeys] at hpoll
    exact PtimeEstimatorProbe.poll_ne hpoll (h row hrow)

end Instances

end ServerlessEdge.Estimator
