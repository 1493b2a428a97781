import Mathlib.Algebra.Order.Field.Basic
import Mathlib.Tactic.Ring

/-! Averages over time of a value that changes at certain times, and weighted means of
samples of it. The entries of a list are times with the values. -/
namespace ServerlessEdge.Library.Averages

variable {K : Type*} [Field K] [LinearOrder K]

/-- The integral, from W on, of a value that lasts from its time to the next one. -/
def integral (W : K) : List (K × K) → K
  | x :: y :: l => x.2 * (max W y.1 - max W x.1) + integral W (y :: l)
  | _ => 0

/-- The sum of samples, each weighted with the time since the one before. -/
def sampled : K → List (K × K) → K
  | _, [] => 0
  | last, x :: l => x.2 * (x.1 - last) + sampled x.1 l

/-- The time of the last entry. -/
def lastTime : K → List (K × K) → K
  | last, [] => last
  | _, x :: l => lastTime x.1 l

omit [Field K] in
theorem le_lastTime {W last : K} {l : List (K × K)} (hlast : W ≤ last) (h : ∀ x ∈ l, W ≤ x.1) :
    W ≤ lastTime last l := by
  induction l generalizing last with
  | nil => exact hlast
  | cons x l ih =>
    rw [List.forall_mem_cons] at h
    exact ih h.1 h.2

omit [LinearOrder K] in
/-- Samples that are all alike. -/
theorem sampled_steady {q last : K} {l : List (K × K)} (h : ∀ x ∈ l, x.2 = q) :
    sampled last l = q * (lastTime last l - last) := by
  induction l generalizing last with
  | nil => rw [sampled, lastTime, sub_self, mul_zero]
  | cons x l ih =>
    rw [List.forall_mem_cons] at h
    rw [sampled, lastTime, ih h.2, h.1]
    ring

theorem integral_steady {W q : K} {x : K × K} {l : List (K × K)} (h : ∀ y ∈ x :: l, y.2 = q) :
    integral W (x :: l) = q * (max W (lastTime x.1 l) - max W x.1) := by
  induction l generalizing x with
  | nil => rw [integral, lastTime, sub_self, mul_zero]; exact nofun
  | cons y l ih =>
    rw [List.forall_mem_cons] at h
    rw [integral, ih h.2, h.1, lastTime]
    ring

end ServerlessEdge.Library.Averages
