import Mathlib.Logic.Function.Basic

/-! Writes that take a function towards a target. They may be repeated and cut
short, and come in any order. -/
namespace ServerlessEdge.Library.Writes

variable {K V : Type*} [DecidableEq K] {t g : K → V} {ks : List K}

/-- Give a key the value that it has in the target. -/
def write (t g : K → V) (k : K) : K → V := Function.update g k (t k)

/-- A function that has reached its target but for some keys. -/
def Off (ks : List K) (t g : K → V) : Prop := ∀ k, k ∉ ks → g k = t k

theorem write_target (t : K → V) (k : K) : write t t k = t := Function.update_eq_self k t

theorem Off.write (h : Off ks t g) (k : K) : Off ks t (write t g k) := by
  intro k' hk'
  rw [Writes.write]
  by_cases hk : k' = k
  · rw [hk, Function.update_self]
  · rw [Function.update_of_ne hk]
    exact h k' hk'

/-- Once all the keys left have been written, the target is reached. -/
theorem Off.writes (h : Off ks t g) : ks.foldl (Writes.write t) g = t := by
  induction ks generalizing g with
  | nil => exact funext fun k => h k List.not_mem_nil
  | cons k ks ih =>
    apply ih
    intro k' hk'
    by_cases hk : k' = k
    · rw [hk, Writes.write, Function.update_self]
    · rw [Writes.write, Function.update_of_ne hk]
      exact h k' (List.not_mem_cons_of_ne_of_not_mem hk hk')

/-- Give each of some keys a value of its own. -/
def writeAll (g : K → V) (l : List (K × V)) : K → V :=
  l.foldl (fun g p => Function.update g p.1 p.2) g

theorem writeAll_of_notMem {k : K} {l : List (K × V)} (h : k ∉ l.map Prod.fst) :
    writeAll g l k = g k := by
  induction l generalizing g with
  | nil => rfl
  | cons p l ih =>
    obtain ⟨hne, hrest⟩ := not_or.mp (fun hk => h (List.mem_cons.mpr hk))
    exact (ih hrest).trans (Function.update_of_ne hne _ _)

theorem writeAll_of_mem {k : K} {v : V} {l : List (K × V)} (hl : (l.map Prod.fst).Nodup)
    (h : (k, v) ∈ l) : writeAll g l k = v := by
  induction l generalizing g with
  | nil => cases h
  | cons p l ih =>
    obtain ⟨hp, hnodup⟩ := List.nodup_cons.mp hl
    rcases List.mem_cons.mp h with rfl | h
    · exact (writeAll_of_notMem hp).trans (Function.update_self ..)
    · exact ih hnodup h

end ServerlessEdge.Library.Writes
