import Mathlib.Order.MinMax

/-! Searches for the best element of a list, by a loop that keeps the best one so
far and starts from a bound that has to be beaten. -/
namespace ServerlessEdge.Library.Leaders

variable {B X V : Type*} [LinearOrder V] {g : B → X → B} {k : B → V} {w : X → V}
  {P : B → Prop} {Q : X → Prop} {x : X}

private theorem fold_keeps (hbetter : ∀ b x, k b < w x → k (g b x) = w x ∧ (Q x → P (g b x)))
    (hworse : ∀ b x, ¬ k b < w x → g b x = b) {v : V} {xs : List X}
    (hother : ∀ y ∈ xs, ¬ Q y → w y < v) {b : B} (hb : P b) (hv : v ≤ k b) :
    P (xs.foldl g b) := by
  induction xs generalizing b with
  | nil => exact hb
  | cons y xs ih =>
    obtain ⟨hy, hrest⟩ := List.forall_mem_cons.mp hother
    rw [List.foldl_cons]
    by_cases hless : k b < w y
    · obtain ⟨hkey, hP⟩ := hbetter b y hless
      have hQ : Q y := by
        by_contra hn
        exact absurd (hy hn) (not_lt.mpr (hv.trans hless.le))
      exact ih hrest (hP hQ) (hkey ▸ hv.trans hless.le)
    · rw [hworse b y hless]
      exact ih hrest hb hv

/-- What holds of an element that beats the bound and all those it does not hold of,
holds of the element found. -/
theorem fold_finds (hbetter : ∀ b x, k b < w x → k (g b x) = w x ∧ (Q x → P (g b x)))
    (hworse : ∀ b x, ¬ k b < w x → g b x = b) {xs : List X} (hx : x ∈ xs)
    (hother : ∀ y ∈ xs, ¬ Q y → w y < w x) {b : B} (hb : k b < w x) :
    P (xs.foldl g b) := by
  induction xs generalizing b with
  | nil => cases hx
  | cons y xs ih =>
    obtain ⟨hy, hrest⟩ := List.forall_mem_cons.mp hother
    rw [List.foldl_cons]
    by_cases hless : k b < w y
    · obtain ⟨hkey, hP⟩ := hbetter b y hless
      by_cases hlead : w x ≤ w y
      · have hQy : Q y := by
          by_contra hn
          exact absurd (hy hn) (not_lt.mpr hlead)
        exact fold_keeps hbetter hworse hrest (hP hQy) (hkey ▸ hlead)
      · have hmem : x ∈ xs := by
          refine (List.mem_cons.mp hx).resolve_left fun heq => ?_
          exact hlead (heq ▸ le_refl _)
        exact ih hmem hrest (hkey ▸ not_le.mp hlead)
    · rw [hworse b y hless]
      have hmem : x ∈ xs := by
        refine (List.mem_cons.mp hx).resolve_left fun heq => ?_
        exact hless (heq ▸ hb)
      exact ih hmem hrest hb

/-- The least value found by such a loop is the greatest of the lower bounds. -/
theorem le_foldl_min {u : X → V} {xs : List X} {m v : V} :
    v ≤ xs.foldl (fun m x => min m (u x)) m ↔ v ≤ m ∧ ∀ x ∈ xs, v ≤ u x := by
  induction xs generalizing m with
  | nil => simp
  | cons x xs ih => rw [List.foldl_cons, ih, le_min_iff, List.forall_mem_cons, and_assoc]

/-- It is the bound or the value of an element. -/
theorem foldl_min_cases (u : X → V) (xs : List X) (m : V) :
    xs.foldl (fun m x => min m (u x)) m = m ∨ ∃ x ∈ xs, xs.foldl (fun m x => min m (u x)) m = u x := by
  induction xs generalizing m with
  | nil => exact .inl rfl
  | cons x xs ih =>
    rw [List.foldl_cons]
    rcases ih (min m (u x)) with h | ⟨y, hy, h⟩
    · rw [h]
      rcases min_choice m (u x) with hm | hx
      · exact .inl hm
      · exact .inr ⟨x, List.mem_cons_self, hx⟩
    · exact .inr ⟨y, List.mem_cons_of_mem _ hy, h⟩

end ServerlessEdge.Library.Leaders
