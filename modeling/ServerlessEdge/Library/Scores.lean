import Mathlib.Algebra.Order.Ring.Defs
import Mathlib.Data.List.MinMax
import Mathlib.Data.Prod.Lex
import Mathlib.Tactic.Linarith
import ServerlessEdge.Library.Checks

/-! Two criteria in one score. The first one, times a weight, is added to the second one,
and the first element of least score is taken. Also the search for an element of least cost
among those that qualify, where the cost may not be found. -/
namespace ServerlessEdge.Library.Scores

variable {X K : Type*} [LinearOrder K]

/-- The first of the elements of least score. -/
def First (s : X → K) (l : List X) (x : X) : Prop :=
  ∃ l₁ l₂, l = l₁ ++ x :: l₂ ∧ (∀ y ∈ l₁, s x < s y) ∧ ∀ y ∈ l₂, s x ≤ s y

/-- Least in the first criterion and, among those, in the second one. -/
def Best (f g : X → K) (l : List X) (x : X) : Prop :=
  x ∈ l ∧ ∀ y ∈ l, f x < f y ∨ f x = f y ∧ g x ≤ g y

variable {f g : X → K} {l : List X} {x y : X}

theorem First.mem {s : X → K} (h : First s l x) : x ∈ l := by
  obtain ⟨l₁, l₂, rfl, -⟩ := h
  exact List.mem_append_right _ List.mem_cons_self

theorem First.le {s : X → K} (h : First s l x) (hy : y ∈ l) : s x ≤ s y := by
  obtain ⟨l₁, l₂, rfl, hbefore, hbehind⟩ := h
  rcases List.mem_append.mp hy with hy | hy
  · exact (hbefore y hy).le
  rcases List.mem_cons.mp hy with rfl | hy
  · exact le_rfl
  · exact hbehind y hy

/-- A search that takes an element only if it is less finds the first of the least ones. -/
theorem foldl_first (s : X → K) (l : List X) (m : X) :
    First s (m :: l) (l.foldl (fun m y => if s y < s m then y else m) m) := by
  induction l generalizing m with
  | nil => exact ⟨[], [], rfl, nofun, nofun⟩
  | cons y l ih =>
    rw [List.foldl_cons]
    split
    · next hlt =>
      have hle := (ih y).le List.mem_cons_self
      obtain ⟨l₁, l₂, hl, hbefore, hbehind⟩ := ih y
      refine ⟨m :: l₁, l₂, congrArg (m :: ·) hl, ?_, hbehind⟩
      exact List.forall_mem_cons.mpr ⟨hle.trans_lt hlt, hbefore⟩
    · next hge =>
      have hmy : s m ≤ s y := not_lt.mp hge
      have hfirst := ih m
      generalize l.foldl (fun m y => if s y < s m then y else m) m = r at hfirst ⊢
      have hle := hfirst.le List.mem_cons_self
      obtain ⟨l₁, l₂, hl, hbefore, hbehind⟩ := hfirst
      cases l₁ with
      | nil =>
        obtain ⟨hm, rfl⟩ := List.cons_eq_cons.mp hl
        refine ⟨[], y :: l, congrArg (· :: y :: l) hm, nofun, ?_⟩
        exact List.forall_mem_cons.mpr ⟨hle.trans hmy, hbehind⟩
      | cons z l₁ =>
        obtain ⟨rfl, rfl⟩ := List.cons_eq_cons.mp hl
        obtain ⟨hm, hrest⟩ := List.forall_mem_cons.mp hbefore
        refine ⟨m :: y :: l₁, l₂, rfl, ?_, hbehind⟩
        exact List.forall_mem_cons.mpr ⟨hm, List.forall_mem_cons.mpr ⟨hm.trans_le hmy, hrest⟩⟩

theorem First.of_map {Y : Type*} {s : Y → K} {h : X → Y} {y : Y} (hy : First s (l.map h) y) :
    ∃ x, y = h x ∧ First (fun x => s (h x)) l x := by
  obtain ⟨m₁, m₂, hmap, hbefore, hbehind⟩ := hy
  obtain ⟨l₁, l, rfl, rfl, hl⟩ := List.map_eq_append_iff.mp hmap
  obtain ⟨x, l₂, rfl, rfl, rfl⟩ := List.map_eq_cons_iff.mp hl
  refine ⟨x, rfl, l₁, l₂, rfl, fun z hz => ?_, fun z hz => ?_⟩
  · exact hbefore (h z) (List.mem_map_of_mem hz)
  · exact hbehind (h z) (List.mem_map_of_mem hz)

theorem exists_best (f g : X → K) (hl : l ≠ []) : ∃ x, Best f g l x := by
  cases hmin : l.argmin fun x => toLex (f x, g x) with
  | none => exact absurd (List.argmin_eq_none.mp hmin) hl
  | some x =>
    refine ⟨x, List.argmin_mem hmin, fun y hy => ?_⟩
    exact Prod.Lex.toLex_le_toLex.mp (List.le_of_mem_argmin hy hmin)

theorem Best.unique (hx : Best f g l x) (hy : Best f g l y) : f x = f y ∧ g x = g y := by
  rcases hx.2 y hy.1 with hlt | ⟨heq, hle⟩
  · rcases hy.2 x hx.1 with hlt' | ⟨heq', -⟩
    · exact absurd hlt hlt'.asymm
    · exact absurd heq' hlt.ne'
  · rcases hy.2 x hx.1 with hlt' | ⟨-, hle'⟩
    · exact absurd heq hlt'.ne'
    · exact ⟨heq, le_antisymm hle hle'⟩

theorem Best.of_eq (hx : Best f g l x) (hy : y ∈ l) (hf : f y = f x) (hg : g y ≤ g x) :
    Best f g l y := by
  refine ⟨hy, fun z hz => (hx.2 z hz).imp (fun h => hf ▸ h) fun h => ⟨hf.trans h.1, hg.trans h.2⟩⟩

section Weights

variable [CommRing K]

def score (f g : X → K) (w : K) (x : X) : K := w * f x + g x

/-- An element that is not best has not so much less of the second criterion that its score
is less, nor so much that its score is the same, unless a best one comes before it. -/
def Separated (f g : X → K) (w : K) (l : List X) : Prop :=
  ∀ l₁ y l₂, l = l₁ ++ y :: l₂ → ∀ x, Best f g l x → f x < f y →
    g x - g y < w * (f y - f x) ∨ g x - g y = w * (f y - f x) ∧ ∃ z ∈ l₁, Best f g l z

variable [IsStrictOrderedRing K] {w : K}

/-- The score finds the best element exactly when the weight separates the others from it. -/
theorem best_iff_separated (h : First (score f g w) l x) : Best f g l x ↔ Separated f g w l := by
  constructor
  · intro hx m₁ y m₂ hl z hz hlt
    obtain ⟨hf, hg⟩ := hz.unique hx
    have hy : y ∈ l := hl ▸ List.mem_append_right _ List.mem_cons_self
    have hle : w * f x + g x ≤ w * f y + g y := h.le hy
    rw [hf, hg, mul_sub]
    rcases hle.lt_or_eq with hscore | hscore
    · left
      linarith
    · refine .inr ⟨by linarith, x, ?_, hx⟩
      -- y is not before x, where all scores are greater
      obtain ⟨l₁, l₂, hsplit, hbefore, -⟩ := h
      have hne : y ≠ x := by
        rintro rfl
        exact hlt.ne hf
      have hnot : y ∉ l₁ := fun hmem => (hbefore y hmem).ne hscore
      rcases List.append_eq_append_iff.mp (hl.symm.trans hsplit) with ⟨as, has, hbs⟩ | ⟨as, has, hbs⟩
      · cases as with
        | nil =>
          rw [List.nil_append] at hbs
          exact absurd (List.cons_eq_cons.mp hbs).1 hne
        | cons a as =>
          obtain ⟨rfl, -⟩ := List.cons_eq_cons.mp hbs
          exact absurd (has ▸ List.mem_append_right _ List.mem_cons_self) hnot
      · cases as with
        | nil =>
          rw [List.nil_append] at hbs
          exact absurd (List.cons_eq_cons.mp hbs).1.symm hne
        | cons a as =>
          obtain ⟨rfl, -⟩ := List.cons_eq_cons.mp hbs
          rw [has]
          exact List.mem_append_right _ List.mem_cons_self
  · intro hsep
    obtain ⟨z, hz⟩ := exists_best f g (List.ne_nil_of_mem h.mem)
    have hle : w * f x + g x ≤ w * f z + g z := h.le hz.1
    rcases hz.2 x h.mem with hlt | ⟨heq, -⟩
    · obtain ⟨l₁, l₂, hsplit, hbefore, -⟩ := h
      rcases hsep l₁ x l₂ hsplit z hz hlt with hgap | ⟨hgap, z', hz', hbest⟩
      · rw [mul_sub] at hgap
        linarith
      · obtain ⟨hf, hg⟩ := hbest.unique hz
        have hgreater : w * f x + g x < w * f z' + g z' := hbefore z' hz'
        rw [hf, hg] at hgreater
        rw [mul_sub] at hgap
        linarith
    · refine hz.of_eq h.mem heq.symm ?_
      rw [heq] at hle
      linarith

/-- A weight greater than all differences of the second criterion separates elements that
differ by one at least in the first. -/
theorem separated_of_gap (hw : 0 ≤ w) (hf : ∀ x ∈ l, ∀ y ∈ l, f x < f y → 1 ≤ f y - f x)
    (hg : ∀ x ∈ l, ∀ y ∈ l, g x - g y < w) : Separated f g w l := by
  intro l₁ y l₂ hl x hx hlt
  have hy : y ∈ l := hl ▸ List.mem_append_right _ List.mem_cons_self
  left
  calc g x - g y < w := hg x hx.1 y hy
    _ = w * 1 := (mul_one w).symm
    _ ≤ w * (f y - f x) := mul_le_mul_of_nonneg_left (hf x hx.1 y hy hlt) hw

/-- So does one that is greater than all second criteria, where both are natural numbers. -/
theorem separated_of_nat {f g : X → ℕ} {n : ℕ} (hg : ∀ x ∈ l, g x < n) :
    Separated (fun x => (f x : K)) (fun x => (g x : K)) n l := by
  apply separated_of_gap (Nat.cast_nonneg n)
  · intro x _ y _ hlt
    have hsucc : f x + 1 ≤ f y := Nat.cast_lt.mp hlt
    have hcast : (f x : K) + 1 ≤ f y := by exact_mod_cast hsucc
    linarith
  · intro x hx y _
    have hx' : (g x : K) < n := Nat.cast_lt.mpr (hg x hx)
    have hy' : (0 : K) ≤ g y := Nat.cast_nonneg (g y)
    linarith

end Weights

section Search
open Checks

variable {ε A T : Type} [LinearOrder T] (p : A → Prop) [DecidablePred p] (cost : A → Except ε T)

/-- An element that qualifies takes the place of the best one so far if it costs less. -/
def improve (best : Option (T × A)) (a : A) : Except ε (Option (T × A)) :=
  if p a then do
    let t ← cost a
    match best with
    | none => pure (some (t, a))
    | some (least, _) => if t < least then pure (some (t, a)) else pure best
  else pure best

/-- The best of some elements, if there are any that qualify. -/
def Least (l : List A) : Option (T × A) → Prop
  | none => ∀ a ∈ l, ¬ p a
  | some (t, a) => (a ∈ l ∧ p a ∧ cost a = .ok t) ∧ ∀ b ∈ l, p b → ∃ t', cost b = .ok t' ∧ t ≤ t'

variable {p cost}

theorem improve_least {l : List A} {a : A} {best best' : Option (T × A)} (h : Least p cost l best)
    (ha : improve p cost best a = .ok best') : Least p cost (l ++ [a]) best' := by
  have hlast : a ∈ l ++ [a] := List.mem_append_right l List.mem_cons_self
  rw [improve] at ha
  split at ha
  · rename_i hp
    obtain ⟨t, ht, ha⟩ := bind_ok.mp ha
    cases best with
    | none =>
      cases ha
      refine ⟨⟨hlast, hp, ht⟩, fun b hb hpb => ?_⟩
      rcases List.mem_append.mp hb with hb | hb
      · exact absurd hpb (h b hb)
      · rw [List.mem_singleton.mp hb]
        exact ⟨t, ht, le_rfl⟩
    | some m =>
      obtain ⟨⟨hm, hpm, hcost⟩, hleast⟩ := h
      simp only at ha
      split at ha
      · rename_i hlt
        cases ha
        refine ⟨⟨hlast, hp, ht⟩, fun b hb hpb => ?_⟩
        rcases List.mem_append.mp hb with hb | hb
        · obtain ⟨t', ht', hle⟩ := hleast b hb hpb
          exact ⟨t', ht', hlt.le.trans hle⟩
        · rw [List.mem_singleton.mp hb]
          exact ⟨t, ht, le_rfl⟩
      · rename_i hge
        cases ha
        refine ⟨⟨List.mem_append_left _ hm, hpm, hcost⟩, fun b hb hpb => ?_⟩
        rcases List.mem_append.mp hb with hb | hb
        · exact hleast b hb hpb
        · rw [List.mem_singleton.mp hb]
          exact ⟨t, ht, not_lt.mp hge⟩
  · rename_i hp
    cases ha
    cases best with
    | none => exact List.forall_mem_append.mpr ⟨h, List.forall_mem_singleton.mpr hp⟩
    | some m =>
      refine ⟨⟨List.mem_append_left _ h.1.1, h.1.2⟩, fun b hb hpb => ?_⟩
      rcases List.mem_append.mp hb with hb | hb
      · exact h.2 b hb hpb
      · rw [List.mem_singleton.mp hb] at hpb
        exact absurd hpb hp

theorem foldlM_improve {l : List A} {best : Option (T × A)}
    (h : l.foldlM (improve p cost) none = .ok best) : Least p cost l best := by
  have hnil : Least p cost [] none := List.forall_mem_nil _
  exact foldlM_passed (Least p cost) (fun _ _ _ _ => improve_least) hnil h

end Search

end ServerlessEdge.Library.Scores
