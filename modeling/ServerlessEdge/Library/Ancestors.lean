import Mathlib.Data.Finset.Card
import Mathlib.Logic.Relation

/-! The ancestors in a table of predecessors, collected by a recursion without a
set of the vertices visited: it ends at a vertex unless a cycle leads there. -/
namespace ServerlessEdge.Library.Ancestors
open Relation

section Loops

variable {α β : Type*} {f : β → α → Option β}

/-- A loop of calls ends when all of them do. -/
theorem foldlM_isSome {P : α → Prop} (hf : ∀ b a, (f b a).isSome ↔ P a) (as : List α) (b : β) :
    (as.foldlM f b).isSome ↔ ∀ a ∈ as, P a := by
  induction as generalizing b with
  | nil => exact iff_of_true rfl nofun
  | cons a as ih =>
    rw [List.foldlM_cons, List.forall_mem_cons, ← hf b a]
    cases hfa : f b a with
    | none => exact iff_of_false nofun (fun h => nomatch h.1)
    | some c => exact (ih c).trans (and_iff_right rfl).symm

theorem foldlM_adds {R : β → Prop} {Q : α → Prop}
    (hf : ∀ b a b', f b a = some b' → (R b' ↔ R b ∨ Q a)) {as : List α} {b b' : β}
    (h : as.foldlM f b = some b') : R b' ↔ R b ∨ ∃ a ∈ as, Q a := by
  induction as generalizing b with
  | nil =>
    cases h
    simp
  | cons a as ih =>
    rw [List.foldlM_cons, Option.bind_eq_bind, Option.bind_eq_some_iff] at h
    obtain ⟨c, hc, hrest⟩ := h
    rw [ih hrest, hf b a c hc, List.exists_mem_cons_iff, or_assoc]

end Loops

variable {V : Type*} (preds : V → List V)

/-- The edge from a vertex to one that has it as a predecessor. -/
def Edge (p v : V) : Prop := p ∈ preds v

/-- No vertex on a path to v is its own ancestor. -/
def Clear (v : V) : Prop := ∀ x, ReflTransGen (Edge preds) x v → ¬ TransGen (Edge preds) x x

/-- The recursion, with at most that many nested calls. -/
def collect [DecidableEq V] : ℕ → V → Option (Finset V)
  | 0, _ => none
  | n + 1, v => (preds v).foldlM (fun ret p => do
      let ancestors ← collect n p
      return insert p ret ∪ ancestors) ∅

variable {preds}

theorem Clear.of_edge {p v : V} (h : Clear preds v) (hp : Edge preds p v) : Clear preds p :=
  fun x hx => h x (hx.tail hp)

theorem Clear.of_transGen {p v : V} (h : Clear preds v) (hp : TransGen (Edge preds) p v) :
    Clear preds p := fun x hx => h x (hx.trans hp.to_reflTransGen)

variable [DecidableEq V]

/-- An ancestor has fewer ancestors, as it is not one of its own. -/
theorem Clear.mem_erase {p v : V} (h : Clear preds v) (hp : TransGen (Edge preds) p v)
    {T : Finset V} (hT : ∀ x, TransGen (Edge preds) x v → x ∈ T) :
    ∀ x, TransGen (Edge preds) x p → x ∈ T.erase p := by
  intro x hx
  have hne : x ≠ p := fun heq => h p hp.to_reflTransGen (heq ▸ hx)
  exact Finset.mem_erase.mpr ⟨hne, hT x (hx.trans hp)⟩

theorem mem_collect {n : ℕ} {v : V} {s : Finset V} (h : collect preds n v = some s) {x : V} :
    x ∈ s ↔ TransGen (Edge preds) x v := by
  induction n generalizing v s with
  | zero => cases h
  | succ n ih =>
    have hone (ret : Finset V) (p : V) (ret' : Finset V)
        (hret : (do let ancestors ← collect preds n p; return insert p ret ∪ ancestors) = some ret') :
        x ∈ ret' ↔ x ∈ ret ∨ ReflTransGen (Edge preds) x p := by
      rw [Option.bind_eq_bind, Option.bind_eq_some_iff] at hret
      obtain ⟨ancestors, hancestors, heq⟩ := hret
      cases heq
      rw [Finset.mem_union, Finset.mem_insert, ih hancestors, reflTransGen_iff_eq_or_transGen,
        eq_comm (a := p), or_comm (a := x = p), or_assoc]
    rw [foldlM_adds (R := fun ret => x ∈ ret) hone h, TransGen.tail'_iff]
    simp only [Finset.notMem_empty, false_or]
    exact exists_congr fun p => and_comm

theorem collect_isSome_succ {n : ℕ} {v : V} :
    (collect preds (n + 1) v).isSome ↔ ∀ p, Edge preds p v → (collect preds n p).isSome := by
  refine foldlM_isSome (P := fun p => (collect preds n p).isSome) (fun ret p => ?_) (preds v) ∅
  cases collect preds n p with
  | none => exact Iff.rfl
  | some ancestors => exact iff_of_true rfl rfl

/-- No more calls are nested than there are ancestors. -/
theorem collect_isSome {n : ℕ} {v : V} (h : Clear preds v) {T : Finset V}
    (hT : ∀ x, TransGen (Edge preds) x v → x ∈ T) (hn : T.card < n) :
    (collect preds n v).isSome := by
  induction n generalizing v T with
  | zero => exact absurd hn (Nat.not_lt_zero _)
  | succ n ih =>
    refine collect_isSome_succ.mpr fun p hp => ?_
    have hmem : p ∈ T := hT p (.single hp)
    have hcard := Finset.card_erase_lt_of_mem hmem
    exact ih (h.of_edge hp) (h.mem_erase (.single hp) hT) (by omega)

theorem clear_of_collect {n : ℕ} {v : V} (h : (collect preds n v).isSome) : Clear preds v := by
  induction n generalizing v with
  | zero => cases h
  | succ n ih =>
    intro x hx hcycle
    rw [collect_isSome_succ] at h
    rcases reflTransGen_iff_eq_or_transGen.mp hx with rfl | hx
    · -- the last edge of the cycle comes from a vertex that it leads to
      obtain ⟨p, hpath, hp⟩ := TransGen.tail'_iff.mp hcycle
      exact ih (h p hp) v hpath hcycle
    · obtain ⟨p, hpath, hp⟩ := TransGen.tail'_iff.mp hx
      exact ih (h p hp) x hpath hcycle

/-- Above a vertex out of C there is a first one. -/
theorem exists_first {C T : Finset V} {v : V} (h : Clear preds v)
    (hT : ∀ x, TransGen (Edge preds) x v → x ∈ T) (hv : v ∉ C) :
    ∃ u, ReflTransGen (Edge preds) u v ∧ u ∉ C ∧ ∀ x, TransGen (Edge preds) x u → x ∈ C := by
  induction T using Finset.strongInduction generalizing v with
  | H T ih =>
    by_cases hall : ∀ x, TransGen (Edge preds) x v → x ∈ C
    · exact ⟨v, .refl, hv, hall⟩
    · push Not at hall
      obtain ⟨x, hx, hxC⟩ := hall
      obtain ⟨u, hu, huC, hfirst⟩ := ih (T.erase x) (Finset.erase_ssubset (hT x hx))
        (h.of_transGen hx) (h.mem_erase hx hT) hxC
      exact ⟨u, hu.trans hx.to_reflTransGen, huC, hfirst⟩

/-- A finite graph has no cycle if its vertices can be numbered along the edges. -/
theorem clear_iff_rank {T : Finset V} (hT : ∀ p v, Edge preds p v → p ∈ T) :
    (∀ v, Clear preds v) ↔ ∃ rank : V → ℕ, ∀ p v, Edge preds p v → rank p < rank v := by
  constructor
  · intro h
    have hall (v x : V) (hx : TransGen (Edge preds) x v) : x ∈ T := by
      obtain ⟨p, hp, -⟩ := TransGen.head'_iff.mp hx
      exact hT x p hp
    -- a vertex is numbered by its ancestors
    refine ⟨fun v => ((collect preds (T.card + 1) v).getD ∅).card, fun p v hp => ?_⟩
    obtain ⟨s, hs⟩ := Option.isSome_iff_exists.mp
      (collect_isSome (h p) (hall p) (Nat.lt_succ_self _))
    obtain ⟨t, ht⟩ := Option.isSome_iff_exists.mp
      (collect_isSome (h v) (hall v) (Nat.lt_succ_self _))
    simp only [hs, ht, Option.getD_some]
    apply Finset.card_lt_card
    refine Finset.ssubset_iff_of_subset (fun x hx => ?_) |>.mpr ⟨p, ?_, fun hmem => ?_⟩
    · exact (mem_collect ht).mpr (((mem_collect hs).mp hx).tail hp)
    · exact (mem_collect ht).mpr (.single hp)
    · exact h p p .refl ((mem_collect hs).mp hmem)
  · rintro ⟨rank, hrank⟩ v x - hcycle
    have hlt {x y : V} (hxy : TransGen (Edge preds) x y) : rank x < rank y := by
      induction hxy with
      | single he => exact hrank _ _ he
      | tail _ he ih => exact ih.trans (hrank _ _ he)
    exact Nat.lt_irrefl _ (hlt hcycle)

end ServerlessEdge.Library.Ancestors
