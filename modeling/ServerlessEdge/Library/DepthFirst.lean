import Mathlib.Data.List.Basic
import Mathlib.Logic.Relation
import Mathlib.Order.Monotone.Basic
import Mathlib.Order.WellFounded

/-! Depth-first search with a list of the vertices found: what it finds, and for which
graphs it finds the vertices in increasing order. -/
namespace ServerlessEdge.Library.DepthFirst
open Relation

section Search

variable {α : Type*} {next : α → α → Prop} {vs : List α}

/-- The loop of the search at a vertex over the vertices still to be looked at, from the
vertices found before to those found after. -/
inductive Scan (next : α → α → Prop) (vs : List α) : α → List α → List α → List α → Prop
  | nil {cur : α} {c : List α} : Scan next vs cur [] c c
  | seen {cur i : α} {l c c' : List α} : i ∈ c → Scan next vs cur l c c' →
      Scan next vs cur (i :: l) c c'
  | apart {cur i : α} {l c c' : List α} : ¬ next cur i → Scan next vs cur l c c' →
      Scan next vs cur (i :: l) c c'
  | found {cur i : α} {l c c₁ c' : List α} : i ∉ c → next cur i → Scan next vs i vs (c ++ [i]) c₁ →
      Scan next vs cur l c₁ c' → Scan next vs cur (i :: l) c c'

/-- There is a path, along which each vertex after the first is in the list. -/
def Reached (next : α → α → Prop) (vs : List α) : α → α → Prop :=
  ReflTransGen fun x y => y ∈ vs ∧ next x y

namespace Scan

variable {cur root : α} {l c c' : List α}

theorem initial (h : Scan next vs cur l c c') : c <+: c' := by
  induction h with
  | nil => exact List.prefix_refl _
  | seen _ _ ih => exact ih
  | apart _ _ ih => exact ih
  | found _ _ _ _ ih₁ ih => exact ((List.prefix_append _ _).trans ih₁).trans ih

theorem subset (h : Scan next vs cur l c c') : c ⊆ c' := h.initial.subset

theorem found_all (h : Scan next vs cur l c c') : ∀ i ∈ l, next cur i → i ∈ c' := by
  induction h with
  | nil => exact fun i hi => absurd hi List.not_mem_nil
  | seen hmem hrest ih =>
    intro i hi hnext
    rcases List.mem_cons.mp hi with rfl | hi
    · exact hrest.subset hmem
    · exact ih i hi hnext
  | apart hapart _ ih =>
    intro i hi hnext
    rcases List.mem_cons.mp hi with rfl | hi
    · exact absurd hnext hapart
    · exact ih i hi hnext
  | found _ _ hfirst hrest _ ih =>
    intro i hi hnext
    rcases List.mem_cons.mp hi with rfl | hi
    · exact hrest.subset (hfirst.subset (List.mem_append_right _ List.mem_cons_self))
    · exact ih i hi hnext

/-- The loop at a vertex that has just been found looks at all that comes after it. -/
theorem closed_snoc {i : α} (h : Scan next vs i vs (c ++ [i]) c')
    (hclosed : ∀ x ∈ c', x ∉ c ++ [i] → ∀ j ∈ vs, next x j → j ∈ c') :
    ∀ x ∈ c', x ∉ c → ∀ j ∈ vs, next x j → j ∈ c' := by
  intro x hx hnew j hj hnext
  by_cases hxi : x = i
  · subst hxi
    exact h.found_all j hj hnext
  · refine hclosed x hx (fun hmem => ?_) j hj hnext
    rcases List.mem_append.mp hmem with hmem | hmem
    · exact hnew hmem
    · exact hxi (List.mem_singleton.mp hmem)

/-- What can be reached in one step from a vertex found is found. -/
theorem closed (h : Scan next vs cur l c c') :
    ∀ x ∈ c', x ∉ c → ∀ i ∈ vs, next x i → i ∈ c' := by
  induction h with
  | nil => exact fun x hx hnew => absurd hx hnew
  | seen _ _ ih => exact ih
  | apart _ _ ih => exact ih
  | @found cur i l c c₁ c' _ _ hfirst hrest ih₁ ih =>
    intro x hx hnew j hj hnext
    by_cases hx₁ : x ∈ c₁
    · exact hrest.subset (hfirst.closed_snoc ih₁ x hx₁ hnew j hj hnext)
    · exact ih x hx hx₁ j hj hnext

/-- Only what can be reached is found. -/
theorem reached (h : Scan next vs cur l c c') (hl : l ⊆ vs) :
    ∀ x ∈ c', x ∈ c ∨ TransGen (fun x y => y ∈ vs ∧ next x y) cur x := by
  induction h with
  | nil => exact fun x hx => .inl hx
  | seen _ _ ih => exact ih fun x hx => hl (List.mem_cons_of_mem _ hx)
  | apart _ _ ih => exact ih fun x hx => hl (List.mem_cons_of_mem _ hx)
  | found _ hnext _ _ ih₁ ih =>
    intro x hx
    have hstep := TransGen.single (r := fun x y => y ∈ vs ∧ next x y)
      ⟨hl List.mem_cons_self, hnext⟩
    rcases ih (fun x hx => hl (List.mem_cons_of_mem _ hx)) x hx with hx | hx
    · rcases ih₁ (fun _ hx => hx) x hx with hx | hx
      · rcases List.mem_append.mp hx with hx | hx
        · exact .inl hx
        · rw [List.mem_singleton.mp hx]
          exact .inr hstep
      · exact .inr (hstep.trans hx)
    · exact .inr hx

theorem mem_iff (h : Scan next vs root vs [] c) (x : α) :
    x ∈ root :: c ↔ Reached next vs root x := by
  constructor
  · intro hx
    rcases List.mem_cons.mp hx with rfl | hx
    · exact .refl
    · rcases h.reached (fun _ hx => hx) x hx with hx | hx
      · exact absurd hx List.not_mem_nil
      · exact hx.to_reflTransGen
  · intro hx
    induction hx with
    | refl => exact List.mem_cons_self
    | tail _ hstep ih =>
      refine List.mem_cons_of_mem _ ?_
      rcases List.mem_cons.mp ih with rfl | ih
      · exact h.found_all _ hstep.1 hstep.2
      · exact h.closed _ ih List.not_mem_nil _ hstep.1 hstep.2

/-- A vertex that is not found can be taken as found from the beginning. -/
theorem cons_root (h : Scan next vs cur l c c') (hroot : root ∉ c') :
    Scan next vs cur l (root :: c) (root :: c') := by
  induction h with
  | nil => exact .nil
  | seen hmem _ ih => exact .seen (List.mem_cons_of_mem _ hmem) (ih hroot)
  | apart hapart _ ih => exact .apart hapart (ih hroot)
  | found hi hnext hfirst hrest ih₁ ih =>
    have hroot₁ := fun hmem => hroot (hrest.subset hmem)
    refine .found (fun hmem => ?_) hnext (ih₁ hroot₁) (ih hroot)
    rcases List.mem_cons.mp hmem with rfl | hmem
    · exact hroot₁ (hfirst.subset (List.mem_append_right _ List.mem_cons_self))
    · exact hi hmem

/-- A vertex is found from one that has been found before it. -/
theorem preceded (h : Scan next vs cur l c c') : ∀ pre x post, c' = c ++ (pre ++ x :: post) →
    ∃ d, (d = cur ∨ d ∈ c ++ pre) ∧ next d x := by
  induction h with
  | nil =>
    intro pre x post heq
    have hlen := congrArg List.length heq
    simp at hlen
  | seen _ _ ih => exact ih
  | apart _ _ ih => exact ih
  | @found cur i l c c₁ c' _ hnext hfirst hrest ih₁ ih =>
    intro pre x post heq
    obtain ⟨s, hs⟩ := hfirst.initial
    obtain ⟨t, ht⟩ := hrest.initial
    have hsplit : i :: (s ++ t) = pre ++ x :: post := by
      rw [← ht, ← hs, List.append_assoc, List.append_assoc] at heq
      exact List.append_cancel_left heq
    rcases List.cons_eq_append_iff.mp hsplit with ⟨rfl, hx⟩ | ⟨pre', rfl, hpre⟩
    · cases hx
      exact ⟨cur, .inl rfl, hnext⟩
    · rcases List.append_eq_append_iff.mp hpre with ⟨u, rfl, ht'⟩ | ⟨u, hs', hx⟩
      · -- the vertex is found in the rest of the loop
        obtain ⟨d, hd, hnextd⟩ := ih u x post (by rw [← ht, ht'])
        refine ⟨d, hd.imp_right fun hd => ?_, hnextd⟩
        rw [← hs] at hd
        simpa using hd
      · cases u with
        | nil =>
          obtain ⟨d, hd, hnextd⟩ := ih [] x post (by rw [← ht]; exact congrArg _ hx.symm)
          refine ⟨d, hd.imp_right fun hd => ?_, hnextd⟩
          rw [← hs, hs'] at hd
          simpa using hd
        | cons y u =>
          cases hx
          obtain ⟨d, hd, hnextd⟩ := ih₁ pre' x u (by rw [← hs, hs'])
          refine ⟨d, .inr ?_, hnextd⟩
          rcases hd with rfl | hd
          · simp
          · simpa using hd

end Scan

end Search

section Order

variable {α : Type*} [LinearOrder α] {next : α → α → Prop} {vs : List α}

/-- The numbers of the vertices are those of a depth-first search: a vertex between two
others joined by an edge comes after one of those from the first of them on. -/
def Numbered (next : α → α → Prop) (P : α → Prop) : Prop :=
  ∀ a b e, P a → P b → P e → a < b → b < e → next a e → ∃ d, P d ∧ a ≤ d ∧ d < b ∧ next d b

/-- Other numbers in the same order are those of a depth-first search as well. -/
theorem numbered_iff {β : Type*} [LinearOrder β] {next' : β → β → Prop} {P : α → Prop}
    {P' : β → Prop} {f : α → β} (hf : StrictMono f) (hP : ∀ y, P' y ↔ ∃ x, f x = y ∧ P x)
    (hnext : ∀ x y, P x → (next' (f x) (f y) ↔ next x y)) : Numbered next' P' ↔ Numbered next P := by
  have hmem : ∀ x, P x → P' (f x) := fun x hx => (hP (f x)).mpr ⟨x, rfl, hx⟩
  constructor
  · intro h a b e ha hb he hab hbe hae
    obtain ⟨d', hd', had, hdb, hnextd⟩ := h (f a) (f b) (f e) (hmem a ha) (hmem b hb) (hmem e he)
      (hf hab) (hf hbe) ((hnext a e ha).mpr hae)
    obtain ⟨d, rfl, hd⟩ := (hP d').mp hd'
    exact ⟨d, hd, hf.le_iff_le.mp had, hf.lt_iff_lt.mp hdb, (hnext d b hd).mp hnextd⟩
  · intro h a' b' e' ha' hb' he' hab hbe hae
    obtain ⟨a, rfl, ha⟩ := (hP a').mp ha'
    obtain ⟨b, rfl, hb⟩ := (hP b').mp hb'
    obtain ⟨e, rfl, he⟩ := (hP e').mp he'
    obtain ⟨d, hd, had, hdb, hnextd⟩ := h a b e ha hb he (hf.lt_iff_lt.mp hab)
      (hf.lt_iff_lt.mp hbe) ((hnext a e ha).mp hae)
    exact ⟨f d, hmem d hd, hf.le_iff_le.mpr had, hf.lt_iff_lt.mpr hdb, (hnext d b hd).mpr hnextd⟩

/-- The vertices found are the least ones, in increasing order. -/
structure Least (P : α → Prop) (c : List α) : Prop where
  sorted : c.Pairwise (· < ·)
  lower : ∀ x ∈ c, ∀ b, P b → b < x → b ∈ c

namespace Least

variable {P : α → Prop} {c : List α} {i : α}

theorem lt_of_not_mem (h : Least P c) (hi : i ∉ c) (hPi : P i) : ∀ x ∈ c, x < i := by
  intro x hx
  rcases lt_trichotomy x i with hlt | rfl | hgt
  · exact hlt
  · exact absurd hx hi
  · exact absurd (h.lower x hx i hPi hgt) hi

theorem snoc (h : Least P c) (hi : i ∉ c) (hPi : P i) (hbelow : ∀ b, P b → b < i → b ∈ c) :
    Least P (c ++ [i]) := by
  refine ⟨List.pairwise_append.mpr ⟨h.sorted, List.pairwise_singleton _ _, ?_⟩, ?_⟩
  · intro x hx y hy
    rw [List.mem_singleton.mp hy]
    exact h.lt_of_not_mem hi hPi x hx
  · intro x hx b hPb hb
    refine List.mem_append_left _ ?_
    rcases List.mem_append.mp hx with hx | hx
    · exact h.lower x hx b hPb hb
    · rw [List.mem_singleton.mp hx] at hb
      exact hbelow b hPb hb

end Least

namespace Scan

variable {P : α → Prop} {cur root : α} {l c c' : List α}

omit [LinearOrder α] in
/-- Another vertex of the loop has been looked at. -/
private theorem loop_tail {i : α} (hloop : ∀ j ∈ vs, next cur j → j ∈ c ∨ j ∈ i :: l) (hsub : c ⊆ c')
    (hi : next cur i → i ∈ c') : ∀ j ∈ vs, next cur j → j ∈ c' ∨ j ∈ l := by
  intro j hj hnext
  rcases hloop j hj hnext with hj | hj
  · exact .inl (hsub hj)
  · rcases List.mem_cons.mp hj with rfl | hj
    · exact .inl (hi hnext)
    · exact .inr hj

/-- A vertex below the one found comes after one that is done, or in the loop before it. -/
private theorem mem_of_below [WellFoundedLT α] {i : α} (hnumbered : Numbered next P)
    (hmem : ∀ b, P b → b ∈ vs) (hcur : cur ∈ c) (hPc : ∀ x ∈ c, P x) (hleast : Least P c)
    (hl : (i :: l).Pairwise (· < ·)) (hdone : ∀ x ∈ c, cur < x → ∀ i ∈ vs, next x i → i ∈ c)
    (hloop : ∀ j ∈ vs, next cur j → j ∈ c ∨ j ∈ i :: l) (hPi : P i) (hnext : next cur i) :
    ∀ b, P b → b < i → b ∈ c := by
  intro b
  induction b using WellFoundedLT.induction with
  | ind b ihb =>
    intro hPb hb
    by_contra hnew
    have hcurb : cur < b := hleast.lt_of_not_mem hnew hPb cur hcur
    obtain ⟨d, hPd, hcurd, hdb, hnextd⟩ :=
      hnumbered cur b i (hPc cur hcur) hPb hPi hcurb hb hnext
    rcases hcurd.eq_or_lt with rfl | hlt
    · rcases hloop b (hmem b hPb) hnextd with hmem | hmem
      · exact hnew hmem
      · rcases List.mem_cons.mp hmem with rfl | hmem
        · exact lt_irrefl _ hb
        · exact lt_asymm hb ((List.pairwise_cons.mp hl).1 b hmem)
    · exact hnew (hdone d (ihb d hdb hPd (hdb.trans hb)) hlt b (hmem b hPb) hnextd)

/-- If the numbers allow it the search always goes on to the least vertex not found yet. -/
theorem least [WellFoundedLT α] (hnumbered : Numbered next P) (hvs : vs.Pairwise (· < ·))
    (hmem : ∀ b, P b → b ∈ vs) (hP : ∀ x i, P x → i ∈ vs → next x i → P i)
    (h : Scan next vs cur l c c') (hcur : cur ∈ c) (hPc : ∀ x ∈ c, P x) (hleast : Least P c)
    (hl : l.Pairwise (· < ·)) (hlvs : l ⊆ vs)
    (hdone : ∀ x ∈ c, cur < x → ∀ i ∈ vs, next x i → i ∈ c)
    (hloop : ∀ j ∈ vs, next cur j → j ∈ c ∨ j ∈ l) : Least P c' ∧ ∀ x ∈ c', P x := by
  induction h with
  | nil => exact ⟨hleast, hPc⟩
  | @seen cur i l c c' hi _ ih =>
    exact ih hcur hPc hleast hl.of_cons (fun x hx => hlvs (List.mem_cons_of_mem _ hx)) hdone
      (loop_tail hloop (fun _ hx => hx) fun _ => hi)
  | @apart cur i l c c' hapart _ ih =>
    exact ih hcur hPc hleast hl.of_cons (fun x hx => hlvs (List.mem_cons_of_mem _ hx)) hdone
      (loop_tail hloop (fun _ hx => hx) fun hnext => absurd hnext hapart)
  | @found cur i l c c₁ c' hi hnext hfirst hrest ih₁ ih =>
    have hivs : i ∈ vs := hlvs List.mem_cons_self
    have hPi : P i := hP cur i (hPc cur hcur) hivs hnext
    have hleast₁ : Least P (c ++ [i]) :=
      hleast.snoc hi hPi (mem_of_below hnumbered hmem hcur hPc hleast hl hdone hloop hPi hnext)
    have hnew : ∀ x ∈ c ++ [i], x ∈ c ∨ x = i := by
      intro x hx
      rcases List.mem_append.mp hx with hx | hx
      · exact .inl hx
      · exact .inr (List.mem_singleton.mp hx)
    obtain ⟨hleast', hPc'⟩ := ih₁ (List.mem_append_right _ List.mem_cons_self)
      (fun x hx => by rcases hnew x hx with hx | rfl; exacts [hPc x hx, hPi]) hleast₁ hvs
      (fun _ hx => hx) (fun x hx hix => by
        rcases hnew x hx with hx | rfl
        · exact absurd hix (lt_asymm (hleast.lt_of_not_mem hi hPi x hx))
        · exact absurd hix (lt_irrefl _))
      fun j hj _ => .inr hj
    have hsub : c ⊆ c₁ := fun x hx => hfirst.subset (List.mem_append_left _ hx)
    refine ih (hsub hcur) hPc' hleast' hl.of_cons (fun x hx => hlvs (List.mem_cons_of_mem _ hx)) ?_ ?_
    · intro x hx hcurx j hj hnextj
      by_cases hxc : x ∈ c
      · exact hsub (hdone x hxc hcurx j hj hnextj)
      · exact hfirst.closed_snoc hfirst.closed x hx hxc j hj hnextj
    · exact loop_tail hloop hsub fun _ =>
        hfirst.subset (List.mem_append_right _ List.mem_cons_self)

omit [LinearOrder α] in
theorem mem_vs (h : Scan next vs cur l c c') (hl : l ⊆ vs) (hc : c ⊆ vs) : c' ⊆ vs := by
  intro x hx
  rcases h.reached hl x hx with hx | hx
  · exact hc hx
  · cases hx with
    | single h => exact h.1
    | tail _ h => exact h.1

private theorem mem_of_lt {c₁ c' : List α} (hsorted : c'.Pairwise (· < ·)) (hinit : c₁ <+: c')
    {x b : α} (hx : x ∈ c₁) (hb : b ∈ c') (hlt : b < x) : b ∈ c₁ := by
  obtain ⟨s, rfl⟩ := hinit
  rcases List.mem_append.mp hb with hb | hb
  · exact hb
  · exact absurd ((List.pairwise_append.mp hsorted).2.2 x hx b hb) (lt_asymm hlt)

/-- Where the vertices are found in increasing order, a vertex found in a loop comes after
one found in it, and so does one that is found between two joined by an edge. -/
theorem joined (h : Scan next vs cur l c c') (hsorted : c'.Pairwise (· < ·)) (hcur : cur ∈ c)
    (hl : l ⊆ vs) (hc : c ⊆ vs) : (∀ b ∈ c', b ∉ c → ∃ d ∈ c', cur ≤ d ∧ d < b ∧ next d b) ∧
      ∀ a b e, a ∈ c' → a ∉ c → b ∈ c' → b ∉ c → e ∈ c' → a < b → b < e → next a e →
        ∃ d ∈ c', a ≤ d ∧ d < b ∧ next d b := by
  induction h with
  | nil => exact ⟨fun b hb hnew => absurd hb hnew, fun a b e ha hnew => absurd ha hnew⟩
  | seen _ _ ih => exact ih hsorted hcur (fun x hx => hl (List.mem_cons_of_mem _ hx)) hc
  | apart _ _ ih => exact ih hsorted hcur (fun x hx => hl (List.mem_cons_of_mem _ hx)) hc
  | @found cur i l c c₁ c' hi hnext hfirst hrest ih₁ ih =>
    have hlvs : l ⊆ vs := fun x hx => hl (List.mem_cons_of_mem _ hx)
    have hci : c ++ [i] ⊆ vs := by
      intro x hx
      rcases List.mem_append.mp hx with hx | hx
      · exact hc hx
      · rw [List.mem_singleton.mp hx]
        exact hl List.mem_cons_self
    have hi₁ : i ∈ c₁ := hfirst.subset (List.mem_append_right _ List.mem_cons_self)
    have hsorted₁ : c₁.Pairwise (· < ·) := hsorted.sublist hrest.initial.sublist
    have hsortedi : (c ++ [i]).Pairwise (· < ·) := hsorted₁.sublist hfirst.initial.sublist
    have hcuri : cur < i :=
      (List.pairwise_append.mp hsortedi).2.2 cur hcur i List.mem_cons_self
    obtain ⟨hfound₁, hjoined₁⟩ := ih₁ hsorted₁ (List.mem_append_right _ List.mem_cons_self)
      (fun _ hx => hx) hci
    obtain ⟨hfound, hjoined⟩ := ih hsorted (hfirst.subset (List.mem_append_left _ hcur)) hlvs
      (hfirst.mem_vs (fun _ hx => hx) hci)
    -- what comes after the vertex found is found in its loop
    have hnew : ∀ b ∈ c₁, i < b → b ∉ c ++ [i] := by
      intro b hb hlt hmem
      rcases List.mem_append.mp hmem with hmem | hmem
      · exact lt_asymm hlt ((List.pairwise_append.mp hsortedi).2.2 b hmem i List.mem_cons_self)
      · exact lt_irrefl _ (List.mem_singleton.mp hmem ▸ hlt)
    have hge : ∀ b ∈ c₁, b ∉ c → i ≤ b := by
      intro b hb hbc
      rcases lt_trichotomy i b with hlt | rfl | hgt
      · exact hlt.le
      · exact le_refl _
      · have hmem := mem_of_lt hsorted₁ hfirst.initial
          (List.mem_append_right c List.mem_cons_self) hb hgt
        rcases List.mem_append.mp hmem with hmem | hmem
        · exact absurd hmem hbc
        · exact (List.mem_singleton.mp hmem).ge
    constructor
    · intro b hb hbc
      by_cases hb₁ : b ∈ c₁
      · rcases (hge b hb₁ hbc).eq_or_lt with rfl | hlt
        · exact ⟨cur, hrest.subset (hfirst.subset (List.mem_append_left _ hcur)), le_refl _, hcuri,
            hnext⟩
        · obtain ⟨d, hd, hid, hdb, hnextd⟩ := hfound₁ b hb₁ (hnew b hb₁ hlt)
          exact ⟨d, hrest.subset hd, hcuri.le.trans hid, hdb, hnextd⟩
      · exact hfound b hb hb₁
    · intro a b e ha hac hb hbc he hab hbe hnexta
      by_cases ha₁ : a ∈ c₁
      · have he₁ : e ∈ c₁ := by
          have hevs : e ∈ vs := hrest.mem_vs hlvs (hfirst.mem_vs (fun _ hx => hx) hci) he
          exact hfirst.closed_snoc hfirst.closed a ha₁ hac e hevs hnexta
        have hb₁ : b ∈ c₁ := mem_of_lt hsorted hrest.initial he₁ hb hbe
        have hib : i < b := (hge a ha₁ hac).trans_lt hab
        rcases (hge a ha₁ hac).eq_or_lt with rfl | hlt
        · obtain ⟨d, hd, hid, hdb, hnextd⟩ := hfound₁ b hb₁ (hnew b hb₁ hib)
          exact ⟨d, hrest.subset hd, hid, hdb, hnextd⟩
        · obtain ⟨d, hd, had, hdb, hnextd⟩ := hjoined₁ a b e ha₁ (hnew a ha₁ hlt) hb₁
            (hnew b hb₁ hib) he₁ hab hbe hnexta
          exact ⟨d, hrest.subset hd, had, hdb, hnextd⟩
      · refine hjoined a b e ha ha₁ hb (fun hb₁ => ?_) he hab hbe hnexta
        exact ha₁ (mem_of_lt hsorted hrest.initial hb₁ ha hab)

/-- The search from the least vertex, to which no path comes back, finds the vertices in
increasing order if and only if their numbers are those of a depth-first search. -/
theorem sorted_iff [WellFoundedLT α] (hvs : vs.Pairwise (· < ·)) (hroot : root ∈ vs)
    (hmin : ∀ v ∈ vs, root ≤ v) (hacyclic : ¬ TransGen (fun x y => y ∈ vs ∧ next x y) root root)
    (h : Scan next vs root vs [] c) :
    (root :: c).Pairwise (· < ·) ↔ Numbered next (Reached next vs root) := by
  have hnew : root ∉ c := by
    intro hmem
    rcases h.reached (fun _ hx => hx) root hmem with hmem | hcycle
    · exact List.not_mem_nil hmem
    · exact hacyclic hcycle
  have h' := h.cons_root hnew
  have hrootvs : [root] ⊆ vs := fun x hx => by rwa [List.mem_singleton.mp hx]
  have hmemvs : ∀ x, Reached next vs root x → x ∈ vs := fun x hx =>
    h'.mem_vs (fun _ hx => hx) hrootvs ((h.mem_iff x).mpr hx)
  constructor
  · intro hsorted a b e ha hb he hab hbe hnexta
    obtain ⟨hfound, hjoined⟩ := h'.joined hsorted List.mem_cons_self (fun _ hx => hx) hrootvs
    have hbroot : b ∉ [root] := by
      intro hmem
      rw [List.mem_singleton.mp hmem] at hab
      exact not_lt_of_ge (hmin a (hmemvs a ha)) hab
    rw [← h.mem_iff] at ha hb he
    have hex : ∃ d ∈ root :: c, a ≤ d ∧ d < b ∧ next d b := by
      by_cases haroot : a = root
      · subst haroot
        exact hfound b hb hbroot
      · exact hjoined a b e ha (fun hmem => haroot (List.mem_singleton.mp hmem)) hb hbroot he hab
          hbe hnexta
    obtain ⟨d, hd, hlt⟩ := hex
    exact ⟨d, (h.mem_iff d).mp hd, hlt⟩
  · intro hnumbered
    refine (h'.least hnumbered hvs hmemvs (fun x i hx hi hnext => hx.tail ⟨hi, hnext⟩)
      List.mem_cons_self (fun x hx => ?_) ⟨List.pairwise_singleton _ _, ?_⟩ hvs (fun _ hx => hx)
      ?_ fun j hj _ => .inr hj).1.sorted
    · rw [List.mem_singleton.mp hx]
      exact .refl
    · intro x hx b hb hlt
      rw [List.mem_singleton.mp hx] at hlt
      exact absurd hlt (not_lt_of_ge (hmin b (hmemvs b hb)))
    · intro x hx hlt
      exact absurd hlt (by rw [List.mem_singleton.mp hx]; exact lt_irrefl _)

end Scan

end Order

end ServerlessEdge.Library.DepthFirst
