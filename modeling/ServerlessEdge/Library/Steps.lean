import Mathlib.Data.List.Basic
import Mathlib.Data.List.Induction

/-! Runs of steps that are not possible everywhere: what each step keeps holds at the end of a run,
and a run whose steps all make something smaller is no longer than that is at first. -/
namespace ServerlessEdge.Library.Steps

variable {S : Type*} {E : Type*} (step : S → E → Option S)

/-- All events of the run are possible in turn, and it ends in that state. -/
def Reaches (s : S) (es : List E) (s' : S) : Prop := es.foldlM step s = some s'

variable {step} {s s' : S} {e : E} {es : List E}

theorem reaches_nil : Reaches step s [] s' ↔ s' = s := by
  simp [Reaches, eq_comm]

theorem reaches_cons :
    Reaches step s (e :: es) s' ↔ ∃ t, step s e = some t ∧ Reaches step t es s' := by
  simp only [Reaches, List.foldlM_cons, Option.bind_eq_bind, Option.bind_eq_some_iff]

theorem reaches_concat :
    Reaches step s (es ++ [e]) s' ↔ ∃ t, Reaches step s es t ∧ step t e = some s' := by
  simp only [Reaches, List.foldlM_append, List.foldlM_cons, List.foldlM_nil, Option.bind_eq_bind,
    Option.bind_eq_some_iff, Option.pure_def, Option.some.injEq, exists_eq_right]

theorem reaches_append {es' : List E} :
    Reaches step s (es ++ es') s' ↔ ∃ t, Reaches step s es t ∧ Reaches step t es' s' := by
  simp only [Reaches, List.foldlM_append, Option.bind_eq_bind, Option.bind_eq_some_iff]

/-- What holds at first and is kept by each step holds at the end of a run. -/
theorem Reaches.keeps {I : List E → S → Prop} (h : Reaches step s es s') (hs : I [] s)
    (hstep : ∀ es t e t', I es t → step t e = some t' → I (es ++ [e]) t') : I es s' := by
  induction es using List.reverseRecOn generalizing s' with
  | nil => exact reaches_nil.mp h ▸ hs
  | append_singleton es e ih =>
    obtain ⟨t, ht, he⟩ := reaches_concat.mp h
    exact hstep es t e s' (ih ht) he

/-- Each event of a run takes something away, of which there was enough. -/
theorem Reaches.length_le {I : S → Prop} {w : S → ℕ} {quiet : E → Prop}
    (hkeep : ∀ t e t', I t → step t e = some t' → I t')
    (hless : ∀ t e t', I t → step t e = some t' → quiet e → w t' < w t) (hs : I s)
    (h : Reaches step s es s') (hquiet : ∀ e ∈ es, quiet e) : es.length + w s' ≤ w s := by
  induction es generalizing s with
  | nil => simp [reaches_nil.mp h]
  | cons e es ih =>
    obtain ⟨t, he, hrest⟩ := reaches_cons.mp h
    obtain ⟨hfirst, hquiet⟩ := List.forall_mem_cons.mp hquiet
    have hbound := ih (hkeep s e t hs he) hrest hquiet
    have hstep := hless s e t hs he hfirst
    rw [List.length_cons]
    omega

end ServerlessEdge.Library.Steps
