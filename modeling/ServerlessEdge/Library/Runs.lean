import Mathlib.Data.List.Basic

/-! Finite runs of a deterministic step function, and invariants that hold
along a run as long as every step of it meets a condition. -/
namespace ServerlessEdge.Library.Runs

variable {S : Type*} {A : Type*} (step : S → A → S)

/-- The states reached by a run, the first one included. -/
def states : S → List A → List S
  | s, [] => [s]
  | s, a :: as => s :: states (step s a) as

/-- The state at the end of a run. -/
def final (s : S) (as : List A) : S := as.foldl step s

/-- Every step of the run meets P at the state it starts from. -/
def Along (P : S → A → Prop) : S → List A → Prop
  | _, [] => True
  | s, a :: as => P s a ∧ Along P (step s a) as

instance decidableAlong (P : S → A → Prop) [∀ s a, Decidable (P s a)] :
    ∀ (s : S) (as : List A), Decidable (Along step P s as)
  | _, [] => .isTrue trivial
  | s, a :: as => @instDecidableAnd _ _ _ (decidableAlong P (step s a) as)

theorem final_mem_states (s : S) (as : List A) : final step s as ∈ states step s as := by
  induction as generalizing s with
  | nil => simp [final, states]
  | cons a as ih => exact List.mem_cons_of_mem _ (ih (step s a))

theorem final_append (s : S) (as bs : List A) :
    final step s (as ++ bs) = final step (final step s as) bs := by
  simp [final]

variable {step}

/-- The states reached are the ends of the runs that it begins with. -/
theorem mem_states_iff {s t : S} {as : List A} :
    t ∈ states step s as ↔ ∃ pre, pre <+: as ∧ t = final step s pre := by
  induction as generalizing s with
  | nil =>
    rw [states, List.mem_singleton]
    constructor
    · rintro rfl
      exact ⟨[], List.prefix_refl [], rfl⟩
    · rintro ⟨pre, hpre, rfl⟩
      rw [List.prefix_nil.mp hpre]
      rfl
  | cons a as ih =>
    rw [states, List.mem_cons, ih]
    constructor
    · rintro (rfl | ⟨pre, hpre, rfl⟩)
      · exact ⟨[], List.nil_prefix, rfl⟩
      · exact ⟨a :: pre, List.cons_prefix_cons.mpr ⟨rfl, hpre⟩, rfl⟩
    · rintro ⟨pre, hpre, rfl⟩
      cases pre with
      | nil => exact .inl rfl
      | cons b pre =>
        obtain ⟨rfl, hrest⟩ := List.cons_prefix_cons.mp hpre
        exact .inr ⟨pre, hrest, rfl⟩

theorem Along.append {P : S → A → Prop} {s : S} {as bs : List A} :
    Along step P s (as ++ bs) ↔ Along step P s as ∧ Along step P (final step s as) bs := by
  induction as generalizing s with
  | nil => simp [Along, final]
  | cons a as ih => simp only [List.cons_append, Along, ih, and_assoc]; rfl

theorem Along.and {P Q : S → A → Prop} {s : S} {as : List A} (hP : Along step P s as)
    (hQ : Along step Q s as) : Along step (fun s a => P s a ∧ Q s a) s as := by
  induction as generalizing s with
  | nil => trivial
  | cons a as ih => exact ⟨⟨hP.1, hQ.1⟩, ih hP.2 hQ.2⟩

theorem Along.of_forall {Q : A → Prop} {as : List A} (h : ∀ a ∈ as, Q a) (s : S) :
    Along step (fun _ a => Q a) s as := by
  induction as generalizing s with
  | nil => trivial
  | cons a as ih =>
    obtain ⟨ha, hrest⟩ := List.forall_mem_cons.mp h
    exact ⟨ha, ih hrest (step s a)⟩

/-- What one step preserves under its condition, a whole run preserves. -/
theorem invariant_along {I : S → Prop} {P : S → A → Prop}
    (hstep : ∀ s a, I s → P s a → I (step s a)) {s : S} {as : List A} (hs : I s)
    (hP : Along step P s as) : ∀ t ∈ states step s as, I t := by
  induction as generalizing s with
  | nil =>
    intro t ht
    rw [List.mem_singleton.mp ht]
    exact hs
  | cons a as ih =>
    intro t ht
    rcases List.mem_cons.mp ht with rfl | ht
    · exact hs
    · exact ih (hstep s a hs hP.1) hP.2 t ht

/-- Along with an invariant goes whatever follows from it at each step. -/
theorem Along.of_invariant {I : S → Prop} {P R : S → A → Prop}
    (hstep : ∀ s a, I s → P s a → I (step s a)) (hR : ∀ s a, I s → P s a → R s a) {s : S}
    {as : List A} (hs : I s) (hP : Along step P s as) : Along step R s as := by
  induction as generalizing s with
  | nil => trivial
  | cons a as ih => exact ⟨hR s a hs hP.1, ih (hstep s a hs hP.1) hP.2⟩

/-- Where the condition is exact for one step, it is exact for whole runs. -/
theorem invariant_iff_along {I : S → Prop} {P : S → A → Prop}
    (hstep : ∀ s a, I s → (I (step s a) ↔ P s a)) {s : S} {as : List A} (hs : I s) :
    (∀ t ∈ states step s as, I t) ↔ Along step P s as := by
  refine ⟨fun h => ?_, invariant_along (fun s a hs hp => (hstep s a hs).mpr hp) hs⟩
  induction as generalizing s with
  | nil => trivial
  | cons a as ih =>
    have hnext : I (step s a) := h _ (List.mem_cons_of_mem _ (by cases as <;> simp [states]))
    exact ⟨(hstep s a hs).mp hnext, ih hnext fun t ht => h t (List.mem_cons_of_mem _ ht)⟩

/-- An invariant of every single step holds in every state of a run. -/
theorem invariant {I : S → Prop} (hstep : ∀ s a, I s → I (step s a)) {s : S} (as : List A)
    (hs : I s) : ∀ t ∈ states step s as, I t := by
  refine invariant_along (P := fun _ _ => True) (fun s a h _ => hstep s a h) hs ?_
  induction as generalizing s with
  | nil => trivial
  | cons a as ih => exact ⟨trivial, ih (hstep s a hs)⟩

section Simulation

variable {O T : Type*}

/-- The answers along a run of a machine that answers each input. -/
def answers (step : S → A → O × S) : S → List A → List O
  | _, [] => []
  | s, a :: as => (step s a).1 :: answers step (step s a).2 as

/-- Two machines that stay related answer alike. -/
theorem simulation {step : S → A → O × S} {step' : T → A → O × T} {R : S → T → Prop}
    (hstep : ∀ s t a, R s t → (step s a).1 = (step' t a).1 ∧ R (step s a).2 (step' t a).2)
    {s : S} {t : T} (hR : R s t) (as : List A) : answers step s as = answers step' t as ∧
      R (final (fun s a => (step s a).2) s as) (final (fun t a => (step' t a).2) t as) := by
  induction as generalizing s t with
  | nil => exact ⟨rfl, hR⟩
  | cons a as ih =>
    obtain ⟨hanswer, hnext⟩ := hstep s t a hR
    obtain ⟨hanswers, hfinal⟩ := ih hnext
    exact ⟨congrArg₂ List.cons hanswer hanswers, hfinal⟩

end Simulation

/-- A run that makes something smaller as long as it is not done is done after as many steps as
that is large. -/
theorem final_of_measure {I Q : S → Prop} {P : S → A → Prop} (f : S → ℕ)
    (hkeep : ∀ s a, I s → P s a → I (step s a)) (hzero : ∀ s, I s → f s = 0 → Q s)
    (hdone : ∀ s a, I s → P s a → Q s → Q (step s a))
    (hless : ∀ s a, I s → P s a → Q (step s a) ∨ f (step s a) < f s) {s : S} (hs : I s)
    {as : List A} (hP : Along step P s as) (hlength : Q s ∨ f s ≤ as.length) :
    Q (final step s as) := by
  induction as generalizing s with
  | nil => exact hlength.elim id fun hle => hzero s hs (Nat.le_zero.mp hle)
  | cons a as ih =>
    refine ih (hkeep s a hs hP.1) hP.2 ?_
    rcases hlength with hd | hle
    · exact .inl (hdone s a hs hP.1 hd)
    · refine (hless s a hs hP.1).imp id fun hlt => ?_
      rw [List.length_cons] at hle
      omega

section Abstraction

variable {T : Type*} {step' : T → A → T} {f : S → T}

/-- A run that refines another step function ends where that one does. -/
theorem Along.refined {I : S → Prop} {P : T → A → Prop}
    (hstep : ∀ s a, I s → P (f s) a → I (step s a) ∧ f (step s a) = step' (f s) a) {s : S}
    {as : List A} (hs : I s) (hP : Along step' P (f s) as) :
    I (final step s as) ∧ f (final step s as) = final step' (f s) as := by
  induction as generalizing s with
  | nil => exact ⟨hs, rfl⟩
  | cons a as ih =>
    obtain ⟨hnext, heq⟩ := hstep s a hs hP.1
    have hrest : Along step' P (f (step s a)) as := heq ▸ hP.2
    obtain ⟨hfin, hrun⟩ := ih hnext hrest
    rw [heq] at hrun
    exact ⟨hfin, hrun⟩

/-- Steps that an observer cannot see may be left out. -/
theorem Along.filter {P : S → A → Prop} {Q : T → A → Prop} (p : A → Bool)
    (hskip : ∀ s a, P s a → p a = false → f (step s a) = f s)
    (hkeep : ∀ s a, P s a → p a = true → Q (f s) a ∧ f (step s a) = step' (f s) a) {s : S}
    {as : List A} (hP : Along step P s as) : Along step' Q (f s) (as.filter p) ∧
      f (final step s as) = final step' (f s) (as.filter p) := by
  induction as generalizing s with
  | nil => exact ⟨trivial, rfl⟩
  | cons a as ih =>
    obtain ⟨hrest, hrun⟩ := ih hP.2
    cases hp : p a with
    | false =>
      have heq := hskip s a hP.1 hp
      rw [heq] at hrest hrun
      rw [List.filter_cons_of_neg (by simp [hp])]
      exact ⟨hrest, hrun⟩
    | true =>
      obtain ⟨ha, heq⟩ := hkeep s a hP.1 hp
      rw [heq] at hrest hrun
      rw [List.filter_cons_of_pos hp]
      exact ⟨⟨ha, hrest⟩, hrun⟩

/-- A step that may fail does not fail in a run exactly when its condition holds along
the run of the step that it refines. -/
theorem foldlM_isSome_iff_along {g : T → A → Option T} {I : S → Prop} {P : S → A → Prop}
    (hinv : ∀ s a, I s → P s a → I (step s a))
    (hsome : ∀ s a, I s → P s a → g (f s) a = some (f (step s a)))
    (hnone : ∀ s a, I s → ¬ P s a → g (f s) a = none) {s : S} {as : List A} (hs : I s) :
    (as.foldlM g (f s)).isSome ↔ Along step P s as := by
  induction as generalizing s with
  | nil => exact iff_of_true rfl trivial
  | cons a as ih =>
    rw [List.foldlM_cons, Along]
    by_cases ha : P s a
    · rw [hsome s a hs ha, and_iff_right ha]
      exact ih (hinv s a hs ha)
    · rw [hnone s a hs ha, and_iff_left_of_imp fun h => absurd h ha]
      exact iff_of_false nofun ha

/-- Then it ends where that one does. -/
theorem foldlM_of_along {g : T → A → Option T} {I : S → Prop} {P : S → A → Prop}
    (hinv : ∀ s a, I s → P s a → I (step s a))
    (hsome : ∀ s a, I s → P s a → g (f s) a = some (f (step s a))) {s : S} {as : List A} (hs : I s)
    (hP : Along step P s as) : as.foldlM g (f s) = some (f (final step s as)) := by
  induction as generalizing s with
  | nil => rfl
  | cons a as ih =>
    rw [List.foldlM_cons, hsome s a hs hP.1]
    exact ih (hinv s a hs hP.1) hP.2

end Abstraction

end ServerlessEdge.Library.Runs
