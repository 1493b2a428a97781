import Mathlib.Data.List.Basic
import Mathlib.Data.List.Forall2

/-! Programs that throw: what is known once they have returned. -/
namespace ServerlessEdge.Library.Checks

variable {ε α β : Type}

theorem ok_bind (a : α) (f : α → Except ε β) : (Except.ok a >>= f) = f a := rfl

theorem bind_ok {m : Except ε α} {f : α → Except ε β} {b : β} :
    m >>= f = .ok b ↔ ∃ a, m = .ok a ∧ f a = .ok b := by
  cases m with
  | error err => simp [bind, Except.bind]
  | ok a => simp [bind, Except.bind]

theorem map_ok {f : α → β} {m : Except ε α} {b : β} :
    f <$> m = .ok b ↔ ∃ a, m = .ok a ∧ f a = b := by
  cases m with
  | error err => simp [Functor.map, Except.map]
  | ok a => simp [Functor.map, Except.map]

/-- A program that returns what an evaluation of it shows. -/
theorem ok_of_toOption {m : Except ε α} {f : α → β} {b : β} (h : m.toOption.map f = some b) :
    ∃ a, m = .ok a ∧ f a = b := by
  cases m with
  | error err => cases h
  | ok a => exact ⟨a, rfl, Option.some.inj h⟩

/-- A loop of checks returns when all of them do. -/
theorem forM_ok {f : α → Except ε Unit} (xs : List α) :
    xs.forM f = .ok () ↔ ∀ x ∈ xs, f x = .ok () := by
  induction xs with
  | nil => exact iff_of_true rfl (by simp)
  | cons x xs ih =>
    have hcons : (x :: xs).forM f = f x >>= fun _ => xs.forM f := rfl
    rw [hcons, bind_ok, List.forall_mem_cons, ih]
    constructor
    · rintro ⟨⟨⟩, hx, hxs⟩
      exact ⟨hx, hxs⟩
    · rintro ⟨hx, hxs⟩
      exact ⟨(), hx, hxs⟩

/-- What each iteration of a loop checks holds of all elements, and an invariant
holds at its end. -/
theorem foldlM_ok {f : β → α → Except ε β} {I : β → Prop} {P : α → Prop}
    (hf : ∀ b a b', I b → f b a = .ok b' → P a ∧ I b') {as : List α} {b b' : β} (hb : I b)
    (h : as.foldlM f b = .ok b') : (∀ a ∈ as, P a) ∧ I b' := by
  induction as generalizing b with
  | nil =>
    cases h
    exact ⟨by simp, hb⟩
  | cons a as ih =>
    rw [List.foldlM_cons, bind_ok] at h
    obtain ⟨c, hc, hrest⟩ := h
    obtain ⟨hpa, hic⟩ := hf b a c hb hc
    obtain ⟨hall, hb'⟩ := ih hic hrest
    exact ⟨List.forall_mem_cons.mpr ⟨hpa, hall⟩, hb'⟩

/-- An invariant of a loop that speaks of the elements already passed. -/
theorem foldlM_passed {f : β → α → Except ε β} (I : List α → β → Prop)
    (hf : ∀ l a b b', I l b → f b a = .ok b' → I (l ++ [a]) b') {as : List α} {b b' : β} (hb : I [] b)
    (h : as.foldlM f b = .ok b') : I as b' := by
  suffices hrest : ∀ l, I l b → I (l ++ as) b' from hrest [] hb
  clear hb
  induction as generalizing b with
  | nil =>
    intro l hl
    cases h
    rwa [List.append_nil]
  | cons a as ih =>
    intro l hl
    rw [List.foldlM_cons, bind_ok] at h
    obtain ⟨c, hc, h⟩ := h
    rw [List.append_cons]
    exact ih h (l ++ [a]) (hf l a b c hl hc)

/-- What each iteration adds to a set that is collected, the loop adds. -/
theorem foldlM_adds {f : β → α → Except ε β} {R : β → Prop} {Q : α → Prop}
    (hf : ∀ b a b', f b a = .ok b' → (R b' ↔ R b ∨ Q a)) {as : List α} {b b' : β}
    (h : as.foldlM f b = .ok b') : R b' ↔ R b ∨ ∃ a ∈ as, Q a := by
  induction as generalizing b with
  | nil =>
    cases h
    simp
  | cons a as ih =>
    rw [List.foldlM_cons, bind_ok] at h
    obtain ⟨c, hc, hrest⟩ := h
    rw [ih hrest, hf b a c hc, List.exists_mem_cons_iff, or_assoc]

/-- Two loops over the same elements return together and keep a relation. -/
theorem foldlM_pair {γ : Type} {f : β → α → Except ε β} {g : γ → α → Except ε γ} {R : β → γ → Prop}
    {as : List α} (h : ∀ a ∈ as, ∀ b c, R b c → ∃ b' c', f b a = .ok b' ∧ g c a = .ok c' ∧ R b' c')
    {b : β} {c : γ} (hR : R b c) :
    ∃ b' c', as.foldlM f b = .ok b' ∧ as.foldlM g c = .ok c' ∧ R b' c' := by
  induction as generalizing b c with
  | nil => exact ⟨b, c, rfl, rfl, hR⟩
  | cons a as ih =>
    obtain ⟨ha, hrest⟩ := List.forall_mem_cons.mp h
    obtain ⟨b₁, c₁, hb, hc, hR₁⟩ := ha b c hR
    rw [List.foldlM_cons, List.foldlM_cons, hb, hc]
    exact ih hrest hR₁

theorem mapM_cons_ok {f : α → Except ε β} {a : α} {as : List α} {bs : List β} :
    (a :: as).mapM f = .ok bs ↔
      ∃ b rest, f a = .ok b ∧ as.mapM f = .ok rest ∧ bs = b :: rest := by
  rw [List.mapM_cons, bind_ok]
  constructor
  · rintro ⟨b, hb, h⟩
    obtain ⟨rest, hrest, h⟩ := bind_ok.mp h
    cases h
    exact ⟨b, rest, hb, hrest, rfl⟩
  · rintro ⟨b, rest, hb, hrest, rfl⟩
    exact ⟨b, hb, bind_ok.mpr ⟨rest, hrest, rfl⟩⟩

/-- Two loops over the same elements whose iterations return together, in a relation. -/
theorem mapM_pair {γ : Type} {f : α → Except ε β} {g : α → Except ε γ} {R : β → γ → Prop} {as : List α}
    (h : ∀ a ∈ as, ∃ b c, f a = .ok b ∧ g a = .ok c ∧ R b c) :
    ∃ bs cs, as.mapM f = .ok bs ∧ as.mapM g = .ok cs ∧ List.Forall₂ R bs cs := by
  induction as with
  | nil => exact ⟨[], [], rfl, rfl, .nil⟩
  | cons a as ih =>
    obtain ⟨⟨b, c, hb, hc, hR⟩, hrest⟩ := List.forall_mem_cons.mp h
    obtain ⟨bs, cs, hbs, hcs, hRs⟩ := ih hrest
    exact ⟨b :: bs, c :: cs, mapM_cons_ok.mpr ⟨b, bs, hb, hbs, rfl⟩,
      mapM_cons_ok.mpr ⟨c, cs, hc, hcs, rfl⟩, .cons hR hRs⟩

/-- A loop whose iterations all return, returns what they do. -/
theorem mapM_of_ok {f : α → Except ε β} {g : α → β} {as : List α}
    (h : ∀ a ∈ as, f a = .ok (g a)) : as.mapM f = .ok (as.map g) := by
  induction as with
  | nil => rfl
  | cons a as ih =>
    obtain ⟨ha, hrest⟩ := List.forall_mem_cons.mp h
    exact mapM_cons_ok.mpr ⟨g a, as.map g, ha, ih hrest, rfl⟩

theorem exists_mapM_ok {f : α → Except ε β} {as : List α} (h : ∀ a ∈ as, ∃ b, f a = .ok b) :
    ∃ bs, as.mapM f = .ok bs := by
  induction as with
  | nil => exact ⟨[], rfl⟩
  | cons a as ih =>
    obtain ⟨⟨b, hb⟩, hrest⟩ := List.forall_mem_cons.mp h
    obtain ⟨bs, hbs⟩ := ih hrest
    exact ⟨b :: bs, mapM_cons_ok.mpr ⟨b, bs, hb, hbs, rfl⟩⟩

theorem exists_mapM_ok_iff {f : α → Except ε β} {as : List α} :
    (∃ bs, as.mapM f = .ok bs) ↔ ∀ a ∈ as, ∃ b, f a = .ok b := by
  refine ⟨?_, exists_mapM_ok⟩
  induction as with
  | nil => exact fun _ => List.forall_mem_nil _
  | cons a as ih =>
    rintro ⟨bs, h⟩
    obtain ⟨b, rest, hb, hrest, -⟩ := mapM_cons_ok.mp h
    exact List.forall_mem_cons.mpr ⟨⟨b, hb⟩, ih ⟨rest, hrest⟩⟩

/-- A loop whose iterations return or fail in one way returns if they all do, and otherwise
fails in that way. -/
theorem mapM_cases {f : α → Except ε β} {e : ε} {as : List α}
    (h : ∀ a ∈ as, (∃ b, f a = .ok b) ∨ f a = .error e) :
    ((∃ bs, as.mapM f = .ok bs) ∧ ∀ a ∈ as, ∃ b, f a = .ok b) ∨
      (as.mapM f = .error e ∧ ∃ a ∈ as, f a = .error e) := by
  induction as with
  | nil => exact .inl ⟨⟨[], rfl⟩, by simp⟩
  | cons a as ih =>
    obtain ⟨ha, hrest⟩ := List.forall_mem_cons.mp h
    rw [List.mapM_cons]
    rcases ha with ⟨b, hb⟩ | herror
    · rw [hb, ok_bind]
      rcases ih hrest with ⟨⟨bs, hbs⟩, hall⟩ | ⟨hbs, a', ha', hfail⟩
      · rw [hbs, ok_bind]
        exact .inl ⟨⟨b :: bs, rfl⟩, List.forall_mem_cons.mpr ⟨⟨b, hb⟩, hall⟩⟩
      · rw [hbs]
        exact .inr ⟨rfl, a', List.mem_cons_of_mem _ ha', hfail⟩
    · rw [herror]
      exact .inr ⟨rfl, a, List.mem_cons_self, herror⟩

/-- What a loop has returned has been returned by one of its iterations. -/
theorem mem_of_mapM_ok {f : α → Except ε β} {as : List α} {bs : List β} (h : as.mapM f = .ok bs)
    {b : β} (hb : b ∈ bs) : ∃ a ∈ as, f a = .ok b := by
  induction as generalizing bs with
  | nil =>
    cases h
    cases hb
  | cons a as ih =>
    obtain ⟨c, cs, hc, hcs, rfl⟩ := mapM_cons_ok.mp h
    rcases List.mem_cons.mp hb with rfl | hb
    · exact ⟨a, List.mem_cons_self, hc⟩
    · obtain ⟨a', ha', hfa⟩ := ih hcs hb
      exact ⟨a', List.mem_cons_of_mem _ ha', hfa⟩

/-- A loop returns what its iterations do, one after the other. -/
theorem mapM_ok_iff {f : α → Except ε β} {as : List α} {bs : List β} :
    as.mapM f = .ok bs ↔ List.Forall₂ (fun a b => f a = .ok b) as bs := by
  induction as generalizing bs with
  | nil =>
    rw [List.forall₂_nil_left_iff, List.mapM_nil]
    exact ⟨fun h => (Except.ok.inj h).symm, fun h => congrArg Except.ok h.symm⟩
  | cons a as ih =>
    rw [mapM_cons_ok, List.forall₂_cons_left_iff]
    simp only [ih]

/-- Loops that return the same have iterations that do. -/
theorem eq_of_mapM_ok {f g : α → Except ε β} {as : List α} {bs : List β} (hf : as.mapM f = .ok bs)
    (hg : as.mapM g = .ok bs) : ∀ a ∈ as, f a = g a := by
  rw [mapM_ok_iff] at hf hg
  induction hf with
  | nil => exact List.forall_mem_nil _
  | cons hb _ ih =>
    obtain ⟨hb', hrest⟩ := List.forall₂_cons.mp hg
    exact List.forall_mem_cons.mpr ⟨hb.trans hb'.symm, ih hrest⟩

section Options

variable {f : α → Option β}

theorem mapM_cons_some {a : α} {as : List α} {bs : List β} : (a :: as).mapM f = some bs ↔
    ∃ b rest, f a = some b ∧ as.mapM f = some rest ∧ bs = b :: rest := by
  rw [List.mapM_cons]
  constructor
  · intro h
    obtain ⟨b, hb, h⟩ := Option.bind_eq_some_iff.mp h
    obtain ⟨rest, hrest, h⟩ := Option.bind_eq_some_iff.mp h
    cases h
    exact ⟨b, rest, hb, hrest, rfl⟩
  · rintro ⟨b, rest, hb, hrest, rfl⟩
    rw [hb, hrest]
    rfl

/-- A loop that may give up does not if no iteration does. -/
theorem exists_mapM_some_iff {as : List α} :
    (∃ bs, as.mapM f = some bs) ↔ ∀ a ∈ as, ∃ b, f a = some b := by
  induction as with
  | nil => exact iff_of_true ⟨[], rfl⟩ (List.forall_mem_nil _)
  | cons a as ih =>
    rw [List.forall_mem_cons, ← ih]
    constructor
    · rintro ⟨bs, hbs⟩
      obtain ⟨b, rest, hb, hrest, rfl⟩ := mapM_cons_some.mp hbs
      exact ⟨⟨b, hb⟩, rest, hrest⟩
    · rintro ⟨⟨b, hb⟩, rest, hrest⟩
      exact ⟨b :: rest, mapM_cons_some.mpr ⟨b, rest, hb, hrest, rfl⟩⟩

theorem mapM_some_mono {g : α → Option β} {as : List α} {bs : List β} (h : as.mapM f = some bs)
    (hfg : ∀ a ∈ as, ∀ b, f a = some b → g a = some b) : as.mapM g = some bs := by
  induction as generalizing bs with
  | nil => exact h
  | cons a as ih =>
    obtain ⟨ha, has⟩ := List.forall_mem_cons.mp hfg
    obtain ⟨b, rest, hb, hrest, rfl⟩ := mapM_cons_some.mp h
    exact mapM_cons_some.mpr ⟨b, rest, ha b hb, ih hrest has, rfl⟩

end Options

section Failures

/-- The exceptions that a program may throw. -/
def FailsOnly (E : ε → Prop) (m : Except ε α) : Prop := ∀ e, m = .error e → E e

variable {E : ε → Prop}

theorem failsOnly_pure (a : α) : FailsOnly E (pure a : Except ε α) := nofun

theorem failsOnly_error {e : ε} (he : E e) : FailsOnly E (.error e : Except ε α) := by
  rintro e' h
  cases h
  exact he

theorem failsOnly_bind {m : Except ε α} {f : α → Except ε β} (hm : FailsOnly E m)
    (hf : ∀ a, m = .ok a → FailsOnly E (f a)) : FailsOnly E (m >>= f) := by
  cases m with
  | error e => exact failsOnly_error (hm e rfl)
  | ok a => exact hf a rfl

theorem failsOnly_mapM {f : α → Except ε β} {as : List α} (hf : ∀ a ∈ as, FailsOnly E (f a)) :
    FailsOnly E (as.mapM f) := by
  induction as with
  | nil => exact failsOnly_pure []
  | cons a as ih =>
    obtain ⟨ha, hrest⟩ := List.forall_mem_cons.mp hf
    rw [List.mapM_cons]
    apply failsOnly_bind ha
    intro b hb
    apply failsOnly_bind (ih hrest)
    intro bs hbs
    exact failsOnly_pure (b :: bs)

theorem failsOnly_foldlM {f : β → α → Except ε β} (hf : ∀ b a, FailsOnly E (f b a)) (as : List α)
    (b : β) : FailsOnly E (as.foldlM f b) := by
  induction as generalizing b with
  | nil => exact failsOnly_pure b
  | cons a as ih =>
    rw [List.foldlM_cons]
    apply failsOnly_bind (hf b a)
    intro c hc
    exact ih c

end Failures

end ServerlessEdge.Library.Checks
