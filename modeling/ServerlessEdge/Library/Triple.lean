import Mathlib.Order.Defs.Unbundled

/-! Pre- and postconditions of programs with a state and exceptions. The state
survives an exception. A postcondition may be given up in bad states, which no
program leaves once it is in one. -/
namespace ServerlessEdge.Library.Triple

variable {ε σ α β : Type}

/-- The state in which a program ends, normally or by an exception. -/
def after (m : EStateM ε σ α) (s : σ) : σ :=
  match m s with
  | .ok _ s' => s'
  | .error _ s' => s'

/-- Whatever the start, the program ends in a state related to it. -/
def Moves (R : σ → σ → Prop) (m : EStateM ε σ α) : Prop := ∀ s, R s (after m s)

/-- The weakest precondition: from s the program ends in a bad state, or
normally in Q, or by an exception in E. -/
def wp (Bad : σ → Prop) (m : EStateM ε σ α) (Q : α → σ → Prop) (E : ε → σ → Prop) (s : σ) : Prop :=
  match m s with
  | .ok a s' => Bad s' ∨ Q a s'
  | .error e s' => Bad s' ∨ E e s'

theorem get_bind_apply (f : σ → EStateM ε σ α) (s : σ) : (get >>= f) s = f s s := rfl

theorem bind_of_ok {m : EStateM ε σ α} {s s' : σ} {a : α} (h : m s = .ok a s')
    (f : α → EStateM ε σ β) : (m >>= f) s = f a s' := by simp only [bind, EStateM.bind, h]

theorem bind_of_error {m : EStateM ε σ α} {s s' : σ} {e : ε} (h : m s = .error e s')
    (f : α → EStateM ε σ β) : (m >>= f) s = .error e s' := by simp only [bind, EStateM.bind, h]

/-- A program that returns has gone through both of its parts. -/
theorem ok_of_bind {m : EStateM ε σ α} {f : α → EStateM ε σ β} {s s' : σ} {b : β}
    (h : (m >>= f) s = .ok b s') : ∃ a s₁, m s = .ok a s₁ ∧ f a s₁ = .ok b s' := by
  cases hm : m s with
  | ok a s₁ => exact ⟨a, s₁, rfl, bind_of_ok hm f ▸ h⟩
  | error e s₁ =>
    rw [bind_of_error hm] at h
    cases h

/-- What the passes of a loop that returns add up to. -/
theorem forM_ok {f : α → EStateM ε σ PUnit} {T : List α → σ → σ → Prop} (hnil : ∀ s, T [] s s)
    (hcons : ∀ x xs s s₁ s₂, f x s = .ok ⟨⟩ s₁ → T xs s₁ s₂ → T (x :: xs) s s₂) {xs : List α}
    {s s' : σ} (h : xs.forM f s = .ok ⟨⟩ s') : T xs s s' := by
  induction xs generalizing s with
  | nil =>
    obtain ⟨-, rfl⟩ := EStateM.Result.ok.inj h
    exact hnil s
  | cons x xs ih =>
    obtain ⟨_, s₁, hx, hxs⟩ := ok_of_bind h
    exact hcons x xs s s₁ s' hx (ih hxs)

theorem after_bind_of_ok {m : EStateM ε σ α} {s s' : σ} {a : α} (h : m s = .ok a s')
    (f : α → EStateM ε σ β) : after (m >>= f) s = after (f a) s' := by
  rw [after, bind_of_ok h, after]

/-- A program ends with its second part, or with the first one if that throws. -/
theorem after_bind {I : σ → Prop} {m : EStateM ε σ α} {f : α → EStateM ε σ β} {s : σ}
    (hm : I (after m s)) (hf : ∀ a s', m s = .ok a s' → I (after (f a) s')) :
    I (after (m >>= f) s) := by
  cases hr : m s with
  | ok a s' =>
    rw [after, bind_of_ok hr f]
    exact hf a s' hr
  | error e s' =>
    rw [after, hr] at hm
    rw [after, bind_of_error hr f]
    exact hm

theorem moves_of_ok {R : σ → σ → Prop} {m : EStateM ε σ α} {s s' : σ} {a : α} (hm : Moves R m)
    (h : m s = .ok a s') : R s s' := by
  have hR := hm s
  rwa [after, h] at hR

theorem moves_of_error {R : σ → σ → Prop} {m : EStateM ε σ α} {s s' : σ} {e : ε} (hm : Moves R m)
    (h : m s = .error e s') : R s s' := by
  have hR := hm s
  rwa [after, h] at hR

section Moves

variable {R : σ → σ → Prop}

theorem moves_mono {R' : σ → σ → Prop} {m : EStateM ε σ α} (hm : Moves R m)
    (h : ∀ s s', R s s' → R' s s') : Moves R' m := fun s => h s _ (hm s)

theorem moves_modify {f : σ → σ} (hf : ∀ s, R s (f s)) : Moves R (modify f : EStateM ε σ PUnit) := hf

variable [Std.Refl R]

theorem moves_pure (a : α) : Moves R (pure a : EStateM ε σ α) := fun s => Std.Refl.refl s

theorem moves_throw (e : ε) : Moves R (throw e : EStateM ε σ α) := fun s => Std.Refl.refl s

theorem moves_get : Moves R (get : EStateM ε σ σ) := fun s => Std.Refl.refl s

variable [IsTrans σ R]

omit [Std.Refl R] in
theorem moves_bind {m : EStateM ε σ α} {f : α → EStateM ε σ β} (hm : Moves R m)
    (hf : ∀ a, Moves R (f a)) : Moves R (m >>= f) := by
  intro s
  have h := hm s
  simp only [after, bind, EStateM.bind] at h ⊢
  cases hs : m s with
  | error e s' => simpa [hs] using h
  | ok a s' =>
    rw [hs] at h
    exact IsTrans.trans _ _ _ h (hf a s')

theorem moves_findM? {p : α → EStateM ε σ Bool} (hp : ∀ a, Moves R (p a)) (xs : List α) :
    Moves R (xs.findM? p) := by
  induction xs with
  | nil => exact moves_pure none
  | cons x xs ih =>
    refine moves_bind (hp x) fun b => ?_
    cases b with
    | true => exact moves_pure _
    | false => exact ih

theorem moves_forM {f : α → EStateM ε σ PUnit} (hf : ∀ a, Moves R (f a)) (xs : List α) :
    Moves R (xs.forM f) := by
  induction xs with
  | nil => exact moves_pure _
  | cons x xs ih => exact moves_bind (hf x) fun _ => ih

theorem moves_mapM {f : α → EStateM ε σ β} (hf : ∀ a, Moves R (f a)) (xs : List α) :
    Moves R (xs.mapM f) := by
  induction xs with
  | nil => exact moves_pure []
  | cons x xs ih =>
    rw [List.mapM_cons]
    exact moves_bind (hf x) fun y => moves_bind ih fun ys => moves_pure (y :: ys)

theorem moves_foldlM_of_mem {f : β → α → EStateM ε σ β} {xs : List α}
    (hf : ∀ b, ∀ a ∈ xs, Moves R (f b a)) (b : β) : Moves R (xs.foldlM f b) := by
  induction xs generalizing b with
  | nil => exact moves_pure b
  | cons x xs ih =>
    apply moves_bind (hf b x List.mem_cons_self)
    intro b'
    exact ih (fun b a ha => hf b a (List.mem_cons_of_mem x ha)) b'

theorem moves_foldlM {f : β → α → EStateM ε σ β} (hf : ∀ b a, Moves R (f b a)) (xs : List α)
    (b : β) : Moves R (xs.foldlM f b) := moves_foldlM_of_mem (fun b a _ => hf b a) b

end Moves

section Rules

variable {Bad : σ → Prop} {Q : α → σ → Prop} {E : ε → σ → Prop} {s : σ}

/-- A bad state stays bad. -/
abbrev Stable (Bad : σ → Prop) (m : EStateM ε σ α) : Prop := Moves (fun s s' => Bad s → Bad s') m

instance stable_refl : Std.Refl fun s s' : σ => Bad s → Bad s' := ⟨fun _ h => h⟩

instance stable_trans : IsTrans σ fun s s' => Bad s → Bad s' := ⟨fun _ _ _ h h' hs => h' (h hs)⟩

theorem wp_of_bad {m : EStateM ε σ α} (hm : Stable Bad m) (hs : Bad s) : wp Bad m Q E s := by
  have h := hm s hs
  unfold wp
  unfold after at h
  cases hr : m s <;> rw [hr] at h <;> exact .inl h

/-- Two programs with the same result have the same preconditions. -/
theorem wp_congr {m m' : EStateM ε σ α} {s' : σ} (h : m s = m' s') (hw : wp Bad m' Q E s') :
    wp Bad m Q E s := by
  unfold wp at hw ⊢
  rw [h]
  exact hw

theorem wp_bind_of_ok {m : EStateM ε σ β} {f : β → EStateM ε σ α} {b : β} {s' : σ}
    (h : m s = .ok b s') (hw : wp Bad (f b) Q E s') : wp Bad (m >>= f) Q E s :=
  wp_congr (bind_of_ok h f) hw

theorem wp_bind_of_error {m : EStateM ε σ β} {f : β → EStateM ε σ α} {e : ε} {s' : σ}
    (h : m s = .error e s') (hE : E e s') : wp Bad (m >>= f) Q E s := by
  unfold wp
  rw [bind_of_error h f]
  exact .inr hE

theorem wp_pure {a : α} (h : Q a s) : wp Bad (pure a : EStateM ε σ α) Q E s := .inr h

theorem wp_throw {e : ε} (h : E e s) : wp Bad (throw e : EStateM ε σ α) Q E s := .inr h

theorem wp_get_bind {f : σ → EStateM ε σ α} (h : wp Bad (f s) Q E s) :
    wp Bad (get >>= f) Q E s := h

theorem wp_modify {Q : PUnit → σ → Prop} {f : σ → σ} (h : Q ⟨⟩ (f s)) :
    wp Bad (modify f : EStateM ε σ PUnit) Q E s := .inr h

theorem wp_modify_bind {g : σ → σ} {f : PUnit → EStateM ε σ α} (h : wp Bad (f ⟨⟩) Q E (g s)) :
    wp Bad (modify g >>= f) Q E s := h

theorem wp_set {Q : PUnit → σ → Prop} {s' : σ} (h : Q ⟨⟩ s') :
    wp Bad (set s' : EStateM ε σ PUnit) Q E s := .inr h

theorem wp_set_bind {s' : σ} {f : PUnit → EStateM ε σ α} (h : wp Bad (f ⟨⟩) Q E s') :
    wp Bad (set s' >>= f) Q E s := h

theorem wp_ofExcept_bind {r : Except ε β} {f : β → EStateM ε σ α} (herror : ∀ e, r = .error e → E e s)
    (hok : ∀ b, r = .ok b → wp Bad (f b) Q E s) : wp Bad (MonadExcept.ofExcept r >>= f) Q E s := by
  cases r with
  | error e => exact .inr (herror e rfl)
  | ok b => exact hok b rfl

/-- A program that cannot throw returns in a state that is not bad. -/
theorem wp_returns {m : EStateM ε σ α} (h : wp Bad m Q (fun _ _ => False) s)
    (hs : ¬ Bad (after m s)) : ∃ a, m s = .ok a (after m s) ∧ Q a (after m s) := by
  unfold wp at h
  unfold after at hs ⊢
  cases hr : m s with
  | ok a s' =>
    rw [hr] at h hs
    exact ⟨a, rfl, h.resolve_left hs⟩
  | error e s' =>
    rw [hr] at h hs
    exact absurd (h.resolve_left hs) id

theorem after_of_ok {m : EStateM ε σ α} {a : α} {s' : σ} (h : m s = .ok a s') : after m s = s' := by
  rw [after, h]

theorem wp_of_ok {m : EStateM ε σ α} {a : α} {s' : σ} (h : wp Bad m Q E s) (hm : m s = .ok a s')
    (hs : ¬ Bad s') : Q a s' := by
  unfold wp at h
  rw [hm] at h
  exact h.resolve_left hs

theorem wp_of_error {m : EStateM ε σ α} {e : ε} {s' : σ} (h : wp Bad m Q E s)
    (hm : m s = .error e s') (hs : ¬ Bad s') : E e s' := by
  unfold wp at h
  rw [hm] at h
  exact h.resolve_left hs

/-- Where returning and throwing end alike, so does the program. -/
theorem wp_after {m : EStateM ε σ α} {P : σ → Prop} (h : wp Bad m (fun _ => P) (fun _ => P) s)
    (hs : ¬ Bad (after m s)) : P (after m s) := by
  unfold wp at h
  unfold after at hs ⊢
  cases hr : m s <;> rw [hr] at h hs <;> exact h.resolve_left hs

/-- The same where no state is bad. -/
theorem after_of_wp {m : EStateM ε σ α} {P : σ → Prop}
    (h : wp (fun _ => False) m (fun _ => P) (fun _ => P) s) : P (after m s) := wp_after h id

/-- What holds whenever the program returns, whether it does or not. -/
theorem wp_partial {m : EStateM ε σ α} (h : ∀ a s', m s = .ok a s' → Q a s') :
    wp Bad m Q (fun _ _ => True) s := by
  unfold wp
  cases hr : m s with
  | ok a s' => exact .inr (h a s' hr)
  | error e s' => exact .inr trivial

theorem wp_mono {m : EStateM ε σ α} {Q' : α → σ → Prop} {E' : ε → σ → Prop}
    (h : wp Bad m Q E s) (hQ : ∀ a s', Q a s' → Q' a s') (hE : ∀ e s', E e s' → E' e s') :
    wp Bad m Q' E' s := by
  unfold wp at h ⊢
  cases hr : m s <;> rw [hr] at h
  · exact h.imp_right (hQ _ _)
  · exact h.imp_right (hE _ _)

theorem wp_bind {m : EStateM ε σ α} {f : α → EStateM ε σ β} {Q' : β → σ → Prop}
    (hstable : ∀ a, Stable Bad (f a)) (hm : wp Bad m Q E s)
    (hf : ∀ a s', Q a s' → wp Bad (f a) Q' E s') : wp Bad (m >>= f) Q' E s := by
  unfold wp at hm
  have hb : (m >>= f) s = match m s with
    | .ok a s' => f a s'
    | .error e s' => .error e s' := rfl
  unfold wp
  rw [hb]
  cases hr : m s with
  | error e s' => simpa [hr] using hm
  | ok a s' =>
    rw [hr] at hm
    rcases hm with hbad | hq
    · exact wp_of_bad (hstable a) hbad
    · exact hf a s' hq

/-- A search loop, by an invariant over the elements already passed. -/
theorem wp_findM? {p : α → EStateM ε σ Bool} {Q : Option α → σ → Prop} (I : List α → σ → Prop)
    (hstable : ∀ a, Stable Bad (p a)) (xs : List α)
    (hp : ∀ l x r s, xs = l ++ x :: r → I l s →
      wp Bad (p x) (fun b s' => if b then Q (some x) s' else I (l ++ [x]) s') E s)
    (hend : ∀ s, I xs s → Q none s) (hs : I [] s) : wp Bad (xs.findM? p) Q E s := by
  suffices h : ∀ l r s, xs = l ++ r → I l s → wp Bad (r.findM? p) Q E s from h [] xs s rfl hs
  intro l r
  induction r generalizing l with
  | nil =>
    intro s hxs hI
    exact wp_pure (hend s (by simpa [hxs] using hI))
  | cons x r ih =>
    intro s hxs hI
    refine wp_bind (fun b => ?_) (hp l x r s hxs hI) fun b s' hb => ?_
    · cases b with
      | true => exact moves_pure _
      | false => exact moves_findM? hstable r
    · cases b with
      | true => exact wp_pure hb
      | false => exact ih (l ++ [x]) s' (by simp [hxs]) hb

/-- A loop over all elements. -/
theorem wp_forM {f : α → EStateM ε σ PUnit} {Q : PUnit → σ → Prop} (I : List α → σ → Prop)
    (hstable : ∀ a, Stable Bad (f a)) (xs : List α)
    (hf : ∀ l x r s, xs = l ++ x :: r → I l s → wp Bad (f x) (fun _ s' => I (l ++ [x]) s') E s)
    (hend : ∀ s, I xs s → Q ⟨⟩ s) (hs : I [] s) : wp Bad (xs.forM f) Q E s := by
  suffices h : ∀ l r s, xs = l ++ r → I l s → wp Bad (r.forM f) Q E s from h [] xs s rfl hs
  intro l r
  induction r generalizing l with
  | nil =>
    intro s hxs hI
    exact wp_pure (hend s (by simpa [hxs] using hI))
  | cons x r ih =>
    intro s hxs hI
    exact wp_bind (fun _ => moves_forM hstable r) (hf l x r s hxs hI)
      fun _ s' h => ih (l ++ [x]) s' (by simp [hxs]) h

/-- A loop that hands on a value. -/
theorem wp_foldlM {f : β → α → EStateM ε σ β} {Q : β → σ → Prop} (I : List α → β → σ → Prop)
    (hstable : ∀ b a, Stable Bad (f b a)) (xs : List α)
    (hf : ∀ l x r b s, xs = l ++ x :: r → I l b s →
      wp Bad (f b x) (fun b' s' => I (l ++ [x]) b' s') E s)
    (hend : ∀ b s, I xs b s → Q b s) {b : β} (hs : I [] b s) : wp Bad (xs.foldlM f b) Q E s := by
  suffices h : ∀ l r b s, xs = l ++ r → I l b s → wp Bad (r.foldlM f b) Q E s from
    h [] xs b s rfl hs
  intro l r
  induction r generalizing l with
  | nil =>
    intro b s hxs hI
    exact wp_pure (hend b s (by simpa [hxs] using hI))
  | cons x r ih =>
    intro b s hxs hI
    exact wp_bind (fun b => moves_foldlM hstable r b) (hf l x r b s hxs hI)
      fun b' s' h => ih (l ++ [x]) b' s' (by simp [hxs]) h

end Rules

section Simulation

variable {ε σ τ α β γ : Type}

/-- A loop is simulated by one that leaves out what does nothing in the first one. -/
theorem foldlM_filter_sim {f : β → α → EStateM ε σ β} {g : γ → α → EStateM ε τ γ} {p : α → Bool}
    {R : β → σ → γ → τ → Prop} {xs : List α}
    (hskip : ∀ a ∈ xs, p a = false → ∀ b s c t b' s', R b s c t → f b a s = .ok b' s' → R b' s' c t)
    (hstep : ∀ a ∈ xs, p a = true → ∀ b s c t b' s', R b s c t → f b a s = .ok b' s' →
      ∃ c' t', g c a t = .ok c' t' ∧ R b' s' c' t')
    {b b' : β} {s s' : σ} {c : γ} {t : τ} (hR : R b s c t) (h : xs.foldlM f b s = .ok b' s') :
    ∃ c' t', (xs.filter p).foldlM g c t = .ok c' t' ∧ R b' s' c' t' := by
  induction xs generalizing b s c t with
  | nil =>
    obtain ⟨rfl, rfl⟩ := EStateM.Result.ok.inj h
    exact ⟨c, t, rfl, hR⟩
  | cons a xs ih =>
    rw [List.foldlM_cons] at h
    have hskip' := fun a' ha' => hskip a' (List.mem_cons_of_mem a ha')
    have hstep' := fun a' ha' => hstep a' (List.mem_cons_of_mem a ha')
    cases hf : f b a s with
    | error e s1 =>
      rw [bind_of_error hf] at h
      cases h
    | ok b1 s1 =>
      rw [bind_of_ok hf] at h
      cases hp : p a with
      | false =>
        rw [List.filter_cons_of_neg (by simp [hp])]
        exact ih hskip' hstep' (hskip a List.mem_cons_self hp _ _ _ _ _ _ hR hf) h
      | true =>
        obtain ⟨c1, t1, hg, hR'⟩ := hstep a List.mem_cons_self hp _ _ _ _ _ _ hR hf
        rw [List.filter_cons_of_pos hp, List.foldlM_cons, bind_of_ok hg]
        exact ih hskip' hstep' hR' h

/-- Two results that differ in the state only, by R. -/
def SameResult (R : σ → τ → Prop) : EStateM.Result ε σ α → EStateM.Result ε τ α → Prop
  | .ok a s, .ok b t => a = b ∧ R s t
  | .error e s, .error e' t => e = e' ∧ R s t
  | _, _ => False

/-- Two programs on different states that always end alike. -/
def Alike (R : σ → τ → Prop) (m : EStateM ε σ α) (m' : EStateM ε τ α) : Prop :=
  ∀ s t, R s t → SameResult R (m s) (m' t)

section Alike

variable {R : σ → τ → Prop}

theorem ok_of_alike {m : EStateM ε σ α} {m' : EStateM ε τ α} (h : Alike R m m') {s : σ} {t t' : τ}
    {a : α} (hR : R s t) (hm : m' t = .ok a t') : ∃ s', m s = .ok a s' ∧ R s' t' := by
  have hsame := h s t hR
  rw [hm] at hsame
  cases hs : m s with
  | ok b s' =>
    rw [hs] at hsame
    exact ⟨s', congrArg (fun b => EStateM.Result.ok b s') hsame.1, hsame.2⟩
  | error e s' =>
    rw [hs] at hsame
    exact hsame.elim

theorem error_of_alike {m : EStateM ε σ α} {m' : EStateM ε τ α} (h : Alike R m m') {s : σ} {t t' : τ}
    {e : ε} (hR : R s t) (hm : m' t = .error e t') : ∃ s', m s = .error e s' ∧ R s' t' := by
  have hsame := h s t hR
  rw [hm] at hsame
  cases hs : m s with
  | ok b s' =>
    rw [hs] at hsame
    exact hsame.elim
  | error e' s' =>
    rw [hs] at hsame
    exact ⟨s', congrArg (fun e => EStateM.Result.error e s') hsame.1, hsame.2⟩

theorem alike_pure (a : α) : Alike R (pure a : EStateM ε σ α) (pure a : EStateM ε τ α) :=
  fun _ _ hR => ⟨rfl, hR⟩

theorem alike_throw (e : ε) : Alike R (throw e : EStateM ε σ α) (throw e : EStateM ε τ α) :=
  fun _ _ hR => ⟨rfl, hR⟩

theorem alike_bind {m : EStateM ε σ α} {m' : EStateM ε τ α} {f : α → EStateM ε σ β}
    {f' : α → EStateM ε τ β} (hm : Alike R m m') (hf : ∀ a, Alike R (f a) (f' a)) :
    Alike R (m >>= f) (m' >>= f') := by
  intro s t hR
  have h := hm s t hR
  cases hs : m s with
  | ok a s' =>
    cases ht : m' t with
    | ok b t' =>
      rw [hs, ht] at h
      obtain ⟨rfl, hR'⟩ := h
      rw [bind_of_ok hs, bind_of_ok ht]
      exact hf a s' t' hR'
    | error e t' =>
      rw [hs, ht] at h
      exact h.elim
  | error e s' =>
    cases ht : m' t with
    | ok b t' =>
      rw [hs, ht] at h
      exact h.elim
    | error e' t' =>
      rw [hs, ht] at h
      rw [bind_of_error hs, bind_of_error ht]
      exact h

theorem alike_ofExcept (r : Except ε α) :
    Alike R (MonadExcept.ofExcept r : EStateM ε σ α) (MonadExcept.ofExcept r : EStateM ε τ α) := by
  cases r with
  | error e => exact alike_throw e
  | ok a => exact alike_pure a

theorem alike_foldlM_of_mem {f : β → α → EStateM ε σ β} {f' : β → α → EStateM ε τ β} {xs : List α}
    (hf : ∀ b, ∀ a ∈ xs, Alike R (f b a) (f' b a)) (b : β) :
    Alike R (xs.foldlM f b) (xs.foldlM f' b) := by
  induction xs generalizing b with
  | nil => exact alike_pure b
  | cons x xs ih =>
    apply alike_bind (hf b x List.mem_cons_self)
    intro b'
    exact ih (fun b a ha => hf b a (List.mem_cons_of_mem x ha)) b'

theorem alike_foldlM {f : β → α → EStateM ε σ β} {f' : β → α → EStateM ε τ β}
    (hf : ∀ b a, Alike R (f b a) (f' b a)) (xs : List α) (b : β) :
    Alike R (xs.foldlM f b) (xs.foldlM f' b) :=
  alike_foldlM_of_mem (fun b a _ => hf b a) b

/-- A program that gives an answer, whatever the state, and one that goes on with it. -/
theorem alike_answer_bind {m : EStateM ε σ α} {r : Except ε α} {f : α → EStateM ε σ β}
    {g : α → Except ε β} (hm : Alike R m (MonadExcept.ofExcept r : EStateM ε τ α))
    (hf : ∀ a, Alike R (f a) (MonadExcept.ofExcept (g a) : EStateM ε τ β)) :
    Alike R (m >>= f) (MonadExcept.ofExcept (r >>= g) : EStateM ε τ β) := by
  have h := alike_bind hm hf
  cases r with
  | error e => exact h
  | ok a => exact h

theorem alike_answer_mapM {f : α → EStateM ε σ β} {g : α → Except ε β} {xs : List α}
    (hf : ∀ a ∈ xs, Alike R (f a) (MonadExcept.ofExcept (g a) : EStateM ε τ β)) :
    Alike R (xs.mapM f) (MonadExcept.ofExcept (xs.mapM g) : EStateM ε τ (List β)) := by
  induction xs with
  | nil => exact alike_pure []
  | cons x xs ih =>
    rw [List.mapM_cons, List.mapM_cons]
    apply alike_answer_bind (hf x List.mem_cons_self)
    intro y
    apply alike_answer_bind (ih fun a ha => hf a (List.mem_cons_of_mem x ha))
    intro ys
    exact alike_pure (y :: ys)

end Alike

end Simulation
end ServerlessEdge.Library.Triple
