import ServerlessEdge.Hosting.Accounting

/-! Pending tasks that wait although a worker is free. A container looks at its
own pending tasks when one of its tasks is completed, and at no other time. -/
namespace ServerlessEdge.Hosting
open Std Library Messages

variable {R : Type}

namespace Container

/-- A worker is free, and so much memory is enough for the first pending task. -/
def canStart (available : ℕ) (c : Container R) : Bool :=
  match c.thePending with
  | [] => false
  | t :: _ => c.theActive.length < c.theNumWorkers && t.theMemory.toNat ≤ available

theorem canStart_eq_false {available : ℕ} {c : Container R} : c.canStart available = false ↔
    ∀ t rest, c.thePending = t :: rest → c.theActive.length < c.theNumWorkers →
      available < t.theMemory.toNat := by
  unfold canStart
  cases c.thePending with
  | nil => simp
  | cons t rest => simp

theorem served_le (workers available : ℕ) (l : List Task) :
    memory (served workers available l) ≤ available := by
  induction l generalizing workers available with
  | nil => exact Nat.zero_le _
  | cons t l ih =>
    unfold served
    split
    · exact Nat.zero_le _
    · have := ih (workers - 1) (available - t.theMemory.toNat)
      rw [memory_cons]
      omega

/-- The memory left when the first active task is completed and the pending
tasks of its container have been served. -/
def memoryLeft (p : Processor R) (c : Container R) (t : Task) : ℕ :=
  p.memAvailable.toNat + t.theMemory.toNat - memory (c.servedByPop p t)

end Container

namespace Computer

/-- No task waits for a worker that is free and for memory that is available. -/
def NoneStranded (s : Computer R) : Prop :=
  ∀ k p c, s.hosted k = some (p, c) → c.canStart p.memAvailable.toNat = false

/-- The memory that the next completion in the container of a function leaves is
not enough for those that wait in other containers of its processor. -/
def LeavesNone (s : Computer R) (k : String) : Prop :=
  ∀ p c, s.hosted k = some (p, c) → ∀ t l, c.theActive = t :: l →
    ∀ k' d, k' ≠ k → s.theContainers[k']? = some d → d.theProcessor = c.theProcessor →
      d.canStart (c.memoryLeft p t) = false

instance (s : Computer R) (k : String) : Decidable (s.LeavesNone k) :=
  decidable_of_iff ((s.hosted k).all fun x => match x.2.theActive with
    | [] => true
    | t :: _ => s.theContainers.toList.all fun e => e.1 = k || e.2.theProcessor ≠ x.2.theProcessor ||
      !e.2.canStart (x.2.memoryLeft x.1 t)) <| by
    unfold LeavesNone
    cases hk : s.hosted k with
    | none => simp
    | some x =>
      obtain ⟨p, c⟩ := x
      cases hl : c.theActive with
      | nil => simp [hl]
      | cons t l =>
        simp only [Option.all_some, hl, List.all_eq_true, Bool.or_eq_true, decide_eq_true_eq,
          Bool.not_eq_true', Option.some.injEq, Prod.mk.injEq, Prod.forall, Maps.mem_toList]
        constructor
        · rintro h p' c' ⟨rfl, rfl⟩ t' l' hl' k' d hne hd hproc
          rw [hl] at hl'
          cases hl'
          rcases h k' d hd with (hk' | hproc') | hstart
          · exact absurd hk' hne
          · exact absurd hproc hproc'
          · exact hstart
        · intro h k' d hd
          by_cases hne : k' = k
          · exact .inl (.inl hne)
          by_cases hproc : d.theProcessor = c.theProcessor
          · exact .inr (h p c ⟨rfl, rfl⟩ t l hl k' d hne hd hproc)
          · exact .inl (.inr hproc)

variable {s : Computer R} {k : String} {p : Processor R} {c : Container R}

theorem NoneStranded.any_eq_false (h : s.NoneStranded) (k : String) :
    ((s.hosted k).any fun x => x.2.canStart x.1.memAvailable.toNat) = false := by
  cases hk : s.hosted k with
  | none => rfl
  | some x => exact h k x.1 x.2 hk

theorem hosted_update {q : Processor R} {c' : Container R}
    (hsame : c'.theProcessor = c.theProcessor) {k' : String} {r : Processor R} {d : Container R} :
    (s.update k (q, c')).hosted k' = some (r, d) ↔ (k' = k ∧ r = q ∧ d = c') ∨
      (k' ≠ k ∧ s.theContainers[k']? = some d ∧ d.theProcessor = c.theProcessor ∧ r = q) ∨
      (k' ≠ k ∧ d.theProcessor ≠ c.theProcessor ∧ s.hosted k' = some (r, d)) := by
  rw [hosted_eq_some, hosted_eq_some]
  have hcontainer : (s.update k (q, c')).theContainers[k']? =
      if k' = k then some c' else s.theContainers[k']? := Maps.lookup_insert ..
  have hprocessor : (s.update k (q, c')).theProcessors[d.theProcessor]? =
      if d.theProcessor = c.theProcessor then some q else s.theProcessors[d.theProcessor]? := by
    rw [← hsame]
    exact Maps.lookup_insert ..
  rw [hcontainer, hprocessor]
  by_cases hkk : k' = k
  · simp only [hkk, if_true, Option.some.injEq, true_and, ne_eq, not_true_eq_false, false_and,
      or_false]
    constructor
    · rintro ⟨rfl, hr⟩
      rw [if_pos hsame] at hr
      exact ⟨(Option.some.inj hr).symm, rfl⟩
    · rintro ⟨rfl, rfl⟩
      exact ⟨rfl, if_pos hsame⟩
  · simp only [hkk, if_false, false_and, false_or, ne_eq, not_false_eq_true, true_and]
    by_cases hd : d.theProcessor = c.theProcessor
    · simp [hd, eq_comm]
    · simp [hd]

/-- After a call on one container, this container and the others on its processor
are to be looked at. -/
theorem NoneStranded.update (h : s.NoneStranded) {q : Processor R} {c' : Container R}
    (hsame : c'.theProcessor = c.theProcessor) (hown : c'.canStart q.memAvailable.toNat = false)
    (hothers : ∀ k' d, k' ≠ k → s.theContainers[k']? = some d →
      d.theProcessor = c.theProcessor → d.canStart q.memAvailable.toNat = false) :
    (s.update k (q, c')).NoneStranded := by
  intro k' r d hd
  rcases (hosted_update hsame).mp hd with ⟨-, rfl, rfl⟩ | ⟨hne, hd', hproc, rfl⟩ | ⟨-, -, hd'⟩
  · exact hown
  · exact hothers k' d hne hd' hproc
  · exact h k' r d hd'

theorem NoneStranded.others (h : s.NoneStranded) (hk : s.hosted k = some (p, c)) {k' : String}
    {d : Container R} (hd : s.theContainers[k']? = some d)
    (hproc : d.theProcessor = c.theProcessor) : d.canStart p.memAvailable.toNat = false := by
  have hp : s.theProcessors[d.theProcessor]? = some p := hproc ▸ (hosted_eq_some.mp hk).2
  exact h k' p d (hosted_eq_some.mpr ⟨hd, hp⟩)

theorem NoneStranded.congr (h : s.NoneStranded) {s' : Computer R}
    (hp : s'.theProcessors = s.theProcessors) (hc : s'.theContainers = s.theContainers) :
    s'.NoneStranded := by
  intro k p c hk
  rw [hosted_eq_some, hp, hc] at hk
  exact h k p c (hosted_eq_some.mpr hk)

theorem NoneStranded.push (h : s.NoneStranded) (ha : s.Accounted) (hk : s.hosted k = some (p, c))
    {aReq : LambdaRequest} {aId : UInt64} {q : Processor R} {c' : Container R}
    (hpush : c.push .wrapping p aReq aId = .ok (q, c')) : (s.update k (q, c')).NoneStranded := by
  rcases Container.push_spec aReq aId with ⟨e, -, herr⟩ | ⟨r, -, ⟨hwait, hok⟩ | ⟨hroom, l', hperm, hok⟩⟩
  · rw [herr] at hpush
    cases hpush
  · rw [hok] at hpush
    cases hpush
    refine h.update rfl (Container.canStart_eq_false.mpr fun t rest hpending hfree => ?_)
      fun k' d _ hd hproc => h.others hk hd hproc
    cases hold : c.thePending with
    | nil =>
      have hhead : t = c.newTask r aReq aId := by
        simp only [hold, List.nil_append, List.cons.injEq] at hpending
        exact hpending.1.symm
      rw [hhead]
      exact UInt64.lt_iff_toNat_lt.mp (hwait.resolve_left (Nat.ne_of_lt hfree))
    | cons t₀ rest₀ =>
      have hhead : t = t₀ := by
        simp only [hold, List.cons_append, List.cons.injEq] at hpending
        exact hpending.1.symm
      rw [hhead]
      exact Container.canStart_eq_false.mp (h k p c hk) t₀ rest₀ hold hfree
  · rw [hok] at hpush
    cases hpush
    have hfits := (ha.balanced hk).fits
    obtain ⟨hused, hfits'⟩ := Processor.allocated_toNat hfits fun hlt => hroom (.inr hlt)
    have hlength := hperm.length_eq
    simp only [List.length_map, List.length_cons] at hlength
    have hless : (p.allocated r.theMemory).memAvailable.toNat ≤ p.memAvailable.toNat := by
      rw [Processor.memAvailable_toNat hfits', hused, Processor.memAvailable_toNat hfits]
      have htotal : (p.allocated r.theMemory).theMemTotal = p.theMemTotal := rfl
      rw [htotal]
      omega
    refine h.update rfl (Container.canStart_eq_false.mpr fun t rest hpending hfree => ?_)
      fun k' d _ hd hproc => Container.canStart_eq_false.mpr fun t rest hpending hfree => ?_
    · have hfree' : l'.length < c.theNumWorkers := hfree
      have := Container.canStart_eq_false.mp (h k p c hk) t rest hpending (by omega)
      omega
    · have := Container.canStart_eq_false.mp (h.others hk hd hproc) t rest hpending hfree
      omega

theorem NoneStranded.advance [Speed R] [DecidableLT R] (h : s.NoneStranded)
    (hk : s.hosted k = some (p, c)) {aElapsed : R} {c' : Container R}
    (hadvance : c.advance .wrapping p aElapsed = .ok c') : (s.update k (p, c')).NoneStranded := by
  obtain ⟨hkept, hc'⟩ := Container.advance_spec hadvance
  have hlength : c'.theActive.length = c.theActive.length := by
    have := congrArg List.length hkept
    simpa only [List.length_map] using this
  refine h.update (by rw [hc']) (Container.canStart_eq_false.mpr fun t rest hpending hfree => ?_)
    fun k' d _ hd hproc => h.others hk hd hproc
  rw [hc'] at hpending hfree
  dsimp only at hpending hfree
  exact Container.canStart_eq_false.mp (h k p c hk) t rest hpending (hlength ▸ hfree)

/-- Whether a completion strands a task of another container is decided by the
memory that it leaves. -/
theorem NoneStranded.pop (h : s.NoneStranded) (ha : s.Accounted) (hk : s.hosted k = some (p, c))
    {t : Task} {l : List Task} (hl : c.theActive = t :: l) :
    (s.update k (c.pop .wrapping p).2).NoneStranded ↔ s.LeavesNone k := by
  have hb := ha.balanced hk
  obtain ⟨q, l', rest, hpop, -, -, hmem, -, htotal, hq, -, hrest⟩ :=
    Container.pop_spec hl hb.fits (hb.le_used hl) hb.workers
  have hleft : q.memAvailable.toNat = c.memoryLeft p t := by
    have hqfits := UInt64.le_iff_toNat_le.mp hq
    have hpfits := UInt64.le_iff_toNat_le.mp hb.fits
    have hserved : memory (c.servedByPop p t) ≤ p.memAvailable.toNat + t.theMemory.toNat :=
      Container.served_le ..
    rw [Processor.memAvailable_toNat hb.fits] at hserved
    rw [Container.memoryLeft, Processor.memAvailable_toNat hq, Processor.memAvailable_toNat hb.fits]
    rw [htotal] at hqfits ⊢
    omega
  rw [hpop]
  constructor
  · intro hnext p' c' hk' t₁ l₁ hl₁ k' d hne hd hproc
    rw [hk] at hk'
    cases hk'
    rw [hl] at hl₁
    cases hl₁
    have hd' : (s.update k (q, { c with theActive := l', thePending := rest })).hosted k' =
        some (q, d) := (hosted_update rfl).mpr (.inr (.inl ⟨hne, hd, hproc, rfl⟩))
    rw [← hleft]
    exact hnext k' q d hd'
  · intro hleaves
    refine h.update rfl (Container.canStart_eq_false.mpr fun t' rest' hpending hfree => ?_) ?_
    · exact UInt64.lt_iff_toNat_lt.mp (hrest t' rest' hpending hfree)
    · intro k' d hne hd hproc
      show d.canStart q.memAvailable.toNat = false
      rw [hleft]
      exact hleaves p c hk t l hl k' d hne hd hproc

/-- What a computer keeps as long as no completion strands a task. -/
structure Serves (s : Computer R) : Prop where
  accounted : s.Accounted
  none : s.NoneStranded

section Runs

variable [Speed R] [DecidableLT R]

private theorem kept_serves : Kept (Serves : Computer R → Prop) where
  congr h hp hc := ⟨h.accounted.congr hp hc, h.none.congr hp hc⟩
  advance h hk hc := ⟨kept_accounted.advance h.accounted hk hc, h.none.advance hk hc⟩
  push h hk ht := ⟨kept_accounted.push h.accounted hk ht, h.none.push h.accounted hk ht⟩

variable [DecidableEq R]

omit [DecidableLT R] in
private theorem Serves.popAt (h : s.Serves) (hready : s.ready k = true) (hleaves : s.LeavesNone k) :
    (Triple.after (popAt k) s).Serves := by
  obtain ⟨p, c, t, l, hk, hl, -⟩ := ready_iff.mp hready
  refine ⟨stable_popAt k s h.accounted, ?_⟩
  have hok := ((h.accounted.balanced hk).pop hl).1
  have hnone := (h.none.pop h.accounted hk hl).mpr hleaves
  simp only [Triple.after, Computer.popAt, Triple.get_bind_apply, hk, hok]
  exact hnone.congr rfl rfl

omit [Speed R] [DecidableLT R] [DecidableEq R] in
private theorem NoneStranded.insert_processor (h : s.NoneStranded) (ha : s.Accounted)
    {aName : String} (hnew : aName ∉ s.theProcessors) (q : Processor R) :
    ({ s with theProcessors := s.theProcessors.insert aName q } : Computer R).NoneStranded := by
  intro k p c hk
  obtain ⟨hc, hp⟩ := hosted_eq_some.mp hk
  have hne : c.theProcessor ≠ aName := fun heq => hnew (heq ▸ ha.hosted k c hc)
  rw [Maps.lookup_insert, if_neg hne] at hp
  exact h k p c (hosted_eq_some.mpr ⟨hc, hp⟩)

omit [Speed R] [DecidableLT R] [DecidableEq R] in
private theorem NoneStranded.insert_container (h : s.NoneStranded) (aLambda : String)
    {d : Container R} (hd : d.thePending = []) :
    ({ s with theContainers := s.theContainers.insert aLambda d } : Computer R).NoneStranded := by
  intro k p c hk
  obtain ⟨hc, hp⟩ := hosted_eq_some.mp hk
  rw [Maps.lookup_insert] at hc
  split at hc
  · cases hc
    rw [Container.canStart, hd]
  · exact h k p c (hosted_eq_some.mpr ⟨hc, hp⟩)

theorem Serves.step (h : s.Serves) (e : Event R) (hP : ∀ x ∈ s.completions e, x.1.LeavesNone x.2) :
    (s.step e).Serves := by
  cases e with
  | addProcessor aName aSpeed aCores aMem =>
    refine ⟨h.accounted.step _, ?_⟩
    rcases addProcessor_spec s aName aSpeed aCores aMem with heq | ⟨hnew, heq⟩
    · rw [heq]
      exact h.none
    · rw [heq]
      exact h.none.insert_processor h.accounted hnew _
  | addContainer aName aProcName aLambda aNumWorkers =>
    refine ⟨h.accounted.step _, ?_⟩
    obtain ⟨hp, hc | ⟨-, -, hc⟩⟩ := addContainer_spec s aName aProcName aLambda aNumWorkers rfl
    · exact h.none.congr hp hc
    · have hnew := h.none.insert_container aLambda.theName
        (d := ⟨aName, aProcName, aLambda, aNumWorkers, [], []⟩) rfl
      exact hnew.congr hp hc
  | addTask aElapsed aRequest => exact kept_serves.addTask h aElapsed aRequest
  | dispatch aElapsed => exact kept_serves.dispatch (fun s k h => h.popAt) h hP

/-- No task is stranded in a run whose completions leave no memory to those that
wait in other containers. -/
theorem none_stranded (aName : String) (events : List (Event R))
    (h : Runs.Along Computer.step (fun s e => ∀ x ∈ s.completions e, x.1.LeavesNone x.2)
      (Computer.new aName) events) :
    ∀ s ∈ Runs.states Computer.step (Computer.new aName) events, s.NoneStranded := by
  intro s hs
  have hnew : (Computer.new aName : Computer R).Serves :=
    ⟨.new aName, fun k p c hk => absurd (hosted_eq_some.mp hk).1 (by simp [Computer.new])⟩
  exact (Runs.invariant_along (fun _ e hI hP => hI.step e hP) hnew h s hs).none

end Runs

theorem none_stranded_example :
    Runs.Along Computer.step (fun s e => ∀ x ∈ s.completions e, x.1.LeavesNone x.2)
      (Computer.new "computer0") (exampleSetup 20 ++ exampleTasks) ∧
    ∀ s ∈ Runs.states Computer.step (Computer.new "computer0")
      (exampleSetup 20 ++ exampleTasks), s.NoneStranded := by
  have hfree : Runs.Along Computer.step (fun s e => ∀ x ∈ s.completions e, x.1.LeavesNone x.2)
      (Computer.new "computer0") (exampleSetup 20 ++ exampleTasks) := by
    decide +kernel
  exact ⟨hfree, none_stranded "computer0" (exampleSetup 20 ++ exampleTasks) hfree⟩

/-- The second task waits for the memory of the first one, which is then free for good. -/
theorem task_stranded : ¬ ∀ s ∈ Runs.states Computer.step (Computer.new "computer0")
    (exampleSetup 10 ++ exampleTasks), s.NoneStranded := by
  intro h
  have hfinal := h _ (Runs.final_mem_states Computer.step _ _)
  have hstart : ((Runs.final Computer.step (Computer.new "computer0")
      (exampleSetup 10 ++ exampleTasks)).hosted "f1").any
        (fun x => x.2.canStart x.1.memAvailable.toNat) = true := by decide +kernel
  rw [hfinal.any_eq_false] at hstart
  cases hstart

end Computer

end ServerlessEdge.Hosting
