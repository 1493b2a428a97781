import ServerlessEdge.Hosting.Conservation
import ServerlessEdge.Hosting.Rejections
import ServerlessEdge.Hosting.Schedule
import ServerlessEdge.Hosting.Stranded

/-! A computer that is given the time that its dispatcher waits for completes its tasks. -/
namespace ServerlessEdge.Hosting
open Std Library Messages Deltas
open scoped List
open ServerlessEdge.Computer (exampleRequest)

variable {R : Type}

/-- One for each task, and one for each operation that is left. -/
def load (l : List Task) : ℕ := (l.map fun t => t.theResidualOps.toNat + 1).sum

@[simp] theorem load_nil : load [] = 0 := rfl

@[simp] theorem load_cons (t : Task) (l : List Task) :
    load (t :: l) = t.theResidualOps.toNat + 1 + load l := List.sum_cons

@[simp] theorem load_append (l l' : List Task) : load (l ++ l') = load l + load l' := by
  simp [load]

/-- Of active tasks only the last one counts in full. -/
theorem load_eq (l : List Task) : load l = latest (l.map Task.timed) + l.length := by
  induction l with
  | nil => rfl
  | cons t l ih =>
    have hlatest : latest ((t :: l).map Task.timed) =
        t.theResidualOps.toNat + latest (l.map Task.timed) := List.sum_cons
    rw [load_cons, ih, hlatest, List.length_cons]
    omega

namespace Container

def load (c : Container R) : ℕ := Hosting.load c.theActive + Hosting.load c.thePending

/-- The residual operations of the active tasks add up to a machine integer, there is a worker,
and no task that waits needs more memory than there is. -/
structure Sound (aMemTotal : UInt64) (c : Container R) : Prop where
  bounded : latest (c.theActive.map Task.timed) < 2 ^ 64
  workers : 0 < c.theNumWorkers
  admitted : ∀ t ∈ c.thePending, t.theMemory ≤ aMemTotal

variable {p q : Processor R} {c c' : Container R}

theorem makeActive_load (t : Task) {l : List Task} (hl : latest (l.map Task.timed) < 2 ^ 64) :
    ∃ l', makeActive .wrapping t 0 l = .ok l' ∧ latest (l'.map Task.timed) < 2 ^ 64 ∧
      Hosting.load l' ≤ Hosting.load l + (t.theResidualOps.toNat + 1) := by
  have hzero : (0 : UInt64) ≤ t.theResidualOps := UInt64.zero_le
  obtain ⟨l', hok, htimed⟩ := makeActive_ok .wrapping t l hzero
    (by rw [UInt64.toNat_zero, Nat.zero_add]; exact hl)
  obtain ⟨l'', hok', hperm⟩ := makeActive_perm t 0 l
  rw [hok] at hok'
  cases hok'
  have hlength := hperm.length_eq
  simp only [List.length_map, List.length_cons] at hlength
  have hlatest := latest_insert (t := t.timed) (s := 0) (l.map Task.timed) (Nat.zero_le _)
  have ht := t.theResidualOps.toNat_lt
  rw [UInt64.toNat_zero] at htimed
  rw [Nat.zero_add, Nat.zero_add] at hlatest
  rw [← htimed] at hlatest
  have hfst : t.timed.1 = t.theResidualOps.toNat := rfl
  rw [hfst] at hlatest
  refine ⟨l', hok, by omega, ?_⟩
  rw [load_eq, load_eq]
  omega

theorem promote_load {n : ℕ} {l l' pending rest : List Task}
    (hl : latest (l.map Task.timed) < 2 ^ 64)
    (h : promote .wrapping n p l pending = .ok (q, l', rest)) :
    latest (l'.map Task.timed) < 2 ^ 64 ∧ rest <:+ pending ∧
      Hosting.load l' + Hosting.load rest ≤ Hosting.load l + Hosting.load pending := by
  induction pending generalizing p l with
  | nil =>
    cases h
    exact ⟨hl, List.suffix_refl _, Nat.le_refl _⟩
  | cons t pending ih =>
    rw [promote] at h
    by_cases hstop : l.length = n ∨ p.memAvailable < t.theMemory
    · rw [if_pos hstop] at h
      cases h
      exact ⟨hl, List.suffix_refl _, Nat.le_refl _⟩
    · obtain ⟨l₁, hok, hl₁, hload₁⟩ := makeActive_load t hl
      rw [if_neg hstop, Processor.allocate_of_le fun hlt => hstop (.inr hlt)] at h
      simp only [Checks.ok_bind, hok] at h
      obtain ⟨hl', hsuffix, hload⟩ := ih hl₁ h
      refine ⟨hl', hsuffix.trans (List.suffix_cons _ _), ?_⟩
      rw [load_cons]
      omega

/-- A request that is accepted needs no more memory than there is. -/
theorem requirements_le {aReq : LambdaRequest} {r : LambdaRequirements}
    (h : c.requirements p aReq = .ok r) : r.theMemory ≤ p.theMemTotal := by
  rw [requirements] at h
  split at h
  · cases h
  · next hmemory =>
    cases h
    exact UInt64.not_lt.mp hmemory

theorem Sound.push (h : c.Sound p.theMemTotal) {aReq : LambdaRequest} {aId : UInt64}
    (hpush : c.push .wrapping p aReq aId = .ok (q, c')) :
    c'.Sound p.theMemTotal ∧ q.theMemTotal = p.theMemTotal ∧ c'.theProcessor = c.theProcessor := by
  rcases push_spec aReq aId with ⟨e, -, herr⟩ | ⟨r, hreq, ⟨-, hok⟩ | ⟨hroom, -⟩⟩
  · rw [herr] at hpush
    cases hpush
  · rw [hok] at hpush
    cases hpush
    refine ⟨⟨h.bounded, h.workers, fun t ht => ?_⟩, rfl, rfl⟩
    rcases List.mem_append.mp ht with ht | ht
    · exact h.admitted t ht
    · cases List.mem_singleton.mp ht
      exact requirements_le hreq
  · obtain ⟨l', hok, hbounded, -⟩ := makeActive_load
      ⟨aId, r.theMemory, r.theOperations, c.theLambda.execute aReq⟩ h.bounded
    unfold Container.push at hpush
    simp only [hreq, Checks.ok_bind, if_neg hroom,
      Processor.allocate_of_le fun hlt => hroom (.inr hlt), hok] at hpush
    cases hpush
    exact ⟨⟨hbounded, h.workers, h.admitted⟩, rfl, rfl⟩

/-- A completion takes its own task from what is left to do, and adds nothing. -/
theorem Sound.pop (h : c.Sound p.theMemTotal) {m n : ℕ} (hb : Balanced m n p c) {t : Task}
    {l : List Task} (hl : c.theActive = t :: l) :
    (c.pop .wrapping p).2.2.Sound p.theMemTotal ∧
      (c.pop .wrapping p).2.1.theMemTotal = p.theMemTotal ∧
      (c.pop .wrapping p).2.2.theProcessor = c.theProcessor ∧
      (c.pop .wrapping p).2.2.load < c.load := by
  have hfree : p.free t.theMemory = .ok
      { p with theMemUsed := p.theMemUsed - t.theMemory, theRunning := p.theRunning - 1 } :=
    if_neg (UInt64.not_lt.mpr (hb.le_used hl))
  have hbounded := h.bounded
  have hlatest : latest ((t :: l).map Task.timed) =
      t.theResidualOps.toNat + latest (l.map Task.timed) := List.sum_cons
  rw [hl] at hbounded
  have hrest : latest (l.map Task.timed) < 2 ^ 64 := by omega
  obtain ⟨q, l', rest, hpop, -, -, -, -, htotal, -⟩ := pop_spec hl hb.fits (hb.le_used hl) hb.workers
  have hrun := hpop
  simp only [Container.pop, hl, hfree] at hrun
  split at hrun
  · cases hrun
  · next hpromote =>
    cases hrun
    obtain ⟨hbounded', hsuffix, hload⟩ := promote_load hrest hpromote
    rw [hpop]
    refine ⟨⟨hbounded', h.workers, fun t' ht' => h.admitted t' (hsuffix.mem ht')⟩, htotal, rfl, ?_⟩
    rw [Container.load, Container.load, hl, load_cons]
    dsimp only
    omega

section Time

variable [Speed R] [DecidableLT R]

/-- Time that passes for a container makes its first active task shorter by as many operations as
the processor does, unless that is none. -/
theorem Sound.advance (h : c.Sound p.theMemTotal) {aElapsed : R} (he : ¬ aElapsed < 0) :
    ∃ c', c.advance .wrapping p aElapsed = .ok c' ∧ c'.Sound p.theMemTotal ∧
      c'.theProcessor = c.theProcessor ∧ (c' = c ∨ c'.load < c.load) ∧
      ∀ t l, c.theActive = t :: l → t.theResidualOps ≠ 0 → p.timeToOps aElapsed ≠ 0 →
        c'.load < c.load := by
  rw [Container.advance, if_neg he]
  cases hl : c.theActive with
  | nil =>
    refine ⟨c, rfl, h, rfl, .inl rfl, fun t l heq => ?_⟩
    cases heq
  | cons t l =>
    dsimp only
    have hmin : (min t.theResidualOps (p.timeToOps aElapsed)).toNat =
        min t.theResidualOps.toNat (p.timeToOps aElapsed).toNat := UInt64.toNat_min ..
    have hzero : ∀ n : UInt64, n = 0 ↔ n.toNat = 0 := fun n => UInt64.toNat_inj.symm
    by_cases hnone : min t.theResidualOps (p.timeToOps aElapsed) = 0
    · rw [if_pos hnone]
      refine ⟨c, rfl, h, rfl, .inl rfl, fun t' l' heq ht hops => ?_⟩
      cases heq
      rw [ne_eq, hzero] at ht hops
      rw [hzero, hmin] at hnone
      omega
    · rw [if_neg hnone]
      have hle : min t.theResidualOps (p.timeToOps aElapsed) ≤ t.theResidualOps := by
        rw [UInt64.le_iff_toNat_le, hmin]
        exact Nat.min_le_left _ _
      have hsub := UInt64.toNat_sub_of_le _ _ hle
      have hbounded := h.bounded
      rw [hzero] at hnone
      rw [hl] at hbounded
      let t' : Task :=
        { t with theResidualOps := t.theResidualOps - min t.theResidualOps (p.timeToOps aElapsed) }
      have hless : ({ c with theActive := t' :: l } : Container R).load < c.load := by
        rw [Container.load, Container.load, hl, load_cons, load_cons]
        dsimp only [t']
        omega
      refine ⟨_, rfl, ⟨?_, h.workers, h.admitted⟩, rfl, .inr hless, fun _ _ _ _ _ => hless⟩
      simp only [latest, List.map_cons, List.sum_cons, Task.timed] at hbounded ⊢
      omega

end Time

end Container

namespace Computer

/-- The counters of the processors are right, and so are the containers. -/
structure Sound (s : Computer R) : Prop where
  accounted : s.Accounted
  containers : ∀ k p c, s.hosted k = some (p, c) → c.Sound p.theMemTotal

/-- The tasks and the operations that are left to do. -/
def load (s : Computer R) : ℕ := Maps.total (fun _ c => c.load) s.theContainers

variable {s t : Computer R} {k : String} {p q : Processor R} {c c' : Container R}

theorem load_update (hk : s.hosted k = some (p, c)) :
    (s.update k (q, c')).load + c.load = s.load + c'.load := by
  have hold := Maps.total_of_lookup (fun _ c => c.load) (hosted_eq_some.mp hk).1
  have hnew := Maps.total_insert (fun _ c => Container.load c) s.theContainers k c'
  have hupdate : (s.update k (q, c')).load = Maps.total (fun _ c => c.load) (s.theContainers.insert k c') :=
    rfl
  rw [hupdate, hnew, load, hold]
  omega

theorem Sound.congr (h : s.Sound) (hp : t.theProcessors = s.theProcessors)
    (hc : t.theContainers = s.theContainers) : t.Sound := by
  refine ⟨h.accounted.congr hp hc, fun k p c hk => ?_⟩
  rw [hosted_eq_some, hp, hc] at hk
  exact h.containers k p c (hosted_eq_some.mpr hk)

/-- A call on one container leaves the others as sound as they were. -/
theorem Sound.update (h : s.Sound) (hk : s.hosted k = some (p, c))
    (ha : (s.update k (q, c')).Accounted) (hc' : c'.Sound p.theMemTotal)
    (hq : q.theMemTotal = p.theMemTotal) (hsame : c'.theProcessor = c.theProcessor) :
    (s.update k (q, c')).Sound := by
  refine ⟨ha, fun k' r d hd => ?_⟩
  rcases (hosted_update hsame).mp hd with ⟨-, rfl, rfl⟩ | ⟨-, hd', hproc, rfl⟩ | ⟨-, -, hd'⟩
  · rw [hq]
    exact hc'
  · have hp : s.theProcessors[d.theProcessor]? = some p := hproc ▸ (hosted_eq_some.mp hk).2
    rw [hq]
    exact h.containers k' p d (hosted_eq_some.mpr ⟨hd', hp⟩)
  · exact h.containers k' r d hd'

theorem Sound.new (aName : String) : (Computer.new aName : Computer R).Sound :=
  ⟨.new aName, fun k p c hk => absurd (hosted_eq_some.mp hk).1 (by simp [Computer.new])⟩

section Steps

variable [Speed R] [DecidableLT R]

theorem kept_sound : Kept (Sound : Computer R → Prop) where
  congr h hp hc := h.congr hp hc
  advance {s k p c aElapsed c'} h hk hc := by
    have he : ¬ aElapsed < 0 := by
      intro hlt
      rw [Container.advance, if_pos hlt] at hc
      cases hc
    obtain ⟨c'', hc'', hsound, hsame, -⟩ := (h.containers _ _ _ hk).advance he
    rw [hc] at hc''
    cases hc''
    exact h.update hk (kept_accounted.advance h.accounted hk hc) hsound rfl hsame
  push h hk ht := by
    obtain ⟨hc', hq, hsame⟩ := (h.containers _ _ _ hk).push ht
    exact h.update hk (kept_accounted.push h.accounted hk ht) hc' hq hsame

/-- Each container has advanced, and what is left to do is less if it has made any progress. -/
theorem advanceAll_load {aElapsed : R} (he : ¬ aElapsed < 0) (ks : List String) (h : s.Sound) :
    ∃ u, (ks.forM fun k => advanceAt k aElapsed) s = .ok ⟨⟩ u ∧ u.Sound ∧
      u.theChrono = s.theChrono ∧ (u = s ∨ u.load < s.load) ∧
      ∀ k ∈ ks, ∀ p c t l, s.hosted k = some (p, c) → c.theActive = t :: l → t.theResidualOps ≠ 0 →
        p.timeToOps aElapsed ≠ 0 → u.load < s.load := by
  induction ks generalizing s with
  | nil => exact ⟨s, rfl, h, rfl, .inl rfl, fun k hk => absurd hk List.not_mem_nil⟩
  | cons k ks ih =>
    have hfirst : ∃ u, advanceAt k aElapsed s = .ok ⟨⟩ u ∧ u.Sound ∧ u.theChrono = s.theChrono ∧
        (u = s ∨ u.load < s.load) ∧ ∀ p c t l, s.hosted k = some (p, c) → c.theActive = t :: l →
          t.theResidualOps ≠ 0 → p.timeToOps aElapsed ≠ 0 → u.load < s.load := by
      simp only [advanceAt, Triple.get_bind_apply]
      cases hk : s.hosted k with
      | none =>
        refine ⟨s, rfl, h, rfl, .inl rfl, fun p c t l heq => ?_⟩
        cases heq
      | some x =>
        obtain ⟨p, c⟩ := x
        obtain ⟨c', hc', hsound, hsame, hload, hless⟩ := (h.containers _ _ _ hk).advance he
        have hupdate : (s.update k (p, c')).load + c.load = s.load + c'.load := load_update hk
        simp only [hc']
        refine ⟨s.update k (p, c'), rfl, kept_sound.advance h hk hc', rfl, ?_, ?_⟩
        · rcases hload with rfl | hlt
          · obtain ⟨hc, hp⟩ := hosted_eq_some.mp hk
            rw [update, Maps.insert_self hp, Maps.insert_self hc]
            exact .inl rfl
          · right
            omega
        · rintro p' c'' t l heq hl ht hops
          cases heq
          have := hless t l hl ht hops
          omega
    obtain ⟨u, hu, hsound, hchrono, hload, hless⟩ := hfirst
    obtain ⟨v, hv, hsound', hchrono', hload', hless'⟩ := ih hsound
    refine ⟨v, ?_, hsound', hchrono'.trans hchrono, ?_, ?_⟩
    · exact (Triple.bind_of_ok hu _).trans hv
    · rcases hload with rfl | hlt
      · exact hload'
      · right
        rcases hload' with rfl | hlt'
        · exact hlt
        · exact hlt'.trans hlt
    · intro k' hk' p c t l hhosted hl ht hops
      have hle : v.load ≤ u.load := by
        rcases hload' with rfl | hlt'
        · exact Nat.le_refl _
        · exact hlt'.le
      rcases hload with rfl | hlt
      · rcases List.mem_cons.mp hk' with rfl | hk'
        · exact Nat.lt_of_le_of_lt hle (hless p c t l hhosted hl ht hops)
        · exact hless' k' hk' p c t l hhosted hl ht hops
      · exact Nat.lt_of_le_of_lt hle hlt

variable [DecidableEq R]

omit [DecidableLT R] in
/-- A completion takes its task from what is left to do. -/
theorem popAt_load (h : s.Sound) (hready : s.ready k = true) (hpop : popAt k s = .ok ⟨⟩ t) :
    t.Sound ∧ t.load < s.load := by
  obtain ⟨p, c, front, l, hk, hl, -⟩ := ready_iff.mp hready
  have hb := h.accounted.balanced hk
  obtain ⟨hsound, htotal, hsame, hless⟩ := (h.containers _ _ _ hk).pop hb hl
  have haccounted := stable_popAt k s h.accounted
  rw [Triple.after_of_ok hpop] at haccounted
  simp only [popAt, Triple.get_bind_apply, hk, (hb.pop hl).1] at hpop
  cases hpop
  have hupdate : (s.update k (c.pop .wrapping p).2).load + c.load =
      s.load + (c.pop .wrapping p).2.2.load := load_update hk
  refine ⟨(h.update hk (haccounted.congr rfl rfl) hsound htotal hsame).congr rfl rfl, ?_⟩
  show (s.update k (c.pop .wrapping p).2).load < s.load
  omega

omit [DecidableLT R] in
theorem Drains.load (hd : Drains k s t) (h : s.Sound) : t.Sound ∧ (t = s ∨ t.load < s.load) := by
  induction hd with
  | finished => exact ⟨h, .inl rfl⟩
  | pop hready hpop _ ih =>
    obtain ⟨hsound, hless⟩ := popAt_load h hready hpop
    obtain ⟨hsound', hload⟩ := ih hsound
    refine ⟨hsound', .inr ?_⟩
    rcases hload with rfl | hlt
    · exact hless
    · exact hlt.trans hless

omit [DecidableLT R] in
theorem DrainsAll.load {ks : List String} (hd : DrainsAll ks s t) (h : s.Sound) :
    t.Sound ∧ (t = s ∨ t.load < s.load) := by
  induction hd with
  | nil => exact ⟨h, .inl rfl⟩
  | cons hfirst _ ih =>
    obtain ⟨hsound, hload⟩ := hfirst.load h
    obtain ⟨hsound', hload'⟩ := ih hsound
    refine ⟨hsound', ?_⟩
    rcases hload with rfl | hlt
    · exact hload'
    · rcases hload' with rfl | hlt'
      · exact .inr hlt
      · exact .inr (hlt'.trans hlt)

omit [DecidableEq R] in
theorem pause_load {aElapsed : R} (he : ¬ aElapsed < 0) (h : s.Sound) :
    ∃ u, pause aElapsed s = .ok ⟨⟩ u ∧ u.Sound ∧
      (u.theContainers = s.theContainers ∨ u.load < s.load) ∧ (s.theChrono = true →
        ∀ k p c t l, s.hosted k = some (p, c) → c.theActive = t :: l → t.theResidualOps ≠ 0 →
          p.timeToOps aElapsed ≠ 0 → u.load < s.load) := by
  by_cases hchrono : s.theChrono = true
  · have hrun : pause aElapsed s =
        (s.theContainers.keys.forM fun k => advanceAt k aElapsed) { s with theChrono := false } := by
      simp only [pause, Triple.get_bind_apply, if_pos hchrono]
      rfl
    have hsound : ({ s with theChrono := false } : Computer R).Sound := h.congr rfl rfl
    obtain ⟨u, hu, hsound', -, hload, hless⟩ := advanceAll_load he s.theContainers.keys hsound
    refine ⟨u, hrun.trans hu, hsound', hload.imp (fun heq => by rw [heq]) id, ?_⟩
    intro _ k p c t l hk
    exact hless k (ExtTreeMap.mem_keys.mpr (Maps.mem_of_lookup (hosted_eq_some.mp hk).1)) p c t l hk
  · have hrun : pause aElapsed s = .ok ⟨⟩ s := by
      simp only [pause, Triple.get_bind_apply, if_neg hchrono]
      rfl
    exact ⟨s, hrun, h, .inl rfl, fun hon => absurd hon hchrono⟩

/-- A dispatch adds nothing to what is left to do, and takes something away if there is a completed
task, or one of a container that makes progress. -/
theorem dispatch_load {aElapsed : R} (hzero : ∀ v : R, Speed.opsToTime 0 v = 0)
    (he : ¬ aElapsed < 0) (h : s.Sound) (hactive : s.someActive = true) : ∃ t : Computer R,
      s.step (.dispatch aElapsed) = { t with theChrono := t.theChrono || t.someActive } ∧ t.Sound ∧
      t.load ≤ s.load ∧ (s.theChrono = true → (∃ k p c front l, s.hosted k = some (p, c) ∧
        c.theActive = front :: l ∧ (front.theResidualOps ≠ 0 → p.timeToOps aElapsed ≠ 0)) →
          t.load < s.load) := by
  obtain ⟨u, hu, hsound, hload, hless⟩ := pause_load he h
  obtain ⟨t, ht, hdrains, hnone, -⟩ := dispatchAll_drains hzero u.theContainers.keys hsound.accounted
  obtain ⟨hsound', hload'⟩ := hdrains.load hsound
  have hle : u.load ≤ s.load := by
    rcases hload with hsame | hlt
    · exact (congrArg (Maps.total fun _ c => Container.load c) hsame).le
    · exact hlt.le
  have hle' : t.load ≤ u.load := by
    rcases hload' with rfl | hlt
    · exact Nat.le_refl _
    · exact hlt.le
  refine ⟨t, ?_, hsound', hle'.trans hle, ?_⟩
  · have hrun : s.step (.dispatch aElapsed) = Triple.after (do
        pause aElapsed; dispatchCompletedTasks; resume : Op R Unit) s := by
      show Triple.after (if s.someActive then do
        pause aElapsed; dispatchCompletedTasks; resume else return) s = _
      rw [if_pos hactive]
    rw [hrun, Triple.after_bind_of_ok hu]
    exact (Triple.after_bind_of_ok ht _).trans rfl
  · rintro hchrono ⟨k, p, c, front, l, hk, hl, hops⟩
    by_cases hdone : front.theResidualOps = 0
    · rcases hload with hsame | hlt
      · -- the task is still there after the pause, and gone after the dispatch
        have hc : u.theContainers[k]? = some c := hsame ▸ (hosted_eq_some.mp hk).1
        have hkey : k ∈ u.theContainers.keys := ExtTreeMap.mem_keys.mpr (Maps.mem_of_lookup hc)
        rcases hload' with rfl | hlt'
        · exact absurd hdone (hnone k hkey c front l hc hl)
        · exact Nat.lt_of_lt_of_le hlt' hle
      · exact Nat.lt_of_le_of_lt hle' hlt
    · exact Nat.lt_of_le_of_lt hle' (hless hchrono k p c front l hk hl hdone (hops hdone))

omit [Speed R] [DecidableLT R] [DecidableEq R] in
private theorem Sound.insert_processor (h : s.Sound) {aName : String}
    (hnew : aName ∉ s.theProcessors)
    (ha : ({ s with theProcessors := s.theProcessors.insert aName q } : Computer R).Accounted) :
    ({ s with theProcessors := s.theProcessors.insert aName q } : Computer R).Sound := by
  refine ⟨ha, fun k p c hk => ?_⟩
  obtain ⟨hc, hp⟩ := hosted_eq_some.mp hk
  have hne : c.theProcessor ≠ aName := fun heq => hnew (heq ▸ h.accounted.hosted k c hc)
  rw [Maps.lookup_insert, if_neg hne] at hp
  exact h.containers k p c (hosted_eq_some.mpr ⟨hc, hp⟩)

omit [Speed R] [DecidableLT R] [DecidableEq R] in
/-- A container without workers is not added. -/
theorem addContainer_workers (s : Computer R) (aName aProcName : String) (aLambda : HostedLambda R) :
    (Triple.after (addContainer aName aProcName aLambda 0) s).theContainers = s.theContainers := by
  have hrefl : Std.Refl fun s t : Computer R => t.theContainers = s.theContainers := ⟨fun _ => rfl⟩
  have htrans : IsTrans (Computer R) fun s t => t.theContainers = s.theContainers :=
    ⟨fun _ _ _ h h' => h'.trans h⟩
  have hmoves : Triple.Moves (fun s t : Computer R => t.theContainers = s.theContainers)
      (addContainer aName aProcName aLambda 0) := by
    refine Triple.moves_bind (Triple.moves_bind Triple.moves_get fun s => ?_) fun _ => ?_
    · split
      · exact Triple.moves_throw _
      · exact Triple.moves_pure _
    · refine Triple.moves_bind Triple.moves_get fun s => ?_
      split
      · exact Triple.moves_throw _
      · split
        · exact Triple.moves_throw _
        · split
          · exact Triple.moves_throw _
          · exact Triple.moves_bind (Triple.moves_modify fun _ => rfl) fun _ => Triple.moves_throw _
  exact hmoves s

theorem Sound.step (h : s.Sound) (e : Event R) : (s.step e).Sound := by
  have haccounted := h.accounted.step e
  cases e with
  | addProcessor aName aSpeed aCores aMem =>
    rcases addProcessor_spec s aName aSpeed aCores aMem with heq | ⟨hnew, heq⟩
    · rw [heq]
      exact h
    · rw [heq] at haccounted ⊢
      exact h.insert_processor hnew haccounted
  | addContainer aName aProcName aLambda aNumWorkers =>
    obtain ⟨hp, hc | ⟨hnew, -, hc⟩⟩ := addContainer_spec s aName aProcName aLambda aNumWorkers rfl
    · exact h.congr hp hc
    · refine ⟨haccounted, fun k p c hk => ?_⟩
      rw [hosted_eq_some, hp, hc, Maps.lookup_insert] at hk
      obtain ⟨hk, hproc⟩ := hk
      split at hk
      · cases hk
        refine ⟨Nat.two_pow_pos 64, ?_, nofun⟩
        by_contra hnone
        cases Nat.eq_zero_of_not_pos hnone
        have hsame := addContainer_workers s aName aProcName aLambda
        exact hnew ((hc.symm.trans hsame) ▸ Maps.mem_insert.mpr (.inl rfl))
      · exact h.containers k p c (hosted_eq_some.mpr ⟨hk, hproc⟩)
  | addTask aElapsed aRequest => exact kept_sound.addTask h aElapsed aRequest
  | dispatch aElapsed =>
    refine kept_sound.dispatch (P := fun _ _ => True) (fun s k h hready _ => ?_) h fun _ _ => trivial
    obtain ⟨t, hpop, -⟩ := popAt_ok h.accounted hready
    rw [Triple.after_of_ok hpop]
    exact (popAt_load h hready hpop).1

end Steps

section Times

/-- The time, in nanoseconds, for which the dispatcher waits unless there is a new task. -/
def sleepTime (s : Computer ℚ) : ℤ :=
  s.theContainers.keys.foldl (fun mySleepTime k => match s.hosted k with
    | none => mySleepTime
    | some (p, c) => match c.nearest p with
      | .error _ => mySleepTime
      | .ok t => min mySleepTime (round (t * 1000000000))) 1000000000

/-- The dispatcher has waited for as long as it meant to, a nanosecond at least, and each processor
does one operation in two seconds at least and has not done more than there are numbers. -/
structure Timely (s : Computer ℚ) (aElapsed : ℚ) : Prop where
  slept : s.sleepTime ≤ aElapsed * 1000000000
  passed : 1 ≤ aElapsed * 1000000000
  fast : ∀ e ∈ s.theProcessors.toList, 0 < e.2.theRunning →
    1 / 2 ≤ e.2.equivalentSpeed ∧ 1 / 2 + aElapsed * e.2.equivalentSpeed < 2 ^ 64

instance (s : Computer ℚ) (aElapsed : ℚ) : Decidable (s.Timely aElapsed) :=
  decidable_of_iff (s.sleepTime ≤ aElapsed * 1000000000 ∧ 1 ≤ aElapsed * 1000000000 ∧
    ∀ e ∈ s.theProcessors.toList, 0 < e.2.theRunning →
      1 / 2 ≤ e.2.equivalentSpeed ∧ 1 / 2 + aElapsed * e.2.equivalentSpeed < 2 ^ 64)
    ⟨fun h => ⟨h.1, h.2.1, h.2.2⟩, fun h => ⟨h.slept, h.passed, h.fast⟩⟩

/-- It is the dispatcher's turn, after the time that it has waited for. -/
def Waits (s : Computer ℚ) : Event ℚ → Prop
  | .dispatch aElapsed => s.Timely aElapsed
  | _ => False

instance (s : Computer ℚ) (e : Event ℚ) : Decidable (s.Waits e) := by
  cases e <;> unfold Waits <;> infer_instance

theorem sleepTime_cases (s : Computer ℚ) : s.sleepTime = 1000000000 ∨
    ∃ k p c t l, s.hosted k = some (p, c) ∧ c.theActive = t :: l ∧
      s.sleepTime = round (p.opsToTime t.theResidualOps * 1000000000) := by
  rw [sleepTime]
  -- the least of the times seen so far is that of a container, or the one to start with
  induction s.theContainers.keys using List.reverseRecOn with
  | nil => exact .inl rfl
  | append_singleton ks k ih =>
    rw [List.foldl_append, List.foldl_cons, List.foldl_nil]
    generalize ks.foldl _ (1000000000 : ℤ) = m at ih ⊢
    cases hk : s.hosted k with
    | none => exact ih
    | some x =>
      obtain ⟨p, c⟩ := x
      cases hl : c.theActive with
      | nil =>
        simp only [Container.nearest, hl]
        exact ih
      | cons t l =>
        have hnearest : c.nearest p = .ok (p.opsToTime t.theResidualOps) := by
          rw [Container.nearest, hl]
          rfl
        simp only [hnearest]
        rcases min_choice m (round (p.opsToTime t.theResidualOps * 1000000000)) with hmin | hmin
        · rw [hmin]
          exact ih
        · exact .inr ⟨k, p, c, t, l, hk, hl, hmin⟩

theorem opsToTime_eq (aOps : UInt64) (aSpeed : ℚ) : Speed.opsToTime aOps aSpeed = aOps.toNat / aSpeed :=
  rfl

/-- Waiting for as long as an operation takes is enough for half of it, whichever way the time is
rounded to nanoseconds. -/
theorem half_le {aOps aSpeed aElapsed : ℚ} (hops : 1 ≤ aOps) (hspeed : 0 < aSpeed)
    (hslept : round (aOps / aSpeed * 1000000000) ≤ aElapsed * 1000000000)
    (hpassed : 1 ≤ aElapsed * 1000000000) : 1 / 2 ≤ aElapsed * aSpeed := by
  have hround := abs_le.mp (abs_sub_round (aOps / aSpeed * 1000000000))
  have htime : aOps / aSpeed ≤ 3 / 2 * aElapsed := by linarith
  have hdone : aOps ≤ 3 / 2 * aElapsed * aSpeed := (div_le_iff₀ hspeed).mp htime
  linarith

/-- At least half an operation is done, so that at least one is counted. -/
theorem timeToOps_ne_zero {p : Processor ℚ} {aElapsed : ℚ} (hrunning : 0 < p.theRunning)
    (hhalf : 1 / 2 ≤ aElapsed * p.equivalentSpeed)
    (hbound : 1 / 2 + aElapsed * p.equivalentSpeed < 2 ^ 64) : p.timeToOps aElapsed ≠ 0 := by
  have hfloor : 1 ≤ ⌊1 / 2 + aElapsed * p.equivalentSpeed⌋ := by
    rw [Int.le_floor]
    push_cast
    linarith
  have hlt : ⌊1 / 2 + aElapsed * p.equivalentSpeed⌋ < 2 ^ 64 := by
    rw [Int.floor_lt]
    push_cast
    exact hbound
  rw [Processor.timeToOps, if_neg (Nat.pos_iff_ne_zero.mp hrunning)]
  show UInt64.ofNat ⌊1 / 2 + aElapsed * p.equivalentSpeed⌋.toNat ≠ 0
  intro hnone
  have hnat := congrArg UInt64.toNat hnone
  rw [UInt64.toNat_ofNat', UInt64.toNat_zero] at hnat
  omega

/-- The container whose first active task was the next to be completed has made progress. -/
theorem Timely.progress {s : Computer ℚ} {aElapsed : ℚ} (ht : s.Timely aElapsed) (h : s.Sound)
    (hactive : s.someActive = true) : ∃ k p c front l, s.hosted k = some (p, c) ∧
      c.theActive = front :: l ∧ (front.theResidualOps ≠ 0 → p.timeToOps aElapsed ≠ 0) := by
  have hfast : ∀ k p c front l, s.hosted k = some (p, c) → c.theActive = front :: l →
      0 < p.theRunning ∧ 1 / 2 ≤ p.equivalentSpeed ∧ 1 / 2 + aElapsed * p.equivalentSpeed < 2 ^ 64 := by
    intro k p c front l hk hl
    have hrunning := (h.accounted.balanced hk).running
    rw [hl, List.length_cons] at hrunning
    have hpos : 0 < p.theRunning := by omega
    have hmem : (c.theProcessor, p) ∈ s.theProcessors.toList :=
      Maps.mem_toList.mpr (hosted_eq_some.mp hk).2
    obtain ⟨hspeed, hbound⟩ := ht.fast (c.theProcessor, p) hmem hpos
    exact ⟨hpos, hspeed, hbound⟩
  have hslept := ht.slept
  have hpassed := ht.passed
  rcases s.sleepTime_cases with hsecond | ⟨k, p, c, front, l, hk, hl, hnearest⟩
  · obtain ⟨k, c, hc, hne⟩ := someActive_iff.mp hactive
    obtain ⟨p, hk⟩ := h.accounted.exists_hosted hc
    obtain ⟨front, l, hl⟩ := List.exists_cons_of_ne_nil hne
    obtain ⟨hrunning, hspeed, hbound⟩ := hfast k p c front l hk hl
    refine ⟨k, p, c, front, l, hk, hl, fun _ => timeToOps_ne_zero hrunning ?_ hbound⟩
    rw [hsecond] at hslept
    push_cast at hslept
    have hone : 1 ≤ aElapsed := by linarith
    nlinarith
  · obtain ⟨hrunning, hspeed, hbound⟩ := hfast k p c front l hk hl
    refine ⟨k, p, c, front, l, hk, hl, fun hops => timeToOps_ne_zero hrunning ?_ hbound⟩
    have htime : p.opsToTime front.theResidualOps = Speed.opsToTime front.theResidualOps
        p.equivalentSpeed := if_neg (Nat.pos_iff_ne_zero.mp hrunning)
    have hleast : 1 ≤ front.theResidualOps.toNat := by
      rw [Nat.one_le_iff_ne_zero]
      exact fun heq => hops (UInt64.toNat_inj.mp heq)
    rw [hnearest, htime, opsToTime_eq] at hslept
    exact half_le (by exact_mod_cast hleast) (by linarith) hslept hpassed

/-- What is left to do, and one more if the clock has to be started first. -/
def toDo (s : Computer ℚ) : ℕ := s.load + if s.theChrono then 0 else 1

theorem dispatch_idle {s : Computer ℚ} (h : s.someActive = false) (aElapsed : ℚ) :
    s.step (.dispatch aElapsed) = s := by
  show Triple.after (if s.someActive then do
    pause aElapsed; dispatchCompletedTasks; resume else return) s = s
  rw [h, if_neg Bool.false_ne_true]
  rfl

/-- A dispatch for which the dispatcher has waited leaves less to do, if it leaves any. -/
theorem Timely.dispatch {s : Computer ℚ} {aElapsed : ℚ} (ht : s.Timely aElapsed) (h : s.Sound) :
    (s.step (.dispatch aElapsed)).someActive = false ∨
      (s.step (.dispatch aElapsed)).toDo < s.toDo := by
  cases hactive : s.someActive with
  | false => exact .inl (by rw [dispatch_idle hactive, hactive])
  | true =>
    have hpast : ¬ aElapsed < 0 := by
      have hpassed := ht.passed
      intro hlt
      linarith
    obtain ⟨t, hstep, -, hle, hless⟩ := dispatch_load (fun v => zero_div v) hpast h hactive
    rw [hstep]
    cases hagain : t.someActive with
    | false => exact .inl hagain
    | true =>
      right
      have hleft : ({ t with theChrono := t.theChrono || true } : Computer ℚ).toDo = t.load := by
        rw [toDo, Bool.or_true, if_pos rfl]
        rfl
      rw [hleft, toDo]
      cases hchrono : s.theChrono with
      | false =>
        rw [if_neg Bool.false_ne_true]
        omega
      | true =>
        rw [if_pos rfl]
        exact hless hchrono (ht.progress h hactive)

theorem load_pos {s : Computer ℚ} (h : s.someActive = true) : 0 < s.load := by
  obtain ⟨k, c, hc, hne⟩ := someActive_iff.mp h
  obtain ⟨t, l, hl⟩ := List.exists_cons_of_ne_nil hne
  rw [load, Maps.total_of_lookup _ hc, Container.load, hl, load_cons]
  omega

/-- Where no task is active and none is stranded all the tasks have been handed over. -/
theorem Sound.held_of_idle {s : Computer ℚ} (h : s.Sound) (hnone : s.NoneStranded)
    (hidle : s.someActive = false) : s.held = s.theNotified := by
  have hactive : ∀ (k : String) c, s.theContainers[k]? = some c → c.theActive = [] := by
    intro k c hc
    by_contra hne
    rw [someActive_iff.mpr ⟨k, c, hc, hne⟩] at hidle
    cases hidle
  have hanswers : ∀ e ∈ s.theContainers.toList, e.2.answers = [] := by
    rintro ⟨k, c⟩ he
    have hc := Maps.mem_toList.mp he
    obtain ⟨p, hk⟩ := h.accounted.exists_hosted hc
    have hsound := h.containers k p c hk
    cases hpending : c.thePending with
    | nil => rw [Container.answers, hactive k c hc, hpending]; rfl
    | cons t rest =>
      have hp := (hosted_eq_some.mp hk).2
      have hused := h.accounted.used _ p hp
      have hzero : Maps.total (memoryOn c.theProcessor) s.theContainers = 0 := by
        refine Maps.total_eq_zero _ fun k' d hd => ?_
        rw [memoryOn, hactive k' d hd, memory_nil, ite_self]
      have hfree := Container.canStart_eq_false.mp (hnone k p c hk) t rest hpending
        (by rw [hactive k c hc]; exact hsound.workers)
      have hadmitted := UInt64.le_iff_toNat_le.mp (hsound.admitted t (hpending ▸ List.mem_cons_self))
      rw [Processor.memAvailable_toNat (h.accounted.fits _ p hp)] at hfree
      omega
  rw [held, List.flatMap_eq_nil_iff.mpr hanswers, List.nil_append]

/-- Two tasks, the second of which waits for the only worker. -/
def exampleQueue : List (Event ℚ) :=
  [.addProcessor "cpu0" 1 2 20,
    .addContainer "container0" "cpu0" ⟨⟨true, ""⟩, "f0", fixedRequirements 1 10⟩ 1,
    .addTask 0 (exampleRequest "" ∅), .addTask 0 (exampleRequest "" ∅)]

end Times

end Computer

end ServerlessEdge.Hosting
