import ServerlessEdge.Hosting.Accounting
import ServerlessEdge.Library.Runs

/-! What a request that a computer rejects leaves behind. -/
namespace ServerlessEdge.Hosting
open Std Library Messages
open ServerlessEdge.Computer (exampleRequest)

variable {R : Type}

/-- A container but for the operations that its active tasks have left. -/
def Container.work (c : Container R) : Container R × List (UInt64 × UInt64 × Rpc.LambdaResponse) :=
  ({ c with theActive := [] }, c.theActive.map Task.kept)

namespace Computer

/-- The same processors, and in each container the same tasks. -/
structure SameWork (s t : Computer R) : Prop where
  processors : t.theProcessors = s.theProcessors
  containers : ∀ k : String, (t.theContainers[k]?).map Container.work =
    (s.theContainers[k]?).map Container.work

instance : Std.Refl (SameWork : Computer R → Computer R → Prop) := ⟨fun _ => ⟨rfl, fun _ => rfl⟩⟩

instance : IsTrans (Computer R) SameWork :=
  ⟨fun _ _ _ h h' => ⟨h'.processors.trans h.processors,
    fun k => (h'.containers k).trans (h.containers k)⟩⟩

theorem someActive_iff {s : Computer R} :
    s.someActive = true ↔
      ∃ (k : String) (c : Container R), s.theContainers[k]? = some c ∧ c.theActive ≠ [] := by
  unfold someActive
  simp only [List.any_eq_true, decide_eq_true_eq, Prod.exists, Maps.mem_toList]
  constructor
  · rintro ⟨k, c, hc, hlength⟩
    exact ⟨k, c, hc, List.ne_nil_of_length_pos hlength⟩
  · rintro ⟨k, c, hc, hne⟩
    exact ⟨k, c, hc, List.length_pos_of_ne_nil hne⟩

theorem SameWork.symm {s t : Computer R} (h : SameWork s t) : SameWork t s :=
  ⟨h.processors.symm, fun k => (h.containers k).symm⟩

theorem SameWork.someActive {s t : Computer R} (h : SameWork s t) (hs : s.someActive = true) :
    t.someActive = true := by
  obtain ⟨k, c, hc, hne⟩ := someActive_iff.mp hs
  have hwork := h.containers k
  rw [hc, Option.map_some, Option.map_eq_some_iff] at hwork
  obtain ⟨d, hd, hsame⟩ := hwork
  refine someActive_iff.mpr ⟨k, d, hd, fun hnil => hne ?_⟩
  have hkept : d.theActive.map Task.kept = c.theActive.map Task.kept := congrArg Prod.snd hsame
  rw [hnil, List.map_nil] at hkept
  exact List.map_eq_nil_iff.mp hkept.symm

/-- Where no task is active the work is all that there is in the containers. -/
theorem SameWork.eq_of_idle {s t : Computer R} (h : SameWork s t) (hs : ¬ s.someActive = true) :
    t.theContainers = s.theContainers := by
  apply ExtTreeMap.ext_getElem?
  intro k
  have hwork := h.containers k
  cases hc : s.theContainers[k]? with
  | none =>
    rw [hc, Option.map_none, Option.map_eq_none_iff] at hwork
    exact hwork
  | some c =>
    rw [hc, Option.map_some, Option.map_eq_some_iff] at hwork
    obtain ⟨d, hd, hsame⟩ := hwork
    have hnil : c.theActive = [] := by
      by_contra hne
      exact hs (someActive_iff.mpr ⟨k, c, hc, hne⟩)
    have hkept : d.theActive.map Task.kept = c.theActive.map Task.kept := congrArg Prod.snd hsame
    rw [hnil, List.map_nil, List.map_eq_nil_iff] at hkept
    have hrest : { d with theActive := [] } = { c with theActive := [] } := congrArg Prod.fst hsame
    rw [hd]
    calc some d
      _ = some { d with theActive := [] } := by rw [← hkept]
      _ = some { c with theActive := [] } := by rw [hrest]
      _ = some c := by rw [← hnil]

variable [Speed R] [DecidableLT R]

/-- Time that passes for one container neither takes tasks nor starts the clock. -/
theorem advanceAt_work (k : String) (aElapsed : R) : Triple.Moves
    (fun s t : Computer R => SameWork s t ∧ t.theChrono = s.theChrono) (advanceAt k aElapsed) := by
  intro s
  simp only [Triple.after, advanceAt, Triple.get_bind_apply]
  cases hk : s.hosted k with
  | none => exact ⟨Std.Refl.refl s, rfl⟩
  | some x =>
    obtain ⟨p, c⟩ := x
    obtain ⟨hc, hp⟩ := hosted_eq_some.mp hk
    cases hadvance : c.advance .wrapping p aElapsed with
    | error e =>
      simp only [hadvance]
      exact ⟨Std.Refl.refl s, rfl⟩
    | ok c' =>
      obtain ⟨hkept, hc'⟩ := Container.advance_spec hadvance
      have hproc : c'.theProcessor = c.theProcessor := by rw [hc']
      have hwork : c'.work = c.work := by
        rw [Container.work, hkept, hc']
        rfl
      simp only [hadvance]
      refine ⟨⟨?_, fun k' => ?_⟩, rfl⟩
      · have hp' : s.theProcessors[c'.theProcessor]? = some p := hproc ▸ hp
        exact Maps.insert_self hp'
      · have hlookup : (s.update k (p, c')).theContainers[k']? =
            if k' = k then some c' else s.theContainers[k']? := Maps.lookup_insert ..
        show ((s.update k (p, c')).theContainers[k']?).map Container.work = _
        rw [hlookup]
        by_cases hk' : k' = k
        · rw [if_pos hk', hk', hc, Option.map_some, Option.map_some, hwork]
        · rw [if_neg hk']

/-- After a pause the clock is stopped, and the tasks are where they were. -/
theorem pause_work (aElapsed : R) (s : Computer R) :
    SameWork s (Triple.after (pause aElapsed) s) ∧
      (Triple.after (pause aElapsed) s).theChrono = false := by
  have : Std.Refl fun s t : Computer R => SameWork s t ∧ t.theChrono = s.theChrono :=
    ⟨fun s => ⟨Std.Refl.refl s, rfl⟩⟩
  have : IsTrans (Computer R) fun s t => SameWork s t ∧ t.theChrono = s.theChrono :=
    ⟨fun _ _ _ h h' => ⟨IsTrans.trans _ _ _ h.1 h'.1, h'.2.trans h.2⟩⟩
  by_cases hchrono : s.theChrono = true
  · have hrun : pause aElapsed s =
        (s.theContainers.keys.forM fun k => advanceAt k aElapsed) { s with theChrono := false } := by
      simp only [pause, Triple.get_bind_apply, if_pos hchrono]
      rfl
    obtain ⟨hsame, hoff⟩ := Triple.moves_forM (fun k => advanceAt_work k aElapsed)
      s.theContainers.keys { s with theChrono := false }
    simp only [Triple.after, hrun]
    exact ⟨⟨hsame.processors, hsame.containers⟩, hoff⟩
  · have hrun : pause aElapsed s = .ok ⟨⟩ s := by
      simp only [pause, Triple.get_bind_apply, if_neg hchrono]
      rfl
    simp only [Triple.after, hrun]
    exact ⟨Std.Refl.refl s, Bool.eq_false_of_not_eq_true hchrono⟩

/-- Time does nothing to containers without active tasks. -/
theorem advanceAt_idle {s : Computer R} (h : ¬ s.someActive = true) (k : String) (aElapsed : R) :
    Triple.after (advanceAt k aElapsed) s = s := by
  simp only [Triple.after, advanceAt, Triple.get_bind_apply]
  cases hk : s.hosted k with
  | none => rfl
  | some x =>
    obtain ⟨p, c⟩ := x
    obtain ⟨hc, hp⟩ := hosted_eq_some.mp hk
    have hnil : c.theActive = [] := by
      by_contra hne
      exact h (someActive_iff.mpr ⟨k, c, hc, hne⟩)
    by_cases hpast : aElapsed < 0
    · simp only [Container.advance, if_pos hpast]
      rfl
    · have hsame : c.advance .wrapping p aElapsed = .ok c := by
        rw [Container.advance, if_neg hpast, hnil]
        rfl
      simp only [hsame]
      show s.update k (p, c) = s
      rw [update, Maps.insert_self hp, Maps.insert_self hc]

theorem pause_idle {s : Computer R} (h : ¬ s.someActive = true) (aElapsed : R) :
    (Triple.after (pause aElapsed) s).theContainers = s.theContainers := by
  have hall : ∀ (ks : List String) (t : Computer R), ¬ t.someActive = true →
      Triple.after (ks.forM fun k => advanceAt k aElapsed) t = t := by
    intro ks
    induction ks with
    | nil => exact fun _ _ => rfl
    | cons k ks ih =>
      intro t ht
      have hfirst := advanceAt_idle ht k aElapsed
      refine Triple.after_bind (I := fun u => u = t) hfirst fun a u hu => ?_
      rw [Triple.after_of_ok hu] at hfirst
      subst hfirst
      exact ih u ht
  by_cases hchrono : s.theChrono = true
  · have hrun : pause aElapsed s =
        (s.theContainers.keys.forM fun k => advanceAt k aElapsed) { s with theChrono := false } := by
      simp only [pause, Triple.get_bind_apply, if_pos hchrono]
      rfl
    have hsame := hall s.theContainers.keys { s with theChrono := false } h
    simp only [Triple.after, hrun] at hsame ⊢
    rw [hsame]
  · have hrun : pause aElapsed s = .ok ⟨⟩ s := by
      simp only [pause, Triple.get_bind_apply, if_neg hchrono]
      rfl
    simp only [Triple.after, hrun]

/-- The call has left no trace: the same work is pending, the clock runs if there are
active tasks, and whatever time it shows when it is stopped is accounted to the same
tasks as without the call. -/
structure Unharmed (s t : Computer R) : Prop where
  work : SameWork s t
  running : t.someActive = true → t.theChrono = true
  accounted : ∀ aElapsed, (Triple.after (pause aElapsed) t).theContainers =
    (Triple.after (pause aElapsed) s).theContainers

omit [Speed R] [DecidableLT R] in
/-- A push that throws has changed nothing. -/
theorem pushAt_error (aLambda : String) (aRequest : LambdaRequest) (aId : UInt64) (s : Computer R)
    (e : String) (t : Computer R) (h : pushAt aLambda aRequest aId s = .error e t) : t = s := by
  simp only [pushAt, Triple.get_bind_apply] at h
  cases hk : s.hosted aLambda with
  | none =>
    rw [hk] at h
    cases h
  | some x =>
    obtain ⟨p, c⟩ := x
    simp only [hk] at h
    cases hpush : c.push .wrapping p aRequest aId with
    | error e' =>
      simp only [hpush] at h
      cases h
      rfl
    | ok u =>
      simp only [hpush] at h
      cases h

/-- A request for a known function is rejected with the clock stopped. -/
theorem rejected_stopped {s t : Computer R} {aElapsed : R} {aRequest : LambdaRequest} {e : String}
    (hname : aRequest.theName ∈ s.theContainers) (h : addTask aElapsed aRequest s = .error e t) :
    SameWork s t ∧ t.theChrono = false := by
  let s₀ : Computer R := { s with theInitDone := true, theNextId := s.theNextId + 1 }
  have hpause := pause_work aElapsed s₀
  rw [addTask_known aElapsed hname] at h
  cases hp : pause aElapsed s₀ with
  | error e' s₁ =>
    rw [Triple.bind_of_error hp] at h
    cases h
    simp only [Triple.after, hp] at hpause
    exact ⟨⟨hpause.1.processors, hpause.1.containers⟩, hpause.2⟩
  | ok _ s₁ =>
    rw [Triple.bind_of_ok hp] at h
    rw [Triple.after_of_ok hp] at hpause
    have hthrow := pushAt_error aRequest.theName aRequest s.theNextId s₁
    cases hpush : pushAt aRequest.theName aRequest s.theNextId s₁ with
    | ok _ u =>
      rw [Triple.bind_of_ok hpush] at h
      cases h
    | error e' u =>
      rw [Triple.bind_of_error hpush] at h
      cases h
      cases hthrow _ t hpush
      exact ⟨⟨hpause.1.processors, hpause.1.containers⟩, hpause.2⟩

/-- A request that is rejected leaves no trace if and only if no task is active, or its
function is unknown while the clock is running. -/
theorem rejected_unharmed_iff (s : Computer R) (aElapsed : R) (aRequest : LambdaRequest) {e : String}
    {t : Computer R} (h : addTask aElapsed aRequest s = .error e t) :
    Unharmed s t ↔ ¬ s.someActive = true ∨
      aRequest.theName ∉ s.theContainers ∧ s.theChrono = true := by
  by_cases hname : aRequest.theName ∈ s.theContainers
  · obtain ⟨hwork, hoff⟩ := rejected_stopped hname h
    constructor
    · intro hunharmed
      refine .inl fun hactive => ?_
      have hon := hunharmed.running (hwork.someActive hactive)
      rw [hoff] at hon
      cases hon
    · rintro (hidle | ⟨hnot, -⟩)
      · have hidle' : ¬ t.someActive = true := fun hactive => hidle (hwork.symm.someActive hactive)
        refine ⟨hwork, fun hactive => absurd hactive hidle', fun aElapsed' => ?_⟩
        rw [pause_idle hidle, pause_idle hidle', hwork.eq_of_idle hidle]
      · exact absurd hname hnot
  · rw [addTask_unknown aElapsed hname] at h
    cases h
    constructor
    · intro hunharmed
      by_cases hactive : s.someActive = true
      · exact .inr ⟨hname, hunharmed.running hactive⟩
      · exact .inl hactive
    · intro hor
      refine ⟨Std.Refl.refl s, fun hactive => ?_, fun _ => rfl⟩
      exact (hor.resolve_left (not_not.mpr hactive)).2

/-- One of the functions of a processor needs more memory than it has. -/
def exampleBusy (tasks : List (Event ℚ)) : Computer ℚ :=
  Runs.final Computer.step (Computer.new "computer0") ([.addProcessor "cpu0" 1 2 10,
    .addContainer "container0" "cpu0" ⟨⟨true, ""⟩, "f0", fixedRequirements 1 10⟩ 1,
    .addContainer "container1" "cpu0" ⟨⟨true, ""⟩, "f1", fixedRequirements 1 20⟩ 1] ++ tasks)

/-- A request for an unknown function while a task is active. -/
theorem rejected_unharmed_unknown :
    Unharmed (exampleBusy [.addTask 0 (exampleRequest "" ∅)])
      (exampleBusy [.addTask 0 (exampleRequest "" ∅)]) :=
  (rejected_unharmed_iff _ 0 { exampleRequest "" ∅ with theName := "f2" } rfl).mpr
    (.inr ⟨by decide +kernel, by decide +kernel⟩)

/-- A task is active when a request for too much memory is rejected. The clock no longer
runs, and the second in which the task would have been completed is lost. -/
theorem clock_stopped : ∃ s e t,
    s = exampleBusy [.addTask 0 (exampleRequest "" ∅)] ∧
    addTask 0 { exampleRequest "" ∅ with theName := "f1" } s = .error e t ∧ ¬ Unharmed s t ∧
    (s.step (.dispatch 1)).theNotified.map Prod.fst = [0] ∧
    (t.step (.dispatch 1)).theNotified.map Prod.fst = [] := by
  let s := exampleBusy [.addTask 0 (exampleRequest "" ∅)]
  have hrun : (match addTask 0 { exampleRequest "" ∅ with theName := "f1" } s with
      | .ok _ _ => none
      | .error _ t => some (t.someActive, t.theChrono,
        (t.step (.dispatch 1)).theNotified.map Prod.fst)) = some (true, false, []) := by
    decide +kernel
  have hnotified : (s.step (.dispatch 1)).theNotified.map Prod.fst = [0] := by decide +kernel
  cases h : addTask 0 { exampleRequest "" ∅ with theName := "f1" } s with
  | ok _ t =>
    rw [h] at hrun
    cases hrun
  | error e t =>
    rw [h] at hrun
    simp only [Option.some.injEq, Prod.mk.injEq] at hrun
    refine ⟨s, e, t, rfl, h, fun hunharmed => ?_, hnotified, hrun.2.2⟩
    have hon := hunharmed.running hrun.1
    rw [hrun.2.1] at hon
    cases hon

end Computer

end ServerlessEdge.Hosting
