import Mathlib.Data.List.Nodup
import ServerlessEdge.Hosting.Accounting

/-! The tasks of a computer: each one accepted is active, pending or handed over to
the callback, and no completed task is left behind by the dispatcher. -/
namespace ServerlessEdge.Hosting
open Std Library Messages
open scoped List
open ServerlessEdge.Computer (exampleRequest)

variable {R : Type}

/-- What the callback gets of a task. -/
def Task.answer (t : Task) : UInt64 × Rpc.LambdaResponse := (t.theId, t.theResp)

/-- The tasks of a container, with their answers. -/
def Container.answers (c : Container R) : List (UInt64 × Rpc.LambdaResponse) :=
  (c.theActive ++ c.thePending).map Task.answer

namespace Container

variable {p : Processor R} {c : Container R}

theorem answers_of_kept {l l' : List Task} (h : (l.map Task.kept).Perm (l'.map Task.kept)) :
    (l.map Task.answer).Perm (l'.map Task.answer) := by
  have hanswer : ∀ l : List Task,
      l.map Task.answer = (l.map Task.kept).map fun x => (x.1, x.2.2) := by
    intro l
    rw [List.map_map]
    rfl
  rw [hanswer, hanswer]
  exact h.map _

theorem advance_answers [Speed R] [DecidableLT R] {aElapsed : R} {c' : Container R}
    (h : c.advance .wrapping p aElapsed = .ok c') :
    c'.answers.Perm c.answers ∧ c'.theLambda = c.theLambda := by
  obtain ⟨hkept, hc'⟩ := advance_spec h
  have hactive := answers_of_kept (.of_eq hkept)
  have hpending : c'.thePending = c.thePending := by rw [hc']
  refine ⟨?_, by rw [hc']⟩
  rw [answers, answers, hpending, List.map_append, List.map_append]
  exact hactive.append_right _

/-- A request that is accepted is one more task, with the response to this request. -/
theorem push_answers {aReq : LambdaRequest} {aId : UInt64} {q : Processor R} {c' : Container R}
    (h : c.push .wrapping p aReq aId = .ok (q, c')) :
    c'.answers.Perm ((aId, c.theLambda.execute aReq) :: c.answers) ∧
      c'.theLambda = c.theLambda := by
  rcases push_spec aReq aId with ⟨e, -, herr⟩ | ⟨r, -, ⟨-, hok⟩ | ⟨-, l', hperm, hok⟩⟩
  · rw [herr] at h
    cases h
  · rw [hok] at h
    cases h
    refine ⟨?_, rfl⟩
    have hlist : c.theActive ++ (c.thePending ++ [c.newTask r aReq aId]) =
        c.theActive ++ c.thePending ++ [c.newTask r aReq aId] := (List.append_assoc ..).symm
    rw [answers, hlist, List.map_append]
    exact List.perm_append_singleton _ _
  · rw [hok] at h
    cases h
    refine ⟨?_, rfl⟩
    simp only [answers, List.map_append]
    exact (answers_of_kept hperm).append_right _

/-- The task that is taken is one less. -/
theorem pop_answers {m n : ℕ} (hb : Balanced m n p c) {t : Task} {l : List Task}
    (hl : c.theActive = t :: l) : c.answers.Perm (t.answer :: (c.pop .wrapping p).2.2.answers) ∧
      (c.pop .wrapping p).2.2.theLambda = c.theLambda ∧
      (c.pop .wrapping p).2.2.theActive.length + (c.pop .wrapping p).2.2.thePending.length + 1 =
        c.theActive.length + c.thePending.length := by
  obtain ⟨q, l', rest, hpop, hpending, hperm, -⟩ := pop_spec hl hb.fits (hb.le_used hl) hb.workers
  have hlength := hperm.length_eq
  simp only [List.length_map, List.length_append] at hlength
  rw [hpop]
  refine ⟨?_, rfl, ?_⟩
  · simp only [answers, hl, List.cons_append, List.map_cons, List.map_append]
    apply List.Perm.cons
    have hserved : (c.thePending.map Task.answer).Perm
        ((c.servedByPop p t).map Task.answer ++ rest.map Task.answer) := by
      rw [← List.map_append, ← hpending]
    have hactive := answers_of_kept hperm
    rw [List.map_append] at hactive
    refine (hserved.append_left _).trans ?_
    rw [← List.append_assoc]
    exact (List.perm_append_comm.trans hactive.symm).append_right _
  · have hsplit := congrArg List.length hpending
    rw [List.length_append] at hsplit
    show l'.length + rest.length + 1 = _
    rw [hl, List.length_cons]
    omega

end Container

namespace Computer

/-- The tasks of all containers and those handed over to the callback. -/
def held (s : Computer R) : List (UInt64 × Rpc.LambdaResponse) :=
  s.theContainers.toList.flatMap (fun e => e.2.answers) ++ s.theNotified

theorem held_update {s : Computer R} {k : String} {p q : Processor R} {c c' : Container R}
    (hk : s.hosted k = some (p, c)) {x y : List (UInt64 × Rpc.LambdaResponse)}
    (h : (x ++ c'.answers).Perm (y ++ c.answers)) :
    (x ++ (s.update k (q, c')).held).Perm (y ++ s.held) := by
  obtain ⟨hc, -⟩ := hosted_eq_some.mp hk
  have hold := Maps.flatMap_of_lookup (fun e : String × Container R => e.2.answers) hc
  have hnew := Maps.flatMap_insert (fun e : String × Container R => e.2.answers)
    s.theContainers k c'
  have hboth : x ++ (s.theContainers.insert k c').toList.flatMap (fun e => e.2.answers) ~
      y ++ s.theContainers.toList.flatMap (fun e => e.2.answers) := by
    calc x ++ (s.theContainers.insert k c').toList.flatMap (fun e => e.2.answers)
      _ ~ x ++ (c'.answers ++ (s.theContainers.erase k).toList.flatMap fun e => e.2.answers) :=
        hnew.append_left _
      _ = x ++ c'.answers ++ (s.theContainers.erase k).toList.flatMap (fun e => e.2.answers) :=
        (List.append_assoc ..).symm
      _ ~ y ++ c.answers ++ (s.theContainers.erase k).toList.flatMap (fun e => e.2.answers) :=
        h.append_right _
      _ = y ++ (c.answers ++ (s.theContainers.erase k).toList.flatMap fun e => e.2.answers) :=
        List.append_assoc ..
      _ ~ y ++ s.theContainers.toList.flatMap (fun e => e.2.answers) := hold.symm.append_left _
  have hall := hboth.append_right s.theNotified
  rw [List.append_assoc, List.append_assoc] at hall
  exact hall

/-- The same tasks, and nothing that decides about the next one has changed. -/
structure SameTasks (s t : Computer R) : Prop where
  accounted : t.Accounted
  held : t.held ~ s.held
  functions : ∀ k : String, (t.theContainers[k]?).map Container.theLambda =
    (s.theContainers[k]?).map Container.theLambda
  theNextId : t.theNextId = s.theNextId

/-- Where the processors account for the active tasks no task is lost or made. -/
def Keeps (s t : Computer R) : Prop := s.Accounted → SameTasks s t

instance : Std.Refl (Keeps : Computer R → Computer R → Prop) :=
  ⟨fun _ h => ⟨h, .refl _, fun _ => rfl, rfl⟩⟩

instance : IsTrans (Computer R) Keeps := by
  constructor
  intro s t u hst htu h
  have hfirst := hst h
  have hsecond := htu hfirst.accounted
  exact ⟨hsecond.accounted, hsecond.held.trans hfirst.held,
    fun k => (hsecond.functions k).trans (hfirst.functions k),
    hsecond.theNextId.trans hfirst.theNextId⟩

theorem functions_update {s : Computer R} {k : String} {p q : Processor R} {c c' : Container R}
    (hk : s.hosted k = some (p, c)) (h : c'.theLambda = c.theLambda) (k' : String) :
    ((s.update k (q, c')).theContainers[k']?).map Container.theLambda =
      (s.theContainers[k']?).map Container.theLambda := by
  obtain ⟨hc, -⟩ := hosted_eq_some.mp hk
  have hlookup : (s.update k (q, c')).theContainers[k']? =
      if k' = k then some c' else s.theContainers[k']? := Maps.lookup_insert ..
  rw [hlookup]
  by_cases hk' : k' = k
  · rw [if_pos hk', hk', hc, Option.map_some, Option.map_some, h]
  · rw [if_neg hk']

section Parts

theorem keeps_popAt (k : String) : Triple.Moves Keeps (popAt k : Op R Unit) := by
  intro s h
  have haccounted := stable_popAt k s h
  revert haccounted
  simp only [Triple.after, popAt, Triple.get_bind_apply]
  cases hk : s.hosted k with
  | none => exact fun _ => ⟨h, .refl _, fun _ => rfl, rfl⟩
  | some x =>
    obtain ⟨p, c⟩ := x
    cases hl : c.theActive with
    | nil =>
      have hpop : c.pop .wrapping p = (.error "No active tasks", p, c) := by
        rw [Container.pop, hl]
        rfl
      simp only [hpop]
      exact fun haccounted => ⟨haccounted, held_update hk (x := []) (y := []) (.refl _),
        functions_update hk rfl, rfl⟩
    | cons t l =>
      have hok := ((h.balanced hk).pop hl).1
      obtain ⟨hanswers, hlambda, -⟩ := Container.pop_answers (h.balanced hk) hl
      simp only [hok]
      intro haccounted
      refine ⟨haccounted, ?_, functions_update hk hlambda, rfl⟩
      have hheld := held_update hk (q := (c.pop .wrapping p).2.1) (x := [t.answer]) (y := [])
        hanswers.symm
      exact List.perm_middle.trans hheld

variable [Speed R] [DecidableLT R]

theorem keeps_advanceAt (k : String) (aElapsed : R) :
    Triple.Moves Keeps (advanceAt k aElapsed : Op R Unit) := by
  intro s h
  simp only [Triple.after, advanceAt, Triple.get_bind_apply]
  cases hk : s.hosted k with
  | none => exact ⟨h, .refl _, fun _ => rfl, rfl⟩
  | some x =>
    obtain ⟨p, c⟩ := x
    cases hc : c.advance .wrapping p aElapsed with
    | error e =>
      simp only [hc]
      exact ⟨h, .refl _, fun _ => rfl, rfl⟩
    | ok c' =>
      obtain ⟨hanswers, hlambda⟩ := Container.advance_answers hc
      simp only [hc]
      exact ⟨kept_accounted.advance h hk hc, held_update hk (x := []) (y := []) hanswers,
        functions_update hk hlambda, rfl⟩

theorem keeps_pause (aElapsed : R) : Triple.Moves Keeps (pause aElapsed : Op R Unit) := by
  refine Triple.moves_bind Triple.moves_get fun s => ?_
  split
  · refine Triple.moves_bind (Triple.moves_modify fun s h =>
      ⟨h.congr rfl rfl, .refl _, fun _ => rfl, rfl⟩) fun _ => ?_
    refine Triple.moves_bind Triple.moves_get fun s => ?_
    exact Triple.moves_forM (fun k => keeps_advanceAt k aElapsed) _
  · exact Triple.moves_pure _

omit [Speed R] [DecidableLT R] in
theorem keeps_resume : Triple.Moves Keeps (resume : Op R Unit) :=
  Triple.moves_modify fun _ h => ⟨h.congr rfl rfl, .refl _, fun _ => rfl, rfl⟩

end Parts

variable [Speed R] [DecidableLT R]

/-- The task that a call accepts, with the response to its request. -/
def accepts (s : Computer R) : Event R → List (UInt64 × Rpc.LambdaResponse)
  | .addTask aElapsed aRequest =>
    match addTask aElapsed aRequest s with
    | .ok myId _ => (s.theContainers[aRequest.theName]?).toList.map fun c =>
      (myId, c.theLambda.execute aRequest)
    | .error _ _ => []
  | _ => []

/-- What an event does to the tasks. -/
structure Advances (s : Computer R) (accepts : List (UInt64 × Rpc.LambdaResponse))
    (t : Computer R) : Prop where
  accounted : t.Accounted
  held : t.held ~ accepts ++ s.held
  ids : accepts = [] ∧ t.theNextId = s.theNextId ∨
    t.theNextId = s.theNextId + 1 ∧ (accepts = [] ∨ ∃ r, accepts = [(s.theNextId, r)])

omit [Speed R] [DecidableLT R] in
theorem SameTasks.advances {s t : Computer R} (h : SameTasks s t) : Advances s [] t :=
  ⟨h.accounted, h.held, .inl ⟨rfl, h.theNextId⟩⟩

/-- A call of addTask either accepts one task, under the next identifier, or none. -/
theorem addTask_advances {s : Computer R} (h : s.Accounted) (aElapsed : R)
    (aRequest : LambdaRequest) : Advances s (s.accepts (.addTask aElapsed aRequest))
      (Triple.after (addTask aElapsed aRequest) s) := by
  by_cases hname : aRequest.theName ∉ s.theContainers
  · simp only [accepts, addTask_unknown aElapsed hname, Triple.after]
    exact ⟨h, .refl _, .inl ⟨rfl, rfl⟩⟩
  · have hrun := addTask_known aElapsed (not_not.mp hname)
    let s₀ : Computer R := { s with theInitDone := true, theNextId := s.theNextId + 1 }
    have hpause := keeps_pause aElapsed s₀ (h.congr rfl rfl)
    cases hp : pause aElapsed s₀ with
    | error e s₁ =>
      rw [Triple.bind_of_error hp] at hrun
      simp only [Triple.after, hp] at hpause
      simp only [accepts, hrun, Triple.after]
      exact ⟨hpause.accounted, hpause.held, .inr ⟨hpause.theNextId, .inl rfl⟩⟩
    | ok _ s₁ =>
      rw [Triple.bind_of_ok hp] at hrun
      simp only [Triple.after, hp] at hpause
      obtain ⟨c₀, hc₀⟩ := Maps.lookup_of_mem (not_not.mp hname)
      have hfunction := hpause.functions aRequest.theName
      have hc₀' : s₀.theContainers[aRequest.theName]? = some c₀ := hc₀
      rw [hc₀', Option.map_some, Option.map_eq_some_iff] at hfunction
      obtain ⟨c, hc, hlambda⟩ := hfunction
      obtain ⟨q, hk⟩ := hpause.accounted.exists_hosted hc
      cases hpush : c.push .wrapping q aRequest s.theNextId with
      | error e =>
        have hfail : pushAt aRequest.theName aRequest s.theNextId s₁ = .error e s₁ := by
          simp only [pushAt, Triple.get_bind_apply, hk, hpush]
          rfl
        rw [Triple.bind_of_error hfail] at hrun
        simp only [accepts, hrun, Triple.after]
        exact ⟨hpause.accounted, hpause.held, .inr ⟨hpause.theNextId, .inl rfl⟩⟩
      | ok t =>
        have hdone : pushAt aRequest.theName aRequest s.theNextId s₁ =
            .ok ⟨⟩ (s₁.update aRequest.theName t) := by
          simp only [pushAt, Triple.get_bind_apply, hk, hpush]
          rfl
        rw [Triple.bind_of_ok hdone] at hrun
        obtain ⟨hanswers, -⟩ := Container.push_answers hpush
        have hheld := held_update hk (q := t.1) (x := [])
          (y := [(s.theNextId, c.theLambda.execute aRequest)]) hanswers
        simp only [accepts, hrun, Triple.after, hc₀]
        rw [hlambda] at hheld
        refine ⟨?_, ?_, .inr ⟨hpause.theNextId, .inr ⟨_, rfl⟩⟩⟩
        · exact (kept_accounted.push hpause.accounted hk hpush).congr rfl rfl
        · exact hheld.trans (hpause.held.append_left _)

variable [DecidableEq R]

omit [DecidableLT R] in
theorem keeps_dispatchContainer (k : String) (n : ℕ) :
    Triple.Moves Keeps (dispatchContainer k n : Op R Unit) := by
  induction n with
  | zero => exact Triple.moves_pure _
  | succ n ih =>
    refine Triple.moves_bind Triple.moves_get fun s => ?_
    split
    · exact Triple.moves_bind (keeps_popAt k) fun _ => ih
    · exact Triple.moves_pure _

omit [DecidableLT R] in
theorem keeps_dispatchCompletedTasks : Triple.Moves Keeps (dispatchCompletedTasks : Op R Unit) := by
  refine Triple.moves_bind Triple.moves_get fun s => ?_
  refine Triple.moves_forM (fun k => ?_) _
  exact Triple.moves_bind Triple.moves_get fun s => keeps_dispatchContainer k _

theorem keeps_dispatcher (aElapsed : R) : Triple.Moves Keeps (dispatcher aElapsed : Op R Unit) := by
  refine Triple.moves_bind Triple.moves_get fun s => ?_
  split
  · refine Triple.moves_bind (keeps_pause aElapsed) fun _ => ?_
    exact Triple.moves_bind keeps_dispatchCompletedTasks fun _ => keeps_resume
  · exact Triple.moves_pure _

/-- The tasks handed over and the next identifier do not depend on the containers. -/
def SameLog (s t : Computer R) : Prop :=
  t.theNotified = s.theNotified ∧ t.theNextId = s.theNextId

instance : Std.Refl (SameLog : Computer R → Computer R → Prop) := ⟨fun _ => ⟨rfl, rfl⟩⟩

instance : IsTrans (Computer R) SameLog := ⟨fun _ _ _ h h' => ⟨h'.1.trans h.1, h'.2.trans h.2⟩⟩

omit [Speed R] [DecidableLT R] [DecidableEq R] in
theorem sameLog_addContainer (aName aProcName : String) (aLambda : HostedLambda R)
    (aNumWorkers : Nat) : Triple.Moves SameLog (addContainer aName aProcName aLambda aNumWorkers) := by
  refine Triple.moves_bind (Triple.moves_bind Triple.moves_get fun s => ?_) fun _ => ?_
  · split
    · exact Triple.moves_throw _
    · exact Triple.moves_pure _
  · refine Triple.moves_bind Triple.moves_get fun s => ?_
    split
    · exact Triple.moves_throw _
    · split
      · exact Triple.moves_throw _
      · split
        · exact Triple.moves_throw _
        · refine Triple.moves_bind (Triple.moves_modify fun _ => ⟨rfl, rfl⟩) fun _ => ?_
          split
          · exact Triple.moves_throw _
          · exact Triple.moves_modify fun _ => ⟨rfl, rfl⟩

/-- A new container brings no tasks. -/
theorem addContainer_held {s : Computer R} (aName aProcName : String) (aLambda : HostedLambda R)
    (aNumWorkers : Nat) :
    (s.step (.addContainer aName aProcName aLambda aNumWorkers)).held ~ s.held := by
  have hlog := sameLog_addContainer aName aProcName aLambda aNumWorkers s
  have hnotified : (s.step (.addContainer aName aProcName aLambda aNumWorkers)).theNotified =
      s.theNotified := hlog.1
  obtain ⟨-, hc | ⟨hnew, -, hc⟩⟩ := addContainer_spec s aName aProcName aLambda aNumWorkers rfl
  · rw [held, hc, hnotified]
    exact .refl _
  · rw [held, hc, hnotified]
    apply List.Perm.append_right
    have hinsert := Maps.flatMap_insert (fun e : String × Container R => e.2.answers)
      s.theContainers aLambda.theName ⟨aName, aProcName, aLambda, aNumWorkers, [], []⟩
    rw [Maps.erase_of_not_mem hnew] at hinsert
    exact hinsert

theorem step_advances {s : Computer R} (h : s.Accounted) (e : Event R) :
    Advances s (s.accepts e) (s.step e) := by
  have haccounted := h.step e
  cases e with
  | addProcessor aName aSpeed aCores aMem =>
    rcases addProcessor_spec s aName aSpeed aCores aMem with heq | ⟨-, heq⟩
    · rw [heq]
      exact ⟨h, .refl _, .inl ⟨rfl, rfl⟩⟩
    · rw [heq] at haccounted ⊢
      exact ⟨haccounted, .refl _, .inl ⟨rfl, rfl⟩⟩
  | addContainer aName aProcName aLambda aNumWorkers =>
    exact ⟨haccounted, addContainer_held aName aProcName aLambda aNumWorkers,
      .inl ⟨rfl, (sameLog_addContainer aName aProcName aLambda aNumWorkers s).2⟩⟩
  | addTask aElapsed aRequest =>
    have hsame : s.step (.addTask aElapsed aRequest) =
        Triple.after (addTask aElapsed aRequest) s := by
      show Triple.after (do let _ ← addTask aElapsed aRequest; return) s = _
      cases hrun : addTask aElapsed aRequest s with
      | ok a t =>
        simp only [Triple.after, Triple.bind_of_ok hrun, hrun]
        rfl
      | error e t => simp only [Triple.after, Triple.bind_of_error hrun, hrun]
    rw [hsame]
    exact addTask_advances h aElapsed aRequest
  | dispatch aElapsed => exact (keeps_dispatcher aElapsed s h).advances

/-- The tasks that the events of a run have accepted, in order. -/
def accepted : Computer R → List (Event R) → List (UInt64 × Rpc.LambdaResponse)
  | _, [] => []
  | s, e :: events => s.accepts e ++ accepted (s.step e) events

theorem final_held {s : Computer R} (h : s.Accounted) (events : List (Event R)) :
    (Runs.final Computer.step s events).Accounted ∧
      (Runs.final Computer.step s events).held ~ accepted s events ++ s.held := by
  induction events generalizing s with
  | nil => exact ⟨h, .refl _⟩
  | cons e events ih =>
    have hfirst := step_advances h e
    obtain ⟨haccounted, hrest⟩ := ih hfirst.accounted
    refine ⟨haccounted, hrest.trans ?_⟩
    rw [accepted]
    calc accepted (s.step e) events ++ (s.step e).held
      _ ~ accepted (s.step e) events ++ (s.accepts e ++ s.held) := hfirst.held.append_left _
      _ = accepted (s.step e) events ++ s.accepts e ++ s.held := (List.append_assoc ..).symm
      _ ~ s.accepts e ++ accepted (s.step e) events ++ s.held :=
        List.perm_append_comm.append_right _

/-- The identifiers are given in order. -/
theorem accepted_ids {s : Computer R} (h : s.Accounted) {n : ℕ} (hn : s.theNextId = .ofNat n)
    (events : List (Event R)) : ∃ ids : List ℕ, (accepted s events).map Prod.fst =
      ids.map UInt64.ofNat ∧ ids.Pairwise (· < ·) ∧ ∀ i ∈ ids, n ≤ i ∧ i < n + events.length := by
  induction events generalizing s n with
  | nil => exact ⟨[], rfl, List.Pairwise.nil, fun i hi => by cases hi⟩
  | cons e events ih =>
    have hfirst := step_advances h e
    rw [accepted, List.map_append]
    rcases hfirst.ids with ⟨hnone, hsame⟩ | ⟨hnext, hone⟩
    · obtain ⟨ids, hids, hsorted, hrange⟩ := ih hfirst.accounted (hsame.trans hn)
      refine ⟨ids, by rw [hnone, hids]; rfl, hsorted, fun i hi => ?_⟩
      have := hrange i hi
      rw [List.length_cons]
      omega
    · have hsucc : (s.step e).theNextId = .ofNat (n + 1) := by
        rw [hnext, hn, UInt64.ofNat_add]
        rfl
      obtain ⟨ids, hids, hsorted, hrange⟩ := ih hfirst.accounted hsucc
      rcases hone with hnone | ⟨r, hone⟩
      · refine ⟨ids, by rw [hnone, hids]; rfl, hsorted, fun i hi => ?_⟩
        have := hrange i hi
        rw [List.length_cons]
        omega
      · refine ⟨n :: ids, by rw [hone, hids, hn]; rfl, ?_, fun i hi => ?_⟩
        · exact List.pairwise_cons.mpr ⟨fun i hi => (hrange i hi).1, hsorted⟩
        · rw [List.length_cons]
          rcases List.mem_cons.mp hi with rfl | hi
          · omega
          · have := hrange i hi
            omega

section Moments

omit [DecidableLT R] in
theorem keeps_containerCompletions (k : String) (n : ℕ) {s : Computer R} :
    ∀ x ∈ containerCompletions k n s, Keeps s x.1 := by
  induction n generalizing s with
  | zero => exact fun x hx => by cases hx
  | succ n ih =>
    intro x hx
    rw [containerCompletions] at hx
    split at hx
    · rcases List.mem_cons.mp hx with rfl | hx
      · exact Std.Refl.refl s
      · exact IsTrans.trans _ _ _ (keeps_popAt k s) (ih x hx)
    · cases hx

omit [DecidableLT R] in
theorem keeps_dispatchCompletions (ks : List String) {s : Computer R} :
    ∀ x ∈ dispatchCompletions ks s, Keeps s x.1 := by
  induction ks generalizing s with
  | nil => exact fun x hx => by cases hx
  | cons k ks ih =>
    intro x hx
    rcases List.mem_append.mp hx with hx | hx
    · exact keeps_containerCompletions k _ x hx
    · exact IsTrans.trans _ _ _ (keeps_dispatchContainer k _ s) (ih x hx)

/-- No task is lost in the middle of a dispatch. -/
theorem keeps_completions (s : Computer R) (e : Event R) : ∀ x ∈ s.completions e, Keeps s x.1 := by
  intro x hx
  cases e with
  | addProcessor | addContainer | addTask => cases hx
  | dispatch aElapsed =>
    rw [completions] at hx
    split at hx
    · cases hp : pause aElapsed s with
      | error e t =>
        rw [hp] at hx
        cases hx
      | ok a t =>
        rw [hp] at hx
        have hpause := keeps_pause aElapsed s
        rw [Triple.after_of_ok hp] at hpause
        exact IsTrans.trans _ _ _ hpause (keeps_dispatchCompletions _ x hx)
    · cases hx

end Moments

section Termination

/-- The inner loop of a dispatch, which pops the first task as long as it is completed. -/
inductive Drains (k : String) : Computer R → Computer R → Prop where
  | finished {s : Computer R} (h : s.ready k = false) : Drains k s s
  | pop {s t u : Computer R} (h : s.ready k = true) (hpop : popAt k s = .ok ⟨⟩ t)
      (rest : Drains k t u) : Drains k s u

/-- The loop of a dispatch over the containers. -/
inductive DrainsAll : List String → Computer R → Computer R → Prop where
  | nil (s : Computer R) : DrainsAll [] s s
  | cons {k : String} {ks : List String} {s t u : Computer R} (h : Drains k s t)
      (rest : DrainsAll ks t u) : DrainsAll (k :: ks) s u

omit [DecidableLT R] in
/-- A completed task can be taken, and the other containers stay as they are. -/
theorem popAt_ok {s : Computer R} (h : s.Accounted) {k : String} (hready : s.ready k = true) :
    ∃ t, popAt k s = .ok ⟨⟩ t ∧ t.tasks k + 1 = s.tasks k ∧
      ∀ k', k' ≠ k → t.theContainers[k']? = s.theContainers[k']? := by
  obtain ⟨p, c, front, l, hk, hl, -⟩ := ready_iff.mp hready
  obtain ⟨hc, -⟩ := hosted_eq_some.mp hk
  have hok := ((h.balanced hk).pop hl).1
  obtain ⟨-, -, hlength⟩ := Container.pop_answers (h.balanced hk) hl
  refine ⟨{ s.update k (c.pop .wrapping p).2 with
    theNotified := (front.theId, front.theResp) :: s.theNotified }, ?_, ?_, fun k' hk' => ?_⟩
  · simp only [popAt, Triple.get_bind_apply, hk, hok]
    rfl
  · have hnew : (s.update k (c.pop .wrapping p).2).theContainers[k]? =
        some (c.pop .wrapping p).2.2 := (Maps.lookup_insert ..).trans (if_pos rfl)
    simp only [tasks, hnew, hc]
    exact hlength
  · exact (Maps.lookup_insert ..).trans (if_neg hk')

omit [DecidableLT R] in
/-- The inner loop ends, after no more passes than there are tasks. -/
theorem dispatchContainer_drains {s : Computer R} (h : s.Accounted) {k : String} {n : ℕ}
    (hn : s.tasks k ≤ n) : ∃ t, dispatchContainer k n s = .ok ⟨⟩ t ∧ Drains k s t ∧ t.Accounted ∧
      t.ready k = false ∧ ∀ k', k' ≠ k → t.theContainers[k']? = s.theContainers[k']? := by
  induction n generalizing s with
  | zero =>
    refine ⟨s, rfl, ?_⟩
    have hready : s.ready k = false := by
      by_contra hne
      obtain ⟨t, -, htasks, -⟩ := popAt_ok h (Bool.eq_true_of_not_eq_false hne)
      omega
    exact ⟨.finished hready, h, hready, fun _ _ => rfl⟩
  | succ n ih =>
    have hunfold : dispatchContainer k (n + 1) s =
        (if s.ready k then do popAt k; dispatchContainer k n else return : Op R Unit) s := rfl
    cases hready : s.ready k with
    | false =>
      rw [hunfold, hready]
      exact ⟨s, rfl, .finished hready, h, hready, fun _ _ => rfl⟩
    | true =>
      obtain ⟨t, hpop, htasks, hothers⟩ := popAt_ok h hready
      have haccounted := stable_popAt k s h
      rw [Triple.after_of_ok hpop] at haccounted
      obtain ⟨u, hrest, hdrains, haccounted', hend, hothers'⟩ := ih haccounted (by omega)
      rw [hunfold, hready, if_pos rfl, Triple.bind_of_ok hpop]
      refine ⟨u, hrest, .pop hready hpop hdrains, haccounted', hend, fun k' hk' => ?_⟩
      exact (hothers' k' hk').trans (hothers k' hk')

/-- The first active task of a container has operations left. -/
def NoneCompleted (s : Computer R) (k : String) : Prop :=
  ∀ c front l, s.theContainers[k]? = some c → c.theActive = front :: l → front.theResidualOps ≠ 0

omit [DecidableLT R] in
theorem noneCompleted_of_ready (hzero : ∀ v : R, Speed.opsToTime 0 v = 0) {s : Computer R}
    (h : s.Accounted) {k : String} (hready : s.ready k = false) : s.NoneCompleted k := by
  intro c front l hc hl hops
  obtain ⟨p, hk⟩ := h.exists_hosted hc
  have htime : p.opsToTime front.theResidualOps = 0 := by
    rw [Processor.opsToTime, hops]
    split
    · rfl
    · exact hzero _
  rw [ready_iff.mpr ⟨p, c, front, l, hk, hl, htime⟩] at hready
  cases hready

omit [DecidableLT R] in
theorem dispatchAll_drains (hzero : ∀ v : R, Speed.opsToTime 0 v = 0) (ks : List String)
    {s : Computer R} (h : s.Accounted) :
    ∃ t, (ks.forM fun k => do dispatchContainer k ((← get).tasks k)) s = .ok ⟨⟩ t ∧
      DrainsAll ks s t ∧ (∀ k ∈ ks, t.NoneCompleted k) ∧
      ∀ k, k ∉ ks → t.theContainers[k]? = s.theContainers[k]? := by
  induction ks generalizing s with
  | nil => exact ⟨s, rfl, .nil s, nofun, fun _ _ => rfl⟩
  | cons k ks ih =>
    obtain ⟨t, hfirst, hdrains, haccounted, hready, hothers⟩ :=
      dispatchContainer_drains h (Nat.le_refl (s.tasks k))
    obtain ⟨u, hrest, hdrains', hnone, hothers'⟩ := ih haccounted
    have hfirst' : (do dispatchContainer k ((← get).tasks k) : Op R Unit) s = .ok ⟨⟩ t := hfirst
    refine ⟨u, ?_, .cons hdrains hdrains', fun k' hk' => ?_, fun k' hk' => ?_⟩
    · exact (Triple.bind_of_ok hfirst' _).trans hrest
    · by_cases hin : k' ∈ ks
      · exact hnone k' hin
      · -- the container is not looked at again
        have hk : k' = k := (List.mem_cons.mp hk').resolve_right hin
        have hdone := noneCompleted_of_ready hzero haccounted hready
        subst hk
        intro c front l hc
        rw [hothers' k' hin] at hc
        exact hdone c front l hc
    · have hne : k' ≠ k := fun heq => hk' (heq ▸ List.mem_cons_self)
      exact (hothers' k' fun hin => hk' (List.mem_cons_of_mem k hin)).trans (hothers k' hne)

end Termination

/-- The tasks accepted are active, pending or handed over, each of them once and with its
own response, also in the middle of a dispatch; and a dispatch ends with no completed
task left. -/
theorem tasks_conserved (hzero : ∀ v : R, Speed.opsToTime 0 v = 0) (aName : String)
    (events : List (Event R)) {s : Computer R}
    (hs : s = Runs.final Computer.step (Computer.new aName) events) :
    s.held ~ accepted (Computer.new aName) events ∧
      (∀ e, ∀ x ∈ s.completions e, x.1.held ~ accepted (Computer.new aName) events) ∧
      (events.length ≤ 2 ^ 64 → (s.held.map Prod.fst).Nodup) ∧
      ∀ aElapsed u, pause aElapsed s = .ok ⟨⟩ u → ∃ t, dispatchCompletedTasks u = .ok ⟨⟩ t ∧
        DrainsAll u.theContainers.keys u t ∧ ∀ k, t.NoneCompleted k := by
  obtain ⟨haccounted, hheld⟩ := final_held (.new aName) events
  rw [← hs] at haccounted hheld
  have hnone : (Computer.new aName : Computer R).held = [] := rfl
  rw [hnone, List.append_nil] at hheld
  refine ⟨hheld, fun e x hx => ?_, fun hlength => ?_, fun aElapsed u hu => ?_⟩
  · exact (keeps_completions s e x hx haccounted).held.trans hheld
  · obtain ⟨ids, hids, hsorted, hrange⟩ := accepted_ids (.new aName)
      (show (Computer.new aName : Computer R).theNextId = .ofNat 0 from rfl) events
    rw [(hheld.map Prod.fst).nodup_iff, hids]
    refine List.Nodup.map_on (fun i hi j hj hij => ?_) (hsorted.imp Nat.ne_of_lt)
    have hi' := hrange i hi
    have hj' := hrange j hj
    have hnat := congrArg UInt64.toNat hij
    rw [UInt64.toNat_ofNat', UInt64.toNat_ofNat', Nat.mod_eq_of_lt (by omega),
      Nat.mod_eq_of_lt (by omega)] at hnat
    exact hnat
  · have hpause := keeps_pause aElapsed s haccounted
    rw [Triple.after_of_ok hu] at hpause
    obtain ⟨t, hok, hdrains, hdone, hothers⟩ :=
      dispatchAll_drains hzero u.theContainers.keys hpause.accounted
    refine ⟨t, hok, hdrains, fun k => ?_⟩
    by_cases hk : k ∈ u.theContainers.keys
    · exact hdone k hk
    · intro c front l hc
      rw [hothers k hk] at hc
      exact absurd (ExtTreeMap.mem_keys.mpr (Maps.mem_of_lookup hc)) hk

/-- Two tasks without operations for a function with one worker. -/
def exampleEmptyTasks : List (Event ℚ) :=
  [.addProcessor "cpu0" 1 2 10,
    .addContainer "container0" "cpu0" ⟨⟨true, ""⟩, "f0", fixedRequirements 0 10⟩ 1,
    .addTask 0 (exampleRequest "" ∅), .addTask 0 (exampleRequest "" ∅)]

theorem tasks_conserved_example :
    (Runs.final Computer.step (Computer.new "computer0") exampleEmptyTasks).held ~
        accepted (Computer.new "computer0") exampleEmptyTasks ∧
      ∀ aElapsed u,
        pause aElapsed (Runs.final Computer.step (Computer.new "computer0") exampleEmptyTasks) =
          .ok ⟨⟩ u → ∃ t, dispatchCompletedTasks u = .ok ⟨⟩ t ∧
            DrainsAll u.theContainers.keys u t ∧ ∀ k, t.NoneCompleted k := by
  obtain ⟨hheld, -, -, hdispatch⟩ := tasks_conserved (fun v => zero_div v) "computer0"
    exampleEmptyTasks rfl
  exact ⟨hheld, hdispatch⟩

-- the second task is promoted when the first one is taken, and is taken as well
example : (Runs.final Computer.step (Computer.new "computer0")
    (exampleEmptyTasks ++ [.dispatch 0])).theNotified.map Prod.fst = [1, 0] := by decide +kernel

end Computer

end ServerlessEdge.Hosting
