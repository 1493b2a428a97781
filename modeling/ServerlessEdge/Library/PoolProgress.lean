import ServerlessEdge.Library.Pools
import Mathlib.Tactic.Push

/-! A pool with workers whose pieces of work end always comes to the end of a call, in whatever
order things happen. -/
namespace ServerlessEdge.Library.Pools.Pool
open Slots

variable {M : Type*} (work : ℕ → M → Option (Bool × M))

/-- In every run, also after a call that was given up, what has been handed out belongs to one call. -/
def Held (cs : List (Call M)) (p : Pool M) : Prop :=
  ∃ (c : Call M) (next : ℕ) (ran : List (ℕ × Bool)), (c ∈ cs ∨ c.total = 0) ∧
    Handed work c next p ran ∧ ∀ n left, p.main = .busy n left →
      n = next ∧ left ≤ p.total - n + p.outstanding

/-- The pieces of a call end, whatever has been done before. -/
def Completes (c : Call M) : Prop :=
  ∀ (ran : List (ℕ × Bool)) (m : M) (i : ℕ), Performs work c.memory ran m →
    (ran.map Prod.fst).Nodup → i ∉ ran.map Prod.fst → i < c.total → (work i m).isSome = true

variable {work} {cs : List (Call M)} {p p' : Pool M} {e : Event M}

theorem held_new (n : ℕ) (m : M) : Held work [] (new n m) := by
  have hworking : (new n m).working = [] := by
    simp [working, new, List.filterMap_replicate, Worker.piece]
  refine ⟨⟨0, m⟩, 0, [], .inr rfl, ⟨rfl, Nat.le_refl _, .nil, fun i => ?_⟩, fun _ _ h => ?_⟩
  · rw [hworking]
    rfl
  · cases h

theorem outstanding_take {w i : ℕ} (hw : p.workers[w]? = some .waiting) (hi : i ∈ p.queueIn) :
    outstanding { p with queueIn := p.queueIn.erase i, workers := p.workers.set w (.working i) } =
      p.outstanding := by
  have hworking := length_filterMap_set hw (f := Worker.piece) (y := .working i)
  have hreporting := length_filterMap_set hw (f := Worker.verdict) (y := .working i)
  have hqueue := (List.perm_cons_erase hi).length_eq
  simp only [Worker.piece, Worker.verdict, Option.toList_none, Option.toList_some, List.length_nil,
    List.length_cons] at hworking hreporting hqueue
  simp only [outstanding, working, reporting]
  omega

theorem outstanding_work {w i : ℕ} (hw : p.workers[w]? = some (.working i)) (good : Bool) (m : M) :
    outstanding { p with memory := m, workers := p.workers.set w (.reporting good) } =
      p.outstanding := by
  have hworking := length_filterMap_set hw (f := Worker.piece) (y := .reporting good)
  have hreporting := length_filterMap_set hw (f := Worker.verdict) (y := .reporting good)
  simp only [Worker.piece, Worker.verdict, Option.toList_none, Option.toList_some, List.length_nil,
    List.length_cons] at hworking hreporting
  simp only [outstanding, working, reporting]
  omega

theorem outstanding_report {w : ℕ} {good : Bool} (hw : p.workers[w]? = some (.reporting good)) :
    outstanding { p with queueOut := p.queueOut ++ [good], workers := p.workers.set w .waiting } =
      p.outstanding := by
  have hworking := length_filterMap_set hw (f := Worker.piece) (y := .waiting)
  have hreporting := length_filterMap_set hw (f := Worker.verdict) (y := .waiting)
  simp only [Worker.piece, Worker.verdict, Option.toList_none, Option.toList_some, List.length_nil,
    List.length_cons] at hworking hreporting
  simp only [outstanding, working, reporting, List.length_append, List.length_cons, List.length_nil]
  omega

theorem outstanding_collect {good : Bool} (hin : good ∈ p.queueOut) (main : Main) :
    outstanding { p with queueOut := p.queueOut.erase good, main := main } + 1 = p.outstanding := by
  have hqueue := (List.perm_cons_erase hin).length_eq
  simp only [List.length_cons] at hqueue
  simp only [outstanding, working, reporting]
  omega

theorem Held.step (h : Held work cs p) (he : Step work p e p') :
    Held work (cs ++ e.call?.toList) p' := by
  obtain ⟨c, next, ran, hc, hhanded, howes⟩ := h
  cases he with
  | call c' hmain hin hworking =>
    refine ⟨c', 0, [], .inl (by simp [Event.call?]), handed_call hin hworking c', fun n left h => ?_⟩
    cases h
    exact ⟨rfl, Nat.le_add_right _ _⟩
  | @dispatch n left hmain hnext =>
    simp only [Event.call?, Option.toList_none, List.append_nil]
    obtain ⟨rfl, howed⟩ := howes n left hmain
    refine ⟨c, n + 1, ran, hc, hhanded.dispatch hnext left, fun n' left' h => ?_⟩
    cases h
    refine ⟨rfl, ?_⟩
    simp only [outstanding, working, reporting, List.length_append, List.length_cons,
      List.length_nil] at howed ⊢
    omega
  | take hw hi =>
    simp only [Event.call?, Option.toList_none, List.append_nil]
    refine ⟨c, next, ran, hc, hhanded.take hw hi, fun n left hmain => ?_⟩
    rw [outstanding_take hw hi]
    exact howes n left hmain
  | @work w i good m hw hwork =>
    simp only [Event.call?, Option.toList_none, List.append_nil]
    refine ⟨c, next, _, hc, hhanded.perform hw hwork, fun n left hmain => ?_⟩
    rw [outstanding_work hw good m]
    exact howes n left hmain
  | report hw =>
    simp only [Event.call?, Option.toList_none, List.append_nil]
    refine ⟨c, next, ran, hc, hhanded.report hw, fun n left hmain => ?_⟩
    rw [outstanding_report hw]
    exact howes n left hmain
  | @collect left hmain hin =>
    simp only [Event.call?, Option.toList_none, List.append_nil]
    obtain ⟨rfl, howed⟩ := howes p.total (left + 1) hmain
    have hless := outstanding_collect hin (.busy p.total left)
    refine ⟨c, p.total, ran, hc, ⟨hhanded.total, hhanded.next_le, hhanded.performs, hhanded.pieces⟩,
      fun n left' h => ?_⟩
    cases h
    exact ⟨rfl, by omega⟩
  | giveUp hmain hin =>
    simp only [Event.call?, Option.toList_none, List.append_nil]
    refine ⟨c, next, ran, hc, ⟨hhanded.total, hhanded.next_le, hhanded.performs, hhanded.pieces⟩,
      fun n left h => ?_⟩
    cases h
  | finish hmain =>
    simp only [Event.call?, Option.toList_none, List.append_nil]
    refine ⟨c, next, ran, hc, ⟨hhanded.total, hhanded.next_le, hhanded.performs, hhanded.pieces⟩,
      fun n left h => ?_⟩
    cases h

/-- No worker leaves the pool. -/
theorem Step.workers_length (he : Step work p e p') : p'.workers.length = p.workers.length := by
  cases he <;> simp

/-- A bound on the events before the next call. -/
def weight (p : Pool M) : ℕ :=
  (match p.main with
    | .idle => 0
    | .busy next _ => 1 + 5 * (p.total - next)) +
  4 * p.queueIn.length + 3 * p.working.length + 2 * p.reporting.length + p.queueOut.length

theorem weight_idle (hmain : p.main = .idle) : p.weight = 4 * p.queueIn.length +
    3 * p.working.length + 2 * p.reporting.length + p.queueOut.length := by
  simp only [weight, hmain, Nat.zero_add]

theorem weight_busy {next left : ℕ} (hmain : p.main = .busy next left) : p.weight =
    1 + 5 * (p.total - next) + 4 * p.queueIn.length + 3 * p.working.length +
      2 * p.reporting.length + p.queueOut.length := by
  simp only [weight, hmain]

/-- Where a worker makes a step, the bound gets smaller as what the worker and the queues hold. -/
theorem weight_lt (hmain : p'.main = p.main) (htotal : p'.total = p.total)
    (hless : 4 * p'.queueIn.length + 3 * p'.working.length + 2 * p'.reporting.length +
      p'.queueOut.length < 4 * p.queueIn.length + 3 * p.working.length + 2 * p.reporting.length +
        p.queueOut.length) : p'.weight < p.weight := by
  cases hcase : p.main with
  | idle => rwa [weight_idle hcase, weight_idle (hmain.trans hcase)]
  | busy next left =>
    rw [weight_busy hcase, weight_busy (hmain.trans hcase), htotal]
    omega

theorem Step.weight_lt (he : Step work p e p') (hcall : e.call? = none) : p'.weight < p.weight := by
  cases he with
  | call c => cases hcall
  | dispatch hmain hnext =>
    rw [weight_busy hmain, weight_busy rfl]
    simp only [working, reporting, List.length_append, List.length_cons, List.length_nil]
    omega
  | @take w i hw hi =>
    have hworking := length_filterMap_set hw (f := Worker.piece) (y := .working i)
    have hreporting := length_filterMap_set hw (f := Worker.verdict) (y := .working i)
    have hqueue := (List.perm_cons_erase hi).length_eq
    refine Pool.weight_lt rfl rfl ?_
    simp only [Worker.piece, Worker.verdict, Option.toList_none, Option.toList_some,
      List.length_nil, List.length_cons] at hworking hreporting hqueue
    simp only [working, reporting]
    omega
  | @work w i good m hw hwork =>
    have hworking := length_filterMap_set hw (f := Worker.piece) (y := .reporting good)
    have hreporting := length_filterMap_set hw (f := Worker.verdict) (y := .reporting good)
    refine Pool.weight_lt rfl rfl ?_
    simp only [Worker.piece, Worker.verdict, Option.toList_none, Option.toList_some,
      List.length_nil, List.length_cons] at hworking hreporting
    simp only [working, reporting]
    omega
  | report hw =>
    have hworking := length_filterMap_set hw (f := Worker.piece) (y := .waiting)
    have hreporting := length_filterMap_set hw (f := Worker.verdict) (y := .waiting)
    refine Pool.weight_lt rfl rfl ?_
    simp only [Worker.piece, Worker.verdict, Option.toList_none, Option.toList_some,
      List.length_nil, List.length_cons] at hworking hreporting
    simp only [working, reporting, List.length_append, List.length_cons, List.length_nil]
    omega
  | collect hmain hin =>
    have hqueue := (List.perm_cons_erase hin).length_eq
    rw [weight_busy hmain, weight_busy rfl]
    simp only [working, reporting, List.length_cons] at hqueue ⊢
    omega
  | giveUp hmain hin =>
    have hqueue := (List.perm_cons_erase hin).length_eq
    rw [weight_busy hmain, weight_idle rfl]
    simp only [working, reporting, List.length_cons] at hqueue ⊢
    omega
  | finish hmain =>
    rw [weight_busy hmain, weight_idle rfl]
    simp only [working, reporting]
    omega

/-- Between two calls only so many events can happen. -/
theorem Reaches.length_le {es : List (Event M)} (h : Reaches work p es p')
    (hcalls : callsOf es = []) : es.length + p'.weight ≤ p.weight := by
  have hless : ∀ (q : Pool M) (e : Event M) q', True → step work q e = some q' → e.call? = none →
      q'.weight < q.weight :=
    fun q e q' _ he hcall => (step_eq_some.mp he).weight_lt hcall
  exact Steps.Reaches.length_le (fun _ _ _ _ _ => trivial) hless trivial h
    (List.filterMap_eq_nil_iff.mp hcalls)

/-- A thread that serves a call is not stuck where there is a worker and the pieces end. -/
theorem exists_step {next left : ℕ} (hmain : p.main = .busy next left) (hnext : next ≤ p.total)
    (howed : left ≤ p.total - next + p.outstanding) (hworkers : 0 < p.workers.length)
    (hends : ∀ i ∈ p.working, (work i p.memory).isSome = true) :
    ∃ e p', e.call? = none ∧ Step work p e p' := by
  rcases Nat.lt_or_ge next p.total with hlt | hge
  · exact ⟨_, _, rfl, .dispatch hmain hlt⟩
  obtain rfl : next = p.total := by omega
  cases left with
  | zero => exact ⟨_, _, rfl, .finish hmain⟩
  | succ left =>
    cases hout : p.queueOut with
    | cons good rest =>
      have hin : good ∈ p.queueOut := hout ▸ List.mem_cons_self
      cases good with
      | false => exact ⟨_, _, rfl, .giveUp hmain hin⟩
      | true => exact ⟨_, _, rfl, .collect hmain hin⟩
    | nil =>
      by_cases hwaiting : ∀ x ∈ p.workers, x = .waiting
      · -- all verdicts have been reported, and numbers are still in the queue
        have hworking : p.working = [] := List.filterMap_eq_nil_iff.mpr fun x hx => by
          rw [hwaiting x hx]; rfl
        have hreporting : p.reporting = [] := List.filterMap_eq_nil_iff.mpr fun x hx => by
          rw [hwaiting x hx]; rfl
        rw [outstanding, hout, hworking, hreporting] at howed
        simp only [List.length_nil] at howed
        obtain ⟨i, hi⟩ := List.exists_mem_of_length_pos (l := p.queueIn) (by omega)
        have hfirst : p.workers[0]? = some .waiting := by
          rw [List.getElem?_eq_getElem hworkers, hwaiting _ (List.getElem_mem hworkers)]
        exact ⟨_, _, rfl, .take hfirst hi⟩
      · push Not at hwaiting
        obtain ⟨x, hx, hne⟩ := hwaiting
        obtain ⟨w, hw⟩ := List.mem_iff_getElem?.mp hx
        cases x with
        | waiting => exact absurd rfl hne
        | working i =>
          have hin : i ∈ p.working := List.mem_filterMap.mpr ⟨_, hx, rfl⟩
          obtain ⟨r, hr⟩ := Option.isSome_iff_exists.mp (hends i hin)
          exact ⟨_, _, rfl, .work hw hr⟩
        | reporting good => exact ⟨_, _, rfl, .report hw⟩

theorem Reaches.workers_length {es : List (Event M)} (h : Reaches work p es p') :
    p'.workers.length = p.workers.length :=
  h.keeps (I := fun _ q => q.workers.length = p.workers.length) rfl fun _ _ _ _ hq he =>
    he.workers_length.trans hq

theorem Reaches.held {es : List (Event M)} {n : ℕ} {m : M} (h : Reaches work (new n m) es p) :
    Held work (callsOf es) p :=
  h.keeps (held_new n m) fun _ _ _ _ hheld he => hheld.step he

/-- Where there are workers and the pieces of all calls end, a run without a further call goes on
until the thread is idle again, after a bounded number of events. -/
theorem Reaches.returns {es : List (Event M)} {n : ℕ} {m : M} (hn : 0 < n)
    (h : Reaches work (new n m) es p) (hends : ∀ c ∈ callsOf es, Completes work c) :
    (∀ es' p', Reaches work p es' p' → callsOf es' = [] → es'.length ≤ p.weight) ∧
      ((∀ e p', Step work p e p' → e.call? ≠ none) → p.main = .idle) := by
  constructor
  · intro es' p' hrun hcalls
    have hbound := hrun.length_le hcalls
    omega
  · intro hstuck
    cases hmain : p.main with
    | idle => rfl
    | busy next left =>
      obtain ⟨c, n', ran, hc, hhanded, howes⟩ := h.held
      obtain ⟨rfl, howed⟩ := howes next left hmain
      have hworkers : 0 < p.workers.length := by
        rw [h.workers_length, new, List.length_replicate]
        exact hn
      have hworking : ∀ i ∈ p.working, (work i p.memory).isSome = true := by
        intro i hi
        have hnodup := (List.nodup_append.mp hhanded.nodup).1
        have hlt := Nat.lt_of_lt_of_le (hhanded.lt_next
          (List.mem_append_left _ (List.mem_append_right _ hi))) hhanded.next_le
        rcases hc with hc | hc
        · exact hends c hc ran p.memory i hhanded.performs hhanded.ran_nodup
            (fun hin => (List.nodup_append.mp hnodup).2.2 i hin i hi rfl) hlt
        · omega
      obtain ⟨e, p', hcall, he⟩ := exists_step hmain (hhanded.total ▸ hhanded.next_le) howed
        hworkers hworking
      exact absurd hcall (hstuck e p' he)

end ServerlessEdge.Library.Pools.Pool
