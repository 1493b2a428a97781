import Mathlib.Data.List.Nodup
import ServerlessEdge.Library.Slots
import ServerlessEdge.Library.Steps
import Mathlib.Data.List.Forall2

/-! A pool of workers. A thread hands out the numbers below a bound, the workers do the pieces of
work with these numbers on a memory that they share, in any order, and the thread collects a verdict
for each: it saves the memory at the end, or gives up as soon as a verdict is bad. Nothing is
assumed of the order of the two queues. -/
namespace ServerlessEdge.Library.Pools
open Slots

/-- A worker waits for a number, has one, or has a verdict to report. -/
inductive Worker where
  | waiting
  | working (i : ℕ)
  | reporting (good : Bool)
  deriving DecidableEq

def Worker.piece : Worker → Option ℕ
  | .working i => some i
  | _ => none

def Worker.verdict : Worker → Option Bool
  | .reporting good => some good
  | _ => none

/-- The thread waits for a call, or has handed out some numbers and has some verdicts to collect. -/
inductive Main where
  | idle
  | busy (next left : ℕ)
  deriving DecidableEq

/-- A number of pieces of work to be done on a memory. -/
structure Call (M : Type*) where
  total : ℕ
  memory : M

structure Pool (M : Type*) where
  total : ℕ
  memory : M
  main : Main
  queueIn : List ℕ
  workers : List Worker
  queueOut : List Bool
  saved : List M

inductive Event (M : Type*) where
  | call (c : Call M)
  | dispatch
  | take (w i : ℕ)
  | work (w : ℕ)
  | report (w : ℕ)
  | collect (good : Bool)
  | finish

variable {M : Type*}

/-- The calls that are made in a run. -/
def Event.call? : Event M → Option (Call M)
  | .call c => some c
  | _ => none

def callsOf (es : List (Event M)) : List (Call M) := es.filterMap Event.call?

namespace Pool

/-- A pool of waiting workers. -/
def new (n : ℕ) (m : M) : Pool M := ⟨0, m, .idle, [], List.replicate n .waiting, [], []⟩

/-- The numbers that are being worked on. -/
def working (p : Pool M) : List ℕ := p.workers.filterMap Worker.piece

/-- The verdicts that have not been reported yet. -/
def reporting (p : Pool M) : List Bool := p.workers.filterMap Worker.verdict

/-- What has been handed out and not been collected. -/
def outstanding (p : Pool M) : ℕ :=
  p.queueIn.length + p.working.length + p.reporting.length + p.queueOut.length

variable (work : ℕ → M → Option (Bool × M))

/-- The pool after an event, if it can happen: a call cannot while there is work to be done. -/
def step (p : Pool M) : Event M → Option (Pool M)
  | .call c =>
    if p.main = .idle ∧ p.queueIn = [] ∧ p.working = [] then
      some { p with total := c.total, memory := c.memory, main := .busy 0 c.total }
    else none
  | .dispatch =>
    match p.main with
    | .busy next left =>
      if next < p.total then
        some { p with queueIn := p.queueIn ++ [next], main := .busy (next + 1) left }
      else none
    | .idle => none
  | .take w i =>
    if p.workers[w]? = some .waiting ∧ i ∈ p.queueIn then
      some { p with queueIn := p.queueIn.erase i, workers := p.workers.set w (.working i) }
    else none
  | .work w =>
    match p.workers[w]? with
    | some (.working i) =>
      match work i p.memory with
      | some r => some { p with memory := r.2, workers := p.workers.set w (.reporting r.1) }
      | none => none
    | _ => none
  | .report w =>
    match p.workers[w]? with
    | some (.reporting good) =>
      some { p with queueOut := p.queueOut ++ [good], workers := p.workers.set w .waiting }
    | _ => none
  | .collect good =>
    match p.main with
    | .busy next (left + 1) =>
      if next = p.total ∧ good ∈ p.queueOut then
        some { p with
          queueOut := p.queueOut.erase good
          main := if good then .busy next left else .idle }
      else none
    | _ => none
  | .finish =>
    match p.main with
    | .busy next 0 =>
      if next = p.total then some { p with main := .idle, saved := p.saved ++ [p.memory] }
      else none
    | _ => none

/-- What an event does to a pool. -/
inductive Step (p : Pool M) : Event M → Pool M → Prop where
  | call (c : Call M) (hmain : p.main = .idle) (hin : p.queueIn = []) (hworking : p.working = []) :
      Step p (.call c) { p with total := c.total, memory := c.memory, main := .busy 0 c.total }
  | dispatch {next left : ℕ} (hmain : p.main = .busy next left) (hnext : next < p.total) :
      Step p .dispatch { p with queueIn := p.queueIn ++ [next], main := .busy (next + 1) left }
  | take {w i : ℕ} (hw : p.workers[w]? = some .waiting) (hi : i ∈ p.queueIn) :
      Step p (.take w i)
        { p with queueIn := p.queueIn.erase i, workers := p.workers.set w (.working i) }
  | work {w i : ℕ} {good : Bool} {m : M} (hw : p.workers[w]? = some (.working i))
      (hwork : work i p.memory = some (good, m)) :
      Step p (.work w) { p with memory := m, workers := p.workers.set w (.reporting good) }
  | report {w : ℕ} {good : Bool} (hw : p.workers[w]? = some (.reporting good)) :
      Step p (.report w)
        { p with queueOut := p.queueOut ++ [good], workers := p.workers.set w .waiting }
  | collect {left : ℕ} (hmain : p.main = .busy p.total (left + 1)) (hin : true ∈ p.queueOut) :
      Step p (.collect true)
        { p with queueOut := p.queueOut.erase true, main := .busy p.total left }
  | giveUp {left : ℕ} (hmain : p.main = .busy p.total (left + 1)) (hin : false ∈ p.queueOut) :
      Step p (.collect false) { p with queueOut := p.queueOut.erase false, main := .idle }
  | finish (hmain : p.main = .busy p.total 0) :
      Step p .finish { p with main := .idle, saved := p.saved ++ [p.memory] }

variable {work}

theorem step_eq_some {p p' : Pool M} {e : Event M} : step work p e = some p' ↔ Step work p e p' := by
  constructor
  · intro h
    cases e with
    | call c =>
      rw [step, Option.ite_none_right_eq_some] at h
      obtain ⟨⟨hmain, hin, hworking⟩, hp⟩ := h
      cases hp
      exact .call c hmain hin hworking
    | dispatch =>
      cases hmain : p.main with
      | idle => simp [step, hmain] at h
      | busy next left =>
        simp only [step, hmain, Option.ite_none_right_eq_some, Option.some.injEq] at h
        obtain ⟨hnext, rfl⟩ := h
        exact .dispatch hmain hnext
    | take w i =>
      rw [step, Option.ite_none_right_eq_some] at h
      obtain ⟨⟨hw, hi⟩, hp⟩ := h
      cases hp
      exact .take hw hi
    | work w =>
      rw [step] at h
      split at h
      · rename_i i hw
        split at h
        · rename_i r hwork
          cases h
          exact .work hw hwork
        · cases h
      · cases h
    | report w =>
      rw [step] at h
      split at h
      · rename_i good hw
        cases h
        exact .report hw
      · cases h
    | collect good =>
      rw [step] at h
      split at h
      · rename_i next left hmain
        rw [Option.ite_none_right_eq_some] at h
        obtain ⟨⟨rfl, hin⟩, hp⟩ := h
        cases good with
        | false => cases hp; exact .giveUp hmain hin
        | true => cases hp; exact .collect hmain hin
      · cases h
    | finish =>
      rw [step] at h
      split at h
      · rename_i next hmain
        rw [Option.ite_none_right_eq_some] at h
        obtain ⟨rfl, hp⟩ := h
        cases hp
        exact .finish hmain
      · cases h
  · intro h
    cases h with
    | call c hmain hin hworking => rw [step, if_pos ⟨hmain, hin, hworking⟩]
    | dispatch hmain hnext => simp only [step, hmain, if_pos hnext]
    | take hw hi => rw [step, if_pos ⟨hw, hi⟩]
    | work hw hwork => simp only [step, hw, hwork]
    | report hw => simp only [step, hw]
    | collect hmain hin => simp [step, hmain, hin]
    | giveUp hmain hin => simp [step, hmain, hin]
    | finish hmain => simp [step, hmain]

variable (work)

/-- All events of the run can happen in turn, and it ends in that state. -/
def Reaches (p : Pool M) (es : List (Event M)) (p' : Pool M) : Prop :=
  Steps.Reaches (step work) p es p'

variable {work}

/-- What holds at first and is kept by each event holds at the end of a run. -/
theorem Reaches.keeps {I : List (Call M) → Pool M → Prop} {p p' : Pool M} {es : List (Event M)}
    (h : Reaches work p es p') (hp : I [] p)
    (hstep : ∀ cs q e q', I cs q → Step work q e q' → I (cs ++ e.call?.toList) q') :
    I (callsOf es) p' := by
  refine Steps.Reaches.keeps (I := fun es p => I (callsOf es) p) h hp fun es q e q' hq he => ?_
  have hnext := hstep _ q e q' hq (step_eq_some.mp he)
  rw [callsOf, List.filterMap_append]
  cases hcall : e.call? <;> simpa [hcall, callsOf] using hnext

section Outcome

variable (work)

/-- The pieces that have been done since a memory, with their verdicts, and the memory then. -/
inductive Performs (m₀ : M) : List (ℕ × Bool) → M → Prop where
  | nil : Performs m₀ [] m₀
  | snoc {ran : List (ℕ × Bool)} {m m' : M} {i : ℕ} {good : Bool} (h : Performs m₀ ran m)
      (hwork : work i m = some (good, m')) : Performs m₀ (ran ++ [(i, good)]) m'

/-- The verdict on a piece of a call does not depend on those that are done before. -/
def Steady (verdict : Call M → ℕ → Bool) : Prop :=
  ∀ (c : Call M) (ran : List (ℕ × Bool)) (m : M), Performs work c.memory ran m →
    (ran.map Prod.fst).Nodup → (∀ x ∈ ran, x.1 < c.total) → ∀ x ∈ ran, x.2 = verdict c x.1

/-- All pieces of a call, each one time, in some order. -/
def Done (c : Call M) (m : M) : Prop :=
  ∃ ran, Performs work c.memory ran m ∧ (ran.map Prod.fst).Perm (List.range c.total)

/-- No verdict on a piece of the call is bad. -/
def AllGood (verdict : Call M → ℕ → Bool) (c : Call M) : Bool :=
  (List.range c.total).all (verdict c)

/-- A memory has been saved for each call without bad verdicts, with all of its pieces done. -/
def Outcome (verdict : Call M → ℕ → Bool) (cs : List (Call M)) (saved : List M) : Prop :=
  List.Forall₂ (Done work) (cs.filter (AllGood verdict)) saved

/-- The pieces of a call that have been handed out have been done, are being worked on or wait. -/
structure Handed (c : Call M) (next : ℕ) (p : Pool M) (ran : List (ℕ × Bool)) : Prop where
  total : p.total = c.total
  next_le : next ≤ c.total
  performs : Performs work c.memory ran p.memory
  pieces : ∀ i, (ran.map Prod.fst).count i + p.working.count i + p.queueIn.count i =
    (List.range next).count i

/-- A call is being served: the verdicts on the pieces done have been collected or not. -/
structure Serving (c : Call M) (next left : ℕ) (p : Pool M) (ran : List (ℕ × Bool)) : Prop
    extends Handed work c next p ran where
  left_le : left ≤ c.total
  verdicts : ∀ good, (List.replicate (c.total - left) true).count good + p.queueOut.count good +
    p.reporting.count good = (ran.map Prod.snd).count good

/-- Nothing is left of the calls before. -/
structure Rest (p : Pool M) : Prop where
  queueIn : p.queueIn = []
  working : p.working = []
  reporting : p.reporting = []
  queueOut : p.queueOut = []

variable {work} {verdict : Call M → ℕ → Bool} {c : Call M} {next left : ℕ} {p p' : Pool M}
  {ran : List (ℕ × Bool)}

theorem handed_call (hin : p.queueIn = []) (hworking : p.working = []) (c : Call M) :
    Handed work c 0 { p with total := c.total, memory := c.memory, main := .busy 0 c.total } [] where
  total := rfl
  next_le := Nat.zero_le _
  performs := .nil
  pieces i := by
    change 0 + p.working.count i + p.queueIn.count i = 0
    rw [hworking, hin, List.count_nil]

theorem Rest.serving (h : Rest p) (c : Call M) :
    Serving work c 0 c.total { p with total := c.total, memory := c.memory, main := .busy 0 c.total }
      [] where
  toHanded := handed_call h.queueIn h.working c
  left_le := Nat.le_refl _
  verdicts good := by
    change _ + p.queueOut.count good + p.reporting.count good = 0
    rw [h.reporting, h.queueOut, Nat.sub_self, List.replicate_zero, List.count_nil]

namespace Handed

/-- No piece is done by two workers, or two times. -/
theorem nodup (h : Handed work c next p ran) : (ran.map Prod.fst ++ p.working ++ p.queueIn).Nodup := by
  rw [List.nodup_iff_count_le_one]
  intro i
  have hrange := List.nodup_iff_count_le_one.mp (List.nodup_range (n := next)) i
  rw [List.count_append, List.count_append, h.pieces i]
  exact hrange

theorem ran_nodup (h : Handed work c next p ran) : (ran.map Prod.fst).Nodup :=
  (List.nodup_append.mp (List.nodup_append.mp h.nodup).1).1

theorem lt_next (h : Handed work c next p ran) {i : ℕ}
    (hi : i ∈ ran.map Prod.fst ++ p.working ++ p.queueIn) : i < next := by
  have hpieces := h.pieces i
  have hpos := List.count_pos_iff.mpr hi
  rw [List.count_append, List.count_append, hpieces] at hpos
  exact List.mem_range.mp (List.count_pos_iff.mp hpos)

theorem lt_total (h : Handed work c next p ran) : ∀ x ∈ ran, x.1 < c.total := by
  intro x hx
  have hin : x.1 ∈ ran.map Prod.fst ++ p.working ++ p.queueIn :=
    List.mem_append_left _ (List.mem_append_left _ (List.mem_map_of_mem hx))
  exact Nat.lt_of_lt_of_le (h.lt_next hin) h.next_le

theorem dispatch (h : Handed work c next p ran) (hnext : next < p.total) (left : ℕ) :
    Handed work c (next + 1)
      { p with queueIn := p.queueIn ++ [next], main := .busy (next + 1) left } ran where
  total := h.total
  next_le := h.total ▸ hnext
  performs := h.performs
  pieces i := by
    change _ + p.working.count i + (p.queueIn ++ [next]).count i = _
    rw [List.count_append, ← Nat.add_assoc, h.pieces i, List.range_succ, List.count_append]

theorem take (h : Handed work c next p ran) {w i : ℕ} (hw : p.workers[w]? = some .waiting)
    (hi : i ∈ p.queueIn) : Handed work c next
      { p with queueIn := p.queueIn.erase i, workers := p.workers.set w (.working i) } ran where
  total := h.total
  next_le := h.next_le
  performs := h.performs
  pieces j := by
    have hworking := count_filterMap_set hw (f := Worker.piece) (y := .working i) j
    have hqueue := (List.perm_cons_erase hi).count_eq j
    have hpieces := h.pieces j
    simp only [Worker.piece, Option.toList_none, Option.toList_some, List.count_nil,
      List.count_cons] at hworking hqueue
    simp only [working] at hpieces ⊢
    omega

theorem perform (h : Handed work c next p ran) {w i : ℕ} {good : Bool} {m : M}
    (hw : p.workers[w]? = some (.working i)) (hwork : work i p.memory = some (good, m)) :
    Handed work c next { p with memory := m, workers := p.workers.set w (.reporting good) }
      (ran ++ [(i, good)]) where
  total := h.total
  next_le := h.next_le
  performs := .snoc h.performs hwork
  pieces j := by
    have hworking := count_filterMap_set hw (f := Worker.piece) (y := .reporting good) j
    have hpieces := h.pieces j
    simp only [Worker.piece, Option.toList_none, Option.toList_some, List.count_nil] at hworking
    simp only [working, List.map_append, List.map_cons, List.map_nil, List.count_append] at hpieces ⊢
    omega

theorem report (h : Handed work c next p ran) {w : ℕ} {good : Bool}
    (hw : p.workers[w]? = some (.reporting good)) : Handed work c next
      { p with queueOut := p.queueOut ++ [good], workers := p.workers.set w .waiting } ran where
  total := h.total
  next_le := h.next_le
  performs := h.performs
  pieces j := by
    have hworking := count_filterMap_set hw (f := Worker.piece) (y := .waiting) j
    have hpieces := h.pieces j
    simp only [Worker.piece, Option.toList_none, List.count_nil] at hworking
    simp only [working] at hpieces ⊢
    omega

end Handed

namespace Serving

/-- A bad verdict that is collected is one on a piece of the call. -/
theorem not_allGood (h : Serving work c next left p ran) (hsteady : Steady work verdict)
    (hin : false ∈ p.queueOut) : AllGood verdict c = false := by
  have hpos : 0 < p.queueOut.count false := List.count_pos_iff.mpr hin
  have hverdicts := h.verdicts false
  have hmem : false ∈ ran.map Prod.snd := List.count_pos_iff.mp (by omega)
  obtain ⟨x, hx, hbad⟩ := List.mem_map.mp hmem
  have hlt := h.lt_total x hx
  have hverdict := hsteady c ran p.memory h.performs h.ran_nodup h.lt_total x hx
  rw [AllGood, List.all_eq_false]
  exact ⟨x.1, List.mem_range.mpr hlt, by rw [← hverdict, hbad]; decide⟩

theorem dispatch (h : Serving work c next left p ran) (hnext : next < p.total) :
    Serving work c (next + 1) left
      { p with queueIn := p.queueIn ++ [next], main := .busy (next + 1) left } ran where
  toHanded := h.toHanded.dispatch hnext left
  left_le := h.left_le
  verdicts := h.verdicts

theorem take (h : Serving work c next left p ran) {w i : ℕ} (hw : p.workers[w]? = some .waiting)
    (hi : i ∈ p.queueIn) : Serving work c next left
      { p with queueIn := p.queueIn.erase i, workers := p.workers.set w (.working i) } ran where
  toHanded := h.toHanded.take hw hi
  left_le := h.left_le
  verdicts good := by
    have hreporting := count_filterMap_set hw (f := Worker.verdict) (y := .working i) good
    have hverdicts := h.verdicts good
    simp only [Worker.verdict, Option.toList_none, List.count_nil] at hreporting
    simp only [reporting] at hverdicts ⊢
    omega

theorem perform (h : Serving work c next left p ran) {w i : ℕ} {good : Bool} {m : M}
    (hw : p.workers[w]? = some (.working i)) (hwork : work i p.memory = some (good, m)) :
    Serving work c next left { p with memory := m, workers := p.workers.set w (.reporting good) }
      (ran ++ [(i, good)]) where
  toHanded := h.toHanded.perform hw hwork
  left_le := h.left_le
  verdicts b := by
    have hreporting := count_filterMap_set hw (f := Worker.verdict) (y := .reporting good) b
    have hverdicts := h.verdicts b
    simp only [Worker.verdict, Option.toList_none, Option.toList_some, List.count_nil]
      at hreporting
    simp only [reporting, List.map_append, List.map_cons, List.map_nil, List.count_append]
      at hverdicts ⊢
    omega

theorem report (h : Serving work c next left p ran) {w : ℕ} {good : Bool}
    (hw : p.workers[w]? = some (.reporting good)) : Serving work c next left
      { p with queueOut := p.queueOut ++ [good], workers := p.workers.set w .waiting } ran where
  toHanded := h.toHanded.report hw
  left_le := h.left_le
  verdicts b := by
    have hreporting := count_filterMap_set hw (f := Worker.verdict) (y := .waiting) b
    have hverdicts := h.verdicts b
    simp only [Worker.verdict, Option.toList_none, Option.toList_some, List.count_nil]
      at hreporting
    simp only [reporting, List.count_append] at hverdicts ⊢
    omega

theorem collect (h : Serving work c next (left + 1) p ran) (hin : true ∈ p.queueOut) :
    Serving work c next left
      { p with queueOut := p.queueOut.erase true, main := .busy p.total left } ran where
  toHanded := ⟨h.total, h.next_le, h.performs, h.pieces⟩
  left_le := Nat.le_of_succ_le h.left_le
  verdicts b := by
    have hqueue := (List.perm_cons_erase hin).count_eq b
    have hverdicts := h.verdicts b
    have hleft := h.left_le
    have hcollected : c.total - left = c.total - (left + 1) + 1 := by omega
    rw [List.count_cons] at hqueue
    rw [hcollected, List.replicate_succ, List.count_cons]
    simp only [reporting] at hverdicts ⊢
    omega

/-- Where all verdicts have been collected there is nothing left. -/
theorem finished (h : Serving work c c.total 0 p ran) :
    (ran.map Prod.fst).Perm (List.range c.total) ∧ Rest p := by
  have hpieces : (ran.map Prod.fst ++ p.working ++ p.queueIn).Perm (List.range c.total) := by
    rw [List.perm_iff_count]
    intro i
    rw [List.count_append, List.count_append, h.pieces i]
  have hverdicts : (List.replicate (c.total - 0) true ++ p.queueOut ++ p.reporting).Perm
      (ran.map Prod.snd) := by
    rw [List.perm_iff_count]
    intro good
    rw [List.count_append, List.count_append, h.verdicts good]
  have hran := hpieces.length_eq
  have hcollected := hverdicts.length_eq
  simp only [List.length_append, List.length_map, List.length_range, List.length_replicate]
    at hran hcollected
  have hrest : Rest p := ⟨List.length_eq_zero_iff.mp (by omega), List.length_eq_zero_iff.mp (by omega),
    List.length_eq_zero_iff.mp (by omega), List.length_eq_zero_iff.mp (by omega)⟩
  rw [hrest.working, hrest.queueIn, List.append_nil, List.append_nil] at hpieces
  exact ⟨hpieces, hrest⟩

end Serving

variable (work verdict)

/-- As long as only the last call may have bad verdicts, the calls before it have come to what
they should, and the last one is being served unless it has ended. -/
def Kept (cs : List (Call M)) (p : Pool M) : Prop :=
  (∀ c ∈ cs.dropLast, AllGood verdict c = true) →
    match p.main with
    | .idle => Outcome work verdict cs p.saved ∧ ((∀ c ∈ cs, AllGood verdict c = true) → Rest p)
    | .busy next left => ∃ (prev : List (Call M)) (c : Call M) (ran : List (ℕ × Bool)),
        cs = prev ++ [c] ∧ Outcome work verdict prev p.saved ∧ Serving work c next left p ran

variable {work verdict} {cs : List (Call M)}

theorem kept_idle (hmain : p.main = .idle) : Kept work verdict cs p ↔
    ((∀ c ∈ cs.dropLast, AllGood verdict c = true) → Outcome work verdict cs p.saved ∧
      ((∀ c ∈ cs, AllGood verdict c = true) → Rest p)) := by
  rw [Kept, hmain]

theorem kept_busy (hmain : p.main = .busy next left) : Kept work verdict cs p ↔
    ((∀ c ∈ cs.dropLast, AllGood verdict c = true) →
      ∃ (prev : List (Call M)) (c : Call M) (ran : List (ℕ × Bool)), cs = prev ++ [c] ∧
        Outcome work verdict prev p.saved ∧ Serving work c next left p ran) := by
  rw [Kept, hmain]

theorem kept_new (n : ℕ) (m : M) : Kept work verdict [] (new n m) := by
  rw [kept_idle rfl]
  intro _
  refine ⟨.nil, fun _ => ⟨rfl, ?_, ?_, rfl⟩⟩
  · simp [working, new, List.filterMap_replicate, Worker.piece]
  · simp [reporting, new, List.filterMap_replicate, Worker.verdict]

/-- A worker does something, which it cannot where nothing is left. -/
theorem Kept.worker (h : Kept work verdict cs p) (hmain : p'.main = p.main)
    (hsaved : p'.saved = p.saved) (hrest : ¬ Rest p)
    (hserving : ∀ {c next left ran}, Serving work c next left p ran →
      ∃ ran', Serving work c next left p' ran') : Kept work verdict cs p' := by
  cases hcase : p.main with
  | idle =>
    rw [kept_idle hcase] at h
    rw [kept_idle (hmain.trans hcase), hsaved]
    intro hprev
    obtain ⟨hout, hall⟩ := h hprev
    exact ⟨hout, fun hgood => absurd (hall hgood) hrest⟩
  | busy next left =>
    rw [kept_busy hcase] at h
    rw [kept_busy (hmain.trans hcase), hsaved]
    intro hprev
    obtain ⟨prev, c, ran, hcs, hout, hserves⟩ := h hprev
    obtain ⟨ran', hnext⟩ := hserving hserves
    exact ⟨prev, c, ran', hcs, hout, hnext⟩

theorem Rest.waiting (h : Rest p) {w : ℕ} {x : Worker} (hw : p.workers[w]? = some x) :
    x = .waiting := by
  have hmem := List.mem_of_getElem? hw
  cases x with
  | waiting => rfl
  | working i =>
    have hin : i ∈ p.working := List.mem_filterMap.mpr ⟨_, hmem, rfl⟩
    rw [h.working] at hin
    cases hin
  | reporting good =>
    have hin : good ∈ p.reporting := List.mem_filterMap.mpr ⟨_, hmem, rfl⟩
    rw [h.reporting] at hin
    cases hin

theorem Outcome.concat (h : Outcome work verdict cs p.saved) (hgood : AllGood verdict c = true)
    {m : M} (hdone : Done work c m) : Outcome work verdict (cs ++ [c]) (p.saved ++ [m]) := by
  rw [Outcome, List.filter_append, List.filter_cons_of_pos hgood, List.filter_nil]
  exact List.rel_append h (.cons hdone .nil)

theorem Outcome.skip (h : Outcome work verdict cs p.saved) (hbad : AllGood verdict c = false) :
    Outcome work verdict (cs ++ [c]) p.saved := by
  rw [Outcome, List.filter_append, List.filter_cons_of_neg (by simp [hbad]), List.filter_nil,
    List.append_nil]
  exact h

/-- All verdicts that have been collected are good. -/
theorem Serving.allGood (h : Serving work c c.total 0 p ran) (hsteady : Steady work verdict) :
    AllGood verdict c = true := by
  obtain ⟨hperm, hrest⟩ := h.finished
  rw [AllGood, List.all_eq_true]
  intro i hi
  obtain ⟨x, hx, rfl⟩ := List.mem_map.mp (hperm.mem_iff.mpr hi)
  rw [← hsteady c ran p.memory h.performs h.ran_nodup h.lt_total x hx]
  by_contra hbad
  have hpos : 0 < (ran.map Prod.snd).count false :=
    List.count_pos_iff.mpr (List.mem_map.mpr ⟨x, hx, by simpa using hbad⟩)
  have hverdicts := h.verdicts false
  have hnone : (List.replicate (c.total - 0) true).count false = 0 := by
    simp [List.count_replicate]
  rw [hrest.queueOut, hrest.reporting, hnone, List.count_nil] at hverdicts
  omega

theorem Kept.step (hsteady : Steady work verdict) {e : Event M} (h : Kept work verdict cs p)
    (he : Step work p e p') : Kept work verdict (cs ++ e.call?.toList) p' := by
  cases he with
  | call c hmain hin hworking =>
    rw [kept_idle hmain] at h
    rw [kept_busy rfl]
    intro hprev
    have hgood : ∀ c ∈ cs, AllGood verdict c = true := by simpa [Event.call?] using hprev
    obtain ⟨hout, hrest⟩ := h fun c hc => hgood c (List.dropLast_subset cs hc)
    exact ⟨cs, c, [], rfl, hout, (hrest hgood).serving c⟩
  | @dispatch next left hmain hnext =>
    rw [kept_busy hmain] at h
    simp only [Event.call?, Option.toList_none, List.append_nil]
    rw [kept_busy rfl]
    intro hprev
    obtain ⟨prev, c, ran, hcs, hout, hserving⟩ := h hprev
    exact ⟨prev, c, ran, hcs, hout, hserving.dispatch hnext⟩
  | take hw hi =>
    simp only [Event.call?, Option.toList_none, List.append_nil]
    refine h.worker rfl rfl (fun hrest => ?_) fun hserving => ⟨_, hserving.take hw hi⟩
    rw [hrest.queueIn] at hi
    cases hi
  | work hw hwork =>
    simp only [Event.call?, Option.toList_none, List.append_nil]
    refine h.worker rfl rfl (fun hrest => ?_) fun hserving => ⟨_, hserving.perform hw hwork⟩
    cases hrest.waiting hw
  | report hw =>
    simp only [Event.call?, Option.toList_none, List.append_nil]
    refine h.worker rfl rfl (fun hrest => ?_) fun hserving => ⟨_, hserving.report hw⟩
    cases hrest.waiting hw
  | collect hmain hin =>
    rw [kept_busy hmain] at h
    simp only [Event.call?, Option.toList_none, List.append_nil]
    rw [kept_busy rfl]
    intro hprev
    obtain ⟨prev, c, ran, hcs, hout, hserving⟩ := h hprev
    exact ⟨prev, c, ran, hcs, hout, hserving.collect hin⟩
  | giveUp hmain hin =>
    rw [kept_busy hmain] at h
    simp only [Event.call?, Option.toList_none, List.append_nil]
    rw [kept_idle rfl]
    intro hprev
    obtain ⟨prev, c, ran, rfl, hout, hserving⟩ := h hprev
    have hbad := hserving.not_allGood hsteady hin
    refine ⟨hout.skip hbad, fun hall => ?_⟩
    have hgood := hall c (by simp)
    rw [hbad] at hgood
    cases hgood
  | finish hmain =>
    rw [kept_busy hmain] at h
    simp only [Event.call?, Option.toList_none, List.append_nil]
    rw [kept_idle rfl]
    intro hprev
    obtain ⟨prev, c, ran, rfl, hout, hserving⟩ := h hprev
    rw [hserving.total] at hserving
    obtain ⟨hperm, hrest⟩ := hserving.finished
    exact ⟨hout.concat (hserving.allGood hsteady) ⟨ran, hserving.performs, hperm⟩,
      fun _ => ⟨hrest.queueIn, hrest.working, hrest.reporting, hrest.queueOut⟩⟩

/-- Where no call but the last has bad verdicts, what the calls come to does not depend on how
the workers take turns: a memory is saved for each call without bad verdicts, in the order of the
calls, and all pieces have been done in it, each one time. -/
theorem Reaches.outcome (hsteady : Steady work verdict) {n : ℕ} {m : M} {es : List (Event M)}
    (h : Reaches work (new n m) es p) (hidle : p.main = .idle)
    (hprev : ∀ c ∈ (callsOf es).dropLast, AllGood verdict c = true) :
    Outcome work verdict (callsOf es) p.saved :=
  ((kept_idle hidle).mp (h.keeps (kept_new n m) fun _ _ _ _ hkept he => hkept.step hsteady he)
    hprev).1

end Outcome

end Pool

end ServerlessEdge.Library.Pools
