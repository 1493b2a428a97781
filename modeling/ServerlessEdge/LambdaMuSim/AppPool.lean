import Mathlib.Algebra.Order.Ring.Rat
import Mathlib.Data.List.Sort
import Mathlib.Data.List.FinRange
import Mathlib.Logic.Function.Basic
import Mathlib.Tactic.Linarith
import ServerlessEdge.Library.Differences

/-! The pool of apps that alternate periods in one stage and in the other, with
the time to the next transition of each one in a differential list. -/
namespace ServerlessEdge.LambdaMuSim
open Library

/-- An app and the period in which it is. -/
structure App where
  thePeriodId : ℕ
  thePeriods : List ℚ
  theCurrent : Fin thePeriods.length

namespace App

/-- The period pointed to, `*theCurrent`. -/
def period (a : App) : ℚ := a.thePeriods.get a.theCurrent

/-- The iterator moves on, and from the end it wraps around. -/
def advance (a : App) : App :=
  { a with theCurrent :=
      if h : a.theCurrent + 1 < a.thePeriods.length then ⟨a.theCurrent + 1, h⟩
      else ⟨0, a.theCurrent.pos⟩ }

/-- The period that is k places after the current one in the cyclic sequence. -/
def cyclic (a : App) (k : ℕ) : ℚ :=
  a.thePeriods.get ⟨(a.theCurrent + k) % a.thePeriods.length, Nat.mod_lt _ a.theCurrent.pos⟩

theorem cyclic_zero (a : App) : a.cyclic 0 = a.period := by
  have hpos : (a.theCurrent + 0) % a.thePeriods.length = a.theCurrent :=
    Nat.mod_eq_of_lt a.theCurrent.isLt
  simp only [cyclic, period, hpos]

theorem cyclic_advance (a : App) (k : ℕ) : a.advance.cyclic k = a.cyclic (k + 1) := by
  have hpos : ((a.advance.theCurrent : ℕ) + k) % a.thePeriods.length =
      (a.theCurrent + (k + 1)) % a.thePeriods.length := by
    have hlt := a.theCurrent.isLt
    by_cases h : (a.theCurrent : ℕ) + 1 < a.thePeriods.length
    · have hnext : (a.advance.theCurrent : ℕ) = a.theCurrent + 1 := by simp [advance, h]
      rw [hnext, Nat.add_assoc, Nat.add_comm 1 k]
    · have hnext : (a.advance.theCurrent : ℕ) = 0 := by simp [advance, h]
      have hend : (a.theCurrent : ℕ) + (k + 1) = k + a.thePeriods.length := by omega
      rw [hnext, hend, Nat.zero_add, Nat.add_mod_right]
  exact congrArg a.thePeriods.get (Fin.ext hpos)

theorem period_iterate (a : App) (k : ℕ) : (advance^[k] a).period = a.cyclic k := by
  induction k generalizing a with
  | zero => exact (cyclic_zero a).symm
  | succ k ih => rw [Function.iterate_succ_apply, ih, cyclic_advance]

end App

/-- The time left to an app after those before it. -/
structure Desc (n : ℕ) where
  theAppId : Fin n
  theRemaining : ℚ

/-- The descriptor as an element of a differential list. -/
def Desc.timed {n : ℕ} (d : Desc n) : Fin n × ℚ := (d.theAppId, d.theRemaining)

theorem map_timed_fst {n : ℕ} (l : List (Desc n)) :
    (l.map Desc.timed).map Prod.fst = l.map Desc.theAppId := by
  rw [List.map_map]
  rfl

theorem forall_timed {n : ℕ} {l : List (Desc n)} {P : ℚ → Prop} :
    (∀ t ∈ l.map Desc.timed, P t.2) ↔ ∀ d ∈ l, P d.theRemaining := by
  rw [List.forall_mem_map]
  rfl

/-- The loop that inserts a descriptor into the differential list. -/
def insertDesc {n : ℕ} (myNewDesc : Desc n) : List (Desc n) → List (Desc n)
  | [] => [myNewDesc]
  | it :: l =>
    if myNewDesc.theRemaining ≤ it.theRemaining then
      myNewDesc :: { it with theRemaining := it.theRemaining - myNewDesc.theRemaining } :: l
    else
      it :: insertDesc
        { myNewDesc with theRemaining := myNewDesc.theRemaining - it.theRemaining } l

theorem map_insertDesc {n : ℕ} (d : Desc n) (l : List (Desc n)) :
    (insertDesc d l).map Desc.timed = Differences.insert d.timed (l.map Desc.timed) := by
  induction l generalizing d with
  | nil => rfl
  | cons e l ih =>
    simp only [insertDesc, List.map_cons, Differences.insert, Desc.timed]
    split
    · rfl
    · rw [List.map_cons, ih]
      rfl

theorem insertDesc_ids {n : ℕ} (d : Desc n) (l : List (Desc n)) :
    ((insertDesc d l).map Desc.theAppId).Perm (d.theAppId :: l.map Desc.theAppId) := by
  rw [← map_timed_fst, map_insertDesc, ← map_timed_fst]
  exact Differences.map_fst_insert d.timed _

/-- The loop of the constructor: each descriptor loses what is left to the one
before it, which has lost its part already. -/
def subtractPrevious {n : ℕ} (prev : ℚ) : List (Desc n) → List (Desc n)
  | [] => []
  | it :: l =>
    let it' := { it with theRemaining := it.theRemaining - prev }
    it' :: subtractPrevious it'.theRemaining l

theorem subtractPrevious_ids {n : ℕ} (prev : ℚ) (l : List (Desc n)) :
    (subtractPrevious prev l).map Desc.theAppId = l.map Desc.theAppId := by
  induction l generalizing prev with
  | nil => rfl
  | cons d l ih => simp only [subtractPrevious, List.map_cons, ih]

/-- The loop finds the time between each two apps only if there are at most two
apps that do not begin with a transition. -/
theorem subtractPrevious_iff {n : ℕ} {l : List (Desc n)}
    (hsorted : l.Pairwise fun d e => d.theRemaining ≤ e.theRemaining)
    (hl : ∀ d ∈ l, 0 ≤ d.theRemaining) :
    (subtractPrevious 0 l).map Desc.timed = Differences.between 0 (l.map Desc.timed) ↔
      (l.filter fun d => d.theRemaining ≠ 0).length ≤ 2 := by
  induction l with
  | nil => simp [subtractPrevious, Differences.between]
  | cons d l ih =>
    obtain ⟨hd, hrest⟩ := List.pairwise_cons.mp hsorted
    by_cases hzero : d.theRemaining = 0
    · -- both loops go on from zero
      have htail := ih hrest fun e he => hl e (List.mem_cons_of_mem _ he)
      simp only [subtractPrevious, Differences.between, List.map_cons, Desc.timed, hzero, sub_zero,
        List.cons.injEq, true_and, ne_eq, not_true, decide_false, Bool.false_eq_true,
        not_false_eq_true, List.filter_cons_of_neg]
      exact htail
    · have hpos : 0 < d.theRemaining :=
        lt_of_le_of_ne (hl d List.mem_cons_self) (Ne.symm hzero)
      have hlater : ∀ e ∈ l, e.theRemaining ≠ 0 := fun e he =>
        ne_of_gt (lt_of_lt_of_le hpos (hd e he))
      have hall : ((d :: l).filter fun e => e.theRemaining ≠ 0) = d :: l := by
        refine List.filter_eq_self.mpr fun e he => decide_eq_true ?_
        rcases List.mem_cons.mp he with rfl | he
        · exact hzero
        · exact hlater e he
      rw [hall]
      cases l with
      | nil => simp [subtractPrevious, Differences.between, Desc.timed]
      | cons e l =>
        cases l with
        | nil => simp [subtractPrevious, Differences.between, Desc.timed]
        | cons f l =>
          -- the third one is off by what is left to the first one
          simp only [subtractPrevious, Differences.between, List.map_cons, Desc.timed, sub_zero,
            List.cons.injEq, true_and, Prod.mk.injEq, List.length_cons]
          constructor
          · rintro ⟨hthird, -⟩
            exact absurd (by linarith) hzero
          · intro hlen
            omega

/-- The apps, and a descriptor for each one of them. -/
structure AppPool (n : ℕ) where
  thePool : Fin n → App
  theDesc : List (Desc n)
  complete : (theDesc.map Desc.theAppId).Perm (List.finRange n)
  nonempty : theDesc ≠ []

/-- What the generators draw for each app: one of the sequences, and an even
place in it to begin with. -/
structure Draws (aPeriods : List (List ℚ)) (n : ℕ) where
  myPeriodId : Fin n → Fin aPeriods.length
  half : ∀ i, Fin ((aPeriods.get (myPeriodId i)).length / 2)

namespace Draws

variable {aPeriods : List (List ℚ)} {n : ℕ}

def myOffset (draws : Draws aPeriods n) (i : Fin n) : ℕ := 2 * draws.half i

theorem myOffset_lt (draws : Draws aPeriods n) (i : Fin n) :
    draws.myOffset i < (aPeriods.get (draws.myPeriodId i)).length := by
  have := (draws.half i).isLt
  unfold myOffset
  omega

/-- An app as it is created. -/
def app (draws : Draws aPeriods n) (i : Fin n) : App where
  thePeriodId := draws.myPeriodId i
  thePeriods := aPeriods.get (draws.myPeriodId i)
  theCurrent := ⟨draws.myOffset i, draws.myOffset_lt i⟩

/-- The descriptors in the order of the apps. -/
def descs (draws : Draws aPeriods n) : List (Desc n) :=
  (List.finRange n).map fun i => ⟨i, (draws.app i).period⟩

/-- The descriptors after `theDesc.sort()`. -/
def sorted (draws : Draws aPeriods n) : List (Desc n) :=
  draws.descs.insertionSort fun d e => d.theRemaining ≤ e.theRemaining

theorem sorted_perm (draws : Draws aPeriods n) : draws.sorted.Perm draws.descs :=
  List.perm_insertionSort _ _

theorem sorted_pairwise (draws : Draws aPeriods n) :
    draws.sorted.Pairwise fun d e => d.theRemaining ≤ e.theRemaining := by
  have : Std.Total fun d e : Desc n => d.theRemaining ≤ e.theRemaining :=
    ⟨fun d e => le_total d.theRemaining e.theRemaining⟩
  have : IsTrans (Desc n) fun d e => d.theRemaining ≤ e.theRemaining :=
    ⟨fun _ _ _ => le_trans⟩
  exact List.pairwise_insertionSort _ _

theorem sorted_ids (draws : Draws aPeriods n) :
    (draws.sorted.map Desc.theAppId).Perm (List.finRange n) := by
  have hids : draws.descs.map Desc.theAppId = List.finRange n := by
    simp only [descs, List.map_map]
    exact List.map_id _
  exact hids ▸ draws.sorted_perm.map Desc.theAppId

end Draws

namespace AppPool

variable {n : ℕ}

/-- The pool and the differential list as the constructor builds them. -/
def create {aPeriods : List (List ℚ)} (draws : Draws aPeriods n) (h : n ≠ 0) : AppPool n where
  thePool := draws.app
  theDesc := subtractPrevious 0 draws.sorted
  complete := by
    rw [subtractPrevious_ids]
    exact draws.sorted_ids
  nonempty := by
    intro hnil
    have hlen := congrArg List.length (hnil ▸ subtractPrevious_ids 0 draws.sorted)
    rw [draws.sorted_ids.length_eq, List.length_finRange] at hlen
    exact h hlen.symm

/-- The constructor. -/
def new (aPeriods : List (List ℚ)) (aNumApps : ℕ) (draws : Draws aPeriods aNumApps) :
    Except String (AppPool aNumApps) :=
  if h : aNumApps = 0 then .error "Invalid number of applications, must be > 0"
  else .ok (create draws h)

theorem new_ok {aPeriods : List (List ℚ)} {draws : Draws aPeriods n} {p : AppPool n}
    (hp : AppPool.new aPeriods n draws = .ok p) : ∃ h, p = create draws h := by
  unfold AppPool.new at hp
  split at hp
  · cases hp
  · cases hp
    exact ⟨_, rfl⟩

/-- The descriptor at the front of the list. -/
def front (p : AppPool n) : Desc n := p.theDesc.head p.nonempty

/-- The shortest remaining time. -/
def next (p : AppPool n) : ℚ := p.front.theRemaining

theorem front_cons_tail (p : AppPool n) : p.front :: p.theDesc.tail = p.theDesc :=
  List.cons_head_tail p.nonempty

theorem front_ids (p : AppPool n) :
    (p.front.theAppId :: p.theDesc.tail.map Desc.theAppId).Perm (List.finRange n) := by
  have h := p.complete
  rwa [← p.front_cons_tail] at h

/-- `advance(aTime)`: the clock goes on by the given time. -/
def elapse (p : AppPool n) (aTime : ℚ) : AppPool n where
  thePool := p.thePool
  theDesc := { p.front with theRemaining := p.front.theRemaining - aTime } :: p.theDesc.tail
  complete := p.front_ids
  nonempty := List.cons_ne_nil _ _

/-- The app with the shortest remaining time, in its next period. -/
def selected (p : AppPool n) : App := (p.thePool p.front.theAppId).advance

/-- The descriptor that `advance()` puts back into the list. -/
def myNewDesc (p : AppPool n) : Desc n :=
  ⟨p.front.theAppId, p.front.theRemaining + p.selected.period⟩

/-- `advance()`: the app advanced and the time passed. -/
def advance (p : AppPool n) : (Fin n × ℚ) × AppPool n :=
  ((p.front.theAppId, p.front.theRemaining), {
    thePool := Function.update p.thePool p.front.theAppId p.selected
    theDesc := insertDesc p.myNewDesc p.theDesc.tail
    complete := (insertDesc_ids p.myNewDesc p.theDesc.tail).trans p.front_ids
    nonempty := by
      intro hnil
      have hlen := (insertDesc_ids p.myNewDesc p.theDesc.tail).length_eq
      rw [hnil] at hlen
      cases hlen })

end AppPool

end ServerlessEdge.LambdaMuSim
