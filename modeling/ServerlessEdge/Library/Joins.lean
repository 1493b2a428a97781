import Mathlib.Data.Multiset.Bind
import Mathlib.Data.Multiset.Filter
import Mathlib.Data.Fintype.Card
import Mathlib.Data.Set.Finite.Basic
import Mathlib.Logic.Relation

/-! Tokens on the edges of a graph. A node is ready whenever as many tokens as it
has incoming edges have arrived since the last time, and it puts one on each of
its outgoing edges when it is done. -/
namespace ServerlessEdge.Library.Joins
open Multiset

variable {V : Type*} [DecidableEq V]

def into (E : Multiset (V × V)) (v : V) : Multiset (V × V) := E.filter fun e => e.2 = v

def out (E : Multiset (V × V)) (v : V) : Multiset (V × V) := E.filter fun e => e.1 = v

/-- The tokens that have not arrived yet and those that have, and the nodes by
how far they are, with repetitions. -/
structure Marking (V : Type*) where
  flying : Multiset (V × V)
  arrived : Multiset (V × V)
  ready : Multiset V
  running : Multiset V
  done : Multiset V
  failed : Multiset V

/-- Only the root is done. -/
def Marking.initial (E : Multiset (V × V)) (root : V) : Marking V :=
  ⟨out E root, 0, 0, 0, {root}, 0⟩

/-- The nodes that are ready, or were. -/
def Marking.visits (m : Marking V) : Multiset V := m.ready + m.running + m.done + m.failed

/-- The nodes that are running, or have ended. -/
def Marking.begun (m : Marking V) : Multiset V := m.running + m.done + m.failed

/-- Nothing is left to do. -/
structure Marking.Idle (m : Marking V) : Prop where
  flying : m.flying = 0
  ready : m.ready = 0
  running : m.running = 0

/-- The nodes that are ready once a token has arrived at v. -/
def wake (E a : Multiset (V × V)) (v : V) (s : Multiset V) : Multiset V :=
  if (into E v).card ∣ (into a v).card then v ::ₘ s else s

/-- A token arrives, a node is taken from those that are ready, or it ends. -/
inductive Step (E : Multiset (V × V)) (m m' : Marking V) : Prop
  | arrive (e : V × V) (hf : m.flying = e ::ₘ m'.flying) (ha : m'.arrived = e ::ₘ m.arrived)
      (hq : m'.ready = wake E m'.arrived e.2 m.ready) (hr : m'.running = m.running)
      (hd : m'.done = m.done) (hx : m'.failed = m.failed)
  | start (v : V) (hf : m'.flying = m.flying) (ha : m'.arrived = m.arrived)
      (hq : m.ready = v ::ₘ m'.ready) (hr : m'.running = v ::ₘ m.running)
      (hd : m'.done = m.done) (hx : m'.failed = m.failed)
  | finish (v : V) (hf : m'.flying = out E v + m.flying) (ha : m'.arrived = m.arrived)
      (hq : m'.ready = m.ready) (hr : m.running = v ::ₘ m'.running)
      (hd : m'.done = v ::ₘ m.done) (hx : m'.failed = m.failed)
  | fail (v : V) (hf : m'.flying = m.flying) (ha : m'.arrived = m.arrived)
      (hq : m'.ready = m.ready) (hr : m.running = v ::ₘ m'.running)
      (hd : m'.done = m.done) (hx : m'.failed = v ::ₘ m.failed)

/-- The nodes that are ready some time, unless one fails. -/
inductive Fires (E : Multiset (V × V)) (root : V) : V → Prop
  | root : Fires E root root
  | join {v : V} (hsome : into E v ≠ 0) (hall : ∀ u, (u, v) ∈ E → Fires E root u) : Fires E root v

/-- Each token was sent by a node that is done, and nodes are visited as often as
all their tokens have arrived. -/
structure Accounted (E : Multiset (V × V)) (root : V) (m : Marking V) : Prop where
  sent : m.flying + m.arrived = m.done.bind (out E)
  visits : ∀ v, v ≠ root → m.visits.count v = (into m.arrived v).card / (into E v).card
  atRoot : m.visits.count root = 1 ∧ root ∈ m.done
  once : m.done.Nodup
  fires : ∀ v ∈ m.visits, Fires E root v

section Counting

variable {E : Multiset (V × V)} {root : V}

theorem card_into_cons (a : Multiset (V × V)) (e : V × V) (v : V) :
    (into (e ::ₘ a) v).card = (into a v).card + if e.2 = v then 1 else 0 := by
  unfold into
  split
  · next h => rw [filter_cons_of_pos a h, card_cons]
  · next h => rw [filter_cons_of_neg a h, Nat.add_zero]

theorem count_wake (E a : Multiset (V × V)) (v : V) (s : Multiset V) (w : V) :
    (wake E a v s).count w =
      s.count w + if w = v ∧ (into E v).card ∣ (into a v).card then 1 else 0 := by
  unfold wake
  split
  · next h => simp only [count_cons, h, and_true]
  · next h => simp only [h, and_false, if_false, Nat.add_zero]

theorem mem_into {e : V × V} {v : V} : e ∈ into E v ↔ e ∈ E ∧ e.2 = v := mem_filter

theorem into_mono {a b : Multiset (V × V)} (h : a ≤ b) (v : V) : into a v ≤ into b v :=
  filter_le_filter _ h

/-- An edge has a token for each time that its source is done. -/
theorem count_bind_out (E : Multiset (V × V)) (d : Multiset V) (e : V × V) :
    (d.bind (out E)).count e = d.count e.1 * E.count e := by
  induction d using Multiset.induction with
  | empty => simp
  | cons v d ih =>
    rw [cons_bind, count_add, ih, count_cons, Nat.add_mul, Nat.add_comm]
    congr 1
    by_cases h : e.1 = v
    · rw [if_pos h, Nat.one_mul]
      exact count_filter_of_pos h
    · rw [if_neg h, Nat.zero_mul]
      exact count_filter_of_neg h

theorem bind_out_le {d : Multiset V} (hd : d.Nodup) : d.bind (out E) ≤ E := by
  apply le_iff_count.mpr
  intro e
  rw [count_bind_out]
  have hone := nodup_iff_count_le_one.mp hd e.1
  calc d.count e.1 * E.count e ≤ 1 * E.count e := Nat.mul_le_mul_right _ hone
    _ = E.count e := Nat.one_mul _

variable {m : Marking V}

theorem Accounted.arrived_le (h : Accounted E root m) : m.arrived ≤ E :=
  calc m.arrived ≤ m.flying + m.arrived := le_add_left _ _
    _ = m.done.bind (out E) := h.sent
    _ ≤ E := bind_out_le h.once

theorem Accounted.flying_subset (h : Accounted E root m) {e : V × V} (he : e ∈ m.flying) : e ∈ E := by
  have hsent : e ∈ m.done.bind (out E) := by
    rw [← h.sent]
    exact mem_add.mpr (.inl he)
  exact mem_of_le (bind_out_le h.once) hsent

/-- No node is visited twice. -/
theorem Accounted.visits_le_one (h : Accounted E root m) (v : V) : m.visits.count v ≤ 1 := by
  by_cases hv : v = root
  · rw [hv, h.atRoot.1]
  · rw [h.visits v hv]
    have hcard := card_le_card (into_mono h.arrived_le v)
    apply Nat.div_le_of_le_mul
    omega

/-- When a node is visited, all the tokens on its incoming edges have arrived. -/
theorem Accounted.all_arrived (h : Accounted E root m) {v : V} (hv : v ∈ m.visits) (hr : v ≠ root) :
    into m.arrived v = into E v := by
  apply eq_of_le_of_card_le (into_mono h.arrived_le v)
  have hpos := count_pos.mpr hv
  rw [h.visits v hr] at hpos
  exact (Nat.div_pos_iff.mp hpos).2

theorem Accounted.done_of_arrived (h : Accounted E root m) {u v : V} (he : (u, v) ∈ m.arrived) :
    u ∈ m.done := by
  have hsent : (u, v) ∈ m.done.bind (out E) := by
    rw [← h.sent]
    exact mem_add.mpr (.inr he)
  obtain ⟨w, hw, hout⟩ := mem_bind.mp hsent
  have hu : u = w := (mem_filter.mp hout).2
  exact hu ▸ hw

/-- When a node is visited, all its predecessors are done. -/
theorem Accounted.preds_done (h : Accounted E root m) {u v : V} (hv : v ∈ m.visits)
    (hr : v ≠ root) (he : (u, v) ∈ E) : u ∈ m.done := by
  have hin : (u, v) ∈ into m.arrived v := by
    rw [h.all_arrived hv hr]
    exact mem_into.mpr ⟨he, rfl⟩
  exact h.done_of_arrived (mem_into.mp hin).1

omit [DecidableEq V] in
theorem mem_visits_of_done {v : V} (h : v ∈ m.done) : v ∈ m.visits := by
  simp only [Marking.visits, mem_add]
  tauto

end Counting

section Steps

variable {E : Multiset (V × V)} {root : V}

theorem accounted_initial (E : Multiset (V × V)) (root : V) : Accounted E root (.initial E root) := by
  have hvisits : (Marking.initial E root).visits = {root} := by
    simp [Marking.visits, Marking.initial]
  refine ⟨?_, fun v hv => ?_, ?_, nodup_singleton root, fun v hv => ?_⟩
  · simp [Marking.initial]
  · rw [hvisits, count_singleton, if_neg hv]
    simp [Marking.initial, into]
  · rw [hvisits]
    exact ⟨count_singleton_self root, mem_singleton_self root⟩
  · rw [hvisits, mem_singleton] at hv
    rw [hv]
    exact .root

/-- The step that matters: the last token that a node was waiting for. -/
private theorem accounted_arrive (hroot : ∀ e ∈ E, e.2 ≠ root) {m m' : Marking V}
    (h : Accounted E root m) {e : V × V} (hf : m.flying = e ::ₘ m'.flying)
    (ha : m'.arrived = e ::ₘ m.arrived) (hq : m'.ready = wake E m'.arrived e.2 m.ready)
    (hr : m'.running = m.running) (hd : m'.done = m.done) (hx : m'.failed = m.failed) :
    Accounted E root m' := by
  have he : e ∈ E := by
    apply h.flying_subset
    rw [hf]
    exact mem_cons_self e m'.flying
  have hne : e.2 ≠ root := hroot e he
  have hsent : m'.flying + m'.arrived = m'.done.bind (out E) := by
    rw [hd, ← h.sent, hf, ha, add_cons, cons_add]
  have hle : m'.arrived ≤ E := by
    calc m'.arrived ≤ m'.flying + m'.arrived := le_add_left _ _
      _ = m.done.bind (out E) := by rw [hsent, hd]
      _ ≤ E := bind_out_le h.once
  have harr (v : V) : (into m'.arrived v).card =
      (into m.arrived v).card + if e.2 = v then 1 else 0 := by
    rw [ha]
    exact card_into_cons m.arrived e v
  have hcount (v : V) : m'.visits.count v = m.visits.count v +
      if v = e.2 ∧ (into E e.2).card ∣ (into m'.arrived e.2).card then 1 else 0 := by
    simp only [Marking.visits, count_add, hq, hr, hd, hx, count_wake]
    omega
  refine ⟨hsent, fun v hv => ?_, ?_, hd ▸ h.once, fun v hv => ?_⟩
  · rw [hcount, h.visits v hv, harr v]
    by_cases hev : v = e.2
    · subst hev
      rw [harr, if_pos rfl, Nat.succ_div]
      simp only [true_and]
    · rw [if_neg (Ne.symm hev), if_neg fun h => hev h.1, Nat.add_zero, Nat.add_zero]
  · rw [hcount, if_neg (fun hr => hne hr.1.symm), hd]
    exact h.atRoot
  · have hv' := count_pos.mpr hv
    rw [hcount] at hv'
    by_cases hnew : v = e.2 ∧ (into E e.2).card ∣ (into m'.arrived e.2).card
    · obtain ⟨rfl, hdvd⟩ := hnew
      -- all tokens are there, so that all predecessors are done
      have hin : e ∈ into m'.arrived e.2 := by
        rw [ha]
        exact mem_into.mpr ⟨mem_cons_self e m.arrived, rfl⟩
      have hall : into m'.arrived e.2 = into E e.2 := by
        apply eq_of_le_of_card_le (into_mono hle e.2)
        exact Nat.le_of_dvd (card_pos_iff_exists_mem.mpr ⟨e, hin⟩) hdvd
      refine .join (fun hz => ?_) fun u hu => ?_
      · rw [hall, hz] at hin
        exact notMem_zero e hin
      · have hu' : (u, e.2) ∈ into m'.arrived e.2 := by
          rw [hall]
          exact mem_into.mpr ⟨hu, rfl⟩
        have hmem : (u, e.2) ∈ m'.done.bind (out E) := by
          rw [← hsent]
          exact mem_add.mpr (.inr (mem_into.mp hu').1)
        obtain ⟨w, hw, hout⟩ := mem_bind.mp hmem
        have huw : u = w := (mem_filter.mp hout).2
        rw [hd] at hw
        exact huw ▸ h.fires w (mem_visits_of_done hw)
    · rw [if_neg hnew, Nat.add_zero] at hv'
      exact h.fires v (count_pos.mp hv')

/-- The other steps only move a node on. -/
private theorem accounted_move {m m' : Marking V} (h : Accounted E root m)
    (hvisits : m'.visits = m.visits) (ha : m'.arrived = m.arrived)
    (hsent : m'.flying + m'.arrived = m'.done.bind (out E)) (hroot : root ∈ m'.done)
    (honce : m'.done.Nodup) : Accounted E root m' := by
  refine ⟨hsent, fun v hv => ?_, ?_, honce, ?_⟩
  · rw [hvisits, ha]
    exact h.visits v hv
  · rw [hvisits]
    exact ⟨h.atRoot.1, hroot⟩
  · rw [hvisits]
    exact h.fires

theorem Accounted.step (hroot : ∀ e ∈ E, e.2 ≠ root) {m m' : Marking V} (h : Accounted E root m)
    (hstep : Step E m m') : Accounted E root m' := by
  cases hstep with
  | arrive e hf ha hq hr hd hx => exact accounted_arrive hroot h hf ha hq hr hd hx
  | start v hf ha hq hr hd hx | fail v hf ha hq hr hd hx =>
    have hvisits : m'.visits = m.visits := by
      simp only [Marking.visits, hq, hr, hd, hx, add_cons, cons_add]
    apply accounted_move h hvisits ha
    · rw [hf, ha, hd]
      exact h.sent
    · exact hd ▸ h.atRoot.2
    · exact hd ▸ h.once
  | finish v hf ha hq hr hd hx =>
    have hvisits : m'.visits = m.visits := by
      simp only [Marking.visits, hq, hr, hd, hx, add_cons, cons_add]
    have hnew : v ∉ m.done := by
      intro hv
      have hone := h.visits_le_one v
      have hpos := count_pos.mpr hv
      simp only [Marking.visits, hr, count_add, count_cons_self] at hone
      omega
    apply accounted_move h hvisits ha
    · rw [hf, ha, hd, cons_bind, add_assoc, h.sent]
    · rw [hd]
      exact mem_cons_of_mem h.atRoot.2
    · rw [hd]
      exact nodup_cons.mpr ⟨hnew, h.once⟩

omit [DecidableEq V] in
theorem begun_le_visits (m : Marking V) : m.begun ≤ m.visits := by
  unfold Marking.begun Marking.visits
  rw [add_assoc, add_assoc, add_assoc]
  exact le_add_left _ _

/-- A node begins only when it is taken from those that are ready. -/
theorem Step.begun_eq {m m' : Marking V} (h : Step E m m') (hready : m.ready ≤ m'.ready) :
    m'.begun = m.begun := by
  unfold Marking.begun
  cases h with
  | arrive e hf ha hq hr hd hx => rw [hr, hd, hx]
  | start v hf ha hq hr hd hx =>
    rw [hq] at hready
    have hcard := card_le_card hready
    rw [card_cons] at hcard
    omega
  | finish v hf ha hq hr hd hx => simp only [hr, hd, hx, cons_add, add_cons]
  | fail v hf ha hq hr hd hx => simp only [hr, hd, hx, cons_add, add_cons]

end Steps

section End

variable {E : Multiset (V × V)} {root : V} {m : Marking V}

theorem count_arrived (h : Accounted E root m) (hidle : m.Idle) (e : V × V) :
    m.arrived.count e = m.done.count e.1 * E.count e := by
  have hsent := h.sent
  rw [hidle.flying, zero_add] at hsent
  rw [hsent, count_bind_out]

/-- If nothing fails, the nodes that are done at the end do not depend on the run. -/
theorem done_iff_fires (h : Accounted E root m) (hidle : m.Idle) (hfail : m.failed = 0) (v : V) :
    v ∈ m.done ↔ Fires E root v := by
  have hvisits : m.visits = m.done := by
    simp only [Marking.visits, hidle.ready, hidle.running, hfail, zero_add, add_zero]
  constructor
  · intro hv
    exact h.fires v (mem_visits_of_done hv)
  · intro hv
    induction hv with
    | root => exact h.atRoot.2
    | join hsome hall ih =>
      rename_i v
      by_cases hr : v = root
      · rw [hr]
        exact h.atRoot.2
      have heq : into m.arrived v = into E v := by
        apply Multiset.ext.mpr
        intro e
        simp only [into, count_filter]
        by_cases hev : e.2 = v
        · rw [if_pos hev, if_pos hev, count_arrived h hidle]
          by_cases he : e ∈ E
          · have hdone := ih e.1 (hev ▸ he)
            rw [count_eq_one_of_mem h.once hdone, Nat.one_mul]
          · rw [count_eq_zero_of_notMem he, Nat.mul_zero]
        · rw [if_neg hev, if_neg hev]
      have hcount := h.visits v hr
      rw [heq, Nat.div_self (card_pos.mpr hsome), hvisits] at hcount
      exact count_pos.mp (by omega)

/-- No node is left waiting for the rest of its tokens just when all the
successors of nodes that are ready some time are so as well. -/
theorem no_waiting_iff (hroot : ∀ e ∈ E, e.2 ≠ root) (h : Accounted E root m) (hidle : m.Idle) (hfail : m.failed = 0) :
    (∀ v, (into E v).card ∣ (into m.arrived v).card) ↔
      ∀ u v, (u, v) ∈ E → Fires E root u → Fires E root v := by
  constructor
  · intro hall u v he hu
    have hdone := (done_iff_fires h hidle hfail u).mpr hu
    have hin : (u, v) ∈ into m.arrived v := by
      apply mem_into.mpr ⟨_, rfl⟩
      apply count_pos.mp
      rw [count_arrived h hidle, count_eq_one_of_mem h.once hdone, Nat.one_mul]
      exact count_pos.mpr he
    have hcard := Nat.le_of_dvd (card_pos_iff_exists_mem.mpr ⟨_, hin⟩) (hall v)
    have heq := eq_of_le_of_card_le (into_mono h.arrived_le v) hcard
    refine .join (fun hz => ?_) fun w hw => ?_
    · rw [heq, hz] at hin
      exact absurd hin (notMem_zero _)
    · have hw' : (w, v) ∈ into m.arrived v := by
        rw [heq]
        exact mem_into.mpr ⟨hw, rfl⟩
      exact h.fires w (mem_visits_of_done (h.done_of_arrived (mem_into.mp hw').1))
  · intro hclosed v
    by_cases hz : into m.arrived v = 0
    · rw [hz, card_zero]
      exact Nat.dvd_zero _
    · obtain ⟨⟨u, w⟩, he⟩ := exists_mem_of_ne_zero hz
      obtain ⟨harr, hw⟩ := mem_into.mp he
      cases hw
      have hE := mem_of_le h.arrived_le harr
      have hu := h.fires u (mem_visits_of_done (h.done_of_arrived harr))
      have hv := (done_iff_fires h hidle hfail w).mpr (hclosed u w hE hu)
      rw [h.all_arrived (mem_visits_of_done hv) (hroot _ hE)]

end End

section Reachability

variable {E : Multiset (V × V)} {root : V}

/-- There is a path from one node to another, of any length. -/
def Path (E : Multiset (V × V)) : V → V → Prop := Relation.ReflTransGen fun u v => (u, v) ∈ E

/-- Whatever can be reached has predecessors that can be reached, and is on no cycle. -/
structure Sound (E : Multiset (V × V)) (root : V) : Prop where
  closed : ∀ u v, (u, v) ∈ E → Path E root v → Path E root u
  acyclic : ∀ v, Path E root v → ¬ Relation.TransGen (fun u v => (u, v) ∈ E) v v

theorem Fires.path {v : V} (h : Fires E root v) : Path E root v := by
  induction h with
  | root => exact .refl
  | join hsome hall ih =>
    obtain ⟨⟨u, w⟩, he⟩ := exists_mem_of_ne_zero hsome
    obtain ⟨hE, hw⟩ := mem_into.mp he
    cases hw
    exact (ih u hE).tail hE

theorem Fires.acc (hroot : ∀ e ∈ E, e.2 ≠ root) {v : V} (h : Fires E root v) :
    Acc (fun u v => (u, v) ∈ E) v := by
  induction h with
  | root => exact Acc.intro _ fun u hu => absurd rfl (hroot _ hu)
  | join hsome hall ih => exact Acc.intro _ ih

omit [DecidableEq V] in
private theorem not_transGen_self {r : V → V → Prop} {v : V} (h : Acc r v) :
    ¬ Relation.TransGen r v v := by
  have hacc := Acc.transGen h
  induction hacc with
  | intro v _ ih => exact fun hv => ih v hv h hv

/-- All that can be reached is ready some time just when the graph is sound. -/
theorem fires_iff_sound (hroot : ∀ e ∈ E, e.2 ≠ root) :
    (∀ v, Path E root v → Fires E root v) ↔ Sound E root := by
  constructor
  · intro hall
    refine ⟨fun u v he hv => ?_, fun v hv => not_transGen_self ((hall v hv).acc hroot)⟩
    cases hall v hv with
    | root => exact absurd rfl (hroot _ he)
    | join hsome hpreds => exact (hpreds u he).path
  · intro hsound
    -- the nodes that can be reached are finitely many, and none is on a cycle
    let S := {v : V // v ∈ (root ::ₘ E.map Prod.snd).toFinset ∧ Path E root v}
    have hfinite : Finite S := Set.Finite.subset
      (Finset.finite_toSet (root ::ₘ E.map Prod.snd).toFinset) fun v hv => hv.1
    have htrans : IsTrans S fun u v => Relation.TransGen (fun u v => (u, v) ∈ E) u.1 v.1 :=
      ⟨fun _ _ _ => Relation.TransGen.trans⟩
    have hirrefl : Std.Irrefl fun u v : S => Relation.TransGen (fun u v => (u, v) ∈ E) u.1 v.1 :=
      ⟨fun v => hsound.acyclic v.1 v.2.2⟩
    have hwf := Finite.wellFounded_of_trans_of_irrefl
      fun u v : S => Relation.TransGen (fun u v => (u, v) ∈ E) u.1 v.1
    have hmem {v : V} (hv : Path E root v) : v ∈ (root ::ₘ E.map Prod.snd).toFinset := by
      apply mem_toFinset.mpr
      cases hv with
      | refl => exact mem_cons_self root _
      | tail _ he => exact mem_cons_of_mem (mem_map_of_mem Prod.snd he)
    have hall (v : S) : Fires E root v.1 := by
      induction v using hwf.induction with
      | _ v ih =>
      obtain ⟨v, hv, hpath⟩ := v
      rcases mem_cons.mp (mem_toFinset.mp hv) with rfl | hv
      · exact .root
      · obtain ⟨e, he, rfl⟩ := mem_map.mp hv
        refine .join (fun hz => ?_) fun u hu => ?_
        · have hin : e ∈ into E e.2 := mem_into.mpr ⟨he, rfl⟩
          rw [hz] at hin
          exact absurd hin (notMem_zero e)
        · have hu' := hsound.closed u e.2 hu hpath
          exact ih ⟨u, hmem hu', hu'⟩ (.single hu)
    exact fun v hv => hall ⟨v, hmem hv, hv⟩

/-- The successors of all that is ready some time are ready some time just when
all that can be reached is. -/
theorem fires_closed_iff :
    (∀ u v, (u, v) ∈ E → Fires E root u → Fires E root v) ↔ ∀ v, Path E root v → Fires E root v := by
  constructor
  · intro hclosed v hv
    induction hv with
    | refl => exact .root
    | tail _ he ih => exact hclosed _ _ he ih
  · exact fun hall u v he hu => hall v (hu.path.tail he)

end Reachability
end ServerlessEdge.Library.Joins
