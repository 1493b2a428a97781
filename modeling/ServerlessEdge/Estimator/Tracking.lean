import ServerlessEdge.Estimator.PtimeEstimator

/-! The pairs lambda, destination that each derived class knows, and what its
functions make of them. -/
namespace ServerlessEdge.Estimator
open Std Library Rows Triple

/-- Some pairs lambda, destination. -/
abbrev Pairs := String → String → Prop

def Pairs.with (P : Pairs) (aLambda aDest : String) : Pairs :=
  fun l d => l = aLambda ∧ d = aDest ∨ P l d

def Pairs.without (P : Pairs) (aLambda aDest : String) : Pairs :=
  fun l d => ¬ (l = aLambda ∧ d = aDest) ∧ P l d

theorem Pairs.without_of_not {P : Pairs} {l d : String} (h : ¬ P l d) : P.without l d = P := by
  funext l' d'
  apply propext
  constructor
  · exact And.right
  · intro hp
    refine ⟨?_, hp⟩
    rintro ⟨rfl, rfl⟩
    exact h hp

/-- The computers are those of some pairs, each with its lambdas. -/
structure Serving (cs : ExtTreeMap String UtilEstimator.ComputerDescriptor) (P : Pairs) : Prop where
  computers : ∀ d, d ∈ cs ↔ ∃ l, P l d
  lambdas : ∀ {d : String} {c : UtilEstimator.ComputerDescriptor}, cs[d]? = some c →
    ∀ l, l ∈ c.theLambdas ↔ P l d

/-- The pairs of an estimator, and its computers. -/
structure UtilEstimator.Tracks {E : Type} (u : UtilEstimator E) (P : Pairs) : Prop
    extends Serving u.theComputers P where
  table : ∀ l d, u.theTable.Known l d ↔ P l d

/-- What it means for a derived class to know exactly some pairs. -/
class Tracking (D : Type) where
  Tracks : D → Pairs → Prop

instance {E : Type} : Tracking (PtimeEstimatorRtt E) where
  Tracks e P := ∀ l d, e.theRttEstimator.theTable.Known l d ↔ P l d

instance {E : Type} : Tracking (PtimeEstimatorUtil E) where
  Tracks e P := (∀ l d, e.theRttEstimator.theTable.Known l d ↔ P l d) ∧ e.theUtilEstimator.Tracks P

instance {E : Type} : Tracking (PtimeEstimatorDelay E) where
  Tracks e P := e.theUtilEstimator.Tracks P

instance : Tracking PtimeEstimatorProbe where
  Tracks e P := ∀ l d, e.theDestinations.Known l d ↔ P l d

/-- A derived class that can be relied upon, removals apart. -/
class LawfulDerived (D : Type) [Derived D] [Tracking D] : Prop where
  add : ∀ {d : D} {P : Pairs}, Tracking.Tracks d P →
    ∀ l x, Tracking.Tracks (Derived.privateAdd l x d) (P.with l x)
  choose : ∀ {d : D} {P : Pairs}, Tracking.Tracks d P → ∀ r q, wp (fun _ => False)
    (Derived.choose r q) (fun x d' => (x.1 = "" ∨ P q.name x.1) ∧ Tracking.Tracks d' P)
      (fun _ d' => Tracking.Tracks d' P) d
  learn : ∀ {d : D} {P : Pairs}, Tracking.Tracks d P → ∀ r q x p t,
    Tracking.Tracks (after (Derived.learn r q x p t) d) P

section Util

variable {E : Type} {u : UtilEstimator E} {P : Pairs}
  {cs : ExtTreeMap String UtilEstimator.ComputerDescriptor}

theorem UtilEstimator.Tracks.new (t : ℚ) (n : Nat) :
    (UtilEstimator.new t n : UtilEstimator E).Tracks fun _ _ => False := by
  refine ⟨⟨?_, ?_⟩, ?_⟩
  · simp [UtilEstimator.new]
  · intro d c hc
    simp [UtilEstimator.new] at hc
  · simp [UtilEstimator.new]

theorem Serving.add (h : Serving cs P) (l d : String) :
    Serving (cs.insert d { cs.getD d ⟨∅, 0, 0⟩ with
      theLambdas := (cs.getD d ⟨∅, 0, 0⟩).theLambdas.insert l }) (P.with l d) := by
  constructor
  · intro d'
    rw [Maps.mem_insert, h.computers]
    constructor
    · rintro (rfl | ⟨l', hl'⟩)
      · exact ⟨l, .inl ⟨rfl, rfl⟩⟩
      · exact ⟨l', .inr hl'⟩
    · rintro ⟨l', ⟨-, hd⟩ | hl'⟩
      · exact .inl hd
      · exact .inr ⟨l', hl'⟩
  · intro d' c hc l'
    rw [Maps.lookup_insert] at hc
    split at hc
    · next hd =>
      subst hd
      cases hc
      -- a computer that is new serves nothing yet
      have hold : l' ∈ (cs.getD d' ⟨∅, 0, 0⟩).theLambdas ↔ P l' d' := by
        rw [ExtTreeMap.getD_eq_getD_getElem?]
        cases hcs : cs[d']? with
        | some c => exact h.lambdas hcs l'
        | none =>
          have hnone : ¬ P l' d' := by
            intro hp
            have hmem := (h.computers d').mpr ⟨l', hp⟩
            rw [ExtTreeMap.mem_iff_isSome_getElem?, hcs] at hmem
            cases hmem
          simp [hnone]
      simp only [ExtTreeSet.mem_insert, LawfulEqCmp.compare_eq_iff_eq, Pairs.with, and_true,
        eq_comm (a := l), hold]
    · next hd =>
      rw [h.lambdas hc]
      simp [Pairs.with, hd]

theorem UtilEstimator.Tracks.add (h : u.Tracks P) (l d : String) :
    (u.add l d).Tracks (P.with l d) := by
  refine ⟨h.toServing.add l d, fun l' d' => ?_⟩
  simp only [UtilEstimator.add, DestinationTable.known_add, h.table, Pairs.with]

theorem Serving.congr {Q : Pairs} (h : Serving cs P) (hPQ : ∀ l d, Q l d ↔ P l d) : Serving cs Q := by
  constructor
  · intro d
    simp only [h.computers, hPQ]
  · intro d c hc l
    rw [h.lambdas hc, hPQ]

theorem UtilEstimator.Tracks.remove (h : u.Tracks P) (l d : String) :
    (u.remove l d).Tracks (P.without l d) := by
  refine ⟨?_, fun l' d' => ?_⟩
  swap
  · simp only [UtilEstimator.remove, DestinationTable.known_remove, h.table, Pairs.without]
  simp only [UtilEstimator.remove]
  cases hc : u.theComputers[d]? with
  | none =>
    apply h.toServing.congr
    intro l' d'
    constructor
    · exact And.right
    · intro hp
      refine ⟨?_, hp⟩
      rintro ⟨rfl, rfl⟩
      have hmem := (h.computers d').mpr ⟨l', hp⟩
      rw [ExtTreeMap.mem_iff_isSome_getElem?, hc] at hmem
      cases hmem
  | some c =>
    -- the lambdas left on the computer
    have hleft (l' : String) : l' ∈ c.theLambdas.erase l ↔ P.without l d l' d := by
      rw [ExtTreeSet.mem_erase, h.lambdas hc]
      simp only [Pairs.without, and_true, eq_comm (a := l), ne_eq, LawfulEqCmp.compare_eq_iff_eq]
    have hother {d' : String} (hd : d' ≠ d) (l' : String) : P.without l d l' d' ↔ P l' d' := by
      simp [Pairs.without, hd]
    dsimp only
    split
    · next hempty =>
      have hnone (l' : String) : ¬ P.without l d l' d := by
        rw [← hleft, ExtTreeSet.isEmpty_iff.mp hempty]
        exact ExtTreeSet.not_mem_empty
      constructor
      · intro d'
        rw [Maps.mem_erase]
        by_cases hd : d' = d
        · subst hd
          simp [hnone]
        · simp only [hother hd, h.computers, ne_eq, hd, not_false_eq_true, true_and]
      · intro d' c' hc'
        rw [Maps.lookup_erase] at hc'
        split at hc'
        · cases hc'
        · next hd =>
          intro l'
          rw [h.lambdas hc', hother hd]
    · next hne =>
      constructor
      · intro d'
        rw [Maps.mem_insert]
        by_cases hd : d' = d
        · subst hd
          simp only [true_or, true_iff, ← hleft]
          by_contra hnone
          rw [not_exists] at hnone
          have hempty := ExtTreeSet.eq_empty_iff_forall_not_mem.mpr hnone
          rw [hempty] at hne
          exact hne rfl
        · simp only [hother hd, h.computers, hd, false_or]
      · intro d' c' hc' l'
        rw [Maps.lookup_insert] at hc'
        split at hc'
        · next hd =>
          subst hd
          cases hc'
          exact hleft l'
        · next hd => rw [h.lambdas hc', hother hd]

/-- Loads and times do not matter here. -/
theorem Serving.refresh (h : Serving cs P) {d : String} {c c' : UtilEstimator.ComputerDescriptor}
    (hc : cs[d]? = some c) (hlambdas : c'.theLambdas = c.theLambdas) : Serving (cs.insert d c') P := by
  constructor
  · intro d'
    rw [Maps.mem_insert, ← h.computers]
    constructor
    · rintro (rfl | hd)
      · exact Maps.mem_of_lookup hc
      · exact hd
    · exact .inr
  · intro d' x hx l
    rw [Maps.lookup_insert] at hx
    split at hx
    · next hd =>
      subst hd
      cases hx
      rw [hlambdas, h.lambdas hc]
    · exact h.lambdas hx l

theorem Serving.modify (h : Serving cs P) (d : String)
    {f : UtilEstimator.ComputerDescriptor → UtilEstimator.ComputerDescriptor}
    (hf : ∀ c, (f c).theLambdas = c.theLambdas) : Serving (cs.modify d f) P := by
  constructor
  · intro d'
    rw [ExtTreeMap.mem_modify, h.computers]
  · intro d' x hx l
    simp only [ExtTreeMap.getElem?_modify, LawfulEqCmp.compare_eq_iff_eq] at hx
    split at hx
    · next hd =>
      subst hd
      obtain ⟨c, hc, rfl⟩ := Option.map_eq_some_iff.mp hx
      rw [hf, h.lambdas hc]
    · exact h.lambdas hx l

theorem lastLoad_lambdas (t n : ℚ) (c : UtilEstimator.ComputerDescriptor) :
    (c.lastLoad t n).2.theLambdas = c.theLambdas := by
  unfold UtilEstimator.ComputerDescriptor.lastLoad
  split
  · rfl
  · rfl

variable [LinearEstimator E]

theorem Serving.ptime (h : Serving cs P) (t : ℚ) (r : Clocks) (n : Nat)
    (x : UtilEstimator.LambdaDescriptor E) :
    Serving (UtilEstimator.LambdaDescriptor.ptime t r n x cs).2 P := by
  unfold UtilEstimator.LambdaDescriptor.ptime
  cases hc : cs[x.theDestination]? with
  | none => exact h
  | some c =>
    have hrefresh := h.refresh hc (lastLoad_lambdas t (r x.theDestination) c)
    dsimp only
    split
    · exact hrefresh
    · exact hrefresh

theorem leastTime_mem (vs ps : List (String × ℚ)) :
    (UtilEstimator.leastTime vs ps).1 = "" ∨
      (UtilEstimator.leastTime vs ps).1 ∈ vs.map Prod.fst := by
  have h : ∀ (xs : List ((String × ℚ) × (String × ℚ))) (b : (String × ℚ × ℚ) × ℚ),
      (xs.foldl (fun (b : (String × ℚ × ℚ) × ℚ) x => if x.1.2 + x.2.2 < b.2
        then ((x.1.1, x.1.2, x.2.2), x.1.2 + x.2.2) else b) b).1.1 = b.1.1 ∨
      ∃ x ∈ xs, (xs.foldl (fun (b : (String × ℚ × ℚ) × ℚ) x => if x.1.2 + x.2.2 < b.2
        then ((x.1.1, x.1.2, x.2.2), x.1.2 + x.2.2) else b) b).1.1 = x.1.1 := by
    intro xs
    induction xs with
    | nil => exact fun b => .inl rfl
    | cons x xs ih =>
      intro b
      rw [List.foldl_cons]
      rcases ih (if x.1.2 + x.2.2 < b.2 then ((x.1.1, x.1.2, x.2.2), x.1.2 + x.2.2) else b) with
        h | ⟨y, hy, h⟩
      · rw [h]
        split
        · exact .inr ⟨x, List.mem_cons_self, rfl⟩
        · exact .inl rfl
      · exact .inr ⟨y, List.mem_cons_of_mem _ hy, h⟩
  rcases h (vs.zip ps) (("", 0, 0), largest) with h | ⟨x, hx, h⟩
  · exact .inl h
  · refine .inr (List.mem_map.mpr ⟨x.1, ?_, h.symm⟩)
    exact (List.of_mem_zip hx).1

theorem UtilEstimator.Tracks.best (h : u.Tracks P) {r : Clocks} {l : String} {n : Nat}
    {vs : List (String × ℚ)} {b : String × ℚ × ℚ} {u' : UtilEstimator E}
    (hbest : u.best r l n vs = .ok (b, u')) :
    (b.1 = "" ∨ b.1 ∈ vs.map Prod.fst) ∧ u'.Tracks P := by
  unfold UtilEstimator.best at hbest
  obtain ⟨⟨ps, t, cs⟩, hrun, hret⟩ := Checks.bind_ok.mp hbest
  cases hret
  obtain ⟨-, hknown, hserving⟩ := DestinationTable.all_spec (P := fun cs => Serving cs P)
    u.theTable l (fun x cs hcs => hcs.ptime u.theLoadTimeout r n x) h.toServing hrun
  refine ⟨leastTime_mem vs ps, ⟨hserving, fun l' d' => ?_⟩⟩
  rw [hknown, h.table]

theorem UtilEstimator.Tracks.smallestPtime (h : u.Tracks P) {r : Clocks} {l : String} {n : Nat}
    {b : String × ℚ} {u' : UtilEstimator E} (hbest : u.smallestPtime r l n = .ok (b, u')) :
    (b.1 = "" ∨ P l b.1) ∧ u'.Tracks P := by
  unfold UtilEstimator.smallestPtime at hbest
  obtain ⟨⟨b', t, cs⟩, hrun, hret⟩ := Checks.bind_ok.mp hbest
  cases hret
  obtain ⟨hmem, hknown, hserving⟩ := DestinationTable.best_spec (P := fun cs => Serving cs P)
    u.theTable l (by exact fun x cs hcs => hcs.ptime u.theLoadTimeout r n x) h.toServing hrun
  refine ⟨hmem.imp_right (h.table l _).mp, ⟨hserving, fun l' d' => ?_⟩⟩
  rw [hknown, h.table]

theorem UtilEstimator.Tracks.addPtime (h : u.Tracks P) {r : Clocks} {l d : String} {n k : Nat}
    {v : ℚ} {u' : UtilEstimator E} (hadd : u.addPtime r l d n v k = .ok u') : u'.Tracks P := by
  unfold UtilEstimator.addPtime at hadd
  obtain ⟨t, hrun, hret⟩ := Checks.bind_ok.mp hadd
  cases hret
  refine ⟨?_, fun l' d' => ?_⟩
  · exact h.toServing.modify d fun c => rfl
  · rw [DestinationTable.update_spec hrun, h.table]

end Util

section Instances

variable {E : Type} [LinearEstimator E]

/-- What an estimator inside the state returns or throws. -/
theorem wp_ofExcept_bind {D A B : Type} {x : Except String A} {f : A → EStateM String D B}
    {Q : B → D → Prop} {F : String → D → Prop} {s : D} (hok : ∀ a, x = .ok a →
      wp (fun _ => False) (f a) Q F s) (herr : ∀ err, x = .error err → F err s) :
    wp (fun _ => False) (ofExcept x >>= f) Q F s := by
  cases x with
  | ok a => exact hok a rfl
  | error err => exact wp_throw (herr err rfl)

theorem RttEstimator.shortestRtt_spec {e e' : RttEstimator E} {r : Clocks} {l : String} {n : Nat}
    {b : String × ℚ} (h : e.shortestRtt r l n = .ok (b, e')) :
    (b.1 = "" ∨ e.theTable.Known l b.1) ∧
      ∀ l' d', e'.theTable.Known l' d' ↔ e.theTable.Known l' d' := by
  unfold RttEstimator.shortestRtt at h
  obtain ⟨⟨b', t, u⟩, hrun, hret⟩ := Checks.bind_ok.mp h
  cases hret
  obtain ⟨hmem, hknown, -⟩ := DestinationTable.best_spec (P := fun _ => True) e.theTable l
    (fun _ _ _ => trivial) trivial hrun
  exact ⟨hmem, hknown⟩

theorem RttEstimator.rtts_spec {e e' : RttEstimator E} {r : Clocks} {l : String} {n : Nat}
    {vs : List (String × ℚ)} (h : e.rtts r l n = .ok (vs, e')) :
    (∀ d, d ∈ vs.map Prod.fst ↔ e.theTable.Known l d) ∧
      ∀ l' d', e'.theTable.Known l' d' ↔ e.theTable.Known l' d' := by
  unfold RttEstimator.rtts at h
  obtain ⟨⟨vs', t, u⟩, hrun, hret⟩ := Checks.bind_ok.mp h
  cases hret
  obtain ⟨hmem, hknown, -⟩ := DestinationTable.all_spec (P := fun _ => True) e.theTable l
    (fun _ _ _ => trivial) trivial hrun
  exact ⟨hmem, hknown⟩

theorem RttEstimator.addRtt_spec {e e' : RttEstimator E} {r : Clocks} {l d : String} {n : Nat}
    {v : ℚ} (h : e.addRtt r l d n v = .ok e') (l' d' : String) :
    e'.theTable.Known l' d' ↔ e.theTable.Known l' d' := by
  unfold RttEstimator.addRtt at h
  obtain ⟨t, hrun, hret⟩ := Checks.bind_ok.mp h
  cases hret
  exact DestinationTable.update_spec hrun l' d'

instance : LawfulDerived (PtimeEstimatorRtt E) where
  add h l x l' x' := (DestinationTable.known_add _ _ _ _ _).trans (or_congr Iff.rfl (h l' x'))
  choose h r q := by
    refine wp_get_bind (wp_ofExcept_bind ?_ fun _ _ => h)
    rintro ⟨b, e'⟩ hrun
    obtain ⟨hmem, hknown⟩ := RttEstimator.shortestRtt_spec hrun
    exact .inr ⟨hmem.imp_right (h _ _).mp, fun l d => (hknown l d).trans (h l d)⟩
  learn h r q x p t := by
    apply after_of_wp (P := fun d => Tracking.Tracks d _)
    refine wp_get_bind (wp_ofExcept_bind ?_ fun _ _ => h)
    intro e' hrun
    exact .inr fun l d => (RttEstimator.addRtt_spec hrun l d).trans (h l d)

instance : LawfulDerived (PtimeEstimatorUtil E) where
  add h l x := ⟨fun l' x' => (DestinationTable.known_add _ _ _ _ _).trans
    (or_congr Iff.rfl (h.1 l' x')), h.2.add l x⟩
  choose h r q := by
    refine wp_get_bind (wp_ofExcept_bind ?_ fun _ _ => h)
    rintro ⟨vs, e'⟩ hrun
    obtain ⟨hmem, hknown⟩ := RttEstimator.rtts_spec hrun
    have hrtt (l d : String) := (hknown l d).trans (h.1 l d)
    refine wp_modify_bind (wp_get_bind (wp_ofExcept_bind ?_ fun _ _ => ⟨hrtt, h.2⟩))
    rintro ⟨b, u'⟩ hbest
    obtain ⟨hb, hu⟩ := UtilEstimator.Tracks.best h.2 hbest
    exact .inr ⟨hb.imp_right fun hb => (h.1 _ _).mp ((hmem _).mp hb), hrtt, hu⟩
  learn h r q x p t := by
    apply after_of_wp (P := fun d => Tracking.Tracks d _)
    refine wp_get_bind (wp_ofExcept_bind ?_ fun _ _ => h)
    intro u' hu
    refine wp_modify_bind (wp_get_bind (wp_ofExcept_bind ?_ fun _ _ => ⟨h.1, h.2.addPtime hu⟩))
    intro e' hrun
    exact .inr ⟨fun l d => (RttEstimator.addRtt_spec hrun l d).trans (h.1 l d), h.2.addPtime hu⟩

instance : LawfulDerived (PtimeEstimatorDelay E) where
  add h l x := UtilEstimator.Tracks.add h l x
  choose h r q := by
    refine wp_get_bind (wp_ofExcept_bind ?_ fun _ _ => h)
    rintro ⟨b, u'⟩ hrun
    exact .inr (UtilEstimator.Tracks.smallestPtime h hrun)
  learn h r q x p t := by
    apply after_of_wp (P := fun d => Tracking.Tracks d _)
    refine wp_get_bind (wp_ofExcept_bind ?_ fun _ _ => h)
    intro u' hu
    exact .inr (UtilEstimator.Tracks.addPtime h hu)

/-- The destination polled is one of those given, or the initial one. -/
theorem PtimeEstimatorProbe.poll_mem {r : Readings} (ds : List String) {b b' : String × Nat}
    (h : poll r ds b = .ok b') : b'.1 = b.1 ∨ b'.1 ∈ ds := by
  induction ds generalizing b with
  | nil =>
    cases h
    exact .inl rfl
  | cons d ds ih =>
    obtain ⟨ret, -, hrest⟩ := Checks.bind_ok.mp h
    split at hrest
    · rcases ih hrest with h | h
      · exact .inr (List.mem_cons.mpr (.inl h))
      · exact .inr (List.mem_cons_of_mem _ h)
    · exact (ih hrest).imp_right (List.mem_cons_of_mem _)

instance : LawfulDerived PtimeEstimatorProbe where
  add h l x l' x' := (DestinationTable.known_add _ _ _ _ _).trans (or_congr Iff.rfl (h l' x'))
  choose h r q := by
    refine wp_get_bind (wp_ofExcept_bind ?_ fun _ _ => h)
    rintro ⟨vs, t, u⟩ hrun
    obtain ⟨hmem, hknown, -⟩ := DestinationTable.all_spec (P := fun _ => True) _ _
      (fun _ _ _ => trivial) trivial hrun
    have ht (l d : String) := (hknown l d).trans (h l d)
    refine wp_ofExcept_bind (fun b hb => ?_) fun _ _ => ht
    refine .inr ⟨?_, ht⟩
    exact (PtimeEstimatorProbe.poll_mem _ hb).imp_right fun hb => (h _ _).mp ((hmem _).mp hb)
  learn h r q x p t := h

end Instances

/-- Removals take their pair out of what is known. -/
def Forgets (D : Type) [Derived D] [Tracking D] : Prop := ∀ {d : D} {P : Pairs},
  Tracking.Tracks d P → ∀ l x, Tracking.Tracks (Derived.privateRemove l x d) (P.without l x)

section Forgetting

variable {E : Type} [LinearEstimator E]

theorem forgets_rtt : Forgets (PtimeEstimatorRtt E) := by
  intro e P h l x l' x'
  exact (DestinationTable.known_remove _ _ _ _ _).trans (and_congr Iff.rfl (h l' x'))

theorem forgets_util : Forgets (PtimeEstimatorUtil E) := by
  intro e P h l x
  refine ⟨fun l' x' => ?_, h.2.remove l x⟩
  exact (DestinationTable.known_remove _ _ _ _ _).trans (and_congr Iff.rfl (h.1 l' x'))

theorem forgets_delay : Forgets (PtimeEstimatorDelay E) := fun h l x =>
  UtilEstimator.Tracks.remove h l x

end Forgetting

end ServerlessEdge.Estimator
