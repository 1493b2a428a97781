import ServerlessEdge.Library.Pools
import ServerlessEdge.LambdaMuSim.DynamicRuns

/-! The replications of a simulation in a pool of threads, which append their performance to the
data of the run as they end. -/
namespace ServerlessEdge.LambdaMuSim
open Library Pools

/-- What is simulated, with the numbers that are drawn with the seed. -/
inductive Analysis (B : ℕ) where
  | Snapshot (aAlpha aBeta : ℚ) (myNumLambda myNumMu : ℕ)
      (apps : Scenario.Population B (myNumLambda + myNumMu)) (rnd : ℕ → ℕ → ℚ)
  | Dynamic (args : DynamicArgs) (aPeriods : List (List ℚ)) (A : ℕ) (apps : Scenario.Population B A)
      (draws : Draws aPeriods A)

namespace Simulation

structure Desc (B E : ℕ) where
  theSeed : ℕ
  theApps : ℕ
  theScenario : Scenario B E theApps
  theAnalysis : Analysis B

/-- The scenarios and the data of a run. -/
structure Replications (B E : ℕ) where
  theDesc : List (Desc B E)
  theData : List (ℕ × PerformanceData)

variable {B E : ℕ} (env : Env) (steps : ℕ)

/-- What a replication ends with, unless its loop goes on after that many iterations. -/
def perform (myDesc : Desc B E) : Option (Except String PerformanceData) :=
  match myDesc.theAnalysis with
  | .Snapshot aAlpha aBeta myNumLambda myNumMu apps rnd =>
    some ((myDesc.theScenario.snapshot env aAlpha aBeta myNumLambda myNumMu apps rnd).map Prod.fst)
  | .Dynamic args aPeriods _ apps draws =>
    match Dynamic.start env myDesc.theScenario args aPeriods apps draws with
    | .error what => some (.error what)
    | .ok d =>
      match Dynamic.after env args steps d with
      | .error what => some (.error what)
      | .ok d' => if d'.myClock < args.aDuration then none else some (.ok d'.output)

/-- The record of a replication that throws no exception. -/
def record (myDesc : Desc B E) : Option (ℕ × PerformanceData) :=
  match perform env steps myDesc with
  | some (.ok myPerformanceData) => some (myDesc.theSeed, myPerformanceData)
  | _ => none

/-- What a thread does with a number from the queue. -/
def work (myId : ℕ) (m : Replications B E) : Option (Bool × Replications B E) :=
  match m.theDesc[myId]? with
  | none => none
  | some myDesc =>
    match perform env steps myDesc with
    | none => none
    | some (.error _) => some (false, m)
    | some (.ok myPerformanceData) =>
      some (true, { m with theData := m.theData ++ [(myDesc.theSeed, myPerformanceData)] })

def verdict (c : Pools.Call (Replications B E)) (i : ℕ) : Bool :=
  (c.memory.theDesc[i]?.bind (record env steps)).isSome

/-- The call of a run, which first removes the data of the one before. -/
def call (theDesc : List (Desc B E)) : Pools.Call (Replications B E) :=
  ⟨theDesc.length, theDesc, []⟩

variable {env steps}

theorem work_eq_some {i : ℕ} {m m' : Replications B E} {good : Bool}
    (h : work env steps i m = some (good, m')) :
    good = (m.theDesc[i]?.bind (record env steps)).isSome ∧ m'.theDesc = m.theDesc ∧
      m'.theData = m.theData ++ (m.theDesc[i]?.bind (record env steps)).toList := by
  rw [work] at h
  split at h
  · cases h
  · rename_i myDesc hdesc
    rw [hdesc, Option.bind_some, record]
    split at h
    · cases h
    · rename_i what hrun
      cases h
      rw [hrun]
      exact ⟨rfl, rfl, (List.append_nil _).symm⟩
    · rename_i myPerformanceData hrun
      cases h
      rw [hrun]
      exact ⟨rfl, rfl, rfl⟩

/-- The data are the records of the replications in the order in which these have ended. -/
theorem performs_data {m₀ m : Replications B E} {ran : List (ℕ × Bool)}
    (h : Pool.Performs (work env steps) m₀ ran m) : m.theDesc = m₀.theDesc ∧
      m.theData = m₀.theData ++
        (ran.map Prod.fst).filterMap (fun i => m₀.theDesc[i]?.bind (record env steps)) ∧
      ∀ x ∈ ran, x.2 = (m₀.theDesc[x.1]?.bind (record env steps)).isSome := by
  induction h with
  | nil => exact ⟨rfl, (List.append_nil _).symm, List.forall_mem_nil _⟩
  | @snoc ran m m' i good h hwork ih =>
    obtain ⟨hdesc, hdata, hverdicts⟩ := ih
    obtain ⟨hgood, hdesc', hdata'⟩ := work_eq_some hwork
    rw [hdesc] at hgood hdata'
    refine ⟨hdesc'.trans hdesc, ?_, fun x hx => ?_⟩
    · rw [hdata', hdata, List.map_append, List.filterMap_append, List.append_assoc]
      cases hrecord : m₀.theDesc[i]?.bind (record env steps) <;> simp [hrecord]
    · rcases List.mem_append.mp hx with hold | hnew
      · exact hverdicts x hold
      · rw [List.mem_singleton.mp hnew]
        exact hgood

theorem steady : Pool.Steady (work (B := B) (E := E) env steps) (verdict env steps) := by
  intro c ran m h _ _ x hx
  exact (performs_data h).2.2 x hx

theorem range_filterMap {α β : Type} (l : List α) (f : α → Option β) :
    (List.range l.length).filterMap (fun i => l[i]?.bind f) = l.filterMap f := by
  induction l with
  | nil => rfl
  | cons a l ih =>
    rw [List.length_cons, List.range_succ_eq_map, List.filterMap_cons, List.filterMap_map]
    have hrest : ((fun i => (a :: l)[i]?.bind f) ∘ Nat.succ) = fun i => l[i]?.bind f := by
      funext i
      rfl
    rw [hrest, ih, List.filterMap_cons]
    rfl

/-- The data of a run are the records of all replications, in some order. -/
theorem data_done {theDesc : List (Desc B E)} {m : Replications B E}
    (h : Pool.Done (work env steps) (call theDesc) m) :
    m.theData.Perm (theDesc.filterMap (record env steps)) := by
  obtain ⟨ran, hperforms, hperm⟩ := h
  obtain ⟨-, hdata, -⟩ := performs_data hperforms
  have hrecords := hperm.filterMap fun i => theDesc[i]?.bind (record env steps)
  rw [show (call theDesc).total = theDesc.length from rfl, range_filterMap] at hrecords
  rw [hdata]
  exact hrecords

theorem allGood_call (theDesc : List (Desc B E)) :
    Pool.AllGood (verdict env steps) (call theDesc) =
      theDesc.all fun myDesc => (record env steps myDesc).isSome := by
  rw [Bool.eq_iff_iff, Pool.AllGood, List.all_eq_true, List.all_eq_true]
  constructor
  · intro h d hd
    obtain ⟨i, hi⟩ := List.mem_iff_getElem?.mp hd
    obtain ⟨hlt, -⟩ := List.getElem?_eq_some_iff.mp hi
    have hgood := h i (List.mem_range.mpr hlt)
    simp only [verdict, call, hi, Option.bind_some] at hgood
    exact hgood
  · intro h i hi
    have hget := List.getElem?_eq_getElem (List.mem_range.mp hi)
    have hgood := h _ (List.getElem_mem (List.mem_range.mp hi))
    simp only [verdict, call] at hget ⊢
    rw [hget, Option.bind_some]
    exact hgood

/-- The calls of some runs. -/
def calls (runs : List (List (Desc B E))) : List (Pools.Call (Replications B E)) := runs.map call

/-- However the threads take turns, as long as no run but the last has replications that throw
exceptions: the file of each run holds the records of all of its replications, each one time,
though in the order in which they have ended, and there is no file for a run with a replication
that throws. -/
theorem saved_records {n : ℕ} {m : Replications B E} {es : List (Pools.Event (Replications B E))}
    {p : Pool (Replications B E)} {runs : List (List (Desc B E))}
    (h : Pool.Reaches (work env steps) (Pool.new n m) es p) (hruns : callsOf es = calls runs)
    (hidle : p.main = .idle)
    (hprev : ∀ theDesc ∈ runs.dropLast, ∀ d ∈ theDesc, (record env steps d).isSome = true) :
    List.Forall₂ (fun theDesc m => m.theData.Perm (theDesc.filterMap (record env steps)))
      (runs.filter fun theDesc => theDesc.all fun d => (record env steps d).isSome) p.saved := by
  have hout := h.outcome steady hidle fun c hc => by
    rw [hruns, calls, ← List.map_dropLast] at hc
    obtain ⟨theDesc, hmem, rfl⟩ := List.mem_map.mp hc
    rw [allGood_call, List.all_eq_true]
    exact hprev theDesc hmem
  have hfilter : (calls runs).filter (Pool.AllGood (verdict env steps)) =
      (runs.filter fun theDesc => theDesc.all fun d => (record env steps d).isSome).map call := by
    rw [calls, List.filter_map]
    congr 1
    exact List.filter_congr fun theDesc _ => allGood_call theDesc
  rw [Pool.Outcome, hruns, hfilter, List.forall₂_map_left_iff] at hout
  exact hout.imp fun theDesc m hdone => data_done hdone

section Samples

/-- Two replications of a snapshot with a lambda app and a mu app. -/
def twoSnapshots : List (Desc 1 1) :=
  let mySnapshot : Analysis 1 :=
    .Snapshot (1 / 2) 1 1 1 ⟨fun _ => ⟨0, Nat.zero_lt_one⟩, fun _ => {}⟩ fun _ _ => 0
  [⟨7, 0, Dynamic.exampleScenario, mySnapshot⟩, ⟨8, 0, Dynamic.exampleScenario, mySnapshot⟩]

/-- The second replication ends before the first one. -/
def outOfTurn : List (Pools.Event (Replications 1 1)) :=
  [.call (call twoSnapshots), .dispatch, .take 1 0, .dispatch, .take 0 1, .work 0, .report 0, .work 1,
    .collect true, .report 1, .collect true, .finish]

theorem saved_records_outOfTurn : ∃ p,
    Pool.Reaches (work (.inOrder fun _ _ _ _ _ _ => 0) 0) (Pool.new 2 ⟨[], []⟩) outOfTurn p ∧
      (p.saved.map fun m => m.theData.map Prod.fst) = [[8, 7]] ∧
      List.Forall₂ (fun theDesc m => m.theData.Perm
        (theDesc.filterMap (record (.inOrder fun _ _ _ _ _ _ => 0) 0))) [twoSnapshots] p.saved := by
  have hrun : ∃ p, Pool.Reaches (work (.inOrder fun _ _ _ _ _ _ => 0) 0) (Pool.new 2 ⟨[], []⟩)
      outOfTurn p ∧ (p.main, p.saved.map fun m => m.theData.map Prod.fst) = (.idle, [[8, 7]]) := by
    have hsome : (outOfTurn.foldlM (Pool.step (work (.inOrder fun _ _ _ _ _ _ => 0) 0))
        (Pool.new 2 ⟨[], []⟩)).map (fun p => (p.main, p.saved.map fun m => m.theData.map Prod.fst)) =
          some (.idle, [[8, 7]]) := by decide +kernel
    exact Option.map_eq_some_iff.mp hsome
  obtain ⟨p, hrun, hparts⟩ := hrun
  rw [Prod.mk.injEq] at hparts
  obtain ⟨hidle, hsaved⟩ := hparts
  have hgood : (twoSnapshots.all fun d =>
      (record (.inOrder fun _ _ _ _ _ _ => 0) 0 d).isSome) = true := by decide +kernel
  have hcalls : callsOf outOfTurn = calls [twoSnapshots] := rfl
  have hrecords := saved_records hrun hcalls hidle (by simp)
  rw [List.filter_cons, if_pos hgood, List.filter_nil] at hrecords
  exact ⟨p, hrun, hsaved, hrecords⟩

end Samples

end Simulation

end ServerlessEdge.LambdaMuSim
