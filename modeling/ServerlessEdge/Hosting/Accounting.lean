import ServerlessEdge.Hosting.Computer

/-! The memory in use on a processor is that of the active tasks of its containers. -/
namespace ServerlessEdge.Hosting
open Std Library Messages
open ServerlessEdge.Computer (exampleRequest)

variable {R : Type}

/-- The memory that tasks need. -/
def memory (l : List Task) : ℕ := (l.map fun t => t.theMemory.toNat).sum

@[simp] theorem memory_nil : memory [] = 0 := rfl

@[simp] theorem memory_cons (t : Task) (l : List Task) :
    memory (t :: l) = t.theMemory.toNat + memory l := List.sum_cons

@[simp] theorem memory_append (l l' : List Task) : memory (l ++ l') = memory l + memory l' := by
  simp [memory]

/-- A task without its residual operations, which change while it is active. -/
def Task.kept (t : Task) : UInt64 × UInt64 × Rpc.LambdaResponse := (t.theId, t.theMemory, t.theResp)

theorem memory_of_perm {l l' : List Task} (h : (l.map Task.kept).Perm (l'.map Task.kept)) :
    memory l = memory l' := by
  have hm : ∀ l : List Task, memory l = ((l.map Task.kept).map fun x => x.2.1.toNat).sum := by
    intro l
    rw [memory, List.map_map]
    rfl
  rw [hm, hm]
  exact (h.map _).sum_eq

namespace Processor

/-- The memory in use does not exceed the total. -/
def Fits (p : Processor R) : Prop := p.theMemUsed ≤ p.theMemTotal

theorem memAvailable_toNat {p : Processor R} (h : p.Fits) :
    p.memAvailable.toNat = p.theMemTotal.toNat - p.theMemUsed.toNat := UInt64.toNat_sub_of_le _ _ h

/-- Memory that is available can be allocated without a wrap. -/
theorem allocated_toNat {p : Processor R} {aSize : UInt64} (hp : p.Fits)
    (h : ¬ p.memAvailable < aSize) :
    (p.allocated aSize).theMemUsed.toNat = p.theMemUsed.toNat + aSize.toNat ∧
      (p.allocated aSize).Fits := by
  have hle := UInt64.le_iff_toNat_le.mp (UInt64.not_lt.mp h)
  rw [memAvailable_toNat hp] at hle
  have hfits := UInt64.le_iff_toNat_le.mp hp
  have htotal := p.theMemTotal.toNat_lt
  have hadd : (p.theMemUsed + aSize).toNat = p.theMemUsed.toNat + aSize.toNat := by
    rw [UInt64.toNat_add, Nat.mod_eq_of_lt (by omega)]
  refine ⟨hadd, UInt64.le_iff_toNat_le.mpr ?_⟩
  show (p.theMemUsed + aSize).toNat ≤ p.theMemTotal.toNat
  omega

end Processor

namespace Container

/-- A task that becomes active is one more, and the others stay. -/
theorem makeActive_perm (t : Task) (mySum : UInt64) (l : List Task) :
    ∃ l', makeActive .wrapping t mySum l = .ok l' ∧
      (l'.map Task.kept).Perm ((t :: l).map Task.kept) := by
  induction l generalizing mySum with
  | nil => exact ⟨_, rfl, .refl _⟩
  | cons it l ih =>
    rw [makeActive]
    by_cases hgt : mySum + it.theResidualOps > t.theResidualOps
    · refine ⟨_, by simp only [Arithmetic.wrapping, Checks.ok_bind, hgt, if_true]; rfl, ?_⟩
      exact .refl _
    · obtain ⟨l', hok, hperm⟩ := ih (mySum + it.theResidualOps)
      refine ⟨it :: l', ?_, ?_⟩
      · simp only [Arithmetic.wrapping, Checks.ok_bind, hgt, if_false] at hok ⊢
        rw [hok]
        rfl
      · exact (hperm.cons it.kept).trans (.swap ..)

/-- The tasks, first come first served, for which so many workers and so much
memory are enough. -/
def served : ℕ → ℕ → List Task → List Task
  | _, _, [] => []
  | workers, available, t :: pending =>
    if workers = 0 ∨ available < t.theMemory.toNat then []
    else t :: served (workers - 1) (available - t.theMemory.toNat) pending

/-- The loop at the end of pop makes active what can be served, and what is
left waits for a worker or for memory. -/
theorem promote_spec (n : ℕ) {p : Processor R} (l pending : List Task) (hp : p.Fits)
    (hl : l.length ≤ n) : ∃ q l' rest, promote .wrapping n p l pending = .ok (q, l', rest) ∧
      pending = served (n - l.length) p.memAvailable.toNat pending ++ rest ∧
      (l'.map Task.kept).Perm
        ((served (n - l.length) p.memAvailable.toNat pending ++ l).map Task.kept) ∧
      q.theMemUsed.toNat = p.theMemUsed.toNat +
        memory (served (n - l.length) p.memAvailable.toNat pending) ∧
      q.theRunning = p.theRunning +
        (served (n - l.length) p.memAvailable.toNat pending).length ∧
      q.theMemTotal = p.theMemTotal ∧ q.Fits ∧ l'.length ≤ n ∧
      ∀ t rest', rest = t :: rest' → l'.length < n → q.memAvailable < t.theMemory := by
  induction pending generalizing p l with
  | nil => exact ⟨p, l, [], rfl, rfl, .refl _, rfl, rfl, rfl, hp, hl, nofun⟩
  | cons t pending ih =>
    rw [promote, served]
    by_cases hstop : l.length = n ∨ p.memAvailable < t.theMemory
    · have hstop' : n - l.length = 0 ∨ p.memAvailable.toNat < t.theMemory.toNat :=
        hstop.imp (by omega) UInt64.lt_iff_toNat_lt.mp
      rw [if_pos hstop, if_pos hstop']
      refine ⟨p, l, t :: pending, rfl, rfl, .refl _, rfl, rfl, rfl, hp, hl, ?_⟩
      intro t' rest' heq hlt
      cases heq
      exact hstop.resolve_left (by omega)
    · have hstop' : ¬ (n - l.length = 0 ∨ p.memAvailable.toNat < t.theMemory.toNat) := by
        intro h
        exact hstop (h.imp (by omega) UInt64.lt_iff_toNat_lt.mpr)
      obtain ⟨hused, hfits⟩ := Processor.allocated_toNat hp fun hlt => hstop (.inr hlt)
      obtain ⟨l₁, hok, hperm₁⟩ := makeActive_perm t 0 l
      have hlength : l₁.length = l.length + 1 := by
        have := hperm₁.length_eq
        simpa only [List.length_map, List.length_cons] using this
      have hfree : n - l₁.length = n - l.length - 1 := by omega
      have havailable : (p.allocated t.theMemory).memAvailable.toNat =
          p.memAvailable.toNat - t.theMemory.toNat := by
        rw [Processor.memAvailable_toNat hfits, Processor.memAvailable_toNat hp, hused]
        exact (Nat.sub_sub ..).symm
      obtain ⟨q, l', rest, hpromote, hsplit, hperm, hmem, hrun, htotal, hq, hl', hrest⟩ :=
        ih l₁ hfits (by omega)
      rw [hfree, havailable] at hsplit hperm hmem hrun
      rw [if_neg hstop, if_neg hstop', Processor.allocate_of_le fun hlt => hstop (.inr hlt)]
      simp only [Checks.ok_bind, hok]
      refine ⟨q, l', rest, hpromote, ?_, ?_, ?_, ?_, htotal, hq, hl', hrest⟩
      · rw [List.cons_append, ← hsplit]
      · refine hperm.trans ?_
        rw [List.map_append, List.cons_append, List.map_cons, List.map_append]
        refine (hperm₁.append_left _).trans ?_
        exact List.perm_middle
      · rw [hmem, hused, memory_cons, Nat.add_assoc]
      · rw [hrun, List.length_cons]
        show p.theRunning + 1 + _ = _
        omega

/-- The new task of a request that a container accepts. -/
def newTask (c : Container R) (q : LambdaRequirements) (aReq : LambdaRequest) (aId : UInt64) : Task :=
  ⟨aId, q.theMemory, q.theOperations, c.theLambda.execute aReq⟩

/-- A call of push throws only if the requirements of the request are refused. -/
theorem push_spec {p : Processor R} {c : Container R} (aReq : LambdaRequest) (aId : UInt64) :
    (∃ e, c.requirements p aReq = .error e ∧ c.push .wrapping p aReq aId = .error e) ∨
    ∃ q, c.requirements p aReq = .ok q ∧
      ((c.theActive.length = c.theNumWorkers ∨ p.memAvailable < q.theMemory) ∧
        c.push .wrapping p aReq aId =
          .ok (p, { c with thePending := c.thePending ++ [c.newTask q aReq aId] }) ∨
      ¬ (c.theActive.length = c.theNumWorkers ∨ p.memAvailable < q.theMemory) ∧
        ∃ l', (l'.map Task.kept).Perm ((c.newTask q aReq aId :: c.theActive).map Task.kept) ∧
          c.push .wrapping p aReq aId =
            .ok (p.allocated q.theMemory, { c with theActive := l' })) := by
  unfold push
  cases hreq : c.requirements p aReq with
  | error e => exact .inl ⟨e, rfl, rfl⟩
  | ok q =>
    refine .inr ⟨q, rfl, ?_⟩
    simp only [Checks.ok_bind]
    by_cases hwait : c.theActive.length = c.theNumWorkers ∨ p.memAvailable < q.theMemory
    · rw [if_pos hwait]
      exact .inl ⟨hwait, rfl⟩
    · obtain ⟨l', hok, hperm⟩ := makeActive_perm (c.newTask q aReq aId) 0 c.theActive
      rw [if_neg hwait, Processor.allocate_of_le fun hlt => hwait (.inr hlt)]
      refine .inr ⟨hwait, l', hperm, ?_⟩
      unfold newTask at hok
      simp only [Checks.ok_bind, hok]
      rfl

/-- The pending tasks that become active when the first active one is taken. -/
def servedByPop (p : Processor R) (c : Container R) (t : Task) : List Task :=
  served (c.theNumWorkers - (c.theActive.length - 1)) (p.memAvailable.toNat + t.theMemory.toNat)
    c.thePending

theorem pop_spec {p : Processor R} {c : Container R} {t : Task} {l : List Task}
    (hl : c.theActive = t :: l) (hp : p.Fits) (hused : t.theMemory ≤ p.theMemUsed)
    (hworkers : c.theActive.length ≤ c.theNumWorkers) :
    ∃ q l' rest, c.pop .wrapping p = (.ok t, q, { c with theActive := l', thePending := rest }) ∧
      c.thePending = c.servedByPop p t ++ rest ∧
      (l'.map Task.kept).Perm ((c.servedByPop p t ++ l).map Task.kept) ∧
      q.theMemUsed.toNat + t.theMemory.toNat = p.theMemUsed.toNat + memory (c.servedByPop p t) ∧
      q.theRunning = p.theRunning - 1 + (c.servedByPop p t).length ∧
      q.theMemTotal = p.theMemTotal ∧ q.Fits ∧ l'.length ≤ c.theNumWorkers ∧
      ∀ t' rest', rest = t' :: rest' → l'.length < c.theNumWorkers →
        q.memAvailable < t'.theMemory := by
  have hsub := UInt64.toNat_sub_of_le _ _ hused
  have hused' := UInt64.le_iff_toNat_le.mp hused
  have hp' := UInt64.le_iff_toNat_le.mp hp
  have hlength : c.theActive.length = l.length + 1 := by rw [hl, List.length_cons]
  let p' : Processor R :=
    { p with theMemUsed := p.theMemUsed - t.theMemory, theRunning := p.theRunning - 1 }
  have hfree : p.free t.theMemory = .ok p' := if_neg (UInt64.not_lt.mpr hused)
  have hfits : p'.Fits := by
    refine UInt64.le_iff_toNat_le.mpr ?_
    show (p.theMemUsed - t.theMemory).toNat ≤ p.theMemTotal.toNat
    omega
  have havailable : p'.memAvailable.toNat = p.memAvailable.toNat + t.theMemory.toNat := by
    rw [Processor.memAvailable_toNat hfits, Processor.memAvailable_toNat hp]
    show p.theMemTotal.toNat - (p.theMemUsed - t.theMemory).toNat = _
    omega
  have hserved : served (c.theNumWorkers - l.length) p'.memAvailable.toNat c.thePending =
      c.servedByPop p t := by
    rw [servedByPop, havailable, hlength, Nat.add_sub_cancel]
  obtain ⟨q, l', rest, hpromote, hsplit, hperm, hmem, hrun, htotal, hq, hl', hrest⟩ :=
    promote_spec c.theNumWorkers l c.thePending hfits (by omega)
  rw [hserved] at hsplit hperm hmem hrun
  refine ⟨q, l', rest, ?_, hsplit, hperm, ?_, hrun, htotal, hq, hl', hrest⟩
  · rw [pop, hl]
    simp only [hfree, hpromote]
    rfl
  · have hp'used : p'.theMemUsed.toNat = p.theMemUsed.toNat - t.theMemory.toNat := hsub
    omega

/-- The counters of the processor, of which m and n are due to other containers. -/
structure Balanced (m n : ℕ) (p : Processor R) (c : Container R) : Prop where
  used : p.theMemUsed.toNat = memory c.theActive + m
  running : p.theRunning = c.theActive.length + n
  fits : p.Fits
  workers : c.theActive.length ≤ c.theNumWorkers

variable {m n : ℕ} {p : Processor R} {c : Container R}

theorem Balanced.le_used (h : Balanced m n p c) {t : Task} {l : List Task}
    (hl : c.theActive = t :: l) : t.theMemory ≤ p.theMemUsed := by
  have hused := h.used
  rw [hl, memory_cons] at hused
  rw [UInt64.le_iff_toNat_le]
  omega

theorem Balanced.push (h : Balanced m n p c) {aReq : LambdaRequest} {aId : UInt64}
    {q : Processor R} {c' : Container R} (hpush : c.push .wrapping p aReq aId = .ok (q, c')) :
    Balanced m n q c' ∧ c'.theProcessor = c.theProcessor := by
  rcases push_spec aReq aId with ⟨e, -, herr⟩ | ⟨r, -, ⟨-, hok⟩ | ⟨hroom, l', hperm, hok⟩⟩
  · rw [herr] at hpush
    cases hpush
  · rw [hok] at hpush
    cases hpush
    exact ⟨⟨h.used, h.running, h.fits, h.workers⟩, rfl⟩
  · rw [hok] at hpush
    cases hpush
    have hlength := hperm.length_eq
    have hmemory := memory_of_perm hperm
    simp only [List.length_map, List.length_cons] at hlength
    rw [memory_cons] at hmemory
    have hallocated := Processor.allocated_toNat h.fits fun hlt => hroom (.inr hlt)
    have hfree : c.theActive.length ≠ c.theNumWorkers := fun heq => hroom (.inl heq)
    have hused := h.used
    have hrunning := h.running
    have hworkers := h.workers
    refine ⟨⟨?_, ?_, hallocated.2, ?_⟩, rfl⟩
    · rw [hallocated.1]
      have hnew : (c.newTask r aReq aId).theMemory = r.theMemory := rfl
      rw [hnew] at hmemory
      show _ = memory l' + m
      omega
    · show p.theRunning + 1 = l'.length + n
      omega
    · show l'.length ≤ c.theNumWorkers
      omega

theorem Balanced.pop (h : Balanced m n p c) {t : Task} {l : List Task}
    (hl : c.theActive = t :: l) : (c.pop .wrapping p).1 = .ok t ∧
      Balanced m n (c.pop .wrapping p).2.1 (c.pop .wrapping p).2.2 ∧
      (c.pop .wrapping p).2.2.theProcessor = c.theProcessor := by
  obtain ⟨q, l', rest, hpop, -, hperm, hmem, hrun, -, hq, hl', -⟩ :=
    pop_spec hl h.fits (h.le_used hl) h.workers
  have hlength := hperm.length_eq
  have hmemory := memory_of_perm hperm
  have hused := h.used
  have hrunning := h.running
  simp only [List.length_map, List.length_append] at hlength
  rw [memory_append] at hmemory
  rw [hl, memory_cons] at hused
  rw [hl, List.length_cons] at hrunning
  rw [hpop]
  refine ⟨rfl, ⟨?_, ?_, hq, hl'⟩, rfl⟩
  · show q.theMemUsed.toNat = memory l' + m
    omega
  · show q.theRunning = l'.length + n
    omega

/-- Time that passes changes residual operations only. -/
theorem advance_spec [Speed R] [DecidableLT R] {aElapsed : R} {c' : Container R}
    (h : c.advance .wrapping p aElapsed = .ok c') :
    c'.theActive.map Task.kept = c.theActive.map Task.kept ∧
      c' = { c with theActive := c'.theActive } := by
  unfold Container.advance at h
  split at h
  · cases h
  · cases hl : c.theActive with
    | nil =>
      rw [hl] at h
      cases h
      exact ⟨by rw [hl], rfl⟩
    | cons front l =>
      simp only [hl] at h
      split at h
      · cases h
        exact ⟨by rw [hl], rfl⟩
      · cases h
        exact ⟨rfl, rfl⟩

theorem Balanced.advance [Speed R] [DecidableLT R] (h : Balanced m n p c) {aElapsed : R}
    {c' : Container R} (hadvance : c.advance .wrapping p aElapsed = .ok c') :
    Balanced m n p c' ∧ c'.theProcessor = c.theProcessor := by
  obtain ⟨hkept, hc'⟩ := advance_spec hadvance
  have hmemory := memory_of_perm (.of_eq hkept)
  have hlength : c'.theActive.length = c.theActive.length := by
    have := congrArg List.length hkept
    simpa only [List.length_map] using this
  have hworkers : c'.theNumWorkers = c.theNumWorkers := by rw [hc']
  exact ⟨⟨by rw [hmemory, h.used], by rw [hlength, h.running], h.fits,
    by rw [hlength, hworkers]; exact h.workers⟩, by rw [hc']⟩

end Container

namespace Computer

def memoryOn (n _k : String) (c : Container R) : ℕ :=
  if c.theProcessor = n then memory c.theActive else 0

def tasksOn (n _k : String) (c : Container R) : ℕ :=
  if c.theProcessor = n then c.theActive.length else 0

/-- What the counters of each processor say about the containers on it. -/
structure Accounted (s : Computer R) : Prop where
  hosted : ∀ (k : String) c, s.theContainers[k]? = some c → c.theProcessor ∈ s.theProcessors
  used : ∀ (n : String) p, s.theProcessors[n]? = some p →
    p.theMemUsed.toNat = Maps.total (memoryOn n) s.theContainers
  running : ∀ (n : String) p, s.theProcessors[n]? = some p →
    p.theRunning = Maps.total (tasksOn n) s.theContainers
  fits : ∀ (n : String) p, s.theProcessors[n]? = some p → p.Fits
  workers : ∀ (k : String) c, s.theContainers[k]? = some c →
    c.theActive.length ≤ c.theNumWorkers

namespace Accounted

variable {s : Computer R} {k : String} {p : Processor R} {c : Container R}

theorem exists_hosted (h : s.Accounted) (hc : s.theContainers[k]? = some c) :
    ∃ p, s.hosted k = some (p, c) := by
  obtain ⟨p, hp⟩ := Maps.lookup_of_mem (h.hosted k c hc)
  exact ⟨p, hosted_eq_some.mpr ⟨hc, hp⟩⟩

/-- The processor of a container accounts for it and for the other containers. -/
theorem balanced (h : s.Accounted) (hk : s.hosted k = some (p, c)) :
    Container.Balanced (Maps.total (memoryOn c.theProcessor) (s.theContainers.erase k))
      (Maps.total (tasksOn c.theProcessor) (s.theContainers.erase k)) p c := by
  obtain ⟨hc, hp⟩ := hosted_eq_some.mp hk
  have hused := h.used _ p hp
  have hrunning := h.running _ p hp
  rw [Maps.total_of_lookup _ hc] at hused hrunning
  rw [memoryOn, if_pos rfl] at hused
  rw [tasksOn, if_pos rfl] at hrunning
  exact ⟨hused, hrunning, h.fits _ p hp, h.workers k c hc⟩

/-- A call on one container leaves the accounts of the other processors alone. -/
theorem update (h : s.Accounted) (hk : s.hosted k = some (p, c)) {q : Processor R}
    {c' : Container R} (hsame : c'.theProcessor = c.theProcessor)
    (hb : Container.Balanced (Maps.total (memoryOn c.theProcessor) (s.theContainers.erase k))
      (Maps.total (tasksOn c.theProcessor) (s.theContainers.erase k)) q c') :
    (s.update k (q, c')).Accounted := by
  obtain ⟨hc, hp⟩ := hosted_eq_some.mp hk
  have hlookup (n : String) : (s.update k (q, c')).theProcessors[n]? =
      if n = c.theProcessor then some q else s.theProcessors[n]? := by
    rw [← hsame]
    exact Maps.lookup_insert ..
  have hcontainer (k' : String) : (s.update k (q, c')).theContainers[k']? =
      if k' = k then some c' else s.theContainers[k']? := Maps.lookup_insert ..
  have hother (n : String) (hn : n ≠ c.theProcessor) (f : Container R → ℕ) :
      Maps.total (fun _ c => if c.theProcessor = n then f c else 0) (s.update k (q, c')).theContainers =
        Maps.total (fun _ c => if c.theProcessor = n then f c else 0) s.theContainers := by
    show Maps.total _ (s.theContainers.insert k c') = _
    rw [Maps.total_insert, Maps.total_of_lookup _ hc, if_neg (hsame ▸ hn.symm), if_neg hn.symm]
  have hown (f : Container R → ℕ) : Maps.total
      (fun _ d => if d.theProcessor = c.theProcessor then f d else 0) (s.update k (q, c')).theContainers =
        f c' + Maps.total (fun _ d => if d.theProcessor = c.theProcessor then f d else 0)
          (s.theContainers.erase k) := by
    show Maps.total _ (s.theContainers.insert k c') = _
    rw [Maps.total_insert, if_pos hsame]
  refine ⟨fun k' d hd => ?_, fun n r hr => ?_, fun n r hr => ?_, fun n r hr => ?_,
    fun k' d hd => ?_⟩
  · rw [hcontainer] at hd
    have hmem : d.theProcessor ∈ s.theProcessors := by
      split at hd
      · cases hd
        exact hsame ▸ Maps.mem_of_lookup hp
      · exact h.hosted k' d hd
    exact Maps.mem_insert.mpr (.inr hmem)
  · rw [hlookup] at hr
    split at hr
    · rename_i hn
      subst hn
      cases hr
      exact hb.used.trans (hown fun d => memory d.theActive).symm
    · rename_i hn
      exact (h.used n r hr).trans (hother n hn fun d => memory d.theActive).symm
  · rw [hlookup] at hr
    split at hr
    · rename_i hn
      subst hn
      cases hr
      exact hb.running.trans (hown fun d => d.theActive.length).symm
    · rename_i hn
      exact (h.running n r hr).trans (hother n hn fun d => d.theActive.length).symm
  · rw [hlookup] at hr
    split at hr
    · cases hr
      exact hb.fits
    · exact h.fits n r hr
  · rw [hcontainer] at hd
    split at hd
    · cases hd
      exact hb.workers
    · exact h.workers k' d hd

/-- Nothing else of the state matters. -/
theorem congr (h : s.Accounted) {s' : Computer R} (hp : s'.theProcessors = s.theProcessors)
    (hc : s'.theContainers = s.theContainers) : s'.Accounted := by
  obtain ⟨hosted, used, running, fits, workers⟩ := h
  rw [← hp, ← hc] at hosted used running
  rw [← hp] at fits
  rw [← hc] at workers
  exact ⟨hosted, used, running, fits, workers⟩

theorem new (aName : String) : (Computer.new aName : Computer R).Accounted := by
  refine ⟨fun k c h => ?_, fun n p h => ?_, fun n p h => ?_, fun n p h => ?_, fun k c h => ?_⟩ <;>
    exact absurd h (by simp [Computer.new])

end Accounted

section Steps

variable [Speed R] [DecidableLT R]

theorem addTask_unknown {s : Computer R} (aElapsed : R) {aRequest : LambdaRequest}
    (hname : aRequest.theName ∉ s.theContainers) : addTask aElapsed aRequest s =
      .error ("No container for lambda " ++ aRequest.theName ++ " found in computer " ++ s.theName)
        s := by
  simp only [addTask, Triple.get_bind_apply, if_pos hname]
  rfl

/-- The identifier is taken before the request is looked at. -/
theorem addTask_known {s : Computer R} (aElapsed : R) {aRequest : LambdaRequest}
    (hname : aRequest.theName ∈ s.theContainers) : addTask aElapsed aRequest s = (do
      pause aElapsed
      pushAt aRequest.theName aRequest s.theNextId
      resume
      return s.theNextId : Op R UInt64)
        { s with theInitDone := true, theNextId := s.theNextId + 1 } := by
  simp only [addTask, Triple.get_bind_apply, if_neg (not_not.mpr hname)]
  rfl

theorem kept_accounted : Kept (Accounted : Computer R → Prop) where
  congr h hp hc := h.congr hp hc
  advance h hk hc := by
    obtain ⟨hb, hsame⟩ := (h.balanced hk).advance hc
    exact h.update hk hsame hb
  push h hk ht := by
    obtain ⟨hb, hsame⟩ := (h.balanced hk).push ht
    exact h.update hk hsame hb

omit [Speed R] [DecidableLT R] in
theorem stable_popAt (k : String) : Triple.Stable Accounted (popAt k : Op R Unit) := by
  intro s h
  simp only [Triple.after, popAt, Triple.get_bind_apply]
  cases hk : s.hosted k with
  | none => exact h
  | some t =>
    obtain ⟨p, c⟩ := t
    cases hl : c.theActive with
    | nil =>
      have hpop : c.pop .wrapping p = (.error "No active tasks", p, c) := by
        rw [Container.pop, hl]
        rfl
      simp only [hpop]
      exact h.update hk rfl (h.balanced hk)
    | cons t l =>
      obtain ⟨hok, hb, hsame⟩ := (h.balanced hk).pop hl
      simp only [hok]
      exact (h.update hk hsame hb).congr rfl rfl

variable [DecidableEq R]

omit [Speed R] [DecidableLT R] [DecidableEq R] in
/-- No container is on a processor that is not there yet. -/
private theorem Accounted.insert_processor {s : Computer R} (h : s.Accounted) {aName : String}
    (hnew : aName ∉ s.theProcessors) (aSpeed : R) (aCores : Nat) (aMem : UInt64) :
    ({ s with theProcessors := s.theProcessors.insert aName ⟨aSpeed, aCores, aMem, 0, 0⟩ } :
      Computer R).Accounted := by
  have hnone (f : Container R → ℕ) :
      Maps.total (fun _ c => if c.theProcessor = aName then f c else 0) s.theContainers = 0 := by
    refine Maps.total_eq_zero _ fun k c hc => if_neg fun hn => ?_
    exact hnew (hn ▸ h.hosted k c hc)
  refine ⟨fun k c hc => Maps.mem_insert.mpr (.inr (h.hosted k c hc)), fun n p hp => ?_,
    fun n p hp => ?_, fun n p hp => ?_, h.workers⟩
  · rw [Maps.lookup_insert] at hp
    split at hp
    · rename_i hn
      subst hn
      cases hp
      exact (hnone fun c => memory c.theActive).symm
    · exact h.used n p hp
  · rw [Maps.lookup_insert] at hp
    split at hp
    · rename_i hn
      subst hn
      cases hp
      exact (hnone fun c => c.theActive.length).symm
    · exact h.running n p hp
  · rw [Maps.lookup_insert] at hp
    split at hp
    · cases hp
      exact UInt64.zero_le
    · exact h.fits n p hp

omit [Speed R] [DecidableLT R] [DecidableEq R] in
/-- A new container has no active tasks. -/
private theorem Accounted.insert_container {s : Computer R} (h : s.Accounted) {k : String}
    {c : Container R} (hnew : k ∉ s.theContainers) (hactive : c.theActive = [])
    (hp : c.theProcessor ∈ s.theProcessors) :
    ({ s with theContainers := s.theContainers.insert k c } : Computer R).Accounted := by
  have htotal (n : String) (f : Container R → ℕ) (hf : f c = 0) :
      Maps.total (fun _ c => if c.theProcessor = n then f c else 0) (s.theContainers.insert k c) =
        Maps.total (fun _ c => if c.theProcessor = n then f c else 0) s.theContainers := by
    rw [Maps.total_insert, Maps.total_erase_of_not_mem _ hnew, hf, ite_self, Nat.zero_add]
  refine ⟨fun k' d hd => ?_, fun n p hn => ?_, fun n p hn => ?_, h.fits, fun k' d hd => ?_⟩
  · rw [Maps.lookup_insert] at hd
    split at hd
    · cases hd
      exact hp
    · exact h.hosted k' d hd
  · rw [h.used n p hn]
    exact (htotal n (fun d => memory d.theActive) (by rw [hactive, memory_nil])).symm
  · rw [h.running n p hn]
    exact (htotal n (fun d => d.theActive.length) (by rw [hactive, List.length_nil])).symm
  · rw [Maps.lookup_insert] at hd
    split at hd
    · cases hd
      rw [hactive]
      exact Nat.zero_le _
    · exact h.workers k' d hd

theorem Accounted.step {s : Computer R} (h : s.Accounted) (e : Event R) :
    (s.step e).Accounted := by
  cases e with
  | addProcessor aName aSpeed aCores aMem =>
    rcases addProcessor_spec s aName aSpeed aCores aMem with heq | ⟨hnew, heq⟩
    · rw [heq]
      exact h
    · rw [heq]
      exact h.insert_processor hnew aSpeed aCores aMem
  | addContainer aName aProcName aLambda aNumWorkers =>
    obtain ⟨hp, hc | ⟨hnew, hproc, hc⟩⟩ :=
      addContainer_spec s aName aProcName aLambda aNumWorkers rfl
    · exact h.congr hp hc
    · exact (h.insert_container hnew rfl hproc).congr hp hc
  | addTask aElapsed aRequest => exact kept_accounted.addTask h aElapsed aRequest
  | dispatch aElapsed =>
    exact kept_accounted.dispatch (P := fun _ _ => True) (fun s k h _ _ => stable_popAt k s h) h
      fun _ _ => trivial

/-- In every state of a computer the counters of its processors account for all
active tasks, and neither push nor pop fails to allocate or to free memory. -/
theorem processors_accounted (aName : String) (events : List (Event R)) :
    ∀ s ∈ Runs.states Computer.step (Computer.new aName) events, s.Accounted ∧
      ∀ k p c, s.hosted k = some (p, c) →
        (c.theActive ≠ [] → ∃ t, (c.pop .wrapping p).1 = .ok t) ∧
        ∀ aReq aId e, c.push .wrapping p aReq aId = .error e → c.requirements p aReq = .error e := by
  intro s hs
  have h := Runs.invariant (I := Accounted) (fun _ e h => h.step e) events (.new aName) s hs
  refine ⟨h, fun k p c hk => ⟨fun hne => ?_, fun aReq aId e herr => ?_⟩⟩
  · obtain ⟨t, l, hl⟩ := List.exists_cons_of_ne_nil hne
    exact ⟨t, ((h.balanced hk).pop hl).1⟩
  · rcases Container.push_spec aReq aId with ⟨e', hreq, hpush⟩ | ⟨q, hreq, ⟨-, hpush⟩ | ⟨-, l', -, hpush⟩⟩
    · rw [hpush] at herr
      cases herr
      exact hreq
    · rw [hpush] at herr
      cases herr
    · rw [hpush] at herr
      cases herr

end Steps

/-- A processor with so much memory hosts two functions that need ten bytes each. -/
def exampleSetup (aMem : UInt64) : List (Event ℚ) :=
  [.addProcessor "cpu0" 1 2 aMem,
    .addContainer "container0" "cpu0" ⟨⟨true, ""⟩, "f0", fixedRequirements 1 10⟩ 1,
    .addContainer "container1" "cpu0" ⟨⟨true, ""⟩, "f1", fixedRequirements 1 10⟩ 1]

/-- One task for each function, and one second for the first of them. -/
def exampleTasks : List (Event ℚ) :=
  [.addTask 0 (exampleRequest "" ∅), .addTask 0 { exampleRequest "" ∅ with theName := "f1" },
    .dispatch 1]

theorem processors_accounted_example :
    (Runs.final Computer.step (Computer.new "computer0")
      (exampleSetup 20 ++ exampleTasks)).Accounted ∧
    ∀ k p c, (Runs.final Computer.step (Computer.new "computer0")
        (exampleSetup 20 ++ exampleTasks)).hosted k = some (p, c) →
      (c.theActive ≠ [] → ∃ t, (c.pop .wrapping p).1 = .ok t) ∧
      ∀ aReq aId e, c.push .wrapping p aReq aId = .error e → c.requirements p aReq = .error e :=
  processors_accounted "computer0" _ _ (Runs.final_mem_states Computer.step _ _)

end Computer

end ServerlessEdge.Hosting
