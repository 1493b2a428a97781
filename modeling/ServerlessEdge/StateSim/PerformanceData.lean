import ServerlessEdge.Library.Binary
import ServerlessEdge.StateSim.Scenario

/-! The file of the performance data: what is saved is loaded again, and what is loaded from a
file that has been cut off. -/
namespace ServerlessEdge.StateSim.PerformanceData
open Library Binary Triple

/-- The data as they are in memory, the delays by the bits of their representation. -/
abbrev Data := PerformanceData UInt64 UInt64

def jobCodec : Codec (PerformanceData.Job UInt64 UInt64) :=
  ((Codec.word.pair Codec.word).pair (Codec.word.pair Codec.word)).rename
    (fun x => ⟨x.1.1, x.1.2, x.2.1, x.2.2⟩)
    (fun a => ((a.theProcDelay, a.theNetDelay), a.theDataTransfer, a.theChainSize)) fun _ => rfl

def numJobs (d : Data) : UInt64 := UInt64.ofNat d.theJobData.length

def numNodes (d : Data) : UInt64 := UInt64.ofNat d.theLoad.length

def theVersion : UInt64 := 2

def save (d : Data) : List UInt8 :=
  Codec.word.encode theVersion ++ Codec.word.encode (numJobs d) ++ jobCodec.encodeAll d.theJobData ++
    Codec.word.encode (numNodes d) ++ Codec.word.encodeAll d.theLoad

/-- The memory: what is in the variables before anything is read to them, and what is thrown, if
anything, when a number of bytes is allocated in addition to others. -/
structure Memory where
  myVersion : UInt64
  myNumJobs : UInt64
  myNumNodes : UInt64
  allocate : ℕ → ℕ → Except String Unit
  bounded : ∀ used n, allocate used n = .ok () → n < 2 ^ 64

/-- The bytes of a vector of that many elements, which are all zero. -/
def Memory.resize {α : Type} (mem : Memory) (c : Codec α) (used : ℕ) (n : UInt64) :
    Except Failure (List UInt8) := do
  (mem.allocate used (c.size * n.toNat)).mapError .thrown
  pure (List.replicate (c.size * n.toNat) 0)

def load (mem : Memory) : EStateM Failure Stream Data := do
  let myVersion ← readValue Codec.word mem.myVersion
  if myVersion ≠ theVersion then
    throw (.thrown ("Wrong version number: expected " ++ toString theVersion ++ ", found " ++
      toString myVersion))
  else do
    let myNumJobs ← readValue Codec.word mem.myNumJobs
    let myJobData ← MonadExcept.ofExcept (mem.resize jobCodec 0 myNumJobs)
    let myJobData ← read myJobData
    let myNumNodes ← readValue Codec.word mem.myNumNodes
    let myLoad ← MonadExcept.ofExcept (mem.resize Codec.word myJobData.length myNumNodes)
    let myLoad ← read myLoad
    pure ⟨jobCodec.decodeAll myNumJobs.toNat myJobData, Codec.word.decodeAll myNumNodes.toNat myLoad⟩

/-- There is room for another copy of the data. -/
def Memory.Holds (mem : Memory) (d : Data) : Prop :=
  mem.allocate 0 (32 * d.theJobData.length) = .ok () ∧
    mem.allocate (32 * d.theJobData.length) (8 * d.theLoad.length) = .ok ()

/-- The first bytes of a word, in front of the others of the one that was there before. -/
def mix (k : ℕ) (w stale : UInt64) : UInt64 :=
  Codec.word.decode ((Codec.word.encode w).take k ++ (Codec.word.encode stale).drop k)

/-- The file is cut off in the version or in one of the numbers, and what was in the memory in
their place makes another version, or a number of elements that cannot be allocated. -/
def Noticed (mem : Memory) (d : Data) (k : ℕ) : Prop :=
  mix k theVersion mem.myVersion ≠ theVersion ∨
  (∃ what, mem.allocate 0 (32 * (mix (k - 8) (numJobs d) mem.myNumJobs).toNat) = .error what) ∨
  ∃ what, mem.allocate (32 * (mix (k - 8) (numJobs d) mem.myNumJobs).toNat)
    (8 * (mix (k - (16 + 32 * d.theJobData.length)) (numNodes d) mem.myNumNodes).toNat) = .error what

section Loading

variable {mem : Memory} {file : List UInt8}

/-- The word at a position of a file, completed by what was in the memory before. -/
def wordAt (file : List UInt8) (o : ℕ) (stale : UInt64) : UInt64 :=
  Codec.word.decode (overlay (file.drop o) (Codec.word.encode stale))

/-- The elements at a position of a file, completed by zeros. -/
def elementsAt {α : Type} (c : Codec α) (file : List UInt8) (o n : ℕ) : List α :=
  c.decodeAll n (overlay (file.drop o) (List.replicate (c.size * n) 0))

theorem resize_cases {α : Type} (mem : Memory) (c : Codec α) (used : ℕ) (n : UInt64) :
    (∃ what, mem.allocate used (c.size * n.toNat) = .error what ∧
      mem.resize c used n = .error (.thrown what)) ∨
    mem.allocate used (c.size * n.toNat) = .ok () ∧
      mem.resize c used n = .ok (List.replicate (c.size * n.toNat) 0) := by
  rw [Memory.resize]
  cases mem.allocate used (c.size * n.toNat) with
  | error what => exact .inl ⟨what, rfl, rfl⟩
  | ok _ => exact .inr ⟨rfl, rfl⟩

theorem length_overlay {bytes mem : List UInt8} : (overlay bytes mem).length = mem.length := by
  rw [overlay, List.length_append, List.length_take, List.length_drop]
  omega

theorem readWord_at {o : ℕ} {s : Stream} (h : At file o s) (stale : UInt64) :
    ∃ s', (readValue Codec.word stale : EStateM Failure Stream UInt64) s =
      .ok (wordAt file o stale) s' ∧ At file (o + 8) s' :=
  readValue_at h Codec.word stale

theorem readElements_at {α : Type} (c : Codec α) {o : ℕ} {s : Stream} (h : At file o s) (n : ℕ) :
    ∃ s', (read (List.replicate (c.size * n) 0) : EStateM Failure Stream (List UInt8)) s =
      .ok (overlay (file.drop o) (List.replicate (c.size * n) 0)) s' ∧ At file (o + c.size * n) s' := by
  obtain ⟨s', hs', hat⟩ := @read_at Failure _ _ _ h (List.replicate (c.size * n) 0)
  rw [List.length_replicate] at hat
  exact ⟨s', hs', hat⟩

/-- Loading from a file throws for the version or for one of the numbers of elements, or else
returns what is in the file. -/
theorem load_cases (mem : Memory) (file : List UInt8) {v j n : UInt64}
    (hv : wordAt file 0 mem.myVersion = v) (hj : wordAt file 8 mem.myNumJobs = j)
    (hn : wordAt file (16 + 32 * j.toNat) mem.myNumNodes = n) :
    ((v ≠ theVersion ∨ (∃ what, mem.allocate 0 (32 * j.toNat) = .error what) ∨
        ∃ what, mem.allocate (32 * j.toNat) (8 * n.toNat) = .error what) ∧
      ∃ what s, load mem ⟨file, true⟩ = .error (.thrown what) s) ∨
    (v = theVersion ∧ mem.allocate 0 (32 * j.toNat) = .ok () ∧
        mem.allocate (32 * j.toNat) (8 * n.toNat) = .ok ()) ∧
      ∃ s, At file (16 + 32 * j.toNat + 8 + 8 * n.toNat) s ∧ load mem ⟨file, true⟩ =
        .ok ⟨elementsAt jobCodec file 16 j.toNat,
          elementsAt Codec.word file (16 + 32 * j.toNat + 8) n.toNat⟩ s := by
  obtain ⟨s₁, hs₁, hat₁⟩ := readWord_at (at_start file) mem.myVersion
  rw [hv] at hs₁
  rw [load, bind_of_ok hs₁]
  by_cases hversion : v = theVersion
  swap
  · rw [if_pos hversion]
    exact .inl ⟨.inl hversion, _, s₁, rfl⟩
  rw [if_neg (not_not.mpr hversion)]
  obtain ⟨s₂, hs₂, hat₂⟩ := readWord_at hat₁ mem.myNumJobs
  rw [hj] at hs₂
  rw [bind_of_ok hs₂]
  rcases resize_cases mem jobCodec 0 j with ⟨what, hfull, hthrow⟩ | ⟨hroom, hzero⟩
  · rw [hthrow]
    exact .inl ⟨.inr (.inl ⟨what, hfull⟩), what, s₂, rfl⟩
  obtain ⟨s₃, hs₃, hat₃⟩ := readElements_at jobCodec hat₂ j.toNat
  rw [hzero, bind_of_ok (rfl : (MonadExcept.ofExcept _ : EStateM Failure Stream _) s₂ = .ok _ s₂),
    bind_of_ok hs₃]
  obtain ⟨s₄, hs₄, hat₄⟩ := readWord_at hat₃ mem.myNumNodes
  have hat : wordAt file (0 + 8 + 8 + jobCodec.size * j.toNat) mem.myNumNodes = n := hn
  rw [hat] at hs₄
  rw [bind_of_ok hs₄, length_overlay, List.length_replicate]
  rcases resize_cases mem Codec.word (jobCodec.size * j.toNat) n with ⟨what, hfull, hthrow⟩ | ⟨hroom', hzero'⟩
  · rw [hthrow]
    exact .inl ⟨.inr (.inr ⟨what, hfull⟩), what, s₄, rfl⟩
  obtain ⟨s₅, hs₅, hat₅⟩ := readElements_at Codec.word hat₄ n.toNat
  rw [hzero', bind_of_ok (rfl : (MonadExcept.ofExcept _ : EStateM Failure Stream _) s₄ = .ok _ s₄),
    bind_of_ok hs₅]
  exact .inr ⟨⟨hversion, hroom, hroom'⟩, s₅, hat₅, rfl⟩

end Loading

section Saving

variable {mem : Memory} {d : Data}

theorem length_word (w : UInt64) : (Codec.word.encode w).length = 8 := Codec.word.length_encode w

theorem length_jobs (d : Data) : (jobCodec.encodeAll d.theJobData).length = 32 * d.theJobData.length :=
  jobCodec.length_encodeAll _

theorem length_save (d : Data) :
    (save d).length = 24 + 32 * d.theJobData.length + 8 * d.theLoad.length := by
  have hload : (Codec.word.encodeAll d.theLoad).length = 8 * d.theLoad.length :=
    Codec.word.length_encodeAll _
  simp only [save, List.length_append, length_word, length_jobs, hload]
  omega

theorem mix_zero (w stale : UInt64) : mix 0 w stale = stale := by
  rw [mix, List.take_zero, List.nil_append, List.drop_zero, Codec.word.decode_encode]

theorem mix_of_le {k : ℕ} (h : 8 ≤ k) (w stale : UInt64) : mix k w stale = w := by
  rw [mix, List.take_of_length_le ((length_word w).trans_le h),
    List.drop_eq_nil_of_le ((length_word stale).trans_le h), List.append_nil, Codec.word.decode_encode]

theorem wordAt_take (before behind : List UInt8) (w stale : UInt64) (k : ℕ) :
    wordAt ((before ++ Codec.word.encode w ++ behind).take k) before.length stale =
      mix (k - before.length) w stale := by
  rw [wordAt, overlay_take ((length_word w).trans (length_word stale).symm), mix]

theorem wordAt_beyond {file : List UInt8} {o : ℕ} (h : file.length ≤ o) (stale : UInt64) :
    wordAt file o stale = stale := by
  rw [wordAt, List.drop_eq_nil_of_le h, overlay_nil, Codec.word.decode_encode]

theorem elementsAt_encodeAll {α : Type} (c : Codec α) (before behind : List UInt8) (l : List α) :
    elementsAt c (before ++ c.encodeAll l ++ behind) before.length l.length = l := by
  have hlen : (c.encodeAll l).length = (List.replicate (c.size * l.length) (0 : UInt8)).length := by
    rw [c.length_encodeAll, List.length_replicate]
  rw [elementsAt, overlay_within hlen, c.decodeAll_encodeAll]

section Cut

variable (d) (rest : List UInt8) (k : ℕ)

theorem wordAt_version (stale : UInt64) :
    wordAt ((save d ++ rest).take k) 0 stale = mix k theVersion stale := by
  have h := wordAt_take [] (Codec.word.encode (numJobs d) ++ jobCodec.encodeAll d.theJobData ++
    Codec.word.encode (numNodes d) ++ Codec.word.encodeAll d.theLoad ++ rest) theVersion stale k
  simp only [List.append_assoc, List.nil_append, List.length_nil, Nat.sub_zero] at h
  simpa only [save, List.append_assoc] using h

theorem wordAt_numJobs (stale : UInt64) :
    wordAt ((save d ++ rest).take k) 8 stale = mix (k - 8) (numJobs d) stale := by
  have h := wordAt_take (Codec.word.encode theVersion) (jobCodec.encodeAll d.theJobData ++
    Codec.word.encode (numNodes d) ++ Codec.word.encodeAll d.theLoad ++ rest) (numJobs d) stale k
  rw [length_word] at h
  simpa only [save, List.append_assoc] using h

theorem wordAt_numNodes (stale : UInt64) :
    wordAt ((save d ++ rest).take k) (16 + 32 * d.theJobData.length) stale =
      mix (k - (16 + 32 * d.theJobData.length)) (numNodes d) stale := by
  have h := wordAt_take (Codec.word.encode theVersion ++ Codec.word.encode (numJobs d) ++
    jobCodec.encodeAll d.theJobData) (Codec.word.encodeAll d.theLoad ++ rest) (numNodes d) stale k
  rw [List.length_append, List.length_append, length_word, length_word, length_jobs] at h
  simpa only [save, List.append_assoc] using h

end Cut

theorem toNat_numJobs (h : mem.Holds d) : (numJobs d).toNat = d.theJobData.length := by
  have hlt := mem.bounded _ _ h.1
  exact UInt64.toNat_ofNat_of_lt (by rw [UInt64.size]; omega)

theorem toNat_numNodes (h : mem.Holds d) : (numNodes d).toNat = d.theLoad.length := by
  have hlt := mem.bounded _ _ h.2
  exact UInt64.toNat_ofNat_of_lt (by rw [UInt64.size]; omega)

/-- The number of nodes is looked for behind the jobs of the data, unless there is nothing there. -/
theorem wordAt_numNodes_of_numJobs (h : mem.Holds d) (k : ℕ) :
    wordAt ((save d).take k) (16 + 32 * (mix (k - 8) (numJobs d) mem.myNumJobs).toNat) mem.myNumNodes =
      mix (k - (16 + 32 * d.theJobData.length)) (numNodes d) mem.myNumNodes := by
  by_cases hk : 16 ≤ k
  · have hall := wordAt_numNodes d [] k mem.myNumNodes
    rw [List.append_nil] at hall
    rw [mix_of_le (by omega), toNat_numJobs h, hall]
  · have hnone : k - (16 + 32 * d.theJobData.length) = 0 := by omega
    rw [hnone, mix_zero]
    apply wordAt_beyond
    rw [List.length_take]
    omega

/-- What has been saved is loaded again, whatever follows it in the file. -/
theorem load_save (h : mem.Holds d) (rest : List UInt8) :
    load mem ⟨save d ++ rest, true⟩ = .ok d ⟨rest, true⟩ := by
  have hlen : (save d ++ rest).length = 24 + 32 * d.theJobData.length + 8 * d.theLoad.length +
      rest.length := by rw [List.length_append, length_save]
  have hversion := wordAt_version d rest (save d ++ rest).length mem.myVersion
  have hjobs := wordAt_numJobs d rest (save d ++ rest).length mem.myNumJobs
  have hnodes := wordAt_numNodes d rest (save d ++ rest).length mem.myNumNodes
  rw [List.take_length, mix_of_le (by omega)] at hversion hjobs hnodes
  rw [← toNat_numJobs h] at hnodes
  rcases load_cases mem (save d ++ rest) hversion hjobs hnodes with
    ⟨hfail, -⟩ | ⟨-, s, hat, hload⟩
  · rw [toNat_numJobs h, toNat_numNodes h, h.1, h.2] at hfail
    rcases hfail with hne | ⟨what, hfull⟩ | ⟨what, hfull⟩
    · exact absurd rfl hne
    · cases hfull
    · cases hfull
  · rw [toNat_numJobs h, toNat_numNodes h] at hload hat
    have hend : s = ⟨rest, true⟩ := by
      rcases hat with ⟨-, rfl⟩ | ⟨hbeyond, -⟩
      · have hdrop : 16 + 32 * d.theJobData.length + 8 + 8 * d.theLoad.length = (save d).length := by
          rw [length_save]
          omega
        rw [hdrop, List.drop_left]
      · rw [hlen] at hbeyond
        omega
    have hdata := elementsAt_encodeAll jobCodec (Codec.word.encode theVersion ++
      Codec.word.encode (numJobs d)) (Codec.word.encode (numNodes d) ++
      Codec.word.encodeAll d.theLoad ++ rest) d.theJobData
    have hloads := elementsAt_encodeAll Codec.word (Codec.word.encode theVersion ++
      Codec.word.encode (numJobs d) ++ jobCodec.encodeAll d.theJobData ++
      Codec.word.encode (numNodes d)) rest d.theLoad
    rw [List.length_append, length_word, length_word] at hdata
    rw [List.length_append, List.length_append, List.length_append, length_word, length_word,
      length_word, length_jobs] at hloads
    simp only [List.append_assoc] at hdata hloads
    simp only [save, List.append_assoc] at hload ⊢
    rw [hload, hend, hdata, hloads]

/-- Loading from a file that has been cut off throws only if that is noticed by chance. -/
theorem load_take_iff (h : mem.Holds d) (k : ℕ) :
    (∃ what s, load mem ⟨(save d).take k, true⟩ = .error (.thrown what) s) ↔ Noticed mem d k := by
  have hversion := wordAt_version d [] k mem.myVersion
  have hjobs := wordAt_numJobs d [] k mem.myNumJobs
  rw [List.append_nil] at hversion hjobs
  rcases load_cases mem ((save d).take k) hversion hjobs (wordAt_numNodes_of_numJobs h k) with
    ⟨hfail, hthrow⟩ | ⟨⟨hv, hroom, hroom'⟩, s, -, hload⟩
  · exact iff_of_true hthrow hfail
  · refine iff_of_false ?_ ?_
    · rintro ⟨what, s', hthrow⟩
      rw [hload] at hthrow
      cases hthrow
    · rintro (hne | ⟨what, hfull⟩ | ⟨what, hfull⟩)
      · exact hne hv
      · rw [hroom] at hfull
        cases hfull
      · rw [hroom'] at hfull
        cases hfull

/-- A file that is cut off behind the number of nodes is never noticed. -/
theorem not_noticed (h : mem.Holds d) {k : ℕ} (hk : 24 + 32 * d.theJobData.length ≤ k) :
    ¬ Noticed mem d k := by
  rw [Noticed, mix_of_le (by omega), mix_of_le (by omega), mix_of_le (by omega), toNat_numJobs h,
    toNat_numNodes h, h.1, h.2]
  rintro (hne | ⟨what, hfull⟩ | ⟨what, hfull⟩)
  · exact hne rfl
  · cases hfull
  · cases hfull

/-- Saved data are loaded again, and of the files that are cut off those are rejected in which the
variables that are not read from the file have unsuitable values. -/
theorem load_saved (mem : Memory) (d : Data) (h : mem.Holds d) :
    load mem ⟨save d, true⟩ = .ok d ⟨[], true⟩ ∧
    ∀ file, file <+: save d → file ≠ save d →
      ((∃ what s, load mem ⟨file, true⟩ = .error (.thrown what) s) ↔ Noticed mem d file.length) := by
  have hall := load_save h []
  rw [List.append_nil] at hall
  refine ⟨hall, fun file hfile _ => ?_⟩
  rw [List.prefix_iff_eq_take] at hfile
  have hcut := load_take_iff h file.length
  rwa [← hfile] at hcut

end Saving

section Samples

/-- A memory full of zeros, in which at most a megabyte can be allocated. -/
def zeroMemory : Memory where
  myVersion := 0
  myNumJobs := 0
  myNumNodes := 0
  allocate _ n := if n ≤ 2 ^ 20 then .ok () else .error "std::bad_alloc"
  bounded _ n h := by
    split at h
    · omega
    · cases h

def oneJob : Data := ⟨[⟨1, 2, 3, 4⟩], [7]⟩

def loaded : EStateM.Result Failure Stream Data → Option Data
  | .ok d _ => some d
  | .error _ _ => none

theorem load_saved_oneJob : load zeroMemory ⟨save oneJob, true⟩ = .ok oneJob ⟨[], true⟩ :=
  (load_saved zeroMemory oneJob ⟨by decide, by decide⟩).1

/-- Without its last word the file is accepted, and the load is lost. -/
theorem cut_file_accepted : (save oneJob).take 56 <+: save oneJob ∧ (save oneJob).take 56 ≠ save oneJob ∧
    (∃ s, load zeroMemory ⟨(save oneJob).take 56, true⟩ = .ok ⟨[⟨1, 2, 3, 4⟩], [0]⟩ s) ∧
    ¬ ∃ what s, load zeroMemory ⟨(save oneJob).take 56, true⟩ = .error (.thrown what) s := by
  have hload : loaded (load zeroMemory ⟨(save oneJob).take 56, true⟩) = some ⟨[⟨1, 2, 3, 4⟩], [0]⟩ := by
    decide +kernel
  have hcut : (save oneJob).take 56 <+: save oneJob := List.take_prefix 56 _
  refine ⟨hcut, by decide +kernel, ?_, ?_⟩
  · cases hresult : load zeroMemory ⟨(save oneJob).take 56, true⟩ with
    | ok d s =>
      rw [hresult] at hload
      exact ⟨s, by rw [Option.some.inj hload]⟩
    | error e s =>
      rw [hresult] at hload
      cases hload
  · rintro ⟨what, s, hthrow⟩
    rw [hthrow] at hload
    cases hload

end Samples

end ServerlessEdge.StateSim.PerformanceData
