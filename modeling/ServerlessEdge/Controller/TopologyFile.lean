import ServerlessEdge.Library.Checks
import ServerlessEdge.Library.Maps
import ServerlessEdge.Library.Streams
import ServerlessEdge.Controller.Topology

/-! The file that a topology is read from: a matrix of distances with a name in front of
each row. The constructor looks at the beginning of each line. -/
namespace ServerlessEdge.Controller.Topology
open Std Library Maps Checks Streams

/-- The exception that is thrown for a file. Anything may happen where a product exceeds
an int, or an element is written behind the end of a vector. -/
inductive Failure where
  | InvalidTopologyFile (what : String)
  | undefined
  deriving DecidableEq, Repr

def invalidTopologyFile (aName : String) : Failure :=
  .InvalidTopologyFile ("Invalid or non-existing topology file '" ++ aName ++ "'")

section Constructor

/-- A size as an int, modulo 2 ^ 32. -/
def toInt (n : ℕ) : ℤ := (n : ℤ).bmod 4294967296

/-- The square of an int. -/
def square (n : ℤ) : Except Failure ℕ :=
  if n * n < 2 ^ 31 then .ok (n * n).toNat else .error .undefined

/-- The variables of the loop over the lines. -/
structure Reading where
  myNumNodes : ℤ
  myCurNode : ℕ
  theNames : ExtTreeMap String ℕ
  theDistances : List ℚ

/-- The first row fixes the number of nodes, and the others have as many numbers. -/
def checkRow (aInputFile : String) (s : Reading) (myRow : List ℚ) : Except Failure Reading :=
  if s.myNumNodes < 0 then
    if myRow = [] then .error (invalidTopologyFile aInputFile)
    else do
      let mySize ← square (toInt myRow.length)
      pure { s with myNumNodes := toInt myRow.length, theDistances := List.replicate mySize 0 }
  else if s.myNumNodes ≠ toInt myRow.length then .error (invalidTopologyFile aInputFile)
  else pure s

/-- Copy row elements into the matrix. -/
def copyRow : List ℚ → ℕ → List ℚ → Except Failure (List ℚ)
  | theDistances, _, [] => .ok theDistances
  | theDistances, i, q :: myRow =>
    if i < theDistances.length then copyRow (theDistances.set i q) (i + 1) myRow
    else .error .undefined

/-- The row of the current node. -/
def addRow (aInputFile : String) (s : Reading) (myRow : List ℚ) : Except Failure Reading := do
  let s ← checkRow aInputFile s myRow
  let theDistances ← copyRow s.theDistances (s.myCurNode * myRow.length) myRow
  pure { s with theDistances := theDistances, myCurNode := s.myCurNode + 1 }

def readLine (aInputFile : String) (s : Reading) (myLine : List Char) : Except Failure Reading :=
  if myLine = [] ∨ myLine.head? = some '#' then pure s
  else if 0 < s.myNumNodes ∧ s.myNumNodes ≤ toInt s.myCurNode then
    .error (invalidTopologyFile aInputFile)
  else match readWord myLine with
    | none => .error (invalidTopologyFile aInputFile)
    | some (myName, myRest) =>
      if String.ofList myName ∈ s.theNames then .error (invalidTopologyFile aInputFile)
      else
        -- the loop over the numbers ends with the line, or where no other number can be read
        addRow aInputFile
          { s with theNames := s.theNames.insert (String.ofList myName) s.myCurNode }
          (readNumbers myRest)

/-- The constructor, with the text of the file if that exists. -/
def ofFile (aInputFile : String) (myInputFile : Option (List Char)) : Except Failure Topology :=
  match myInputFile with
  | none => .error (invalidTopologyFile aInputFile)
  | some myText => do
    let s ← (getlines myText).foldlM (readLine aInputFile) ⟨-1, 0, ∅, []⟩
    if s.theDistances = [] then .error (invalidTopologyFile aInputFile)
    else if s.theDistances.length ≠ s.theNames.size * s.theNames.size then
      .error (invalidTopologyFile aInputFile)
    else pure ⟨s.theNames, s.theDistances⟩

end Constructor

section Tables

/-- A name and the numbers behind it. -/
abbrev Row := String × List ℚ

/-- The lines that are neither empty nor comments. -/
def dataLines (myText : List Char) : List (List Char) :=
  (myText.splitOn '\n').filter fun myLine => myLine ≠ [] ∧ myLine.head? ≠ some '#'

/-- As many numbers in each row as there are rows, and all names different. -/
structure IsTable (rows : List Row) : Prop where
  nonempty : rows ≠ []
  square : ∀ r ∈ rows, r.2.length = rows.length
  distinct : (rows.map Prod.fst).Nodup

/-- The name and the numbers that can be read at the beginning of a line. -/
def beginning (myLine : List Char) : Option Row :=
  (readWord myLine).map fun w => (String.ofList w.1, readNumbers w.2)

/-- The first rows of a table, or all of them. -/
structure Begun (rows : List Row) : Prop where
  uniform : ∀ r ∈ rows, ∀ r' ∈ rows, r.2.length = r'.2.length
  room : ∀ r ∈ rows, rows.length ≤ r.2.length ∧ r.2.length ≤ 46340
  distinct : (rows.map Prod.fst).Nodup

/-- The next row has more numbers than can be, with a square in an int, but their number is
the same modulo the range of an int. -/
structure Overruns (rows : List Row) (r : Row) : Prop where
  begun : Begun rows
  new : r.1 ∉ rows.map Prod.fst
  room : ∀ r' ∈ rows, rows.length < r'.2.length ∧ r.2.length % 2 ^ 32 = r'.2.length
  long : 46340 < r.2.length

def Overrun (myText : List Char) : Prop :=
  ∃ pre myLine post rows r, dataLines myText = pre ++ myLine :: post ∧
    pre.mapM beginning = some rows ∧ beginning myLine = some r ∧ Overruns rows r

end Tables

section Vector

theorem toInt_eq_iff {n m : ℕ} (h : m < 2 ^ 31) : toInt n = m ↔ n % 2 ^ 32 = m := by
  unfold toInt
  rw [Int.bmod_def]
  split <;> omega

theorem toInt_of_lt {n : ℕ} (h : n < 2 ^ 31) : toInt n = n :=
  (toInt_eq_iff h).mpr (by omega)

/-- With so many numbers in a row the matrix does not hold even that row. -/
theorem square_lt {n mySize : ℕ} (hn : 46340 < n) (h : square (toInt n) = .ok mySize) :
    mySize < n := by
  rw [square] at h
  split at h
  · next hlt =>
    have hsize : (toInt n * toInt n).toNat = mySize := Except.ok.inj h
    by_cases hsmall : n < 2 ^ 31
    · rw [toInt_of_lt hsmall] at hlt
      have hsquare : (46341 : ℤ) * 46341 ≤ n * n := by
        apply mul_le_mul <;> omega
      omega
    · omega
  · cases h

theorem square_of_le {n : ℕ} (hn : n ≤ 46340) : square (toInt n) = .ok (n * n) := by
  have hsquare : (n : ℤ) * n ≤ 46340 * 46340 := by
    apply mul_le_mul <;> omega
  rw [toInt_of_lt (by omega), square, if_pos (by omega)]
  rfl

/-- The elements are replaced by those of the row. -/
theorem copyRow_ok (A B myRow : List ℚ) (h : myRow.length ≤ B.length) :
    copyRow (A ++ B) A.length myRow = .ok (A ++ myRow ++ B.drop myRow.length) := by
  induction myRow generalizing A B with
  | nil => rw [copyRow, List.append_nil, List.length_nil, List.drop_zero]
  | cons q myRow ih =>
    cases B with
    | nil => simp at h
    | cons b B =>
      rw [copyRow, if_pos (by simp), List.set_append_right _ _ le_rfl, Nat.sub_self, List.set_cons_zero]
      have hlength : A.length + 1 = (A ++ [q]).length := by simp
      have happend : A ++ q :: B = (A ++ [q]) ++ B := by simp
      rw [hlength, happend, ih (A ++ [q]) B (by simpa using h)]
      simp

theorem copyRow_undefined {theDistances myRow : List ℚ} {i : ℕ} (hne : myRow ≠ [])
    (h : theDistances.length < i + myRow.length) :
    copyRow theDistances i myRow = .error .undefined := by
  induction myRow generalizing theDistances i with
  | nil => exact absurd rfl hne
  | cons q myRow ih =>
    rw [copyRow]
    split
    · next hi =>
      rw [List.length_cons] at h
      have hrest : myRow ≠ [] := by
        rintro rfl
        rw [List.length_nil] at h
        omega
      refine ih hrest ?_
      rw [List.length_set]
      omega
    · rfl

variable {rows : List Row} {n : ℕ} (h : ∀ r ∈ rows, r.2.length = n)
include h

theorem length_matrix : (rows.flatMap Prod.snd).length = rows.length * n := by
  induction rows with
  | nil => simp
  | cons r rows ih =>
    obtain ⟨hr, hrows⟩ := List.forall_mem_cons.mp h
    rw [List.flatMap_cons, List.length_append, hr, ih hrows, List.length_cons, Nat.succ_mul, Nat.add_comm]

theorem getElem?_matrix {i j : ℕ} {a : Row} (hi : rows[i]? = some a) (hj : j < n) :
    (rows.flatMap Prod.snd)[i * n + j]? = a.2[j]? := by
  induction rows generalizing i with
  | nil => simp at hi
  | cons r rows ih =>
    obtain ⟨hr, hrows⟩ := List.forall_mem_cons.mp h
    rw [List.flatMap_cons]
    cases i with
    | zero =>
      cases hi
      rw [Nat.zero_mul, Nat.zero_add, List.getElem?_append_left (by omega)]
    | succ i =>
      rw [Nat.succ_mul, List.getElem?_append_right (by omega), ← ih hrows hi]
      congr 1
      omega

end Vector

/-- The rows that have been read so far. -/
structure Reads (rows : List Row) (s : Reading) : Prop where
  begun : Begun rows
  cur : s.myCurNode = rows.length
  names : ∀ (i : ℕ) (r : Row), rows[i]? = some r → s.theNames[r.1]? = some i
  known : ∀ a ∈ s.theNames, a ∈ rows.map Prod.fst
  size : s.theNames.size = rows.length
  first : rows = [] → s.myNumNodes = -1 ∧ s.theDistances = []
  later : ∀ r ∈ rows, s.myNumNodes = r.2.length ∧ s.theDistances =
    rows.flatMap Prod.snd ++ List.replicate ((r.2.length - rows.length) * r.2.length) 0

section Rows

variable {rows : List Row} {s : Reading} {names : ExtTreeMap String ℕ} {myRow : List ℚ}

theorem Begun.of_append {rows' : List Row} (h : Begun (rows ++ rows')) : Begun rows := by
  refine ⟨fun r hr r' hr' => ?_, fun r hr => ?_, ?_⟩
  · exact h.uniform r (List.mem_append_left _ hr) r' (List.mem_append_left _ hr')
  · obtain ⟨hroom, hlength⟩ := h.room r (List.mem_append_left _ hr)
    rw [List.length_append] at hroom
    exact ⟨by omega, hlength⟩
  · have hdistinct := h.distinct
    rw [List.map_append] at hdistinct
    exact hdistinct.of_append_left

theorem Begun.nil : Begun [] := ⟨nofun, nofun, List.nodup_nil⟩

/-- The first row, which has to have as many numbers as there are going to be rows. -/
theorem addRow_first (f : String) (hnodes : s.myNumNodes = -1) (hcur : s.myCurNode = 0) :
    (myRow = [] ∧ addRow f s myRow = .error (invalidTopologyFile f)) ∨
    (46340 < myRow.length ∧ addRow f s myRow = .error .undefined) ∨
    (myRow ≠ [] ∧ myRow.length ≤ 46340 ∧ addRow f s myRow = .ok { s with
      myNumNodes := myRow.length
      myCurNode := 1
      theDistances := myRow ++ List.replicate ((myRow.length - 1) * myRow.length) 0 }) := by
  by_cases hnil : myRow = []
  · refine .inl ⟨hnil, ?_⟩
    rw [addRow, checkRow, if_pos (by omega), if_pos hnil]
    rfl
  by_cases hlong : 46340 < myRow.length
  · refine .inr (.inl ⟨hlong, ?_⟩)
    rw [addRow, checkRow, if_pos (by omega), if_neg hnil]
    cases hsize : square (toInt myRow.length) with
    | error e =>
      have he : e = .undefined := by
        rw [square] at hsize
        split at hsize
        · cases hsize
        · exact (Except.error.inj hsize).symm
      rw [he]
      rfl
    | ok mySize =>
      have hlt := square_lt hlong hsize
      simp only [ok_bind, pure, Except.pure, hcur, Nat.zero_mul]
      rw [copyRow_undefined hnil (by rw [List.length_replicate]; omega)]
      rfl
  · have hle : myRow.length ≤ 46340 := Nat.le_of_not_lt hlong
    refine .inr (.inr ⟨hnil, hle, ?_⟩)
    have hcopy := copyRow_ok [] (List.replicate (myRow.length * myRow.length) 0) myRow
      (by rw [List.length_replicate]; exact Nat.le_mul_self _)
    simp only [List.nil_append, List.length_nil, List.drop_replicate] at hcopy
    rw [addRow, checkRow, if_pos (by omega), if_neg hnil, square_of_le hle]
    simp only [ok_bind, pure, Except.pure, hcur, Nat.zero_mul, hcopy]
    rw [toInt_of_lt (by omega), Nat.sub_mul, Nat.one_mul]

/-- Any other row. -/
theorem addRow_later (f : String) (h : Reads rows s) {r : Row} (hr : r ∈ rows)
    (hroom : rows.length < r.2.length) :
    let s' : Reading := { s with theNames := names }
    (myRow.length % 2 ^ 32 ≠ r.2.length ∧ addRow f s' myRow = .error (invalidTopologyFile f)) ∨
    (46340 < myRow.length ∧ myRow.length % 2 ^ 32 = r.2.length ∧
      addRow f s' myRow = .error .undefined) ∨
    (myRow.length = r.2.length ∧ addRow f s' myRow = .ok { s' with
      myCurNode := rows.length + 1
      theDistances := (rows.flatMap Prod.snd ++ myRow) ++
        List.replicate ((r.2.length - (rows.length + 1)) * r.2.length) 0 }) := by
  intro s'
  obtain ⟨hnodes, hdistances⟩ := h.later r hr
  have hall : ∀ r' ∈ rows, r'.2.length = r.2.length := fun r' hr' => h.begun.uniform r' hr' r hr
  have hlength := length_matrix hall
  obtain ⟨-, hsmall⟩ := h.begun.room r hr
  have hcheck : addRow f s' myRow = if s.myNumNodes ≠ toInt myRow.length then
      .error (invalidTopologyFile f) else (do
        let theDistances ← copyRow s.theDistances (s.myCurNode * myRow.length) myRow
        pure { s' with theDistances := theDistances, myCurNode := s.myCurNode + 1 }) := by
    rw [addRow, checkRow, if_neg (by simp only [s']; omega)]
    split <;> rfl
  rw [hcheck, hnodes]
  by_cases heq : myRow.length % 2 ^ 32 = r.2.length
  · have hcast : toInt myRow.length = r.2.length := (toInt_eq_iff (by omega)).mpr heq
    rw [if_neg (by rw [hcast]; exact fun hne => hne rfl), hdistances, h.cur]
    by_cases hlong : 46340 < myRow.length
    · refine .inr (.inl ⟨hlong, heq, ?_⟩)
      have hne : myRow ≠ [] := by
        rintro rfl
        simp at hlong
      rw [copyRow_undefined hne]
      · rfl
      · -- the matrix has as many elements as the square of the first row
        have hbound : r.2.length * r.2.length ≤ 46340 * 46340 := Nat.mul_le_mul hsmall hsmall
        have hsum : rows.length * r.2.length + (r.2.length - rows.length) * r.2.length =
            r.2.length * r.2.length := by
          rw [← Nat.add_mul, Nat.add_sub_cancel' hroom.le]
        rw [List.length_append, List.length_replicate, hlength, hsum]
        omega
    · have hrow : myRow.length = r.2.length := by omega
      refine .inr (.inr ⟨hrow, ?_⟩)
      have hleft : (r.2.length - rows.length) * r.2.length =
          myRow.length + (r.2.length - (rows.length + 1)) * r.2.length := by
        have hsucc : r.2.length - rows.length = 1 + (r.2.length - (rows.length + 1)) := by omega
        rw [hsucc, Nat.add_mul, Nat.one_mul, hrow]
      have hcopy := copyRow_ok (rows.flatMap Prod.snd)
        (List.replicate ((r.2.length - rows.length) * r.2.length) 0) myRow
        (by rw [List.length_replicate]; omega)
      rw [hlength, List.drop_replicate, hleft, Nat.add_sub_cancel_left, hrow] at hcopy
      rw [hleft, hrow, hcopy]
      rfl
  · refine .inl ⟨heq, if_pos fun hcast => heq ?_⟩
    exact (toInt_eq_iff (by omega)).mp hcast.symm

/-- A further row, with a name of its own. -/
theorem Begun.snoc {r : Row} (h : Begun rows) (hlength : r.2.length ≤ 46340)
    (hroom : rows.length < r.2.length) (hall : ∀ r' ∈ rows, r.2.length = r'.2.length)
    (hnew : r.1 ∉ rows.map Prod.fst) : Begun (rows ++ [r]) := by
  have hsame : ∀ r' ∈ rows ++ [r], r'.2.length = r.2.length := by
    intro r' hr'
    rcases List.mem_append.mp hr' with hr' | hr'
    · exact (hall r' hr').symm
    · rw [List.mem_singleton.mp hr']
  refine ⟨fun r' hr' r'' hr'' => (hsame r' hr').trans (hsame r'' hr'').symm, fun r' hr' => ?_, ?_⟩
  · rw [hsame r' hr', List.length_append, List.length_singleton]
    exact ⟨hroom, hlength⟩
  · rw [List.map_append, List.map_singleton, ← List.concat_eq_append]
    exact h.distinct.concat hnew

/-- The names and the matrix after a further row. -/
theorem Reads.snoc {r : Row} {s' : Reading} (h : Reads rows s) (hbegun : Begun (rows ++ [r]))
    (hnew : r.1 ∉ rows.map Prod.fst) (hnodes : s'.myNumNodes = r.2.length)
    (hcur : s'.myCurNode = rows.length + 1)
    (hnames : s'.theNames = s.theNames.insert r.1 s.myCurNode)
    (hdistances : s'.theDistances = (rows.flatMap Prod.snd ++ r.2) ++
      List.replicate ((r.2.length - (rows.length + 1)) * r.2.length) 0) :
    Reads (rows ++ [r]) s' := by
  have hunknown : r.1 ∉ s.theNames := fun hr => hnew (h.known r.1 hr)
  refine ⟨hbegun, ?_, fun i r' hr' => ?_, fun a ha => ?_, ?_, fun hnil => ?_, fun r' hr' => ?_⟩
  · rw [hcur, List.length_append, List.length_singleton]
  · rw [hnames, lookup_insert]
    rcases Nat.lt_or_ge i rows.length with hi | hi
    · rw [List.getElem?_append_left hi] at hr'
      have hne : r'.1 ≠ r.1 := by
        intro heq
        exact hnew (heq ▸ List.mem_map_of_mem (List.mem_of_getElem? hr'))
      rw [if_neg hne, h.names i r' hr']
    · rw [List.getElem?_append_right hi, List.getElem?_singleton] at hr'
      split at hr'
      · cases hr'
        rw [if_pos rfl, h.cur]
        congr 1
        omega
      · cases hr'
  · rw [hnames, mem_insert] at ha
    rw [List.map_append, List.mem_append]
    rcases ha with rfl | ha
    · exact .inr (List.mem_singleton_self _)
    · exact .inl (h.known a ha)
  · rw [hnames, size_insert_of_not_mem hunknown, h.size, List.length_append, List.length_singleton]
  · simp at hnil
  · have hsame : r'.2.length = r.2.length :=
      hbegun.uniform r' hr' r (List.mem_append_right _ List.mem_cons_self)
    rw [hsame, hnodes, hdistances, List.flatMap_append, List.flatMap_singleton, List.length_append,
      List.length_singleton]
    exact ⟨rfl, rfl⟩

/-- The names of the rows are those that are known. -/
theorem Reads.mem_names (h : Reads rows s) (a : String) :
    a ∈ s.theNames ↔ a ∈ rows.map Prod.fst := by
  refine ⟨h.known a, fun ha => ?_⟩
  obtain ⟨r, hr, rfl⟩ := List.mem_map.mp ha
  obtain ⟨i, hi⟩ := List.mem_iff_getElem?.mp hr
  exact mem_of_lookup (h.names i r hi)

/-- There is room until there are as many rows as numbers in the first one. -/
theorem Reads.room_iff (h : Reads rows s) : (∀ r ∈ rows, rows.length < r.2.length) ↔
    ¬ (0 < s.myNumNodes ∧ s.myNumNodes ≤ toInt s.myCurNode) := by
  constructor
  · rintro hroom ⟨hpos, hle⟩
    have hne : rows ≠ [] := by
      intro hnil
      have hfirst := (h.first hnil).1
      omega
    obtain ⟨r, hr⟩ := List.exists_mem_of_ne_nil rows hne
    have hlt := hroom r hr
    have hsmall := (h.begun.room r hr).2
    rw [(h.later r hr).1, h.cur, toInt_of_lt (by omega)] at hle
    omega
  · intro hmore r hr
    obtain ⟨hle, hsmall⟩ := h.begun.room r hr
    have hpos := List.length_pos_of_mem hr
    rw [(h.later r hr).1, h.cur, toInt_of_lt (by omega)] at hmore
    omega

/-- A further row needs room and a new name. -/
theorem Begun.fits {r : Row} (h : Begun (rows ++ [r])) :
    (∀ r' ∈ rows, rows.length < r'.2.length) ∧ r.1 ∉ rows.map Prod.fst := by
  refine ⟨fun r' hr' => ?_, fun hold => ?_⟩
  · have hmore := (h.room r' (List.mem_append_left _ hr')).1
    rw [List.length_append, List.length_singleton] at hmore
    exact hmore
  · have hdistinct := h.distinct
    rw [List.map_append, List.nodup_append] at hdistinct
    exact hdistinct.2.2 _ hold _ (List.mem_singleton_self _) rfl

/-- The row that a table begins with. -/
theorem Reads.row_first {r : Row} (h : Reads [] s) (f : String) :
    let s' : Reading := { s with theNames := s.theNames.insert r.1 s.myCurNode }
    (Overruns [] r ∧ addRow f s' r.2 = .error .undefined) ∨
    (∃ s'', Begun [r] ∧ addRow f s' r.2 = .ok s'' ∧ Reads [r] s'') ∨
    ((¬ Overruns [] r ∧ ¬ Begun [r]) ∧ addRow f s' r.2 = .error (invalidTopologyFile f)) := by
  intro s'
  obtain ⟨hnodes, -⟩ := h.first rfl
  have hnew : r.1 ∉ ([] : List Row).map Prod.fst := List.not_mem_nil
  rcases @addRow_first s' r.2 f hnodes h.cur with
    ⟨hnil, hadd⟩ | ⟨hlong, hadd⟩ | ⟨hne, hle, hadd⟩
  · refine .inr (.inr ⟨⟨fun hover => ?_, fun hbegun => ?_⟩, hadd⟩)
    · have hlong := hover.long
      rw [hnil, List.length_nil] at hlong
      omega
    · have hroom := (hbegun.room r List.mem_cons_self).1
      rw [hnil, List.length_nil, List.length_singleton] at hroom
      omega
  · exact .inl ⟨⟨.nil, hnew, List.forall_mem_nil _, hlong⟩, hadd⟩
  · have hpos : 0 < r.2.length := List.length_pos_iff.mpr hne
    have hbegun : Begun ([] ++ [r]) := Begun.nil.snoc hle hpos (List.forall_mem_nil _) hnew
    exact .inr (.inl ⟨_, hbegun, hadd, h.snoc hbegun hnew rfl rfl rfl rfl⟩)

/-- A row behind others, with a name of its own. -/
theorem Reads.row_later {r r' : Row} (h : Reads rows s) (f : String) (hr' : r' ∈ rows)
    (hroom : ∀ r' ∈ rows, rows.length < r'.2.length) (hnew : r.1 ∉ rows.map Prod.fst) :
    let s' : Reading := { s with theNames := s.theNames.insert r.1 s.myCurNode }
    (Overruns rows r ∧ addRow f s' r.2 = .error .undefined) ∨
    (∃ s'', Begun (rows ++ [r]) ∧ addRow f s' r.2 = .ok s'' ∧ Reads (rows ++ [r]) s'') ∨
    ((¬ Overruns rows r ∧ ¬ Begun (rows ++ [r])) ∧
      addRow f s' r.2 = .error (invalidTopologyFile f)) := by
  intro s'
  have hsmall := (h.begun.room r' hr').2
  have hmore := hroom r' hr'
  have hall : ∀ r'' ∈ rows, r''.2.length = r'.2.length := fun r'' hr'' =>
    h.begun.uniform r'' hr'' r' hr'
  rcases @addRow_later rows s s'.theNames r.2 f h r' hr' hmore with
    ⟨hother, hadd⟩ | ⟨hlong, hsame, hadd⟩ | ⟨hlength, hadd⟩
  · refine .inr (.inr ⟨⟨fun hover => hother (hover.room r' hr').2, fun hbegun => hother ?_⟩, hadd⟩)
    have heq : r.2.length = r'.2.length := hbegun.uniform r
      (List.mem_append_right _ List.mem_cons_self) r' (List.mem_append_left _ hr')
    omega
  · refine .inl ⟨⟨h.begun, hnew, fun r'' hr'' => ?_, hlong⟩, hadd⟩
    rw [hall r'' hr'']
    exact ⟨hmore, hsame⟩
  · have hbegun : Begun (rows ++ [r]) := by
      refine h.begun.snoc (hlength.le.trans hsmall) (hmore.trans_eq hlength.symm)
        (fun r'' hr'' => ?_) hnew
      rw [hlength, hall r'' hr'']
    refine .inr (.inl ⟨_, hbegun, hadd, h.snoc hbegun hnew ?_ rfl rfl ?_⟩)
    · rw [hlength]
      exact (h.later r' hr').1
    · rw [hlength]

/-- What becomes of a further row. -/
theorem Reads.row {r : Row} (h : Reads rows s) (f : String)
    (hroom : ∀ r' ∈ rows, rows.length < r'.2.length) (hnew : r.1 ∉ rows.map Prod.fst) :
    let s' : Reading := { s with theNames := s.theNames.insert r.1 s.myCurNode }
    (Overruns rows r ∧ addRow f s' r.2 = .error .undefined) ∨
    (∃ s'', Begun (rows ++ [r]) ∧ addRow f s' r.2 = .ok s'' ∧ Reads (rows ++ [r]) s'') ∨
    ((¬ Overruns rows r ∧ ¬ Begun (rows ++ [r])) ∧
      addRow f s' r.2 = .error (invalidTopologyFile f)) := by
  cases rows with
  | nil => exact h.row_first f
  | cons r' rows => exact h.row_later f List.mem_cons_self hroom hnew

/-- What becomes of a line behind the rows that have been read. -/
theorem Reads.step (h : Reads rows s) (f : String) {l : List Char}
    (hl : l ≠ [] ∧ l.head? ≠ some '#') :
    (∃ r, beginning l = some r ∧ Overruns rows r ∧ readLine f s l = .error .undefined) ∨
    (∃ r s', beginning l = some r ∧ Begun (rows ++ [r]) ∧ readLine f s l = .ok s' ∧
      Reads (rows ++ [r]) s') ∨
    ((∀ r, beginning l = some r → ¬ Overruns rows r ∧ ¬ Begun (rows ++ [r])) ∧
      readLine f s l = .error (invalidTopologyFile f)) := by
  have hdata : ¬ (l = [] ∨ l.head? = some '#') := not_or.mpr hl
  rw [readLine, if_neg hdata]
  by_cases hfull : 0 < s.myNumNodes ∧ s.myNumNodes ≤ toInt s.myCurNode
  · refine .inr (.inr ⟨fun r _ => ⟨fun hover => ?_, fun hbegun => ?_⟩, if_pos hfull⟩)
    · exact h.room_iff.mp (fun r' hr' => (hover.room r' hr').1) hfull
    · exact h.room_iff.mp hbegun.fits.1 hfull
  rw [if_neg hfull]
  cases hword : readWord l with
  | none =>
    refine .inr (.inr ⟨fun r hr => ?_, rfl⟩)
    rw [beginning, hword] at hr
    cases hr
  | some w =>
    obtain ⟨myName, myRest⟩ := w
    let r : Row := (String.ofList myName, readNumbers myRest)
    have hr : beginning l = some r := by
      rw [beginning, hword]
      rfl
    have hunique : ∀ r', beginning l = some r' → r' = r := by
      intro r' hr'
      exact (Option.some.inj (hr.symm.trans hr')).symm
    by_cases hknown : String.ofList myName ∈ s.theNames
    · have hold : r.1 ∈ rows.map Prod.fst := (h.mem_names _).mp hknown
      refine .inr (.inr ⟨fun r' hr' => ?_, if_pos hknown⟩)
      rw [hunique r' hr']
      exact ⟨fun hover => hover.new hold, fun hbegun => hbegun.fits.2 hold⟩
    have hnew : r.1 ∉ rows.map Prod.fst := fun hold => hknown ((h.mem_names _).mpr hold)
    simp only [if_neg hknown]
    rcases h.row f (h.room_iff.mpr hfull) hnew with
      ⟨hover, hadd⟩ | ⟨s', hbegun, hadd, hreads⟩ | ⟨hno, hadd⟩
    · exact .inl ⟨r, hr, hover, hadd⟩
    · exact .inr (.inl ⟨r, s', hr, hbegun, hadd, hreads⟩)
    · refine .inr (.inr ⟨fun r' hr' => ?_, hadd⟩)
      rw [hunique r' hr']
      exact hno

end Rows

section Runs

/-- The overrun as it is met behind some rows. -/
private def OverrunFrom (rows : List Row) (ls : List (List Char)) : Prop :=
  ∃ pre l post rows' r, ls = pre ++ l :: post ∧ pre.mapM beginning = some rows' ∧
    beginning l = some r ∧ Overruns (rows ++ rows') r

private theorem overrunFrom_cons {rows : List Row} {l : List Char} {ls : List (List Char)} :
    OverrunFrom rows (l :: ls) ↔
      ∃ r, beginning l = some r ∧ (Overruns rows r ∨ OverrunFrom (rows ++ [r]) ls) := by
  constructor
  · rintro ⟨pre, l', post, rows', r, hsplit, hpre, hr, hover⟩
    cases pre with
    | nil =>
      cases hsplit
      cases hpre
      exact ⟨r, hr, .inl (by simpa using hover)⟩
    | cons l'' pre =>
      obtain ⟨rfl, rfl⟩ := List.cons.inj hsplit
      obtain ⟨r', rows'', hr', hrows, rfl⟩ := mapM_cons_some.mp hpre
      refine ⟨r', hr', .inr ⟨pre, l', post, rows'', r, rfl, hrows, hr, ?_⟩⟩
      rwa [List.append_assoc]
  · rintro ⟨r, hr, hover | ⟨pre, l', post, rows', r', rfl, hpre, hr', hover⟩⟩
    · exact ⟨[], l, ls, [], r, rfl, rfl, hr, by rwa [List.append_nil]⟩
    · refine ⟨l :: pre, l', post, r :: rows', r', rfl, ?_, hr', ?_⟩
      · exact mapM_cons_some.mpr ⟨r, rows', hr, hpre, rfl⟩
      · rwa [List.append_assoc] at hover

/-- What becomes of the remaining lines. -/
private theorem Reads.run {rows : List Row} {s : Reading} (h : Reads rows s) (f : String)
    {ls : List (List Char)} (hls : ∀ l ∈ ls, l ≠ [] ∧ l.head? ≠ some '#') :
    (OverrunFrom rows ls ∧ ls.foldlM (readLine f) s = .error .undefined) ∨
    ¬ OverrunFrom rows ls ∧ ((∃ rows' s', ls.mapM beginning = some rows' ∧
        ls.foldlM (readLine f) s = .ok s' ∧ Reads (rows ++ rows') s') ∨
      ((∀ rows', ls.mapM beginning = some rows' → ¬ Begun (rows ++ rows')) ∧
        ls.foldlM (readLine f) s = .error (invalidTopologyFile f))) := by
  induction ls generalizing rows s with
  | nil =>
    refine .inr ⟨fun ⟨pre, l, post, _, _, hsplit, _⟩ => ?_, .inl ⟨[], s, rfl, rfl, ?_⟩⟩
    · cases pre <;> cases hsplit
    · rwa [List.append_nil]
  | cons l ls ih =>
    obtain ⟨hl, hrest⟩ := List.forall_mem_cons.mp hls
    rw [overrunFrom_cons, List.foldlM_cons]
    rcases h.step f hl with ⟨r, hr, hover, hrun⟩ | ⟨r, s', hr, hbegun, hrun, hreads⟩ | ⟨hnone, hrun⟩
    · exact .inl ⟨⟨r, hr, .inl hover⟩, by rw [hrun]; rfl⟩
    · rw [hrun, ok_bind]
      have hshort : ¬ Overruns rows r := by
        intro hover
        have hlong := hover.long
        have hsmall := (hbegun.room r (List.mem_append_right _ List.mem_cons_self)).2
        omega
      rcases ih hreads hrest with ⟨hover, herror⟩ | ⟨hover, hcases⟩
      · exact .inl ⟨⟨r, hr, .inr hover⟩, herror⟩
      · refine .inr ⟨fun ⟨r', hr', hmet⟩ => ?_, ?_⟩
        · cases hr.symm.trans hr'
          exact hmet.elim hshort hover
        rcases hcases with ⟨rows', s'', hrows, hok, hreads'⟩ | ⟨hnone, herror⟩
        · rw [List.append_assoc] at hreads'
          exact .inl ⟨r :: rows', s'', mapM_cons_some.mpr ⟨r, rows', hr, hrows, rfl⟩, hok, hreads'⟩
        · refine .inr ⟨fun rows' hrows' hall => ?_, herror⟩
          obtain ⟨r', rows'', hr', hrows, rfl⟩ := mapM_cons_some.mp hrows'
          cases hr.symm.trans hr'
          exact hnone rows'' hrows (by rwa [List.append_assoc])
    · refine .inr ⟨fun ⟨r, hr, hmet⟩ => ?_, .inr ⟨fun rows' hrows' hall => ?_, by rw [hrun]; rfl⟩⟩
      · obtain ⟨hover, hbegun⟩ := hnone r hr
        rcases hmet with hmet | ⟨_, _, _, _, _, -, -, -, hmet⟩
        · exact hover hmet
        · exact hbegun hmet.begun.of_append
      · obtain ⟨r, rows'', hr, -, rfl⟩ := mapM_cons_some.mp hrows'
        refine (hnone r hr).2 (@Begun.of_append _ rows'' ?_)
        rwa [List.append_assoc]

/-- Lines that are empty or comments make no difference. -/
theorem foldlM_getlines (f : String) (s : Reading) (myText : List Char) :
    (getlines myText).foldlM (readLine f) s = (dataLines myText).foldlM (readLine f) s := by
  rw [dataLines, ← filter_getlines (by simp), List.foldlM_filter]
  congr 1
  funext s myLine
  split
  · rfl
  · next hskip =>
    rw [readLine, if_pos]
    simpa [or_iff_not_imp_left] using hskip

theorem Reads.start : Reads [] ⟨-1, 0, ∅, []⟩ :=
  ⟨Begun.nil, rfl, nofun, fun _ ha => absurd ha ExtTreeMap.not_mem_empty, rfl, fun _ => ⟨rfl, rfl⟩, nofun⟩

/-- A table is read unless it is too long. -/
theorem IsTable.begun {myText : List Char} {rows : List Row} (h : IsTable rows)
    (hrows : (dataLines myText).mapM beginning = some rows) (hover : ¬ Overrun myText) : Begun rows := by
  refine ⟨fun r hr r' hr' => (h.square r hr).trans (h.square r' hr').symm, fun r hr => ?_, h.distinct⟩
  rw [h.square r hr]
  refine ⟨le_rfl, Nat.le_of_not_lt fun hlong => hover ?_⟩
  cases hlines : dataLines myText with
  | nil =>
    rw [hlines] at hrows
    cases hrows
    exact absurd rfl h.nonempty
  | cons l ls =>
    rw [hlines] at hrows
    obtain ⟨r', rows', hr', -, rfl⟩ := mapM_cons_some.mp hrows
    refine ⟨[], l, ls, [], r', hlines, rfl, hr', Begun.nil, List.not_mem_nil, nofun, ?_⟩
    rw [h.square r' List.mem_cons_self]
    exact hlong

/-- The matrix of a table that has been read. -/
theorem Reads.distance {rows : List Row} {s : Reading} (h : Reads rows s) (ht : IsTable rows)
    {i j : ℕ} {a b : Row} (hi : rows[i]? = some a) (hj : rows[j]? = some b) :
    ∃ q, a.2[j]? = some q ∧ (Topology.mk s.theNames s.theDistances).distance a.1 b.1 = .ok q := by
  have ha : a ∈ rows := List.mem_of_getElem? hi
  have hlt : j < a.2.length := by
    rw [ht.square a ha]
    exact (List.getElem?_eq_some_iff.mp hj).1
  obtain ⟨q, hq⟩ : ∃ q, a.2[j]? = some q := ⟨_, List.getElem?_eq_getElem hlt⟩
  refine ⟨q, hq, ?_⟩
  have hmatrix := getElem?_matrix (fun r hr => ht.square r hr) hi ((ht.square a ha) ▸ hlt)
  have hdistances := (h.later a ha).2
  rw [ht.square a ha, Nat.sub_self, Nat.zero_mul, List.replicate_zero, List.append_nil] at hdistances
  rw [Topology.distance, h.names i a hi, h.names j b hj]
  simp only [Topology.numNodes, h.size, hdistances, hmatrix, hq, Option.getD_some]

/-- The three outcomes of the constructor. -/
theorem ofFile_cases (f : String) (myText : List Char) :
    (Overrun myText ∧ ofFile f (some myText) = .error .undefined) ∨
    ¬ Overrun myText ∧ ((∃ rows t, (dataLines myText).mapM beginning = some rows ∧ IsTable rows ∧
        ofFile f (some myText) = .ok t ∧ ∀ (i j : ℕ) (a b : Row), rows[i]? = some a →
          rows[j]? = some b → ∃ q, a.2[j]? = some q ∧ t.distance a.1 b.1 = .ok q) ∨
      ((∀ rows, (dataLines myText).mapM beginning = some rows → ¬ IsTable rows) ∧
        ofFile f (some myText) = .error (invalidTopologyFile f))) := by
  have hls : ∀ l ∈ dataLines myText, l ≠ [] ∧ l.head? ≠ some '#' := by
    intro l hl
    simpa using (List.mem_filter.mp hl).2
  rw [ofFile, foldlM_getlines]
  rcases Reads.start.run f hls with ⟨hover, hrun⟩ | ⟨hover, ⟨rows, s, hrows, hrun, hreads⟩ | ⟨hnone, hrun⟩⟩
  · exact .inl ⟨hover, by rw [hrun]; rfl⟩
  · refine .inr ⟨hover, ?_⟩
    rw [List.nil_append] at hreads
    rw [hrun, ok_bind]
    have hunique : ∀ rows', (dataLines myText).mapM beginning = some rows' → rows' = rows := by
      intro rows' hrows'
      exact (Option.some.inj (hrows.symm.trans hrows')).symm
    by_cases hempty : rows = []
    · refine .inr ⟨fun rows' hrows' ht => ht.nonempty ((hunique rows' hrows').trans hempty), ?_⟩
      rw [if_pos (hreads.first hempty).2]
    obtain ⟨r, hr⟩ := List.exists_mem_of_ne_nil rows hempty
    obtain ⟨-, hdistances⟩ := hreads.later r hr
    obtain ⟨hroom, -⟩ := hreads.begun.room r hr
    have hlength : s.theDistances.length = r.2.length * r.2.length := by
      rw [hdistances, List.length_append, List.length_replicate,
        length_matrix fun r' hr' => hreads.begun.uniform r' hr' r hr, ← Nat.add_mul,
        Nat.add_sub_cancel' hroom]
    have hpos : 0 < rows.length := List.length_pos_of_mem hr
    have hne : s.theDistances ≠ [] := by
      rw [← List.length_pos_iff, hlength]
      exact Nat.mul_pos (hpos.trans_le hroom) (hpos.trans_le hroom)
    rw [if_neg hne, hlength, hreads.size]
    by_cases hsquare : r.2.length = rows.length
    · have ht : IsTable rows := by
        refine ⟨hempty, fun r' hr' => ?_, hreads.begun.distinct⟩
        rw [hreads.begun.uniform r' hr' r hr, hsquare]
      refine .inl ⟨rows, _, hrows, ht, if_neg fun hne => hne (by rw [hsquare]), ?_⟩
      intro i j a b hi hj
      exact hreads.distance ht hi hj
    · refine .inr ⟨fun rows' hrows' ht => hsquare ?_, if_pos fun heq => hsquare ?_⟩
      · rw [hunique rows' hrows'] at ht
        exact ht.square r hr
      · exact Nat.mul_self_inj.mp heq
  · refine .inr ⟨hover, .inr ⟨fun rows hrows ht => ?_, by rw [hrun]; rfl⟩⟩
    exact hnone rows hrows (ht.begun hrows hover)

end Runs

end ServerlessEdge.Controller.Topology
