import ServerlessEdge.Controller.TopologyFile

/-! The format of the file of a topology, and the texts for which the constructor keeps to
it: what stands behind the numbers of a row is not looked at. -/
namespace ServerlessEdge.Controller.Topology
open Library Checks Streams

/-- A line made of a name, numbers and nothing else. -/
def rowOf (myLine : List Char) : Option Row :=
  match words myLine with
  | [] => none
  | myName :: myNumbers => (myNumbers.mapM number).map fun myRow => (String.ofList myName, myRow)

/-- The text consists of the rows of a table. -/
def Describes (myText : List Char) (rows : List Row) : Prop :=
  (dataLines myText).mapM rowOf = some rows ∧ IsTable rows

/-- The texts that describe a table are read, with their distances, and the exception is
thrown for all others. -/
structure Parsed (myText : List Char) : Prop where
  accepts : ∀ aInputFile rows, Describes myText rows → ∃ t, ofFile aInputFile (some myText) = .ok t ∧
    ∀ (i j : ℕ) (a b : Row), rows[i]? = some a → rows[j]? = some b →
      ∃ q, a.2[j]? = some q ∧ t.distance a.1 b.1 = .ok q
  rejects : ∀ aInputFile, (¬ ∃ rows, Describes myText rows) →
    ofFile aInputFile (some myText) = .error (invalidTopologyFile aInputFile)

/-- The lines begin with the rows of a table, but some word behind a name is no number. -/
def Lax (myText : List Char) : Prop :=
  (∃ rows, (dataLines myText).mapM beginning = some rows ∧ IsTable rows) ∧
    ∃ myLine ∈ dataLines myText, ∃ w ∈ (words myLine).tail, number w = none

section Lines

variable {l : List Char} {r : Row}

/-- A line that is as it should be begins with its row. -/
theorem beginning_of_rowOf (h : rowOf l = some r) : beginning l = some r := by
  rcases words_cases l with ⟨-, -, hwords⟩ | ⟨w, rest, -, -, -, -, hread, hwords⟩
  · rw [rowOf, hwords] at h
    cases h
  · rw [rowOf, hwords] at h
    obtain ⟨myRow, hmap, rfl⟩ := Option.map_eq_some_iff.mp h
    rw [beginning, hread, Option.map_some, readNumbers_of_words hmap]

theorem number_of_rowOf (h : rowOf l = some r) : ∀ w ∈ (words l).tail, ∃ q, number w = some q := by
  rw [rowOf] at h
  split at h
  · cases h
  · next myName myNumbers hwords =>
    obtain ⟨myRow, hmap, -⟩ := Option.map_eq_some_iff.mp h
    rw [hwords, List.tail_cons]
    exact exists_mapM_some_iff.mp ⟨myRow, hmap⟩

/-- A line with nothing else behind its name than numbers is as it should be. -/
theorem rowOf_of_beginning (h : beginning l = some r)
    (hwords : ∀ w ∈ (words l).tail, ∃ q, number w = some q) : rowOf l = some r := by
  rcases words_cases l with ⟨-, hread, -⟩ | ⟨w, rest, -, -, -, -, hread, hcons⟩
  · rw [beginning, hread] at h
    cases h
  · rw [beginning, hread] at h
    rw [hcons, List.tail_cons] at hwords
    obtain ⟨myRow, hmap⟩ := exists_mapM_some_iff.mpr hwords
    rw [Option.map_some, readNumbers_of_words hmap] at h
    rw [rowOf, hcons]
    dsimp only
    rw [hmap]
    exact h

end Lines

section Texts

variable {myText : List Char} {rows : List Row}

theorem Describes.beginnings (h : Describes myText rows) :
    (dataLines myText).mapM beginning = some rows :=
  mapM_some_mono h.1 fun _ _ _ => beginning_of_rowOf

/-- A text that is read describes a table unless it is lax. -/
theorem describes_of_not_lax (h : ¬ Lax myText) (hrows : (dataLines myText).mapM beginning = some rows)
    (ht : IsTable rows) : Describes myText rows := by
  refine ⟨mapM_some_mono hrows fun l hl r hr => rowOf_of_beginning hr fun w hw => ?_, ht⟩
  by_contra hnone
  rw [not_exists] at hnone
  exact h ⟨⟨rows, hrows, ht⟩, l, hl, w, hw, Option.eq_none_iff_forall_ne_some.mpr hnone⟩

theorem Lax.not_describes (h : Lax myText) : ¬ Describes myText rows := by
  intro hd
  obtain ⟨-, l, hl, w, hw, hnone⟩ := h
  obtain ⟨r, hr⟩ := exists_mapM_some_iff.mp ⟨rows, hd.1⟩ l hl
  obtain ⟨q, hq⟩ := number_of_rowOf hr w hw
  rw [hnone] at hq
  cases hq

/-- The constructor keeps to the format except for texts where something else follows the
numbers of a table, and for those with too many numbers in a row. -/
theorem parsed_iff (myText : List Char) : Parsed myText ↔ ¬ Lax myText ∧ ¬ Overrun myText := by
  constructor
  · intro h
    have hone : ∀ f, ofFile f (some myText) ≠ .error .undefined := by
      intro f hundefined
      by_cases hex : ∃ rows, Describes myText rows
      · obtain ⟨rows, hd⟩ := hex
        obtain ⟨t, ht, -⟩ := h.accepts f rows hd
        cases hundefined.symm.trans ht
      · cases hundefined.symm.trans (h.rejects f hex)
    rcases ofFile_cases "" myText with ⟨-, hrun⟩ | ⟨hover, ⟨rows, t, hrows, ht, hrun, -⟩ | ⟨hnone, -⟩⟩
    · exact absurd hrun (hone "")
    · refine ⟨fun hlax => ?_, hover⟩
      have hex : ¬ ∃ rows, Describes myText rows := fun ⟨rows, hd⟩ => hlax.not_describes hd
      cases hrun.symm.trans (h.rejects "" hex)
    · exact ⟨fun ⟨⟨rows, hrows, ht⟩, _⟩ => hnone rows hrows ht, hover⟩
  · rintro ⟨hlax, hover⟩
    constructor
    · intro f rows hd
      rcases ofFile_cases f myText with ⟨hmet, -⟩ | ⟨-, ⟨rows', t, hrows, ht, hrun, hall⟩ | ⟨hnone, -⟩⟩
      · exact absurd hmet hover
      · cases hrows.symm.trans hd.beginnings
        exact ⟨t, hrun, hall⟩
      · exact absurd hd.2 (hnone rows hd.beginnings)
    · intro f hex
      rcases ofFile_cases f myText with ⟨hmet, -⟩ | ⟨-, ⟨rows, t, hrows, ht, -, -⟩ | ⟨-, hrun⟩⟩
      · exact absurd hmet hover
      · exact absurd ⟨rows, describes_of_not_lax hlax hrows ht⟩ hex
      · exact hrun

/-- A single node, with a word behind its distance that is no number. -/
theorem word_behind_number : ¬ ∀ myText, Parsed myText := by
  intro h
  let myText := ['a', ' ', '0', ' ', 'x', '\n']
  have hnone : ¬ ∃ rows, Describes myText rows := by
    rintro ⟨rows, hd, -⟩
    have heq : (dataLines myText).mapM rowOf = none := by decide +kernel
    rw [heq] at hd
    cases hd
  have hrejected := (h myText).rejects "file" hnone
  have haccepted : (ofFile "file" (some myText)).toOption.map Topology.theDistances = some [0] := by
    decide +kernel
  rw [hrejected] at haccepted
  cases haccepted

end Texts

end ServerlessEdge.Controller.Topology
