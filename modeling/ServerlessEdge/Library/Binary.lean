import Mathlib.Algebra.Order.Ring.Nat
import Mathlib.Tactic.Ring
import ServerlessEdge.Library.Triple

/-! Binary files: values that occupy a fixed number of bytes, and streams that are read without
looking at their state, so that what is not read keeps what was in the memory before. -/
namespace ServerlessEdge.Library.Binary

section Words

/-- The bytes of a number, the least significant one first. -/
def toBytes : ℕ → ℕ → List UInt8
  | 0, _ => []
  | k + 1, n => UInt8.ofNat n :: toBytes k (n / 256)

def ofBytes : List UInt8 → ℕ
  | [] => 0
  | b :: bs => b.toNat + 256 * ofBytes bs

theorem length_toBytes (k n : ℕ) : (toBytes k n).length = k := by
  induction k generalizing n with
  | zero => rfl
  | succ k ih => rw [toBytes, List.length_cons, ih]

theorem ofBytes_toBytes {k n : ℕ} (h : n < 256 ^ k) : ofBytes (toBytes k n) = n := by
  induction k generalizing n with
  | zero =>
    rw [pow_zero, Nat.lt_one_iff] at h
    rw [h]
    rfl
  | succ k ih =>
    have hdiv : n / 256 < 256 ^ k := by
      apply Nat.div_lt_of_lt_mul
      rwa [← pow_succ']
    rw [toBytes, ofBytes, ih hdiv, UInt8.toNat_ofNat']
    exact Nat.mod_add_div n 256

end Words

/-- Values of a type as strings of bytes of one size. -/
structure Codec (α : Type) where
  size : ℕ
  encode : α → List UInt8
  decode : List UInt8 → α
  length_encode : ∀ a, (encode a).length = size
  decode_encode : ∀ a, decode (encode a) = a

namespace Codec

variable {α β : Type}

def word : Codec UInt64 where
  size := 8
  encode w := toBytes 8 w.toNat
  decode bs := UInt64.ofNat (ofBytes bs)
  length_encode _ := length_toBytes _ _
  decode_encode w := by
    rw [ofBytes_toBytes w.toNat_lt, UInt64.ofNat_toNat]

def pair (c : Codec α) (c' : Codec β) : Codec (α × β) where
  size := c.size + c'.size
  encode x := c.encode x.1 ++ c'.encode x.2
  decode bs := (c.decode (bs.take c.size), c'.decode (bs.drop c.size))
  length_encode x := by rw [List.length_append, c.length_encode, c'.length_encode]
  decode_encode x := by
    rw [← c.length_encode x.1, List.take_left, List.drop_left, c.decode_encode, c'.decode_encode]

/-- The values of a type in place of others. -/
def rename (c : Codec α) (f : α → β) (g : β → α) (h : ∀ b, f (g b) = b) : Codec β where
  size := c.size
  encode b := c.encode (g b)
  decode bs := f (c.decode bs)
  length_encode b := c.length_encode (g b)
  decode_encode b := by rw [c.decode_encode, h]

variable (c : Codec α)

def encodeAll (l : List α) : List UInt8 := l.flatMap c.encode

/-- As many values as that, one after the other. -/
def decodeAll : ℕ → List UInt8 → List α
  | 0, _ => []
  | n + 1, bs => c.decode (bs.take c.size) :: decodeAll n (bs.drop c.size)

theorem length_encodeAll (l : List α) : (c.encodeAll l).length = c.size * l.length := by
  induction l with
  | nil => rfl
  | cons a l ih =>
    rw [encodeAll, List.flatMap_cons, List.length_append, c.length_encode, List.length_cons,
      Nat.mul_succ, Nat.add_comm (c.size * l.length), ← ih]
    rfl

theorem decodeAll_encodeAll (l : List α) : c.decodeAll l.length (c.encodeAll l) = l := by
  induction l with
  | nil => rfl
  | cons a l ih =>
    have hcons : c.encodeAll (a :: l) = c.encode a ++ c.encodeAll l := rfl
    rw [List.length_cons, decodeAll, hcons, ← c.length_encode a, List.take_left, List.drop_left,
      c.decode_encode, ih]

end Codec

section Streams
open Triple

/-- What is left of a file, unless a read has gone beyond its end. -/
structure Stream where
  rest : List UInt8
  good : Bool

variable {ε α : Type}

/-- A memory with some bytes written to its beginning, as far as they fit. -/
def overlay (bytes mem : List UInt8) : List UInt8 := bytes.take mem.length ++ mem.drop bytes.length

/-- The memory after a read into all of it. -/
def read (mem : List UInt8) : EStateM ε Stream (List UInt8) := do
  let s ← get
  if s.good then
    set (⟨s.rest.drop mem.length, decide (mem.length ≤ s.rest.length)⟩ : Stream)
    pure (overlay s.rest mem)
  else pure mem

/-- A value is read to where there was another one. -/
def readValue (c : Codec α) (stale : α) : EStateM ε Stream α := do
  let bytes ← read (c.encode stale)
  pure (c.decode bytes)

/-- The stream is at a position of the file, or the reads have gone beyond the end. -/
def At (file : List UInt8) (o : ℕ) (s : Stream) : Prop :=
  o ≤ file.length ∧ s = ⟨file.drop o, true⟩ ∨ file.length < o ∧ s.good = false

variable {file : List UInt8} {o : ℕ} {s : Stream}

theorem at_start (file : List UInt8) : At file 0 ⟨file, true⟩ := .inl ⟨Nat.zero_le _, rfl⟩

theorem overlay_nil (mem : List UInt8) : overlay [] mem = mem := by
  rw [overlay, List.take_nil, List.nil_append, List.length_nil, List.drop_zero]

/-- A read fills the memory from the file, from the position on. -/
theorem read_at (h : At file o s) (mem : List UInt8) :
    ∃ s', (read mem : EStateM ε Stream _) s = .ok (overlay (file.drop o) mem) s' ∧
      At file (o + mem.length) s' := by
  rcases h with ⟨ho, rfl⟩ | ⟨ho, hbad⟩
  · refine ⟨_, rfl, ?_⟩
    by_cases hfits : o + mem.length ≤ file.length
    · refine .inl ⟨hfits, ?_⟩
      rw [List.drop_drop, List.length_drop, decide_eq_true (by omega)]
    · refine .inr ⟨by omega, ?_⟩
      rw [List.length_drop]
      exact decide_eq_false (by omega)
  · refine ⟨s, ?_, .inr ⟨by omega, hbad⟩⟩
    rw [read, get_bind_apply, hbad, List.drop_eq_nil_of_le ho.le, overlay_nil]
    rfl

theorem readValue_at (h : At file o s) (c : Codec α) (stale : α) :
    ∃ s', (readValue c stale : EStateM ε Stream _) s =
      .ok (c.decode (overlay (file.drop o) (c.encode stale))) s' ∧ At file (o + c.size) s' := by
  obtain ⟨s', hs', hat⟩ := read_at h (c.encode stale)
  rw [c.length_encode] at hat
  exact ⟨s', bind_of_ok hs' _, hat⟩

theorem overlay_within {before bytes behind mem : List UInt8} (h : bytes.length = mem.length) :
    overlay ((before ++ bytes ++ behind).drop before.length) mem = bytes := by
  have hrest : mem.drop (bytes ++ behind).length = [] := by
    apply List.drop_eq_nil_of_le
    rw [List.length_append]
    omega
  rw [List.append_assoc, List.drop_left, overlay, hrest, ← h, List.take_left, List.append_nil]

/-- Some bytes within a file that is cut off are there as far as it goes. -/
theorem overlay_take {before bytes behind mem : List UInt8} (h : bytes.length = mem.length) (k : ℕ) :
    overlay (((before ++ bytes ++ behind).take k).drop before.length) mem =
      bytes.take (k - before.length) ++ mem.drop (k - before.length) := by
  rw [List.drop_take, List.append_assoc, List.drop_left, overlay, List.take_take, List.length_take,
    List.length_append]
  by_cases hk : k - before.length ≤ bytes.length
  · rw [min_eq_right (h ▸ hk), min_eq_left (by omega), List.take_append_of_le_length hk]
  · rw [min_eq_left (by omega), ← h, List.take_left, List.take_of_length_le (by omega),
      List.drop_eq_nil_of_le (by omega), List.drop_eq_nil_of_le (by omega)]

end Streams

end ServerlessEdge.Library.Binary
