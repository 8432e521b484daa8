import RowStore.Bytes

/-!
# Byte strings with holes

A file may be written far behind its end. What lies between reads as zeros and need not be stored:
a sparse byte string keeps such a gap as a hole.

The view of a sparse byte string is `SparseBytes.bytes`, the byte string that it stands for, and
there is one lemma for what each operation does to it.
-/

namespace RowStore

/-- A part of a sparse byte string. -/
inductive Stretch
  /-- Bytes that are stored. -/
  | data (b : Array UInt8)
  /-- A number of zeros that are not stored. -/
  | hole (n : Nat)
deriving DecidableEq

namespace Stretch

/-- The bytes that a stretch stands for. -/
def bytes : Stretch → Bytes
  | data b => b.toList
  | hole n => Bytes.zeros n

/-- How many bytes a stretch stands for. -/
def length : Stretch → Nat
  | data b => b.size
  | hole n => n

/-- How many of them are not stored. -/
def gap : Stretch → Nat
  | data _ => 0
  | hole n => n

/-- The first `n` bytes of a stretch. -/
def take (n : Nat) : Stretch → Stretch
  | data b => data (b.take n)
  | hole k => hole (min n k)

/-- A stretch without its first `n` bytes. -/
def drop (n : Nat) : Stretch → Stretch
  | data b => data (b.drop n)
  | hole k => hole (k - n)

@[simp] theorem length_bytes (s : Stretch) : s.bytes.length = s.length := by
  cases s <;> simp [bytes, length]

@[simp] theorem bytes_take (n : Nat) (s : Stretch) : (s.take n).bytes = s.bytes.take n := by
  cases s <;> simp [take, bytes, Bytes.zeros]

@[simp] theorem bytes_drop (n : Nat) (s : Stretch) : (s.drop n).bytes = s.bytes.drop n := by
  cases s with
  | data b => simp [drop, bytes, List.take_of_length_le]
  | hole k => simp [drop, bytes, Bytes.zeros]

theorem gap_take_le (n : Nat) (s : Stretch) : (s.take n).gap ≤ s.gap := by
  cases s with
  | data b => exact Nat.le_refl 0
  | hole k => exact Nat.min_le_right n k

theorem gap_le_length (s : Stretch) : s.gap ≤ s.length := by
  cases s with
  | data b => exact Nat.zero_le _
  | hole k => exact Nat.le_refl k

end Stretch

/-- A byte string with holes, as its stretches in order. -/
abbrev SparseBytes := List Stretch

namespace SparseBytes

/-- The byte string that a sparse one stands for. -/
def bytes (s : SparseBytes) : Bytes := s.flatMap Stretch.bytes

/-- A byte string without holes, as `n` stretches of 4096 bytes and one with the rest. -/
def chunks : (n : Nat) → Bytes → SparseBytes
  | 0, b => [.data b.toArray]
  | n + 1, b => .data (b.take 4096).toArray :: chunks n (b.drop 4096)

/-- A byte string without holes. -/
def ofBytes (b : Bytes) : SparseBytes := chunks (b.length / 4096) b

/-- How many bytes there are, those in holes included. -/
def length (s : SparseBytes) : Nat := s.foldr (·.length + ·) 0

/-- How many bytes are in holes. -/
def gap (s : SparseBytes) : Nat := s.foldr (·.gap + ·) 0

/-- The first `n` bytes. -/
def take : (n : Nat) → SparseBytes → SparseBytes
  | 0, _ => []
  | _, [] => []
  | n, s :: rest => s.take n :: take (n - s.length) rest

/-- What is left without the first `n` bytes. -/
def drop : (n : Nat) → SparseBytes → SparseBytes
  | _, [] => []
  | n, s :: rest => if n < s.length then s.drop n :: rest else drop (n - s.length) rest

/-- The `len` bytes from the position `start` on, or as many of them as there are. -/
def slice (start len : Nat) (s : SparseBytes) : Bytes := bytes (take len (drop start s))

/-- The first `len` bytes, with a hole after the end. -/
def resize (len : Nat) (s : SparseBytes) : SparseBytes := take len s ++ [.hole (len - length s)]

/-- The bytes with those from the position `start` on replaced, and a hole before it where there
was nothing. -/
def overwrite (start : Nat) (new : Bytes) (s : SparseBytes) : SparseBytes :=
  resize start s ++ .data new.toArray :: drop (start + new.length) s

@[simp] theorem bytes_nil : bytes [] = [] := rfl

@[simp] theorem bytes_cons (s : Stretch) (rest : SparseBytes) :
    bytes (s :: rest) = s.bytes ++ bytes rest := rfl

@[simp] theorem bytes_append (s t : SparseBytes) : bytes (s ++ t) = bytes s ++ bytes t :=
  List.flatMap_append

@[simp] theorem bytes_chunks (n : Nat) (b : Bytes) : bytes (chunks n b) = b := by
  induction n generalizing b with
  | zero => simp [chunks, Stretch.bytes]
  | succ n ih => simp [chunks, ih, Stretch.bytes]

@[simp] theorem bytes_ofBytes (b : Bytes) : bytes (ofBytes b) = b := bytes_chunks _ b

theorem length_cons (s : Stretch) (rest : SparseBytes) :
    length (s :: rest) = s.length + length rest := rfl

@[simp] theorem length_bytes (s : SparseBytes) : (bytes s).length = length s := by
  induction s with
  | nil => rfl
  | cons s rest ih => simp [length_cons, ih]

@[simp] theorem bytes_take (n : Nat) (s : SparseBytes) : bytes (take n s) = (bytes s).take n := by
  fun_induction take n s with
  | case1 => simp
  | case2 => simp
  | case3 n s rest _ ih => simp [ih, List.take_append]

@[simp] theorem bytes_drop (n : Nat) (s : SparseBytes) : bytes (drop n s) = (bytes s).drop n := by
  fun_induction drop n s with
  | case1 => simp
  | case2 n s rest h =>
    have : n - s.length = 0 := by omega
    simp [List.drop_append, this]
  | case3 n s rest h ih =>
    have : s.bytes.drop n = [] := List.drop_eq_nil_of_le (by simpa using h)
    simp [ih, List.drop_append, this]

@[simp] theorem slice_eq (start len : Nat) (s : SparseBytes) :
    slice start len s = Bytes.slice start len (bytes s) := by
  simp [slice, Bytes.slice]

@[simp] theorem bytes_resize (len : Nat) (s : SparseBytes) :
    bytes (resize len s) = Bytes.resize len (bytes s) := by
  simp [resize, Bytes.resize, Stretch.bytes]

@[simp] theorem bytes_overwrite (start : Nat) (new : Bytes) (s : SparseBytes) :
    bytes (overwrite start new s) = Bytes.overwrite start new (bytes s) := by
  simp [overwrite, Bytes.overwrite, Stretch.bytes]

@[simp] theorem length_drop (n : Nat) (s : SparseBytes) : length (drop n s) = length s - n := by
  simp only [← length_bytes, bytes_drop, List.length_drop]

/-! ## Holes -/

@[simp] theorem gap_nil : gap [] = 0 := rfl

@[simp] theorem gap_cons (s : Stretch) (rest : SparseBytes) :
    gap (s :: rest) = s.gap + gap rest := rfl

@[simp] theorem gap_append (s t : SparseBytes) : gap (s ++ t) = gap s + gap t := by
  induction s with
  | nil => simp
  | cons s rest ih => simp [ih, Nat.add_assoc]

theorem gap_le_length (s : SparseBytes) : gap s ≤ length s := by
  induction s with
  | nil => exact Nat.le_refl 0
  | cons s rest ih => exact Nat.add_le_add s.gap_le_length ih

theorem gap_chunks (n : Nat) (b : Bytes) : gap (chunks n b) = 0 := by
  induction n generalizing b with
  | zero => simp [chunks, Stretch.gap]
  | succ n ih => simp [chunks, ih, Stretch.gap]

/-- A byte string that is stored whole has no holes. -/
@[simp] theorem gap_ofBytes (b : Bytes) : gap (ofBytes b) = 0 := gap_chunks _ b

theorem gap_take_le (n : Nat) (s : SparseBytes) : gap (take n s) ≤ gap s := by
  fun_induction take n s with
  | case1 => simp
  | case2 => simp
  | case3 n s rest _ ih =>
    simp only [gap_cons]
    exact Nat.add_le_add (s.gap_take_le n) ih

/-- Cutting makes no hole. -/
theorem gap_resize_le {len : Nat} {s : SparseBytes} (h : len ≤ length s) :
    gap (resize len s) ≤ gap s := by
  simpa [resize, Stretch.gap, Nat.sub_eq_zero_of_le h] using gap_take_le len s

end SparseBytes

end RowStore
