/-!
# Byte strings

Byte strings and the few operations that the stored formats are written in: big-endian numbers of
a fixed width, a window, and writing over a window.
-/

namespace RowStore

/-- A string of bytes, first byte first. -/
abbrev Bytes := List UInt8

namespace Bytes

/-- A run of zero bytes. -/
def zeros (n : Nat) : Bytes := List.replicate n 0

@[simp] theorem length_zeros (n : Nat) : (zeros n).length = n := List.length_replicate

/-! ## Big-endian numbers -/

/-- The low `width` digits of `n` in base 256, most significant first. -/
def ofNat : (width n : Nat) → Bytes
  | 0, _ => []
  | width + 1, n => ofNat width (n / 256) ++ [UInt8.ofNat n]

/-- The number that the bytes are the base 256 digits of, most significant first. -/
def toNat (b : Bytes) : Nat := b.foldl (fun n x => n * 256 + x.toNat) 0

@[simp] theorem length_ofNat (width n : Nat) : (ofNat width n).length = width := by
  induction width generalizing n with
  | zero => rfl
  | succ width ih => simp [ofNat, ih]

@[simp] theorem toNat_nil : toNat [] = 0 := rfl

@[simp] theorem toNat_append_singleton (b : Bytes) (x : UInt8) :
    toNat (b ++ [x]) = toNat b * 256 + x.toNat := by
  simp [toNat]

/-- Writing a number keeps what fits the width. -/
theorem toNat_ofNat (width n : Nat) : toNat (ofNat width n) = n % 1 <<< (8 * width) := by
  suffices h : toNat (ofNat width n) = n % 256 ^ width by
    simpa [Nat.one_shiftLeft, Nat.pow_mul] using h
  induction width generalizing n with
  | zero => simp [ofNat, Nat.mod_one]
  | succ width ih =>
    rw [ofNat, toNat_append_singleton, ih, Nat.pow_succ, Nat.mul_comm (256 ^ width) 256,
      Nat.mod_mul]
    simp only [UInt8.toNat_ofNat', Nat.reducePow]
    omega

/-! ## Windows -/

/-- The `len` bytes from the position `start` on, or as many of them as there are. -/
def slice (start len : Nat) (b : Bytes) : Bytes := (b.drop start).take len

/-- The first `len` bytes, with zeros after the end. -/
def resize (len : Nat) (b : Bytes) : Bytes := b.take len ++ zeros (len - b.length)

/-- The bytes with those from the position `start` on replaced, and zeros before it where there
was nothing. -/
def overwrite (start : Nat) (new b : Bytes) : Bytes :=
  resize start b ++ new ++ b.drop (start + new.length)

@[simp] theorem length_resize (len : Nat) (b : Bytes) : (resize len b).length = len := by
  simp only [resize, List.length_append, List.length_take, length_zeros]
  omega

/-- Writing makes a byte string just long enough. -/
@[simp] theorem length_overwrite (start : Nat) (new b : Bytes) :
    (overwrite start new b).length = max b.length (start + new.length) := by
  simp only [overwrite, List.length_append, length_resize, List.length_drop]
  omega

/-- What was written is what the window then shows. -/
@[simp] theorem slice_overwrite_self (start : Nat) (new b : Bytes) :
    slice start new.length (overwrite start new b) = new := by
  rw [slice, overwrite, List.append_assoc]
  simp

theorem getElem?_slice (start len : Nat) (b : Bytes) (i : Nat) :
    (slice start len b)[i]? = if i < len then b[start + i]? else none := by
  simp [slice, List.getElem?_take]

/-- Writing into a byte string only replaces the bytes written. Zeros come up only behind
its end. -/
theorem getElem?_overwrite {start i : Nat} {b : Bytes} (h : start ≤ b.length ∨ i < b.length)
    (new : Bytes) : (overwrite start new b)[i]? =
      if start ≤ i ∧ i < start + new.length then new[i - start]? else b[i]? := by
  have hr : (resize start b).length = start := length_resize start b
  simp only [overwrite, List.append_assoc, List.getElem?_append, hr]
  by_cases h₁ : i < start
  · have hb : i < (b.take start).length := by
      rw [List.length_take]
      omega
    simp [h₁, show ¬ start ≤ i by omega, resize, List.getElem?_append_left hb]
  · by_cases h₂ : i < start + new.length
    · simp [h₁, h₂, show i - start < new.length by omega, show start ≤ i by omega]
    · simp only [h₁, h₂, show ¬ i - start < new.length by omega, if_false, and_false,
        List.getElem?_drop]
      congr 1
      omega

/-- A window that ends before what is written, or starts behind it, shows what it showed. -/
theorem slice_overwrite_of_disjoint {start at' len : Nat} {new b : Bytes}
    (h : start ≤ b.length ∨ at' + len ≤ b.length)
    (hd : at' + len ≤ start ∨ start + new.length ≤ at') :
    slice at' len (overwrite start new b) = slice at' len b := by
  apply List.ext_getElem?
  intro i
  rw [getElem?_slice, getElem?_slice]
  split
  · rw [getElem?_overwrite (by omega), if_neg (by omega)]
  · rfl

/-- A window of which only the first bytes are written shows these, and then what it showed. -/
theorem slice_overwrite_take {start : Nat} {new b : Bytes} (h : start + new.length ≤ b.length)
    (k : Nat) : slice start new.length (overwrite start (new.take k) b) =
      new.take k ++ (slice start new.length b).drop k := by
  apply List.ext_getElem?
  intro i
  rw [getElem?_slice, List.getElem?_append, List.getElem?_drop, getElem?_slice, List.length_take]
  by_cases hi : i < new.length
  · rw [if_pos hi, getElem?_overwrite (.inl (by omega)), List.length_take]
    by_cases hk : i < min k new.length
    · rw [if_pos (by omega), if_pos hk, Nat.add_sub_cancel_left]
    · rw [if_neg (by omega), if_neg hk, show k + (i - min k new.length) = i by omega, if_pos hi]
  · rw [if_neg hi, if_neg (by omega), if_neg (by omega)]

/-- A window behind a byte that is changed shows what it showed. -/
theorem slice_modify_of_lt {at' start len : Nat} {b : Bytes} (f : UInt8 → UInt8)
    (h : at' < start) : slice start len (b.modify at' f) = slice start len b := by
  apply List.ext_getElem?
  intro i
  rw [getElem?_slice, getElem?_slice, List.getElem?_modify_ne _ _ (by omega)]

end Bytes

end RowStore
