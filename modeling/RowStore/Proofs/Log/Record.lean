import RowStore.Log.Record

/-!
# Stored records read back

The numbers of a record are stored with a fixed number of bytes, so a record reads back only if
they fit: then decoding its stored form gives the record, field for field. A number that does not
fit is cut, and the length of an image cut short would make the reader lose its place, so the bound
on the lengths is one on the whole body.
-/

namespace RowStore.UpdateRecord

variable {r : UpdateRecord}

/-- Every number of the record fits the bytes that it is stored in. -/
structure Storable (r : UpdateRecord) : Prop where
  /-- The transaction has 64 bits. -/
  txn : r.txn < UInt64.size
  /-- The table has 64 bits. -/
  table : r.page.table < UInt64.size
  /-- The page number has 32 bits. -/
  number : r.page.number < UInt32.size
  /-- The length of the body has 32 bits. -/
  body : 28 + r.before.length + r.after.length < UInt32.size

instance : DecidablePred Storable := fun r =>
  decidable_of_iff (r.txn < UInt64.size ∧ r.page.table < UInt64.size ∧
    r.page.number < UInt32.size ∧ 28 + r.before.length + r.after.length < UInt32.size)
    ⟨fun ⟨h₁, h₂, h₃, h₄⟩ => ⟨h₁, h₂, h₃, h₄⟩, fun h => ⟨h.txn, h.table, h.number, h.body⟩⟩

/-- The fields other than the images take 28 bytes. -/
theorem length_body (r : UpdateRecord) :
    r.body.length = 28 + r.before.length + r.after.length := by
  simp only [body, List.length_append, Bytes.length_ofNat]
  omega

theorem length_encode (r : UpdateRecord) : r.encode.length = 4 + r.body.length := by
  simp [encode]

/-- What stands in `b` from a position on. -/
def Ahead (b : Bytes) (position : Nat) (rest : Bytes) : Prop :=
  ∃ a : Bytes, a.length = position ∧ b = a ++ rest

/-- Taking the bytes that stand at a position gives them, and leaves what stands behind them. -/
theorem Ahead.take {b x rest : Bytes} {position len : Nat} (h : Ahead b position (x ++ rest))
    (hx : x.length = len) :
    take b position len = .ok (x, position + len) ∧ Ahead b (position + len) rest := by
  obtain ⟨a, rfl, rfl⟩ := h
  subst hx
  constructor
  · rw [UpdateRecord.take, if_neg (by simp [← Nat.add_assoc])]
    simp [Bytes.slice]
  · exact ⟨a ++ x, List.length_append, (List.append_assoc ..).symm⟩

/-- A number that fits the bytes it is stored in reads back. -/
theorem toNat_ofNat_of_lt (width : Nat) {n : Nat} (h : n < 1 <<< (8 * width)) :
    Bytes.toNat (Bytes.ofNat width n) = n := by
  rw [Bytes.toNat_ofNat, Nat.mod_eq_of_lt h]

/-- Decoding the stored body of a record gives the record. -/
theorem decode_body (h : r.Storable) : decode r.body = .ok r := by
  have hbefore : r.before.length < UInt32.size := by have := h.body; omega
  have hafter : r.after.length < UInt32.size := by have := h.body; omega
  have d₀ : Ahead r.body 0 (Bytes.ofNat 8 r.txn ++ (Bytes.ofNat 8 r.page.table ++
      (Bytes.ofNat 4 r.page.number ++ (Bytes.ofNat 4 r.before.length ++ (r.before ++
      (Bytes.ofNat 4 r.after.length ++ (r.after ++ []))))))) :=
    ⟨[], rfl, by simp only [body, List.append_assoc, List.append_nil, List.nil_append]⟩
  -- each field is taken from what the fields before it have left
  obtain ⟨h₁, d₁⟩ := d₀.take (Bytes.length_ofNat 8 _)
  obtain ⟨h₂, d₂⟩ := d₁.take (Bytes.length_ofNat 8 _)
  obtain ⟨h₃, d₃⟩ := d₂.take (Bytes.length_ofNat 4 _)
  obtain ⟨h₄, d₄⟩ := d₃.take (Bytes.length_ofNat 4 _)
  obtain ⟨h₅, d₅⟩ := d₄.take (toNat_ofNat_of_lt 4 hbefore).symm
  obtain ⟨h₆, d₆⟩ := d₅.take (Bytes.length_ofNat 4 _)
  obtain ⟨h₇, -⟩ := d₆.take (toNat_ofNat_of_lt 4 hafter).symm
  refine bind_eq_ok.2 ⟨_, h₁, bind_eq_ok.2 ⟨_, h₂, bind_eq_ok.2 ⟨_, h₃, bind_eq_ok.2 ⟨_, h₄,
    bind_eq_ok.2 ⟨_, h₅, bind_eq_ok.2 ⟨_, h₆, bind_eq_ok.2 ⟨_, h₇, ?_⟩⟩⟩⟩⟩⟩⟩
  simp only [toNat_ofNat_of_lt 8 h.txn, toNat_ofNat_of_lt 8 h.table, toNat_ofNat_of_lt 4 h.number]
  rfl

/-- What stands behind a stored record makes no difference to how long it says that it is. -/
theorem toNat_slice_encode (h : r.Storable) (b : Bytes) :
    Bytes.toNat (Bytes.slice 0 4 (r.encode ++ b)) = r.body.length := by
  have hlt : r.body.length < 1 <<< (8 * 4) := by
    rw [length_body]
    exact h.body
  rw [encode, Bytes.slice, List.drop_zero, List.append_assoc, List.take_left' (by simp),
    toNat_ofNat_of_lt 4 hlt]

end RowStore.UpdateRecord
