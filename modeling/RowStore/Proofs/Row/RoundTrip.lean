import RowStore.Proofs.Row.Codec

/-!
# Storing a row and reading it back

A text has only one longest beginning that fits, so `Clip` is a function, and a text that fits is
its own clip. Hence what is read back of a row is determined by the row, reading it back once more
changes nothing, and two rows of a schema are stored alike just if the same is read back of both.
`Row.readsBack_of_make` puts this together for the rows that can be made for a schema.
-/

namespace RowStore

variable {s t u : String} {schema : Schema} {values others back : List Value} {row : Row}

/-! ## Texts -/

namespace Clip

/-- Of two longest beginnings each is a beginning of the other. -/
theorem unique (h : Clip s t) (h' : Clip s u) : t = u := by
  have htu := h'.longest h.start h.fits
  have hut := h.longest h'.start h'.fits
  exact String.toList_injective (htu.eq_of_length (Nat.le_antisymm htu.length_le hut.length_le))

/-- A text that fits is stored as a whole. -/
theorem self (h : s.utf8ByteSize ≤ textLimit) : Clip s s where
  start := List.prefix_rfl
  fits := h
  longest hu _ := hu

theorem fitting_eq (h : Clip s t) : fitting textLimit s.toList = t.toList := by
  rw [← (clip_fitting s).unique h, String.toList_ofList]

end Clip

/-! ## Values -/

namespace Value

variable {v w x : Value}

namespace ReadsAs

theorem unique (h : v.ReadsAs w) (h' : v.ReadsAs x) : w = x := by
  cases h with
  | int n =>
    cases h'
    rfl
  | text h =>
    cases h' with
    | text h' => rw [h.unique h']

theorem type_eq (h : v.ReadsAs w) : w.type = v.type := by
  cases h <;> rfl

/-- Nothing that is not read back is stored. -/
theorem encode_eq (h : v.ReadsAs w) : w.encode = v.encode := by
  cases h with
  | int n => rfl
  | @text s t h =>
    have hp : payload t = payload s := by
      rw [payload, payload, h.fitting_eq, (Clip.self h.fits).fitting_eq]
    rw [encode, encode, hp]

end ReadsAs

theorem readsAs_self (h : ∀ s, v = text s → s.utf8ByteSize ≤ textLimit) : v.ReadsAs v := by
  cases v with
  | int n => exact .int n
  | text s => exact .text (.self (h s rfl))

end Value

/-! ## Rows -/

theorem forall₂_readsAs_unique (h : List.Forall₂ Value.ReadsAs values back)
    (h' : List.Forall₂ Value.ReadsAs values others) : back = others :=
  List.right_unique_forall₂' (fun _ _ _ hv hv' => hv.unique hv') h h'

theorem forall₂_readsAs_self (h : ∀ s, .text s ∈ values → s.utf8ByteSize ≤ textLimit) :
    List.Forall₂ Value.ReadsAs values values :=
  List.forall₂_same.2 fun _ hv => Value.readsAs_self fun s hs => h s (hs ▸ hv)

theorem map_type_of_readsAs (h : List.Forall₂ Value.ReadsAs values back) :
    back.map Value.type = values.map Value.type := by
  induction h with
  | nil => rfl
  | cons hv _ ih => rw [List.map_cons, List.map_cons, hv.type_eq, ih]

theorem flatMap_encode_of_readsAs (h : List.Forall₂ Value.ReadsAs values back) :
    back.flatMap Value.encode = values.flatMap Value.encode := by
  induction h with
  | nil => rfl
  | cons hv _ ih => rw [List.flatMap_cons, List.flatMap_cons, hv.encode_eq, ih]

namespace Row

theorem make_eq_ok : make schema values = .ok row ↔
    values.map Value.type = schema.types ∧ row = ⟨values, none⟩ := by
  unfold make
  split
  · next ht => simp [ht, eq_comm]
  · next ht => simp [ht]

/-- The values `back` are what is read back of a row that has been made of some values for a
schema. -/
structure ReadsBack (schema : Schema) (values : List Value) (row : Row) (back : List Value) :
    Prop where
  /-- The stored form is as wide as the rows of the schema. -/
  width : row.encode.length = schema.rowSize
  /-- It decodes for every schema of the same types. -/
  decodes : ∀ {other : Schema}, other.types = schema.types →
    Value.decodeAll other.types row.encode = .ok back
  /-- Numbers are read back as they are, and of each text the longest beginning that fits. -/
  reads : List.Forall₂ Value.ReadsAs values back
  /-- If all texts fit then all values are read back as they are. -/
  unclipped : (∀ s, .text s ∈ values → s.utf8ByteSize ≤ textLimit) → back = values
  /-- What is read back makes up a row of the schema, of which the same is read back. -/
  again : ∃ clipped, make schema back = .ok clipped ∧
    Value.decodeAll schema.types clipped.encode = .ok back
  /-- Another row of the schema is stored alike just if the same is read back of it. -/
  alike : ∀ {others : List Value} {other : Row}, make schema others = .ok other →
    (other.encode = row.encode ↔ List.Forall₂ Value.ReadsAs others back)

/-- Every row that can be made for a schema can be read back, as far as its texts fit. -/
theorem readsBack_of_make (h : make schema values = .ok row) :
    ∃ back, ReadsBack schema values row back := by
  obtain ⟨ht, rfl⟩ := make_eq_ok.1 h
  obtain ⟨back, hdec, hreads⟩ := decodeAll_encode ⟨values, none⟩
  have hwidth : (⟨values, none⟩ : Row).encode.length = schema.rowSize := by
    rw [length_encode, size, types, ht, Schema.rowSize]
  have hdecode : Value.decodeAll schema.types (values.flatMap Value.encode) = .ok back := ht ▸ hdec
  refine ⟨back, hwidth, fun hother => hother ▸ hdecode, hreads, fun hfit => ?_,
    ⟨⟨back, none⟩, ?_, ?_⟩, fun {others other} hmade => ?_⟩
  · exact forall₂_readsAs_unique hreads (forall₂_readsAs_self hfit)
  · exact make_eq_ok.2 ⟨(map_type_of_readsAs hreads).trans ht, rfl⟩
  · rw [encode, flatMap_encode_of_readsAs hreads]
    exact hdecode
  · obtain ⟨hto, rfl⟩ := make_eq_ok.1 hmade
    obtain ⟨read, hdec', hreads'⟩ := decodeAll_encode ⟨others, none⟩
    constructor
    · intro heq
      rw [heq, types, hto] at hdec'
      obtain rfl : read = back := Except.ok.inj (hdec'.symm.trans hdecode)
      exact hreads'
    · intro hother
      rw [encode, encode, ← flatMap_encode_of_readsAs hother, ← flatMap_encode_of_readsAs hreads]

end Row

namespace Sample

/-- A number and a text to each row. -/
def labelled : Schema := .ofTypes [.int, .text]

/-- A text of characters of three bytes each. -/
def euros (n : Nat) : String := .ofList (.replicate n '€')

/-- The least number, and a text that takes 129 bytes. -/
def overlong : List Value := [.int (-2147483648), .text (euros 43)]

theorem clip_euros : Clip (euros 43) (euros 42) := by
  have h := clip_fitting (euros 43)
  have hf : fitting textLimit (euros 43).toList = List.replicate 42 '€' := by
    rw [euros, String.toList_ofList]
    decide
  rwa [hf] at h

/-- The text is cut off two bytes before the limit, behind its last whole character that fits. -/
theorem readsBack_overlong :
    Row.make labelled overlong = .ok ⟨overlong, none⟩ ∧
      Row.ReadsBack labelled overlong ⟨overlong, none⟩
        [.int (-2147483648), .text (euros 42)] := by
  have hmade : Row.make labelled overlong = .ok ⟨overlong, none⟩ := Row.make_eq_ok.2 ⟨rfl, rfl⟩
  obtain ⟨back, hback⟩ := Row.readsBack_of_make hmade
  have hread := forall₂_readsAs_unique hback.reads (.cons (.int _) (.cons (.text clip_euros) .nil))
  exact ⟨hmade, hread ▸ hback⟩

end Sample

end RowStore
