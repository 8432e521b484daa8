import Mathlib.Data.List.Forall2
import RowStore.Row

/-!
# What a stored row reads as

Numbers are read back as they were. Of a text the row stores the longest beginning whose characters
fit, and this is what is read back: `Clip` says so without telling how the beginning is found. As a
beginning is a list of characters, what is stored of a text is valid UTF-8 again, so a row that has
been stored never fails to decode.
-/

namespace RowStore

variable {room : Nat} {cs ds : List Char} {s : String} {row : Row}

/-! ## Beginnings of texts -/

theorem fitting_isPrefix (room : Nat) (cs : List Char) : fitting room cs <+: cs := by
  fun_induction fitting room cs with
  | case1 => exact List.nil_prefix
  | case2 room c cs h ih => exact List.cons_prefix_cons.2 ⟨rfl, ih⟩
  | case3 => exact List.nil_prefix

/-- Every beginning that fits is a beginning of the one that is stored. -/
theorem isPrefix_fitting (h : ds <+: cs)
    (hr : (ds.flatMap String.utf8EncodeChar).length ≤ room) : ds <+: fitting room cs := by
  fun_induction fitting room cs generalizing ds with
  | case1 => exact h
  | case2 room c cs hc ih =>
    cases ds with
    | nil => exact List.nil_prefix
    | cons d ds =>
      obtain ⟨rfl, hd⟩ := List.cons_prefix_cons.1 h
      rw [List.flatMap_cons, List.length_append, String.length_utf8EncodeChar] at hr
      exact List.cons_prefix_cons.2 ⟨rfl, ih hd (by omega)⟩
  | case3 room c cs hc =>
    cases ds with
    | nil => exact List.nil_prefix
    | cons d ds =>
      obtain ⟨rfl, -⟩ := List.cons_prefix_cons.1 h
      rw [List.flatMap_cons, List.length_append, String.length_utf8EncodeChar] at hr
      omega

theorem utf8ByteSize_eq (s : String) :
    s.utf8ByteSize = (s.toList.flatMap String.utf8EncodeChar).length := by
  conv => lhs; rw [← String.ofList_toList (s := s)]
  rw [String.utf8ByteSize, String.toByteArray_ofList, List.utf8Encode, List.size_toByteArray]

/-- The text `t` is the longest beginning of `s` that a row stores. -/
structure Clip (s t : String) : Prop where
  /-- It is a beginning. -/
  start : t.toList <+: s.toList
  /-- It fits. -/
  fits : t.utf8ByteSize ≤ textLimit
  /-- No longer beginning fits. -/
  longest : ∀ {u : String}, u.toList <+: s.toList → u.utf8ByteSize ≤ textLimit →
    u.toList <+: t.toList

theorem clip_fitting (s : String) : Clip s (String.ofList (fitting textLimit s.toList)) where
  start := by
    rw [String.toList_ofList]
    exact fitting_isPrefix textLimit s.toList
  fits := by
    rw [utf8ByteSize_eq, String.toList_ofList]
    exact Value.length_flatMap_fitting_le textLimit s.toList
  longest hu hs := by
    rw [String.toList_ofList]
    exact isPrefix_fitting hu (utf8ByteSize_eq _ ▸ hs)

/-! ## Values -/

namespace Value

/-- The second value is what the first one reads as once it is stored. -/
inductive ReadsAs : Value → Value → Prop
  /-- A number reads as itself. -/
  | int (n : Int32) : ReadsAs (int n) (int n)
  /-- A text reads as the beginning that is stored of it. -/
  | text {s t : String} (h : Clip s t) : ReadsAs (text s) (text t)

theorem fromUTF8?_flatMap (cs : List Char) :
    String.fromUTF8? (ByteArray.mk (cs.flatMap String.utf8EncodeChar).toArray) =
      some (String.ofList cs) := by
  have hb : ByteArray.mk (cs.flatMap String.utf8EncodeChar).toArray =
      (String.ofList cs).toByteArray := by
    rw [String.toByteArray_ofList, List.utf8Encode]
    exact ByteArray.ext List.data_toByteArray.symm
  rw [hb, String.fromUTF8?, dif_pos (String.isValidUTF8 _)]
  rfl

/-- What is stored of a value decodes, whatever follows it. -/
theorem decode_encode_append (v : Value) (rest : Bytes) :
    ∃ w, decode v.type (v.encode ++ rest) = .ok w ∧ v.ReadsAs w := by
  cases v with
  | int n =>
    refine ⟨int n, ?_, .int n⟩
    have hlen : n.toUInt32.toNat < 4294967296 := n.toUInt32.toNat_lt
    have hlt : n.toUInt32.toNat % 1 <<< (8 * 4) = n.toUInt32.toNat := Nat.mod_eq_of_lt hlen
    simp only [decode, encode, type, List.take_left' (Bytes.length_ofNat 4 _), Bytes.toNat_ofNat,
      hlt]
    rw [UInt32.ofNat_toNat, Int32.toInt32_toUInt32]
  | text s =>
    refine ⟨text (String.ofList (fitting textLimit s.toList)), ?_, .text (clip_fitting s)⟩
    have hroom : (payload s).length ≤ textLimit := length_flatMap_fitting_le textLimit s.toList
    have hlen : (payload s).length % 1 <<< (8 * 4) = (payload s).length :=
      Nat.mod_eq_of_lt (Nat.lt_of_le_of_lt hroom (by decide))
    have hslice : Bytes.slice 4 (payload s).length
        (Bytes.ofNat 4 (payload s).length ++ (payload s ++
          (Bytes.zeros (textLimit - (payload s).length) ++ rest))) = payload s := by
      rw [Bytes.slice, List.drop_left' (Bytes.length_ofNat 4 _), List.take_left]
    simp only [decode, encode, type, List.append_assoc, List.take_left' (Bytes.length_ofNat 4 _),
      Bytes.toNat_ofNat, hlen, Nat.min_eq_left hroom, hslice]
    rw [payload, fromUTF8?_flatMap]

end Value

/-! ## Rows -/

/-- A row that has been stored decodes, to what its values read as. -/
theorem Row.decodeAll_encode (row : Row) : ∃ values,
    Value.decodeAll row.types row.encode = .ok values ∧
      List.Forall₂ Value.ReadsAs row.values values := by
  obtain ⟨values, id⟩ := row
  simp only [Row.types, Row.encode]
  induction values with
  | nil => exact ⟨[], rfl, .nil⟩
  | cons v vs ih =>
    obtain ⟨ws, hws, hvs⟩ := ih
    obtain ⟨w, hw, hv⟩ := v.decode_encode_append (vs.flatMap Value.encode)
    refine ⟨w :: ws, ?_, .cons hv hvs⟩
    rw [List.map_cons, List.flatMap_cons, Value.decodeAll, hw, ← v.length_encode, List.drop_left,
      hws]
    rfl

end RowStore
