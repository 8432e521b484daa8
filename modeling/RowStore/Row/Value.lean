import RowStore.Bytes
import RowStore.Error
import RowStore.Row.Schema

/-!
# Values and their stored form

A number is stored as four big-endian bytes. A text is stored as its length in four bytes, then its
UTF-8 bytes, then zeros up to the fixed width; of a text that is too long the longest beginning that
fits is stored, and never a part of a character.
-/

namespace RowStore

/-- A value of a column. -/
inductive Value
  /-- A signed 32-bit number. -/
  | int (n : Int32)
  /-- A text. -/
  | text (s : String)
deriving DecidableEq

/-- The longest beginning of a text whose characters take at most `room` bytes. -/
def fitting : (room : Nat) → List Char → List Char
  | _, [] => []
  | room, c :: cs => if c.utf8Size ≤ room then c :: fitting (room - c.utf8Size) cs else []

namespace Value

/-- The type of the columns that may hold a value. -/
def type : Value → ColumnType
  | int _ => .int
  | text _ => .text

/-- The value as it reads. -/
def display : Value → String
  | int n => toString n.toInt
  | text s => s

/-- The beginning of a text that fits takes no more bytes than there is room for. -/
theorem length_flatMap_fitting_le (room : Nat) (cs : List Char) :
    ((fitting room cs).flatMap String.utf8EncodeChar).length ≤ room := by
  fun_induction fitting room cs with
  | case1 => simp
  | case2 room c cs h ih =>
    simp only [List.flatMap_cons, List.length_append, String.length_utf8EncodeChar]
    omega
  | case3 => simp

/-- The bytes of a text that a row stores. -/
def payload (s : String) : Bytes := (fitting textLimit s.toList).flatMap String.utf8EncodeChar

/-- The stored form, as wide as the column. -/
def encode : Value → Bytes
  | int n => Bytes.ofNat 4 n.toUInt32.toNat
  | text s =>
    Bytes.ofNat 4 (payload s).length ++ payload s ++ Bytes.zeros (textLimit - (payload s).length)

/-- Every value is stored as wide as its column. -/
@[simp] theorem length_encode (v : Value) : v.encode.length = v.type.width := by
  cases v with
  | int n => simp [encode, type, ColumnType.width]
  | text s =>
    have : (payload s).length ≤ textLimit := length_flatMap_fitting_le textLimit s.toList
    simp only [encode, type, ColumnType.width, List.length_append, Bytes.length_ofNat,
      Bytes.length_zeros]
    omega

/-- The value of a type that the bytes store. A length beyond the limit counts as the limit. -/
def decode : ColumnType → Bytes → Except Error Value
  | .int, b => .ok (.int (UInt32.ofNat (Bytes.toNat (b.take 4))).toInt32)
  | .text, b =>
    let len := min (Bytes.toNat (b.take 4)) textLimit
    match String.fromUTF8? (ByteArray.mk (Bytes.slice 4 len b).toArray) with
    | some s => .ok (.text s)
    | none => .error .invalidText

/-- The values of the types that the bytes store one after the other. -/
def decodeAll : List ColumnType → Bytes → Except Error (List Value)
  | [], _ => .ok []
  | t :: ts, b => do
    let v ← decode t b
    let vs ← decodeAll ts (b.drop t.width)
    return v :: vs

end Value

end RowStore
