import RowStore.Text.Combining
import RowStore.Text.Ignorable
import RowStore.Text.Unprintable

/-!
# Quoted text

Text between double quotes, in which every character shows: the quote and the backslash are
escaped, four controls have short escapes, and a character that would not print by itself is
written as its code point in braces. Bytes that are no character are written as two hexadecimal
digits.
-/

namespace RowStore.Text

/-- A code point in lower-case hexadecimal digits, between braces. -/
def escapeCode (c : Char) : List Char :=
  '\\' :: 'u' :: '\x7b' :: Nat.toDigits 16 c.toNat ++ ['\x7d']

/-- A character as it stands between double quotes. -/
def escapeChar (c : Char) : List Char :=
  if c = '"' || c = '\\' then ['\\', c]
  else if c = '\t' then ['\\', 't']
  else if c = '\r' then ['\\', 'r']
  else if c = '\n' then ['\\', 'n']
  else if c = '\x00' then ['\\', '0']
  else if isCombining c || isIgnorable c || isUnprintable c then escapeCode c
  else [c]

/-- Text between double quotes. A single quote needs no escape there. -/
def quote (s : String) : String :=
  String.ofList ('"' :: s.toList.flatMap escapeChar ++ ['"'])

/-- A byte that is no part of a character, as two upper-case hexadecimal digits. -/
def escapeByte (b : UInt8) : List Char :=
  let digit (n : Nat) : Char := (Nat.digitChar n).toUpper
  ['\\', 'x', digit (b.toNat / 16), digit (b.toNat % 16)]

/-- The characters and stray bytes of a byte string, read from the position `start` on. -/
def escapeBytes (bytes : ByteArray) (start : Nat) : List Char :=
  if h : start < bytes.size then
    match bytes.utf8DecodeChar? start with
    | some c => escapeChar c ++ escapeBytes bytes (start + c.utf8Size)
    | none => escapeByte bytes[start] ++ escapeBytes bytes (start + 1)
  else []
termination_by bytes.size - start
decreasing_by
  · have := c.utf8Size_pos
    omega
  · omega

/-- Bytes between double quotes: what decodes as text is escaped as text, and every byte that does
not is written by itself. -/
def quoteBytes (bytes : List UInt8) : String :=
  String.ofList ('"' :: escapeBytes (ByteArray.mk bytes.toArray) 0 ++ ['"'])

end RowStore.Text
