import RowStore.Bytes
import RowStore.Error

/-!
# Update records

A record tells what one page held before and after a change, and which transaction made it. Its
stored form is the number of bytes that follow, and then the transaction, the table, the page
number and the two images, each image after its length; all numbers are big-endian.
-/

namespace RowStore

/-- The record of a change to a page. -/
structure UpdateRecord where
  /-- Who made the change. -/
  txn : TxnId
  /-- The page changed. -/
  page : PageId
  /-- Its bytes before. -/
  before : Bytes
  /-- Its bytes after. -/
  after : Bytes
deriving DecidableEq

namespace UpdateRecord

/-- The stored form without the leading count. -/
def body (r : UpdateRecord) : Bytes :=
  Bytes.ofNat 8 r.txn ++ Bytes.ofNat 8 r.page.table ++ Bytes.ofNat 4 r.page.number ++
    Bytes.ofNat 4 r.before.length ++ r.before ++ Bytes.ofNat 4 r.after.length ++ r.after

/-- The stored form. -/
def encode (r : UpdateRecord) : Bytes := Bytes.ofNat 4 r.body.length ++ r.body

/-- The next `len` bytes of a body, and the position after them. -/
def take (body : Bytes) (position len : Nat) : Except Error (Bytes × Nat) :=
  if body.length < position + len then .error (.truncatedRecord position)
  else .ok (Bytes.slice position len body, position + len)

/-- The record that a body stores. Bytes after its last part are ignored. -/
def decode (body : Bytes) : Except Error UpdateRecord := do
  let (txn, at₁) ← take body 0 8
  let (table, at₂) ← take body at₁ 8
  let (number, at₃) ← take body at₂ 4
  let (beforeLen, at₄) ← take body at₃ 4
  let (before, at₅) ← take body at₄ (Bytes.toNat beforeLen)
  let (afterLen, at₆) ← take body at₅ 4
  let (after, _) ← take body at₆ (Bytes.toNat afterLen)
  return ⟨Bytes.toNat txn, ⟨Bytes.toNat table, Bytes.toNat number⟩, before, after⟩

end UpdateRecord

end RowStore
