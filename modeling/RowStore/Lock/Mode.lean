import RowStore.Id

/-!
# Lock modes and lock records

The strength of a transaction's claim on a page, from none to sole use, and the record of one such
claim.
-/

namespace RowStore

/-- The strength of a claim on a page. -/
inductive LockMode
  /-- No claim. -/
  | free
  /-- Use together with other shared claims. -/
  | shared
  /-- Sole use. -/
  | exclusive
deriving DecidableEq

namespace LockMode

/-- The position of a mode in the order of strength. -/
def rank : LockMode → Nat
  | free => 0
  | shared => 1
  | exclusive => 2

instance : LE LockMode := ⟨fun a b => a.rank ≤ b.rank⟩

instance (a b : LockMode) : Decidable (a ≤ b) := inferInstanceAs (Decidable (a.rank ≤ b.rank))

theorem le_def {a b : LockMode} : a ≤ b ↔ a.rank ≤ b.rank := Iff.rfl

/-- How a mode is named in messages. -/
def display : LockMode → String
  | free => "Free"
  | shared => "Shared"
  | exclusive => "Exclusive"

end LockMode

/-- A granted lock: the transaction holds the page in the mode. -/
structure LockRecord where
  /-- The holder. -/
  txn : TxnId
  /-- How strongly the page is held. -/
  mode : LockMode
  /-- The page held. -/
  page : PageId
deriving DecidableEq

/-- What a transaction wants to do with a page. -/
inductive Access
  /-- Look at it. -/
  | read
  /-- Change it. -/
  | write
deriving DecidableEq

/-- The lock that an access needs. -/
def Access.mode : Access → LockMode
  | read => .shared
  | write => .exclusive

end RowStore
