import RowStore.Bytes
import RowStore.Id
import RowStore.Text.Blank
import RowStore.Text.Quoted

/-!
# Sizes of a store

A store is set up with the bytes of a page and the most pages that its cache holds. Both may be
given as texts, as they stand in the environment.
-/

namespace RowStore

/-- Why a text is no size. -/
inductive SizeError
  /-- There is nothing to read. -/
  | empty
  /-- A character is no digit. -/
  | invalidDigit
  /-- The number does not fit 64 bits. -/
  | tooLarge
deriving DecidableEq

/-- The text that states why a text is no size. -/
def SizeError.message : SizeError → String
  | empty => "cannot parse integer from empty string"
  | invalidDigit => "invalid digit found in string"
  | tooLarge => "number too large to fit in target type"

/-- Reads decimal digits after those that make up the number so far. The first character that is no
digit, or that makes the number too large, decides. -/
def readDigits (n : Nat) : List Char → Except SizeError Nat
  | [] => .ok n
  | c :: cs =>
    if c.isDigit then
      let m := n * 10 + (c.toNat - '0'.toNat)
      if m < sizeLimit then readDigits m cs else .error .tooLarge
    else .error .invalidDigit

/-- Reads a size: decimal digits, after a plus sign or without one. -/
def readSize : List Char → Except SizeError Nat
  | [] => .error .empty
  | ['+'] => .error .invalidDigit
  | '+' :: cs => readDigits 0 cs
  | cs => readDigits 0 cs

/-- The sizes of a store. -/
structure Config where
  /-- The bytes of a page. -/
  pageSize : Nat
  /-- The most pages in the cache. -/
  poolPages : Nat
deriving DecidableEq

/-- Why a store cannot be set up. -/
inductive ConfigError
  /-- Pages would have no bytes. -/
  | zeroPageSize
  /-- The cache would hold no page. -/
  | emptyPool
  /-- A variable does not hold a size. -/
  | notASize (name : String) (raw : String) (why : SizeError)
  /-- A variable does not hold text. -/
  | notText (name : String) (raw : Bytes)
deriving DecidableEq

/-- The text that states why a store cannot be set up. -/
def ConfigError.message : ConfigError → String
  | zeroPageSize => "page size must be positive"
  | emptyPool => "buffer pool must hold at least one page"
  | notASize name raw why => s!"{name}={Text.quote raw} is not a valid size: {why.message}"
  | notText name raw =>
    s!"{name} is unreadable: environment variable was not valid unicode: {Text.quoteBytes raw}"

namespace Config

/-- The sizes that are used when none are given. -/
def standard : Config := ⟨4096, 50⟩

/-- The sizes, both of which have to be positive. -/
def make (pageSize poolPages : Nat) : Except ConfigError Config :=
  if pageSize = 0 then .error .zeroPageSize
  else if poolPages = 0 then .error .emptyPool
  else .ok ⟨pageSize, poolPages⟩

/-- The size that a variable holds, or the given one if the variable is not set. Blanks around the
size do not count. -/
def readVariable (name : String) (standard : Nat) : Option Bytes → Except ConfigError Nat
  | none => .ok standard
  | some raw =>
    match String.fromUTF8? (ByteArray.mk raw.toArray) with
    | none => .error (.notText name raw)
    | some s => (readSize (Text.trim s.toList)).mapError (.notASize name s)

/-- The sizes that the environment asks for: the variables are read one after the other, and only
then checked. -/
def ofEnvironment (pageSize poolPages : Option Bytes) : Except ConfigError Config := do
  let pageSize ← readVariable "HEAPDB_PAGE_SIZE" standard.pageSize pageSize
  let poolPages ← readVariable "HEAPDB_POOL_PAGES" standard.poolPages poolPages
  make pageSize poolPages

end Config

end RowStore
