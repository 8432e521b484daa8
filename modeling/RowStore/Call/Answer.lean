import RowStore.Call.Change

/-!
# Requests and what follows from a lock

`Request.start` takes a request to its first lock, if it needs one, and `Call.answer` takes a call
from one verdict on its lock to the next lock or to the end.
-/

namespace RowStore

/-- What a transaction can ask for that may make it wait. -/
inductive Request
  /-- A handle to a page, which is kept or not. -/
  | fetch (txn : TxnId) (page : PageId) (access : Access) (keep : Bool)
  /-- To put a row into a table of the catalog. -/
  | insert (txn : TxnId) (table : TableId) (row : Row)
  /-- To take a row away from the table of the catalog where it is stored. -/
  | delete (txn : TxnId) (place : Option RowId)
  /-- To put a row into a table, and to hand out the changed page. -/
  | insertInto (txn : TxnId) (table : Table) (row : Row)
  /-- To take a row away from a table, and to hand out the changed page. -/
  | deleteFrom (txn : TxnId) (table : Table) (place : Option RowId)
  /-- All rows of a table. -/
  | scan (txn : TxnId) (table : Table)
  /-- A number of rows from a cursor. -/
  | take (c : Cursor) (count : Nat)

/-- The transaction that asks. -/
def Request.txn : Request → TxnId
  | fetch txn .. => txn
  | insert txn .. => txn
  | delete txn _ => txn
  | insertInto txn .. => txn
  | deleteFrom txn .. => txn
  | scan txn _ => txn
  | take c _ => c.txn

/-! ## Reading on -/

namespace Cursor

/-- Answers requests for rows from what is buffered, and then asks for the next page. -/
def serve {p : Call → Prop} (c : Cursor) (count : Nat) (given : List Item)
    (h : ∀ (rest : Cursor) (more : Nat) (items : List Item), rest.pages = c.pages →
      rest.next = c.next → c.next < c.pages → more < count → p (.take rest more items)) : Step p :=
  if c.isOpen then
    let given := ((c.buffered.take count).map fun r => .ok (some r)).reverse ++ given
    let rest := { c with buffered := c.buffered.drop count }
    match hm : count - c.buffered.length with
    | 0 => .finished (.ok (.items given.reverse rest))
    | more + 1 =>
      if hn : c.next < c.pages then .waits (.take rest more given) (h _ _ _ rfl rfl hn (by omega))
      else .finished (.ok (.items (given.reverse ++ List.replicate (more + 1) (.ok none)) rest))
  else .finished (.ok (.items (given.reverse ++ List.replicate count (.error .cursorNotOpen)) c))

/-- Asks for the next page if there is one. -/
def serveAll {p : Call → Prop} (c : Cursor) (seen : List Row)
    (h : c.next < c.pages → p (.collect c seen)) : Step p :=
  if hn : c.next < c.pages then .waits (.collect c seen) (h hn)
  else .finished (.ok (.rows seen.reverse))

end Cursor

/-! ## Calls -/

namespace Call

/-- The call goes on after one of its page reads has failed: only a cursor that is asked for a
number of rows does, since it answers each with a row or a failure. -/
def refuse (c : Call) (err : Error) : Step (·.work < c.work) :=
  match c with
  | take c more given =>
    c.serve more (.error err :: given) fun rest more' _ hp hn hl hm => by
      have := Nat.mul_le_mul_right (c.pages + 2) hm
      simp only [work, hp, hn, Nat.succ_eq_add_one] at this ⊢
      have : (more + 1) * (c.pages + 2) = more * (c.pages + 2) + (c.pages + 2) := Nat.succ_mul ..
      omega
  | _ => .finished (.error err)

/-- The call goes on with the lock that it asked for. -/
def proceed (c : Call) (e : Engine) : Step (·.work < c.work) × Engine :=
  match c with
  | fetch txn page access keep =>
    match e.reach txn page access with
    | .error err => (.finished (.error err), e)
    | .ok (h, e) =>
      let outcome := (e.cache.read h).map (Reply.handle h)
      (.finished outcome, if keep then { e with cache := e.cache.keep h } else e)
  | insert i => i.tryPage e
  | delete txn place install =>
    match e.tryDelete txn place with
    | (.error err, e) => (.finished (.error err), e)
    | (.ok p, e) =>
      let (outcome, e) := e.conclude txn p install
      (.finished outcome, e)
  | collect c seen =>
    match e.nextRows c with
    | (.error err, e) => (.finished (.error err), e)
    | (.ok rows, e) =>
      let next := { c with next := c.next + 1 }
      (next.serveAll (rows.reverse ++ seen) fun h => by
        simp only [work, next] at h ⊢
        omega, e)
  | take c more given =>
    match e.nextRows c with
    | (.error err, e) => ((take c more given).refuse err, e)
    | (.ok rows, e) =>
      let next := { c with next := c.next + 1, buffered := rows }
      (next.serve (more + 1) given fun rest more' _ hp hn hl hm => by
        have := Nat.mul_le_mul_right (c.pages + 2) hm
        simp only [work, hp, hn, next, Nat.succ_eq_add_one] at hl this ⊢
        omega, e)

/-- What follows from the verdict on the lock that the call asked for. -/
def answer (c : Call) (granted : Bool) (e : Engine) : Step (·.work < c.work) × Engine :=
  if granted then c.proceed e else (c.refuse (.deadlock c.txn c.page c.mode), e)

end Call

/-! ## Requests -/

/-- Takes a request to its first lock, or to its end if it needs none. -/
def Request.start (e : Engine) : Request → Step (fun _ => True) × Engine
  | fetch txn page access keep => (.waits (.fetch txn page access keep) trivial, e)
  | insert txn id row =>
    match e.catalog.table id with
    | .error err => (.finished (.error err), e)
    | .ok table => Insertion.start ⟨txn, table, row, 0, 0, .free, false, true⟩ e
  | delete _ none => (.finished (.error .missingRowId), e)
  | delete txn (some place) =>
    match e.catalog.table place.page.table with
    | .error err => (.finished (.error err), e)
    | .ok _ => (.waits (.delete txn place true) trivial, e)
  | insertInto txn table row => Insertion.start ⟨txn, table, row, 0, 0, .free, false, false⟩ e
  | deleteFrom _ _ none => (.finished (.error .missingRowId), e)
  | deleteFrom txn table (some place) =>
    if place.page.table ≠ table.id then
      (.finished (.error (.wrongTable table.id place.page.table)), e)
    else (.waits (.delete txn place false) trivial, e)
  | scan txn table =>
    match e.openCursor (.new table txn) with
    | .error err => (.finished (.error err), e)
    | .ok c => (c.serveAll [] fun _ => trivial, e)
  | take c count => (c.serve count [] fun _ _ _ _ _ _ _ => trivial, e)

end RowStore
