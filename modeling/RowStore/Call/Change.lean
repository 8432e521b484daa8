import RowStore.Call.Basic

/-!
# Inserting and deleting rows

An insertion goes through the pages of its table in order and takes the first one with an empty
slot. A page that turns out to be full is given back, unless the transaction held it before. When
all are full the table grows by a page.
-/

namespace RowStore

namespace Engine

/-- Changes a page through a handle. The page counts as changed even if the change is refused. -/
def change {α : Type} (e : Engine) (h : Handle) (f : Page → Except Error (α × Page)) :
    Except Error (α × Page) × Engine :=
  let written := e.cache.write h fun p =>
    match f p with
    | .ok (a, q) => (.ok (a, q), q)
    | .error err => (.error err, p)
  match written with
  | .ok (result, cache) => (result, { e with cache })
  | .error err => (.error err, e)

/-- How a request ends that has changed one page: the page is made the cached copy, or handed
out. -/
def conclude (e : Engine) (txn : TxnId) (p : Page) (install : Bool) : Outcome × Engine :=
  if install then
    match e.install txn p with
    | .ok e => (.ok .done, e)
    | .error err => (.error err, e)
  else (.ok (.pages [p]), e)

/-- Puts a row into a page that the transaction holds for itself alone, if the page has an empty
slot. -/
def tryInsert (e : Engine) (txn : TxnId) (page : PageId) (row : Row) :
    Except Error (Option Page) × Engine :=
  match e.reach txn page .write with
  | .error err => (.error err, e)
  | .ok (h, e) =>
    match e.cache.read h with
    | .error err => (.error err, e)
    | .ok p =>
      if p.emptySlots = 0 then (.ok none, e)
      else
        let (result, e) := e.change h (·.insert row)
        (result.map fun (_, q) => some q, e)

/-- Takes a row out of a page that the transaction holds for itself alone. -/
def tryDelete (e : Engine) (txn : TxnId) (place : RowId) : Except Error Page × Engine :=
  match e.reach txn place.page .write with
  | .error err => (.error err, e)
  | .ok (h, e) =>
    let (result, e) := e.change h fun p => (p.delete (some place)).map ((), ·)
    (result.map (·.2), e)

end Engine

namespace Insertion

/-- The insertion about to try a page. -/
def trying (i : Insertion) (e : Engine) (number : Nat) (grown : Bool) : Insertion :=
  { i with number, grown, heldBefore := e.locks.modeOf i.txn ⟨i.table.id, number⟩ }

/-- The insertion goes on with a page appended to the table, unless the table has got more pages
than page numbers can count. -/
def grow {p : Call → Prop} (i : Insertion) (e : Engine)
    (h : ∀ j : Insertion, j.grown = true → p (.insert j)) : Step p × Engine :=
  match e.disk.grow i.table with
  | .error err => (.finished (.error err), e)
  | .ok (number, disk) =>
    let e := { e with disk }
    if number + 1 < pageLimit then (.waits (.insert (i.trying e number true)) (h _ rfl), e)
    else (.finished (.error .overflow), e)

/-- The insertion starts with the first page of the table, or with one appended to it. -/
def start (i : Insertion) (e : Engine) : Step (fun _ => True) × Engine :=
  if i.row.types ≠ i.table.schema.types then (.finished (.error .schemaMismatch), e)
  else match e.disk.pageCount i.table with
    | .error err => (.finished (.error err), e)
    | .ok 0 => i.grow e fun _ _ => trivial
    | .ok count => (.waits (.insert ({ i with count }.trying e 0 false)) trivial, e)

/-- The insertion tries the page whose lock it has got. -/
def tryPage (i : Insertion) (e : Engine) : Step (·.work < (Call.insert i).work) × Engine :=
  match e.tryInsert i.txn i.page i.row with
  | (.error err, e) => (.finished (.error err), e)
  | (.ok (some p), e) =>
    let (outcome, e) := e.conclude i.txn p i.install
    (.finished outcome, e)
  | (.ok none, e) =>
    if hg : i.grown then (.finished (.error (.pageFull i.page)), e)
    else
      let e := if i.heldBefore = .free then e.release i.txn i.page else e
      if hn : i.number + 1 < i.count then
        (.waits (.insert (i.trying e (i.number + 1) false)) (by
          simp only [Call.work, Insertion.work, Insertion.trying, hg, Bool.false_eq_true, if_false]
          omega), e)
      else i.grow e fun j hj => by simp [Call.work, Insertion.work, hj, hg]

end Insertion

end RowStore
