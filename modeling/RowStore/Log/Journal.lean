import RowStore.Error
import RowStore.Log.Record

/-!
# The write-ahead log as the store sees it

The store needs two things of a log: to take a record, and to make durable what it has taken. Each
may fail at any time. A journal is the records taken so far, how many of them are durable, and a
plan of which calls fail and why.
-/

namespace RowStore

/-- A log that takes records and makes them durable, or fails. -/
structure Journal where
  /-- The records taken, oldest first. -/
  records : List UpdateRecord
  /-- How many of the records are durable. -/
  forced : Nat
  /-- How often a record has been handed in. -/
  appendCalls : Nat
  /-- How often durability has been asked for. -/
  forceCalls : Nat
  /-- Why the call with the given number to take a record fails, if it does. -/
  appendFault : Nat → Option String
  /-- Why the call with the given number for durability fails, if it does. -/
  forceFault : Nat → Option String

namespace Journal

/-- The journal without records in which no call fails. -/
def empty : Journal := ⟨[], 0, 0, 0, fun _ => none, fun _ => none⟩

/-- Takes a record, or fails and takes nothing. -/
def append (j : Journal) (r : UpdateRecord) : Except Error Unit × Journal :=
  let next := { j with appendCalls := j.appendCalls + 1 }
  match j.appendFault j.appendCalls with
  | some reason => (.error (.logFailed reason), next)
  | none => (.ok (), { next with records := j.records ++ [r] })

/-- Makes every record durable, or fails. -/
def force (j : Journal) : Except Error Unit × Journal :=
  let next := { j with forceCalls := j.forceCalls + 1 }
  match j.forceFault j.forceCalls with
  | some reason => (.error (.logFailed reason), next)
  | none => (.ok (), { next with forced := j.records.length })

end Journal

end RowStore
