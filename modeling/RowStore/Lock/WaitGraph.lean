import RowStore.Lock.Mode
import Std.Data.TreeMap

/-!
# Who waits for whom

Each blocked transaction is mapped to the lock records that it waits behind. The graph only serves
to find circles of waiting transactions; whether a lock is granted does not depend on it.

The view of a graph is `WaitGraph.waitingOn`, and there is one lemma for what each operation does
to it.
-/

namespace RowStore

/-- The lock records that each blocked transaction waits behind. -/
structure WaitGraph where
  /-- The records by waiting transaction. -/
  edges : Std.TreeMap TxnId (List LockRecord)

namespace WaitGraph

/-- The graph in which nobody waits. -/
def empty : WaitGraph := ⟨∅⟩

/-- The records that a transaction waits behind. -/
def waitingOn (g : WaitGraph) (txn : TxnId) : List LockRecord := (g.edges[txn]?).getD []

/-- Whether a transaction waits. -/
def isWaiting (g : WaitGraph) (txn : TxnId) : Bool := g.edges.contains txn

/-- How many transactions wait. -/
def size (g : WaitGraph) : Nat := g.edges.size

/-- Whether nobody waits. -/
def isEmpty (g : WaitGraph) : Bool := g.edges.isEmpty

/-! ## Changes -/

/-- The graph in which the transaction waits for the records that others hold, and for nothing
else. -/
def setWaiting (g : WaitGraph) (waiter : TxnId) (blockers : List LockRecord) : WaitGraph :=
  match (blockers.filter (·.txn ≠ waiter)).eraseDups with
  | [] => ⟨g.edges.erase waiter⟩
  | records => ⟨g.edges.insert waiter records⟩

/-- The graph in which the transaction does not wait. -/
def clearWaiting (g : WaitGraph) (waiter : TxnId) : WaitGraph := ⟨g.edges.erase waiter⟩

/-- The graph in which nobody waits for a record with the property. -/
def dropRecords (g : WaitGraph) (drop : LockRecord → Bool) : WaitGraph :=
  ⟨g.edges.filterMap fun _ records =>
    match records.filter (!drop ·) with
    | [] => none
    | rest => some rest⟩

/-- The graph in which the transaction neither waits nor is waited for. -/
def purge (g : WaitGraph) (txn : TxnId) : WaitGraph :=
  (g.clearWaiting txn).dropRecords (·.txn = txn)

/-- The graph in which nobody waits for the transaction's lock on the page. -/
def removeHolder (g : WaitGraph) (holder : TxnId) (page : PageId) : WaitGraph :=
  g.dropRecords fun r => r.txn = holder && r.page = page

@[simp] theorem waitingOn_empty (txn : TxnId) : empty.waitingOn txn = [] := by
  simp [empty, waitingOn]

@[simp] theorem waitingOn_clearWaiting (g : WaitGraph) (waiter txn : TxnId) :
    (g.clearWaiting waiter).waitingOn txn = if txn = waiter then [] else g.waitingOn txn := by
  by_cases h : txn = waiter
  · simp [clearWaiting, waitingOn, h]
  · simp [clearWaiting, waitingOn, Std.TreeMap.getElem?_erase, h, Ne.symm h]

@[simp] theorem waitingOn_setWaiting (g : WaitGraph) (waiter txn : TxnId)
    (blockers : List LockRecord) :
    (g.setWaiting waiter blockers).waitingOn txn =
      if txn = waiter then (blockers.filter (·.txn ≠ waiter)).eraseDups else g.waitingOn txn := by
  unfold setWaiting
  split
  · next h =>
    rw [h]
    exact waitingOn_clearWaiting g waiter txn
  · by_cases h : txn = waiter
    · simp [waitingOn, h]
    · simp [waitingOn, Std.TreeMap.getElem?_insert, h, Ne.symm h]

@[simp] theorem waitingOn_dropRecords (g : WaitGraph) (drop : LockRecord → Bool) (txn : TxnId) :
    (g.dropRecords drop).waitingOn txn = (g.waitingOn txn).filter (!drop ·) := by
  simp only [dropRecords, waitingOn, Std.TreeMap.getElem?_filterMap]
  cases g.edges[txn]? with
  | none => rfl
  | some records =>
    simp only [Option.pbind_some, Option.getD_some]
    split <;> simp_all

@[simp] theorem waitingOn_purge (g : WaitGraph) (txn t : TxnId) :
    (g.purge txn).waitingOn t =
      if t = txn then [] else (g.waitingOn t).filter (·.txn ≠ txn) := by
  by_cases h : t = txn <;> simp [purge, h]

@[simp] theorem waitingOn_removeHolder (g : WaitGraph) (holder t : TxnId) (page : PageId) :
    (g.removeHolder holder page).waitingOn t =
      (g.waitingOn t).filter fun r => !(r.txn = holder && r.page = page) := by
  simp [removeHolder]

theorem waitingOn_eq_nil {g : WaitGraph} {txn : TxnId} (h : g.isWaiting txn = false) :
    g.waitingOn txn = [] := by
  have hn : txn ∉ g.edges := by
    rw [Std.TreeMap.mem_iff_contains]
    exact Bool.eq_false_iff.1 h
  simp [waitingOn, Std.TreeMap.getElem?_eq_none hn]

@[simp] theorem isWaiting_empty (txn : TxnId) : empty.isWaiting txn = false := by
  simp [empty, isWaiting]

@[simp] theorem isWaiting_clearWaiting (g : WaitGraph) (waiter txn : TxnId) :
    (g.clearWaiting waiter).isWaiting txn = (txn ≠ waiter && g.isWaiting txn) := by
  by_cases h : txn = waiter
  · simp [clearWaiting, isWaiting, h]
  · simp [clearWaiting, isWaiting, Std.TreeMap.contains_erase, h, Ne.symm h]

theorem isWaiting_setWaiting_of_ne (g : WaitGraph) {waiter txn : TxnId} (h : txn ≠ waiter)
    (blockers : List LockRecord) :
    (g.setWaiting waiter blockers).isWaiting txn = g.isWaiting txn := by
  unfold setWaiting
  split
  · simp [isWaiting, Std.TreeMap.contains_erase, Ne.symm h]
  · simp [isWaiting, Std.TreeMap.contains_insert, Ne.symm h]

/-- Taking records away lets nobody begin to wait. -/
theorem isWaiting_dropRecords (g : WaitGraph) (drop : LockRecord → Bool) {txn : TxnId}
    (h : g.isWaiting txn = false) : (g.dropRecords drop).isWaiting txn = false := by
  have hn : txn ∉ g.edges := by
    rw [Std.TreeMap.mem_iff_contains]
    exact Bool.eq_false_iff.1 h
  rw [isWaiting, Std.TreeMap.contains_eq_isSome_getElem?, dropRecords,
    Std.TreeMap.getElem?_filterMap, Std.TreeMap.getElem?_eq_none hn]
  rfl

/-! ## Circles -/

/-- With the records of a transaction taken away there are fewer left. -/
theorem size_erase_lt {unseen : Std.TreeMap TxnId (List LockRecord)} {txn : TxnId}
    {records : List LockRecord} (h : unseen[txn]? = some records) :
    (unseen.erase txn).size < unseen.size := by
  have hm : txn ∈ unseen := by
    rw [← Std.TreeMap.isSome_getElem?_iff_mem, h]
    rfl
  have hp : unseen.size ≠ 0 := by
    have := Std.TreeMap.isEmpty_eq_false_iff_exists_mem.2 ⟨txn, hm⟩
    simpa [Std.TreeMap.isEmpty_eq_size_eq_zero] using this
  rw [Std.TreeMap.size_erase, if_pos (Std.TreeMap.mem_iff_contains.1 hm)]
  omega

/-- Whether a walk along the waits-for relation gets from a transaction of the stack back to
`start`. Of every transaction the records are followed once: then they leave `unseen`. -/
def reaches (start : TxnId) (unseen : Std.TreeMap TxnId (List LockRecord)) :
    (stack : List TxnId) → Bool
  | [] => false
  | txn :: stack =>
    match _h : unseen[txn]? with
    | none => reaches start unseen stack
    | some records =>
      records.any (·.txn = start) ||
        reaches start (unseen.erase txn) (records.map (·.txn) ++ stack)
termination_by stack => (unseen.size, stack.length)
decreasing_by
  · exact Prod.Lex.right _ (by simp)
  · exact Prod.Lex.left _ _ (size_erase_lt _h)

/-- Whether following the records that transactions wait behind leads from a transaction back to
it. -/
def hasCycleFrom (g : WaitGraph) (start : TxnId) : Bool := reaches start g.edges [start]

end WaitGraph

end RowStore
