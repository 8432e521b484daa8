import RowStore.Proofs.Call.Underway
import RowStore.Proofs.Service.Orderly

/-!
# Requests to insert

A request to insert is the trip of an insertion: from its start up to its end or to a lock that it
has to wait for, and from there on, turn by turn, the rest of its way.
-/

namespace RowStore

open Engine

/-- The insertion that a request is made for. -/
def Insertion.of (txn : TxnId) (table : Table) (row : Row) (install : Bool) : Insertion :=
  ⟨txn, table, row, 0, 0, .free, false, install⟩

/-- No other request has to wait as an insertion. -/
theorem Request.not_isInsert_of_start {r : Request} {e : Engine} {d : Call}
    (hi : ∀ txn id row, r ≠ .insert txn id row) (hi' : ∀ txn t row, r ≠ .insertInto txn t row)
    (h : (r.start e).1.result = .inr d) : ¬ d.IsInsert := by
  cases r with
  | insert txn id row => exact absurd rfl (hi txn id row)
  | insertInto txn t row => exact absurd rfl (hi' txn t row)
  | fetch =>
    cases h
    exact not_false
  | delete txn place =>
    cases place with
    | none => cases h
    | some place =>
      unfold start at h
      dsimp only at h
      split at h
      · cases h
      · cases h
        exact not_false
  | deleteFrom txn t place =>
    cases place with
    | none => cases h
    | some place =>
      unfold start at h
      dsimp only at h
      split at h
      · cases h
      · cases h
        exact not_false
  | scan txn t =>
    unfold start at h
    dsimp only at h
    split at h
    · cases h
    · exact Cursor.not_isInsert_of_serveAll _ _ _ h
  | take c count =>
    unfold start at h
    exact c.not_isInsert_of_serve count [] (fun _ _ _ _ _ _ _ => trivial) h

namespace Service

variable {s : Service} {r : Request} {w : Waiter} {i : Insertion} {txn : TxnId} {id : TableId}
  {row : Row} {table : Table} {err : Error}

/-- A request that starts as an insertion goes on as one. -/
theorem trip_issue (h : s.Orderly) (hi : ¬ s.HasBlocked r.txn)
    (hr : r.start s.engine = i.start s.engine) :
    ∃ result, i.Trip s.engine result (s.issue r).2.engine ∧ (s.issue r).1 = result.getLeft? ∧
      ∀ d, d ∈ (s.issue r).2.blocked ↔ d ∈ s.blocked ∧ d.txn ≠ r.txn ∨ result = .inr d := by
  obtain ⟨x, hb, hx⟩ := i.begins_start s.engine
  rw [← hr] at hb hx
  cases hs : r.start s.engine with
  | mk step e =>
    rw [hs] at hb hx
    cases step with
    | finished o =>
      cases x with
      | inr j => cases hx
      | inl o' =>
        obtain rfl : o = o' := Sum.inl.inj hx
        have hp : s.issue r = (some o, { s with engine := e }) := by
          simp only [issue, hs]
        rw [hp]
        refine ⟨.inl o, .ended hb, rfl, fun d => ?_⟩
        constructor
        · intro hd
          exact .inl ⟨hd, fun ht => hi ⟨d, hd, ht⟩⟩
        · rintro (⟨hd, -⟩ | hd)
          · exact hd
          · cases hd
    | waits c hc =>
      cases x with
      | inl o => cases hx
      | inr j =>
        cases hx
        obtain ⟨result, hcourse, ho, hblocked, -⟩ := course_issue h hi hs
        exact ⟨result, .way hb (Insertion.way_of_course hcourse), ho, hblocked⟩

/-- An insertion that waits goes on with a turn. -/
theorem way_turn (h : s.Orderly) (hw : w ∈ s.engine.locks.waiting)
    (hf : s.blocked.find? (·.txn = w.txn) = some (.insert i)) :
    ∃ result, i.Way s.engine result (s.turn w).2.engine ∧ (s.turn w).1 = result.getLeft? ∧
      ∀ d, d ∈ (s.turn w).2.blocked ↔ d ∈ s.blocked ∧ d.txn ≠ w.txn ∨ result = .inr d := by
  obtain ⟨result, hcourse, ho, hblocked, -⟩ := course_turn h hw hf
  exact ⟨result, Insertion.way_of_course hcourse, ho, hblocked⟩

theorem start_insert (ht : s.engine.catalog.table id = .ok table) :
    (Request.insert txn id row).start s.engine =
      (Insertion.of txn table row true).start s.engine := by
  rw [Request.start, ht]
  rfl

/-- A request for a table that is not there ends at once, and nothing happens. -/
theorem issue_insert_of_error (ht : s.engine.catalog.table id = .error err) :
    s.issue (.insert txn id row) = (some (.error err), s) := by
  simp only [issue, Request.start, ht]

end Service

end RowStore
