import RowStore.Call.Answer

/-!
# Running and resuming calls

A call runs until it ends or has to wait for a lock. Waiting calls are kept aside; whenever the
locks on the page of one of them change, it takes another turn, and if that decides about its lock
it runs on.
-/

namespace RowStore

namespace Engine

/-- Runs a call up to its end, or to a lock that it has to wait for. A property that the call has,
and that less work does not end, is one that the waiting call has. -/
def run {p : Call → Prop} (hp : ∀ {c d : Call}, p c → d.work < c.work → p d) (e : Engine) (c : Call)
    (hc : p c) : Step p × Engine :=
  match e.locks.acquire c.txn c.page c.mode with
  | (.blocked, locks) => (.waits c hc, { e with locks })
  | (verdict, locks) =>
    match c.answer (verdict = .granted) { e with locks } with
    | (.finished outcome, e) => (.finished outcome, e)
    | (.waits next h, e) => e.run hp next (hp hc h)
termination_by c.work

/-- Runs a call on whose lock a turn has decided. -/
def resume (e : Engine) (c : Call) (granted : Bool) : Step (·.work < c.work) × Engine :=
  match c.answer granted e with
  | (.finished outcome, e) => (.finished outcome, e)
  | (.waits next h, e) => e.run (fun h hd => Nat.lt_trans hd h) next h

end Engine

/-! ## The waiting calls -/

/-- A bound for the locks that the calls may still need. -/
def totalWork (calls : List Call) : Nat := calls.foldr (·.work + 1 + ·) 0

@[simp] theorem totalWork_nil : totalWork [] = 0 := rfl

@[simp] theorem totalWork_cons (c : Call) (calls : List Call) :
    totalWork (c :: calls) = c.work + 1 + totalWork calls := rfl

@[simp] theorem totalWork_append (xs ys : List Call) :
    totalWork (xs ++ ys) = totalWork xs + totalWork ys := by
  induction xs with
  | nil => simp
  | cons c xs ih => simp [ih, Nat.add_assoc]

/-- The calls without those of a transaction. -/
def callsOfOthers (calls : List Call) (txn : TxnId) : List Call := calls.filter (·.txn ≠ txn)

theorem callsOfOthers_cons_self {c : Call} {txn : TxnId} (h : c.txn = txn) (calls : List Call) :
    callsOfOthers (c :: calls) txn = callsOfOthers calls txn := by
  simp [callsOfOthers, h]

theorem callsOfOthers_cons_of_ne {c : Call} {txn : TxnId} (h : c.txn ≠ txn) (calls : List Call) :
    callsOfOthers (c :: calls) txn = c :: callsOfOthers calls txn := by
  simp [callsOfOthers, h]

theorem totalWork_callsOfOthers_le (calls : List Call) (txn : TxnId) :
    totalWork (callsOfOthers calls txn) ≤ totalWork calls := by
  induction calls with
  | nil => exact Nat.le_refl _
  | cons c cs ih =>
    by_cases h : c.txn = txn
    · rw [callsOfOthers_cons_self h, totalWork_cons]
      omega
    · rw [callsOfOthers_cons_of_ne h, totalWork_cons, totalWork_cons]
      omega

/-- Taking the call of a transaction away takes its work away. -/
theorem totalWork_callsOfOthers_lt {calls : List Call} {c : Call} {txn : TxnId}
    (hc : calls.find? (·.txn = txn) = some c) :
    totalWork (callsOfOthers calls txn) + c.work < totalWork calls := by
  induction calls with
  | nil => simp at hc
  | cons a as ih =>
    by_cases ha : a.txn = txn
    · obtain rfl : a = c := by simpa [ha] using hc
      have := totalWork_callsOfOthers_le as txn
      rw [callsOfOthers_cons_self ha, totalWork_cons]
      omega
    · have := ih (by simpa [ha] using hc)
      rw [callsOfOthers_cons_of_ne ha, totalWork_cons, totalWork_cons]
      omega

/-- The engine together with the calls that wait for a lock. -/
structure Service where
  /-- What the calls work on. -/
  engine : Engine
  /-- The calls that wait, at most one for each transaction. -/
  blocked : List Call

namespace Service

/-- Gives a waiting request a turn, and lets its call run on if that decides about the lock. The
first part of the answer is how the call ended, if it did. -/
def turn (s : Service) (w : Waiter) : Option Outcome × Service :=
  match s.blocked.find? (·.txn = w.txn) with
  | none => (none, { s with engine := { s.engine with locks := s.engine.locks.dequeue w.txn } })
  | some c =>
    let (verdict, locks) := s.engine.locks.retry w
    let engine := { s.engine with locks }
    if verdict = .blocked then (none, { s with engine })
    else
      let others := callsOfOthers s.blocked w.txn
      match engine.resume c (verdict = .granted) with
      | (.waits next _, engine) => (none, ⟨engine, others ++ [next]⟩)
      | (.finished outcome, engine) => (some outcome, ⟨engine, others⟩)

/-- A turn leaves the waiting calls with less to ask for, or leaves one request less due a turn. -/
theorem measure_turn_lt {s : Service} {w : Waiter} (hm : w ∈ s.engine.locks.waiting)
    (hn : w.notified = true) :
    Prod.Lex (· < ·) (· < ·)
      (totalWork (s.turn w).2.blocked, (s.turn w).2.engine.locks.notifiedCount)
      (totalWork s.blocked, s.engine.locks.notifiedCount) := by
  unfold turn
  split
  · exact Prod.Lex.right _ (LockTable.notifiedCount_dequeue_lt hm hn)
  · next c hc =>
    have hw := totalWork_callsOfOthers_lt hc
    dsimp only
    split
    · next hb => exact Prod.Lex.right _ (LockTable.notifiedCount_retry_lt hm hn hb)
    · split
      · next next h _ _ =>
        apply Prod.Lex.left
        simp only [totalWork_append, totalWork_cons, totalWork_nil]
        omega
      · apply Prod.Lex.left
        dsimp only
        omega

/-- Gives the waiting requests all turns that they are due, and tells how those ended that did. -/
def settle (s : Service) : List (TxnId × Outcome) × Service :=
  match _hw : s.engine.locks.nextNotified? with
  | none => ([], s)
  | some w =>
    let after := s.turn w
    let (rest, last) := after.2.settle
    match after.1 with
    | some outcome => ((w.txn, outcome) :: rest, last)
    | none => (rest, last)
termination_by (totalWork s.blocked, s.engine.locks.notifiedCount)
decreasing_by
  exact measure_turn_lt (LockTable.mem_waiting_of_nextNotified? _hw)
    (LockTable.notified_of_nextNotified? _hw)

/-- Lets the engine do something that needs no waiting, and gives the waiting requests the turns
that they are due because of it. -/
def act {α : Type} (s : Service) (f : Engine → α × Engine) :
    α × List (TxnId × Outcome) × Service :=
  let (result, engine) := f s.engine
  (result, settle { s with engine })

/-- Lets a transaction ask for something. The first part of the answer is how the request ended, or
nothing if it waits. -/
def issue (s : Service) (r : Request) : Option Outcome × Service :=
  match r.start s.engine with
  | (.finished outcome, engine) => (some outcome, { s with engine })
  | (.waits c _, engine) =>
    match engine.run (p := fun _ => True) (fun _ _ => trivial) c trivial with
    | (.finished outcome, engine) => (some outcome, { s with engine })
    | (.waits c _, engine) => (none, ⟨engine, s.blocked ++ [c]⟩)

/-- Lets a transaction ask for something, and gives the waiting requests the turns that they are due
because of it. The second part of the answer is how other requests ended. -/
def submit (s : Service) (r : Request) : Option Outcome × List (TxnId × Outcome) × Service :=
  match s.issue r with
  | (some outcome, s) => (some outcome, s.settle)
  | (none, s) =>
    let (woken, s) := s.settle
    (woken.lookup r.txn, woken.filter (·.1 ≠ r.txn), s)

end Service

end RowStore
