import RowStore.Proofs.Call.Run
import RowStore.Proofs.Pool.Completion

/-!
# Runs of a service

What happens to a service is a series of actions: transactions ask for something, waiting requests
take turns, pages are evicted, transactions end. `Service.after` is the service that a series of
actions leads to, and `Service.Runs` says that each of them was permitted when it was its turn.

Two rules about what is permitted are stated here. Either way a transaction with a waiting call asks
for nothing else, and no action fails for want of page numbers, which is how the growing of a file
fails.
-/

namespace RowStore

/-- Something that is asked of a pool. -/
inductive Action
  /-- A transaction asks for something that may make it wait. -/
  | issue (r : Request)
  /-- A waiting request takes a turn. -/
  | turn (w : Waiter)
  /-- A page is changed through a handle. -/
  | write (k : Handle) (change : Page → Page)
  /-- Somebody keeps a handle no longer. -/
  | letGo (k : Handle)
  /-- A clean page is evicted. -/
  | evict
  /-- A transaction makes this copy of a page the cached one. -/
  | install (txn : TxnId) (p : Page)
  /-- A page is written back. -/
  | flush (page : PageId)
  /-- The pages that a transaction holds for itself alone are written back. -/
  | flushHeld (txn : TxnId)
  /-- All changed pages are written back. -/
  | flushAll
  /-- The cached copy of a page is forgotten. -/
  | discard (page : PageId)
  /-- A transaction gives one lock back. -/
  | release (txn : TxnId) (page : PageId)
  /-- A transaction ends and makes its changes durable. -/
  | commit (txn : TxnId)
  /-- A transaction ends and forgets its changes. -/
  | abort (txn : TxnId)

/-- The transaction that acts, if it is one. -/
def Action.actor : Action → Option TxnId
  | issue r => some r.txn
  | turn w => some w.txn
  | write k _ => some k.txn
  | install txn _ => some txn
  | flushHeld txn => some txn
  | release txn _ => some txn
  | commit txn => some txn
  | abort txn => some txn
  | letGo _ => none
  | evict => none
  | flush _ => none
  | flushAll => none
  | discard _ => none

/-- A change through a handle leaves the page the one that it is. -/
def Action.KeepsNames : Action → Prop
  | write _ change => ∀ p : Page, (change p).id = p.id
  | _ => True

namespace Service

/-- The service with an empty pool. -/
def start (backing : Backing) (capacity : Nat) (choices : Nat → Nat) : Service :=
  ⟨⟨backing, .empty capacity choices, .empty⟩, []⟩

/-- The outcome of an action on the engine, and the service after it. -/
def finish {α : Type} (s : Service) : Except Error α × Engine → Option Outcome × Service
  | (result, engine) => (some (result.map fun _ => .done), { s with engine })

/-- Performs an action. The first part of the answer is how the action has ended, or nothing if it
waits. -/
def perform (s : Service) : Action → Option Outcome × Service
  | .issue r => s.issue r
  | .turn w => s.turn w
  | .write k change =>
    match s.engine.cache.write k fun p => ((), change p) with
    | .ok (_, cache) => (some (.ok .done), { s with engine := { s.engine with cache } })
    | .error err => (some (.error err), s)
  | .letGo k =>
    (some (.ok .done),
      { s with engine := { s.engine with cache := s.engine.cache.letGo k } })
  | .evict =>
    match s.engine.evict with
    | .ok (_, engine) => (some (.ok .done), { s with engine })
    | .error err => (some (.error err), s)
  | .install txn p =>
    match s.engine.install txn p with
    | .ok engine => (some (.ok .done), { s with engine })
    | .error err => (some (.error err), s)
  | .flush page => s.finish (s.engine.flush page)
  | .flushHeld txn => s.finish (s.engine.flushHeld txn)
  | .flushAll => s.finish s.engine.flushAll
  | .discard page => (some (.ok .done), { s with engine := s.engine.discard page })
  | .release txn page => (some (.ok .done), { s with engine := s.engine.release txn page })
  | .commit txn => s.finish (s.engine.commit txn)
  | .abort txn => (some (.ok .done), { s with engine := s.engine.abort txn })

/-- Performs an action while writes of pages break off as told. Only actions that write pages back
can tell the difference. -/
def performUnder (faults : Engine.Faults) (s : Service) : Action → Option Outcome × Service
  | .flush page => s.finish (s.engine.flushUnder faults page)
  | .flushHeld txn => s.finish (s.engine.flushHeldUnder faults txn)
  | .flushAll => s.finish (s.engine.flushAllUnder faults)
  | .commit txn => s.finish (s.engine.commitUnder faults txn)
  | a => s.perform a

@[simp] theorem performUnder_none (s : Service) (a : Action) :
    s.performUnder .none a = s.perform a := by
  cases a <;> rfl

/-- The service after a series of actions. -/
def after : Service → List Action → Service
  | s, [] => s
  | s, a :: as => (s.perform a).2.after as

/-- Every action is permitted when it is performed. -/
def Runs (permits : Service → Action → Prop) : Service → List Action → Prop
  | _, [] => True
  | s, a :: as => permits s a ∧ Runs permits (s.perform a).2 as

/-- A call of the transaction waits for a lock. -/
def HasBlocked (s : Service) (txn : TxnId) : Prop := ∃ c ∈ s.blocked, c.txn = txn

/-- What an action is performed for: a request and each of its turns serve the request's purpose. -/
def purpose (s : Service) : Action → Purpose
  | .issue r => r.purpose
  | .turn w => ((s.blocked.find? (·.txn = w.txn)).map Call.purpose).getD .look
  | _ => .look

/-- Transactions without a waiting call fetch pages, insert and delete rows, scan tables, commit and
abort; waiting requests take turns; and pages are evicted. -/
def Permits (s : Service) (a : Action) : Prop :=
  (match a with
    | .issue r => r.Known s.engine.catalog ∧ ¬ s.HasBlocked r.txn
    | .turn w => w ∈ s.engine.locks.waiting
    | .letGo _ => True
    | .evict => True
    | .commit txn => ¬ s.HasBlocked txn
    | .abort txn => ¬ s.HasBlocked txn
    | _ => False) ∧
  (s.perform a).1 ≠ some (.error .overflow)

instance (s : Service) (txn : TxnId) : Decidable (s.HasBlocked txn) :=
  inferInstanceAs (Decidable (∃ c ∈ s.blocked, c.txn = txn))

instance (o : Option Outcome) : Decidable (o = some (.error .overflow)) :=
  match o with
  | some (.error err) => decidable_of_iff (err = .overflow) (by simp)
  | some (.ok _) => isFalse nofun
  | none => isFalse nofun

/-- Besides, rows are inserted and deleted through handles whose transactions still hold the page
for themselves alone. -/
def PermitsWrites (s : Service) (a : Action) : Prop :=
  s.Permits a ∨ ∃ k change, a = .write k change ∧ (∀ p : Page, p.Edited (change p)) ∧
    s.engine.locks.modeOf k.txn k.page = .exclusive

theorem after_append {s : Service} {as bs : List Action} :
    s.after (as ++ bs) = (s.after as).after bs := by
  induction as generalizing s with
  | nil => rfl
  | cons _ _ ih => exact ih

/-- A run is one that goes on after another. -/
theorem runs_append {permits : Service → Action → Prop} {s : Service} {as bs : List Action} :
    s.Runs permits (as ++ bs) ↔ s.Runs permits as ∧ (s.after as).Runs permits bs := by
  induction as generalizing s with
  | nil => exact ⟨fun h => ⟨trivial, h⟩, fun h => h.2⟩
  | cons a as ih =>
    refine (and_congr_right fun _ => ih).trans ?_
    exact and_assoc.symm

/-- What every permitted action keeps holds after every run. -/
theorem Runs.keeps {permits : Service → Action → Prop} {inv : Service → Prop}
    (hstep : ∀ {s a}, inv s → permits s a → inv (s.perform a).2) {s : Service} {as : List Action}
    (h : s.Runs permits as) (hs : inv s) : inv (s.after as) := by
  induction as generalizing s with
  | nil => exact hs
  | cons a as ih => exact ih h.2 (hstep hs h.1)

end Service

end RowStore
