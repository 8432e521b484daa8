import RowStore.Call.Schedule
import RowStore.Proofs.Lock.Decide
import RowStore.Proofs.Pool.Coherent

/-!
# What a call may do to the engine

A call goes on in stages, from one lock to the next. `Engine.Progress` says what one stage, or any
number of them, may lead to. As long as the call has not ended, and also if it fails, it has been
*quiet*: transactions see the same pages as before, and at most a page without rows more. If it ends
well it has also changed what it was meant to change, one slot of a page that its transaction then
holds for itself alone.
-/

namespace RowStore

/-! ## Purposes -/

/-- What a request is made for. -/
inductive Purpose
  /-- To put a row with the given stored form into a table. -/
  | store (table : TableId) (bytes : Bytes)
  /-- To take a row away. -/
  | remove (place : RowId)
  /-- To get hold of a page. -/
  | fetch (page : PageId)
  /-- To look at pages. -/
  | look

/-- What a call is made for. -/
def Call.purpose : Call → Purpose
  | insert i => .store i.table.id i.row.encode
  | delete _ place _ => .remove place
  | fetch _ page _ _ => .fetch page
  | _ => .look

/-- What a request is made for. -/
def Request.purpose : Request → Purpose
  | fetch _ page _ _ => .fetch page
  | insert _ table row => .store table row.encode
  | insertInto _ table row => .store table.id row.encode
  | delete _ (some place) => .remove place
  | deleteFrom _ _ (some place) => .remove place
  | _ => .look

/-- Whether to have the content at the place serves the purpose, given what can be found where: a
row is stored at an empty place of its table, and taken away from where there is one. -/
def Purpose.Fits (rows : RowId → Option Bytes) (place : RowId) (content : Option Bytes) :
    Purpose → Prop
  | store table bytes => place.page.table = table ∧ rows place = none ∧ content = some bytes
  | remove r => place = r ∧ rows place ≠ none ∧ content = none
  | fetch _ => False
  | look => False

/-- A purpose that nothing has to be changed for. -/
def Purpose.IsLook : Purpose → Prop
  | store .. => False
  | remove _ => False
  | fetch _ => True
  | look => True

theorem Purpose.Fits.ne_fetch {task : Purpose} {rows : RowId → Option Bytes} {place : RowId}
    {content : Option Bytes} (h : task.Fits rows place content) (page : PageId) :
    task ≠ .fetch page := by
  rintro rfl
  exact h

/-- Who asks for a page gets a handle to it that shows the cached copy, and has a lock on the page.
Nobody else gets a handle. -/
def Reply.Answers (e : Engine) (txn : TxnId) (task : Purpose) : Reply → Prop
  | handle k q => task = .fetch k.page ∧ k.txn = txn ∧ e.cache.page? k.page = some q ∧
      e.locks.modeOf txn k.page ≠ .free
  | _ => ∀ page, task ≠ .fetch page

/-- How far the request has come: how it has ended, or the call with which it goes on. -/
def Step.result {p : Call → Prop} : Step p → Outcome ⊕ Call
  | finished outcome => .inl outcome
  | waits next _ => .inr next

/-- What an insertion knows is so: its table is that of the catalog, and if it takes itself to have
had no lock on the page then the page is not held for its transaction alone. -/
def Call.Sane (e : Engine) : Call → Prop
  | insert i => e.catalog.table i.table.id = .ok i.table ∧
      (i.heldBefore = .free → e.locks.modeOf i.txn i.page ≠ .exclusive)
  | _ => True

/-- The call is of a table of the catalog. -/
def Call.Known (catalog : Catalog) : Call → Prop
  | insert i => catalog.table i.table.id = .ok i.table
  | _ => True

namespace Engine

variable {e e₁ e₂ e' : Engine} {txn x : TxnId} {page : PageId} {task : Purpose}
  {q : Page} {c : Cache}

/-! ## Changes of the engine -/

/-- The cached pages are in step with the stored ones, and the locks with each other. -/
structure Sound (e : Engine) : Prop extends e.Coherent where
  /-- The locks are in step with each other. -/
  consistent : e.locks.Consistent

/-- What a request of the transaction leaves alone, whatever becomes of it. -/
structure Evolves (txn : TxnId) (e e' : Engine) : Prop where
  /-- The tables are the same. -/
  catalog : e'.catalog = e.catalog
  /-- The log is the same. -/
  journal : e'.journal = e.journal
  /-- The stored pages are the same, and there is at most a page without rows more. -/
  stored : Grows e.stored e'.stored
  /-- Nobody has lost the sole use of a page. -/
  exclusive : ∀ {x p}, e.locks.modeOf x p = .exclusive → e'.locks.modeOf x p = .exclusive
  /-- The other transactions wait for what they waited for. -/
  waits : ∀ {x p m}, x ≠ txn → (e'.locks.Waits x p m ↔ e.locks.Waits x p m)

/-- Transactions see the same pages, and at most a page without rows more. -/
structure Quiet (txn : TxnId) (e e' : Engine) : Prop extends e.Evolves txn e' where
  /-- What transactions see is the same. -/
  seen : Grows e.seen e'.seen

/-- Transactions see another content at one place, the page of which the transaction holds for
itself alone. -/
structure Edits (txn : TxnId) (place : RowId) (content : Option Bytes) (e e' : Engine) : Prop
    extends e.Evolves txn e' where
  /-- The page is held for the transaction alone. -/
  held : e'.locks.modeOf txn place.page = .exclusive
  /-- One slot of one page has changed. -/
  seen : ∃ f p q, Grows e.seen f ∧ f place.page = some p ∧
    q.slot? = Function.update p.slot? place.slot content ∧
      e'.seen = Function.update f place.page (some q)

theorem Evolves.refl (txn : TxnId) (e : Engine) : e.Evolves txn e where
  catalog := rfl
  journal := rfl
  stored := .refl _
  exclusive h := h
  waits _ := Iff.rfl

theorem Evolves.trans (h : e.Evolves txn e₁) (h' : e₁.Evolves txn e₂) : e.Evolves txn e₂ where
  catalog := h'.catalog.trans h.catalog
  journal := h'.journal.trans h.journal
  stored := h.stored.trans h'.stored
  exclusive hx := h'.exclusive (h.exclusive hx)
  waits hx := (h'.waits hx).trans (h.waits hx)

theorem Quiet.refl (txn : TxnId) (e : Engine) : e.Quiet txn e := ⟨.refl txn e, .refl _⟩

theorem Quiet.trans (h : e.Quiet txn e₁) (h' : e₁.Quiet txn e₂) : e.Quiet txn e₂ :=
  ⟨h.toEvolves.trans h'.toEvolves, h.seen.trans h'.seen⟩

theorem Quiet.edits {place : RowId} {content : Option Bytes} (h : e.Quiet txn e₁)
    (h' : e₁.Edits txn place content e₂) : e.Edits txn place content e₂ := by
  obtain ⟨f, p, q, hf, hp, hq, hs⟩ := h'.seen
  exact ⟨h.toEvolves.trans h'.toEvolves, h'.held, f, p, q, h.seen.trans hf, hp, hq, hs⟩

/-- What can be found where is the same after a quiet change. -/
theorem Quiet.rows (h : e.Quiet txn e') : rowsOf e'.seen = rowsOf e.seen := h.seen.rowsOf_eq

/-- An edit changes what can be found at its place. -/
theorem Edits.rows {place : RowId} {content : Option Bytes} (h : e.Edits txn place content e') :
    rowsOf e'.seen = Function.update (rowsOf e.seen) place content := by
  obtain ⟨f, p, q, hf, hp, hq, hs⟩ := h.seen
  rw [hs, rowsOf_update hp hq, hf.rowsOf_eq]

/-- A change of the cache alone leaves all else. -/
theorem Evolves.of_cache (txn : TxnId) (e : Engine) (c : Cache) :
    e.Evolves txn { e with cache := c } where
  catalog := rfl
  journal := rfl
  stored := .refl _
  exclusive h := h
  waits _ := Iff.rfl

theorem Quiet.of_recaches (h : e.Coherent) (hc : e.Recaches c) :
    e.Quiet txn { e with cache := c } :=
  ⟨.of_cache txn e c, .of_eq (h.seen_recache hc)⟩

theorem Sound.recache (h : e.Sound) (hc : e.Recaches c) : Sound { e with cache := c } :=
  ⟨h.toCoherent.recache hc, h.consistent⟩

/-- A verdict on a lock is no concern of the pages. -/
theorem Quiet.of_decides {mode : LockMode} {verdict : Verdict} {locks : LockTable}
    (hd : e.locks.Decides txn page mode verdict locks) : e.Quiet txn { e with locks } where
  catalog := rfl
  journal := rfl
  stored := .refl _
  exclusive := hd.exclusive_of
  waits := hd.waits_of_ne
  seen := .refl _

theorem Sound.decide (h : e.Sound) {mode : LockMode} {verdict : Verdict} {locks : LockTable}
    (hd : e.locks.Decides txn page mode verdict locks) (hl : locks.Consistent) :
    Sound { e with locks } :=
  ⟨h.toCoherent.withLocks fun hq hm => hd.exclusive_of (h.owner hq hm), hl⟩

/-- A lock may be given back before the transaction ends if the transaction has not marked the
page. It is as if it had never been there, if the page was not held for sole use at first. -/
theorem Quiet.release (h : e.Quiet txn e₁) (hx : e.locks.modeOf txn page ≠ .exclusive) :
    e.Quiet txn (e₁.release txn page) where
  catalog := h.catalog
  journal := h.journal
  stored := h.stored
  exclusive {x p} hxp := by
    rw [Engine.release, LockTable.modeOf_release, if_neg, h.exclusive hxp]
    rintro ⟨rfl, rfl⟩
    exact hx hxp
  waits hne := LockTable.waits_release.trans (h.waits hne)
  seen := h.seen

theorem Sound.release (h : e.Sound)
    (hm : ∀ {q}, e.cache.page? page = some q → q.dirtiedBy ≠ some txn) :
    (e.release txn page).Sound := by
  refine ⟨h.toCoherent.withLocks fun {pg q x} hq hd => ?_, h.consistent.release txn page⟩
  rw [LockTable.modeOf_release, if_neg, h.owner hq hd]
  rintro ⟨rfl, rfl⟩
  exact hm hq hd

/-! ## Progress -/

/-- What a request of the transaction for the purpose may lead to. What is `pending` tells of a
call that has not ended. -/
inductive Progress (e : Engine) (txn : TxnId) (task : Purpose) (pending : Call → Engine → Prop) :
    Outcome ⊕ Call → Engine → Prop
  /-- It ends well and has changed what it was made to change. -/
  | done {reply : Reply} {e' : Engine} (h : e'.Sound) (hi : ¬ e'.locks.IsBlocked txn)
    (hr : reply.Answers e' txn task) (place : RowId) (content : Option Bytes)
    (ht : task.Fits (rowsOf e.seen) place content) (he : e.Edits txn place content e') :
    Progress e txn task pending (.inl (.ok reply)) e'
  /-- It ends well and was not made to change anything. -/
  | looked {reply : Reply} {e' : Engine} (h : e'.Sound) (hi : ¬ e'.locks.IsBlocked txn)
    (hr : reply.Answers e' txn task) (ht : task.IsLook) (hq : e.Quiet txn e') :
    Progress e txn task pending (.inl (.ok reply)) e'
  /-- It fails and has changed nothing. -/
  | failed {err : Error} {e' : Engine} (h : e'.Sound) (hi : ¬ e'.locks.IsBlocked txn)
    (hq : e.Quiet txn e') : Progress e txn task pending (.inl (.error err)) e'
  /-- Its table has got more pages than can be counted. -/
  | overflown (e' : Engine) : Progress e txn task pending (.inl (.error .overflow)) e'
  /-- It goes on, and has changed nothing yet. -/
  | waits {next : Call} {e' : Engine} (h : e'.Sound) (hx : next.txn = txn)
    (ht : next.purpose = task) (hp : pending next e') (hq : e.Quiet txn e') :
    Progress e txn task pending (.inr next) e'

/-- What comes after a quiet change is as good as what comes at once. -/
theorem Quiet.progress {pending : Call → Engine → Prop} {r : Outcome ⊕ Call}
    (h : e.Quiet txn e₁) (hp : e₁.Progress txn task pending r e') :
    e.Progress txn task pending r e' := by
  cases hp with
  | done hs hi hr place content ht he =>
    exact .done hs hi hr place content (h.rows ▸ ht) (h.edits he)
  | looked hs hi hr ht hq => exact .looked hs hi hr ht (h.trans hq)
  | failed hs hi hq => exact .failed hs hi (h.trans hq)
  | overflown => exact .overflown _
  | waits hs hx ht hp hq => exact .waits hs hx ht hp (h.trans hq)

/-- How a request has ended does not depend on what is told of calls that have not. -/
theorem Progress.ended {pending pending' : Call → Engine → Prop} {outcome : Outcome}
    (h : e.Progress txn task pending (.inl outcome) e') :
    e.Progress txn task pending' (.inl outcome) e' := by
  cases h with
  | done hs hi hr place content ht he => exact .done hs hi hr place content ht he
  | looked hs hi hr ht hq => exact .looked hs hi hr ht hq
  | failed hs hi hq => exact .failed hs hi hq
  | overflown => exact .overflown _

/-- The call is about to ask for its lock, and its transaction waits for nothing. -/
def Ready (c : Call) (e : Engine) : Prop := c.Sane e ∧ ¬ e.locks.IsBlocked c.txn

/-- The call waits for its lock. -/
def Blocked (c : Call) (e : Engine) : Prop :=
  c.Known e.catalog ∧ e.locks.Waits c.txn c.page c.mode

end Engine

end RowStore
