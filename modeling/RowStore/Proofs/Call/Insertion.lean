import RowStore.Proofs.Call.Change
import RowStore.Proofs.Call.Course
import RowStore.Proofs.Pool.Attempt

/-!
# The way of an insertion

An insertion goes from page to page. At each it asks for the lock, reads the page, and puts its row
there, or goes on if the page is full, having given it back unless its transaction had it before.
Such a *leg* ends the insertion or leaves it about to try another page, and `Insertion.Leg` lists
all that a leg can be. `Insertion.Way` puts legs one after the other, up to the end or to a lock
that the insertion has to wait for. As in `RowStore.Proofs.Call.Course` nothing is assumed about the
engine, so what holds of every leg holds of every insertion there is.
-/

namespace RowStore

open Engine

/-- A call that has changed the cached copy of a page ends well, with this copy in the cache. -/
theorem Engine.conclude_recopy {e : Engine} {txn : TxnId} {page : PageId} {q q' : Page}
    (hq : e.cache.page? page = some q) (hid : q.id = page)
    (ha : (q.markDirty (some txn)).Alike q') (hx : e.locks.modeOf txn page = .exclusive)
    (install : Bool) : ∃ reply c,
      (e.recopy page q').conclude txn q' install = (.ok reply, { e with cache := c }) ∧
        ∀ pg, c.page? pg = if pg = page then some q' else e.cache.page? pg := by
  have hcopy := fun pg => page?_recopy (r := q') hq pg
  obtain ⟨reply, c, hc, hsame, -⟩ :=
    conclude_cases (e := e.recopy page q') ((hcopy page).trans (if_pos rfl)) (ha.id.trans hid)
      ha.dirtiedBy hx install
  exact ⟨reply, c, hc, fun pg => (hsame pg).trans (hcopy pg)⟩

namespace Insertion

variable {e e' e₁ : Engine} {i j : Insertion} {locks : LockTable} {result : Outcome ⊕ Call}
  {x : Outcome ⊕ Insertion} {o : Outcome}

/-! ## Legs -/

/-- The engine after the insertion has left a full page: the page is given back, unless the
transaction had it before. -/
def leave (i : Insertion) (e : Engine) : Engine :=
  if i.heldBefore = .free then e.release i.txn i.page else e

theorem leave_eq (i : Insertion) (e : Engine) : ∃ locks, i.leave e = { e with locks } := by
  unfold leave
  split
  · exact ⟨_, rfl⟩
  · exact ⟨_, rfl⟩

/-- The table grows, and the insertion is about to try the new page, unless page numbers have run
out. -/
inductive Appends (i : Insertion) (e : Engine) : Outcome ⊕ Insertion → Engine → Prop
  /-- The table's file is not to be had. -/
  | stuck {err : Error} (hg : e.disk.grow i.table = .error err) : Appends i e (.inl (.error err)) e
  /-- Page numbers have run out, but the file has grown. -/
  | overflown {number : Nat} {disk : Disk} (hg : e.disk.grow i.table = .ok (number, disk))
    (hn : pageLimit ≤ number + 1) : Appends i e (.inl (.error .overflow)) { e with disk }
  /-- The new page is next. -/
  | grown {number : Nat} {disk : Disk} (hg : e.disk.grow i.table = .ok (number, disk))
    (hn : number + 1 < pageLimit) :
    Appends i e (.inr (i.trying { e with disk } number true)) { e with disk }

/-- How an insertion starts. -/
inductive Begins (i : Insertion) (e : Engine) : Outcome ⊕ Insertion → Engine → Prop
  /-- The row is not one of the table. -/
  | mismatch (ht : i.row.types ≠ i.table.schema.types) :
    Begins i e (.inl (.error .schemaMismatch)) e
  /-- The table's file is not to be had. -/
  | uncounted {err : Error} (ht : i.row.types = i.table.schema.types)
    (hc : e.disk.pageCount i.table = .error err) : Begins i e (.inl (.error err)) e
  /-- The first page is next. -/
  | first {count : Nat} (ht : i.row.types = i.table.schema.types)
    (hc : e.disk.pageCount i.table = .ok count) (hn : 0 < count) :
    Begins i e (.inr ({ i with count }.trying e 0 false)) e
  /-- There is no page. -/
  | append {x : Outcome ⊕ Insertion} {e' : Engine} (ht : i.row.types = i.table.schema.types)
    (hc : e.disk.pageCount i.table = .ok 0) (ha : i.Appends e x e') : Begins i e x e'

/-- The insertion has got the page that it was about to try, and has read it. -/
structure Reads (i : Insertion) (e e₁ : Engine) (q : Page) : Prop where
  /-- The lock is granted, and then the page is cached. -/
  loads : ∃ locks, e.Judges (.insert i) .granted locks ∧ Loads i.page { e with locks } e₁
  /-- This is the cached copy. -/
  cached : e₁.cache.page? i.page = some q

/-- What an insertion comes to that is about to try a page: it ends, or is about to try another. -/
inductive Leg (i : Insertion) (e : Engine) : Outcome ⊕ Insertion → Engine → Prop
  /-- The lock is refused. -/
  | deadlock {locks : LockTable} (hj : e.Judges (.insert i) .deadlock locks) :
    Leg i e (.inl (.error (.deadlock i.txn i.page .exclusive))) { e with locks }
  /-- The page is not to be had. -/
  | unread {locks : LockTable} {err : Error} (hj : e.Judges (.insert i) .granted locks)
    (h : Unread { e with locks } i.page err) : Leg i e (.inl (.error err)) { e with locks }
  /-- The cached copy has rows of other types. It is marked by now. -/
  | refused {e₁ : Engine} {q : Page} (h : i.Reads e e₁ q) (ht : i.row.types ≠ q.schema.types) :
    Leg i e (.inl (.error .schemaMismatch)) (e₁.recopy i.page (q.markDirty (some i.txn)))
  /-- The row is in the page. -/
  | stored {e₁ : Engine} {q q' : Page} {place : RowId} (h : i.Reads e e₁ q)
    (hi : (q.markDirty (some i.txn)).insert i.row = .ok (place, q')) :
    Leg i e (.inl ((e₁.recopy i.page q').conclude i.txn q' i.install).1)
      ((e₁.recopy i.page q').conclude i.txn q' i.install).2
  /-- The page is full although it was appended for the row. -/
  | full {e₁ : Engine} {q : Page} (h : i.Reads e e₁ q) (hf : q.Full) (hg : i.grown = true) :
    Leg i e (.inl (.error (.pageFull i.page))) e₁
  /-- The page is full, and there is another. -/
  | next {e₁ : Engine} {q : Page} (h : i.Reads e e₁ q) (hf : q.Full) (hg : i.grown = false)
    (hn : i.number + 1 < i.count) :
    Leg i e (.inr (i.trying (i.leave e₁) (i.number + 1) false)) (i.leave e₁)
  /-- The page is full, and it was the last. -/
  | append {e₁ e' : Engine} {q : Page} {x : Outcome ⊕ Insertion} (h : i.Reads e e₁ q)
    (hf : q.Full) (hg : i.grown = false) (hn : i.count ≤ i.number + 1)
    (ha : i.Appends (i.leave e₁) x e') : Leg i e x e'

/-- One leg after the other. -/
inductive Way : Insertion → Engine → Outcome ⊕ Call → Engine → Prop
  /-- The insertion has to wait. -/
  | blocked {i : Insertion} {e : Engine} {locks : LockTable}
    (hj : e.Judges (.insert i) .blocked locks) : Way i e (.inr (.insert i)) { e with locks }
  /-- The insertion ends. -/
  | ended {i : Insertion} {e e' : Engine} {o : Outcome} (h : i.Leg e (.inl o) e') :
    Way i e (.inl o) e'
  /-- The insertion goes on. -/
  | next {i j : Insertion} {e e₁ e' : Engine} {result : Outcome ⊕ Call}
    (h : i.Leg e (.inr j) e₁) (hw : Way j e₁ result e') : Way i e result e'

/-- How a stretch of an insertion's way stops. -/
inductive Stops (i : Insertion) (e : Engine) : Outcome ⊕ Call → Engine → Prop
  /-- The insertion has to wait. -/
  | blocked {locks : LockTable} (hj : e.Judges (.insert i) .blocked locks) :
    Stops i e (.inr (.insert i)) { e with locks }
  /-- The insertion ends. -/
  | ended {e' : Engine} {o : Outcome} (h : i.Leg e (.inl o) e') : Stops i e (.inl o) e'

/-- An insertion from its start. -/
inductive Trip (i : Insertion) (e : Engine) : Outcome ⊕ Call → Engine → Prop
  /-- It ends before it has tried any page. -/
  | ended {e' : Engine} {o : Outcome} (h : i.Begins e (.inl o) e') : Trip i e (.inl o) e'
  /-- It tries pages. -/
  | way {j : Insertion} {e₁ e' : Engine} {result : Outcome ⊕ Call} (h : i.Begins e (.inr j) e₁)
    (hw : j.Way e₁ result e') : Trip i e result e'

/-! ## What is known along the way -/

theorem Reads.keyed (h : i.Reads e e₁ q) (hk : e.Keyed) : e₁.Keyed := by
  obtain ⟨locks, -, hl⟩ := h.loads
  exact hl.keyed (e := { e with locks }) hk

/-- Who has got a page to try holds it for itself alone. -/
theorem Reads.exclusive (h : i.Reads e e₁ q) : e₁.locks.modeOf i.txn i.page = .exclusive := by
  obtain ⟨locks, hj, hl⟩ := h.loads
  rw [hl.stays.locks]
  exact hj.toDecides.exclusive_of_granted

/-- What every leg that does not end the insertion keeps holds where the insertion stops. -/
theorem Way.stops {p : Insertion → Engine → Prop}
    (hstep : ∀ {i j : Insertion} {e e' : Engine}, p i e → i.Leg e (.inr j) e' → p j e')
    (h : i.Way e result e') (hi : p i e) : ∃ j e₁, p j e₁ ∧ j.Stops e₁ result e' := by
  induction h with
  | blocked hj => exact ⟨_, _, hi, .blocked hj⟩
  | ended hl => exact ⟨_, _, hi, .ended hl⟩
  | next hl _ ih => exact ih (hstep hi hl)

/-- An insertion that succeeds has put its row into the page that it has tried last, and the page is
cached. -/
theorem Leg.eq_stored {reply : Reply} (hk : e.Keyed) (h : i.Leg e (.inl (.ok reply)) e') :
    ∃ e₁ q q' place c, i.Reads e e₁ q ∧
      (q.markDirty (some i.txn)).insert i.row = .ok (place, q') ∧ e' = { e₁ with cache := c } ∧
        ∀ pg, c.page? pg = if pg = i.page then some q' else e₁.cache.page? pg := by
  generalize hx : (Sum.inl (Except.ok reply) : Outcome ⊕ Insertion) = x at h
  cases h with
  | stored hr hi =>
    obtain ⟨reply', c, hc, hpage⟩ := conclude_recopy hr.cached (hr.keyed hk hr.cached)
      (Page.slot?_of_insert hi).1 hr.exclusive i.install
    rw [hc]
    exact ⟨_, _, _, _, c, hr, hi, rfl, hpage⟩
  | append _ _ _ _ ha =>
    subst hx
    cases ha
  | deadlock | unread | refused | full | next => cases hx

/-! ## Insertions go their way -/

theorem appends_grow {p : Call → Prop} (i : Insertion) (e : Engine)
    (h : ∀ j : Insertion, j.grown = true → p (.insert j)) :
    ∃ x, i.Appends e x (i.grow e h).2 ∧ (i.grow e h).1.result = x.map id Call.insert := by
  unfold grow
  cases hg : e.disk.grow i.table with
  | error err => exact ⟨_, .stuck hg, rfl⟩
  | ok y =>
    obtain ⟨number, disk⟩ := y
    dsimp only
    split
    · next hn => exact ⟨_, .grown hg hn, rfl⟩
    · next hn => exact ⟨_, .overflown hg (Nat.not_lt.1 hn), rfl⟩

theorem begins_start (i : Insertion) (e : Engine) :
    ∃ x, i.Begins e x (i.start e).2 ∧ (i.start e).1.result = x.map id Call.insert := by
  unfold start
  split
  · next ht => exact ⟨_, .mismatch ht, rfl⟩
  · next ht =>
    have ht := not_not.1 ht
    cases hc : e.disk.pageCount i.table with
    | error err => exact ⟨_, .uncounted ht hc, rfl⟩
    | ok count =>
      cases count with
      | zero =>
        obtain ⟨x, ha, hx⟩ := i.appends_grow (p := fun _ => True) e fun _ _ => trivial
        exact ⟨x, .append ht hc ha, hx⟩
      | succ n => exact ⟨_, .first ht hc n.succ_pos, rfl⟩

theorem leg_tryPage (hj : e.Judges (.insert i) .granted locks) :
    ∃ x, i.Leg e x (i.tryPage { e with locks }).2 ∧
      (i.tryPage { e with locks }).1.result = x.map id Call.insert := by
  have htried := inserts_tryInsert { e with locks } i.txn i.page i.row
  unfold tryPage
  generalize Engine.tryInsert { e with locks } i.txn i.page i.row = tried at htried
  obtain ⟨r, e₁⟩ := tried
  cases htried with
  | unread h => exact ⟨_, .unread hj h, rfl⟩
  | refused hl hq ht => exact ⟨_, .refused ⟨⟨_, hj, hl⟩, hq⟩ ht, rfl⟩
  | stored hl hq hi => exact ⟨_, .stored ⟨⟨_, hj, hl⟩, hq⟩ hi, rfl⟩
  | full hl hq hf =>
    have hr : i.Reads e e₁ _ := ⟨⟨_, hj, hl⟩, hq⟩
    dsimp only
    split
    · next hg => exact ⟨_, .full hr hf hg, rfl⟩
    · next hg =>
      have hg := Bool.eq_false_iff.2 hg
      split
      · next hn => exact ⟨_, .next hr hf hg hn, rfl⟩
      · next hn =>
        obtain ⟨x, ha, hx⟩ := i.appends_grow (i.leave e₁) _
        exact ⟨x, .append hr hf hg (Nat.not_lt.1 hn) ha, hx⟩

/-- The course of a call that is an insertion is the insertion's way. -/
theorem way_of_course (h : e.Course (.insert i) result e') : i.Way e result e' := by
  generalize hc : Call.insert i = c at h
  induction h generalizing i with
  | blocked hj =>
    subst hc
    exact .blocked hj
  | @ended e e' c verdict locks outcome hj hv ha =>
    subst hc
    cases verdict with
    | blocked => exact absurd rfl hv
    | deadlock =>
      cases ha
      exact .ended (.deadlock hj)
    | granted =>
      obtain ⟨x, hl, hx⟩ := leg_tryPage hj
      change i.tryPage { e with locks } = _ at ha
      rw [ha] at hl hx
      cases x with
      | inl o =>
        cases hx
        exact .ended hl
      | inr j => cases hx
  | @next e e₁ e' c d verdict locks result _ hj hv ha hx _ ih =>
    subst hc
    cases verdict with
    | blocked => exact absurd rfl hv
    | deadlock => cases ha
    | granted =>
      obtain ⟨x, hl, hx⟩ := leg_tryPage hj
      change i.tryPage { e with locks } = _ at ha
      rw [ha] at hl hx
      cases x with
      | inl o => cases hx
      | inr j =>
        cases hx
        exact .next hl (ih rfl)

end Insertion

/-! ## Calls that are insertions -/

/-- The call is an insertion. -/
def Call.IsInsert : Call → Prop
  | insert _ => True
  | _ => False

namespace Cursor

variable {p : Call → Prop} {d : Call}

theorem not_isInsert_of_serve (c : Cursor) (count : Nat) (given : List Item)
    (h : ∀ (rest : Cursor) (more : Nat) (items : List Item), rest.pages = c.pages →
      rest.next = c.next → c.next < c.pages → more < count → p (.take rest more items))
    (hr : (c.serve count given h).result = .inr d) : ¬ d.IsInsert := by
  rcases c.result_serve count given h with ⟨xs, c', hs⟩ | ⟨rest, more, items, hs, -⟩
  · cases hs.symm.trans hr
  · cases hs.symm.trans hr
    exact not_false

theorem not_isInsert_of_serveAll (c : Cursor) (seen : List Row)
    (h : c.next < c.pages → p (.collect c seen)) (hr : (c.serveAll seen h).result = .inr d) :
    ¬ d.IsInsert := by
  rcases c.result_serveAll seen h with ⟨rs, hs⟩ | hs
  · cases hs.symm.trans hr
  · cases hs.symm.trans hr
    exact not_false

end Cursor

namespace Call

variable {c d : Call} {e e₁ : Engine} {err : Error}

/-- A call that has been refused a page does not go on as an insertion. -/
theorem not_isInsert_of_refuse (h : (c.refuse err).result = .inr d) : ¬ d.IsInsert := by
  cases c with
  | take c more given =>
    unfold refuse at h
    exact c.not_isInsert_of_serve _ _ _ h
  | fetch | insert | delete | collect => cases h

/-- Only an insertion goes on as one. -/
theorem isInsert_of_proceed (h : (c.proceed e).1.result = .inr d) (hd : d.IsInsert) :
    c.IsInsert := by
  cases c with
  | insert i => trivial
  | fetch | delete =>
    unfold proceed at h
    dsimp only at h
    split at h <;> cases h
  | collect c seen =>
    unfold proceed at h
    dsimp only at h
    split at h
    · cases h
    · exact absurd hd (Cursor.not_isInsert_of_serveAll _ _ _ h)
  | take c more given =>
    unfold proceed at h
    dsimp only at h
    split at h
    · exact absurd hd (not_isInsert_of_refuse h)
    · dsimp only at h
      exact absurd hd (Cursor.not_isInsert_of_serve _ _ _ _ h)

theorem isInsert_of_answer {granted : Bool} (h : (c.answer granted e).1.result = .inr d)
    (hd : d.IsInsert) : c.IsInsert := by
  cases granted with
  | false => exact absurd hd (not_isInsert_of_refuse h)
  | true => exact isInsert_of_proceed h hd

end Call

/-- Only an insertion has to wait as one. -/
theorem Engine.Course.isInsert {e e' : Engine} {c d : Call} (h : e.Course c (.inr d) e')
    (hd : d.IsInsert) : c.IsInsert := by
  generalize hr : (Sum.inr d : Outcome ⊕ Call) = result at h
  induction h with
  | blocked =>
    cases hr
    exact hd
  | ended => cases hr
  | @next _ _ _ c d' _ _ _ _ _ _ ha _ _ ih =>
    exact Call.isInsert_of_answer (congrArg (fun x => x.1.result) ha) (ih hr)

end RowStore
