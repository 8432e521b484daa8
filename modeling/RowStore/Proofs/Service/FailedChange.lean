import RowStore.Proofs.Service.Failure
import RowStore.Proofs.Service.Insertion

/-!
# Insertions and deletions that fail

A request to insert or to delete a row can fail in many ways, and on the way to its failure it may
have locked, read and given back any number of pages, and even have let the table grow. What it
leaves behind is told by `Engine.Spoils`: the cached pages are as they were, apart from those that
have been read meanwhile, and these are clean.

There are two exceptions. A page counts as changed as soon as a handle is used to change it, so if
the page itself refuses the change, because the slot is empty or the rows in it are of other types,
then its bytes are as they were but it bears the mark of the transaction. And if somebody has put a
copy of another page in the frame of a page, then an insertion changes this copy first, and only
then finds that the transaction does not hold the other page, or that there is no room for it.
-/

namespace RowStore

open Engine

namespace Engine

variable {e e' e₀ e₁ : Engine} {txn : TxnId} {page pg : PageId} {q r : Page} {place : RowId}
  {install : Bool} {err : Error}

/-- A copy of a page that has been read from its file. -/
structure FromFile (e e' : Engine) (page : PageId) (q : Page) : Prop where
  /-- It is clean. -/
  clean : q.dirtiedBy = none
  /-- Its bytes are taken for durable. -/
  before : q.before = q.data
  /-- The file had these bytes at first, or has them in the end. -/
  read : e.load page = .ok q ∨ e'.load page = .ok q

theorem FromFile.of_load (h : e.load page = .ok q ∨ e'.load page = .ok q) :
    e.FromFile e' page q := by
  have hread : ∀ {d : Engine}, d.load page = .ok q → q.dirtiedBy = none ∧ q.before = q.data := by
    intro d hd
    obtain ⟨t, f, data, -, -, -, rfl⟩ := load_eq_ok hd
    exact ⟨rfl, rfl⟩
  obtain ⟨hclean, hbefore⟩ := h.elim hread hread
  exact ⟨hclean, hbefore, h⟩

/-- The cached copy is one of another page. -/
def Strays (e : Engine) (page : PageId) : Prop :=
  ∃ q, e.cache.page? page = some q ∧ q.id ≠ page

/-- What a request of the transaction that fails with an error has made of the copy of a page. -/
inductive Mars (txn : TxnId) (page : PageId) (err : Error) (q : Page) : Page → Prop
  /-- The copy bears the transaction's mark. -/
  | marked : Mars txn page err q (q.markDirty (some txn))
  /-- The copy is one of another page and has got a row, but the transaction does not hold that
  other page for itself alone, or there is no room for it. -/
  | strayed {row : Row} {place : RowId} {r : Page} (hid : q.id ≠ page)
    (hi : (q.markDirty (some txn)).insert row = .ok (place, r))
    (he : err = .lockNotHeld txn q.id ∨ ∃ n, err = .allPagesDirty n) : Mars txn page err q r

/-- What a request of the transaction leaves behind that fails with an error: it has spoilt at most
one page, and changed nothing else. -/
structure Spoils (txn : TxnId) (err : Error) (spoilt : Option PageId) (e e' : Engine) : Prop where
  /-- The tables are the same. -/
  catalog : e'.catalog = e.catalog
  /-- The log is the same. -/
  journal : e'.journal = e.journal
  /-- The files are the same, or one of them has got a page without rows behind its last one. -/
  disk : e'.disk = e.disk ∨ ∃ t number, e.disk.grow t = .ok (number, e'.disk)
  /-- A cached page was cached before, with the same bytes, the same mark and the same durable
  bytes, or has been read from its file. -/
  cached : ∀ {page q}, e'.cache.page? page = some q → spoilt ≠ some page →
    e.cache.page? page = some q ∨ e.FromFile e' page q
  /-- Marked pages have stayed. -/
  marked : ∀ {page q}, e.cache.page? page = some q → q.dirtiedBy ≠ none → spoilt ≠ some page →
    e'.cache.page? page = some q
  /-- The page that is spoilt is as it was, or has been read, but for what the request has made of
  it. The transaction holds it for itself alone. -/
  spoilt : ∀ {page}, spoilt = some page → e'.locks.modeOf txn page = .exclusive ∧
    ∃ q r, (e.cache.page? page = some q ∨ e.FromFile e' page q) ∧
      e'.cache.page? page = some r ∧ Mars txn page err q r

theorem Rereads.spoils (h : e.Rereads e') : e.Spoils txn err none e' where
  catalog := congrArg Backing.catalog h.toBacking
  journal := congrArg Backing.journal h.toBacking
  disk := .inl h.disk
  cached hq _ := (h.cached hq).imp_right fun hp => .of_load (.inl hp)
  marked hq hd _ := h.marked hq hd
  spoilt hs := nomatch hs

/-- A page of which the copy is changed in the end is spoilt. -/
theorem Spoils.mar (h : e.Spoils txn err none e₁) (hq : e₁.cache.page? page = some q)
    (hx : e₁.locks.modeOf txn page = .exclusive) (hm : Mars txn page err q r) :
    e.Spoils txn err (some page) (e₁.recopy page r) := by
  have hcopy := fun pg => page?_recopy (r := r) hq pg
  refine ⟨h.catalog, h.journal, h.disk, fun {pg r} hr hne => ?_, fun {pg r} hr hd hne => ?_,
    fun {pg} hpg => ?_⟩
  · rw [hcopy, if_neg fun hpg => hne (congrArg some hpg.symm)] at hr
    exact (h.cached hr nofun).imp_right fun hf => ⟨hf.clean, hf.before, hf.read⟩
  · rw [hcopy, if_neg fun hpg => hne (congrArg some hpg.symm)]
    exact h.marked hr hd nofun
  · obtain rfl := Option.some.inj hpg
    refine ⟨hx, q, r, ?_, (hcopy page).trans (if_pos rfl), hm⟩
    exact (h.cached hq nofun).imp_right fun hf => ⟨hf.clean, hf.before, hf.read⟩

/-- A change that cannot be concluded is left in the frame that it has been made in. -/
theorem conclude_eq_error (h : e.conclude txn q install = (.error err, e')) :
    e' = e ∧ (err = .lockNotHeld txn q.id ∨ ∃ n, err = .allPagesDirty n) := by
  unfold conclude at h
  split at h
  · split at h
    · cases h
    · next err' hi =>
      cases h
      refine ⟨rfl, ?_⟩
      unfold Engine.install at hi
      split at hi
      · rcases bind_eq_error.1 hi with hput | ⟨_, _, hi⟩
        · unfold Cache.put at hput
          split at hput
          · cases hput
          · exact .inr (add_eq_error hput)
        · cases hi
      · cases hi
        exact .inl rfl
  · cases h

end Engine

/-! ## Insertions -/

namespace Insertion

variable {e e' e₀ e₁ : Engine} {i j : Insertion} {q r : Page} {o : Outcome} {err : Error}
  {place : RowId}

theorem Underway.spoils (h : Underway e₀ i e) : e₀.Spoils i.txn err none e where
  catalog := h.catalog
  journal := h.journal
  disk := h.disk.imp_right fun hd => ⟨_, _, hd.2.1⟩
  cached hq _ := (h.cached hq).imp_right .of_load
  marked hq hd _ := h.marked hq hd
  spoilt hs := nomatch hs

/-- An insertion that ends for want of another page may have let its table grow. -/
theorem Underway.spoils_appends (h : Underway e₀ i e) (hg : i.grown = false)
    (ha : i.Appends e (.inl o) e') : e₀.Spoils i.txn err none e' := by
  cases ha with
  | stuck => exact h.spoils
  | overflown hd _ =>
    rw [h.disk_eq hg] at hd
    have hload := h.load_eq hg
    refine ⟨h.catalog, h.journal, .inr ⟨_, _, hd⟩, fun hq _ => ?_, fun hq hd _ => h.marked hq hd,
      nofun⟩
    rcases h.cached hq with hq | hp | hp
    · exact .inl hq
    · exact .inr (.of_load (.inl hp))
    · exact .inr (.of_load (.inl (hload ▸ hp)))

/-- An insertion that has put its row into a copy ends well, unless the copy is one of another
page. -/
theorem Underway.spoils_stored (h : Underway e₀ i e) (hr : i.Reads e e₁ q)
    (hi : (q.markDirty (some i.txn)).insert i.row = .ok (place, r))
    (hc : (e₁.recopy i.page r).conclude i.txn r i.install = (.error err, e')) :
    e₀.Spoils i.txn err (some i.page) e' ∧ e₀.Strays i.page := by
  have ha := (Page.slot?_of_insert hi).1
  have hread := h.rereads hr.rereads
  have hid : q.id ≠ i.page := by
    intro hid
    obtain ⟨reply, c, hok, -⟩ := conclude_recopy hr.cached hid ha hr.exclusive i.install
    cases hok.symm.trans hc
  have hcached : e₀.cache.page? i.page = some q := by
    rcases hread.cached hr.cached with hq | hp | hp
    · exact hq
    · exact absurd (id_of_load hp) hid
    · exact absurd (id_of_load hp) hid
  obtain ⟨rfl, he⟩ := conclude_eq_error hc
  rw [ha.id] at he
  exact ⟨hread.spoils.mar hr.cached hr.exclusive (.strayed hid hi he), q, hcached, hid⟩

/-- A leg that ends the insertion without success spoils at most the page that it has tried, because
of the rows in it or because the copy is one of another page. -/
theorem Underway.spoils_leg (h : Underway e₀ i e) (hl : i.Leg e (.inl (.error err)) e') :
    ∃ spoilt, e₀.Spoils i.txn err spoilt e' ∧ ∀ page, spoilt = some page →
      page = i.page ∧ (err = .schemaMismatch ∨ e₀.Strays page) := by
  generalize hx : (Sum.inl (Except.error err) : Outcome ⊕ Insertion) = x at hl
  cases hl with
  | deadlock | unread => exact ⟨none, (h.rereads (.of_locks e _)).spoils, nofun⟩
  | refused hr _ =>
    cases hx
    refine ⟨some i.page, (h.rereads hr.rereads).spoils.mar hr.cached hr.exclusive .marked, ?_⟩
    exact fun pg hpg => ⟨(Option.some.inj hpg).symm, .inl rfl⟩
  | stored hr hi =>
    obtain ⟨hs, hstray⟩ := h.spoils_stored hr hi (Prod.ext (Sum.inl.inj hx).symm rfl)
    refine ⟨some i.page, hs, fun pg hpg => ?_⟩
    obtain rfl := Option.some.inj hpg
    exact ⟨rfl, .inr hstray⟩
  | full hr => exact ⟨none, (h.rereads hr.rereads).spoils, nofun⟩
  | next => cases hx
  | append hr _ hg _ ha =>
    subst hx
    have hleft := h.rereads hr.rereads_leave
    exact ⟨none, hleft.spoils_appends hg ha, nofun⟩

theorem Way.spoils (h : i.Way e (.inl (.error err)) e') (hu : Underway e₀ i e) :
    ∃ spoilt, e₀.Spoils i.txn err spoilt e' ∧ ∀ page, spoilt = some page →
      page.table = i.table.id ∧ (err = .schemaMismatch ∨ e₀.Strays page) := by
  generalize hr : (Sum.inl (Except.error err) : Outcome ⊕ Call) = result at h
  induction h with
  | blocked => cases hr
  | ended hl =>
    cases hr
    obtain ⟨spoilt, hs, hp⟩ := hu.spoils_leg hl
    refine ⟨spoilt, hs, fun page hpage => ?_⟩
    obtain ⟨rfl, herr⟩ := hp page hpage
    exact ⟨rfl, herr⟩
  | next hl _ ih =>
    have hf := hl.follows
    have hs := ih (hu.leg hl) hr
    rwa [hf.txn, hf.table] at hs

theorem Trip.spoils (h : i.Trip e (.inl (.error err)) e') (hg : i.grown = false) :
    ∃ spoilt, e.Spoils i.txn err spoilt e' ∧ ∀ page, spoilt = some page →
      page.table = i.table.id ∧ (err = .schemaMismatch ∨ e.Strays page) := by
  cases h with
  | ended hb =>
    cases hb with
    | mismatch | uncounted => exact ⟨none, (Rereads.refl e).spoils, nofun⟩
    | append _ _ ha => exact ⟨none, (Underway.refl e i).spoils_appends hg ha, nofun⟩
  | way hb hw =>
    have hf := hb.follows
    have hs := hw.spoils (.begins hg hb)
    rwa [hf.txn, hf.table] at hs

end Insertion

/-! ## Deletions -/

namespace Engine

variable {e e' : Engine} {txn : TxnId} {place : RowId} {install : Bool} {err : Error}

end Engine

/-! ## Requests -/

namespace Service

variable {s : Service} {r : Request} {txn : TxnId} {place : RowId} {install : Bool} {err : Error}
  {o : Outcome}

end Service

namespace Sample

/-- A transaction has looked at the page. -/
def looked : Service :=
  ((Service.start backing 2 id).perform (.issue (.fetch 1 page .read false))).2

/-- The handle of the first transaction to the second page. -/
def kept : Handle := ⟨⟨table.id, 1⟩, 1, .write, 0⟩

end Sample

end RowStore
