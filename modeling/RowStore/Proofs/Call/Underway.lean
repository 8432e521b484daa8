import RowStore.Proofs.Call.Insertion

/-!
# Insertions under way

As long as it has not found a place for its row an insertion leaves little behind besides locks.
Pages have been read from their files, and clean ones have left the cache for them: the engine has
been *reread*. And at the very end, when all pages have turned out to be full, the table has grown
by a page. `Insertion.Underway` says so of the engine at which an insertion has arrived, and every
leg that does not end the insertion keeps it.
-/

namespace RowStore

open Engine

namespace Engine

variable {e e' e₁ e₂ : Engine} {page pg : PageId} {q : Page} {locks : LockTable}

/-- Pages have only been read from their files, and clean ones have left the cache. -/
structure Rereads (e e' : Engine) : Prop where
  /-- Nothing has been done to the tables, the files and the log. -/
  toBacking : e'.toBacking = e.toBacking
  /-- A cached page was cached before, or has been read. -/
  cached : ∀ {page q}, e'.cache.page? page = some q →
    e.cache.page? page = some q ∨ e.load page = .ok q
  /-- Marked pages have stayed. -/
  marked : ∀ {page q}, e.cache.page? page = some q → q.dirtiedBy ≠ none →
    e'.cache.page? page = some q

theorem load_congr (h : e'.toBacking = e.toBacking) : e'.load = e.load := by
  funext page
  exact congrArg (fun b : Backing => b.catalog.table page.table >>= fun t => b.disk.readPage t page)
    h

/-- A page that has been read from its file has rows of the types that the catalog says. -/
theorem schema_of_load {t : Table} (ht : e.catalog.table page.table = .ok t)
    (h : e.load page = .ok q) : q.schema = t.schema := by
  obtain ⟨u, f, data, hu, -, -, rfl⟩ := load_eq_ok h
  obtain rfl : u = t := Except.ok.inj (hu.symm.trans ht)
  rfl

/-- A page that has been read from its file is clean. -/
theorem clean_of_load (h : e.load page = .ok q) : q.dirtiedBy = none := by
  obtain ⟨t, f, data, -, -, -, rfl⟩ := load_eq_ok h
  rfl

namespace Rereads

theorem refl (e : Engine) : e.Rereads e := ⟨rfl, .inl, fun hq _ => hq⟩

theorem trans (h : e.Rereads e₁) (h' : e₁.Rereads e₂) : e.Rereads e₂ where
  toBacking := h'.toBacking.trans h.toBacking
  cached hq := by
    rcases h'.cached hq with hq | hp
    · exact h.cached hq
    · rw [load_congr h.toBacking] at hp
      exact .inr hp
  marked hq hd := h'.marked (h.marked hq hd) hd

theorem disk (h : e.Rereads e') : e'.disk = e.disk := congrArg Backing.disk h.toBacking

theorem of_locks (e : Engine) (locks : LockTable) : e.Rereads { e with locks } :=
  ⟨rfl, .inl, fun hq _ => hq⟩

theorem of_loads (h : e.Loads page e') : e.Rereads e' where
  toBacking := by cases h <;> rfl
  cached hq := by
    rcases h.page?_eq_some hq with hq | ⟨rfl, hp⟩
    · exact .inl hq
    · exact .inr hp
  marked {pg q} hq hd := by
    cases h with
    | cached => exact hq
    | stored hn hp hc =>
      obtain ⟨c₁, hm, rfl⟩ := Cache.add_eq_ok hc
      change (c₁.enter _).page? pg = some q
      rw [Cache.page?_enter, id_of_load hp, if_neg]
      · rcases page?_makeRoom hm pg with he | ⟨-, q', hq', hd'⟩
        · exact he.trans hq
        · cases hq.symm.trans hq'
          exact absurd hd' hd
      · rintro rfl
        cases hn.symm.trans hq

end Rereads

end Engine

namespace Insertion

variable {e e' e₀ e₁ : Engine} {i j : Insertion} {q : Page} {x : Outcome ⊕ Insertion} {c : Call}

/-- A page has been locked and read. -/
theorem Reads.rereads (h : i.Reads e e₁ q) : e.Rereads e₁ := by
  obtain ⟨locks, -, hl⟩ := h.loads
  exact (Rereads.of_locks e locks).trans (.of_loads hl)

theorem rereads_leave (i : Insertion) (e : Engine) : e.Rereads (i.leave e) := by
  obtain ⟨locks, h⟩ := i.leave_eq e
  rw [h]
  exact .of_locks e locks

/-- A page has been locked and read, and perhaps given back. -/
theorem Reads.rereads_leave (h : i.Reads e e₁ q) : e.Rereads (i.leave e₁) :=
  h.rereads.trans (i.rereads_leave e₁)

/-- It is the same insertion, further on. -/
structure Follows (i j : Insertion) : Prop where
  /-- The transaction is the same. -/
  txn : j.txn = i.txn
  /-- The table is the same. -/
  table : j.table = i.table
  /-- The row is the same. -/
  row : j.row = i.row
  /-- The page changed is made the cached copy or not, as before. -/
  install : j.install = i.install

theorem Follows.refl (i : Insertion) : i.Follows i := ⟨rfl, rfl, rfl, rfl⟩

theorem Follows.trans {k : Insertion} (h : i.Follows j) (h' : j.Follows k) : i.Follows k :=
  ⟨h'.txn.trans h.txn, h'.table.trans h.table, h'.row.trans h.row, h'.install.trans h.install⟩

theorem follows_trying (i : Insertion) (e : Engine) (number : Nat) (grown : Bool) :
    i.Follows (i.trying e number grown) := ⟨rfl, rfl, rfl, rfl⟩

theorem Appends.follows (h : i.Appends e (.inr j) e') : i.Follows j := by
  cases h
  exact i.follows_trying ..

theorem Begins.follows (h : i.Begins e (.inr j) e') : i.Follows j := by
  cases h with
  | first => exact ⟨rfl, rfl, rfl, rfl⟩
  | append _ _ ha => exact ha.follows

theorem Leg.follows (h : i.Leg e (.inr j) e') : i.Follows j := by
  cases h with
  | next => exact i.follows_trying ..
  | append _ _ _ _ ha => exact ha.follows

/-- What has to wait is the insertion itself, further on. -/
theorem Way.follows (h : i.Way e (.inr c) e') : ∃ j, c = .insert j ∧ i.Follows j := by
  generalize hr : (Sum.inr c : Outcome ⊕ Call) = result at h
  obtain ⟨j, e₁, hj, hstop⟩ :=
    h.stops (p := fun j _ => i.Follows j) (fun hj hl => hj.trans hl.follows) (.refl i)
  cases hstop with
  | ended => cases hr
  | blocked =>
    cases hr
    exact ⟨j, rfl, hj⟩

theorem Trip.follows (h : i.Trip e (.inr c) e') : ∃ j, c = .insert j ∧ i.Follows j := by
  cases h with
  | way hb hw =>
    obtain ⟨j, hc, hj⟩ := hw.follows
    exact ⟨j, hc, hb.follows.trans hj⟩

/-- What has been done, from the engine `e₀` on, when an insertion is about to try a page. -/
structure Underway (e₀ : Engine) (i : Insertion) (e : Engine) : Prop where
  /-- The tables are the same. -/
  catalog : e.catalog = e₀.catalog
  /-- The log is the same. -/
  journal : e.journal = e₀.journal
  /-- The machine is the same. -/
  host : e.host = e₀.host
  /-- The disk is the same, unless this page has been appended. -/
  disk : e.disk = e₀.disk ∨ i.grown = true ∧
    e₀.disk.grow i.table = .ok (i.number, e.disk) ∧ i.number + 1 < pageLimit
  /-- A cached page was cached before, or has been read. -/
  cached : ∀ {page q}, e.cache.page? page = some q →
    e₀.cache.page? page = some q ∨ e₀.load page = .ok q ∨ e.load page = .ok q
  /-- Marked pages have stayed. -/
  marked : ∀ {page q}, e₀.cache.page? page = some q → q.dirtiedBy ≠ none →
    e.cache.page? page = some q

namespace Underway

theorem refl (e : Engine) (i : Insertion) : Underway e i e :=
  ⟨rfl, rfl, rfl, .inl rfl, .inl, fun hq _ => hq⟩

theorem rereads (h : Underway e₀ i e) (hr : e.Rereads e') : Underway e₀ i e' where
  catalog := (congrArg Backing.catalog hr.toBacking).trans h.catalog
  journal := (congrArg Backing.journal hr.toBacking).trans h.journal
  host := (congrArg Backing.host hr.toBacking).trans h.host
  disk := by
    rw [hr.disk]
    exact h.disk
  cached hq := by
    rw [load_congr hr.toBacking]
    rcases hr.cached hq with hq | hp
    · exact h.cached hq
    · exact .inr (.inr hp)
  marked hq hd := hr.marked (h.marked hq hd) hd

theorem keyed (h : Underway e₀ i e) (hk : e₀.Keyed) : e.Keyed := by
  intro page q hq
  rcases h.cached hq with hq | hp | hp
  · exact hk hq
  · exact id_of_load hp
  · exact id_of_load hp

theorem disk_eq (h : Underway e₀ i e) (hg : i.grown = false) : e.disk = e₀.disk :=
  h.disk.resolve_right fun hd => nomatch hg.symm.trans hd.1

/-- As long as the table has not grown the files are the same. -/
theorem load_eq (h : Underway e₀ i e) (hg : i.grown = false) : e.load = e₀.load := by
  funext page
  rw [load, load, h.catalog, h.disk_eq hg]

/-- The insertion is about to try another page of those that there were. -/
theorem trying (h : Underway e₀ i e) (hg : i.grown = false) (e' : Engine) (number count : Nat) :
    Underway e₀ ({ i with count }.trying e' number false) e :=
  ⟨h.catalog, h.journal, h.host, .inl (h.disk_eq hg), h.cached, h.marked⟩

/-- The table has grown by a page that is to be tried next. -/
theorem appends (h : Underway e₀ i e) (hg : i.grown = false) (ha : i.Appends e (.inr j) e') :
    Underway e₀ j e' := by
  cases ha with
  | @grown number disk hd hn =>
    rw [h.disk_eq hg] at hd
    refine ⟨h.catalog, h.journal, h.host, .inr ⟨rfl, hd, hn⟩, fun hq => ?_, h.marked⟩
    have hload := h.load_eq hg
    rcases h.cached hq with hq | hp | hp
    · exact .inl hq
    · exact .inr (.inl hp)
    · exact .inr (.inl (hload ▸ hp))

theorem begins (hg : i.grown = false) (h : i.Begins e (.inr j) e') : Underway e j e' := by
  cases h with
  | first => exact (refl e i).trying hg ..
  | append _ _ ha => exact (refl e i).appends hg ha

/-- A leg that does not end the insertion keeps it under way. -/
theorem leg (h : Underway e₀ i e) (hl : i.Leg e (.inr j) e') : Underway e₀ j e' := by
  cases hl with
  | next hr _ hg _ => exact (h.rereads hr.rereads_leave).trying hg ..
  | append hr _ hg _ ha =>
    exact (h.rereads hr.rereads_leave).appends hg ha

end Underway

end Insertion

end RowStore
