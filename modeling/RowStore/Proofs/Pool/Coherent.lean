import RowStore.Call.Change
import RowStore.Proofs.Lock.Records
import RowStore.Proofs.Pool.Cache
import RowStore.Proofs.Pool.Move
import RowStore.Proofs.Pool.View

/-!
# Cached pages and stored pages

The engine is *coherent* if every cached page is a version of the page that is stored, unchanged
unless it is marked, and if the transaction that a page is marked with holds it for itself alone.

Most of what happens to the cache neither adds nor drops a change: clean pages leave, and stored
pages enter. `Engine.Recaches` says so. It keeps the engine coherent, and transactions see the same
pages as before. The other thing that happens is that a transaction changes a page that it holds for
itself alone, which is `Coherent.update`.
-/

namespace RowStore

/-- `q` is the stored page `p`, or what a transaction has made of it. -/
structure Page.VersionOf (q p : Page) : Prop where
  /-- They are the same page. -/
  id : q.id = p.id
  /-- They hold rows of the same schema. -/
  schema : q.schema = p.schema
  /-- The stored bytes are remembered. -/
  before : q.before = p.data
  /-- They are of the same size. -/
  size : q.size = p.size
  /-- Without a mark, the bytes are the stored ones. -/
  clean : q.dirtiedBy = none → q.data = p.data

theorem Page.VersionOf.refl {p : Page} (h : p.asStored = p) : p.VersionOf p where
  id := rfl
  schema := rfl
  before := by rw [← h]; rfl
  size := rfl
  clean _ := rfl

/-- A version without a mark is the stored page. -/
theorem Page.VersionOf.eq_of_clean {q p : Page} (h : q.VersionOf p) (hp : p.asStored = p)
    (hd : q.dirtiedBy = none) : q = p := by
  have hc := h.clean hd
  obtain ⟨id, schema, data, before, dirtiedBy⟩ := q
  obtain rfl : id = p.id := h.id
  obtain rfl : schema = p.schema := h.schema
  obtain rfl : before = p.data := h.before
  obtain rfl : dirtiedBy = none := hd
  obtain rfl : data = p.data := hc
  exact hp

namespace Engine

variable {e e' : Engine} {c : Cache} {txn x : TxnId} {page pg : PageId} {p q q' : Page}
  {access : Access} {k : Handle}

/-- Every cached page is a version of a stored one, and changed by nobody but who holds it for
itself alone. -/
structure Coherent (e : Engine) : Prop extends e.toBacking.WellFormed where
  /-- A cached page is a version of the stored one. -/
  version : ∀ {page q}, e.cache.page? page = some q → ∃ p, e.stored page = some p ∧ q.VersionOf p
  /-- Who has changed a page holds it for itself alone. -/
  owner : ∀ {page q txn}, e.cache.page? page = some q → q.dirtiedBy = some txn →
    e.locks.modeOf txn page = .exclusive

/-- The cache holds every changed page of the engine, and besides only pages that the engine has
cached or stored. -/
structure Recaches (e : Engine) (c : Cache) : Prop where
  /-- A changed page stays. -/
  changed : ∀ {page q}, e.cache.page? page = some q → q.dirtiedBy ≠ none → c.page? page = some q
  /-- A page comes from the old cache or from its file. -/
  known : ∀ {page q}, c.page? page = some q →
    e.cache.page? page = some q ∨ e.stored page = some q

theorem Recaches.of_page? (h : ∀ page, c.page? page = e.cache.page? page) : e.Recaches c where
  changed hq _ := (h _).trans hq
  known hq := .inl ((h _).symm.trans hq)

/-- To evict a clean page is to cache other pages. -/
theorem recaches_discard (hq : e.cache.page? page = some q) (hd : q.dirtiedBy = none)
    (hc : ∀ pg, c.page? pg = (e.cache.discard page).page? pg) : e.Recaches c where
  changed {pg q'} hq' hd' := by
    rw [hc, Cache.page?_discard, if_neg, hq']
    rintro rfl
    rw [hq] at hq'
    cases hq'
    exact hd' hd
  known {pg q'} hq' := by
    rw [hc] at hq'
    exact .inl (Cache.page?_of_discard hq')

namespace Coherent

/-! ## Looking -/

theorem id_eq (h : e.Coherent) (hq : e.cache.page? page = some q) : q.id = page := by
  obtain ⟨p, hp, hv⟩ := h.version hq
  exact hv.id.trans (h.toWellFormed.id_eq hp)

/-- A cached page without a mark is the stored one. -/
theorem stored_of_clean (h : e.Coherent) (hq : e.cache.page? page = some q)
    (hd : q.dirtiedBy = none) : e.stored page = some q := by
  obtain ⟨p, hp, hv⟩ := h.version hq
  rw [hv.eq_of_clean (h.toWellFormed.asStored_eq hp) hd]
  exact hp

/-- Of a page that nobody has changed, transactions see the stored version. -/
theorem seen_of_clean (h : e.Coherent)
    (hd : ∀ {q}, e.cache.page? page = some q → q.dirtiedBy = none) :
    e.seen page = e.stored page := by
  cases hq : e.cache.page? page with
  | none => exact seen_of_not_cached hq
  | some q =>
    have hp := h.stored_of_clean hq (hd hq)
    rw [seen_of_cached hq, hp, h.toWellFormed.asStored_eq hp]

/-- Transactions see a page just if it is stored. -/
theorem seen_eq_none_iff (h : e.Coherent) : e.seen page = none ↔ e.stored page = none := by
  cases hq : e.cache.page? page with
  | none => rw [seen_of_not_cached hq]
  | some q =>
    obtain ⟨p, hp, -⟩ := h.version hq
    simp [seen_of_cached hq, hp]

/-- Transactions see pages under their own numbers, with rows of the types that the catalog says. -/
theorem of_seen (h : e.Coherent) (hp : e.seen page = some p) :
    p.id = page ∧ ∃ t, e.catalog.table page.table = .ok t ∧ p.schema = t.schema := by
  cases hq : e.cache.page? page with
  | none =>
    rw [seen_of_not_cached hq] at hp
    obtain ⟨t, file, data, ht, -, -, rfl⟩ := h.toWellFormed.eq_of_stored hp
    exact ⟨rfl, t, ht, rfl⟩
  | some q =>
    rw [seen_of_cached hq] at hp
    cases hp
    obtain ⟨r, hr, hv⟩ := h.version hq
    obtain ⟨t, file, data, ht, -, -, rfl⟩ := h.toWellFormed.eq_of_stored hr
    exact ⟨hv.id, t, ht, hv.schema⟩

/-! ## Locks -/

/-- Changing the locks keeps the engine coherent as long as who has changed a page keeps it. -/
theorem withLocks (h : e.Coherent) {locks : LockTable}
    (ho : ∀ {page q txn}, e.cache.page? page = some q → q.dirtiedBy = some txn →
      locks.modeOf txn page = .exclusive) : Coherent { e with locks } where
  toWellFormed := h.toWellFormed
  version := h.version
  owner := ho

/-! ## Caching other pages -/

theorem recache (h : e.Coherent) (hc : e.Recaches c) : Coherent { e with cache := c } where
  toWellFormed := h.toWellFormed
  version hq := by
    rcases hc.known hq with hq | hp
    · exact h.version hq
    · exact ⟨_, hp, .refl (h.toWellFormed.asStored_eq hp)⟩
  owner {page q txn} hq hd := by
    rcases hc.known hq with hq | hp
    · exact h.owner hq hd
    · rw [← h.toWellFormed.asStored_eq hp] at hd
      cases hd

/-- Transactions do not see which clean pages are cached. -/
theorem seen_recache (h : e.Coherent) (hc : e.Recaches c) :
    Engine.seen { e with cache := c } = e.seen := by
  funext page
  cases hq : e.cache.page? page with
  | none =>
    rw [seen_of_not_cached hq]
    refine (h.recache hc).seen_of_clean fun {q} hq' => ?_
    rcases hc.known hq' with hq' | hp
    · cases hq.symm.trans hq'
    · rw [← h.toWellFormed.asStored_eq hp]
      rfl
  | some q =>
    by_cases hd : q.dirtiedBy = none
    · rw [h.seen_of_clean fun hq' => Option.some.inj (hq.symm.trans hq') ▸ hd]
      refine (h.recache hc).seen_of_clean fun {q'} hq' => ?_
      rcases hc.known hq' with hq' | hp
      · exact Option.some.inj (hq.symm.trans hq') ▸ hd
      · rw [← h.toWellFormed.asStored_eq hp]
        rfl
    · rw [seen_of_cached hq]
      exact seen_of_cached (e := { e with cache := c }) (hc.changed hq hd)

/-- Room in the cache is made by evicting a clean page, if at all. -/
theorem recaches_makeRoom (hm : e.cache.makeRoom = .ok c) : e.Recaches c := by
  rcases Cache.makeRoom_eq_ok hm with rfl | ⟨page, q, hq, hd, rfl⟩
  · exact .of_page? fun _ => rfl
  · exact recaches_discard hq hd fun _ => rfl

/-- Evicting a page is caching other pages. -/
theorem recaches_evict (he : e.evict = .ok (page, e')) :
    ∃ c, e' = { e with cache := c } ∧ e.Recaches c := by
  obtain ⟨⟨victim, c⟩, hv, he⟩ := bind_eq_ok.1 he
  cases he
  obtain ⟨⟨q, hq, hd⟩, hc⟩ := Cache.evict_eq_ok hv
  exact ⟨c, rfl, recaches_discard hq hd fun _ => hc ▸ rfl⟩

/-- A stored page that was not cached enters the cache. -/
theorem recaches_add (hq : e.cache.page? page = none) (hp : e.stored page = some p)
    (hid : p.id = page) (hc : e.cache.add p = .ok c) : e.Recaches c := by
  obtain ⟨c₁, hm, rfl⟩ := Cache.add_eq_ok hc
  have hr := recaches_makeRoom hm
  refine ⟨fun {pg q'} hq' hd' => ?_, fun {pg q'} hq' => ?_⟩
  · rw [Cache.page?_enter, if_neg, hr.changed hq' hd']
    rintro rfl
    rw [hid, hq] at hq'
    cases hq'
  · rw [Cache.page?_enter] at hq'
    split at hq'
    · next he =>
      cases hq'
      exact .inr (by rw [he, hid]; exact hp)
    · exact hr.known hq'

/-- A page that is asked for is in the cache then, and the handle reads it. -/
theorem reach_eq_ok (h : e.Coherent) (hr : e.reach txn page access = .ok (k, e')) :
    k.page = page ∧ k.txn = txn ∧ k.access = access ∧ ∃ c q, e' = { e with cache := c } ∧
      e.Recaches c ∧ c.read k = .ok q ∧ c.page? page = some q := by
  obtain ⟨hk, ht, ha, hl⟩ := Engine.reach_eq_ok hr
  obtain ⟨q, hread, hq⟩ := read_of_reach hr
  refine ⟨hk, ht, ha, e'.cache, q, ?_, ?_, hread, hq⟩
  · cases hl <;> rfl
  · cases hl with
    | cached => exact .of_page? fun _ => rfl
    | @stored p _ hn hp hc =>
      have hp : e.stored page = some p := congrArg Except.toOption hp
      exact recaches_add hn hp (h.toWellFormed.id_eq hp) hc

/-! ## Changing a page -/

/-- A transaction may change a page that it holds for itself alone, as long as it is marked. -/
theorem update (h : e.Coherent) (hq : e.cache.page? page = some q)
    (hx : e.locks.modeOf txn page = .exclusive) (ha : (q.markDirty (some txn)).Alike q') :
    Coherent { e with cache := e.cache.update page fun _ => q' } where
  toWellFormed := h.toWellFormed
  version {pg r} hr := by
    rcases Cache.page?_update_eq_some hr with ⟨rfl, -, -, rfl⟩ | hr
    · obtain ⟨p, hp, hv⟩ := h.version hq
      exact ⟨p, hp, ha.id.trans hv.id, ha.schema.trans hv.schema, ha.before.trans hv.before,
        ha.size.trans hv.size, fun hd => nomatch ha.dirtiedBy.symm.trans hd⟩
    · exact h.version hr
  owner {pg r x} hr hd := by
    rcases Cache.page?_update_eq_some hr with ⟨rfl, -, -, rfl⟩ | hr
    · cases ha.dirtiedBy.symm.trans hd
      exact hx
    · exact h.owner hr hd

theorem seen_update (hq : e.cache.page? page = some q) :
    Engine.seen { e with cache := e.cache.update page fun _ => q' } =
      Function.update e.seen page (some q'.asStored) := by
  funext pg
  simp only [seen, Cache.page?_update, Function.update_apply]
  split
  · next hpg => simp [hpg, hq]
  · rfl

end Coherent

/-- A change through a handle that reads a page and may change it. -/
theorem change_of_read {α : Type} {f : Page → Except Error (α × Page)} (ha : k.access = .write)
    (hq : e.cache.read k = .ok q) :
    e.change k f = match f (q.markDirty (some k.txn)) with
      | .ok (a, q') => (.ok (a, q'), { e with cache := e.cache.update k.page fun _ => q' })
      | .error err => (.error err,
          { e with cache := e.cache.update k.page fun _ => q.markDirty (some k.txn) }) := by
  rw [change, Cache.write_of_read ha hq]
  cases f (q.markDirty (some k.txn)) <;> rfl

end Engine

end RowStore
