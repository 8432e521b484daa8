import Mathlib.Logic.Relation
import RowStore.Cursor
import RowStore.Call.Change
import RowStore.Proofs.Lock.Records
import RowStore.Proofs.Page.Slots
import RowStore.Proofs.Pool.Cache

/-!
# Single moves of the engine

What requests do to the engine, apart from its locks, is made up of a few single moves: a page is
read from its file, a handle is kept, a page that is held for sole use is changed or replaced, a
table grows. `Engine.Move` lists them, and every operation that a request goes through comes down to
some of them. Nothing is assumed about the engine here: not that its cached pages have to do with
the stored ones, and not that anybody has kept to any rules so far.

None of these moves touches the locks or the log.
-/

namespace RowStore.Engine

open Relation

variable {e e' e₁ : Engine} {txn x : TxnId} {page pg : PageId} {p q : Page} {access : Access}
  {k : Handle} {row : Row} {place : RowId}

/-! ## Moves -/

/-- The page is cached then: it was before, or it has been read from its file. -/
inductive Loads (page : PageId) (e : Engine) : Engine → Prop
  /-- The page was cached. -/
  | cached {q : Page} (hq : e.cache.page? page = some q) : Loads page e e
  /-- The page has been read from its file, and another one may have been evicted for it. -/
  | stored {p : Page} {c : Cache} (hq : e.cache.page? page = none) (hp : e.load page = .ok p)
    (hc : e.cache.add p = .ok c) : Loads page e { e with cache := c }

/-- A single move on behalf of a transaction. -/
inductive Move (txn : TxnId) (e : Engine) : Engine → Prop
  /-- A page is read from its file unless it is cached. -/
  | load {page : PageId} {e' : Engine} (h : e.Loads page e') : Move txn e e'
  /-- Somebody keeps a handle. -/
  | keep (k : Handle) : Move txn e { e with cache := e.cache.keep k }
  /-- Rows are inserted into a page that is held for sole use, or deleted from it. -/
  | write {page : PageId} {q q' : Page} (hx : e.locks.modeOf txn page = .exclusive)
    (hq : e.cache.page? page = some q) (he : (q.markDirty (some txn)).Edited q') :
    Move txn e { e with cache := e.cache.update page fun _ => q' }
  /-- A copy of a page that is held for sole use becomes the cached one. -/
  | install {p : Page} {e' : Engine} (h : e.install txn p = .ok e') : Move txn e e'
  /-- A table grows by a page. -/
  | grow {t : Table} {number : Nat} {disk : Disk} (h : e.disk.grow t = .ok (number, disk)) :
    Move txn e { e with disk }

/-- Any number of moves. -/
abbrev Moves (txn : TxnId) : Engine → Engine → Prop := ReflTransGen (Move txn)

/-! ## What moves leave alone -/

/-- Nobody's locks and no records of the log are touched, and the tables are the same. -/
structure Stays (e e' : Engine) : Prop where
  /-- The tables are the same. -/
  catalog : e'.catalog = e.catalog
  /-- The log is the same. -/
  journal : e'.journal = e.journal
  /-- The machine is the same. -/
  host : e'.host = e.host
  /-- The locks are the same. -/
  locks : e'.locks = e.locks

theorem Stays.refl (e : Engine) : e.Stays e := ⟨rfl, rfl, rfl, rfl⟩

theorem Stays.trans {e₂ : Engine} (h : e.Stays e₁) (h' : e₁.Stays e₂) : e.Stays e₂ where
  catalog := h'.catalog.trans h.catalog
  journal := h'.journal.trans h.journal
  host := h'.host.trans h.host
  locks := h'.locks.trans h.locks

theorem Loads.stays (h : e.Loads page e') : e.Stays e' := by
  cases h with
  | cached => exact .refl e
  | stored => exact ⟨rfl, rfl, rfl, rfl⟩

theorem Loads.disk (h : e.Loads page e') : e'.disk = e.disk := by
  cases h <;> rfl

/-- To make a page the cached copy is a matter of the cache. -/
theorem install_eq (h : e.install txn p = .ok e') :
    ∃ c, e.cache.put (p.markDirty (some txn)) = .ok c ∧
    e.locks.modeOf txn p.id = .exclusive ∧ e' = { e with cache := c } := by
  unfold Engine.install at h
  split at h
  · next hx =>
    obtain ⟨c, hc, h⟩ := bind_eq_ok.1 h
    cases h
    exact ⟨c, hc, hx, rfl⟩
  · cases h

theorem Move.stays (h : e.Move txn e') : e.Stays e' := by
  cases h with
  | load h => exact h.stays
  | keep => exact ⟨rfl, rfl, rfl, rfl⟩
  | write => exact ⟨rfl, rfl, rfl, rfl⟩
  | install h =>
    obtain ⟨c, -, -, rfl⟩ := install_eq h
    exact ⟨rfl, rfl, rfl, rfl⟩
  | grow => exact ⟨rfl, rfl, rfl, rfl⟩

theorem Moves.stays (h : e.Moves txn e') : e.Stays e' := by
  induction h with
  | refl => exact .refl e
  | tail _ hm ih => exact ih.trans hm.stays

/-! ## Pages that are read -/

/-- A page is read as the file of its table has it, without a mark. -/
theorem load_eq_ok (h : e.load page = .ok p) : ∃ t f data, e.catalog.table page.table = .ok t ∧
    e.disk.file? t.file = some f ∧ f.read page.number = .ok data ∧
      p = Page.ofBytes page t.schema data := by
  obtain ⟨t, ht, h⟩ := bind_eq_ok.1 h
  obtain ⟨f, hf, h⟩ := bind_eq_ok.1 h
  split at h
  · obtain ⟨data, hd, h⟩ := bind_eq_ok.1 h
    cases h
    exact ⟨t, f, data, ht, Disk.find_eq_ok.1 hf, hd, rfl⟩
  · cases h

theorem id_of_load (h : e.load page = .ok p) : p.id = page := by
  obtain ⟨t, f, data, -, -, -, rfl⟩ := load_eq_ok h
  rfl

theorem dirtiedBy_of_load (h : e.load page = .ok p) : p.dirtiedBy = none := by
  obtain ⟨t, f, data, -, -, -, rfl⟩ := load_eq_ok h
  rfl

/-- Room is made by taking pages away, and never one with a mark. -/
theorem page?_makeRoom {c c' : Cache} (h : c.makeRoom = .ok c') (pg : PageId) :
    c'.page? pg = c.page? pg ∨
      c'.page? pg = none ∧ ∃ q, c.page? pg = some q ∧ q.dirtiedBy = none := by
  rcases Cache.makeRoom_eq_ok h with rfl | ⟨victim, q, hq, hd, rfl⟩
  · exact .inl rfl
  · change (c.discard victim).page? pg = _ ∨ (c.discard victim).page? pg = _ ∧ _
    rw [Cache.page?_discard]
    split
    · next hpg => exact .inr ⟨rfl, q, hpg ▸ hq, hd⟩
    · exact .inl rfl

/-- A cached page was cached before, or is the one that has been read. -/
theorem Loads.page?_eq_some (h : e.Loads page e') (hq : e'.cache.page? pg = some q) :
    e.cache.page? pg = some q ∨ pg = page ∧ e.load page = .ok q := by
  cases h with
  | cached => exact .inl hq
  | stored hn hp hc =>
    obtain ⟨c₁, hm, rfl⟩ := Cache.add_eq_ok hc
    change (c₁.enter _).page? pg = some q at hq
    rw [Cache.page?_enter, id_of_load hp] at hq
    split at hq
    · next hpg =>
      cases hq
      exact .inr ⟨hpg, hp⟩
    · rcases page?_makeRoom hm pg with he | ⟨hn, -⟩
      · exact .inl (he ▸ hq)
      · rw [hn] at hq
        cases hq

/-! ## What requests go through -/

theorem reach_eq_ok (h : e.reach txn page access = .ok (k, e')) :
    k.page = page ∧ k.txn = txn ∧ k.access = access ∧ e.Loads page e' := by
  unfold reach at h
  split at h
  · next f hf =>
    cases h
    exact ⟨rfl, rfl, rfl, .cached (Cache.page?_eq_some_iff.2 ⟨f, hf, rfl⟩)⟩
  · next hf =>
    obtain ⟨p, hp, h⟩ := bind_eq_ok.1 h
    obtain ⟨c, hc, h⟩ := bind_eq_ok.1 h
    cases h
    exact ⟨rfl, rfl, rfl, .stored (Cache.page?_eq_none_iff.2 hf) hp hc⟩

/-- Of a page that has been reached, the handle reads the cached copy. -/
theorem read_of_reach (h : e.reach txn page access = .ok (k, e')) :
    ∃ q, e'.cache.read k = .ok q ∧ e'.cache.page? page = some q := by
  unfold reach at h
  split at h
  · next f hf =>
    cases h
    exact ⟨f.page, Cache.read_of_frame hf rfl, Cache.page?_eq_some_iff.2 ⟨f, hf, rfl⟩⟩
  · next hf =>
    obtain ⟨p, hp, h⟩ := bind_eq_ok.1 h
    obtain ⟨c, hc, h⟩ := bind_eq_ok.1 h
    cases h
    obtain ⟨c₁, hm, rfl⟩ := Cache.add_eq_ok hc
    have hframe : (c₁.enter p).frame? page = some ⟨e.cache.nextSerial, p⟩ := by
      rw [Cache.frame?_enter, if_pos (id_of_load hp).symm, Cache.nextSerial_makeRoom hm]
    have hread := Cache.read_of_frame (h := ⟨page, txn, access, e.cache.nextSerial⟩) hframe rfl
    exact ⟨p, hread, Cache.page?_eq_some_iff.2 ⟨_, hframe, rfl⟩⟩

/-- A change through a handle that comes down to insertions and deletions. -/
theorem moves_change {α : Type} {f : Page → Except Error (α × Page)}
    (hf : ∀ {p a q}, f p = .ok (a, q) → p.Edited q)
    (hx : e.locks.modeOf k.txn k.page = .exclusive) : e.Moves k.txn (e.change k f).2 := by
  unfold change
  dsimp only
  split
  · next result c hw =>
    obtain ⟨q, hq, -, rfl⟩ := Cache.write_eq_ok hw
    refine .single (.write hx (Cache.read_eq_ok hq) ?_)
    split
    · next a q' hfq => exact hf hfq
    · exact .refl
  · exact .refl

/-- To conclude is to make a page the cached copy, if anything. -/
theorem moves_conclude (e : Engine) (txn : TxnId) (p : Page) (install : Bool) :
    e.Moves txn (e.conclude txn p install).2 := by
  unfold conclude
  split
  · split
    · next e' hi => exact .single (.install hi)
    · exact .refl
  · exact .refl

/-- An attempt to insert that finds the page full has only read it. -/
theorem moves_tryInsert (hx : e.locks.modeOf txn page = .exclusive) (row : Row) :
    e.Moves txn (e.tryInsert txn page row).2 ∧
      ((e.tryInsert txn page row).1 = .ok none → e.Loads page (e.tryInsert txn page row).2) := by
  unfold tryInsert
  split
  · exact ⟨.refl, nofun⟩
  · next k e₁ hr =>
    obtain ⟨rfl, rfl, -, hl⟩ := reach_eq_ok hr
    have hm : e.Moves k.txn e₁ := .single (.load hl)
    split
    · exact ⟨hm, nofun⟩
    · next p hp =>
      split
      · exact ⟨hm, fun _ => hl⟩
      · have hch : e₁.Moves k.txn (e₁.change k (·.insert row)).2 :=
          moves_change (fun hi => .insert .refl hi) (by rw [hl.stays.locks, hx])
        generalize e₁.change k (·.insert row) = changed at hch
        obtain ⟨result, e₂⟩ := changed
        refine ⟨hm.trans hch, fun hn => ?_⟩
        cases result <;> cases hn

theorem moves_tryDelete (hx : e.locks.modeOf txn place.page = .exclusive) :
    e.Moves txn (e.tryDelete txn place).2 := by
  unfold tryDelete
  split
  · exact .refl
  · next k e₁ hr =>
    obtain ⟨hk, rfl, -, hl⟩ := reach_eq_ok hr
    have hch : e₁.Moves k.txn (e₁.change k fun p => (p.delete (some place)).map ((), ·)).2 := by
      refine moves_change (fun {p a q} hd => ?_) (by rw [hl.stays.locks, hk, hx])
      obtain ⟨q', hd, he⟩ := bind_eq_ok.1 hd
      cases he
      exact .delete .refl hd
    exact ReflTransGen.head (.load hl) hch

theorem moves_nextRows (e : Engine) (c : Cursor) : e.Moves c.txn (e.nextRows c).2 := by
  unfold nextRows
  split
  · exact .refl
  · next k e₁ hr => exact .single (.load (reach_eq_ok hr).2.2.2)

/-! ## Cached copies under their own names -/

/-- Every cached copy is one of the page that it is cached as. -/
def Keyed (e : Engine) : Prop := ∀ ⦃page q⦄, e.cache.page? page = some q → q.id = page

theorem Keyed.of_page? (h : e.Keyed) (hc : ∀ page, e'.cache.page? page = e.cache.page? page) :
    e'.Keyed := by
  intro page q hq
  exact h ((hc page).symm.trans hq)

theorem Loads.keyed (h : e.Keyed) (hl : e.Loads page e') : e'.Keyed := by
  intro pg q hq
  rcases hl.page?_eq_some hq with hq | ⟨rfl, hp⟩
  · exact h hq
  · exact id_of_load hp

/-- What is cached after a copy has been put in the place of the old one, or has entered. -/
theorem page?_of_put {c c' : Cache} (h : c.put p = .ok c') :
    c'.page? p.id = some p ∧ ∀ {pg q}, pg ≠ p.id → c'.page? pg = some q → c.page? pg = some q := by
  unfold Cache.put at h
  split at h
  · next hcon =>
    cases h
    obtain ⟨f, hf⟩ := Option.isSome_iff_exists.1 hcon
    constructor
    · rw [Cache.page?_update, if_pos rfl, Cache.page?, hf]
      rfl
    · intro pg q hne hq
      rwa [Cache.page?_update, if_neg hne] at hq
  · obtain ⟨c₁, hm, rfl⟩ := Cache.add_eq_ok h
    constructor
    · rw [Cache.page?_enter, if_pos rfl]
    · intro pg q hne hq
      rw [Cache.page?_enter, if_neg hne] at hq
      rcases page?_makeRoom hm pg with he | ⟨hn, -⟩
      · rwa [← he]
      · rw [hn] at hq
        cases hq

/-- Who holds a page for itself alone may make any copy of it the cached one, which is marked then.
The others are those that were cached. -/
theorem install_eq_ok (h : e.install txn p = .ok e') : e.locks.modeOf txn p.id = .exclusive ∧
    e'.cache.page? p.id = some (p.markDirty (some txn)) ∧
      ∀ {pg q}, pg ≠ p.id → e'.cache.page? pg = some q → e.cache.page? pg = some q := by
  obtain ⟨c, hc, hx, rfl⟩ := install_eq h
  obtain ⟨hp, ho⟩ := page?_of_put hc
  exact ⟨hx, hp, ho⟩

theorem Move.keyed (h : e.Keyed) (hm : e.Move txn e') : e'.Keyed := by
  cases hm with
  | load hl => exact hl.keyed h
  | keep k => exact h.of_page? fun _ => rfl
  | @write _ q _ hx hq he =>
    intro pg r hr
    rcases Cache.page?_update_eq_some hr with ⟨rfl, -, -, rfl⟩ | hr
    · have hid : q.id = pg := h hq
      exact he.alike.id.trans hid
    · exact h hr
  | @install p _ hi =>
    obtain ⟨-, hp, ho⟩ := install_eq_ok hi
    intro pg r hr
    by_cases hpg : pg = p.id
    · subst hpg
      rw [hp] at hr
      cases hr
      rfl
    · exact h (ho hpg hr)
  | grow => exact h.of_page? fun _ => rfl

/-! ## Locks

None of this depends on who holds what. -/

@[simp] theorem locks_conclude (e : Engine) (txn : TxnId) (p : Page) (install : Bool) :
    (e.conclude txn p install).2.locks = e.locks :=
  (moves_conclude e txn p install).stays.locks

@[simp] theorem locks_nextRows (e : Engine) (c : Cursor) : (e.nextRows c).2.locks = e.locks :=
  (moves_nextRows e c).stays.locks

theorem locks_reach (h : e.reach txn page access = .ok (k, e')) : e'.locks = e.locks :=
  (reach_eq_ok h).2.2.2.stays.locks

@[simp] theorem locks_change {α : Type} (e : Engine) (k : Handle)
    (f : Page → Except Error (α × Page)) : (e.change k f).2.locks = e.locks := by
  unfold change
  dsimp only
  split <;> rfl

@[simp] theorem locks_tryInsert (e : Engine) (txn : TxnId) (page : PageId) (row : Row) :
    (e.tryInsert txn page row).2.locks = e.locks := by
  unfold tryInsert
  split
  · rfl
  · next k e₁ hr =>
    split
    · exact locks_reach hr
    · split
      · exact locks_reach hr
      · exact (locks_change e₁ k _).trans (locks_reach hr)

@[simp] theorem locks_tryDelete (e : Engine) (txn : TxnId) (place : RowId) :
    (e.tryDelete txn place).2.locks = e.locks := by
  unfold tryDelete
  split
  · rfl
  · next k e₁ hr => exact (locks_change e₁ k _).trans (locks_reach hr)

end RowStore.Engine
