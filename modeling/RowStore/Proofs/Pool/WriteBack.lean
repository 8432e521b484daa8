import RowStore.Proofs.Page.Window
import RowStore.Proofs.Pool.Completion
import RowStore.Proofs.Pool.Move

/-!
# Writing back, whatever is cached

`RowStore.Proofs.Pool.Completion` tells what the ends of transactions lead to in an engine whose
cached pages are in step with the stored ones. Here is what they do to any engine. Writing one page
back has three outcomes, `Engine.Flushes`: there is nothing to write, or the log, the catalog or the
file fails and only the log has changed, or the page is written. `Engine.FlushesUnder` adds a fourth
one, that the write of the page breaks off. A commit is such outcomes in a row.

A page is written to the file of the table that it is cached for, but under the number that the copy
has. This is the page's own number unless somebody has put another page in its frame, and
`Engine.Lands` says where in the files the bytes of a changed page get to in either case.
-/

namespace RowStore.Engine

variable {e e' e₁ : Engine} {txn x : TxnId} {page pg : PageId} {p q : Page} {pages : List PageId}
  {result : Except Error Unit} {faults : Faults} {err : Error} {name other : String} {n m : Nat}
  {data new : Bytes}

/-! ## Places of pages -/

/-- Writing back the page puts these bytes in this place of the files. -/
def Lands (e : Engine) (page : PageId) (name : String) (n : Nat) (data : Bytes) : Prop :=
  ∃ q txn t, e.cache.page? page = some q ∧ q.dirtiedBy = some txn ∧
    e.catalog.table page.table = .ok t ∧ t.file = name ∧ q.id.number = n ∧ q.data = data

namespace Lands

theorem unique (h : e.Lands page name n data) (h' : e.Lands page other m new) :
    name = other ∧ n = m ∧ data = new := by
  obtain ⟨q, -, t, hq, -, ht, rfl, rfl, rfl⟩ := h
  obtain ⟨q', -, t', hq', -, ht', rfl, rfl, rfl⟩ := h'
  cases hq.symm.trans hq'
  cases ht.symm.trans ht'
  exact ⟨rfl, rfl, rfl⟩

/-- Where the bytes of a page get to depends on its cached copy and on the tables. -/
theorem congr (hc : e'.cache.page? page = e.cache.page? page) (ht : e'.catalog = e.catalog) :
    e'.Lands page name n data ↔ e.Lands page name n data := by
  simp only [Lands, hc, ht]

/-- A copy that is one of its page belongs in the page's own place. -/
theorem places (hk : e.Keyed) (h : e.Lands page name n data) : e.toBacking.Places page name n := by
  obtain ⟨q, -, t, hq, -, ht, rfl, rfl, -⟩ := h
  exact ⟨t, ht, rfl, congrArg PageId.number (hk hq).symm⟩

end Lands

/-! ## One page -/

/-- The page is not cached, or has no mark. -/
def Unmarked (page : PageId) (e : Engine) : Prop :=
  ∀ ⦃q⦄, e.cache.page? page = some q → q.dirtiedBy = none

theorem unmarked_of_not_cached (hn : e.cache.page? page = none) : e.Unmarked page := by
  intro q hq
  cases hn.symm.trans hq

/-- What becomes of a page that is to be written back, as long as no write breaks off. -/
inductive Flushes (page : PageId) (e : Engine) : Except Error Unit → Engine → Prop
  /-- There is nothing to write. -/
  | clean (hu : e.Unmarked page) : Flushes page e (.ok ()) e
  /-- It cannot be written. -/
  | failed {err : Error} {q : Page} {txn : TxnId} (journal : Journal)
    (hq : e.cache.page? page = some q) (hd : q.dirtiedBy = some txn) :
    Flushes page e (.error err) { e with journal }
  /-- It is logged and written, and has no mark any more. -/
  | written {q : Page} {txn : TxnId} {t : Table} {disk : Disk} (journal : Journal)
    (hq : e.cache.page? page = some q) (hd : q.dirtiedBy = some txn)
    (ht : e.catalog.table page.table = .ok t) (hw : e.disk.writePage t q = .ok disk) :
    Flushes page e (.ok ())
      { e with journal, disk, cache := e.cache.update page (·.markDirty none) }

/-- What becomes of a page that is to be written back. -/
inductive FlushesUnder (faults : Faults) (page : PageId) (e : Engine) :
    Except Error Unit → Engine → Prop
  /-- Its write does not break off, or it does not come to that. -/
  | whole {result : Except Error Unit} {e' : Engine} (h : e.Flushes page result e') :
    FlushesUnder faults page e result e'
  /-- Its write breaks off, and it keeps its mark. -/
  | torn {q : Page} {txn : TxnId} {t : Table} {disk : Disk} {fault : PageFile.Fault}
    (journal : Journal) (hq : e.cache.page? page = some q) (hd : q.dirtiedBy = some txn)
    (ht : e.catalog.table page.table = .ok t) (hw : e.disk.writePage t q = .ok disk)
    (hf : faults page = some fault) : FlushesUnder faults page e (.error fault.err)
      { e with journal, disk := e.disk.tearPage t q fault.bytes }

theorem flushesUnder_writeBack (faults : Faults) (journal : Journal)
    (hq : e.cache.page? page = some q) (hd : q.dirtiedBy = some txn) :
    e.FlushesUnder faults page (writeBack faults { e with journal } page q).1
      (writeBack faults { e with journal } page q).2 := by
  cases ht : e.catalog.table page.table with
  | error err =>
    simp only [writeBack, ht]
    exact .whole (.failed journal hq hd)
  | ok t =>
    cases hw : e.disk.writePage t q with
    | error err =>
      simp only [writeBack, ht, hw]
      exact .whole (.failed journal hq hd)
    | ok disk =>
      cases hf : faults page with
      | none =>
        simp only [writeBack, ht, hw, hf]
        exact .whole (.written journal hq hd ht hw)
      | some fault =>
        simp only [writeBack, ht, hw, hf]
        exact .torn journal hq hd ht hw hf

theorem flushesUnder_flushUnder (faults : Faults) (e : Engine) (page : PageId) :
    e.FlushesUnder faults page (e.flushUnder faults page).1 (e.flushUnder faults page).2 := by
  cases hq : e.cache.page? page with
  | none =>
    simp only [flushUnder, hq]
    exact .whole (.clean (unmarked_of_not_cached hq))
  | some q =>
    cases hd : q.dirtiedBy with
    | none =>
      simp only [flushUnder, hq, hd]
      exact .whole (.clean fun _ hq' => Option.some.inj (hq.symm.trans hq') ▸ hd)
    | some txn =>
      obtain ⟨result, journal, hl, -⟩ := logChange_eq e page txn q
      simp only [flushUnder, hq, hd, hl]
      cases result with
      | error err => exact .whole (.failed journal hq hd)
      | ok u => exact flushesUnder_writeBack faults journal hq hd

namespace Flushes

theorem catalog (h : e.Flushes page result e') : e'.catalog = e.catalog := by
  cases h <;> rfl

theorem locks (h : e.Flushes page result e') : e'.locks = e.locks := by
  cases h <;> rfl

/-- A cached copy is the old one, or the old one without its mark. -/
theorem page?_eq_some (h : e.Flushes page result e') (hq : e'.cache.page? pg = some q) :
    ∃ p, e.cache.page? pg = some p ∧ (q = p ∨ q = p.markDirty none) := by
  cases h with
  | clean | failed => exact ⟨q, hq, .inl rfl⟩
  | written =>
    rcases Cache.page?_update_eq_some hq with ⟨rfl, p, hp, rfl⟩ | hq
    · exact ⟨p, hp, .inr rfl⟩
    · exact ⟨q, hq, .inl rfl⟩

theorem keyed (hk : e.Keyed) (h : e.Flushes page result e') : e'.Keyed := by
  intro pg q hq
  obtain ⟨p, hp, rfl | rfl⟩ := h.page?_eq_some hq
  · exact hk hp
  · show p.id = pg
    exact hk hp

end Flushes

namespace FlushesUnder

/-- If no write breaks off, that of the page does not. -/
theorem whole_of_none (h : e.FlushesUnder .none page result e') : e.Flushes page result e' := by
  cases h with
  | whole h => exact h
  | torn _ _ _ _ _ hf => cases hf

/-- If it goes well, its write does not break off. -/
theorem whole_of_ok (h : e.FlushesUnder faults page (.ok ()) e') : e.Flushes page (.ok ()) e' := by
  cases h with
  | whole h => exact h

theorem locks (h : e.FlushesUnder faults page result e') : e'.locks = e.locks := by
  cases h with
  | whole h => exact h.locks
  | torn => rfl

end FlushesUnder

theorem flushes_flushUnder (e : Engine) (page : PageId) :
    e.Flushes page (e.flushUnder .none page).1 (e.flushUnder .none page).2 :=
  (flushesUnder_flushUnder .none e page).whole_of_none

/-- Taking the bytes of a cached copy for durable changes neither its name nor its mark. -/
theorem page?_rebase (hq : (rebase page e).cache.page? pg = some q) :
    ∃ p, e.cache.page? pg = some p ∧ q.id = p.id ∧ q.dirtiedBy = p.dirtiedBy := by
  rcases Cache.page?_update_eq_some hq with ⟨rfl, p, hp, rfl⟩ | hq
  · exact ⟨p, hp, rfl, rfl⟩
  · exact ⟨q, hq, rfl, rfl⟩

/-- A page that has been written back is cached as it was, without its mark and with its bytes for
durable. -/
theorem Flushes.page?_rebase_ok (h : e.Flushes page (.ok ()) e') (pg : PageId) :
    (rebase page e').cache.page? pg =
      if pg = page then (e.cache.page? pg).map Engine.written else e.cache.page? pg := by
  rw [rebase, Cache.page?_update]
  cases h with
  | clean hu =>
    split
    · next hpg =>
      cases hq : e.cache.page? pg with
      | none => rfl
      | some q =>
        have hd : q.dirtiedBy = none := hu (hpg ▸ hq)
        obtain ⟨id, schema, data, before, dirtiedBy⟩ := q
        obtain rfl : dirtiedBy = none := hd
        rfl
    · rfl
  | written =>
    rw [Cache.page?_update]
    split
    · exact Option.map_map ..
    · rfl

/-! ## Many pages -/

/-- What is kept by writing one page back, and by what is done after that, is kept by writing back
many pages. -/
theorem flushEach_keeps_under {p : Engine → Prop} {f : PageId → Engine → Engine}
    (hflush : ∀ {e e' page result}, p e → e.FlushesUnder faults page result e' → p e')
    (hthen : ∀ {e} page, p e → p (f page e)) (pages : List PageId) (hi : p e) :
    p (flushEach faults f pages e).2 := by
  induction pages generalizing e with
  | nil => exact hi
  | cons page pages ih =>
    have hf := hflush hi (flushesUnder_flushUnder faults e page)
    unfold flushEach
    generalize e.flushUnder faults page = flushed at hf
    obtain ⟨result, e₁⟩ := flushed
    cases result with
    | error err => exact hf
    | ok u => exact ih (hthen page hf)

theorem flushEach_keeps {p : Engine → Prop} {f : PageId → Engine → Engine}
    (hflush : ∀ {e e' page result}, p e → e.Flushes page result e' → p e')
    (hthen : ∀ {e} page, p e → p (f page e)) (pages : List PageId) (hi : p e) :
    p (flushEach .none f pages e).2 :=
  flushEach_keeps_under (fun hi h => hflush hi h.whole_of_none) hthen pages hi

theorem locks_flushEach {f : PageId → Engine → Engine} (faults : Faults)
    (hf : ∀ page e, (f page e).locks = e.locks) (pages : List PageId) (e : Engine) :
    (flushEach faults f pages e).2.locks = e.locks :=
  flushEach_keeps_under (p := fun e' => e'.locks = e.locks) (fun hl hw => hw.locks.trans hl)
    (fun page hl => (hf page _).trans hl) pages rfl

/-- Pages that have all been written back are cached as they were, without marks and with their
bytes for durable. The copies of other pages are left alone. -/
theorem page?_flushEach (h : flushEach .none rebase pages e = (.ok (), e')) (pg : PageId) :
    e'.cache.page? pg =
      if pg ∈ pages then (e.cache.page? pg).map written else e.cache.page? pg := by
  induction pages generalizing e with
  | nil =>
    cases h
    rfl
  | cons first rest ih =>
    have hf := flushes_flushUnder e first
    unfold flushEach at h
    generalize e.flushUnder .none first = flushed at h hf
    obtain ⟨result, e₁⟩ := flushed
    cases result with
    | error err => cases h
    | ok u =>
      rw [ih h, hf.page?_rebase_ok pg]
      by_cases hp : pg = first
      · by_cases hr : pg ∈ rest
        · rw [if_pos hr, if_pos hp, if_pos (List.mem_cons_of_mem _ hr), Option.map_map]
          rfl
        · rw [if_neg hr, if_pos hp, if_pos (hp ▸ List.mem_cons_self)]
      · rw [if_neg hp]
        simp only [List.mem_cons, hp, false_or]

/-- So they have no marks. -/
theorem unmarked_flushEach (h : flushEach .none rebase pages e = (.ok (), e'))
    (hp : page ∈ pages) : e'.Unmarked page := by
  intro q hq
  rw [page?_flushEach h, if_pos hp] at hq
  obtain ⟨r, -, rfl⟩ := Option.map_eq_some_iff.1 hq
  rfl

/-- A commit keeps what writing back keeps, and if it ends well it gives all locks back. -/
theorem commit_keeps_under {p : Engine → Prop} (txn : TxnId)
    (hflush : ∀ {e e' page result}, p e → e.FlushesUnder faults page result e' → p e')
    (hthen : ∀ {e} page, p e → p (rebase page e)) (hi : p e) : ∃ e₁, p e₁ ∧
      ((e.commitUnder faults txn).2 = e₁ ∨ (e.commitUnder faults txn).2 = e₁.releaseAll txn) := by
  have h := flushEach_keeps_under hflush hthen (e.held txn) hi
  unfold commitUnder
  generalize flushEach faults rebase (e.held txn) e = flushed at h
  obtain ⟨result, e₁⟩ := flushed
  cases result with
  | error err => exact ⟨e₁, h, .inl rfl⟩
  | ok u => exact ⟨e₁, h, .inr rfl⟩

/-- After a commit that ends well the pages that the transaction held for itself alone are cached as
they were, without marks and with their bytes for durable. -/
theorem page?_commit (h : e.commit txn = (.ok (), e')) (pg : PageId) :
    e'.cache.page? pg = if e.locks.modeOf txn pg = .exclusive then (e.cache.page? pg).map written
      else e.cache.page? pg := by
  unfold commit commitUnder at h
  cases hfl : flushEach .none rebase (e.held txn) e with
  | mk result e₁ =>
    rw [hfl] at h
    cases result with
    | error err => cases h
    | ok u =>
      cases h
      exact (page?_flushEach hfl pg).trans (if_congr mem_held rfl rfl)

theorem locks_commit (faults : Faults) (e : Engine) (txn : TxnId) :
    (e.commitUnder faults txn).2.locks = e.locks ∨
      (e.commitUnder faults txn).2.locks = e.locks.releaseAll txn := by
  obtain ⟨e₁, hl, he | he⟩ := commit_keeps_under (p := fun e' => e'.locks = e.locks) txn
    (fun hl hf => hf.locks.trans hl) (fun _ hl => hl) rfl
  · rw [he]
    exact .inl hl
  · rw [he]
    exact .inr (congrArg (·.releaseAll txn) hl)

end RowStore.Engine
