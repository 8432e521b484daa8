import RowStore.Proofs.Pool.WriteBack

/-!
# What happens to the log and the files

Everything that a pool does to the log and to the files of tables is one of a few *events*: the log
takes a record or refuses it, makes its records durable or fails to, a page is written in its place,
or a file grows by a page without rows. `Backing.Undergoes` says what a series of events leads to,
and leaves nothing open: two backings that undergo the same events end up the same.

Writing back pages is a matter of such events in a fixed order. `Engine.Traces` follows the list of
pages: a page that has been changed has its record logged, the log is forced, and only then its
bytes are written to where they belong; and if one of these steps fails nothing more happens, and
the page stays as it is in the cache.
-/

namespace RowStore

/-- Something that is done to the log or to a file. -/
inductive Event
  /-- The log takes a record. -/
  | logged (r : UpdateRecord)
  /-- The log fails to take a record. -/
  | refused (r : UpdateRecord) (err : Error)
  /-- The log makes its records durable. -/
  | forced
  /-- The log fails to make its records durable. -/
  | unforced (err : Error)
  /-- A page of a file is written in its place. -/
  | written (file : String) (number : Nat) (data : Bytes)
  /-- A page without rows is put behind the pages of a file. -/
  | grown (file : String) (number : Nat)

namespace Event

/-- The record that the log takes. -/
def record? : Event → Option UpdateRecord
  | logged r => some r
  | _ => none

/-- The event puts bytes in the place of a page of a file. -/
def Puts (name : String) (n : Nat) : Event → Prop
  | written file number _ => file = name ∧ number = n
  | grown file number => file = name ∧ number = n
  | _ => False

/-- The event is that a file grows. -/
def IsGrowth : Event → Prop
  | grown .. => True
  | _ => False

end Event

namespace Backing

variable {b b₁ b₂ : Backing} {ev : Event} {events more : List Event} {name : String} {n : Nat}
  {data : Bytes}

/-- What one event leads to. -/
inductive Meets (b : Backing) : Event → Backing → Prop
  /-- The log takes a record. -/
  | logged {r : UpdateRecord} {journal : Journal} (h : b.journal.append r = (.ok (), journal)) :
    Meets b (.logged r) { b with journal }
  /-- The log fails to take a record. -/
  | refused {r : UpdateRecord} {err : Error} {journal : Journal}
    (h : b.journal.append r = (.error err, journal)) : Meets b (.refused r err) { b with journal }
  /-- The log makes its records durable. -/
  | forced {journal : Journal} (h : b.journal.force = (.ok (), journal)) :
    Meets b .forced { b with journal }
  /-- The log fails to make its records durable. -/
  | unforced {err : Error} {journal : Journal} (h : b.journal.force = (.error err, journal)) :
    Meets b (.unforced err) { b with journal }
  /-- A page of a file is written in its place. -/
  | written {file : String} {number : Nat} {data : Bytes} {f f' : PageFile}
    (hf : b.disk.file? file = some f) (hw : f.write number data = .ok f') :
    Meets b (.written file number data) { b with disk := b.disk.put f' }
  /-- A page of zeros is put behind the pages of a file. -/
  | grown {file : String} {f : PageFile} (hf : b.disk.file? file = some f) :
    Meets b (.grown file f.pageCount)
      { b with disk := b.disk.put (f.append (Bytes.zeros f.pageSize)).2 }

/-- What a series of events leads to. -/
inductive Undergoes : Backing → List Event → Backing → Prop
  /-- Nothing happens. -/
  | nil {b : Backing} : Undergoes b [] b
  /-- One event happens, and then the others. -/
  | cons {b b₁ b₂ : Backing} {ev : Event} {events : List Event} (h : b.Meets ev b₁)
    (h' : Undergoes b₁ events b₂) : Undergoes b (ev :: events) b₂

theorem Meets.catalog (h : b.Meets ev b₁) : b₁.catalog = b.catalog := by
  cases h <;> rfl

/-- The log has the records that it had, and the one that it has taken. -/
theorem Meets.records (h : b.Meets ev b₁) :
    b₁.journal.records = b.journal.records ++ ev.record?.toList := by
  cases h with
  | logged h =>
    unfold Journal.append at h
    split at h
    · cases h
    · cases h
      rfl
  | refused h =>
    unfold Journal.append at h
    split at h
    · cases h
      exact (List.append_nil _).symm
    · cases h
  | forced h =>
    unfold Journal.force at h
    split at h
    · cases h
    · cases h
      exact (List.append_nil _).symm
  | unforced h =>
    unfold Journal.force at h
    split at h
    · cases h
      exact (List.append_nil _).symm
    · cases h
  | written | grown => exact (List.append_nil _).symm

theorem Meets.filed (hb : b.Filed) (h : b.Meets ev b₁) : b₁.Filed := by
  cases h with
  | logged | refused | forced | unforced => exact hb.of_eq rfl rfl rfl
  | written | grown => exact hb.put _

/-- The bytes that are written somewhere are there then. -/
theorem Meets.window?_written {file : String} {number : Nat} (hb : b.Filed)
    (h : b.Meets (.written file number data) b₁) : b₁.disk.window? file number = some data := by
  cases h with
  | written hf hw =>
    obtain ⟨hn, hself, -⟩ := PageFile.window?_write hw
    exact (hb.window?_put hf hn _ _).trans ((if_pos rfl).trans hself)

/-- A whole page in the place of which nothing is put stays as it is. -/
theorem Meets.kept (hb : b.Filed) (h : b.Meets ev b₁) (hn : ¬ ev.Puts name n)
    (hw : b.disk.window? name n = some data) : b₁.disk.window? name n = some data := by
  cases h with
  | logged | refused | forced | unforced => exact hw
  | @written file number _ f f' hf hwrite =>
    obtain ⟨hname, -, hother⟩ := PageFile.window?_write hwrite
    refine (hb.window?_put hf hname _ _).trans ?_
    split
    · next he =>
      rw [he, Disk.window?, hf] at hw
      exact hother (fun hnum => hn ⟨he.symm, hnum.symm⟩) hw
    · exact hw
  | @grown file f hf =>
    obtain ⟨hname, -, hother⟩ := PageFile.window?_append (Bytes.length_zeros f.pageSize)
    refine (hb.window?_put hf hname _ _).trans ?_
    split
    · next he =>
      rw [he, Disk.window?, hf] at hw
      exact hother (fun hnum => hn ⟨he.symm, hnum.symm⟩) hw
    · exact hw

namespace Undergoes

theorem single (h : b.Meets ev b₁) : b.Undergoes [ev] b₁ := .cons h .nil

theorem append (h : b.Undergoes events b₁) (h' : b₁.Undergoes more b₂) :
    b.Undergoes (events ++ more) b₂ := by
  induction h with
  | nil => exact h'
  | cons hm _ ih => exact .cons hm (ih h')

theorem catalog (h : b.Undergoes events b₁) : b₁.catalog = b.catalog := by
  induction h with
  | nil => rfl
  | cons hm _ ih => exact ih.trans hm.catalog

/-- The log has the records that it had, and then those that it has taken. -/
theorem records (h : b.Undergoes events b₁) :
    b₁.journal.records = b.journal.records ++ events.filterMap Event.record? := by
  induction h with
  | nil => exact (List.append_nil _).symm
  | @cons b b₁ b₂ ev events hm _ ih =>
    rw [ih, hm.records, List.append_assoc, List.filterMap_cons]
    cases ev.record? <;> rfl

/-- A whole page in the place of which nothing is put stays as it is. -/
theorem kept (h : b.Undergoes events b₁) (hb : b.Filed) (hn : ∀ ev ∈ events, ¬ ev.Puts name n)
    (hw : b.disk.window? name n = some data) : b₁.disk.window? name n = some data := by
  induction h with
  | nil => exact hw
  | cons hm _ ih =>
    exact ih (hm.filed hb) (fun ev hev => hn ev (.tail _ hev)) (hm.kept hb (hn _ (.head _)) hw)

/-- The bytes that are written somewhere stay there if nothing else is put there later. -/
theorem window?_written (h : b.Undergoes (events ++ .written name n data :: more) b₁)
    (hb : b.Filed) (hn : ∀ ev ∈ more, ¬ ev.Puts name n) :
    b₁.disk.window? name n = some data := by
  induction events generalizing b with
  | nil =>
    cases h with
    | cons hm h => exact h.kept (hm.filed hb) hn (hm.window?_written hb)
  | cons ev events ih =>
    cases h with
    | cons hm h => exact ih h (hm.filed hb)

end Undergoes

/-- Nothing has happened but that files have grown. -/
def Lengthens (b b₁ : Backing) : Prop :=
  ∃ events, b.Undergoes events b₁ ∧ ∀ ev ∈ events, ev.IsGrowth

theorem Lengthens.refl (b : Backing) : b.Lengthens b := ⟨[], .nil, nofun⟩

theorem Lengthens.trans (h : b.Lengthens b₁) (h' : b₁.Lengthens b₂) : b.Lengthens b₂ := by
  obtain ⟨events, hund, hg⟩ := h
  obtain ⟨more, hund', hg'⟩ := h'
  exact ⟨events ++ more, hund.append hund', fun ev hev =>
    (List.mem_append.1 hev).elim (hg ev) (hg' ev)⟩

end Backing

namespace Engine

variable {e e' e₁ : Engine} {page pg : PageId} {p q : Page} {r : UpdateRecord} {txn : TxnId}
  {pages : List PageId} {result : Except Error Unit} {events : List Event}

/-! ## Changes that are pending -/

/-- The record of the change of a cached page, if it has been changed. -/
def pending? (e : Engine) (page : PageId) : Option UpdateRecord :=
  (e.cache.page? page).bind fun q => q.dirtiedBy.map fun txn => ⟨txn, page, q.before, q.data⟩

theorem pending?_eq_some_iff : e.pending? page = some r ↔
    ∃ q txn, e.cache.page? page = some q ∧ q.dirtiedBy = some txn ∧
      r = ⟨txn, page, q.before, q.data⟩ := by
  simp only [pending?, Option.bind_eq_some_iff, Option.map_eq_some_iff]
  constructor
  · rintro ⟨q, hq, txn, hd, rfl⟩
    exact ⟨q, txn, hq, hd, rfl⟩
  · rintro ⟨q, txn, hq, hd, rfl⟩
    exact ⟨q, hq, txn, hd, rfl⟩

theorem pending?_eq_none_iff : e.pending? page = none ↔ e.Unmarked page := by
  simp only [pending?, Option.bind_eq_none_iff, Option.map_eq_none_iff]
  exact Iff.rfl

theorem pending?_congr (h : e'.cache.page? page = e.cache.page? page) :
    e'.pending? page = e.pending? page := by
  rw [pending?, h]
  rfl

/-! ## One page -/

/-- What becomes of a page that is to be written back, with the events. -/
inductive Attempts (page : PageId) (e : Engine) :
    Except Error Unit → Engine → List Event → Prop
  /-- There is nothing to write. -/
  | clean (hr : e.pending? page = none) : Attempts page e (.ok ()) e []
  /-- The log does not take the record. -/
  | refused {r : UpdateRecord} {err : Error} {journal : Journal} (hr : e.pending? page = some r)
    (ha : e.journal.append r = (.error err, journal)) :
    Attempts page e (.error err) { e with journal } [.refused r err]
  /-- The log does not make the record durable. -/
  | unforced {r : UpdateRecord} {err : Error} {journal journal' : Journal}
    (hr : e.pending? page = some r) (ha : e.journal.append r = (.ok (), journal))
    (hf : journal.force = (.error err, journal')) :
    Attempts page e (.error err) { e with journal := journal' } [.logged r, .unforced err]
  /-- The catalog does not know the table, or its file does not take the page. -/
  | unwritten {r : UpdateRecord} {err : Error} {journal journal' : Journal}
    (hr : e.pending? page = some r) (ha : e.journal.append r = (.ok (), journal))
    (hf : journal.force = (.ok (), journal')) :
    Attempts page e (.error err) { e with journal := journal' } [.logged r, .forced]
  /-- It is logged and written, and has no mark any more. -/
  | written {r : UpdateRecord} {journal journal' : Journal} {name : String} {n : Nat}
    {f f' : PageFile} (hr : e.pending? page = some r) (ha : e.journal.append r = (.ok (), journal))
    (hf : journal.force = (.ok (), journal')) (hl : e.Lands page name n r.after)
    (hd : e.disk.file? name = some f) (hw : f.write n r.after = .ok f') :
    Attempts page e (.ok ())
      { e with
        journal := journal'
        disk := e.disk.put f'
        cache := e.cache.update page (·.markDirty none) }
      [.logged r, .forced, .written name n r.after]

theorem attempts_writeBack {journal journal' : Journal} (hq : e.cache.page? page = some q)
    (hd : q.dirtiedBy = some txn)
    (ha : e.journal.append ⟨txn, page, q.before, q.data⟩ = (.ok (), journal))
    (hf : journal.force = (.ok (), journal')) :
    ∃ events, e.Attempts page (writeBack .none { e with journal := journal' } page q).1
      (writeBack .none { e with journal := journal' } page q).2 events := by
  have hr := pending?_eq_some_iff.2 ⟨q, txn, hq, hd, rfl⟩
  cases ht : e.catalog.table page.table with
  | error err =>
    simp only [writeBack, ht]
    exact ⟨_, .unwritten hr ha hf⟩
  | ok t =>
    cases hw : e.disk.writePage t q with
    | error err =>
      simp only [writeBack, ht, hw]
      exact ⟨_, .unwritten hr ha hf⟩
    | ok disk =>
      simp only [writeBack, ht, hw, Faults.none]
      obtain ⟨f, hfind, hwrite⟩ := bind_eq_ok.1 hw
      obtain ⟨f', hpage, rfl⟩ := map_eq_ok.1 hwrite
      exact ⟨_, .written hr ha hf ⟨q, txn, t, hq, hd, ht, rfl, rfl, rfl⟩
        (Disk.find_eq_ok.1 hfind) hpage⟩

theorem attempts_flush (e : Engine) (page : PageId) :
    ∃ events, e.Attempts page (e.flush page).1 (e.flush page).2 events := by
  unfold flush
  cases hq : e.cache.page? page with
  | none =>
    simp only [flushUnder, hq]
    exact ⟨_, .clean (pending?_eq_none_iff.2 (unmarked_of_not_cached hq))⟩
  | some q =>
    cases hd : q.dirtiedBy with
    | none =>
      simp only [flushUnder, hq, hd]
      refine ⟨_, .clean (pending?_eq_none_iff.2 fun _ hq' => ?_)⟩
      exact Option.some.inj (hq.symm.trans hq') ▸ hd
    | some txn =>
      have hr := pending?_eq_some_iff.2 ⟨q, txn, hq, hd, rfl⟩
      rcases ha : e.journal.append ⟨txn, page, q.before, q.data⟩ with ⟨err | u, j₁⟩
      · simp only [flushUnder, hq, hd, logChange, ha]
        exact ⟨_, .refused hr ha⟩
      · rcases hj : j₁.force with ⟨err | u, j₂⟩
        · simp only [flushUnder, hq, hd, logChange, ha, hj]
          exact ⟨_, .unforced hr ha hj⟩
        · simp only [flushUnder, hq, hd, logChange, ha, hj]
          exact attempts_writeBack hq hd ha hj

namespace Attempts

theorem undergoes (h : e.Attempts page result e' events) :
    e.toBacking.Undergoes events e'.toBacking := by
  cases h with
  | clean => exact .nil
  | refused _ ha => exact .single (.refused ha)
  | unforced _ ha hf => exact .cons (.logged ha) (.single (.unforced hf))
  | unwritten _ ha hf => exact .cons (.logged ha) (.single (.forced hf))
  | written _ ha hf _ hd hw =>
    exact .cons (.logged ha) (.cons (.forced hf) (.single (.written hd hw)))

/-- The copies of other pages are left alone. -/
theorem page?_of_ne (h : e.Attempts page result e' events) (hn : pg ≠ page) :
    e'.cache.page? pg = e.cache.page? pg := by
  cases h with
  | clean | refused | unforced | unwritten => rfl
  | written => exact (Cache.page?_update ..).trans (if_neg hn)

end Attempts

/-! ## Many pages -/

/-- What is done about a page after it has been written back is done to its cached copy only. -/
structure Tends (andThen : PageId → Engine → Engine) : Prop where
  /-- The log and the files are left alone. -/
  backing : ∀ page e, (andThen page e).toBacking = e.toBacking
  /-- The copies of other pages are left alone. -/
  page?_of_ne : ∀ {page pg : PageId} (e : Engine), pg ≠ page →
    (andThen page e).cache.page? pg = e.cache.page? pg

theorem Tends.none : Tends fun _ e => e := ⟨fun _ _ => rfl, fun _ _ => rfl⟩

theorem Tends.rebase : Tends rebase :=
  ⟨fun _ _ => rfl, fun _ hn => (Cache.page?_update ..).trans (if_neg hn)⟩

/-- The events in which pages are written back one after the other, by which `e` has become `e'`. Up
to the first failure each changed page is logged, forced and written; a page that fails stays as it
is. -/
inductive Traces (e e' : Engine) : List PageId → Except Error Unit → List Event → Prop
  /-- There are no more pages. -/
  | nil : Traces e e' [] (.ok ()) []
  /-- A page has not been changed. -/
  | clean {page : PageId} {pages : List PageId} {result : Except Error Unit} {events : List Event}
    (hr : e.pending? page = none) (h : Traces e e' pages result events) :
    Traces e e' (page :: pages) result events
  /-- A changed page is logged, forced and written where its bytes belong. -/
  | written {page : PageId} {pages : List PageId} {r : UpdateRecord} {name : String} {n : Nat}
    {result : Except Error Unit} {events : List Event} (hr : e.pending? page = some r)
    (hl : e.Lands page name n r.after) (h : Traces e e' pages result events) :
    Traces e e' (page :: pages) result
      (.logged r :: .forced :: .written name n r.after :: events)
  /-- The log does not take the record of a changed page. -/
  | refused {page : PageId} {pages : List PageId} {r : UpdateRecord} {err : Error}
    (hr : e.pending? page = some r) (hkept : e'.cache.page? page = e.cache.page? page) :
    Traces e e' (page :: pages) (.error err) [.refused r err]
  /-- The log does not make it durable. -/
  | unforced {page : PageId} {pages : List PageId} {r : UpdateRecord} {err : Error}
    (hr : e.pending? page = some r) (hkept : e'.cache.page? page = e.cache.page? page) :
    Traces e e' (page :: pages) (.error err) [.logged r, .unforced err]
  /-- The catalog does not know the table of the page, or the file does not take it. -/
  | unwritten {page : PageId} {pages : List PageId} {r : UpdateRecord} {err : Error}
    (hr : e.pending? page = some r) (hkept : e'.cache.page? page = e.cache.page? page) :
    Traces e e' (page :: pages) (.error err) [.logged r, .forced]

/-- The pages that have been written back, if none fails, are the changed ones. -/
theorem Traces.records (h : e.Traces e' pages (.ok ()) events) :
    events.filterMap Event.record? = pages.filterMap e.pending? := by
  generalize hres : Except.ok () = result at h
  induction h with
  | nil => rfl
  | clean hr _ ih => rw [ih hres, List.filterMap_cons_none hr]
  | written hr _ _ ih =>
    rw [List.filterMap_cons_some hr, ← ih hres]
    rfl
  | refused | unforced | unwritten => cases hres

/-- Of the last state only the cached copies matter. -/
theorem Traces.of_cache (h : e.Traces e' pages result events) (hc : e₁.cache = e'.cache) :
    e.Traces e₁ pages result events := by
  induction h with
  | nil => exact .nil
  | clean hr _ ih => exact .clean hr ih
  | written hr ht _ ih => exact .written hr ht ih
  | refused hr hkept => exact .refused hr (hc ▸ hkept)
  | unforced hr hkept => exact .unforced hr (hc ▸ hkept)
  | unwritten hr hkept => exact .unwritten hr (hc ▸ hkept)

/-- What is put into the files are pages of the list. -/
theorem Traces.exists_lands {name : String} {n : Nat} (h : e.Traces e' pages result events)
    {ev : Event} (hev : ev ∈ events) (hp : ev.Puts name n) :
    ∃ page ∈ pages, ∃ data, e.Lands page name n data := by
  induction h with
  | nil => cases hev
  | clean _ _ ih =>
    obtain ⟨page, hpage, hl⟩ := ih hev
    exact ⟨page, .tail _ hpage, hl⟩
  | written _ hl _ ih =>
    simp only [List.mem_cons] at hev
    rcases hev with rfl | rfl | rfl | hev
    · cases hp
    · cases hp
    · obtain ⟨rfl, rfl⟩ := hp
      exact ⟨_, .head _, _, hl⟩
    · obtain ⟨page, hpage, hl⟩ := ih hev
      exact ⟨page, .tail _ hpage, hl⟩
  | refused =>
    rw [List.mem_singleton.1 hev] at hp
    cases hp
  | unforced | unwritten =>
    simp only [List.mem_cons, List.not_mem_nil, or_false] at hev
    rcases hev with rfl | rfl <;> cases hp

/-- If all copies are of their own pages, then nothing is put later where a page is written. -/
theorem Traces.eq_append_of_written {name : String} {n : Nat} {data : Bytes} (hf : e.Filed)
    (hk : e.Keyed) (h : e.Traces e' pages result events) (hn : pages.Nodup)
    (hw : .written name n data ∈ events) :
    ∃ first rest, events = first ++ .written name n data :: rest ∧
      ∀ ev ∈ rest, ¬ ev.Puts name n := by
  induction h with
  | nil => cases hw
  | clean _ _ ih => exact ih (List.nodup_cons.1 hn).2 hw
  | @written page pages r file number result events hr hl h ih =>
    obtain ⟨hpage, hn⟩ := List.nodup_cons.1 hn
    simp only [List.mem_cons, reduceCtorEq, false_or] at hw
    rcases hw with hw | hw
    · cases hw
      refine ⟨[.logged r, .forced], events, rfl, fun ev hev hp => hpage ?_⟩
      obtain ⟨pg, hpg, data, hl'⟩ := h.exists_lands hev hp
      rwa [hf.eq_of_places (hl.places hk) (hl'.places hk)]
    · obtain ⟨first, rest, rfl, hrest⟩ := ih hn hw
      exact ⟨.logged r :: .forced :: .written file number r.after :: first, rest, rfl, hrest⟩
  | refused | unforced | unwritten => simp at hw

/-- Writing back pages that are cached as they were in `e` has the events of `e`. -/
theorem traces_flushEach {andThen : PageId → Engine → Engine} (hthen : Tends andThen)
    (hn : pages.Nodup) (hc : e₁.catalog = e.catalog)
    (hsame : ∀ page ∈ pages, e₁.cache.page? page = e.cache.page? page) :
    ∃ events, e₁.toBacking.Undergoes events (flushEach .none andThen pages e₁).2.toBacking ∧
      e.Traces (flushEach .none andThen pages e₁).2 pages (flushEach .none andThen pages e₁).1
        events := by
  induction pages generalizing e₁ with
  | nil => exact ⟨[], .nil, .nil⟩
  | cons page pages ih =>
    obtain ⟨hpage, hn⟩ := List.nodup_cons.1 hn
    have hhead : e₁.cache.page? page = e.cache.page? page := hsame page (.head _)
    have hpend := pending?_congr hhead
    obtain ⟨first, hfirst⟩ := attempts_flush e₁ page
    have hund := hfirst.undergoes
    have hothers := fun pg (hpg : pg ≠ page) => hfirst.page?_of_ne hpg
    unfold flush at hfirst hund hothers
    unfold flushEach
    generalize e₁.flushUnder .none page = flushed at hfirst hund hothers
    obtain ⟨result, e₂⟩ := flushed
    cases result with
    | error err =>
      refine ⟨first, hund, ?_⟩
      cases hfirst with
      | refused hr => exact .refused (hpend ▸ hr) hhead
      | unforced hr => exact .unforced (hpend ▸ hr) hhead
      | unwritten hr => exact .unwritten (hpend ▸ hr) hhead
    | ok u =>
      have hcat : (andThen page e₂).catalog = e.catalog := by
        rw [congrArg Backing.catalog (hthen.backing page e₂), hund.catalog, hc]
      have hrest : ∀ pg ∈ pages, (andThen page e₂).cache.page? pg = e.cache.page? pg := by
        intro pg hpg
        have hne : pg ≠ page := fun he => hpage (he ▸ hpg)
        rw [hthen.page?_of_ne e₂ hne, hothers pg hne]
        exact hsame pg (.tail _ hpg)
      obtain ⟨rest, hund', htr⟩ := ih hn hcat hrest
      rw [hthen.backing] at hund'
      refine ⟨first ++ rest, hund.append hund', ?_⟩
      cases hfirst with
      | clean hr => exact .clean (hpend ▸ hr) htr
      | written hr _ _ hl => exact .written (hpend ▸ hr) ((Lands.congr hhead hc).1 hl) htr

/-- The events of writing back pages of an engine. -/
theorem traces (e : Engine) {andThen : PageId → Engine → Engine} (hthen : Tends andThen)
    (hn : pages.Nodup) :
    ∃ events, e.toBacking.Undergoes events (flushEach .none andThen pages e).2.toBacking ∧
      e.Traces (flushEach .none andThen pages e).2 pages (flushEach .none andThen pages e).1
        events :=
  traces_flushEach hthen hn rfl fun _ _ => rfl

/-- The events of writing one page back. -/
theorem Attempts.traces (h : e.Attempts page result e' events) :
    e.Traces e' [page] result events := by
  cases h with
  | clean hr => exact .clean hr .nil
  | refused hr => exact .refused hr rfl
  | unforced hr => exact .unforced hr rfl
  | unwritten hr => exact .unwritten hr rfl
  | written hr _ _ hl => exact .written hr hl .nil

/-- The events of a commit are those of writing back the pages that the transaction holds for itself
alone. -/
theorem traces_commit (e : Engine) (txn : TxnId) :
    ∃ events, e.toBacking.Undergoes events (e.commit txn).2.toBacking ∧
      e.Traces (e.commit txn).2 (e.held txn) (e.commit txn).1 events := by
  obtain ⟨events, hund, htr⟩ := traces e .rebase (nodup_held e txn)
  refine ⟨events, ?_⟩
  unfold commit commitUnder
  generalize flushEach .none Engine.rebase (e.held txn) e = flushed at hund htr
  obtain ⟨result, e₁⟩ := flushed
  cases result with
  | error err => exact ⟨hund, htr⟩
  | ok u => exact ⟨hund, htr.of_cache rfl⟩

/-! ## Moves -/

/-- Single moves do nothing to the log, and nothing to files but let them grow. -/
theorem Move.lengthens (h : e.Move txn e') : e.toBacking.Lengthens e'.toBacking := by
  cases h with
  | load hl => cases hl <;> exact .refl _
  | keep | write => exact .refl _
  | install hi =>
    obtain ⟨c, -, -, rfl⟩ := install_eq hi
    exact .refl _
  | grow hg =>
    obtain ⟨f, hf, hg⟩ := bind_eq_ok.1 hg
    cases hg
    refine ⟨[_], .single (.grown (Disk.find_eq_ok.1 hf)), fun ev hev => ?_⟩
    rw [List.mem_singleton.1 hev]
    trivial

end Engine

end RowStore
