import RowStore.Proofs.Call.Passage
import RowStore.Proofs.Service.Insertion
import RowStore.Proofs.Service.Repeatable

/-!
# Where rows are put

A row is put into the first page of its table that has an empty slot, and into the first such slot.
Only if every page is full the table grows, by one page, and the row comes to stand in its first
slot. `Engine.PutsFirst` says this, and that nothing else has changed, in terms of the pages as
transactions see them.

An insertion that is under way may have to read more pages than the pool has room for, so that pages
leave the pool and come back while it goes on. But all this is about clean pages, and whether these
are cached or not transactions do not see. So at the page where the insertion ends the pages that it
has passed are still as they were when it set out, which is `Insertion.Passing`.
-/

namespace RowStore

open Engine

/-- A table that grows counts one page more, or as many as before if it has more pages than page
numbers can count. -/
theorem Backing.WellFormed.pageCount_of_grow {b : Backing} {t : Table} {d : Disk} {number : Nat}
    (h : b.WellFormed) (ht : b.catalog.table t.id = .ok t) (hg : b.disk.grow t = .ok (number, d))
    (hn : number + 1 < pageLimit) :
    d.pageCount t = .ok number ∨ d.pageCount t = .ok (number + 1) := by
  obtain ⟨f, hf, hname, hs⟩ := h.file ht
  obtain ⟨g, hf', hg⟩ := bind_eq_ok.1 hg
  obtain rfl : f = g := Option.some.inj (hf.symm.trans (Disk.find_eq_ok.1 hf'))
  cases hg
  have hz : (Bytes.zeros f.pageSize).length = f.pageSize := Bytes.length_zeros _
  have hput : (b.disk.put (f.append (Bytes.zeros f.pageSize)).2).file? t.file =
      some (f.append (Bytes.zeros f.pageSize)).2 := hname ▸ Disk.file?_put_self b.disk _
  rcases PageFile.pageCount_append hs hz hn with hc | hc
  · exact .inl ((Disk.pageCount_eq hput).trans (congrArg Except.ok hc))
  · exact .inr ((Disk.pageCount_eq hput).trans (congrArg Except.ok hc))

namespace Engine

variable {e e' : Engine} {txn : TxnId} {t : Table} {row : Row} {place : RowId} {page : PageId}

/-- The first place for a row in a table: its first vacancy, or else the first slot of a page that
the table grows by. -/
inductive FirstPlace (e e' : Engine) (t : Table) (n : Nat) (place : RowId) : Prop
  /-- It is the first empty slot of a page, and the files stay as they are. -/
  | vacancy {p : Page} (hn : place.page.number < n) (hp : e.seen place.page = some p)
    (hv : p.FirstVacancy place.slot) (hd : e'.disk = e.disk)
  /-- It is the first slot of a new page, the only one that is new. -/
  | appended (hn : place.page.number = n) (hs : place.slot = 0) (hp : e.seen place.page = none)
    (hd : e'.disk.pageCount t = .ok (n + 1))

/-- A row of a table that has so many pages is put at its first place, and nothing else happens to
any row. -/
structure PutsFirst (txn : TxnId) (t : Table) (row : Row) (n : Nat) (place : RowId)
    (e e' : Engine) : Prop where
  /-- The table has this many pages at first. -/
  count : e.disk.pageCount t = .ok n
  /-- The row is put into a page of the table. -/
  table : place.page.table = t.id
  /-- The pages before are full. -/
  full : ∀ k < place.page.number, ∃ p, e.seen ⟨t.id, k⟩ = some p ∧ p.Full
  /-- It is put at the first place that there is. -/
  first : e.FirstPlace e' t n place
  /-- There transactions see it, as far as it fits. -/
  shown : ∃ q values, e'.seen place.page = some q ∧
    q.row? place.slot = .ok (some ⟨values, some place⟩) ∧
      List.Forall₂ Value.ReadsAs row.values values
  /-- Everywhere else they see what they saw. -/
  others : ∀ {other}, other ≠ place → rowsOf e'.seen other = rowsOf e.seen other
  /-- The other pages are as they were. -/
  pages : ∀ {page p}, page ≠ place.page → e.seen page = some p → e'.seen page = some p
  /-- The page is cached, and counts as changed by the transaction. -/
  marked : ∃ q, e'.cache.page? place.page = some q ∧ q.dirtiedBy = some txn
  /-- The files have every page that they had as it was. -/
  stored : ∀ {page p}, e.stored page = some p → e'.stored page = some p

end Engine

namespace Insertion

variable {e e' e₀ e₁ : Engine} {i j : Insertion} {q q' : Page} {reply : Reply}

/-- An insertion that has set out from the engine `e₀`, and has tried each page from the first
on. -/
structure SetOut (e₀ : Engine) (i : Insertion) (e : Engine) : Prop
    extends Passing e₀ 0 i e where
  /-- It has counted the pages. -/
  count : e₀.disk.pageCount i.table = .ok i.count
  /-- If it has made its table grow, then by the page that it is about to try. -/
  grow : i.grown = true → e₀.disk.grow i.table = .ok (i.number, e.disk) ∧ i.number + 1 < pageLimit

namespace SetOut

theorem begins (hg : i.grown = false) (hi : i.count = 0) (h : i.Begins e (.inr j) e') :
    SetOut e j e' where
  toPassing := .begins hg h
  count := h.follows.table ▸ h.count_eq hi
  grow hj := by
    cases h with
    | first => cases hj
    | append _ _ ha => exact (Underway.refl e i).grow_of_appends hg ha

theorem leg (h : SetOut e₀ i e) (hc : e₀.Coherent)
    (ht : e₀.catalog.table i.table.id = .ok i.table) (hl : i.Leg e (.inr j) e') :
    SetOut e₀ j e' where
  toPassing := h.toPassing.leg hc ht hl
  count := by
    rw [hl.follows.table, hl.count_eq]
    exact h.count
  grow hj := by
    cases hl with
    | next => cases hj
    | append hr _ hg _ ha =>
      exact (h.rereads hr.rereads_leave).grow_of_appends hg ha

theorem number_le (h : SetOut e₀ i e) : i.number ≤ i.count := by
  cases hg : i.grown with
  | false => exact Nat.le_of_lt (h.lt hg)
  | true =>
    have hn := Disk.pageCount_of_grow (h.grow hg).1
    exact Nat.le_of_eq (Except.ok.inj (hn.symm.trans h.count))

/-- A page that the table has grown by, and that has been read, is without rows, and the only new
one. -/
theorem appended_reads (h : SetOut e₀ i e) (hc : e₀.Coherent)
    (ht : e₀.catalog.table i.table.id = .ok i.table) (hg : i.grown = true) (hr : i.Reads e e₁ q) :
    i.number = i.count ∧ e₀.seen i.page = none ∧ (∀ slot, q.slot? slot = none) ∧
      e₁.disk.pageCount i.table = .ok (i.count + 1) := by
  have hu := h.toUnderway.rereads hr.rereads
  obtain ⟨hgrow, hn⟩ := h.grow hg
  rw [← hr.rereads.disk] at hgrow
  have hnumber : i.number = i.count :=
    Except.ok.inj ((Disk.pageCount_of_grow hgrow).symm.trans h.count)
  have hnone : e₀.seen i.page = none := by
    rw [hc.seen_eq_none_iff, Option.eq_none_iff_forall_ne_some]
    intro p hp
    have hlt : i.number < i.count := hc.toWellFormed.number_lt ht hp h.count
    exact Nat.ne_of_lt hlt hnumber
  refine ⟨hnumber, hnone, fun slot => ?_, ?_⟩
  · have hseen : e₁.seen i.page = some q.asStored := seen_of_cached hr.cached
    rcases hu.grows_seen hc ht i.page with hp | ⟨-, schema, size, hp⟩
    · cases (hp.trans hnone).symm.trans hseen
    · rw [← Page.slot?_asStored, Option.some.inj (hseen.symm.trans hp)]
      exact Page.slot?_empty ..
  · rw [← hnumber]
    refine (hc.toWellFormed.pageCount_of_grow ht hgrow hn).resolve_left fun hsame => ?_
    obtain ⟨p, hp, -⟩ := hu.stored_of_cached hc ht hr.cached
    rw [hu.stored_eq] at hp
    exact Nat.lt_irrefl _ ((hu.withDisk hc ht).1.toWellFormed.number_lt ht hp hsame)

/-- The first vacancy of the page that has been read is the first place of the table, whatever is
cached in the end. -/
theorem firstPlace {slot : Nat} (h : SetOut e₀ i e) (hc : e₀.Coherent)
    (ht : e₀.catalog.table i.table.id = .ok i.table) (hr : i.Reads e e₁ q)
    (hv : q.FirstVacancy slot) (c : Cache) :
    e₀.FirstPlace { e₁ with cache := c } i.table i.count ⟨i.page, slot⟩ := by
  cases hg : i.grown with
  | false =>
    have hseen := h.seen_of_reads hc ht hg hr
    have hv' : q.asStored.FirstVacancy slot :=
      (Page.firstVacancy_congr (p := q) (q := q.asStored) rfl rfl).2 hv
    exact .vacancy (h.lt hg) hseen hv' ((h.toUnderway.rereads hr.rereads).disk_eq hg)
  | true =>
    obtain ⟨hn, hseen, hempty, hd⟩ := h.appended_reads hc ht hg hr
    refine .appended hn ?_ hseen hd
    by_contra hs
    exact hv.first 0 (Nat.pos_of_ne_zero hs) (hempty 0)

/-- An insertion that ends with success has put its row at the first place. -/
theorem putsFirst (h : SetOut e₀ i e) (hc : e₀.Coherent)
    (ht : e₀.catalog.table i.table.id = .ok i.table) (hl : i.Leg e (.inl (.ok reply)) e') :
    ∃ place, e₀.PutsFirst i.txn i.table i.row i.count place e' := by
  have hkeyed := h.toUnderway.keyed fun _ _ hq => hc.id_eq hq
  obtain ⟨e₁, q, q', ⟨page, slot⟩, c, hr, hi, rfl, hpage⟩ := hl.eq_stored hkeyed
  have hu := h.toUnderway.rereads hr.rereads
  obtain ⟨ha, hplace, -, hslot⟩ := Page.slot?_of_insert hi
  have hid : q.id = i.page := hr.keyed hkeyed hr.cached
  obtain rfl : page = i.page := hplace.trans hid
  have hvacancy : q.FirstVacancy slot :=
    (Page.firstVacancy_congr (p := q) (q := q.markDirty (some i.txn)) rfl rfl).1
      (Page.firstVacancy_of_insert hi).2
  obtain ⟨values, hrow, hreads⟩ := Page.row?_of_insert hi
  have hgrows := hu.grows_seen hc ht
  have hcached : e₁.seen i.page = some q.asStored := seen_of_cached hr.cached
  have hseen := seen_of_page? hpage
  have hupdate : q'.asStored.slot? =
      Function.update q.asStored.slot? slot (some i.row.encode) := hslot
  refine ⟨⟨i.page, slot⟩, ?_⟩
  exact
    { count := h.count
      table := rfl
      full := fun k hk => h.full k k.zero_le hk (Nat.lt_of_lt_of_le hk h.number_le)
      first := h.firstPlace hc ht hr hvacancy c
      shown := by
        refine ⟨q'.asStored, values, ?_, hrow, hreads⟩
        rw [hseen, Function.update_self]
      others := fun {other} hne => by
        rw [hseen, rowsOf_update hcached hupdate, Function.update_of_ne hne, hgrows.rowsOf_eq]
      pages := fun {page p} hne hp => by
        rw [hseen, Function.update_of_ne hne]
        exact hgrows.eq_some hp
      marked := ⟨q', (hpage _).trans (if_pos rfl), ha.dirtiedBy⟩
      stored := (hu.grows_stored hc ht).eq_some }

end SetOut

/-- So has every insertion that succeeds. -/
theorem Trip.putsFirst (h : i.Trip e (.inl (.ok reply)) e') (hg : i.grown = false)
    (hi : i.count = 0) (hc : e.Coherent) (ht : e.catalog.table i.table.id = .ok i.table) :
    ∃ n place, e.PutsFirst i.txn i.table i.row n place e' := by
  generalize hr : (Sum.inl (Except.ok reply) : Outcome ⊕ Call) = result at h
  cases h with
  | ended hb =>
    cases hr
    cases hb with
    | append _ _ ha => cases ha
  | way hb hw =>
    obtain ⟨k, e₂, ⟨hset, hf⟩, hstop⟩ := hw.stops
      (p := fun k e₂ => SetOut e k e₂ ∧ i.Follows k) (fun {k l e₂ e₃} ⟨hset, hf⟩ hl => by
        have htk : e.catalog.table k.table.id = .ok k.table := hf.table.symm ▸ ht
        exact ⟨hset.leg hc htk hl, hf.trans hl.follows⟩)
      ⟨.begins hg hi hb, hb.follows⟩
    cases hstop with
    | blocked => cases hr
    | ended hl =>
      cases hr
      obtain ⟨place, hput⟩ := hset.putsFirst hc (hf.table.symm ▸ ht) hl
      rw [hf.txn, hf.table, hf.row] at hput
      exact ⟨k.count, place, hput⟩

end Insertion

namespace Service

variable {s : Service} {txn : TxnId} {id : TableId} {row : Row} {reply : Reply}

/-- A request to insert a row that succeeds at once, in a run that starts with an empty pool, puts
the row at the first place of its table and does nothing else to any row. -/
theorem Runs.first_fit {backing : Backing} (hb : backing.WellFormed) {capacity : Nat}
    {choices : Nat → Nat} {before : List Action}
    (h : (start backing capacity choices).Runs PermitsWrites before)
    (hs : (start backing capacity choices).after before = s)
    (ha : s.Allows (.issue (.insert txn id row)))
    (ho : (s.perform (.issue (.insert txn id row))).1 = some (.ok reply)) :
    ∃ t n place, s.engine.catalog.table id = .ok t ∧ s.engine.PutsFirst txn t row n place
      (s.perform (.issue (.insert txn id row))).2.engine := by
  have hsound : s.Sound := hs ▸ (Sound.start hb capacity choices).after h
  have horderly : s.Orderly := hs ▸ (Orderly.start backing capacity choices).after h
  change (s.issue (.insert txn id row)).1 = some (.ok reply) at ho
  cases ht : s.engine.catalog.table id with
  | error err =>
    rw [issue_insert_of_error ht] at ho
    cases ho
  | ok t =>
    obtain ⟨result, htrip, hres, -⟩ := trip_issue horderly ha (start_insert ht)
    obtain rfl := Sum.getLeft?_eq_some_iff.1 (hres.symm.trans ho)
    have hid : t.id = id := (hsound.engine.table_id ht).1
    obtain ⟨n, place, hput⟩ := htrip.putsFirst rfl rfl hsound.engine.toCoherent (hid.symm ▸ ht)
    exact ⟨t, n, place, rfl, hput⟩

end Service

namespace Sample

/-- The service after a transaction has looked at the first page. The pool has room for one page. -/
def glanced : Service :=
  (Service.start crowded 1 id).after [.issue (.fetch 1 page .read false)]

theorem runs_glancing : (Service.start crowded 1 id).Runs Service.PermitsWrites
    [.issue (.fetch 1 page .read false)] :=
  ⟨.inl ⟨⟨trivial, of_decide_eq_true (by cbv)⟩, of_decide_eq_true (by cbv)⟩, trivial⟩

/-- The first two pages are full, and the third has an empty slot behind the first. -/
theorem first_fit_glanced : crowded.WellFormed ∧
    (Service.start crowded 1 id).Runs Service.PermitsWrites
      [.issue (.fetch 1 page .read false)] ∧
    glanced.Allows (.issue (.insert 1 table.id ⟨[.int 1], none⟩)) ∧
    (glanced.perform (.issue (.insert 1 table.id ⟨[.int 1], none⟩))).1 = some (.ok .done) ∧
    (∃ t n place, glanced.engine.catalog.table table.id = .ok t ∧
      glanced.engine.PutsFirst 1 t ⟨[.int 1], none⟩ n place
        (glanced.perform (.issue (.insert 1 table.id ⟨[.int 1], none⟩))).2.engine) ∧
    ((glanced.perform (.issue (.insert 1 table.id ⟨[.int 1], none⟩))).2.engine.cache.page?
      ⟨table.id, 2⟩).map (·.data) = some [3, 0, 0, 0, 9, 0, 0, 0, 1] := by
  have hallows : glanced.Allows (.issue (.insert 1 table.id ⟨[.int 1], none⟩)) :=
    of_decide_eq_true (p := ¬ glanced.HasBlocked 1) (by cbv)
  have hdone : (glanced.perform (.issue (.insert 1 table.id ⟨[.int 1], none⟩))).1 =
      some (.ok .done) := by cbv
  exact ⟨wellFormed_crowded, runs_glancing, hallows, hdone,
    Service.Runs.first_fit wellFormed_crowded runs_glancing rfl hallows hdone, by cbv⟩

end Sample

end RowStore
