import RowStore.Proofs.Call.Passage
import RowStore.Proofs.Page.Extent

/-!
# What can stop an insertion

An insertion goes on to another page as long as pages are full, and in the end has its table grow,
so it should find room for its row whatever the pages hold. `Engine.Obstructs` lists all that can
stop it nevertheless, as long as the files do not fail: it is refused a lock, the pool has no room
for another page, a cached page has rows of other types, or the page that was appended for the row
is full by the time that the insertion gets to it.

The list is complete because every page that the insertion gets to can be read. For a page counted
at the start this is so because files only get longer, and for an appended page because it has a
number. `Insertion.Placed` says this of the page in question, and outlasts whatever others do while
the insertion waits.

The insertion remembers the file of its table, and the catalog finds one by the table's number. That
these are the same takes numbers that are distinct for distinct files, which is `Backing.Distinct`.
-/

namespace RowStore

open Engine

/-- Distinct files have distinct numbers. -/
def Backing.Distinct (b : Backing) : Prop := ∀ ⦃name other f g⦄, b.disk.file? name = some f →
  b.disk.file? other = some g → b.host.tableId name = b.host.tableId other → name = other

/-- A machine that numbers tables by the names of their files keeps them apart. -/
theorem Backing.distinct_of_plain {b : Backing} (h : b.host = .plain) : b.Distinct := by
  intro name other f g _ _ he
  rw [h] at he
  exact TableId.eq_of_ofFile_eq he

namespace Engine

/-- What can stop an insertion of the row into the table, and the error with which it ends, if the
transaction has been waiting for a page that has been appended for the row, or has not. -/
inductive Obstructs (txn : TxnId) (t : Table) (row : Row) (awaited : Option PageId)
    (e e' : Engine) : Error → Prop
  /-- A lock is refused. -/
  | deadlock {page : PageId} (hp : page.table = t.id) :
    Obstructs txn t row awaited e e' (.deadlock txn page .exclusive)
  /-- No page can make way for one that is not cached. -/
  | crowded (n : Nat) : Obstructs txn t row awaited e e' (.allPagesDirty n)
  /-- A page was cached with rows of other types. -/
  | foreign {page : PageId} {q : Page} (hp : page.table = t.id)
    (hq : e.cache.page? page = some q) (ht : q.schema.types ≠ row.types) :
    Obstructs txn t row awaited e e' .schemaMismatch
  /-- The page that has been appended is full, because the insertion had to wait for it, or because
  the pool had a page of this number already. -/
  | taken {page : PageId} {q : Page} (hp : page.table = t.id)
    (hq : e'.cache.page? page = some q) (hf : q.Full)
    (hw : awaited = some page ∨ e.cache.page? page = some q ∧ e.stored page = none) :
    Obstructs txn t row awaited e e' (.pageFull page)

end Engine

namespace Insertion

variable {e e' e₀ e₁ : Engine} {i i₀ j : Insertion} {q : Page} {o : Outcome} {err : Error}
  {b b' : Backing} {t : Table} {f : PageFile} {result : Outcome ⊕ Call}

/-! ## Pages that can be read -/

/-- The page that the insertion is about to try is one of the file of its table, and so are those
that it has counted, unless it has appended one. -/
structure Placed (b : Backing) (i : Insertion) : Prop where
  /-- The table has the number of its file. -/
  id : i.table.id = b.host.tableId i.table.file
  /-- The file has the pages. -/
  file : ∃ f, b.disk.file? i.table.file = some f ∧
    (i.grown = false → i.number < i.count ∧ i.count ≤ f.pageCount) ∧
      (i.grown = true → i.number < f.pageCount)

/-- The page that the insertion has appended for its row, and has to wait for. -/
def awaited (i : Insertion) : Option PageId := if i.grown then some i.page else none

namespace Placed

/-- The catalog has the file, as one of a table with rows of these types or of others. -/
theorem file_eq (h : Placed b i) (hw : b.WellFormed) (hd : b.Distinct)
    (ht : b.catalog.table i.table.id = .ok t) : t.file = i.table.file := by
  obtain ⟨f, hf, -⟩ := h.file
  obtain ⟨g, hg, -⟩ := hw.file ht
  exact hd hg hf ((hw.table_id ht).2.symm.trans h.id)

theorem number_lt (h : Placed b i) :
    ∃ f, b.disk.file? i.table.file = some f ∧ i.number < f.pageCount := by
  obtain ⟨f, hf, hcounted, happended⟩ := h.file
  refine ⟨f, hf, ?_⟩
  cases hg : i.grown with
  | false =>
    obtain ⟨hlt, hle⟩ := hcounted hg
    exact Nat.lt_of_lt_of_le hlt hle
  | true => exact happended hg

/-- Files that get longer have the page as before. -/
theorem of_extends (h : Placed b i) (hh : b'.host = b.host) (he : b.disk.Extends b'.disk)
    (hc : b'.disk.Countable) : Placed b' i := by
  obtain ⟨f, hf, hcounted, happended⟩ := h.file
  obtain ⟨f', hf', hext⟩ := he hf
  have hle := (hc hf').pageCount_le hext
  refine ⟨hh ▸ h.id, f', hf', fun hg => ?_, fun hg => Nat.lt_of_lt_of_le (happended hg) hle⟩
  obtain ⟨hlt, hn⟩ := hcounted hg
  exact ⟨hlt, Nat.le_trans hn hle⟩

/-- The page can be read. -/
theorem load (h : Placed e.toBacking i) (hw : e.toBacking.WellFormed) (hd : e.toBacking.Distinct)
    (hc : e.disk.Countable) (ht : e.catalog.table i.table.id = .ok t) :
    ∃ p, e.load i.page = .ok p := by
  have hid := (hw.table_id ht).1
  have hname := h.file_eq hw hd ht
  obtain ⟨f, hf, hlt⟩ := h.number_lt
  obtain ⟨data, hdata⟩ := (hc hf).read hlt
  refine ⟨.ofBytes i.page t.schema data, ?_⟩
  have hfind : e.disk.find t.file = .ok f := Disk.find_eq_ok.2 (hname ▸ hf)
  have hpage : i.page.table = t.id ∧ i.page.number < f.pageCount := ⟨hid.symm, hlt⟩
  change (e.catalog.table i.table.id >>= fun t => e.disk.readPage t i.page) = _
  simp only [ht, Disk.readPage, hfind, bind, Except.bind, if_pos hpage]
  change (f.read i.number).map _ = _
  rw [hdata]
  rfl

end Placed

/-! ## Growing -/

/-- A page that has been appended is one of the file. -/
theorem placed_of_appends (hid : i.table.id = e.host.tableId i.table.file) (hn : e.disk.Named)
    (hc : e.disk.Countable) (ha : i.Appends e (.inr j) e') : Placed e'.toBacking j := by
  cases ha with
  | grown hgrow hlimit =>
    obtain ⟨f, hf, rfl, hf'⟩ := hn.file?_of_grow hgrow
    have hcount := (hc hf).pageCount_append (Bytes.length_zeros f.pageSize) hlimit
    exact ⟨hid, _, hf', nofun, fun _ => hcount ▸ Nat.lt_succ_self _⟩

/-- A table whose file is there can grow, unless this leaves the file with pages that have no
numbers. -/
theorem not_appends_of_countable (hf : e.disk.file? i.table.file = some f)
    (hc : e'.disk.Countable) : ¬ i.Appends e (.inl o) e' := by
  intro ha
  cases ha with
  | stuck hg =>
    rcases bind_eq_error.1 hg with hg | ⟨_, _, hg⟩
    · cases hg.symm.trans (Disk.find_eq_ok.2 hf)
    · cases hg
  | overflown hg hlimit =>
    obtain ⟨g, hg', hg⟩ := bind_eq_ok.1 hg
    obtain rfl : f = g := Option.some.inj (hf.symm.trans (Disk.find_eq_ok.1 hg'))
    cases hg
    have hput := Disk.file?_put_self e.disk (f.append (Bytes.zeros f.pageSize)).2
    have hlt := (hc hput).lt_of_append (Bytes.length_zeros f.pageSize)
    exact Nat.not_le.2 hlt hlimit

/-! ## Legs -/

/-- An insertion that goes on from the engine `e₀`, with pages to try that can be read. -/
structure Seeks (e₀ : Engine) (i₀ i : Insertion) (e : Engine) : Prop
    extends Underway e₀ i e where
  /-- The page in question can be read. -/
  placed : Placed e.toBacking i
  /-- It is the same insertion. -/
  follows : i₀.Follows i
  /-- If it has appended a page, then this is so from the start, or its table has grown by it. -/
  since : i.grown = true → i₀.grown = true ∧ i.page = i₀.page ∨
    e₀.disk.grow i.table = .ok (i.number, e.disk) ∧ i.number + 1 < pageLimit

namespace Seeks

theorem refl (h : Placed e.toBacking i) : Seeks e i i e :=
  ⟨.refl e i, h, .refl i, fun hg => .inl ⟨hg, rfl⟩⟩

/-- An insertion into a table of the catalog starts with a page that can be read. -/
theorem begins (hw : e.toBacking.Roomy) (hc : e.disk.Countable)
    (ht : e.catalog.table i.table.id = .ok i.table) (hg : i.grown = false)
    (h : i.Begins e (.inr j) e') : Seeks e i j e' := by
  have hid : i.table.id = e.host.tableId i.table.file := (hw.table_id ht).2
  refine ⟨.begins hg h, ?_, h.follows, fun hj => ?_⟩
  · cases h with
    | first _ hcount hn =>
      obtain ⟨f, hf, -⟩ := hw.file ht
      have hpages := Except.ok.inj ((Disk.pageCount_eq hf).symm.trans hcount)
      exact ⟨hid, f, hf, fun _ => ⟨hn, Nat.le_of_eq hpages.symm⟩, nofun⟩
    | append _ _ ha => exact placed_of_appends hid hw.named hc ha
  · cases h with
    | first => cases hj
    | append _ _ ha => exact .inr ((Underway.refl e i).grow_of_appends hg ha)

/-- Every leg that does not end the insertion takes it to a page that can be read. -/
theorem leg (h : Seeks e₀ i₀ i e) (hw : e₀.toBacking.Roomy) (hc : e₀.disk.Countable)
    (hl : i.Leg e (.inr j) e') : Seeks e₀ i₀ j e' := by
  refine ⟨h.toUnderway.leg hl, ?_, h.follows.trans hl.follows, fun hj => ?_⟩
  · cases hl with
    | next hr _ hg hn =>
      obtain ⟨f, hf, hcounted, -⟩ := h.placed.file
      have hback := hr.rereads_leave.toBacking
      exact ⟨hback ▸ h.placed.id, f, hback ▸ hf, fun _ => ⟨hn, (hcounted hg).2⟩, nofun⟩
    | append hr _ hg _ ha =>
      have hleft := h.rereads hr.rereads_leave
      have hdisk := hleft.disk_eq hg
      have hid : i.table.id = (i.leave _).host.tableId i.table.file :=
        hr.rereads_leave.toBacking ▸ h.placed.id
      exact placed_of_appends hid (hdisk ▸ hw.named) (hdisk ▸ hc) ha
  · cases hl with
    | next => cases hj
    | append hr _ hg _ ha =>
      exact .inr ((h.rereads hr.rereads_leave).grow_of_appends hg ha)

/-- The tables have their files as before. -/
theorem roomy (h : Seeks e₀ i₀ i e) (hw : e₀.toBacking.Roomy) : e.toBacking.Roomy := by
  rcases h.disk with hd | ⟨-, hg, -⟩
  · exact hw.of_extends h.catalog h.host (hd ▸ hw.named) (hd ▸ .refl e₀.disk)
  · obtain ⟨hn, he⟩ := hw.named.grow hg
    exact hw.of_extends h.catalog h.host hn he

/-- The catalog has the file of the table. -/
theorem file_eq (h : Seeks e₀ i₀ i e) (hw : e₀.toBacking.Roomy) (hd : e.toBacking.Distinct)
    (ht : e₀.catalog.table i.table.id = .ok t) : t.file = i.table.file :=
  h.placed.file_eq (h.roomy hw).toWellFormed hd (by rwa [h.catalog])

/-- A page that has just been appended, and has been read from the file, is not full. -/
theorem not_full_of_grow (h : Seeks e₀ i₀ i e) (hw : e₀.toBacking.Roomy)
    (hd : e.toBacking.Distinct) (ht : e₀.catalog.table i.table.id = .ok t)
    (hgrow : e₀.disk.grow i.table = .ok (i.number, e.disk)) (hn : i.number + 1 < pageLimit)
    (hp : e.load i.page = .ok q) : ¬ q.Full := by
  obtain ⟨u, g, data, hu, hg, hdata, rfl⟩ := load_eq_ok hp
  rw [h.catalog] at hu
  obtain rfl : u = t := Except.ok.inj (hu.symm.trans ht)
  rw [h.file_eq hw hd ht] at hg
  obtain ⟨f, hf, hnumber, hf'⟩ := hw.named.file?_of_grow hgrow
  rw [← h.file_eq hw hd ht] at hf
  obtain rfl := Option.some.inj (hg.symm.trans hf')
  obtain ⟨g, hg', hlt⟩ := h.placed.number_lt
  obtain rfl := Option.some.inj (hg.symm.trans hg')
  obtain ⟨f', hf', -, hs⟩ := hw.file ht
  obtain rfl : f' = f := Option.some.inj (hf'.symm.trans hf)
  have hpage : (f'.append (Bytes.zeros f'.pageSize)).2.page? f'.pageCount = some data := by
    rw [← hnumber, PageFile.page?, if_pos hlt]
    exact congrArg Except.toOption hdata
  have hz := Bytes.length_zeros f'.pageSize
  obtain rfl := PageFile.eq_of_page?_append hs hz (hnumber ▸ hn) hpage
  refine (Page.firstVacancy_of_zeros rfl ?_).not_full
  change 0 < Layout.slots (Bytes.zeros f'.pageSize).length u.schema.rowSize
  rw [hz]
  exact hw.room ht hf

/-- So an appended page that turns out to be full has been cached before, although it was not
there. -/
theorem cached_of_full (h : Seeks e₀ i₀ i e) (hw : e₀.toBacking.Roomy)
    (hd : e.toBacking.Distinct) (ht : e₀.catalog.table i.table.id = .ok t)
    (hgrow : e₀.disk.grow i.table = .ok (i.number, e.disk)) (hn : i.number + 1 < pageLimit)
    (hr : i.Reads e e₁ q) (hf : q.Full) :
    e₀.cache.page? i.page = some q ∧ e₀.stored i.page = none := by
  have hcount : e₀.disk.pageCount t = .ok i.number := by
    rw [Disk.pageCount, h.file_eq hw hd ht]
    exact Disk.pageCount_of_grow hgrow
  have hnone : e₀.stored i.page = none := by
    rw [Option.eq_none_iff_forall_ne_some]
    intro p hp
    exact Nat.lt_irrefl _ (hw.toWellFormed.number_lt ht hp hcount)
  rcases (h.toUnderway.rereads hr.rereads).cached hr.cached with hq | hp | hp
  · exact ⟨hq, hnone⟩
  · cases hnone.symm.trans (stored_of_load hp)
  · rw [load_congr hr.rereads.toBacking] at hp
    exact absurd hf (h.not_full_of_grow hw hd ht hgrow hn hp)

/-- What ends the insertion without success is one of the obstructions. -/
theorem obstructs (h : Seeks e₀ i₀ i e) (hk : e₀.Keyed) (hw : e₀.toBacking.Roomy)
    (ht : e₀.catalog.table i.table.id = .ok t) (htypes : i.row.types = t.schema.types)
    (hl : i.Leg e (.inl (.error err)) e') (hd : e'.toBacking.Distinct) (hc : e'.disk.Countable) :
    e₀.Obstructs i.txn t i.row i₀.awaited e' err := by
  have hid : i.page.table = t.id := (hw.table_id ht).1.symm
  have ht' : e.catalog.table i.table.id = .ok t := by
    rw [h.catalog]
    exact ht
  generalize hx : (Sum.inl (Except.error err) : Outcome ⊕ Insertion) = x at hl
  cases hl with
  | deadlock hj =>
    cases hx
    exact .deadlock hid
  | unread hj hun =>
    cases hx
    obtain ⟨p, hp⟩ := h.placed.load (h.roomy hw).toWellFormed hd hc ht'
    rcases hun.reason with hbad | ⟨-, n, rfl⟩
    · cases hbad.symm.trans hp
    · exact .crowded n
  | refused hr hne =>
    cases hx
    -- A page read meanwhile has rows of the types that the catalog says, so it was cached before.
    rcases (h.toUnderway.rereads hr.rereads).cached hr.cached with hq | hp | hp
    · exact .foreign hid hq fun hsame => hne hsame.symm
    · exact absurd (htypes.trans (congrArg Schema.types (schema_of_load ht hp).symm)) hne
    · rw [load_congr hr.rereads.toBacking] at hp
      exact absurd (htypes.trans (congrArg Schema.types (schema_of_load ht' hp).symm)) hne
  | stored hr hi =>
    have hkeyed := hr.keyed (h.toUnderway.keyed hk)
    obtain ⟨reply, c, hc, -⟩ := conclude_recopy hr.cached (hkeyed hr.cached)
      (Page.slot?_of_insert hi).1 hr.exclusive i.install
    rw [hc] at hx
    cases hx
  | full hr hf hg =>
    cases hx
    rcases h.since hg with ⟨hg₀, hpage⟩ | ⟨hgrow, hn⟩
    · refine .taken hid hr.cached hf (.inl ?_)
      rw [awaited, if_pos hg₀, hpage]
    · have hread : e.toBacking.Distinct := hr.rereads.toBacking ▸ hd
      exact .taken hid hr.cached hf (.inr (h.cached_of_full hw hread ht hgrow hn hr hf))
  | next => cases hx
  | append hr _ hg _ ha =>
    subst hx
    obtain ⟨f, hf, -⟩ := h.placed.number_lt
    exact absurd ha (not_appends_of_countable (hr.rereads_leave.disk ▸ hf) hc)

end Seeks

/-! ## Along the way -/

theorem Way.stops_seeking (hw : i.Way e result e') (h : Seeks e₀ i₀ i e)
    (hr : e₀.toBacking.Roomy) (hc : e₀.disk.Countable) :
    ∃ j e₁, Seeks e₀ i₀ j e₁ ∧ j.Stops e₁ result e' :=
  hw.stops (p := Seeks e₀ i₀) (fun h hl => h.leg hr hc hl) h

/-- What stops an insertion that goes on is one of the obstructions. -/
theorem Way.obstructs (hw : i.Way e (.inl (.error err)) e') (h : Seeks e₀ i₀ i e)
    (hk : e₀.Keyed) (hr : e₀.toBacking.Roomy) (hc : e₀.disk.Countable)
    (ht : e₀.catalog.table i₀.table.id = .ok t) (htypes : i₀.row.types = t.schema.types)
    (hd : e'.toBacking.Distinct) (hc' : e'.disk.Countable) :
    e₀.Obstructs i₀.txn t i₀.row i₀.awaited e' err := by
  generalize hx : (Sum.inl (Except.error err) : Outcome ⊕ Call) = result at hw
  obtain ⟨j, e₁, hj, hstop⟩ := hw.stops_seeking h hr hc
  cases hstop with
  | blocked => cases hx
  | ended hl =>
    cases hx
    have hf := hj.follows
    rw [← hf.table] at ht
    rw [← hf.row] at htypes
    have ho := hj.obstructs hk hr ht htypes hl hd hc'
    rwa [hf.txn, hf.row] at ho

/-- An insertion that has to wait does so for a page that can be read. -/
theorem Way.placed {c : Call} (hw : i.Way e (.inr c) e') (h : Seeks e₀ i₀ i e)
    (hr : e₀.toBacking.Roomy) (hc : e₀.disk.Countable) :
    ∃ j, c = .insert j ∧ i₀.Follows j ∧ Placed e'.toBacking j := by
  generalize hx : (Sum.inr c : Outcome ⊕ Call) = result at hw
  obtain ⟨j, e₁, hj, hstop⟩ := hw.stops_seeking h hr hc
  cases hstop with
  | ended => cases hx
  | blocked =>
    cases hx
    exact ⟨j, rfl, hj.follows, hj.placed⟩

/-- What stops an insertion before it has to wait is one of the obstructions. -/
theorem Trip.obstructs (h : i.Trip e (.inl (.error err)) e') (hg : i.grown = false)
    (hk : e.Keyed) (hr : e.toBacking.Roomy) (hc : e.disk.Countable)
    (ht : e.catalog.table i.table.id = .ok i.table) (htypes : i.row.types = i.table.schema.types)
    (hd : e'.toBacking.Distinct) (hc' : e'.disk.Countable) :
    e.Obstructs i.txn i.table i.row none e' err := by
  have hawaited : i.awaited = none := by
    rw [awaited, if_neg (Bool.eq_false_iff.1 hg)]
  cases h with
  | ended hb =>
    obtain ⟨f, hf, -⟩ := hr.file ht
    cases hb with
    | mismatch hne => exact absurd htypes hne
    | uncounted _ hcount => cases (Disk.pageCount_eq hf).symm.trans hcount
    | append _ _ ha => exact absurd ha (not_appends_of_countable hf hc')
  | way hb hw =>
    have ho := hw.obstructs (.begins hr hc ht hg hb) hk hr hc ht htypes hd hc'
    rwa [hawaited] at ho

/-- An insertion that has to wait for the first time does so for a page that can be read. -/
theorem Trip.placed {c : Call} (h : i.Trip e (.inr c) e') (hg : i.grown = false)
    (hr : e.toBacking.Roomy) (hc : e.disk.Countable)
    (ht : e.catalog.table i.table.id = .ok i.table) :
    ∃ j, c = .insert j ∧ i.Follows j ∧ Placed e'.toBacking j := by
  cases h with
  | way hb hw => exact hw.placed (.begins hr hc ht hg hb) hr hc

end Insertion

end RowStore
