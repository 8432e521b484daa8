import RowStore.Pool.Engine
import RowStore.Proofs.Page.Slots
import RowStore.Proofs.Page.Stored

/-!
# Two views of the tables

A page can be looked at in two ways. `Backing.stored` is the page as its table's file has it, and
`Engine.seen` the page as transactions see it: the cached copy if there is one, else the stored
page. Either view gives every slot of every page its bytes, which `rowsOf` reads off.

A table that grows adds a page without rows to both views. That is the only way in which pages come
up, so `Grows` compares two views up to such pages, and views that compare have the same rows.
-/

namespace RowStore

/-! ## Views -/

/-- What can be found at each place of the pages. -/
def rowsOf (view : PageId → Option Page) (place : RowId) : Option Bytes :=
  (view place.page).bind (·.slot? place.slot)

/-- The second view of a page is the first, or that of a page without rows where there was none. -/
def GrowsAt (f g : PageId → Option Page) (page : PageId) : Prop :=
  g page = f page ∨ f page = none ∧ ∃ schema size, g page = some (Page.empty page schema size)

/-- The second view has the pages of the first, and besides at most pages without rows. -/
def Grows (f g : PageId → Option Page) : Prop := ∀ page, GrowsAt f g page

variable {f g k : PageId → Option Page} {page : PageId}

theorem Grows.refl (f : PageId → Option Page) : Grows f f := fun _ => .inl rfl

theorem Grows.of_eq (h : g = f) : Grows f g := h ▸ .refl f

theorem GrowsAt.trans (h : GrowsAt f g page) (h' : GrowsAt g k page) : GrowsAt f k page := by
  rcases h' with hk | ⟨hg, hk⟩
  · rcases h with hg | ⟨hf, hg⟩
    · exact .inl (hk.trans hg)
    · exact .inr ⟨hf, hk ▸ hg⟩
  · rcases h with hf | ⟨hf, -⟩
    · exact .inr ⟨hf ▸ hg, hk⟩
    · exact .inr ⟨hf, hk⟩

theorem Grows.trans (h : Grows f g) (h' : Grows g k) : Grows f k := fun page =>
  (h page).trans (h' page)

theorem GrowsAt.eq_some (h : GrowsAt f g page) {p : Page} (hp : f page = some p) :
    g page = some p := by
  rcases h with hg | ⟨hf, -⟩
  · rw [hg, hp]
  · rw [hf] at hp
    cases hp

theorem Grows.eq_some (h : Grows f g) {p : Page} (hp : f page = some p) : g page = some p :=
  (h page).eq_some hp

theorem Page.slot?_empty (id : PageId) (schema : Schema) (size slot : Nat) :
    (Page.empty id schema size).slot? slot = none :=
  slot?_eq_none_of_zeros rfl

theorem Grows.rowsOf_eq (h : Grows f g) : rowsOf g = rowsOf f := by
  funext place
  rcases h place.page with hg | ⟨hf, schema, size, hg⟩
  · rw [rowsOf, rowsOf, hg]
  · rw [rowsOf, rowsOf, hf, hg]
    exact Page.slot?_empty ..

/-- Changing one slot of one page changes what can be found at one place. -/
theorem rowsOf_update {p q : Page} {slot : Nat} {content : Option Bytes} (hp : f page = some p)
    (hq : q.slot? = Function.update p.slot? slot content) :
    rowsOf (Function.update f page (some q)) = Function.update (rowsOf f) ⟨page, slot⟩ content := by
  funext ⟨pg, s⟩
  simp only [rowsOf, Function.update_apply, RowId.mk.injEq]
  by_cases hpg : pg = page
  · subst hpg
    by_cases hs : s = slot
    · simp [hq, hs]
    · simp [hq, hs, hp]
  · simp [hpg]

/-! ## Stored pages -/

namespace Page

/-- The page as it reads when its bytes are the stored ones. -/
def asStored (p : Page) : Page := ofBytes p.id p.schema p.data

theorem slot?_asStored (p : Page) : p.asStored.slot? = p.slot? := slot?_congr rfl rfl

end Page

namespace Backing

/-- The tables of the catalog have files of their own. -/
structure WellFormed (b : Backing) : Prop where
  /-- A table is found under its number, which is that of its file. -/
  table_id : ∀ {id t}, b.catalog.table id = .ok t → t.id = id ∧ id = b.host.tableId t.file
  /-- The file of a table exists, and its pages have bytes. -/
  file : ∀ {id t}, b.catalog.table id = .ok t →
    ∃ f, b.disk.file? t.file = some f ∧ f.name = t.file ∧ 0 < f.pageSize

/-- A page as its table's file has it, if the file has it. -/
def stored (b : Backing) (page : PageId) : Option Page :=
  (b.catalog.table page.table >>= fun t => b.disk.readPage t page).toOption

variable {b : Backing} {t : Table} {file : PageFile} {p q : Page} {disk : Disk}

namespace WellFormed

theorem stored_eq (h : b.WellFormed) (ht : b.catalog.table page.table = .ok t)
    (hf : b.disk.file? t.file = some file) :
    b.stored page = (file.page? page.number).map (Page.ofBytes page t.schema) := by
  have hid : page.table = t.id := (h.table_id ht).1.symm
  rw [stored, ht]
  simp only [bind, Except.bind, Disk.readPage, Disk.find, hf, hid, true_and, PageFile.page?]
  split
  · cases file.read page.number <;> rfl
  · rfl

theorem eq_of_stored (h : b.WellFormed) (hp : b.stored page = some p) :
    ∃ t file data, b.catalog.table page.table = .ok t ∧ b.disk.file? t.file = some file ∧
      file.page? page.number = some data ∧ p = Page.ofBytes page t.schema data := by
  cases ht : b.catalog.table page.table with
  | error err => simp [stored, ht, bind, Except.bind, Except.toOption] at hp
  | ok t =>
    obtain ⟨file, hf, -⟩ := h.file ht
    rw [h.stored_eq ht hf] at hp
    obtain ⟨data, hd, rfl⟩ := Option.map_eq_some_iff.1 hp
    exact ⟨t, file, data, rfl, hf, hd, rfl⟩

theorem asStored_eq (h : b.WellFormed) (hp : b.stored page = some p) : p.asStored = p := by
  obtain ⟨t, file, data, -, -, -, rfl⟩ := h.eq_of_stored hp
  rfl

theorem id_eq (h : b.WellFormed) (hp : b.stored page = some p) : p.id = page := by
  obtain ⟨t, file, data, -, -, -, rfl⟩ := h.eq_of_stored hp
  rfl

/-- Putting a file of a table back, with other pages, keeps the tables and their files apart. -/
theorem put (h : b.WellFormed) (hn : file.name = t.file) (hs : 0 < file.pageSize) :
    WellFormed { b with disk := b.disk.put file } where
  table_id h' := h.table_id h'
  file {id u} hu := by
    by_cases he : u.file = t.file
    · refine ⟨file, ?_, hn.trans he.symm, hs⟩
      rw [he, ← hn]
      exact Disk.file?_put_self b.disk file
    · obtain ⟨f, hf, hfn⟩ := h.file hu
      refine ⟨f, ?_, hfn⟩
      rw [← hf]
      exact Disk.file?_put_of_ne b.disk (hn ▸ he)

/-- A file that is put back only changes what is stored of its own table. -/
theorem stored_put (h : b.WellFormed) (ht : b.catalog.table t.id = .ok t)
    (hn : file.name = t.file) (hs : 0 < file.pageSize) (page : PageId) :
    Backing.stored { b with disk := b.disk.put file } page =
      if page.table = t.id then (file.page? page.number).map (Page.ofBytes page t.schema)
      else b.stored page := by
  split
  · next hp =>
    refine (h.put hn hs).stored_eq (t := t) (by rw [hp]; exact ht) ?_
    rw [← hn]
    exact Disk.file?_put_self b.disk file
  · next hp =>
    cases hu : b.catalog.table page.table with
    | error err => simp [stored, hu, bind, Except.bind]
    | ok u =>
      obtain ⟨f, hf, -⟩ := h.file hu
      have hne : u.file ≠ file.name := by
        intro he
        apply hp
        rw [(h.table_id hu).2, he, hn, (h.table_id ht).2]
      rw [h.stored_eq hu hf, (h.put hn hs).stored_eq hu]
      exact hf ▸ Disk.file?_put_of_ne b.disk hne

/-- A page that has a stored version can be written back, and this replaces that version only. -/
theorem writePage (h : b.WellFormed) (hp : b.stored page = some p) (hid : q.id = page)
    (hschema : q.schema = p.schema) (hsize : q.size = p.size) :
    ∃ t disk, b.catalog.table page.table = .ok t ∧ b.disk.writePage t q = .ok disk ∧
      WellFormed { b with disk } ∧
      Backing.stored { b with disk } = Function.update b.stored page (some q.asStored) := by
  obtain ⟨t, file, data, ht, hf, hd, rfl⟩ := h.eq_of_stored hp
  obtain ⟨f, hf', hn, hs⟩ := h.file ht
  obtain rfl : f = file := Option.some.inj (hf'.symm.trans hf)
  have htid := (h.table_id ht).1
  have ht' : b.catalog.table t.id = .ok t := htid.symm ▸ ht
  obtain ⟨f', hw, hn', hs', hp'⟩ := PageFile.write_of_page? hd hsize
  refine ⟨t, b.disk.put f', ht, ?_, h.put (hn'.trans hn) (hs' ▸ hs), ?_⟩
  · simp [Disk.writePage, Disk.find, hf, hid, hw, bind, Except.bind, Except.map]
  · funext pg
    rw [h.stored_put ht' (hn'.trans hn) (hs' ▸ hs), Function.update_apply, hp',
      Function.update_apply]
    by_cases hpg : pg = page
    · subst hpg
      rw [if_pos htid.symm, if_pos rfl, if_pos rfl]
      simp only [Option.map_some, Page.asStored, hid, hschema, Page.ofBytes]
    · rw [if_neg hpg]
      split
      · next htab =>
        have hnum : pg.number ≠ page.number := by
          intro hnum
          apply hpg
          cases pg
          cases page
          simp_all
        rw [if_neg hnum, h.stored_eq (htab.trans htid ▸ ht) hf]
      · rfl

/-- A table that grows has its old pages, and at most one new page without rows. -/
theorem grow (h : b.WellFormed) (ht : b.catalog.table t.id = .ok t) {number : Nat}
    (hg : b.disk.grow t = .ok (number, disk)) (hn : number + 1 < pageLimit) :
    WellFormed { b with disk } ∧ Grows b.stored (Backing.stored { b with disk }) := by
  obtain ⟨f, hf, hname, hs⟩ := h.file ht
  simp only [Disk.grow, Disk.find, hf, bind, Except.bind, pure, Except.pure] at hg
  cases hg
  have hz : (Bytes.zeros f.pageSize).length = f.pageSize := Bytes.length_zeros _
  have hname' : (f.append (Bytes.zeros f.pageSize)).2.name = t.file := hname
  refine ⟨h.put hname' hs, fun page => ?_⟩
  rw [GrowsAt, h.stored_put ht hname' hs]
  split
  · next hpt =>
    rw [h.stored_eq (hpt ▸ ht) hf]
    rcases PageFile.page?_append hs hz hn page.number with he | ⟨h₁, h₂⟩
    · exact .inl (by rw [he])
    · right
      refine ⟨by rw [h₁]; rfl, t.schema, f.pageSize, ?_⟩
      rw [h₂]
      rfl
  · exact .inl rfl

end WellFormed

end Backing

/-! ## Pages as transactions see them -/

/-- A page as transactions see it: the cached copy, or else what is stored. -/
def Engine.seen (e : Engine) (page : PageId) : Option Page :=
  ((e.cache.page? page).map Page.asStored).or (e.stored page)

namespace Engine

variable {e : Engine} {p q : Page}

theorem seen_of_cached (h : e.cache.page? page = some q) : e.seen page = some q.asStored := by
  simp [seen, h]

theorem seen_of_not_cached (h : e.cache.page? page = none) : e.seen page = e.stored page := by
  simp [seen, h]

end Engine

end RowStore
