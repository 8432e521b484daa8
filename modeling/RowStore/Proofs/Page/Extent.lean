import RowStore.Proofs.Page.Window

/-!
# How far files reach

A table can be read and can grow as long as all the pages of its file have numbers and all its bytes
have positions, which is `PageFile.Countable`. Files only ever get longer: a page that is written
back replaces one, or comes up behind the end, and so does a page that is appended. So what a file
has it keeps, which `Disk.Extends` says for all files at once.
-/

namespace RowStore

namespace PageFile

variable {f f' f'' : PageFile} {n : Nat} {data : Bytes}

/-- All whole pages of the file have numbers, and all its bytes have positions. -/
structure Countable (f : PageFile) : Prop where
  /-- Its pages have bytes. -/
  pageSize_pos : 0 < f.pageSize
  /-- Its pages have numbers. -/
  pages : f.length / f.pageSize < pageLimit
  /-- Its bytes have positions. -/
  bytes : f.length < sizeLimit

/-- The second file is the first, and perhaps longer. -/
structure Extends (f f' : PageFile) : Prop where
  /-- They have one name. -/
  name : f'.name = f.name
  /-- They have pages of one size. -/
  pageSize : f'.pageSize = f.pageSize
  /-- The second is at least as long. -/
  length_le : f.length ≤ f'.length

theorem Extends.refl (f : PageFile) : f.Extends f := ⟨rfl, rfl, Nat.le_refl _⟩

theorem Extends.trans (h : f.Extends f') (h' : f'.Extends f'') : f.Extends f'' :=
  ⟨h'.name.trans h.name, h'.pageSize.trans h.pageSize, Nat.le_trans h.length_le h'.length_le⟩

theorem extends_overwrite (f : PageFile) (start : Nat) (data : Bytes) :
    f.Extends (f.overwrite start data) := by
  refine ⟨rfl, rfl, ?_⟩
  rw [length_overwrite]
  exact Nat.le_max_left ..

theorem extends_write (h : f.write n data = .ok f') : f.Extends f' := by
  obtain ⟨-, -, rfl⟩ := write_eq_ok.1 h
  have ho := f.extends_overwrite (n * f.pageSize) data
  exact ⟨ho.name, ho.pageSize, ho.length_le⟩

theorem extends_append (f : PageFile) (data : Bytes) : f.Extends (f.append data).2 :=
  f.extends_overwrite _ data

/-- A file that is appended to reaches to the end of the new page. -/
theorem length_append (hd : data.length = f.pageSize) :
    (f.append data).2.length = max f.length ((f.pageCount + 1) * f.pageSize) := by
  rw [append, length_overwrite, hd, Nat.succ_mul]

/-- The appended page reads as it was appended. -/
theorem eq_of_page?_append {b : Bytes} (hs : 0 < f.pageSize) (hd : data.length = f.pageSize)
    (hn : f.pageCount + 1 < pageLimit) (h : (f.append data).2.page? f.pageCount = some b) :
    b = data := by
  rcases page?_append hs hd hn f.pageCount with hold | ⟨-, hnew⟩
  · rw [hold, page?, if_neg (Nat.lt_irrefl _)] at h
    cases h
  · exact Option.some.inj (h.symm.trans hnew)

namespace Countable

theorem pageCount_eq (h : f.Countable) : f.pageCount = f.length / f.pageSize :=
  Nat.mod_eq_of_lt h.pages

/-- What follows the last whole page is less than a page. -/
theorem length_lt (h : f.Countable) : f.length < (f.pageCount + 1) * f.pageSize := by
  rw [← Nat.div_lt_iff_lt_mul h.pageSize_pos, ← h.pageCount_eq]
  exact Nat.lt_succ_self _

/-- A file that can be counted could be when it was shorter. -/
theorem of_extends (h : f'.Countable) (he : f.Extends f') : f.Countable where
  pageSize_pos := he.pageSize ▸ h.pageSize_pos
  pages := by
    refine Nat.lt_of_le_of_lt ?_ h.pages
    rw [he.pageSize]
    exact Nat.div_le_div_right he.length_le
  bytes := Nat.lt_of_le_of_lt he.length_le h.bytes

/-- Every page that is counted can be read. -/
theorem read (h : f.Countable) (hn : n < f.pageCount) : ∃ data, f.read n = .ok data := by
  have hstop := stop_le_length hn
  have hp : f.page? n = some (Bytes.slice (n * f.pageSize) f.pageSize f.bytes) :=
    page?_eq_some_iff.2 ⟨hn, Nat.lt_of_le_of_lt hstop h.bytes, rfl⟩
  rw [page?, if_pos hn] at hp
  cases hr : f.read n with
  | error err =>
    rw [hr] at hp
    cases hp
  | ok data => exact ⟨data, rfl⟩

/-- A file that gets longer, and still can be counted, has no fewer pages. -/
theorem pageCount_le (h : f'.Countable) (he : f.Extends f') : f.pageCount ≤ f'.pageCount := by
  rw [h.pageCount_eq, he.pageSize]
  exact Nat.le_trans (Nat.mod_le ..) (Nat.div_le_div_right he.length_le)

/-- A file that is appended to has one page more. -/
theorem pageCount_append (h : f.Countable) (hd : data.length = f.pageSize)
    (hn : f.pageCount + 1 < pageLimit) : (f.append data).2.pageCount = f.pageCount + 1 := by
  have hcount : (f.append data).2.pageCount =
      (f.append data).2.length / f.pageSize % pageLimit := rfl
  rw [hcount, length_append hd, Nat.max_eq_right (Nat.le_of_lt h.length_lt),
    Nat.mul_div_cancel _ h.pageSize_pos]
  exact Nat.mod_eq_of_lt hn

/-- If a file can still be counted after it has been appended to, then there was a number for the
page after the new one. -/
theorem lt_of_append (h : (f.append data).2.Countable) (hd : data.length = f.pageSize) :
    f.pageCount + 1 < pageLimit := by
  refine Nat.lt_of_le_of_lt ?_ h.pages
  rw [Nat.le_div_iff_mul_le h.pageSize_pos, length_append hd]
  exact Nat.le_max_right ..

end Countable

end PageFile

namespace Disk

variable {d d' d'' : Disk} {t : Table} {f f' : PageFile} {p : Page} {number : Nat}

/-- All files can be counted. -/
def Countable (d : Disk) : Prop := ∀ ⦃name f⦄, d.file? name = some f → f.Countable

/-- A file is found under its own name. -/
def Named (d : Disk) : Prop := ∀ ⦃name f⦄, d.file? name = some f → f.name = name

/-- The second disk has the files of the first, and some of them may be longer. -/
def Extends (d d' : Disk) : Prop :=
  ∀ ⦃name f⦄, d.file? name = some f → ∃ f', d'.file? name = some f' ∧ f.Extends f'

/-- Whether all files can be counted is known from the sizes. -/
theorem countable_of_sizes (sizes : List (Nat × Nat))
    (h : d.files.map (fun x => (x.2.pageSize, x.2.length)) = sizes)
    (hs : ∀ x ∈ sizes, 0 < x.1 ∧ x.2 / x.1 < pageLimit ∧ x.2 < sizeLimit) : d.Countable := by
  intro name f hf
  obtain ⟨before, after, hd, -⟩ := List.lookup_eq_some_iff.1 hf
  have hmem : (f.pageSize, f.length) ∈ sizes := by
    rw [← h, hd, List.map_append]
    exact List.mem_append_right _ (List.mem_cons_self ..)
  obtain ⟨hpos, hpages, hbytes⟩ := hs _ hmem
  exact ⟨hpos, hpages, hbytes⟩

theorem Countable.put (h : d.Countable) (hf : f.Countable) : (d.put f).Countable := by
  intro name g hg
  by_cases hn : name = f.name
  · subst hn
    rw [file?_put_self] at hg
    exact Option.some.inj hg ▸ hf
  · exact h ((file?_put_of_ne d hn).symm.trans hg)

theorem Extends.refl (d : Disk) : d.Extends d := fun _ f hf => ⟨f, hf, .refl f⟩

theorem Extends.trans (h : d.Extends d') (h' : d'.Extends d'') : d.Extends d'' := by
  intro name f hf
  obtain ⟨f', hf', he⟩ := h hf
  obtain ⟨f'', hf'', he'⟩ := h' hf'
  exact ⟨f'', hf'', he.trans he'⟩

theorem Named.put (h : d.Named) (f : PageFile) : (d.put f).Named := by
  intro name g hg
  by_cases hn : name = f.name
  · subst hn
    rw [file?_put_self] at hg
    exact congrArg PageFile.name (Option.some.inj hg).symm
  · exact h ((file?_put_of_ne d hn).symm.trans hg)

/-- Files that can be counted could be when they were shorter. -/
theorem Countable.of_extends (h : d'.Countable) (he : d.Extends d') : d.Countable := by
  intro name f hf
  obtain ⟨f', hf', hext⟩ := he hf
  exact (h hf').of_extends hext

/-- A file that is put back, and perhaps longer, extends the disk. -/
theorem Named.extends_put (h : d.Named) {name : String} (hf : d.file? name = some f)
    (he : f.Extends f') : d.Extends (d.put f') := by
  intro other g hg
  have hname : f'.name = name := he.name.trans (h hf)
  by_cases hn : other = name
  · subst hn
    obtain rfl : f = g := Option.some.inj (hf.symm.trans hg)
    exact ⟨f', hname ▸ file?_put_self d f', he⟩
  · exact ⟨g, (file?_put_of_ne d (hname ▸ hn)).trans hg, .refl g⟩

/-- A file that is opened for pages of the size that it has got, or made, extends the disk. -/
theorem Named.reopen (h : d.Named) (hc : d.Countable) {name : String} {size : Nat}
    (hsize : ∀ f, d.file? name = some f → f.pageSize = size) (hs : 0 < size) :
    d.Extends (d.put ⟨name, size, ((d.file? name).map (·.content)).getD [], 0⟩) ∧
      (d.put ⟨name, size, ((d.file? name).map (·.content)).getD [], 0⟩).Countable := by
  cases hf : d.file? name with
  | none =>
    refine ⟨fun other g hg => ⟨g, ?_, .refl g⟩, hc.put ⟨hs, ?_, ?_⟩⟩
    · refine (file?_put_of_ne d ?_).trans hg
      rintro rfl
      cases hf.symm.trans hg
    · change 0 / size < pageLimit
      rw [Nat.zero_div]
      decide
    · change 0 < sizeLimit
      decide
  | some f =>
    obtain rfl := hsize f hf
    exact ⟨h.extends_put hf ⟨(h hf).symm, rfl, Nat.le_refl _⟩,
      hc.put ⟨hs, (hc hf).pages, (hc hf).bytes⟩⟩

/-- A table that has grown has its file with a page appended. -/
theorem Named.file?_of_grow (h : d.Named) (hg : d.grow t = .ok (number, d')) :
    ∃ f, d.file? t.file = some f ∧ number = f.pageCount ∧
      d'.file? t.file = some (f.append (Bytes.zeros f.pageSize)).2 := by
  obtain ⟨f, hf, hg⟩ := bind_eq_ok.1 hg
  have hf := find_eq_ok.1 hf
  cases hg
  have hname : f.name = t.file := h hf
  exact ⟨f, hf, rfl, hname ▸ file?_put_self d (f.append (Bytes.zeros f.pageSize)).2⟩

/-- Growing a table extends the disk. -/
theorem Named.grow (h : d.Named) (hg : d.grow t = .ok (number, d')) :
    d'.Named ∧ d.Extends d' := by
  obtain ⟨f, hf, hg⟩ := bind_eq_ok.1 hg
  cases hg
  exact ⟨h.put _, h.extends_put (find_eq_ok.1 hf) (f.extends_append _)⟩

/-- Writing a page back extends the disk. -/
theorem Named.writePage (h : d.Named) (hw : d.writePage t p = .ok d') :
    d'.Named ∧ d.Extends d' := by
  obtain ⟨f, hf, hw⟩ := bind_eq_ok.1 hw
  obtain ⟨f', hwrite, rfl⟩ := map_eq_ok.1 hw
  exact ⟨h.put f', h.extends_put (find_eq_ok.1 hf) (PageFile.extends_write hwrite)⟩

end Disk

namespace Backing

variable {b b' : Backing}

/-- The tables of the catalog have files of their own, the pages of which have room for a row. -/
structure Roomy (b : Backing) : Prop extends b.WellFormed where
  /-- A file is found under its own name. -/
  named : b.disk.Named
  /-- A page of a table has a slot. -/
  room : ∀ {id t f}, b.catalog.table id = .ok t → b.disk.file? t.file = some f →
    0 < Layout.slots f.pageSize t.schema.rowSize

theorem roomy_empty (journal : Journal) (host : Host) :
    Roomy ⟨.empty, .empty, journal, host⟩ where
  toWellFormed := wellFormed_empty journal host
  named _ _ h := nomatch h
  room h := nomatch h

/-- A table that is added with its file has room if its pages have. -/
theorem Roomy.add (h : b.Roomy) {f : PageFile} (hs : 0 < f.pageSize) {schema : Schema}
    (hr : 0 < Layout.slots f.pageSize schema.rowSize) (name : String) :
    Roomy { b with
      catalog := b.catalog.add ⟨b.host.tableId f.name, f.name, schema⟩ name
      disk := b.disk.put f } where
  toWellFormed := h.toWellFormed.add hs schema name
  named := h.named.put f
  room {id t g} ht hg := by
    change (b.disk.put f).file? t.file = some g at hg
    have hid := ((h.toWellFormed.add hs schema name).table_id ht).2
    by_cases hn : t.file = f.name
    · have hself : (b.catalog.add ⟨b.host.tableId f.name, f.name, schema⟩ name).table id =
          .ok ⟨b.host.tableId f.name, f.name, schema⟩ := by
        rw [hid, hn]
        exact Catalog.table_add_self ..
      obtain rfl := Except.ok.inj (ht.symm.trans hself)
      rw [Disk.file?_put_self] at hg
      exact Option.some.inj hg ▸ hr
    · rw [Disk.file?_put_of_ne b.disk hn] at hg
      rcases Catalog.table_of_add ht with ⟨-, rfl⟩ | ht
      · exact absurd rfl hn
      · exact h.room ht hg

/-- Files that get longer have room as before. -/
theorem Roomy.of_extends (h : b.Roomy) (hc : b'.catalog = b.catalog) (hh : b'.host = b.host)
    (hn : b'.disk.Named) (he : b.disk.Extends b'.disk) : b'.Roomy where
  table_id ht := hh ▸ h.table_id (hc ▸ ht)
  file ht := by
    rw [hc] at ht
    obtain ⟨f, hf, hname, hs⟩ := h.file ht
    obtain ⟨f', hf', hext⟩ := he hf
    exact ⟨f', hf', hext.name.trans hname, hext.pageSize ▸ hs⟩
  named := hn
  room {id t f'} ht hf' := by
    rw [hc] at ht
    obtain ⟨f, hf, -⟩ := h.file ht
    obtain ⟨g, hg, hext⟩ := he hf
    obtain rfl : f' = g := Option.some.inj (hf'.symm.trans hg)
    rw [hext.pageSize]
    exact h.room ht hf

end Backing

end RowStore
