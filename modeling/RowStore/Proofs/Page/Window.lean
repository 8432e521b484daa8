import RowStore.Proofs.Database

/-!
# Whole pages on the disk

`Disk.window?` looks at a page as its file has it, whether or not the catalog knows a table of that
file and whether or not a page count covers the page. Writing a page of a table replaces it and
leaves the other whole pages of all files as they are, even if the file has to grow for it.

For this the catalog and the disk only have to agree on names, which is all that `Backing.Filed`
says: a table has the number of its file, and a file is found under its own name.
-/

namespace RowStore

namespace PageFile

variable {f f' : PageFile} {n m : Nat} {b data : Bytes}

/-- The bytes of a page, if the file has all of them. -/
def window? (f : PageFile) (n : Nat) : Option Bytes :=
  if (n + 1) * f.pageSize ≤ f.length then some (Bytes.slice (n * f.pageSize) f.pageSize f.bytes)
  else none

theorem window?_eq_some_iff : f.window? n = some b ↔
    (n + 1) * f.pageSize ≤ f.length ∧ b = Bytes.slice (n * f.pageSize) f.pageSize f.bytes := by
  unfold window?
  constructor
  · intro h
    split at h
    · next hn =>
      cases h
      exact ⟨hn, rfl⟩
    · cases h
  · rintro ⟨hn, rfl⟩
    exact if_pos hn

/-- What is read of a page is the whole page. -/
theorem window?_of_read (h : f.read n = .ok b) : f.window? n = some b := by
  have hd : (Bytes.zeros f.pageSize).drop f.pageSize = [] := List.drop_eq_nil_of_le (by simp)
  unfold read readInto at h
  dsimp only at h
  split at h
  · cases h
  · split at h
    · cases h
    · next hl =>
      rw [if_neg (by simp), hd, List.append_nil, SparseBytes.slice_eq] at h
      cases h
      exact window?_eq_some_iff.2 ⟨Nat.not_lt.1 hl, rfl⟩

/-- Overwriting one page replaces it and no other that is whole. -/
theorem window?_overwrite (hd : data.length = f.pageSize) (hsize : f'.pageSize = f.pageSize)
    (hbytes : f'.bytes = (f.overwrite (m * f.pageSize) data).bytes) :
    f'.window? m = some data ∧ ∀ {n b}, n ≠ m → f.window? n = some b → f'.window? n = some b := by
  have hl : f'.length = max f.length (m * f.pageSize + f.pageSize) := by
    rw [← length_bytes, hbytes, length_bytes, length_overwrite, hd]
  constructor
  · rw [window?_eq_some_iff, hl, hsize, hbytes, slice_overwrite_self f m hd, Nat.succ_mul]
    exact ⟨Nat.le_max_right .., rfl⟩
  · intro n b hn hb
    obtain ⟨hw, rfl⟩ := window?_eq_some_iff.1 hb
    rw [window?_eq_some_iff, hl, hsize, hbytes,
      slice_overwrite_of_ne (Nat.le_of_eq hd) (.inr hw) hn]
    exact ⟨Nat.le_trans hw (Nat.le_max_left ..), rfl⟩

theorem window?_write (h : f.write m data = .ok f') :
    f'.name = f.name ∧ f'.window? m = some data ∧
      ∀ {n b}, n ≠ m → f.window? n = some b → f'.window? n = some b := by
  obtain ⟨hd, -, rfl⟩ := write_eq_ok.1 h
  exact ⟨rfl, window?_overwrite hd rfl rfl⟩

/-- A page that is appended comes behind those that the page count covers, and replaces no other
that is whole. -/
theorem window?_append (hd : data.length = f.pageSize) :
    (f.append data).2.name = f.name ∧ (f.append data).2.window? f.pageCount = some data ∧
      ∀ {n b}, n ≠ f.pageCount → f.window? n = some b → (f.append data).2.window? n = some b :=
  ⟨rfl, window?_overwrite hd rfl rfl⟩

/-- A write that breaks off replaces the first bytes of its page, and no other page that is
whole. -/
theorem window?_tear (hd : data.length = f.pageSize) (bytes : Nat) :
    (f.tear m data bytes).name = f.name ∧
      (∀ {b}, f.window? m = some b →
        (f.tear m data bytes).window? m = some (data.take bytes ++ b.drop bytes)) ∧
      ∀ {n b}, n ≠ m → f.window? n = some b → (f.tear m data bytes).window? n = some b := by
  unfold tear
  split
  · next hb =>
    subst hb
    exact ⟨rfl, fun h => h, fun _ h => h⟩
  · have hlen := f.length_overwrite (m * f.pageSize) (data.take bytes)
    have hle : (data.take bytes).length ≤ f.pageSize := hd ▸ List.length_take_le' ..
    refine ⟨rfl, fun {b} hb => ?_, fun {n b} hn hb => ?_⟩
    · obtain ⟨hw, rfl⟩ := window?_eq_some_iff.1 hb
      refine window?_eq_some_iff.2 ⟨hlen ▸ Nat.le_trans hw (Nat.le_max_left ..), ?_⟩
      rw [Nat.succ_mul, ← hd, ← length_bytes] at hw
      show _ = Bytes.slice (m * f.pageSize) f.pageSize _
      rw [bytes_overwrite, ← hd]
      exact (Bytes.slice_overwrite_take (hd ▸ hw) bytes).symm
    · obtain ⟨hw, rfl⟩ := window?_eq_some_iff.1 hb
      refine window?_eq_some_iff.2 ⟨hlen ▸ Nat.le_trans hw (Nat.le_max_left ..), ?_⟩
      exact (slice_overwrite_of_ne hle (.inr hw) hn).symm

end PageFile

namespace Disk

/-- The bytes of a page of the file with the name, if the file has all of them. -/
def window? (d : Disk) (name : String) (n : Nat) : Option Bytes := (d.file? name).bind (·.window? n)

end Disk

namespace Backing

/-- Tables and files go by their names. -/
structure Filed (b : Backing) : Prop where
  /-- The number of a table is that of its file. -/
  table_id : ∀ {id t}, b.catalog.table id = .ok t → id = b.host.tableId t.file
  /-- A file is found under its own name. -/
  name_eq : ∀ {name f}, b.disk.file? name = some f → f.name = name

/-- The bytes of the page belong in the file with the name, as those of its page with the number. -/
def Places (b : Backing) (page : PageId) (name : String) (n : Nat) : Prop :=
  ∃ t, b.catalog.table page.table = .ok t ∧ t.file = name ∧ page.number = n

variable {b b' : Backing} {t : Table} {disk : Disk} {f f' : PageFile} {page pg : PageId} {q : Page}
  {name : String} {n : Nat}

theorem filed_empty (journal : Journal) (host : Host) :
    Filed ⟨.empty, .empty, journal, host⟩ where
  table_id h := nomatch h
  name_eq h := nomatch h

namespace Filed

/-- The log does not matter. -/
theorem of_eq (h : b.Filed) (hc : b'.catalog = b.catalog) (hd : b'.disk = b.disk)
    (hh : b'.host = b.host) : b'.Filed where
  table_id ht := hh ▸ h.table_id (hc ▸ ht)
  name_eq hf := h.name_eq (hd ▸ hf)

theorem put (h : b.Filed) (f : PageFile) : Filed { b with disk := b.disk.put f } where
  table_id := h.table_id
  name_eq {name g} hg := by
    by_cases hn : name = f.name
    · subst hn
      change (b.disk.put f).file? f.name = some g at hg
      rw [Disk.file?_put_self] at hg
      exact congrArg PageFile.name (Option.some.inj hg).symm
    · exact h.name_eq ((Disk.file?_put_of_ne b.disk hn).symm.trans hg)

/-- A table that is added goes by the name of its file. -/
theorem add (h : b.Filed) (f : PageFile) (schema : Schema) (name : String) :
    Filed { b with
      catalog := b.catalog.add ⟨b.host.tableId f.name, f.name, schema⟩ name
      disk := b.disk.put f } where
  table_id ht := by
    rcases Catalog.table_of_add ht with ⟨rfl, rfl⟩ | ht
    · rfl
    · exact h.table_id ht
  name_eq := (h.put f).name_eq

/-- Two pages of tables do not belong in one place. -/
theorem eq_of_places (h : b.Filed) (hp : b.Places page name n) (hq : b.Places pg name n) :
    page = pg := by
  obtain ⟨t, ht, rfl, rfl⟩ := hp
  obtain ⟨u, hu, hfile, hnumber⟩ := hq
  have htable : pg.table = page.table := by
    rw [h.table_id hu, hfile]
    exact (h.table_id ht).symm
  obtain ⟨table, number⟩ := page
  obtain ⟨table', number'⟩ := pg
  exact PageId.mk.injEq .. ▸ ⟨htable.symm, hnumber.symm⟩

/-- Putting a file back leaves the other files as they are. -/
theorem window?_put (h : b.Filed) {file : String} (hf : b.disk.file? file = some f)
    (hn : f'.name = f.name) (name : String) (n : Nat) : (b.disk.put f').window? name n =
      if name = file then f'.window? n else b.disk.window? name n := by
  have hname : f'.name = file := hn.trans (h.name_eq hf)
  split
  · next he =>
    rw [he, Disk.window?, ← hname, Disk.file?_put_self]
    rfl
  · next hne =>
    rw [Disk.window?, Disk.file?_put_of_ne b.disk (hname ▸ hne)]
    rfl

/-- Putting a file back with one page changed leaves all other whole pages as they are. -/
theorem window?_put_of_ne (h : b.Filed) {file : String} {m : Nat} {data : Bytes}
    (hf : b.disk.file? file = some f) (hn : f'.name = f.name)
    (hother : ∀ {n data}, n ≠ m → f.window? n = some data → f'.window? n = some data)
    (hne : ¬ (file = name ∧ m = n)) (hw : b.disk.window? name n = some data) :
    (b.disk.put f').window? name n = some data := by
  rw [h.window?_put hf hn]
  split
  · next he =>
    rw [he, Disk.window?, hf] at hw
    exact hother (fun hm => hne ⟨he.symm, hm.symm⟩) hw
  · exact hw

/-- Writing a page replaces what is in its place, and no other page that is whole. -/
theorem writePage (h : b.Filed) (hw : b.disk.writePage t q = .ok disk) :
    Filed { b with disk } ∧ disk.window? t.file q.id.number = some q.data ∧
      ∀ {name n data}, ¬ (t.file = name ∧ q.id.number = n) →
        b.disk.window? name n = some data → disk.window? name n = some data := by
  obtain ⟨f, hf, hw⟩ := bind_eq_ok.1 hw
  obtain ⟨f', hwrite, rfl⟩ := map_eq_ok.1 hw
  have hf := Disk.find_eq_ok.1 hf
  obtain ⟨hn, hself, hother⟩ := PageFile.window?_write hwrite
  refine ⟨h.put f', ?_, fun hne hdata => h.window?_put_of_ne hf hn hother hne hdata⟩
  rw [h.window?_put hf hn, if_pos rfl]
  exact hself

/-- Writing a page that breaks off replaces the first bytes in its place, and no other page that is
whole. -/
theorem tearPage (h : b.Filed) (hw : b.disk.writePage t q = .ok disk) (bytes : Nat) :
    Filed { b with disk := b.disk.tearPage t q bytes } ∧
      (∀ {data}, b.disk.window? t.file q.id.number = some data →
        (b.disk.tearPage t q bytes).window? t.file q.id.number =
          some (q.data.take bytes ++ data.drop bytes)) ∧
      ∀ {name n data}, ¬ (t.file = name ∧ q.id.number = n) →
        b.disk.window? name n = some data →
          (b.disk.tearPage t q bytes).window? name n = some data := by
  obtain ⟨f, hf, hw⟩ := bind_eq_ok.1 hw
  obtain ⟨f', hwrite, -⟩ := map_eq_ok.1 hw
  have hf := Disk.find_eq_ok.1 hf
  obtain ⟨hn, hself, hother⟩ :=
    PageFile.window?_tear (m := q.id.number) (PageFile.write_eq_ok.1 hwrite).1 bytes
  have htear : b.disk.tearPage t q bytes = b.disk.put (f.tear q.id.number q.data bytes) := by
    rw [Disk.tearPage, hf]
  rw [htear]
  refine ⟨h.put _, fun hdata => ?_, fun hne hdata => h.window?_put_of_ne hf hn hother hne hdata⟩
  rw [Disk.window?, hf] at hdata
  rw [h.window?_put hf hn, if_pos rfl]
  exact hself hdata

end Filed

end Backing

end RowStore
