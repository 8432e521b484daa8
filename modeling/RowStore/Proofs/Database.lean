import Mathlib.Algebra.Module.Submodule.Lattice
import Mathlib.Computability.Primrec.List
import Mathlib.Data.List.Permutation
import RowStore.Database
import RowStore.Proofs.Catalog
import RowStore.Proofs.Pool.View
import Std.Data.TreeSet.Iterator

/-!
# Opening tables

However tables are opened, their files are kept apart: what the catalog and the disk have to do with
each other, `Backing.WellFormed`, holds as long as there are no tables and is kept by adding one
with its file, which is what opening a table comes to.
-/

namespace RowStore

/-! ## Databases -/

namespace Backing

theorem wellFormed_empty (journal : Journal) (host : Host) :
    WellFormed ⟨.empty, .empty, journal, host⟩ where
  table_id h := nomatch h
  file h := nomatch h

/-- A table that is added with its file is kept apart from the others. -/
theorem WellFormed.add {b : Backing} (h : b.WellFormed) {f : PageFile} (hs : 0 < f.pageSize)
    (schema : Schema) (name : String) :
    WellFormed { b with
      catalog := b.catalog.add ⟨b.host.tableId f.name, f.name, schema⟩ name
      disk := b.disk.put f } where
  table_id ht := by
    rcases Catalog.table_of_add ht with ⟨rfl, rfl⟩ | ht
    · exact ⟨rfl, rfl⟩
    · exact h.table_id ht
  file {id t} ht := by
    by_cases hn : t.file = f.name
    · exact ⟨f, hn ▸ Disk.file?_put_self b.disk f, hn.symm, hs⟩
    · rcases Catalog.table_of_add ht with ⟨-, rfl⟩ | ht
      · exact absurd rfl hn
      · obtain ⟨g, hg, hgn⟩ := h.file ht
        exact ⟨g, hg ▸ Disk.file?_put_of_ne b.disk hn, hgn⟩

end Backing

namespace Database

variable {db db' : Database} {path name : String} {schema : Schema} {t : Table}

/-- A table that has been opened is in the catalog with its file, which has what it had before. -/
theorem openTable_eq_ok (h : db.openTable path schema name = .ok (t, db')) : ∃ file,
    0 < db.config.pageSize ∧ 0 < Layout.slots db.config.pageSize schema.rowSize ∧
      t = ⟨db.backing.host.tableId file, file, schema⟩ ∧
      db' = { db with backing := { db.backing with
        catalog := db.backing.catalog.add ⟨db.backing.host.tableId file, file, schema⟩ name
        disk := db.backing.disk.put ⟨file, db.config.pageSize,
          ((db.backing.disk.file? file).map (·.content)).getD [], 0⟩ } } := by
  obtain ⟨slots, hslots, h⟩ := bind_eq_ok.1 h
  dsimp only at h
  split at h
  · cases h
  · next hne =>
    obtain ⟨⟨file, disk⟩, hd, h⟩ := bind_eq_ok.1 h
    obtain ⟨other, -, hd⟩ := bind_eq_ok.1 hd
    obtain ⟨f, hf, hd⟩ := bind_eq_ok.1 hd
    cases hd
    cases h
    unfold Layout.checkedSlots at hslots
    unfold PageFile.open? at hf
    split at hslots
    · cases hslots
      split at hf
      · cases hf
      · next hs =>
        cases hf
        exact ⟨file, Nat.pos_of_ne_zero hs, Nat.pos_of_ne_zero hne, rfl, rfl⟩
    · cases hslots

end Database

/-! ## Databases with one table -/

-- To evaluate what becomes of the samples, `cbv` goes by equations of `LE.le`, `Prod.snd`, `id`,
-- `List.lookup` and `Std.TreeMap.keys`, which are in the modules imported from Mathlib and Std.
namespace Sample

/-- A table of numbers. -/
def table : Table := ⟨.ofFile "numbers", "numbers", .ofTypes [.int]⟩

/-- The first page of the table. -/
def page : PageId := ⟨table.id, 0⟩

/-- The table's file has one page with room for two rows, the first of which is there. -/
def backing : Backing where
  catalog := Catalog.empty.add table table.file
  disk := Disk.empty.put ⟨table.file, 9, .ofBytes [1, 0, 0, 0, 5, 0, 0, 0, 0], 0⟩
  journal := .empty
  host := .plain

theorem wellFormed_backing : backing.WellFormed :=
  (Backing.wellFormed_empty .empty .plain).add (f := ⟨table.file, 9, _, 0⟩) (by decide)
    table.schema _

/-- The table's file has three pages, of which the first two are full. -/
def crowded : Backing where
  catalog := Catalog.empty.add table table.file
  disk := Disk.empty.put ⟨table.file, 9, .ofBytes
    [3, 0, 0, 0, 5, 0, 0, 0, 6, 3, 0, 0, 0, 7, 0, 0, 0, 8, 1, 0, 0, 0, 9, 0, 0, 0, 0], 0⟩
  journal := .empty
  host := .plain

theorem wellFormed_crowded : crowded.WellFormed :=
  (Backing.wellFormed_empty .empty .plain).add (f := ⟨table.file, 9, _, 0⟩) (by decide)
    table.schema _

end Sample

end RowStore
