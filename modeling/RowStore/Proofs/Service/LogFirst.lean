import RowStore.Proofs.Pool.Trace
import RowStore.Proofs.Service.Failure

/-!
# The log comes first

Whatever is asked of a pool, and whatever fails, a page gets to its file only after the log has made
a record of its change durable, and the record has the bytes that are written, those that were
durable before, and who made the change. If the log or the catalog fails, or the file does not take
the page, nothing is written and the page stays as it was, so that it can be tried again. The only
other thing that happens to files is that they grow by pages without rows.

`Service.Reached.log_first` says so of every action that can be asked for, in a service that has
come about in any way: the log may begin to fail, and tables may vanish from the catalog,
between any two actions.

Two things are less than one would think. A record has the name of the page that has been written
back, and the bytes get to where the copy in its frame belongs; this is another place if somebody
has put a copy of another page there. And a file grows behind its last whole page, so the bytes of a
page that is not whole give way to the new one.
-/

namespace RowStore

open Engine

namespace Service

variable {s s' : Service} {a : Action} {txn : TxnId} {o : Option Outcome} {events : List Event}

/-- The pages that an action writes back, as far as they have been changed. -/
def writesBack (s : Service) : Action → List PageId
  | .flush page => [page]
  | .flushHeld txn => s.engine.held txn
  | .flushAll => s.engine.inOrder s.engine.cache.pages
  | .commit txn => s.engine.held txn
  | _ => []

/-- Each page is written back once. -/
theorem nodup_writesBack (s : Service) (a : Action) : (s.writesBack a).Nodup := by
  cases a with
  | flush page => exact List.nodup_singleton page
  | flushHeld txn | commit txn => exact nodup_held s.engine txn
  | flushAll => exact (s.engine.perm_inOrder _).nodup_iff.2 Std.TreeMap.nodup_keys
  | _ => exact List.nodup_nil

/-- How an action comes to have its events. -/
inductive Logs (s : Service) (a : Action) (events : List Event) : Prop
  /-- It writes no pages back, and files only grow. -/
  | grows (hw : s.writesBack a = []) (hg : ∀ ev ∈ events, ev.IsGrowth)
  /-- It writes pages back, and ends well if that goes well. -/
  | writes {result : Except Error Unit} (ho : (s.perform a).1 = some (result.map fun _ => .done))
    (ht : s.engine.Traces (s.perform a).2.engine (s.writesBack a) result events)

/-- A request lets files grow at most. -/
theorem Serves.lengthens (h : s.Serves txn o s') :
    s.engine.toBacking.Lengthens s'.engine.toBacking :=
  h.stages.keeps (p := fun e => s.engine.toBacking.Lengthens e.toBacking)
    (fun hi hs => hs.keeps_of_moves (p := fun e => s.engine.toBacking.Lengthens e.toBacking)
      (fun _ hi => hi) (fun hi hm => hi.trans hm.lengthens) hi) (.refl _)

/-- The events of every action. -/
theorem Reached.undergoes (h : s.Reached) (ha : s.Allows a) :
    ∃ events, s.engine.toBacking.Undergoes events (s.perform a).2.engine.toBacking ∧
      s.Logs a events := by
  have hsame : s.writesBack a = [] →
      (s.perform a).2.engine.toBacking = s.engine.toBacking →
      ∃ events, s.engine.toBacking.Undergoes events (s.perform a).2.engine.toBacking ∧
        s.Logs a events := by
    intro hw hb
    rw [hb]
    exact ⟨[], .nil, .grows hw nofun⟩
  cases a with
  | issue r =>
    obtain ⟨txn, -, hs⟩ := serves_perform h.orderly ha (.inl ⟨r, rfl⟩)
    obtain ⟨events, hund, hg⟩ := hs.lengthens
    exact ⟨events, hund, .grows rfl hg⟩
  | turn w =>
    obtain ⟨txn, -, hs⟩ := serves_perform h.orderly ha (.inr ⟨w, rfl⟩)
    obtain ⟨events, hund, hg⟩ := hs.lengthens
    exact ⟨events, hund, .grows rfl hg⟩
  | write k change =>
    refine hsame rfl ?_
    rcases write_cases s k change with ⟨err, he⟩ | ⟨q, -, he⟩ <;> rw [he]
  | letGo k => exact hsame rfl rfl
  | evict =>
    refine hsame rfl ?_
    rcases evict_cases s with he | ⟨page, c, -, he⟩ <;> rw [he]
  | install txn p =>
    refine hsame rfl ?_
    rcases install_cases s txn p with he | ⟨e, hi, he⟩
    · rw [he]
    · rw [he]
      obtain ⟨c, -, -, rfl⟩ := install_eq hi
      rfl
  | flush page =>
    obtain ⟨events, hatt⟩ := attempts_flush s.engine page
    have htr : s.engine.Traces _ [page] _ events := hatt.traces
    exact ⟨events, hatt.undergoes, .writes rfl htr⟩
  | flushHeld txn =>
    obtain ⟨events, hund, htr⟩ := traces s.engine .none (nodup_held s.engine txn)
    exact ⟨events, hund, .writes rfl htr⟩
  | flushAll =>
    obtain ⟨events, hund, htr⟩ := traces s.engine .none (nodup_writesBack s .flushAll)
    exact ⟨events, hund, .writes rfl htr⟩
  | discard page => exact hsame rfl rfl
  | release txn page => exact hsame rfl rfl
  | commit txn =>
    obtain ⟨events, hund, htr⟩ := traces_commit s.engine txn
    exact ⟨events, hund, .writes rfl htr⟩
  | abort txn => exact hsame rfl (toBacking_abort s.engine txn)

/-- The events of an action, in which every page write is preceded by the log taking its record and
making it durable. -/
structure LogsFirst (s : Service) (a : Action) (events : List Event) : Prop where
  /-- They make up what happens to the log and the files. -/
  undergoes : s.engine.toBacking.Undergoes events (s.perform a).2.engine.toBacking
  /-- They come in the order of writing back pages, or are growths of files. -/
  logs : s.Logs a events
  /-- What has been written last in a place is there then. -/
  written : ∀ {first rest name n data}, events = first ++ .written name n data :: rest →
    (∀ ev ∈ rest, ¬ ev.Puts name n) → (s.perform a).2.engine.disk.window? name n = some data
  /-- If all copies are of their own pages, then nothing is written twice, and what has been written
  is there. -/
  lasts : s.engine.Keyed → ∀ {name n data}, .written name n data ∈ events →
    (s.perform a).2.engine.disk.window? name n = some data
  /-- All other whole pages of files, but those that come up as files grow, are as they were. -/
  kept : ∀ {name n data}, (∀ ev ∈ events, ¬ ev.Puts name n) →
    s.engine.disk.window? name n = some data →
      (s.perform a).2.engine.disk.window? name n = some data

/-- Whatever is asked of a pool, each page that it writes is logged and forced first, a page that
cannot be logged or written stays changed in the cache, and otherwise files only grow by pages of
zeros. -/
theorem Reached.log_first (h : s.Reached) (ha : s.Allows a) : ∃ events, s.LogsFirst a events := by
  obtain ⟨events, hund, hlogs⟩ := h.undergoes ha
  refine ⟨events, hund, hlogs, ?_, fun hk {name n data} hw => ?_, fun hn hw =>
    hund.kept h.filed hn hw⟩
  · rintro first rest name n data rfl hrest
    exact hund.window?_written h.filed hrest
  · cases hlogs with
    | grows _ hg => exact (hg _ hw).elim
    | writes _ ht =>
      obtain ⟨first, rest, rfl, hrest⟩ :=
        ht.eq_append_of_written h.filed hk (nodup_writesBack s a) hw
      exact hund.window?_written h.filed hrest

end Service

namespace Sample

/-- The log takes the record of one page of this transaction and not that of the other. The first
page is in its file after the commit has failed. The second one is in the cache as it was, still to
be written. -/
theorem log_first_grown : (grown 1).Reached ∧ (grown 1).Allows (.commit 1) ∧
    (∃ events, (grown 1).LogsFirst (.commit 1) events) ∧
    ((grown 1).perform (.commit 1)).1 = some (.error (.logFailed "log full")) ∧
    ((grown 1).perform (.commit 1)).2.engine.journal.records =
      [⟨1, page, [1, 0, 0, 0, 5, 0, 0, 0, 0], [3, 0, 0, 0, 5, 0, 0, 0, 7]⟩] ∧
    ((grown 1).perform (.commit 1)).2.engine.disk.window? table.file 0 =
      some [3, 0, 0, 0, 5, 0, 0, 0, 7] ∧
    ((grown 1).perform (.commit 1)).2.engine.disk.window? table.file 1 = some (Bytes.zeros 9) ∧
    ((grown 1).perform (.commit 1)).2.engine.pending? ⟨table.id, 1⟩ =
      some ⟨1, ⟨table.id, 1⟩, Bytes.zeros 9, [1, 0, 0, 0, 8, 0, 0, 0, 0]⟩ :=
  ⟨reached_grown 1, trivial, (reached_grown 1).log_first trivial, by cbv, by cbv, by cbv, by cbv,
    by cbv⟩

/-- A transaction puts a copy of the second page in the frame of the first, and changes it. -/
def mixing : List Action :=
  [.issue (.fetch 1 page .write true), .write ⟨page, 1, .write, 0⟩ fun p =>
    { p with id := ⟨table.id, 1⟩, data := [1, 0, 0, 0, 4, 0, 0, 0, 0] }]

/-- The first page of the table is to be written back then. -/
def mixed : Service := (Service.start crowded 2 id).after mixing

/-- The table's file has one full page, and three bytes behind it. -/
def ragged : Backing := { backing with
  disk := Disk.empty.put
    ⟨table.file, 9, .ofBytes [3, 0, 0, 0, 7, 0, 0, 0, 8, 170, 187, 204], 0⟩ }

/-- An empty pool over this file. -/
def fresh : Service := Service.start ragged 2 id

theorem reached_mixed : mixed.Reached :=
  (Service.Reached.start
    ((Backing.filed_empty .empty .plain).add ⟨table.file, 9, _, 0⟩ table.schema _) 2 id).after
    ⟨Service.not_hasBlocked_of_nil rfl 1, trivial, trivial⟩

theorem reached_fresh : fresh.Reached :=
  .start ((Backing.filed_empty .empty .plain).add ⟨table.file, 9, _, 0⟩ table.schema _) 2 id

/-- The second page of the file is written, and the log has a record of the first one only. And as
the file grows by a page, the bytes that were behind its last one are lost. -/
theorem written_unlogged :
    (mixed.Reached ∧ mixed.Allows (.flush page) ∧
      (mixed.perform (.flush page)).1 = some (.ok .done) ∧
      mixed.engine.disk.window? table.file 1 = some [3, 0, 0, 0, 7, 0, 0, 0, 8] ∧
      (mixed.perform (.flush page)).2.engine.disk.window? table.file 1 =
        some [1, 0, 0, 0, 4, 0, 0, 0, 0] ∧
      (mixed.perform (.flush page)).2.engine.journal.records.map (·.page) = [page]) ∧
    fresh.Reached ∧ fresh.Allows (.issue (.insert 1 table.id ⟨[.int 6], none⟩)) ∧
      (fresh.perform (.issue (.insert 1 table.id ⟨[.int 6], none⟩))).1 = some (.ok .done) ∧
      (fresh.engine.disk.file? table.file).map (·.bytes.drop 9) = some [170, 187, 204] ∧
      ((fresh.perform (.issue (.insert 1 table.id ⟨[.int 6], none⟩))).2.engine.disk.file?
        table.file).map (·.bytes.drop 9) = some (Bytes.zeros 9) :=
  ⟨⟨reached_mixed, trivial, by cbv, by cbv, by cbv, by cbv⟩,
    reached_fresh, Service.not_hasBlocked_of_nil rfl 1, by cbv, by cbv, by cbv⟩

end Sample

end RowStore
