import RowStore.Proofs.Call.Room
import RowStore.Proofs.Service.Failure
import RowStore.Proofs.Service.Insertion

/-!
# Insertions that find no room

A row of the types of its table can be inserted, one should think: if all pages are full, the table
grows by one for it. But an appended page is there for everybody before it is locked. Who holds its
lock already, because of an earlier attempt to read a page that was not there yet, can fill it while
the insertion waits, and the insertion gives up then. And a page that has been cached before its
table was opened again keeps the schema that it was read with.

`Service.Unfailing.finds_room` says that this is all that can go wrong, besides locks that are
refused and pools without room, as long as the files do not fail. It holds of every service that can
come about without that: files may get longer, also from outside, and tables may be opened again,
but no page of a file gets lost, and page numbers suffice.
-/

namespace RowStore

open Engine

namespace Service

variable {s : Service} {a : Action} {txn : TxnId} {t : Table} {row : Row} {r : Request}
  {w : Waiter} {i : Insertion} {awaited : Option PageId} {err : Error} {c : Call}
  {as : List Action}

/-! ## Files that do not fail -/

/-- A service the files of which do not fail. They may get longer, also from outside, and the tables
may be opened again. Changes through handles leave pages the ones that they are. -/
inductive Unfailing : Service → Prop
  /-- It starts with an empty pool. -/
  | start {backing : Backing} (hb : backing.Roomy) (hc : backing.disk.Countable) (capacity : Nat)
    (choices : Nat → Nat) : Unfailing (start backing capacity choices)
  /-- An action is performed, and page numbers suffice for what has become of the files. -/
  | perform {s : Service} {a : Action} (h : Unfailing s) (ha : s.Allows a) (hn : a.KeepsNames)
    (hc : (s.perform a).2.engine.disk.Countable) : Unfailing (s.perform a).2
  /-- Something is done from outside, on the same machine. -/
  | outside {s : Service} {backing : Backing} (h : Unfailing s) (hb : backing.Roomy)
    (hc : backing.disk.Countable) (he : s.engine.disk.Extends backing.disk)
    (hh : backing.host = s.engine.host) :
    Unfailing { s with engine := { s.engine with toBacking := backing } }

/-- The tables and the machine are the same, and no file has lost anything of its length. -/
structure Prolongs (b b' : Backing) : Prop where
  /-- The tables are the same. -/
  catalog : b'.catalog = b.catalog
  /-- The machine is the same. -/
  host : b'.host = b.host
  /-- A file is found under its own name. -/
  named : b'.disk.Named
  /-- Files may have got longer. -/
  disk : b.disk.Extends b'.disk

/-- Whatever is asked, the tables stay the same, and no file loses anything of its length. -/
theorem prolongs_perform (h : s.Orderly) (hn : s.engine.disk.Named) (ha : s.Allows a) :
    Prolongs s.engine.toBacking (s.perform a).2.engine.toBacking := by
  refine perform_keeps (p := fun e => Prolongs s.engine.toBacking e.toBacking) h ha
    (fun _ hp => hp) (fun _ hp => hp) (fun {e e' txn} hp hm => ?_)
    (fun {e e' page result} hp hf => ?_) ⟨rfl, rfl, hn, .refl _⟩
  · cases hm with
    | load hl => exact ⟨hl.stays.catalog.trans hp.catalog, hl.stays.host.trans hp.host,
        hl.disk ▸ hp.named, hl.disk ▸ hp.disk⟩
    | keep | write => exact hp
    | install hi =>
      obtain ⟨c, -, -, rfl⟩ := install_eq hi
      exact hp
    | grow hg =>
      obtain ⟨hnamed, hext⟩ := hp.named.grow hg
      exact ⟨hp.catalog, hp.host, hnamed, hp.disk.trans hext⟩
  · cases hf with
    | clean => exact hp
    | failed => exact ⟨hp.catalog, hp.host, hp.named, hp.disk⟩
    | written _ _ _ _ hw =>
      obtain ⟨hnamed, hext⟩ := hp.named.writePage hw
      exact ⟨hp.catalog, hp.host, hnamed, hp.disk.trans hext⟩

theorem Runs.extends (h : s.Runs Allows as) (ho : s.Orderly) (hn : s.engine.disk.Named) :
    s.engine.disk.Extends (s.after as).engine.disk := by
  induction as generalizing s with
  | nil => exact .refl _
  | cons a as ih =>
    have hp := prolongs_perform ho hn h.1
    exact hp.disk.trans (ih h.2 (ho.perform h.1) hp.named)

/-! ## Insertions that wait -/

/-- Only a request to insert a row has to wait as an insertion. -/
theorem mem_blocked_of_issue (h : s.Orderly) (ha : ¬ s.HasBlocked r.txn)
    (hi : ∀ txn id row, r ≠ .insert txn id row) (hi' : ∀ txn t row, r ≠ .insertInto txn t row)
    (hc : c ∈ (s.issue r).2.blocked) (hins : c.IsInsert) : c ∈ s.blocked := by
  cases hr : r.start s.engine with
  | mk step e =>
    cases step with
    | finished o => simpa only [issue, hr] using hc
    | waits d hd =>
      obtain ⟨result, hcourse, -, hblocked, -⟩ := course_issue h ha hr
      rcases (hblocked c).1 hc with ⟨hc, -⟩ | rfl
      · exact hc
      · have hstart : (r.start s.engine).1.result = .inr d := congrArg (fun x => x.1.result) hr
        exact absurd (hcourse.isInsert hins) (Request.not_isInsert_of_start hi hi' hstart)

/-- If a request has to wait as an insertion into a table of the catalog, then it does so for a page
that can be read. -/
theorem placed_of_issue (h : s.Orderly) (hb : s.engine.toBacking.Roomy)
    (hc : s.engine.disk.Countable) (ha : ¬ s.HasBlocked r.txn)
    (hi : .insert i ∈ (s.issue r).2.blocked) (hinstall : i.install = true) :
    .insert i ∈ s.blocked ∨ i.Placed (s.issue r).2.engine.toBacking := by
  by_cases hr : ∃ txn id row, r = .insert txn id row
  · obtain ⟨txn, id, row, rfl⟩ := hr
    cases ht : s.engine.catalog.table id with
    | error err =>
      rw [issue_insert_of_error ht] at hi
      exact .inl hi
    | ok t =>
      obtain ⟨result, htrip, -, hblocked⟩ := trip_issue h ha (start_insert ht)
      rcases (hblocked _).1 hi with ⟨hi, -⟩ | rfl
      · exact .inl hi
      · have hid : t.id = id := (hb.table_id ht).1
        obtain ⟨j, hj, -, hplaced⟩ := htrip.placed rfl hb hc (hid.symm ▸ ht)
        cases hj
        exact .inr hplaced
  · by_cases hr' : ∃ txn t row, r = .insertInto txn t row
    · obtain ⟨txn, t, row, rfl⟩ := hr'
      obtain ⟨result, htrip, -, hblocked⟩ := trip_issue (i := .of txn t row false) h ha rfl
      rcases (hblocked _).1 hi with ⟨hi, -⟩ | rfl
      · exact .inl hi
      · obtain ⟨j, hj, hf⟩ := htrip.follows
        cases hj
        cases hf.install.symm.trans hinstall
    · refine .inl (mem_blocked_of_issue h ha (fun txn id row he => hr ⟨txn, id, row, he⟩)
        (fun txn t row he => hr' ⟨txn, t, row, he⟩) hi trivial)

/-- So it does if it has to wait again. -/
theorem placed_of_turn (h : s.Orderly) (hb : s.engine.toBacking.Roomy)
    (hc : s.engine.disk.Countable) (hw : w ∈ s.engine.locks.waiting)
    (hp : ∀ {i : Insertion}, .insert i ∈ s.blocked → i.install = true → i.Placed s.engine.toBacking)
    (hi : .insert i ∈ (s.turn w).2.blocked) (hinstall : i.install = true) :
    .insert i ∈ s.blocked ∨ i.Placed (s.turn w).2.engine.toBacking := by
  obtain ⟨c, hmem, hf, -⟩ := h.find?_eq_some hw
  obtain ⟨result, hcourse, -, hblocked, -⟩ := course_turn h hw hf
  rcases (hblocked _).1 hi with ⟨hi, -⟩ | rfl
  · exact .inl hi
  · cases c with
    | insert k =>
      have hway := Insertion.way_of_course hcourse
      obtain ⟨j, hj, hfol⟩ := hway.follows
      cases hj
      have hk : k.install = true := hfol.install.symm.trans hinstall
      obtain ⟨j, hj, -, hplaced⟩ := hway.placed (.refl (hp hmem hk)) hb hc
      cases hj
      exact .inr hplaced
    | fetch | delete | collect | take => exact (hcourse.isInsert (d := .insert i) trivial).elim

namespace Unfailing

theorem orderly (h : s.Unfailing) : s.Orderly := by
  induction h with
  | start => exact .start ..
  | perform _ ha _ _ ih => exact ih.perform ha
  | outside _ _ _ _ _ ih => exact ih.of_locks rfl

theorem keyed (h : s.Unfailing) : s.engine.Keyed := by
  induction h with
  | start => exact nofun
  | perform h ha hn _ ih => exact keyed_perform h.orderly ih ha hn
  | outside _ _ _ _ _ ih => exact ih

theorem countable (h : s.Unfailing) : s.engine.disk.Countable := by
  cases h with
  | start _ hc => exact hc
  | perform _ _ _ hc => exact hc
  | outside _ _ hc => exact hc

theorem roomy (h : s.Unfailing) : s.engine.toBacking.Roomy := by
  induction h with
  | start hb => exact hb
  | perform h ha _ _ ih =>
    have hp := prolongs_perform h.orderly ih.named ha
    exact ih.of_extends hp.catalog hp.host hp.named hp.disk
  | outside _ hb => exact hb

/-- If page numbers suffice at the end of a run then they do all along. -/
theorem after (h : s.Unfailing) (hr : s.Runs Allows as) (hk : ∀ a ∈ as, a.KeepsNames)
    (hc : (s.after as).engine.disk.Countable) : (s.after as).Unfailing := by
  induction as generalizing s with
  | nil => exact h
  | cons a as ih =>
    have hn := (prolongs_perform h.orderly h.roomy.named hr.1).named
    have he := hr.2.extends (h.orderly.perform hr.1) hn
    exact ih (h.perform hr.1 (hk a (.head _)) (hc.of_extends he)) hr.2
      (fun b hb => hk b (.tail _ hb)) hc

/-- An insertion that has to wait does so for a page that can be read. -/
theorem placed (h : s.Unfailing) (hi : .insert i ∈ s.blocked) (hinstall : i.install = true) :
    i.Placed s.engine.toBacking := by
  induction h generalizing i with
  | start => cases hi
  | @perform s a h ha _ hc ih =>
    have hprolongs := prolongs_perform h.orderly h.roomy.named ha
    suffices hmem : .insert i ∈ s.blocked ∨ i.Placed (s.perform a).2.engine.toBacking by
      rcases hmem with hi | hp
      · exact (ih hi hinstall).of_extends hprolongs.host hprolongs.disk hc
      · exact hp
    -- Only a request or a turn can leave a call waiting that has not been.
    by_cases hcall : (∃ r, a = .issue r) ∨ ∃ w, a = .turn w
    · rcases hcall with ⟨r, rfl⟩ | ⟨w, rfl⟩
      · exact placed_of_issue h.orderly h.roomy h.countable ha hi hinstall
      · exact placed_of_turn h.orderly h.roomy h.countable ha ih hi hinstall
    · rw [s.blocked_perform hcall] at hi
      exact .inl hi
  | outside h _ hc he hh ih => exact (ih hi hinstall).of_extends hh he hc

/-- A table may be opened, or opened again for rows of other types, by a database with pages of one
size. -/
theorem openTable {db db' : Database} {path name : String} {schema : Schema} {pool : Nat}
    (h : s.Unfailing) (hs : db.service? pool = some s)
    (hsize : ∀ name f, db.backing.disk.file? name = some f → f.pageSize = db.config.pageSize)
    (ho : db.openTable path schema name = .ok (t, db')) :
    ∃ s', db'.service? pool = some s' ∧ s'.Unfailing := by
  obtain ⟨p, hp, rfl⟩ := Option.map_eq_some_iff.1 hs
  obtain ⟨file, hpos, hroom, -, rfl⟩ := Database.openTable_eq_ok ho
  obtain ⟨hext, hcount⟩ := Disk.Named.reopen h.roomy.named h.countable (hsize file) hpos
  refine ⟨_, Option.map_eq_some_iff.2 ⟨p, hp, rfl⟩, h.outside ?_ hcount hext rfl⟩
  exact h.roomy.add (f := ⟨file, db.config.pageSize, _, 0⟩) hpos hroom name

end Unfailing

/-! ## What stops an insertion -/

/-- With the action a transaction goes about inserting a row of the right types into a table, at
first or when it has waited, perhaps for a page that has been appended for the row. -/
inductive Inserting (s : Service) : TxnId → Table → Row → Action → Option PageId → Prop
  /-- It asks for it. -/
  | asks {txn : TxnId} {id : TableId} {t : Table} {row : Row}
    (ht : s.engine.catalog.table id = .ok t) (hrow : row.types = t.schema.types) :
    Inserting s txn t row (.issue (.insert txn id row)) none
  /-- It goes on with it. -/
  | resumes {w : Waiter} {i : Insertion} {t : Table} (hi : .insert i ∈ s.blocked)
    (hinstall : i.install = true) (hw : w.txn = i.txn)
    (ht : s.engine.catalog.table i.table.id = .ok t) (hrow : i.row.types = t.schema.types) :
    Inserting s i.txn t i.row (.turn w) i.awaited

/-- If the files do not fail and have distinct numbers, and the row has the types that the catalog
says, then what stops an insertion is one of the obstructions. -/
theorem Unfailing.finds_room (h : s.Unfailing) (ha : s.Allows a)
    (hi : s.Inserting txn t row a awaited) (ho : (s.perform a).1 = some (.error err))
    (hd : (s.perform a).2.engine.Distinct) (hc : (s.perform a).2.engine.disk.Countable) :
    s.engine.Obstructs txn t row awaited (s.perform a).2.engine err := by
  cases hi with
  | @asks _ id _ _ ht hrow =>
    obtain ⟨result, htrip, hres, -⟩ := trip_issue h.orderly ha (start_insert ht)
    obtain rfl := Sum.getLeft?_eq_some_iff.1 (hres.symm.trans ho)
    have hid : t.id = id := (h.roomy.table_id ht).1
    exact htrip.obstructs rfl h.keyed h.roomy h.countable (hid.symm ▸ ht) hrow hd hc
  | @resumes w i _ hi hinstall hw ht hrow =>
    have hf : s.blocked.find? (·.txn = w.txn) = some (.insert i) :=
      hw.symm ▸ find?_txn h.orderly.nodup hi
    obtain ⟨result, hway, hres, -⟩ := way_turn h.orderly ha hf
    obtain rfl := Sum.getLeft?_eq_some_iff.1 (hres.symm.trans ho)
    exact hway.obstructs (.refl (h.placed hi hinstall)) h.keyed h.roomy h.countable ht hrow hd
      hc

end Service

namespace Sample

theorem roomy_backing : backing.Roomy :=
  (Backing.roomy_empty .empty .plain).add (f := ⟨table.file, 9, _, 0⟩) (by decide) (by decide) _

theorem countable_backing : backing.disk.Countable :=
  Disk.countable_of_sizes [(9, 9)] (by cbv) (by decide)

/-- The second page of the table, which is not there at first. -/
def later : PageId := ⟨table.id, 1⟩

/-- The first transaction fills the only page. The second one tries to read the next page, which is
not there, and keeps the lock on it. The third one inserts a row, for which the page is appended,
and has to wait for it. Meanwhile the second one fills it. -/
def outrunning : List Action :=
  [.issue (.insert 1 table.id ⟨[.int 6], none⟩), .commit 1,
    .issue (.fetch 2 later .write false), .issue (.insert 3 table.id ⟨[.int 9], none⟩),
    .issue (.insert 2 table.id ⟨[.int 7], none⟩), .issue (.insert 2 table.id ⟨[.int 8], none⟩),
    .commit 2]

/-- The service after that. -/
def outrun : Service := (Service.start backing 2 id).after outrunning

/-- It is the third transaction's turn. -/
def retrying : Action := .turn ⟨3, later, .exclusive, true⟩

/-- The insertion that it goes on with. -/
def overtaken : Insertion := ⟨3, table, ⟨[.int 9], none⟩, 1, 1, .free, true, true⟩

theorem runs_outrunning : (Service.start backing 2 id).Runs Service.Allows outrunning :=
  ⟨Service.not_hasBlocked_of_nil rfl 1, trivial, Service.not_hasBlocked_of_nil (by cbv) 2,
    Service.not_hasBlocked_of_nil (by cbv) 3,
    of_decide_eq_true (p := ¬ Service.HasBlocked _ 2) (by cbv),
    of_decide_eq_true (p := ¬ Service.HasBlocked _ 2) (by cbv), trivial, trivial⟩

theorem unfailing_outrun : outrun.Unfailing :=
  (Service.Unfailing.start roomy_backing countable_backing 2 id).after runs_outrunning
    (by simp [outrunning, Action.KeepsNames])
    (Disk.countable_of_sizes [(9, 18)] (by cbv) (by decide))

theorem blocked_outrun : outrun.blocked = [.insert overtaken] := by cbv

theorem waiting_outrun : outrun.engine.locks.waiting = [⟨3, later, .exclusive, true⟩] := by cbv

theorem allows_retrying : outrun.Allows retrying := by
  change _ ∈ outrun.engine.locks.waiting
  rw [waiting_outrun]
  exact List.mem_cons_self ..

theorem inserting_retrying : outrun.Inserting 3 table ⟨[.int 9], none⟩ retrying (some later) :=
  .resumes (i := overtaken) (blocked_outrun ▸ List.mem_cons_self ..) rfl rfl (by cbv) rfl

/-- The page of the second transaction is full when the third one gets to it. -/
theorem finds_room_retrying : outrun.Unfailing ∧ outrun.Allows retrying ∧
    outrun.Inserting 3 table ⟨[.int 9], none⟩ retrying (some later) ∧
    (outrun.perform retrying).1 = some (.error (.pageFull later)) ∧
    (outrun.perform retrying).2.engine.Distinct ∧
    (outrun.perform retrying).2.engine.disk.Countable ∧
    outrun.engine.Obstructs 3 table ⟨[.int 9], none⟩ (some later)
      (outrun.perform retrying).2.engine (.pageFull later) := by
  have hfull : (outrun.perform retrying).1 = some (.error (.pageFull later)) := by cbv
  have hc : (outrun.perform retrying).2.engine.disk.Countable :=
    Disk.countable_of_sizes [(9, 18)] (by cbv) (by decide)
  have hd : (outrun.perform retrying).2.engine.Distinct := Backing.distinct_of_plain (by cbv)
  exact ⟨unfailing_outrun, allows_retrying, inserting_retrying, hfull, hd, hc,
    unfailing_outrun.finds_room allows_retrying inserting_retrying hfull hd hc⟩

/-- The table opened again, for pairs of numbers. -/
def pairs : Table := ⟨.ofFile table.file, table.file, .ofTypes [.int, .int]⟩

/-- The tables and files after that. -/
def paired : Backing where
  catalog := backing.catalog.add pairs table.file
  disk := backing.disk.put
    ⟨table.file, 9, ((backing.disk.file? table.file).map (·.content)).getD [], 0⟩
  journal := .empty
  host := .plain

/-- The first transaction reads the page. -/
def peeking : List Action := [.issue (.fetch 1 page .read false)]

/-- The service after that, and after the table has been opened again. -/
def outdated : Service :=
  let s := (Service.start backing 2 id).after peeking
  { s with engine := { s.engine with toBacking := paired } }

/-- The first transaction inserts a pair. -/
def pairing : Action := .issue (.insert 1 table.id ⟨[.int 1, .int 2], none⟩)

theorem unfailing_outdated : outdated.Unfailing := by
  have hsize : ∀ f, backing.disk.file? table.file = some f → f.pageSize = 9 := by
    rintro f hf
    cases hf
    rfl
  have hdisk : ((Service.start backing 2 id).after peeking).engine.disk = backing.disk := by cbv
  have hhost : ((Service.start backing 2 id).after peeking).engine.host = .plain := by cbv
  obtain ⟨hext, hc⟩ := Disk.Named.reopen roomy_backing.named countable_backing hsize (by decide)
  have hpeeking : ((Service.start backing 2 id).after peeking).Unfailing :=
    (Service.Unfailing.start roomy_backing countable_backing 2 id).after
      ⟨Service.not_hasBlocked_of_nil rfl 1, trivial⟩ (by simp [peeking, Action.KeepsNames])
      (hdisk ▸ countable_backing)
  have hpaired : paired.Roomy := roomy_backing.add (f := ⟨table.file, 9, _, 0⟩) (by decide)
    (by decide) _
  have hlonger : ((Service.start backing 2 id).after peeking).engine.disk.Extends paired.disk := by
    rw [hdisk]
    exact hext
  exact hpeeking.outside hpaired hc hlonger hhost.symm

/-- A row of the right types finds no room if the page appended for it has been taken over, or if a
page was read before its table was opened again. -/
theorem roomless :
    (outrun.Unfailing ∧ outrun.Allows retrying ∧
      outrun.Inserting 3 table ⟨[.int 9], none⟩ retrying (some later) ∧
      (outrun.perform retrying).2.engine.disk.Countable ∧
      (outrun.perform retrying).1 = some (.error (.pageFull later))) ∧
    outdated.Unfailing ∧ outdated.Allows pairing ∧
      outdated.Inserting 1 pairs ⟨[.int 1, .int 2], none⟩ pairing none ∧
      (outdated.perform pairing).2.engine.disk.Countable ∧
      (outdated.perform pairing).1 = some (.error .schemaMismatch) :=
  ⟨⟨unfailing_outrun, allows_retrying, inserting_retrying,
      Disk.countable_of_sizes [(9, 18)] (by cbv) (by decide), by cbv⟩,
    unfailing_outdated, of_decide_eq_true (p := ¬ outdated.HasBlocked 1) (by cbv),
    .asks (by cbv) rfl, Disk.countable_of_sizes [(9, 9)] (by cbv) (by decide), by cbv⟩

end Sample

end RowStore
