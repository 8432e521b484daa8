import RowStore.Proofs.Service.FirstFit
import RowStore.Proofs.Service.Legible
import RowStore.Proofs.Service.Scan

/-!
# Scans are exact

A cursor that is opened and asked until it has come to the end has handed out the rows of the pages
that its table had when it was opened, each row once, page after page and slot after slot. Others
may act in between as they like. They do not change a page that the cursor has read, as its
transaction holds it from then on, so the rows are those that the pages have when the last of them
has been read, and still have at the end.

Pages are only required to decode when the cursor is opened. That they still do when they are read
is `Service.Sound.legible_after`.
-/

namespace RowStore

open Engine

/-- The table has so many pages. They can be read, and all their occupied slots decode. -/
structure Engine.Decodes (e : Engine) (t : Table) (n : Nat) : Prop where
  /-- It is the table of the catalog. -/
  table : e.catalog.table t.id = .ok t
  /-- It has so many pages. -/
  count : e.disk.pageCount t = .ok n
  /-- Each of them can be read from the table's file. -/
  read : ∀ k < n, ∃ p, e.stored ⟨t.id, k⟩ = some p
  /-- Each of them decodes. -/
  legible : ∀ k < n, e.Legible ⟨t.id, k⟩

/-- Pages that the table does not have are legible for want of slots. -/
theorem Engine.Decodes.legible_all {e : Engine} {t : Table} {n : Nat} (h : e.Decodes t n)
    (hc : e.Coherent) (k : Nat) : e.Legible ⟨t.id, k⟩ := by
  by_cases hk : k < n
  · exact h.legible k hk
  · have hstored : e.stored ⟨t.id, k⟩ = none := by
      rw [Option.eq_none_iff_forall_ne_some]
      intro p hp
      have ht : e.catalog.table (PageId.mk t.id k).table = .ok t := h.table
      exact hk (hc.toWellFormed.number_lt ht hp h.count)
    rintro p (hp | hp)
    · cases (hc.seen_eq_none_iff.2 hstored).symm.trans hp
    · cases hstored.symm.trans hp

namespace Service

variable {s : Service} {a : Action} {as bs : List Action} {txn : TxnId} {o c d : Cursor}
  {xs : List Item} {count n n' : Nat}

/-! ## What a transaction gets -/

/-- What a transaction has got that has asked the cursor `o` for so many rows in all: these answers,
and the cursor `d`. -/
structure Scans (s : Service) (o : Cursor) (as : List Action) (count : Nat) (xs : List Item)
    (d : Cursor) : Prop where
  /-- It has got one answer for each row that it has asked for. -/
  answered : xs.length = count
  /-- The rows handed out, and then those buffered, are the rows of the pages read, as these are
  now: no failure has cost a row, or made one come twice. -/
  shown : (s.after as).engine.Shows o.table.id d.next (rowsIn xs ++ d.buffered)
  /-- A failure is one that may be over the next time. -/
  failed : ∀ {err}, .error err ∈ xs → o.Setback err
  /-- When the end has come, the rows handed out are those of all pages, as these are now. -/
  complete : .ok none ∈ xs → (s.after as).engine.Shows o.table.id o.pages (rowsIn xs)
  /-- So they have been ever since the last page was read. -/
  settled : .ok none ∈ xs → ∀ {bs cs m ys d'}, as = bs ++ cs → Asks o.txn s o bs m ys d' →
    d'.next = o.pages → (s.after bs).engine.Shows o.table.id o.pages (rowsIn xs)
  /-- After the end nothing but the end is answered. -/
  fused : xs.Pairwise fun x y => x = .ok none → y = .ok none
  /-- It is answered at once, however often the transaction asks. -/
  ended : .ok none ∈ xs → ∀ m, (s.after as).issue (.take d m) =
    (some (.ok (.items (List.replicate m (.ok none)) d)), s.after as)

/-- A cursor that is opened now covers so many pages, and scans them exactly. -/
structure ScansExactly (s : Service) (c : Cursor) (n : Nat) : Prop where
  /-- The cursor can be opened, and is before the first row. -/
  opens : s.engine.openCursor c = .ok (c.openAt n)
  /-- Whatever others do, it hands out the rows of these pages. -/
  scans : ∀ {as count xs d}, s.Runs (OnlyReads c.txn) as →
    Asks c.txn s (c.openAt n) as count xs d → s.Scans (c.openAt n) as count xs d

/-! ## One action -/

/-- No action changes the tables. -/
theorem catalog_perform (h : s.Orderly) (ha : s.Allows a) :
    (s.perform a).2.engine.catalog = s.engine.catalog := by
  refine perform_keeps (p := fun e => e.catalog = s.engine.catalog) h ha (fun _ hp => hp)
    (fun _ hp => hp) (fun hp hm => hm.stays.catalog.trans hp) (fun hp hf => ?_) rfl
  cases hf <;> exact hp

/-- Nor does a run. -/
theorem Orderly.catalog_after (h : s.Orderly) (hr : s.Runs PermitsWrites as) :
    (s.after as).engine.catalog = s.engine.catalog := by
  induction as generalizing s with
  | nil => rfl
  | cons a as ih =>
    obtain ⟨ha, hr⟩ := hr
    exact (ih (h.perform ha.allows) hr).trans (catalog_perform h ha.allows)

/-! ## Scans -/

/-- A cursor at its end needs no page. -/
theorem issue_take_of_end (hopen : d.isOpen = true) (hb : d.buffered = []) (hn : d.next = d.pages)
    (m : Nat) :
    s.issue (.take d m) = (some (.ok (.items (List.replicate m (.ok none)) d)), s) := by
  obtain ⟨table, txn, pages, next, buffered, isOpen⟩ := d
  obtain rfl : isOpen = true := hopen
  obtain rfl : buffered = [] := hb
  obtain rfl : next = pages := hn
  cases m with
  | zero => rfl
  | succ m =>
    simp [issue, Request.start, Cursor.serve]

/-- All that a cursor has come to is known from how far it has come. -/
theorem Sound.scans (h : s.Sound) (ho : s.Orderly) (hd : s.engine.Decodes c.table n)
    (hr : s.Runs (OnlyReads c.txn) as) (ha : Asks c.txn s (c.openAt n) as count xs d) :
    s.Scans (c.openAt n) as count xs d := by
  have hstart := h.tracks_openAt hd.read
  obtain ⟨ht, hlen⟩ := ha.tracks (o := c.openAt n) h ho hr hstart
  rw [List.nil_append] at ht
  have hend : .ok none ∈ xs → d.buffered = [] ∧ d.next = n := by
    intro hx
    obtain ⟨hb, hn⟩ := ht.explained _ hx
    exact ⟨hb, hn.trans ht.pages⟩
  have hcomplete : .ok none ∈ xs → (s.after as).engine.Shows c.table.id n (rowsIn xs) := by
    intro hx
    obtain ⟨hb, hn⟩ := hend hx
    have hs := ht.shown
    rwa [hb, hn, List.append_nil] at hs
  exact
    { answered := hlen
      shown := ht.shown
      failed := fun {err} hx => by
        rcases ht.explained _ hx with hset | hstuck
        · exact hset
        · obtain ⟨p, hp, herr⟩ := hstuck.garbled
          rw [ht.page_eq] at hp
          have hleg := h.legible_after ho hr.permitted
            (hd.legible_all h.engine.toCoherent d.next) (.inl hp)
          exact absurd herr (hleg.rows_ne_error err)
      complete := hcomplete
      settled := fun hx {bs cs m ys d'} has hasks hn => by
        subst has
        obtain ⟨hr₁, hr₂⟩ := runs_append.1 hr
        obtain ⟨ht', -⟩ := hasks.tracks (o := c.openAt n) h ho hr₁ hstart
        have hk := (h.after hr₁.permitted).keeps_after (ho.after hr₁.permitted) hr₂
        have hshown := hcomplete hx
        rw [after_append] at hshown
        refine hshown.congr fun {k p} hlt hp => ?_
        obtain ⟨q, hq⟩ := ht'.present hlt
        have hkept := hk.seen (ht'.held (hn.symm ▸ hlt)) hq
        rw [← Option.some.inj (hkept.symm.trans hp)]
        exact hq
      fused := ht.order.imp fun {x y} hxy hx => by
        subst hx
        exact hxy
      ended := fun hx m =>
        issue_take_of_end ht.isOpen (hend hx).1 ((hend hx).2.trans ht.pages.symm) m }

theorem Sound.scansExactly (h : s.Sound) (ho : s.Orderly) (hd : s.engine.Decodes c.table n) :
    s.ScansExactly c n where
  opens := map_eq_ok.2 ⟨n, hd.count, rfl⟩
  scans hr ha := h.scans ho hd hr ha

/-- A table that decodes goes on doing so, and the pages that it grows by decode as well. -/
theorem Sound.decodes_after (h : s.Sound) (ho : s.Orderly) {t : Table}
    (hd : s.engine.Decodes t n) (hr : s.Runs PermitsWrites as)
    (hn : (s.after as).engine.disk.pageCount t = .ok n')
    (hread : ∀ k < n', ∃ p, (s.after as).engine.stored ⟨t.id, k⟩ = some p) :
    (s.after as).engine.Decodes t n' where
  table := by
    rw [ho.catalog_after hr]
    exact hd.table
  count := hn
  read := hread
  legible k _ := h.legible_after ho hr (hd.legible_all h.engine.toCoherent k)

/-- Scans are exact, in every state that a run leads to that starts with an empty pool, of all
tables whose pages can be read and decode. They are exact again when the cursor is opened again. -/
theorem Runs.scans_exactly {backing : Backing} (hb : backing.WellFormed) {capacity : Nat}
    {choices : Nat → Nat} {before : List Action}
    (h : (start backing capacity choices).Runs PermitsWrites before)
    (hs : (start backing capacity choices).after before = s)
    (hd : s.engine.Decodes c.table n) :
    s.ScansExactly c n ∧ ∀ {as count xs d n'}, s.Runs (OnlyReads c.txn) as →
      Asks c.txn s (c.openAt n) as count xs d →
      (s.after as).engine.disk.pageCount c.table = .ok n' →
      (∀ k < n', ∃ p, (s.after as).engine.stored ⟨c.table.id, k⟩ = some p) →
        (s.after as).ScansExactly d n' := by
  have hsound : s.Sound := hs ▸ (Sound.start hb capacity choices).after h
  have horderly : s.Orderly := hs ▸ (Orderly.start backing capacity choices).after h
  refine ⟨hsound.scansExactly horderly hd, fun {as count xs d n'} hr ha hn hread => ?_⟩
  have hd' := hsound.decodes_after horderly hd hr.permitted hn hread
  have htable : d.table = c.table :=
    (ha.tracks (o := c.openAt n) hsound horderly hr (hsound.tracks_openAt hd.read)).1.table
  exact (hsound.after hr.permitted).scansExactly (horderly.after hr.permitted) (htable ▸ hd')

end Service

namespace Sample

/-- The cursor of the transaction that scans. -/
def scanning : Cursor := .new table 2

/-- The cursor has handed out the first row. -/
def scanning₁ : Cursor :=
  { scanning.openAt 3 with next := 1, buffered := [⟨[.int 6], some ⟨page, 1⟩⟩] }

/-- The cursor has handed out the rows of the first page. -/
def scanning₂ : Cursor := { scanning.openAt 3 with next := 1 }

/-- The cursor is at the end. -/
def scanning₃ : Cursor := { scanning.openAt 3 with next := 3 }

/-- A transaction asks for rows. While it has no more than the first one, another transaction
deletes the only row of the last page. There is room for one page, so that the second page cannot be
read before the other transaction has committed. -/
def interrupting : List Action :=
  [.issue (.take (scanning.openAt 3) 1), .issue (.delete 3 (some ⟨⟨table.id, 2⟩, 0⟩)),
    .issue (.take scanning₁ 2), .commit 3, .issue (.take scanning₂ 4)]

/-- The answers that the transaction gets. -/
def interrupted : List Item :=
  [.ok (some ⟨[.int 5], some ⟨page, 0⟩⟩), .ok (some ⟨[.int 6], some ⟨page, 1⟩⟩),
    .error (.allPagesDirty 1), .ok (some ⟨[.int 7], some ⟨⟨table.id, 1⟩, 0⟩⟩),
    .ok (some ⟨[.int 8], some ⟨⟨table.id, 1⟩, 1⟩⟩), .ok none, .ok none]

theorem asks_interrupting :
    Service.Asks 2 glanced (scanning.openAt 3) interrupting 7 interrupted scanning₃ := by
  have h₁ : Service.Carries 2 (.items (interrupted.take 1) scanning₁) glanced
      [.issue (.take (scanning.openAt 3) 1)] := .succeeds rfl (by cbv)
  have h₂ : Service.Carries 2 (.items ((interrupted.drop 1).take 2) scanning₂)
      (glanced.after (interrupting.take 2)) [.issue (.take scanning₁ 2)] := .succeeds rfl (by cbv)
  have h₃ : Service.Carries 2 (.items (interrupted.drop 3) scanning₃)
      (glanced.after (interrupting.take 4)) [.issue (.take scanning₂ 4)] := .succeeds rfl (by cbv)
  exact .take h₁ (.other (.take h₂ (.other (.take h₃ .nil))))

theorem decodes_glanced : glanced.engine.Decodes table 3 := by
  have hpages : ∀ k < 3, ∃ p rows, glanced.engine.seen ⟨table.id, k⟩ = some p ∧
      glanced.engine.stored ⟨table.id, k⟩ = some p ∧ p.rows = .ok rows := by
    intro k hk
    obtain rfl | rfl | rfl : k = 0 ∨ k = 1 ∨ k = 2 := by omega
    · exact ⟨.ofBytes page table.schema [3, 0, 0, 0, 5, 0, 0, 0, 6],
        [⟨[.int 5], some ⟨page, 0⟩⟩, ⟨[.int 6], some ⟨page, 1⟩⟩], by cbv, by cbv, by cbv⟩
    · exact ⟨.ofBytes ⟨table.id, 1⟩ table.schema [3, 0, 0, 0, 7, 0, 0, 0, 8],
        [⟨[.int 7], some ⟨⟨table.id, 1⟩, 0⟩⟩, ⟨[.int 8], some ⟨⟨table.id, 1⟩, 1⟩⟩],
        by cbv, by cbv, by cbv⟩
    · exact ⟨.ofBytes ⟨table.id, 2⟩ table.schema [1, 0, 0, 0, 9, 0, 0, 0, 0],
        [⟨[.int 9], some ⟨⟨table.id, 2⟩, 0⟩⟩], by cbv, by cbv, by cbv⟩
  refine ⟨by cbv, by cbv, fun k hk => ?_, fun k hk => ?_⟩
  · obtain ⟨p, rows, -, hp, -⟩ := hpages k hk
    exact ⟨p, hp⟩
  · obtain ⟨p, rows, hseen, hstored, hr⟩ := hpages k hk
    rintro q (hq | hq)
    · rw [← Option.some.inj (hseen.symm.trans hq)]
      exact Page.legible_of_rows hr
    · rw [← Option.some.inj (hstored.symm.trans hq)]
      exact Page.legible_of_rows hr

theorem runs_interrupting : glanced.Runs (Service.OnlyReads 2) interrupting :=
  ⟨⟨.inl ⟨⟨trivial, of_decide_eq_true (by cbv)⟩, of_decide_eq_true (by cbv)⟩, fun _ => trivial⟩,
    ⟨.inl ⟨⟨trivial, of_decide_eq_true (by cbv)⟩, of_decide_eq_true (by cbv)⟩, by rintro ⟨⟩⟩,
    ⟨.inl ⟨⟨trivial, of_decide_eq_true (by cbv)⟩, of_decide_eq_true (by cbv)⟩, fun _ => trivial⟩,
    ⟨.inl ⟨of_decide_eq_true (by cbv), of_decide_eq_true (by cbv)⟩, by rintro ⟨⟩⟩,
    ⟨.inl ⟨⟨trivial, of_decide_eq_true (by cbv)⟩, of_decide_eq_true (by cbv)⟩, fun _ => trivial⟩,
    trivial⟩

/-- The scan has met a failure, and is exact all the same: the rows handed out are those of the
three pages as they are at the end. It is exact again if the cursor is opened again. -/
theorem scans_exactly_interrupted : crowded.WellFormed ∧
    (Service.start crowded 1 id).Runs Service.PermitsWrites
      [.issue (.fetch 1 page .read false)] ∧
    glanced.engine.Decodes table 3 ∧
    glanced.Runs (Service.OnlyReads 2) interrupting ∧
    Service.Asks 2 glanced (scanning.openAt 3) interrupting 7 interrupted scanning₃ ∧
    glanced.Scans (scanning.openAt 3) interrupting 7 interrupted scanning₃ ∧
    rowsIn interrupted = [⟨[.int 5], some ⟨page, 0⟩⟩, ⟨[.int 6], some ⟨page, 1⟩⟩,
      ⟨[.int 7], some ⟨⟨table.id, 1⟩, 0⟩⟩, ⟨[.int 8], some ⟨⟨table.id, 1⟩, 1⟩⟩] ∧
    (glanced.after interrupting).ScansExactly scanning₃ 3 := by
  obtain ⟨hscans, hagain⟩ := Service.Runs.scans_exactly (c := scanning) wellFormed_crowded
    runs_glancing rfl decodes_glanced
  refine ⟨wellFormed_crowded, runs_glancing, decodes_glanced, runs_interrupting,
    asks_interrupting, hscans.scans runs_interrupting asks_interrupting, rfl,
    hagain runs_interrupting asks_interrupting (by cbv) fun k hk => ?_⟩
  obtain rfl | rfl | rfl : k = 0 ∨ k = 1 ∨ k = 2 := by omega
  · exact ⟨.ofBytes page table.schema [3, 0, 0, 0, 5, 0, 0, 0, 6], by cbv⟩
  · exact ⟨.ofBytes ⟨table.id, 1⟩ table.schema [3, 0, 0, 0, 7, 0, 0, 0, 8], by cbv⟩
  · exact ⟨.ofBytes ⟨table.id, 2⟩ table.schema [0, 0, 0, 0, 9, 0, 0, 0, 0], by cbv⟩

end Sample

end RowStore
