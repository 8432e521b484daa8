import RowStore.Proofs.Service.Repeatable
import RowStore.Proofs.Service.Scan

/-!
# How scans end

A cursor that meets no setback, of a lock that is refused or of a pool without room, hands out rows
as long as there are any, and never more than the pages have occupied slots. What then? If all its
pages decode it comes to the end and stays there. But a page with a slot that does not decode it
never passes: the cursor moves on to the next page only when it has got the rows of this one, so it
answers with the same failure however often it is asked. `Service.Runs.comes_to_rest` says this of
every run and of all that a file can hold, and `Sample.never_ends` has the smallest file of which a
cursor never comes to the end.
-/

namespace RowStore

open Engine

/-- Rows come first in a list of answers, and then something else, if anything. -/
theorem exists_handed (xs : List Item) : ∃ rows ys, xs = handed rows ++ ys ∧
    ∀ {y zs}, ys = y :: zs → ∀ row, y ≠ .ok (some row) := by
  induction xs with
  | nil => exact ⟨[], [], rfl, nofun⟩
  | cons x xs ih =>
    rcases x with err | _ | row
    case ok.some =>
      obtain ⟨rows, ys, rfl, hy⟩ := ih
      exact ⟨row :: rows, ys, rfl, hy⟩
    all_goals
      refine ⟨[], _, rfl, ?_⟩
      rintro y zs ⟨⟩ row ⟨⟩

@[simp] theorem length_handed (rows : List Row) : (handed rows).length = rows.length :=
  List.length_map ..

namespace Engine

variable {e : Engine} {id : TableId} {n k : Nat} {rows : List Row} {o d : Cursor} {xs : List Item}

/-! ## Occupied slots -/

/-- How many slots of the first pages of the table are occupied, in the pages as transactions see
them. -/
def occupiedSlots (e : Engine) (id : TableId) : Nat → Nat
  | 0 => 0
  | n + 1 => e.occupiedSlots id n + ((e.seen ⟨id, n⟩).map (·.occupied.length)).getD 0

theorem occupiedSlots_mono (e : Engine) (id : TableId) (h : k ≤ n) :
    e.occupiedSlots id k ≤ e.occupiedSlots id n := by
  induction h with
  | refl => exact Nat.le_refl _
  | step _ ih => exact Nat.le_trans ih (Nat.le_add_right ..)

/-- The pages have one row for each occupied slot. -/
theorem Shows.length_eq (h : e.Shows id n rows) : rows.length = e.occupiedSlots id n := by
  induction h with
  | none => rfl
  | page _ hp _ hl ih =>
    rw [List.length_append, ih, hl.length_eq, occupiedSlots, hp]
    rfl

/-- Pages that show their rows decode. -/
theorem Shows.rows_eq (h : e.Shows id n rows) (hk : k < n) :
    ∃ p rows, e.seen ⟨id, k⟩ = some p ∧ p.rows = .ok rows := by
  induction h with
  | none => cases hk
  | page _ hp _ hl ih =>
    rcases Nat.lt_succ_iff_lt_or_eq.1 hk with hk | rfl
    · exact ih hk
    · exact ⟨_, _, hp, Page.rows_eq_ok_iff.2 hl⟩

/-! ## Coming to rest -/

/-- What a cursor over the first pages of the table answers for good once it has handed out these
rows. -/
inductive Rests (e : Engine) (id : TableId) (n : Nat) (rows : List Row) : Item → Prop
  /-- It has handed out the rows of all pages, and answers with the end. -/
  | ended (h : e.Shows id n rows) : Rests e id n rows (.ok none)
  /-- It has handed out the rows of the pages before one that does not decode, and answers with the
  failure of this one. -/
  | stuck {k : Nat} {p : Page} {err : Error} (hk : k < n) (h : e.Shows id k rows)
    (hp : e.seen ⟨id, k⟩ = some p) (hr : p.rows = .error err) : Rests e id n rows (.error err)

/-- What the answers are of a cursor that meets no setback. -/
structure ComesToRest (e : Engine) (o : Cursor) (xs : List Item) : Prop where
  /-- It hands out rows, and then gives the same answer over and over. -/
  shape : ∃ rows m x, xs = handed rows ++ List.replicate m x ∧
    (0 < m → e.Rests o.table.id o.pages rows x)
  /-- It hands out at most one row for each occupied slot. -/
  bounded : (rowsIn xs).length ≤ e.occupiedSlots o.table.id o.pages
  /-- When it has been asked more often than that, it has come to the end if all its pages decode.
  Otherwise it has not, and never will. -/
  ends_iff : e.occupiedSlots o.table.id o.pages < xs.length →
    (.ok none ∈ xs ↔ ∀ k < o.pages, ∃ p rows, e.seen ⟨o.table.id, k⟩ = some p ∧ p.rows = .ok rows)

theorem Rests.eq_none_iff {x : Item} (h : e.Rests id n rows x) : x = .ok none ↔
    ∀ k < n, ∃ p rows, e.seen ⟨id, k⟩ = some p ∧ p.rows = .ok rows := by
  cases h with
  | ended h => exact ⟨fun _ _ hk => h.rows_eq hk, fun _ => rfl⟩
  | stuck hk _ hp hr =>
    constructor
    · rintro ⟨⟩
    · intro hall
      obtain ⟨q, rows, hq, hrows⟩ := hall _ hk
      obtain rfl := Option.some.inj (hp.symm.trans hq)
      cases hr.symm.trans hrows

/-- An answer that is not a row is repeated from then on, unless it tells of a setback. -/
theorem Tracks.rests {x : Item} {zs : List Item} (h : e.Tracks o d (handed rows ++ x :: zs))
    (hx : ∀ row, x ≠ .ok (some row))
    (hs : ∀ err, .error err ∈ handed rows ++ x :: zs → ¬ o.Setback err) :
    (∀ z ∈ zs, z = x) ∧ e.Rests o.table.id o.pages rows x := by
  have hmem : ∀ z ∈ x :: zs, z ∈ handed rows ++ x :: zs := fun z => List.mem_append_right _
  have hfirst := h.explained x (hmem x List.mem_cons_self)
  have hnext : ∀ z ∈ zs, Item.Precedes o x z :=
    (List.pairwise_cons.1 (List.pairwise_append.1 h.order).2.1).1
  have hshown : (∀ z ∈ zs, z = x) → d.buffered = [] → rowsIn [x] = [] →
      e.Shows o.table.id d.next rows := by
    intro hsame hb hempty
    have hrows : rowsIn (x :: zs) = [] := by
      rw [rowsIn, List.filterMap_eq_nil_iff]
      intro z hz
      have hz : z = x := by
        rcases List.mem_cons.1 hz with hz | hz
        · exact hz
        · exact hsame z hz
      rw [hz]
      exact List.filterMap_eq_nil_iff.1 hempty x (List.mem_singleton_self x)
    have hs := h.shown
    rwa [hb, List.append_nil, rowsIn_append, rowsIn_handed, hrows, List.append_nil] at hs
  rcases x with err | _ | row
  case ok.none =>
    obtain ⟨hb, hn⟩ := hfirst
    refine ⟨hnext, .ended ?_⟩
    rw [← h.pages, ← hn]
    exact hshown hnext hb rfl
  case ok.some => exact absurd rfl (hx row)
  case error =>
    have hstuck : e.Stuck d err := hfirst.resolve_left (hs err (hmem _ List.mem_cons_self))
    obtain ⟨p, hp, hr⟩ := hstuck.garbled
    have hsame : ∀ z ∈ zs, z = .error err := by
      intro z hz
      have hz' := hmem z (List.mem_cons_of_mem _ hz)
      obtain ⟨err', rfl⟩ := (hnext z hz).resolve_left (hs err (hmem _ List.mem_cons_self))
      obtain ⟨q, hq, hr'⟩ := ((h.explained _ hz').resolve_left (hs err' hz')).garbled
      obtain rfl := Option.some.inj (hp.symm.trans hq)
      rw [Except.error.inj (hr.symm.trans hr')]
    refine ⟨hsame, .stuck (h.pages ▸ hstuck.lt) (hshown hsame hstuck.buffered rfl) ?_ hr⟩
    rw [← h.page_eq]
    exact hp

/-- A cursor that meets no setback comes to rest. -/
theorem Tracks.comesToRest (h : e.Tracks o d xs)
    (hs : ∀ err, .error err ∈ xs → ¬ o.Setback err) : e.ComesToRest o xs := by
  have hbounded : (rowsIn xs).length ≤ e.occupiedSlots o.table.id o.pages := by
    have hl := h.shown.length_eq
    rw [List.length_append] at hl
    have hmono := e.occupiedSlots_mono o.table.id h.next_le
    omega
  obtain ⟨rows, ys, rfl, hy⟩ := exists_handed xs
  cases ys with
  | nil =>
    rw [List.append_nil] at hbounded ⊢
    rw [rowsIn_handed] at hbounded
    refine ⟨⟨rows, 0, .ok none, (List.append_nil _).symm, nofun⟩, ?_, fun hlt => ?_⟩
    · rwa [rowsIn_handed]
    · rw [length_handed] at hlt
      exact absurd hbounded (Nat.not_le.2 hlt)
  | cons x zs =>
    obtain ⟨hsame, hrests⟩ := h.rests (hy rfl) hs
    have hrepl : x :: zs = List.replicate (zs.length + 1) x :=
      List.eq_replicate_iff.2 ⟨rfl, List.forall_mem_cons.2 ⟨rfl, hsame⟩⟩
    refine ⟨⟨rows, zs.length + 1, x, by rw [hrepl], fun _ => hrests⟩, hbounded, fun _ => ?_⟩
    rw [← hrests.eq_none_iff]
    constructor
    · intro hmem
      rcases List.mem_append.1 hmem with hmem | hmem
      · obtain ⟨row, -, hrow⟩ := List.mem_map.1 hmem
        cases hrow
      · rw [hrepl] at hmem
        exact (List.eq_of_mem_replicate hmem).symm
    · rintro rfl
      exact List.mem_append_right _ List.mem_cons_self

end Engine

namespace Service

variable {s : Service} {as : List Action} {c d o : Cursor} {xs : List Item} {count n : Nat}

/-- A transaction that asks a cursor for rows has to wait for a lock, or gets as many answers as it
has asked for. -/
theorem Sound.answers_issue (h : s.Sound) (ho : s.Orderly) (hb : ¬ s.HasBlocked d.txn)
    (ht : s.engine.Tracks o d xs) (m : Nat) :
    ((s.issue (.take d m)).1 = none ∧ (s.issue (.take d m)).2.HasBlocked d.txn) ∨
      ∃ ys d', (s.issue (.take d m)).1 = some (.ok (.items ys d')) ∧ ys.length = m := by
  obtain ⟨result, hd⟩ := h.delivers_issue ho hb ht m
  have hy := hd.yields
  cases hy with
  | answers _ hl => exact .inr ⟨_, _, hd.outcome, hl⟩
  | waits ht' => exact .inl ⟨hd.outcome, _, hd.blocked _ rfl, ht'.txn.trans ht.txn.symm⟩

/-- However long a transaction goes on asking a cursor that it has opened, it gets one answer for
each row asked for, and as long as it meets no setback the cursor comes to rest. When it has waited
for nothing, it has to wait for a lock next, or gets its answers at once. -/
theorem Runs.comes_to_rest {backing : Backing} (hb : backing.WellFormed) {capacity : Nat}
    {choices : Nat → Nat} {before : List Action}
    (h : (start backing capacity choices).Runs PermitsWrites before)
    (hs : (start backing capacity choices).after before = s)
    (ho : s.engine.openCursor c = .ok o)
    (hread : ∀ k < o.pages, ∃ p, s.engine.stored ⟨o.table.id, k⟩ = some p)
    (hr : s.Runs (OnlyReads o.txn) as) (ha : Asks o.txn s o as count xs d) :
    xs.length = count ∧
      ((∀ err, .error err ∈ xs → ¬ o.Setback err) → (s.after as).engine.ComesToRest o xs) ∧
      (¬ (s.after as).HasBlocked d.txn → ∀ m,
        (((s.after as).issue (.take d m)).1 = none ∧
          ((s.after as).issue (.take d m)).2.HasBlocked d.txn) ∨
        ∃ ys d', ((s.after as).issue (.take d m)).1 = some (.ok (.items ys d')) ∧
          ys.length = m) := by
  have hsound : s.Sound := hs ▸ (Sound.start hb capacity choices).after h
  have horderly : s.Orderly := hs ▸ (Orderly.start backing capacity choices).after h
  obtain ⟨n, -, rfl⟩ := map_eq_ok.1 ho
  obtain ⟨ht, hl⟩ := ha.tracks hsound horderly hr (hsound.tracks_openAt hread)
  rw [List.nil_append] at ht
  exact ⟨hl, ht.comesToRest, fun hi m =>
    (hsound.after hr.permitted).answers_issue (horderly.after hr.permitted) hi ht m⟩

end Service

namespace Sample

/-- A table of texts. -/
def texts : Table := ⟨.ofFile "texts", "texts", .ofTypes [.text]⟩

/-- The table's file has two pages with room for one row each. The text on the first page is an x,
and that on the second is no text. -/
def garbled : Backing where
  catalog := Catalog.empty.add texts texts.file
  disk := Disk.empty.put ⟨texts.file, 133, .ofBytes ([1, 0, 0, 0, 1, 120] ++ Bytes.zeros 127 ++
    [1, 0, 0, 0, 1, 255] ++ Bytes.zeros 127), 0⟩
  journal := .empty
  host := .plain

theorem wellFormed_garbled : garbled.WellFormed :=
  (Backing.wellFormed_empty .empty .plain).add (f := ⟨texts.file, 133, _, 0⟩) (by decide)
    texts.schema _

/-- The cursor of the transaction that reads the table. -/
def reader : Cursor := (Cursor.new texts 1).openAt 2

/-- The cursor has handed out the row of the first page. -/
def reader₁ : Cursor := { reader with next := 1 }

/-- The row of the first page. -/
def legibleRow : Row := ⟨[.text "x"], some ⟨⟨texts.id, 0⟩, 0⟩⟩

/-- The transaction asks for two rows. -/
def stumbling : List Action := [.issue (.take reader 2)]

/-- It gets the row of the first page, and the failure of the second. -/
def stumbled : List Item := [.ok (some legibleRow), .error .invalidText]

theorem asks_stumbling :
    Service.Asks 1 (Service.start garbled 1 id) reader stumbling 2 stumbled reader₁ := by
  have h : Service.Carries 1 (.items stumbled reader₁) (Service.start garbled 1 id) stumbling :=
    .succeeds rfl (by decide +kernel)
  exact .take h .nil

theorem readable_garbled : ∀ k < 2, ∃ p,
    (Service.start garbled 1 id).engine.stored ⟨texts.id, k⟩ = some p := by
  have h : ∀ k < 2, ((Service.start garbled 1 id).engine.stored ⟨texts.id, k⟩).isSome = true := by
    decide +kernel
  exact fun k hk => Option.isSome_iff_exists.1 (h k hk)

theorem runs_stumbling : (Service.start garbled 1 id).Runs (Service.OnlyReads 1) stumbling :=
  ⟨⟨.inl ⟨⟨trivial, by decide +kernel⟩, by decide +kernel⟩, fun _ => trivial⟩, trivial⟩

/-- The transaction has got the one row that decodes, and has met no setback. So its cursor comes to
rest, and it has not come to the end. -/
theorem comes_to_rest_stumbling : garbled.WellFormed ∧
    (Service.start garbled 1 id).Runs Service.PermitsWrites [] ∧
    (Service.start garbled 1 id).engine.openCursor (.new texts 1) = .ok reader ∧
    (Service.start garbled 1 id).Runs (Service.OnlyReads 1) stumbling ∧
    Service.Asks 1 (Service.start garbled 1 id) reader stumbling 2 stumbled reader₁ ∧
    ((Service.start garbled 1 id).after stumbling).engine.ComesToRest reader stumbled := by
  have hruns : (Service.start garbled 1 id).Runs Service.PermitsWrites [] := trivial
  have hopen : (Service.start garbled 1 id).engine.openCursor (.new texts 1) = .ok reader := by
    decide +kernel
  obtain ⟨-, hrest, -⟩ := Service.Runs.comes_to_rest wellFormed_garbled hruns rfl hopen
    readable_garbled runs_stumbling asks_stumbling
  refine ⟨wellFormed_garbled, hruns, hopen, runs_stumbling, asks_stumbling,
    hrest fun err hmem => ?_⟩
  obtain rfl : err = .invalidText := by simpa [stumbled] using hmem
  rintro ⟨⟩

/-- A transaction that reads the table alone has been handed out the one row that decodes. From then
on, however often it asks, and whatever others do, it gets nothing but failures: the end never
comes. -/
theorem never_ends : garbled.WellFormed ∧
    (Service.start garbled 1 id).engine.openCursor (.new texts 1) = .ok reader ∧
    Service.Asks 1 (Service.start garbled 1 id) reader stumbling 2 stumbled reader₁ ∧
    ∀ {as count xs d},
      ((Service.start garbled 1 id).after stumbling).Runs (Service.OnlyReads 1) as →
      Service.Asks 1 ((Service.start garbled 1 id).after stumbling) reader₁ as count xs d →
      xs.length = count ∧ ∀ x ∈ xs, ∃ err, x = .error err := by
  have hopen : (Service.start garbled 1 id).engine.openCursor (.new texts 1) = .ok reader := by
    decide +kernel
  refine ⟨wellFormed_garbled, hopen, asks_stumbling, fun {as count xs d} hr ha => ?_⟩
  have hsound : (Service.start garbled 1 id).Sound := .start wellFormed_garbled 1 id
  have horderly : (Service.start garbled 1 id).Orderly := .start garbled 1 id
  have hper := runs_stumbling.permitted
  obtain ⟨ht, -⟩ := asks_stumbling.tracks (o := reader) hsound horderly runs_stumbling
    (hsound.tracks_openAt (c := .new texts 1) readable_garbled)
  obtain ⟨ht', hl⟩ := ha.tracks (o := reader) (hsound.after hper) (horderly.after hper) hr ht
  refine ⟨hl, fun x hx => ?_⟩
  have hfail : Item.Precedes reader (.error .invalidText) x :=
    (List.pairwise_append.1 ht'.order).2.2 _ (by simp [stumbled]) x hx
  exact hfail.resolve_left (by rintro ⟨⟩)

end Sample

end RowStore
