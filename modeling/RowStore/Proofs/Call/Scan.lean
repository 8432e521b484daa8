import RowStore.Proofs.Call.Read
import RowStore.Proofs.Page.Rows
import RowStore.Proofs.Pool.Attempt

/-!
# Cursors that are asked for rows

A cursor is asked for rows, a number of them at a time. It hands out those of one page after the
other, and whenever it needs another page it may have to wait for the lock, or fail. `Engine.Tracks`
says how far it has come: what it has handed out and what it has buffered are together the rows of
the pages that it has read, as these pages are now. So a failure costs no row, and none comes twice.

Nothing that the pages hold is assumed. A page with a slot that does not decode is not passed: the
cursor is `Stuck` there, and answers with the same failure from then on.
-/

namespace RowStore

open Engine

/-! ## Answers -/

/-- The answers by which rows are handed out. -/
def handed (rows : List Row) : List Item := rows.map fun row => .ok (some row)

/-- The rows among the answers of a cursor. -/
def rowsIn (xs : List Item) : List Row := xs.filterMap fun
  | .ok row => row
  | .error _ => none

@[simp] theorem rowsIn_append (xs ys : List Item) : rowsIn (xs ++ ys) = rowsIn xs ++ rowsIn ys :=
  List.filterMap_append ..

@[simp] theorem rowsIn_handed (rows : List Row) : rowsIn (handed rows) = rows := by
  rw [rowsIn, handed, List.filterMap_map]
  exact List.filterMap_some

@[simp] theorem rowsIn_error (err : Error) : rowsIn [.error err] = [] := rfl

@[simp] theorem rowsIn_replicate_none (m : Nat) :
    rowsIn (List.replicate m (.ok none)) = [] := by
  rw [rowsIn, List.filterMap_replicate]

/-- Why a cursor answers with a failure that may be over the next time it is asked: its transaction
is refused the lock on a page, or no page can make way for the one to be read. -/
inductive Cursor.Setback (o : Cursor) : Error → Prop
  /-- The lock on a page is refused. -/
  | refused {k : Nat} (hk : k < o.pages) :
    Setback o (.deadlock o.txn ⟨o.table.id, k⟩ .shared)
  /-- All cached pages are changed ones. -/
  | crowded (cached : Nat) : Setback o (.allPagesDirty cached)

/-- What may be answered after what: nothing but the end after the end, and nothing but failures
after a failure that does not pass. -/
def Item.Precedes (o : Cursor) (x y : Item) : Prop :=
  match x with
  | .ok (some _) => True
  | .ok none => y = .ok none
  | .error err => o.Setback err ∨ ∃ err', y = .error err'

namespace Engine

variable {e e' e₁ : Engine} {id : TableId} {n k count more m : Nat} {rows : List Row} {p : Page}
  {o d : Cursor} {xs past given : List Item} {err : Error} {txn : TxnId} {page : PageId}
  {locks : LockTable} {verdict : Verdict} {c : Call} {result : Outcome ⊕ Call} {cache : Cache}

/-! ## Pages -/

/-- The rows are those of the first pages of the table, page after page and slot after slot, as
transactions see these pages. -/
inductive Shows (e : Engine) (id : TableId) : Nat → List Row → Prop
  /-- No page has no rows. -/
  | none : Shows e id 0 []
  /-- The rows of the next page come after those before. -/
  | page {n : Nat} {rows more : List Row} {p : Page} (h : Shows e id n rows)
    (hp : e.seen ⟨id, n⟩ = some p) (hid : p.id = ⟨id, n⟩) (hl : p.Lists more) :
    Shows e id (n + 1) (rows ++ more)

theorem Shows.congr (h : e.Shows id n rows)
    (hs : ∀ {k p}, k < n → e.seen ⟨id, k⟩ = some p → e'.seen ⟨id, k⟩ = some p) :
    e'.Shows id n rows := by
  induction h with
  | none => exact .none
  | @page n _ _ _ _ hp hid hl ih =>
    exact .page (ih fun hk => hs (Nat.lt_succ_of_lt hk)) (hs n.lt_succ_self hp) hid hl

/-- The pages show their rows in one way only. -/
theorem Shows.unique {rows' : List Row} (h : e.Shows id n rows) (h' : e.Shows id n rows') :
    rows = rows' := by
  induction h generalizing rows' with
  | none =>
    cases h'
    rfl
  | page _ hp _ hl ih =>
    cases h' with
    | page h' hp' _ hl' =>
      obtain rfl := Option.some.inj (hp.symm.trans hp')
      rw [ih h', hl.unique hl']

/-- A page that is there can be read unless there is no room for it, and then it has the rows that
transactions see in it. -/
theorem Coherent.nextRows_cases (h : e.Coherent) (hp : e.seen d.page = some p) :
    ∃ r cache, e.nextRows d = (r, { e with cache }) ∧ e.Recaches cache ∧
      ((∃ cached, r = .error (.allPagesDirty cached)) ∨ r = p.rows) := by
  unfold nextRows
  cases hr : e.reach d.txn d.page .read with
  | error err =>
    obtain ⟨hn, hl | ⟨-, cached, rfl⟩⟩ := reach_eq_error hr
    · have hstored : e.stored d.page = none := congrArg Except.toOption hl
      rw [seen_of_not_cached hn, hstored] at hp
      cases hp
    · exact ⟨_, e.cache, rfl, .of_page? fun _ => rfl, .inl ⟨cached, rfl⟩⟩
  | ok x =>
    obtain ⟨k, e'⟩ := x
    obtain ⟨-, -, -, cache, q, rfl, hc, hread, hq⟩ := h.reach_eq_ok hr
    have hseen := (congrFun (h.seen_recache hc) d.page).trans hp
    obtain rfl : q.asStored = p :=
      Option.some.inj ((seen_of_cached (e := { e with cache }) hq).symm.trans hseen)
    refine ⟨_, cache, rfl, hc, .inr ?_⟩
    rw [hread]
    rfl

/-! ## How far a cursor has come -/

/-- The next page of the cursor has a slot that does not decode, and is held. -/
structure Stuck (e : Engine) (d : Cursor) (err : Error) : Prop where
  /-- No row is left. -/
  buffered : d.buffered = []
  /-- There is a next page. -/
  lt : d.next < d.pages
  /-- It is held. -/
  held : e.locks.modeOf d.txn d.page ≠ .free
  /-- It does not decode. -/
  garbled : ∃ p, e.seen d.page = some p ∧ p.rows = .error err

/-- What an answer tells of the cursor is so. -/
def Explains (e : Engine) (o d : Cursor) : Item → Prop
  | .ok (some _) => True
  | .ok none => d.buffered = [] ∧ d.next = d.pages
  | .error err => o.Setback err ∨ e.Stuck d err

/-- How far the cursor `o` has come, which is the cursor `d` by now and has given these answers. -/
structure Tracks (e : Engine) (o d : Cursor) (xs : List Item) : Prop where
  /-- It scans for the same transaction. -/
  txn : d.txn = o.txn
  /-- It scans the same table. -/
  table : d.table = o.table
  /-- It covers the same pages. -/
  pages : d.pages = o.pages
  /-- It is open. -/
  isOpen : d.isOpen = true
  /-- It has not gone beyond these pages. -/
  next_le : d.next ≤ o.pages
  /-- It has handed out, or buffered, the rows of the pages before the next as they are now. -/
  shown : e.Shows o.table.id d.next (rowsIn xs ++ d.buffered)
  /-- Its transaction holds these pages. -/
  held : ∀ {k}, k < d.next → e.locks.modeOf o.txn ⟨o.table.id, k⟩ ≠ .free
  /-- All pages that it covers are there. -/
  present : ∀ {k}, k < o.pages → ∃ p, e.seen ⟨o.table.id, k⟩ = some p
  /-- What the answers tell is still so. -/
  explained : ∀ x ∈ xs, e.Explains o d x
  /-- After the end, and after a failure that does not pass, nothing else is answered. -/
  order : xs.Pairwise (Item.Precedes o)

namespace Tracks

theorem page_eq (h : e.Tracks o d xs) : d.page = ⟨o.table.id, d.next⟩ := by
  rw [Cursor.page, h.table]

/-- A cursor that has just been opened. -/
theorem openAt (o : Cursor) (hp : ∀ {k}, k < n → ∃ p, e.seen ⟨o.table.id, k⟩ = some p) :
    e.Tracks (o.openAt n) (o.openAt n) [] where
  txn := rfl
  table := rfl
  pages := rfl
  isOpen := rfl
  next_le := Nat.zero_le n
  shown := .none
  held hk := absurd hk (Nat.not_lt_zero _)
  present := hp
  explained _ hx := nomatch hx
  order := .nil

/-- It has come as far after what leaves its transaction what it holds. -/
theorem keeps (h : e.Tracks o d xs) (hk : e.Keeps o.txn e') : e'.Tracks o d xs where
  txn := h.txn
  table := h.table
  pages := h.pages
  isOpen := h.isOpen
  next_le := h.next_le
  shown := h.shown.congr fun hlt hp => hk.seen (h.held hlt) hp
  held hlt := hk.held (h.held hlt)
  present hlt := by
    obtain ⟨p, hp⟩ := h.present hlt
    exact hk.present hp
  explained x hx := by
    have hexp := h.explained x hx
    match x, hexp with
    | .ok (some _), _ => trivial
    | .ok none, hend => exact hend
    | .error err, .inl hs => exact .inl hs
    | .error err, .inr ⟨hb, hlt, hheld, p, hp, hrows⟩ =>
      rw [h.txn] at hheld
      exact .inr ⟨hb, hlt, h.txn ▸ hk.held hheld, p, hk.seen hheld hp, hrows⟩
  order := h.order

/-- The cursor goes on and gives further answers. -/
theorem advance {d' : Cursor} {ys : List Item} (h : e.Tracks o d xs)
    (hd : d' = { d with next := d'.next, buffered := d'.buffered }) (hn : d'.next ≤ o.pages)
    (hs : e.Shows o.table.id d'.next (rowsIn (xs ++ ys) ++ d'.buffered))
    (hm : ∀ {k}, k < d'.next → e.locks.modeOf o.txn ⟨o.table.id, k⟩ ≠ .free)
    (hold : ∀ x ∈ xs, e.Explains o d' x ∧ ∀ y ∈ ys, Item.Precedes o x y)
    (hnew : ∀ y ∈ ys, e.Explains o d' y) (hys : ys.Pairwise (Item.Precedes o)) :
    e.Tracks o d' (xs ++ ys) where
  txn := by rw [hd, h.txn]
  table := by rw [hd, h.table]
  pages := by rw [hd, h.pages]
  isOpen := by rw [hd, h.isOpen]
  next_le := hn
  shown := hs
  held := hm
  present := h.present
  explained x hx := (List.mem_append.1 hx).elim (fun hx => (hold x hx).1) (hnew x)
  order := List.pairwise_append.2 ⟨h.order, hys, fun x hx => (hold x hx).2⟩

/-- Before the end, and as long as the next page decodes, anything may be answered. -/
theorem going (h : e.Tracks o d xs) (hend : d.buffered ≠ [] ∨ d.next ≠ d.pages)
    (hgo : ∀ {err}, ¬ e.Stuck d err) {x : Item} (hx : x ∈ xs) :
    (∀ d', e.Explains o d' x) ∧ ∀ y, Item.Precedes o x y := by
  match x, h.explained x hx with
  | .ok (some _), _ => exact ⟨fun _ => trivial, fun _ => trivial⟩
  | .ok none, ⟨hb, hn⟩ => exact absurd ⟨hb, hn⟩ (not_and_or.2 hend)
  | .error err, .inl hs => exact ⟨fun _ => .inl hs, fun _ => .inl hs⟩
  | .error err, .inr hs => exact absurd hs hgo

/-- Rows are handed out from those buffered. -/
theorem hand {first rest : List Row} (h : e.Tracks o d xs) (hb : d.buffered = first ++ rest) :
    e.Tracks o { d with buffered := rest } (xs ++ handed first) := by
  cases first with
  | nil =>
    obtain rfl : d.buffered = rest := hb
    rw [handed, List.map_nil, List.append_nil]
    exact h
  | cons r first =>
    have hne : d.buffered ≠ [] := hb ▸ List.cons_ne_nil _ _
    have hrow : ∀ y ∈ handed (r :: first), ∃ row, y = .ok (some row) := fun y hy => by
      obtain ⟨row, -, rfl⟩ := List.mem_map.1 hy
      exact ⟨row, rfl⟩
    refine h.advance rfl h.next_le ?_ h.held (fun x hx => ?_) (fun y hy => ?_) ?_
    · rw [rowsIn_append, rowsIn_handed, List.append_assoc]
      exact hb ▸ h.shown
    · obtain ⟨hexp, hprec⟩ := h.going (.inl hne) (fun hs => hne hs.buffered) hx
      exact ⟨hexp _, fun y _ => hprec y⟩
    · obtain ⟨row, rfl⟩ := hrow y hy
      trivial
    · refine List.pairwise_of_forall_mem_list fun x hx y _ => ?_
      obtain ⟨row, rfl⟩ := hrow x hx
      trivial

/-- A failure leaves the cursor where it is. -/
theorem fail (h : e.Tracks o d xs) (hn : d.next < d.pages)
    (he : o.Setback err ∨ e.Stuck d err) : e.Tracks o d (xs ++ [.error err]) := by
  refine h.advance rfl h.next_le ?_ h.held (fun x hx => ⟨h.explained x hx, ?_⟩) ?_
    (List.pairwise_singleton ..)
  · rw [rowsIn_append, rowsIn_error, List.append_nil]
    exact h.shown
  · rw [List.forall_mem_singleton]
    match x, h.explained x hx with
    | .ok (some _), _ => trivial
    | .ok none, hend => exact absurd hend.2 (Nat.ne_of_lt hn)
    | .error _, .inl hs => exact .inl hs
    | .error _, .inr _ => exact .inr ⟨err, rfl⟩
  · rw [List.forall_mem_singleton]
    exact he

/-- At the end, the end is all that is answered. -/
theorem finish (h : e.Tracks o d xs) (hb : d.buffered = []) (hn : d.pages ≤ d.next) (m : Nat) :
    e.Tracks o d (xs ++ List.replicate m (.ok none)) := by
  have hend : d.next = d.pages := Nat.le_antisymm (h.pages ▸ h.next_le) hn
  refine h.advance rfl h.next_le ?_ h.held (fun x hx => ⟨h.explained x hx, fun y hy => ?_⟩)
    (fun y hy => ?_) ?_
  · rw [rowsIn_append, rowsIn_replicate_none, List.append_nil]
    exact h.shown
  · rw [List.eq_of_mem_replicate hy]
    match x, h.explained x hx with
    | .ok (some _), _ => trivial
    | .ok none, _ => rfl
    | .error _, .inl hs => exact .inl hs
    | .error _, .inr hs => exact absurd hend (Nat.ne_of_lt hs.lt)
  · rw [List.eq_of_mem_replicate hy]
    exact ⟨hb, hend⟩
  · exact List.pairwise_replicate.2 (.inr rfl)

/-- The rows of the next page are buffered when all others have been handed out. -/
theorem read (h : e.Tracks o d xs) (hb : d.buffered = []) (hn : d.next < d.pages)
    (hm : e.locks.modeOf d.txn d.page ≠ .free) (hp : e.seen d.page = some p) (hid : p.id = d.page)
    (hr : p.rows = .ok rows) :
    e.Tracks o { d with next := d.next + 1, buffered := rows } xs := by
  have hgo : ∀ {err}, ¬ e.Stuck d err := by
    rintro err ⟨-, -, -, q, hq, he⟩
    obtain rfl : p = q := Option.some.inj (hp.symm.trans hq)
    cases hr.symm.trans he
  rw [h.page_eq] at hp hm hid
  rw [h.txn] at hm
  rw [← List.append_nil xs]
  refine h.advance rfl (h.pages ▸ hn) ?_ (fun {k} hk => ?_) (fun x hx => ?_) nofun .nil
  · have hs := h.shown
    rw [hb, List.append_nil] at hs
    rw [List.append_nil]
    exact .page hs hp hid (Page.rows_eq_ok_iff.1 hr)
  · rcases Nat.lt_succ_iff_lt_or_eq.1 hk with hk | rfl
    · exact h.held hk
    · exact hm
  · exact ⟨(h.going (.inr (Nat.ne_of_lt hn)) hgo hx).1 _, nofun⟩

end Tracks

/-! ## Serving -/

/-- What the cursor `o` comes to that is asked for a number of rows when it has given these answers
already. -/
inductive Yields (e : Engine) (o : Cursor) (past : List Item) (count : Nat) :
    Outcome ⊕ Call → Prop
  /-- It gives as many answers. -/
  | answers {d : Cursor} {xs : List Item} (h : e.Tracks o d (past ++ xs))
    (hl : xs.length = count) : Yields e o past count (.inl (.ok (.items xs d)))
  /-- It needs another page, and nothing that it has read is left. -/
  | waits {d : Cursor} {more : Nat} {given : List Item}
    (h : e.Tracks o d (past ++ given.reverse)) (hl : given.length + (more + 1) = count)
    (hb : d.buffered = []) (hn : d.next < d.pages) :
    Yields e o past count (.inr (.take d more given))

theorem Yields.keeps (h : e.Yields o past count result) (hk : e.Keeps o.txn e') :
    e'.Yields o past count result := by
  cases h with
  | answers h hl => exact .answers (h.keeps hk) hl
  | waits h hl hb hn => exact .waits (h.keeps hk) hl hb hn

theorem Tracks.serve {p : Call → Prop} (h : e.Tracks o d (past ++ given.reverse))
    (hl : given.length + m = count)
    (hp : ∀ (rest : Cursor) (more : Nat) (items : List Item), rest.pages = d.pages →
      rest.next = d.next → d.next < d.pages → more < m → p (.take rest more items)) :
    e.Yields o past count (d.serve m given hp).result := by
  have hhand := h.hand (List.take_append_drop m d.buffered).symm
  rw [List.append_assoc] at hhand
  have hgiven : (((d.buffered.take m).map fun row => (.ok (some row) : Item)).reverse ++
      given).reverse = given.reverse ++ handed (d.buffered.take m) := by
    rw [List.reverse_append, List.reverse_reverse, handed]
  have hlen : (((d.buffered.take m).map fun row => (.ok (some row) : Item)).reverse ++
      given).length = min m d.buffered.length + given.length := by
    rw [List.length_append, List.length_reverse, List.length_map, List.length_take]
  rw [Cursor.serve, if_pos h.isOpen]
  dsimp only
  split
  · next hm =>
    refine .answers (hgiven ▸ hhand) ?_
    rw [List.length_reverse, hlen]
    omega
  · next more hm =>
    have hempty : d.buffered.drop m = [] := List.drop_eq_nil_of_le (by omega)
    split
    · next hn =>
      refine .waits (hgiven ▸ hhand) ?_ hempty hn
      rw [hlen]
      omega
    · next hn =>
      refine .answers ?_ ?_
      · rw [hgiven, ← List.append_assoc]
        exact hhand.finish hempty (Nat.not_lt.1 hn) _
      · rw [List.length_append, List.length_reverse, List.length_replicate, hlen]
        omega

/-- A cursor that has failed goes on with the rows that are still asked for. -/
theorem Tracks.refuse (h : e.Tracks o d (past ++ given.reverse))
    (hl : given.length + (more + 1) = count) (hn : d.next < d.pages)
    (he : o.Setback err ∨ e.Stuck d err) :
    e.Yields o past count ((Call.take d more given).refuse err).result := by
  have hfail : e.Tracks o d (past ++ (.error err :: given).reverse) := by
    rw [List.reverse_cons, ← List.append_assoc]
    exact h.fail hn he
  have hlen : (.error err :: given : List Item).length + more = count := by
    rw [List.length_cons]
    omega
  rw [Call.refuse]
  exact hfail.serve hlen _

/-- A cursor that has got the lock on its next page reads it and goes on, or fails. -/
theorem Tracks.proceed (h : e.Tracks o d (past ++ given.reverse)) (hc : e.Coherent)
    (hl : given.length + (more + 1) = count) (hb : d.buffered = []) (hn : d.next < d.pages)
    (hm : e.locks.modeOf d.txn d.page ≠ .free) :
    ((Call.take d more given).proceed e).2.Coherent ∧
      ((Call.take d more given).proceed e).2.Yields o past count
        ((Call.take d more given).proceed e).1.result := by
  obtain ⟨p, hp⟩ := h.present (h.pages ▸ hn)
  rw [← h.page_eq] at hp
  obtain ⟨r, cache, hnext, hcache, hr⟩ := hc.nextRows_cases hp
  have hk : e.Keeps o.txn { e with cache } := hc.keeps_recache hcache
  have h' : Tracks { e with cache } o d (past ++ given.reverse) := h.keeps hk
  have hp' : Engine.seen { e with cache } d.page = some p :=
    (congrFun (hc.seen_recache hcache) _).trans hp
  cases hrows : r with
  | error err =>
    rw [Call.proceed, hnext, hrows]
    refine ⟨hc.recache hcache, h'.refuse hl hn ?_⟩
    rcases hr with ⟨cached, hr⟩ | hr
    · obtain rfl := Except.error.inj (hrows.symm.trans hr)
      exact .inl (.crowded cached)
    · exact .inr ⟨hb, hn, hm, p, hp', hr.symm.trans hrows⟩
  | ok rows =>
    have hread : p.rows = .ok rows := by
      rcases hr with ⟨cached, hr⟩ | hr
      · cases hrows.symm.trans hr
      · exact hr.symm.trans hrows
    have htracks := h'.read hb hn hm hp' (hc.of_seen hp).1 hread
    rw [Call.proceed, hnext, hrows]
    dsimp only
    exact ⟨hc.recache hcache, htracks.serve hl _⟩

/-- Whatever the verdict on the lock, the cursor goes on or fails. -/
theorem Tracks.answer (h : e.Tracks o d (past ++ given.reverse)) (hc : e.Coherent)
    (hl : given.length + (more + 1) = count) (hb : d.buffered = []) (hn : d.next < d.pages)
    (hj : e.Judges (.take d more given) verdict locks) :
    ((Call.take d more given).answer (verdict = .granted) { e with locks }).2.Coherent ∧
      ((Call.take d more given).answer (verdict = .granted) { e with locks }).2.Yields o past count
        ((Call.take d more given).answer (verdict = .granted) { e with locks }).1.result := by
  have hc' : Coherent { e with locks } := hj.coherent hc
  have h' : Tracks { e with locks } o d (past ++ given.reverse) :=
    h.keeps (h.txn ▸ hj.keeps_of_read rfl)
  cases verdict with
  | granted => exact h'.proceed hc' hl hb hn (hj.modeOf_ne_free nofun)
  | blocked | deadlock =>
    refine ⟨hc', h'.refuse hl hn (.inl ?_)⟩
    change o.Setback (.deadlock d.txn d.page .shared)
    rw [h.page_eq, h.txn]
    exact .refused (h.pages ▸ hn)

/-- A cursor that needs another page gets as far as it can. -/
theorem Course.yields (h : e.Course (.take d more given) result e') (hc : e.Coherent)
    (ht : e.Tracks o d (past ++ given.reverse)) (hl : given.length + (more + 1) = count)
    (hb : d.buffered = []) (hn : d.next < d.pages) : e'.Yields o past count result := by
  generalize hcall : Call.take d more given = c at h
  induction h generalizing d more given with
  | blocked hj =>
    subst hcall
    exact .waits (ht.keeps (ht.txn ▸ hj.keeps_of_read rfl)) hl hb hn
  | ended hj _ ha =>
    subst hcall
    have hans := (ht.answer hc hl hb hn hj).2
    rw [ha] at hans
    exact hans
  | next hj _ ha _ _ ih =>
    subst hcall
    obtain ⟨hc', hans⟩ := ht.answer hc hl hb hn hj
    rw [ha] at hc' hans
    cases hans with
    | waits ht' hl' hb' hn' => exact ih hc' ht' hl' hb' hn' rfl

end Engine

end RowStore
