import RowStore.Proofs.Call.Effect

/-!
# Inserting and deleting rows

Both ways of changing a page come down to `Engine.Turns`: in the cache, and nowhere else, a page
that the transaction holds for itself alone has one slot turned. An insertion that finds its page
full has changed nothing, so it may give the page back, unless the transaction had it before.
-/

namespace RowStore

namespace Engine

variable {e e' : Engine} {txn : TxnId} {page : PageId} {place : RowId} {task : Purpose}
  {p q : Page} {c : Cache} {row : Row} {content : Option Bytes} {k : Handle}

/-- In the cache `c`, the page `q` is what the transaction has made of a page that it sees, by
putting the content into one slot. -/
structure Turns (e : Engine) (txn : TxnId) (place : RowId) (content : Option Bytes) (c : Cache)
    (q : Page) : Prop where
  /-- The engine with this cache is coherent. -/
  coherent : Coherent { e with cache := c }
  /-- The page is cached. -/
  cached : c.page? place.page = some q
  /-- It is marked. -/
  marked : q.dirtiedBy = some txn
  /-- One slot of the page is another than before. -/
  slot : ∃ p, e.seen place.page = some p ∧ q.slot? = Function.update p.slot? place.slot content
  /-- Transactions see this page and otherwise what they saw. -/
  seen : Engine.seen { e with cache := c } = Function.update e.seen place.page (some q.asStored)

theorem Turns.id_eq (h : e.Turns txn place content c q) : q.id = place.page :=
  h.coherent.id_eq h.cached

theorem Turns.edits (h : e.Turns txn place content c q)
    (hx : e.locks.modeOf txn place.page = .exclusive) :
    e.Edits txn place content { e with cache := c } := by
  obtain ⟨p, hp, hq⟩ := h.slot
  exact
    { Evolves.of_cache txn e c with
      held := hx
      seen := ⟨e.seen, p, q.asStored, .refl _, hp, q.slot?_asStored.trans hq, h.seen⟩ }

/-- To look at an engine after other pages have been cached does not matter. -/
theorem Turns.of_recaches {c₁ : Cache} (h : e.Coherent) (hc : e.Recaches c₁)
    (ht : Turns { e with cache := c₁ } txn place content c q) : e.Turns txn place content c q := by
  have hseen := h.seen_recache hc
  exact
    { coherent := ht.coherent
      cached := ht.cached
      marked := ht.marked
      slot := hseen ▸ ht.slot
      seen := hseen ▸ ht.seen }

/-- A slot of a page that is cached is turned by writing the changed page over the cached one. -/
theorem Coherent.turns_update (h : e.Coherent) (hp : e.cache.page? place.page = some p)
    (hx : e.locks.modeOf txn place.page = .exclusive) (ha : (p.markDirty (some txn)).Alike q)
    (hq : q.slot? = Function.update p.slot? place.slot content) :
    e.Turns txn place content (e.cache.update place.page fun _ => q) q where
  coherent := h.update hp hx ha
  cached := by simp [hp]
  marked := ha.dirtiedBy
  slot := ⟨p.asStored, seen_of_cached hp, by rw [Page.slot?_asStored, hq]⟩
  seen := Coherent.seen_update hp

/-- Marking a page does not change what transactions see. -/
theorem Coherent.seen_mark (hp : e.cache.page? page = some p) :
    Engine.seen { e with cache := e.cache.update page fun _ => p.markDirty (some txn) } =
      e.seen := by
  rw [Coherent.seen_update hp]
  refine Function.update_eq_self_iff.2 ?_
  rw [seen_of_cached hp]
  rfl

/-- What an attempt to insert into a page that is held for sole use leads to: it fails, or finds the
page full, or puts the row into an empty slot. -/
theorem Coherent.tryInsert_cases (h : e.Coherent) (hx : e.locks.modeOf txn page = .exclusive)
    (row : Row) :
    (∃ err c, e.tryInsert txn page row = (.error err, { e with cache := c }) ∧
      Coherent { e with cache := c } ∧ Engine.seen { e with cache := c } = e.seen) ∨
    (∃ c, e.tryInsert txn page row = (.ok none, { e with cache := c }) ∧ e.Recaches c) ∨
    ∃ c q slot, e.tryInsert txn page row = (.ok (some q), { e with cache := c }) ∧
      rowsOf e.seen ⟨page, slot⟩ = none ∧ e.Turns txn ⟨page, slot⟩ (some row.encode) c q := by
  cases hr : e.reach txn page .write with
  | error err =>
    refine .inl ⟨err, e.cache, ?_, h, rfl⟩
    simp only [tryInsert, hr]
  | ok x =>
    obtain ⟨k, e₁⟩ := x
    obtain ⟨rfl, rfl, ha, c, p, rfl, hc, hread, hp⟩ := h.reach_eq_ok hr
    by_cases hfull : p.emptySlots = 0
    · refine .inr (.inl ⟨c, ?_, hc⟩)
      simp only [tryInsert, hr, hread, hfull, if_true]
    · have h₁ := h.recache hc
      have hseen := h.seen_recache hc
      have hch := change_of_read (e := { e with cache := c }) (f := (·.insert row)) ha hread
      cases hi : (p.markDirty (some k.txn)).insert row with
      | error err =>
        simp only [hi] at hch
        refine .inl ⟨err, c.update k.page fun _ => p.markDirty (some k.txn), ?_,
          h₁.update hp hx (.refl _), ?_⟩
        · simp only [tryInsert, hr, hread, hfull, if_false, hch, Except.map]
        · rw [← hseen]
          exact Coherent.seen_mark (e := { e with cache := c }) hp
      | ok y =>
        obtain ⟨⟨pg, slot⟩, q⟩ := y
        simp only [hi] at hch
        obtain ⟨hal, -, hempty, hslot⟩ := Page.slot?_of_insert hi
        refine .inr (.inr ⟨c.update k.page fun _ => q, q, slot, ?_, ?_, .of_recaches h hc ?_⟩)
        · simp only [tryInsert, hr, hread, hfull, if_false, hch, Except.map]
        · rw [← hseen, rowsOf, seen_of_cached (e := { e with cache := c }) hp]
          exact (congrFun p.slot?_asStored slot).trans hempty
        · have hturns : Turns { e with cache := c } k.txn ⟨k.page, slot⟩ _ _ q :=
            h₁.turns_update hp hx hal hslot
          exact hturns

/-- What an attempt to delete from a page that is held for sole use leads to: it fails, or empties
the slot. -/
theorem Coherent.tryDelete_cases (h : e.Coherent)
    (hx : e.locks.modeOf txn place.page = .exclusive) :
    (∃ err c, e.tryDelete txn place = (.error err, { e with cache := c }) ∧
      Coherent { e with cache := c } ∧ Engine.seen { e with cache := c } = e.seen) ∨
    ∃ c q, e.tryDelete txn place = (.ok q, { e with cache := c }) ∧
      rowsOf e.seen place ≠ none ∧ e.Turns txn place none c q := by
  cases hr : e.reach txn place.page .write with
  | error err =>
    refine .inl ⟨err, e.cache, ?_, h, rfl⟩
    simp only [tryDelete, hr]
  | ok x =>
    obtain ⟨k, e₁⟩ := x
    obtain ⟨hk, rfl, ha, c, p, rfl, hc, hread, hp⟩ := h.reach_eq_ok hr
    have h₁ := h.recache hc
    have hseen := h.seen_recache hc
    have hch := change_of_read (e := { e with cache := c })
      (f := fun p => (p.delete (some place)).map ((), ·)) ha hread
    rw [hk] at hch
    cases hi : (p.markDirty (some k.txn)).delete (some place) with
    | error err =>
      simp only [hi, Except.map] at hch
      refine .inl ⟨err, c.update place.page fun _ => p.markDirty (some k.txn), ?_,
        h₁.update hp hx (.refl _), ?_⟩
      · simp only [tryDelete, hr, hch, Except.map]
      · rw [← hseen]
        exact Coherent.seen_mark (e := { e with cache := c }) hp
    | ok q =>
      simp only [hi, Except.map] at hch
      obtain ⟨hal, -, hfound, hslot⟩ := Page.slot?_of_delete hi
      refine .inr ⟨c.update place.page fun _ => q, q, ?_, ?_, .of_recaches h hc ?_⟩
      · simp only [tryDelete, hr, hch, Except.map]
      · rw [← hseen, rowsOf, seen_of_cached (e := { e with cache := c }) hp]
        exact fun hn => hfound ((congrFun p.slot?_asStored place.slot).symm.trans hn)
      · exact h₁.turns_update hp hx hal hslot

/-- A page that is cached already, with its mark, is made the cached copy without further effect. -/
theorem conclude_cases (hq : e.cache.page? page = some q) (hid : q.id = page)
    (hm : q.dirtiedBy = some txn) (hx : e.locks.modeOf txn page = .exclusive) (install : Bool) :
    ∃ reply c, e.conclude txn q install = (.ok reply, { e with cache := c }) ∧
      (∀ pg, c.page? pg = e.cache.page? pg) ∧
        ∀ e' {task}, (∀ page, task ≠ .fetch page) → reply.Answers e' txn task := by
  cases install with
  | false => exact ⟨.pages [q], e.cache, rfl, fun _ => rfl, fun _ _ h => h⟩
  | true =>
    have hmark : q.markDirty (some txn) = q := by
      rw [Page.markDirty, ← hm]
    have hcon : e.cache.contains q.id = true := by
      obtain ⟨f, hf, -⟩ := Cache.page?_eq_some_iff.1 hq
      rw [Cache.contains, hid, hf]
      rfl
    refine ⟨.done, e.cache.update q.id fun _ => q, ?_, fun pg => ?_, fun _ _ h => h⟩
    · simp only [conclude, Engine.install, hid, hx, hmark, Cache.put, if_true, bind, Except.bind,
        pure, Except.pure]
      rw [hid] at hcon
      simp only [hcon, if_true]
    · rw [Cache.page?_update, hid]
      split
      · next hpg => rw [hpg, hq]; rfl
      · rfl

/-- A call that has turned a slot ends well. -/
theorem Turns.progress {pending : Call → Engine → Prop} (h : e.Sound)
    (hi : ¬ e.locks.IsBlocked txn) (hx : e.locks.modeOf txn place.page = .exclusive)
    (hf : task.Fits (rowsOf e.seen) place content) (ht : e.Turns txn place content c q)
    (install : Bool) :
    e.Progress txn task pending
      (.inl (conclude { e with cache := c } txn q install).1)
      (conclude { e with cache := c } txn q install).2 := by
  obtain ⟨reply, c', hcon, hsame, hreply⟩ :=
    conclude_cases (e := { e with cache := c }) ht.cached ht.id_eq ht.marked hx install
  rw [hcon]
  have hs : Sound { e with cache := c } := ⟨ht.coherent, h.consistent⟩
  have hrec : Recaches { e with cache := c } c' := .of_page? hsame
  refine .done (hs.recache hrec) hi (hreply _ hf.ne_fetch) place content hf ?_
  have hseen : Engine.seen { e with cache := c' } = Engine.seen { e with cache := c } :=
    ht.coherent.seen_recache hrec
  exact { ht.edits hx with seen := hseen ▸ (ht.edits hx).seen }

/-- Growing a table keeps the cached pages in step with the stored ones. -/
theorem Coherent.withDisk (h : e.Coherent) {disk : Disk}
    (hw : Backing.WellFormed { e.toBacking with disk })
    (hg : Grows e.stored (Backing.stored { e.toBacking with disk })) :
    Coherent { e with disk } ∧ Grows e.seen (Engine.seen { e with disk }) := by
  refine ⟨⟨hw, fun hq => ?_, h.owner⟩, fun pg => ?_⟩
  · obtain ⟨p, hp, hv⟩ := h.version hq
    exact ⟨p, hg.eq_some hp, hv⟩
  · cases hq : e.cache.page? pg with
    | some q =>
      left
      rw [seen_of_cached hq]
      exact seen_of_cached (e := { e with disk }) hq
    | none =>
      rw [GrowsAt, seen_of_not_cached hq, seen_of_not_cached (e := { e with disk }) hq]
      exact hg pg

end Engine

namespace Insertion

open Engine

variable {e : Engine} {i : Insertion}

/-- An insertion that lets its table grow goes on with the new page. -/
theorem progress_grow {p : Call → Prop} (h : e.Sound) (hi : ¬ e.locks.IsBlocked i.txn)
    (ht : e.catalog.table i.table.id = .ok i.table)
    (hp : ∀ j : Insertion, j.grown = true → p (.insert j)) :
    e.Progress i.txn (Call.insert i).purpose Ready (i.grow e hp).1.result (i.grow e hp).2 := by
  unfold grow
  cases hg : e.disk.grow i.table with
  | error err => exact .failed h hi (.refl _ _)
  | ok x =>
    obtain ⟨number, disk⟩ := x
    by_cases hn : number + 1 < pageLimit
    · obtain ⟨hw, hst⟩ := h.toWellFormed.grow ht hg hn
      obtain ⟨hc, hse⟩ := h.toCoherent.withDisk hw hst
      have hq : e.Quiet i.txn { e with disk } :=
        { Evolves.refl i.txn e with
          stored := hst
          seen := hse }
      simp only [hn]
      refine .waits ⟨hc, h.consistent⟩ rfl rfl ⟨⟨ht, fun hfree hx => ?_⟩, hi⟩ hq
      cases hfree.symm.trans hx
    · simp only [hn]
      exact .overflown _

/-- An insertion starts with a page that it has no lock on, or knows that it has. -/
theorem progress_start (h : e.Sound) (hi : ¬ e.locks.IsBlocked i.txn)
    (ht : e.catalog.table i.table.id = .ok i.table) :
    e.Progress i.txn (Call.insert i).purpose Ready (i.start e).1.result (i.start e).2 := by
  unfold start
  split
  · exact .failed h hi (.refl _ _)
  · split
    · exact .failed h hi (.refl _ _)
    · exact progress_grow h hi ht _
    · refine .waits h rfl rfl ⟨⟨ht, fun hfree hx => ?_⟩, hi⟩ (.refl _ _)
      cases hfree.symm.trans hx

/-- A page that a call finds full without having held it for sole use bears no mark of its
transaction. -/
theorem not_marked (h : e.Coherent) {c : Cache} (hc : e.Recaches c) {txn : TxnId} {page : PageId}
    (hx : e.locks.modeOf txn page ≠ .exclusive) {q : Page} (hq : c.page? page = some q) :
    q.dirtiedBy ≠ some txn := by
  intro hd
  rcases hc.known hq with hq | hp
  · exact hx (h.owner hq hd)
  · rw [← h.toWellFormed.asStored_eq hp] at hd
    cases hd

/-- An insertion that has got its lock puts its row into the page, or fails, or goes on with another
page. -/
theorem progress_tryPage (h : e.Sound) {locks : LockTable}
    (hd : e.locks.Decides i.txn i.page .exclusive .granted locks) (hl : locks.Consistent)
    (hs : (Call.insert i).Sane e) :
    e.Progress i.txn (Call.insert i).purpose Ready (i.tryPage { e with locks }).1.result
      (i.tryPage { e with locks }).2 := by
  have hq : e.Quiet i.txn { e with locks } := .of_decides hd
  have h₁ : Sound { e with locks } := h.decide hd hl
  have hi : ¬ locks.IsBlocked i.txn := hd.not_isBlocked nofun
  have hx : locks.modeOf i.txn i.page = .exclusive := hd.exclusive_of_granted
  obtain ⟨err, c, ht, hc, hseen⟩ | ⟨c, ht, hc⟩ | ⟨c, q, slot, ht, hempty, hturn⟩ :=
    h₁.toCoherent.tryInsert_cases hx i.row
  · simp only [tryPage, ht]
    exact .failed ⟨hc, hl⟩ hi (hq.trans ⟨.of_cache _ _ _, .of_eq hseen⟩)
  · have hq₂ : e.Quiet i.txn { e with cache := c, locks } :=
      hq.trans (.of_recaches h₁.toCoherent hc)
    have h₂ : Sound { e with cache := c, locks } := h₁.recache hc
    simp only [tryPage, ht]
    split
    · exact .failed h₂ hi hq₂
    · generalize hg : (if i.heldBefore = LockMode.free then
        Engine.release { e with cache := c, locks } i.txn i.page
        else { e with cache := c, locks }) = e₃
      obtain ⟨hq₃, h₃, hi₃⟩ :
          e.Quiet i.txn e₃ ∧ e₃.Sound ∧ ¬ e₃.locks.IsBlocked i.txn := by
        split at hg
        · next hfree =>
          subst hg
          have hnx := hs.2 hfree
          refine ⟨hq₂.release hnx, h₂.release fun hqc => ?_, ?_⟩
          · exact not_marked h.toCoherent ⟨hc.changed, hc.known⟩ hnx hqc
          · rintro ⟨pg, m, hw⟩
            exact hi ⟨pg, m, LockTable.waits_release.1 hw⟩
        · subst hg
          exact ⟨hq₂, h₂, hi⟩
      have ht₃ : e₃.catalog.table i.table.id = .ok i.table := hq₃.catalog ▸ hs.1
      split
      · refine .waits h₃ rfl rfl ⟨⟨ht₃, fun hfree hx => ?_⟩, hi₃⟩ hq₃
        cases hfree.symm.trans hx
      · exact hq₃.progress (progress_grow h₃ hi₃ ht₃ _)
  · simp only [tryPage, ht]
    have hfits : (Call.insert i).purpose.Fits (rowsOf (Engine.seen { e with locks }))
        ⟨i.page, slot⟩ (some i.row.encode) := ⟨rfl, hempty, rfl⟩
    exact hq.progress (hturn.progress h₁ hi hx hfits i.install)

end Insertion

end RowStore
