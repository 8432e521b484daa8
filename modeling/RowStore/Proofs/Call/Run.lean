import RowStore.Proofs.Call.Change

/-!
# Whole calls

A call goes through its stages until it ends or has to wait: `Engine.progress_run` says what it may
lead to by then. The induction is on the work that the call has left, the measure that makes it end.
-/

namespace RowStore

open Engine

variable {e : Engine} {locks : LockTable} {txn : TxnId} {verdict : Verdict}

/-! ## Reading on -/

namespace Cursor

/-- Serving a cursor ends with items or asks for the next page. -/
theorem result_serve {p : Call → Prop} (c : Cursor) (count : Nat) (given : List Item)
    (h : ∀ (rest : Cursor) (more : Nat) (items : List Item), rest.pages = c.pages →
      rest.next = c.next → c.next < c.pages → more < count → p (.take rest more items)) :
    (∃ xs d, (c.serve count given h).result = .inl (.ok (.items xs d))) ∨
      ∃ rest more items, (c.serve count given h).result = .inr (.take rest more items) ∧
        rest.txn = c.txn := by
  unfold serve
  split
  · dsimp only
    split
    · exact .inl ⟨_, _, rfl⟩
    · split
      · exact .inr ⟨_, _, _, rfl, rfl⟩
      · exact .inl ⟨_, _, rfl⟩
  · exact .inl ⟨_, _, rfl⟩

/-- Reading a whole table ends with rows or asks for the next page. -/
theorem result_serveAll {p : Call → Prop} (c : Cursor) (seen : List Row)
    (h : c.next < c.pages → p (.collect c seen)) :
    (∃ rs, (c.serveAll seen h).result = .inl (.ok (.rows rs))) ∨
      (c.serveAll seen h).result = .inr (.collect c seen) := by
  unfold serveAll
  split
  · exact .inr rfl
  · exact .inl ⟨_, rfl⟩

/-- A cursor that is served makes quiet progress. -/
theorem progress_serve {e' : Engine} {p : Call → Prop} (c : Cursor) (count : Nat)
    (given : List Item)
    (h : ∀ (rest : Cursor) (more : Nat) (items : List Item), rest.pages = c.pages →
      rest.next = c.next → c.next < c.pages → more < count → p (.take rest more items))
    (hs : e'.Sound) (hi : ¬ e'.locks.IsBlocked c.txn) (hq : e.Quiet c.txn e') :
    e.Progress c.txn .look Ready (c.serve count given h).result e' := by
  rcases c.result_serve count given h with ⟨xs, d, hr⟩ | ⟨rest, more, items, hr, ht⟩
  · rw [hr]
    exact .looked hs hi (fun _ => nofun) trivial hq
  · rw [hr]
    refine .waits hs ht rfl ⟨trivial, ?_⟩ hq
    change ¬ e'.locks.IsBlocked rest.txn
    rwa [ht]

theorem progress_serveAll {e' : Engine} {p : Call → Prop} (c : Cursor) (seen : List Row)
    (h : c.next < c.pages → p (.collect c seen)) (hs : e'.Sound)
    (hi : ¬ e'.locks.IsBlocked c.txn) (hq : e.Quiet c.txn e') :
    e.Progress c.txn .look Ready (c.serveAll seen h).result e' := by
  rcases c.result_serveAll seen h with ⟨rs, hr⟩ | hr
  · rw [hr]
    exact .looked hs hi (fun _ => nofun) trivial hq
  · rw [hr]
    exact .waits hs rfl rfl ⟨trivial, hi⟩ hq

end Cursor

/-- An opened cursor is of the same transaction. -/
theorem Engine.txn_openCursor {c d : Cursor} (h : e.openCursor c = .ok d) : d.txn = c.txn := by
  obtain ⟨n, -, h⟩ := bind_eq_ok.1 h
  cases h
  rfl

/-- Reading the next page of a cursor only caches the page. -/
theorem Engine.nextRows_eq (h : e.Coherent) (c : Cursor) :
    ∃ r cache, e.nextRows c = (r, { e with cache }) ∧ e.Recaches cache := by
  unfold nextRows
  cases hr : e.reach c.txn c.page .read with
  | error err => exact ⟨_, e.cache, rfl, .of_page? fun _ => rfl⟩
  | ok x =>
    obtain ⟨k, e'⟩ := x
    obtain ⟨-, -, -, cache, q, rfl, hc, -, -⟩ := h.reach_eq_ok hr
    exact ⟨_, cache, rfl, hc⟩

/-! ## One stage -/

namespace Call

variable {c : Call}

/-- A call that is refused its lock has changed nothing. -/
theorem progress_refuse {e' : Engine} (err : Error) (hs : e'.Sound)
    (hi : ¬ e'.locks.IsBlocked c.txn) (hq : e.Quiet c.txn e') :
    e.Progress c.txn c.purpose Ready (c.refuse err).result e' := by
  cases c with
  | fetch => exact .failed hs hi hq
  | insert => exact .failed hs hi hq
  | delete => exact .failed hs hi hq
  | collect => exact .failed hs hi hq
  | take c more given =>
    rw [refuse]
    exact c.progress_serve _ _ _ hs hi hq

/-- Who has got a lock on a page gets a handle to it, or fails. -/
theorem progress_fetch {page : PageId} {access : Access} (h : e.Sound)
    (hi : ¬ e.locks.IsBlocked txn) (hm : e.locks.modeOf txn page ≠ .free) (keep : Bool) :
    e.Progress txn (.fetch page) Ready ((fetch txn page access keep).proceed e).1.result
      ((fetch txn page access keep).proceed e).2 := by
  cases hr : e.reach txn page access with
  | error err =>
    simp only [proceed, hr]
    exact .failed h hi (.refl _ _)
  | ok x =>
    obtain ⟨k, e'⟩ := x
    obtain ⟨rfl, rfl, -, cache, q, rfl, hc, hkq, hqc⟩ := h.reach_eq_ok hr
    simp only [proceed, hr, hkq, Except.map]
    cases keep with
    | false =>
      exact .looked (h.recache hc) hi ⟨rfl, rfl, hqc, hm⟩ trivial (.of_recaches h.toCoherent hc)
    | true =>
      have hc' : e.Recaches (cache.keep k) := ⟨hc.changed, hc.known⟩
      exact .looked (h.recache hc') hi ⟨rfl, rfl, hqc, hm⟩ trivial (.of_recaches h.toCoherent hc')

/-- Who holds a page for itself alone takes the row away from it, or fails. -/
theorem progress_delete {place : RowId} (h : e.Sound) (hi : ¬ e.locks.IsBlocked txn)
    (hx : e.locks.modeOf txn place.page = .exclusive) (install : Bool) :
    e.Progress txn (.remove place) Ready ((delete txn place install).proceed e).1.result
      ((delete txn place install).proceed e).2 := by
  obtain ⟨err, cache, ht, hc, hseen⟩ | ⟨cache, q, ht, hfound, hturn⟩ :=
    h.toCoherent.tryDelete_cases hx
  · simp only [proceed, ht]
    exact .failed ⟨hc, h.consistent⟩ hi ⟨.of_cache _ _ _, .of_eq hseen⟩
  · have hfits : (Purpose.remove place).Fits (rowsOf e.seen) place none := ⟨rfl, hfound, rfl⟩
    simp only [proceed, ht]
    exact hturn.progress h hi hx hfits install

/-- Who has got a lock on the next page of a scan reads it and goes on, or fails. -/
theorem progress_collect {c : Cursor} (h : e.Sound) (hi : ¬ e.locks.IsBlocked c.txn)
    (seen : List Row) :
    e.Progress c.txn .look Ready ((collect c seen).proceed e).1.result
      ((collect c seen).proceed e).2 := by
  obtain ⟨r, cache, hn, hc⟩ := nextRows_eq h.toCoherent c
  have hq : e.Quiet c.txn { e with cache } := .of_recaches h.toCoherent hc
  cases r with
  | error err =>
    simp only [proceed, hn]
    exact .failed (h.recache hc) hi hq
  | ok rows =>
    simp only [proceed, hn]
    exact Cursor.progress_serveAll { c with next := c.next + 1 } _ _ (h.recache hc) hi hq

/-- Who has got a lock on the next page of a cursor reads it and goes on, or answers with the
error. -/
theorem progress_take {c : Cursor} (h : e.Sound) (hi : ¬ e.locks.IsBlocked c.txn) (more : Nat)
    (given : List Item) :
    e.Progress c.txn .look Ready ((take c more given).proceed e).1.result
      ((take c more given).proceed e).2 := by
  obtain ⟨r, cache, hn, hc⟩ := nextRows_eq h.toCoherent c
  have hq : e.Quiet c.txn { e with cache } := .of_recaches h.toCoherent hc
  cases r with
  | error err =>
    simp only [proceed, hn]
    exact progress_refuse (c := .take c more given) err (h.recache hc) hi hq
  | ok rows =>
    simp only [proceed, hn]
    exact Cursor.progress_serve { c with next := c.next + 1, buffered := rows } _ _ _
      (h.recache hc) hi hq

/-- A call that has got its lock makes progress. -/
theorem progress_proceed (h : e.Sound)
    (hd : e.locks.Decides c.txn c.page c.mode .granted locks) (hl : locks.Consistent)
    (hs : c.Sane e) :
    e.Progress c.txn c.purpose Ready (c.proceed { e with locks }).1.result
      (c.proceed { e with locks }).2 := by
  have hq : e.Quiet c.txn { e with locks } := .of_decides hd
  have h₁ : Sound { e with locks } := h.decide hd hl
  have hi : ¬ locks.IsBlocked c.txn := hd.not_isBlocked nofun
  cases c with
  | fetch txn page access keep =>
    have hm : access.mode ≠ .free := by cases access <;> nofun
    exact hq.progress (progress_fetch h₁ hi (hd.modeOf_ne_free hm) keep)
  | insert i => exact i.progress_tryPage h hd hl hs
  | delete txn place install =>
    exact hq.progress (progress_delete h₁ hi hd.exclusive_of_granted install)
  | collect c seen => exact hq.progress (progress_collect h₁ hi seen)
  | take c more given => exact hq.progress (progress_take h₁ hi more given)

/-- A call makes progress whatever the verdict on its lock, unless it has to wait. -/
theorem progress_answer (h : e.Sound) (hd : e.locks.Decides c.txn c.page c.mode verdict locks)
    (hl : locks.Consistent) (hv : verdict ≠ .blocked) (hs : c.Sane e) :
    e.Progress c.txn c.purpose Ready (c.answer (verdict = .granted) { e with locks }).1.result
      (c.answer (verdict = .granted) { e with locks }).2 := by
  cases verdict with
  | granted => exact progress_proceed h hd hl hs
  | blocked => exact absurd rfl hv
  | deadlock =>
    exact progress_refuse _ (h.decide hd hl) (hd.not_isBlocked hv) (.of_decides hd)

theorem Sane.known (h : c.Sane e) : c.Known e.catalog := by
  cases c with
  | insert i => exact h.1
  | _ => trivial

end Call

/-! ## Up to the end -/

namespace Engine

/-- What a call leads to that runs until it ends or has to wait. -/
theorem progress_run {p : Call → Prop} (hp : ∀ {c d : Call}, p c → d.work < c.work → p d)
    (c : Call) (hc : p c) (h : e.Sound) (hr : Ready c e) :
    e.Progress c.txn c.purpose Blocked (e.run hp c hc).1.result (e.run hp c hc).2 := by
  induction hn : c.work using Nat.strong_induction_on generalizing e c with
  | _ n ih =>
    have hd : LockTable.Decides _ c.txn c.page c.mode _ _ := .of_acquire h.consistent.toSound hr.2
    have hl := h.consistent.acquire c.txn c.page c.mode
    rw [run]
    generalize e.locks.acquire c.txn c.page c.mode = acquired at hd hl
    obtain ⟨verdict, locks⟩ := acquired
    by_cases hv : verdict = .blocked
    · subst hv
      exact .waits (h.decide hd hl) rfl rfl ⟨hr.1.known, hd.waits_self.2 ⟨rfl, rfl, rfl⟩⟩
        (.of_decides hd)
    · have hstage := Call.progress_answer h hd hl hv hr.1
      cases verdict with
      | blocked => exact absurd rfl hv
      | granted | deadlock =>
        all_goals
          dsimp only at hstage ⊢
          generalize c.answer _ { e with locks } = answered at hstage
          obtain ⟨step, e₁⟩ := answered
          cases step with
          | finished outcome => exact hstage.ended
          | waits next hw =>
            cases hstage with
            | waits h₁ hx ht hready hq =>
              have := ih next.work (hn ▸ hw) next (hp hc hw) h₁ hready rfl
              rw [hx, ht] at this
              exact hq.progress this

/-- What a call leads to that goes on after a turn has decided about its lock. -/
theorem progress_resume {c : Call} (h : e.Sound)
    (hd : e.locks.Decides c.txn c.page c.mode verdict locks) (hl : locks.Consistent)
    (hv : verdict ≠ .blocked) (hs : c.Sane e) :
    e.Progress c.txn c.purpose Blocked
      (resume { e with locks } c (verdict = .granted)).1.result
      (resume { e with locks } c (verdict = .granted)).2 := by
  have hstage := Call.progress_answer h hd hl hv hs
  unfold resume
  generalize c.answer _ { e with locks } = answered at hstage
  obtain ⟨step, e₁⟩ := answered
  cases step with
  | finished outcome => exact hstage.ended
  | waits next hw =>
    cases hstage with
    | waits h₁ hx ht hready hq =>
      have := progress_run (fun h hd => Nat.lt_trans hd h) next hw h₁ hready
      rw [hx, ht] at this
      exact hq.progress this

end Engine

/-- A request for an insertion names a table of the catalog, if it names one. -/
def Request.Known (catalog : Catalog) : Request → Prop
  | insertInto _ table _ => catalog.table table.id = .ok table
  | _ => True

/-- A request makes progress up to its first lock. -/
theorem Request.progress_start {r : Request} (h : e.Sound) (hi : ¬ e.locks.IsBlocked r.txn)
    (hr : r.Known e.catalog) :
    e.Progress r.txn r.purpose Ready (r.start e).1.result (r.start e).2 := by
  have hq : e.Quiet r.txn e := .refl _ e
  cases r with
  | fetch txn page access keep => exact .waits h rfl rfl ⟨trivial, hi⟩ hq
  | insert txn id row =>
    cases ht : e.catalog.table id with
    | error err =>
      simp only [start, ht]
      exact .failed h hi hq
    | ok table =>
      have hid : table.id = id := (h.table_id ht).1
      subst hid
      simp only [start, ht]
      exact Insertion.progress_start (i := ⟨txn, table, row, 0, 0, .free, false, true⟩) h hi ht
  | delete txn place =>
    cases place with
    | none => exact .failed h hi hq
    | some place =>
      cases ht : e.catalog.table place.page.table with
      | error err =>
        simp only [start, ht]
        exact .failed h hi hq
      | ok table =>
        simp only [start, ht]
        exact .waits h rfl rfl ⟨trivial, hi⟩ hq
  | insertInto txn table row =>
    exact Insertion.progress_start (i := ⟨txn, table, row, 0, 0, .free, false, false⟩) h hi hr
  | deleteFrom txn table place =>
    cases place with
    | none => exact .failed h hi hq
    | some place =>
      rw [start]
      split
      · exact .failed h hi hq
      · exact .waits h rfl rfl ⟨trivial, hi⟩ hq
  | scan txn table =>
    cases hc : e.openCursor (.new table txn) with
    | error err =>
      simp only [start, hc]
      exact .failed h hi hq
    | ok c =>
      obtain rfl : c.txn = txn := txn_openCursor hc
      simp only [start, hc]
      exact c.progress_serveAll _ _ h hi hq
  | take c count =>
    rw [start]
    exact c.progress_serve count [] (fun _ _ _ _ _ _ _ => trivial) h hi hq

end RowStore
