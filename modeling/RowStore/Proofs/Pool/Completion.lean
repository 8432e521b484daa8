import RowStore.Proofs.Pool.Coherent

/-!
# The ends of transactions

To commit is to write pages back one by one, and `Engine.Settles` says what has become of an engine
in which that has been done for some pages: what transactions see of these pages is stored now, and
nothing else has changed. It composes, so a commit that ends early settles the pages it got to.

To abort is to forget pages: of these, transactions then see what is stored.
-/

namespace RowStore

/-- The log takes every record, and makes it durable. -/
def Journal.Reliable (j : Journal) : Prop :=
  ∀ n, j.appendFault n = none ∧ j.forceFault n = none

theorem Journal.reliable_empty : Journal.empty.Reliable := fun _ => ⟨rfl, rfl⟩

theorem Journal.Reliable.append {j : Journal} (h : j.Reliable) (r : UpdateRecord) :
    ∃ j', j.append r = (.ok (), j') ∧ j'.Reliable := by
  simp only [Journal.append, (h _).1]
  exact ⟨_, rfl, h⟩

theorem Journal.Reliable.force {j : Journal} (h : j.Reliable) :
    ∃ j', j.force = (.ok (), j') ∧ j'.Reliable := by
  simp only [Journal.force, (h _).2]
  exact ⟨_, rfl, h⟩

namespace Engine

variable {e e' e₁ e₂ : Engine} {txn x : TxnId} {page pg : PageId} {p q : Page}
  {pages done : List PageId}

/-! ## Locks for sole use -/

/-- In order, pages come as they are listed, each once. -/
theorem perm_inOrder (e : Engine) (pages : List PageId) : (e.inOrder pages).Perm pages :=
  e.host.order_perm ..

/-- The pages that a transaction holds for itself alone are listed. -/
theorem mem_held : page ∈ e.held txn ↔ e.locks.modeOf txn page = .exclusive := by
  rw [held, (e.perm_inOrder _).mem_iff]
  simp only [LockTable.pagesHeld, List.mem_filter, decide_eq_true_eq, and_iff_right_iff_imp]
  intro hx
  have hm := LockTable.modeOf_eq_exclusive_iff.1 hx
  rw [LockTable.pages, Std.TreeMap.mem_keys, ← Std.TreeMap.isSome_getElem?_iff_mem]
  cases hg : e.locks.granted[page]? with
  | none => simp [LockTable.holders, hg] at hm
  | some records => rfl

/-- Each of them is listed once. -/
theorem nodup_held (e : Engine) (txn : TxnId) : (e.held txn).Nodup :=
  (e.perm_inOrder _).nodup_iff.2 (List.Nodup.filter _ Std.TreeMap.nodup_keys)

/-! ## Writing back -/

/-- What transactions see of the pages is stored now, and nothing else has changed. -/
structure Settles (pages : List PageId) (e e' : Engine) : Prop where
  /-- The tables are the same. -/
  catalog : e'.catalog = e.catalog
  /-- The locks are the same. -/
  locks : e'.locks = e.locks
  /-- The engine is coherent again. -/
  coherent : e'.Coherent
  /-- Transactions see the same pages. -/
  seen : e'.seen = e.seen
  /-- What they see of the pages is stored. -/
  stored : ∀ {page}, page ∈ pages → e'.stored page = e.seen page
  /-- The stored versions of other pages are the same. -/
  stored_of_not_mem : ∀ {page}, page ∉ pages → e'.stored page = e.stored page
  /-- The pages have no marks. -/
  clean : ∀ {page q}, page ∈ pages → e'.cache.page? page = some q → q.dirtiedBy = none
  /-- The cached copies of other pages are the same. -/
  cached_of_not_mem : ∀ {page}, page ∉ pages → e'.cache.page? page = e.cache.page? page
  /-- A log that does not fail does not begin to. -/
  reliable : e.journal.Reliable → e'.journal.Reliable

namespace Settles

theorem refl (h : e.Coherent) : e.Settles [] e where
  catalog := rfl
  locks := rfl
  coherent := h
  seen := rfl
  stored hp := nomatch hp
  stored_of_not_mem _ := rfl
  clean hp := nomatch hp
  cached_of_not_mem _ := rfl
  reliable h := h

theorem trans (h : e.Settles pages e₁) (h' : e₁.Settles done e₂) :
    e.Settles (pages ++ done) e₂ where
  catalog := h'.catalog.trans h.catalog
  locks := h'.locks.trans h.locks
  coherent := h'.coherent
  seen := h'.seen.trans h.seen
  stored {page} hp := by
    by_cases hd : page ∈ done
    · rw [h'.stored hd, h.seen]
    · rw [h'.stored_of_not_mem hd]
      exact h.stored ((List.mem_append.1 hp).resolve_right hd)
  stored_of_not_mem hp := by
    obtain ⟨h₁, h₂⟩ := not_or.1 (mt List.mem_append.2 hp)
    rw [h'.stored_of_not_mem h₂, h.stored_of_not_mem h₁]
  clean {page q} hp hq := by
    by_cases hd : page ∈ done
    · exact h'.clean hd hq
    · rw [h'.cached_of_not_mem hd] at hq
      exact h.clean ((List.mem_append.1 hp).resolve_right hd) hq
  cached_of_not_mem hp := by
    obtain ⟨h₁, h₂⟩ := not_or.1 (mt List.mem_append.2 hp)
    rw [h'.cached_of_not_mem h₂, h.cached_of_not_mem h₁]
  reliable hr := h'.reliable (h.reliable hr)

end Settles

/-- Logging a change only changes the log. -/
theorem logChange_eq (e : Engine) (page : PageId) (txn : TxnId) (p : Page) :
    ∃ result journal, e.logChange page txn p = (result, { e with journal }) ∧
      (e.journal.Reliable → result = .ok () ∧ journal.Reliable) := by
  refine ⟨(e.logChange page txn p).1, (e.logChange page txn p).2.journal, ?_, fun hr => ?_⟩
  · unfold logChange
    split <;> rfl
  · obtain ⟨j₁, ha, hr₁⟩ := hr.append ⟨txn, page, p.before, p.data⟩
    obtain ⟨j₂, hf, hr₂⟩ := hr₁.force
    simp only [logChange, ha, hf]
    exact ⟨trivial, hr₂⟩

/-- What becomes of a page with a mark once it is written back and its bytes count as durable. -/
def written (q : Page) : Page := (q.markDirty none).rebase

/-- The cached copy `q` of the page is stored, and counts as durable. -/
structure WritesBack (page : PageId) (q : Page) (e e' : Engine) : Prop where
  /-- The tables still have files of their own. -/
  wellFormed : e'.toBacking.WellFormed
  /-- The tables are the same. -/
  catalog : e'.catalog = e.catalog
  /-- The locks are the same. -/
  locks : e'.locks = e.locks
  /-- The log is the same. -/
  journal : e'.journal = e.journal
  /-- The page is stored as it is cached. -/
  stored : e'.stored = Function.update e.stored page (some q.asStored)
  /-- The cached copy has no mark. -/
  cached : ∀ pg, e'.cache.page? pg = if pg = page then some (written q) else e.cache.page? pg

namespace WritesBack

/-- Transactions do not see that a page is written back. -/
theorem seen (hq : e.cache.page? page = some q) (h : WritesBack page q e e') :
    e'.seen = e.seen := by
  funext pg
  rw [Engine.seen, Engine.seen, h.cached, h.stored, Function.update_apply]
  split
  · next hpg =>
    rw [hpg, hq]
    rfl
  · rfl

theorem coherent (hc : e.Coherent) (h : WritesBack page q e e') : e'.Coherent where
  toWellFormed := h.wellFormed
  version {pg r} hr := by
    rw [h.cached] at hr
    rw [h.stored, Function.update_apply]
    split at hr
    · next hpg =>
      cases hr
      rw [if_pos hpg]
      exact ⟨_, rfl, rfl, rfl, rfl, rfl, fun _ => rfl⟩
    · next hpg =>
      rw [if_neg hpg]
      exact hc.version hr
  owner {pg r x} hr hd := by
    rw [h.cached] at hr
    rw [h.locks]
    split at hr
    · cases hr
      cases hd
    · exact hc.owner hr hd

theorem settles (hc : e.Coherent) (hq : e.cache.page? page = some q) (h : WritesBack page q e e') :
    e.Settles [page] e' where
  catalog := h.catalog
  locks := h.locks
  coherent := h.coherent hc
  seen := h.seen hq
  stored hpg := by
    rw [List.mem_singleton.1 hpg, h.stored, Function.update_self, seen_of_cached hq]
  stored_of_not_mem hpg := by
    rw [h.stored, Function.update_of_ne (mt List.mem_singleton.2 hpg)]
  clean hpg hr := by
    rw [h.cached, if_pos (List.mem_singleton.1 hpg)] at hr
    cases hr
    rfl
  cached_of_not_mem hpg := by
    rw [h.cached, if_neg (mt List.mem_singleton.2 hpg)]
  reliable hr := h.journal ▸ hr

end WritesBack

namespace Coherent

/-- A page whose stored version is what transactions see is settled. -/
theorem settles_of_clean (h : e.Coherent)
    (hd : ∀ {q}, e.cache.page? page = some q → q.dirtiedBy = none) :
    e.Settles [page] (rebase page e) := by
  have hsame : ∀ pg, (rebase page e).cache.page? pg = e.cache.page? pg := by
    intro pg
    rw [rebase, Cache.page?_update]
    split
    · next hpg =>
      subst hpg
      cases hq : e.cache.page? pg with
      | none => rfl
      | some q =>
        have hs := h.toWellFormed.asStored_eq (h.stored_of_clean hq (hd hq))
        rw [Option.map_some, ← hs]
        rfl
    · rfl
  have hr : e.Recaches (rebase page e).cache := .of_page? hsame
  exact
    { catalog := rfl
      locks := rfl
      coherent := h.recache hr
      seen := h.seen_recache hr
      stored := fun hp => List.mem_singleton.1 hp ▸ (h.seen_of_clean hd).symm
      stored_of_not_mem := fun _ => rfl
      clean := fun hp hq => by
        rw [hsame, List.mem_singleton.1 hp] at hq
        exact hd hq
      cached_of_not_mem := fun _ => hsame _
      reliable := fun hr => hr }

/-- A cached page can be written back. -/
theorem writeBack_eq (h : e.Coherent) (hq : e.cache.page? page = some q) :
    ∃ e', e.writeBack .none page q = (.ok (), e') ∧ WritesBack page q e (rebase page e') := by
  obtain ⟨p, hp, hv⟩ := h.version hq
  have hid := h.id_eq hq
  obtain ⟨t, disk, ht, hw, hwf, hst⟩ := h.toWellFormed.writePage hp hid hv.schema hv.size
  refine ⟨{ e with disk, cache := e.cache.update page (·.markDirty none) }, ?_, ?_⟩
  · simp only [writeBack, Faults.none, ht, hw]
  · refine ⟨hwf, rfl, rfl, rfl, hst, fun pg => ?_⟩
    rw [rebase, Cache.page?_update, Cache.page?_update]
    split
    · next hpg =>
      rw [hpg, hq]
      rfl
    · rfl

theorem withJournal (h : e.Coherent) (journal : Journal) : Coherent { e with journal } :=
  { h with }

/-- Writing a page back and taking its bytes for durable settles it, unless the log fails. -/
theorem flush_cases (h : e.Coherent) (page : PageId) :
    (∃ e', e.flushUnder .none page = (.ok (), e') ∧ e.Settles [page] (rebase page e')) ∨
      ∃ err e', e.flushUnder .none page = (.error err, e') ∧ e.Settles [] e' ∧
        ¬ e.journal.Reliable := by
  cases hq : e.cache.page? page with
  | none =>
    refine .inl ⟨e, ?_, h.settles_of_clean fun hq' => ?_⟩
    · rw [flushUnder, hq]
    · cases hq.symm.trans hq'
  | some q =>
    cases hd : q.dirtiedBy with
    | none =>
      refine .inl ⟨e, ?_, h.settles_of_clean fun hq' => ?_⟩
      · simp only [flushUnder, hq, hd]
      · exact Option.some.inj (hq.symm.trans hq') ▸ hd
    | some txn =>
      obtain ⟨result, journal, hl, hr⟩ := logChange_eq e page txn q
      cases result with
      | error err =>
        refine .inr ⟨err, { e with journal }, ?_, ?_, fun hrel => nomatch (hr hrel).1⟩
        · simp only [flushUnder, hq, hd, hl]
        · exact { Settles.refl h with
            coherent := h.withJournal journal
            reliable := fun hrel => (hr hrel).2 }
      | ok _ =>
        have hj := h.withJournal journal
        obtain ⟨e', hw, hb⟩ := hj.writeBack_eq hq
        have hs := hb.settles hj hq
        refine .inl ⟨e', ?_, { hs with reliable := fun hrel => hs.reliable (hr hrel).2 }⟩
        simp only [flushUnder, hq, hd, hl, hw]

/-- Writing pages back settles those that it gets to: all of them, if the log does not fail. -/
theorem flushEach_cases (h : e.Coherent) (pages : List PageId) :
    (∃ e', flushEach .none rebase pages e = (.ok (), e') ∧ e.Settles pages e') ∨
      ∃ err e' done, flushEach .none rebase pages e = (.error err, e') ∧ done <+: pages ∧
        e.Settles done e' ∧ ¬ e.journal.Reliable := by
  induction pages generalizing e with
  | nil => exact .inl ⟨e, rfl, .refl h⟩
  | cons page pages ih =>
    rcases h.flush_cases page with ⟨e₁, hf, hs⟩ | ⟨err, e₁, hf, hs, hr⟩
    · rcases ih hs.coherent with ⟨e₂, hf₂, hs₂⟩ | ⟨err, e₂, done, hf₂, hd, hs₂, hr⟩
      · refine .inl ⟨e₂, ?_, hs.trans hs₂⟩
        simp only [flushEach, hf, hf₂]
      · refine .inr ⟨err, e₂, page :: done, ?_, List.cons_prefix_cons.2 ⟨rfl, hd⟩, hs.trans hs₂,
          fun hrel => hr (hs.reliable hrel)⟩
        simp only [flushEach, hf, hf₂]
    · refine .inr ⟨err, e₁, [], ?_, List.nil_prefix, hs, hr⟩
      simp only [flushEach, hf]

/-- A commit settles the pages that the transaction holds for itself alone and gives all locks back.
If the log fails, it settles some of these pages and keeps the locks. -/
theorem commit_cases (h : e.Coherent) (txn : TxnId) :
    (∃ e', e.commit txn = (.ok (), e'.releaseAll txn) ∧ e.Settles (e.held txn) e') ∨
      ∃ err e' done, e.commit txn = (.error err, e') ∧ done <+: e.held txn ∧
        e.Settles done e' ∧ ¬ e.journal.Reliable := by
  rcases h.flushEach_cases (e.held txn) with ⟨e', hf, hs⟩ | ⟨err, e', done, hf, hd, hs, hr⟩
  · refine .inl ⟨e', ?_, hs⟩
    simp only [commit, commitUnder, hf]
  · refine .inr ⟨err, e', done, ?_, hd, hs, hr⟩
    simp only [commit, commitUnder, hf]

/-- Giving all locks back is safe once no page has the transaction's mark. -/
theorem releaseAll (h : e.Coherent)
    (hc : ∀ {page q}, e.locks.modeOf txn page = .exclusive → e.cache.page? page = some q →
      q.dirtiedBy = none) : (e.releaseAll txn).Coherent := by
  refine h.withLocks fun {page q x} hq hd => ?_
  have hx := h.owner hq hd
  rw [LockTable.modeOf_releaseAll, if_neg, hx]
  rintro rfl
  cases hd.symm.trans (hc hx hq)

theorem commit (h : e.Coherent) (txn : TxnId) : (e.commit txn).2.Coherent := by
  rcases h.commit_cases txn with ⟨e', hc, hs⟩ | ⟨err, e', done, hc, -, hs, -⟩
  · rw [hc]
    refine hs.coherent.releaseAll fun {page q} hx hq => ?_
    rw [hs.locks] at hx
    exact hs.clean (mem_held.2 hx) hq
  · rw [hc]
    exact hs.coherent

/-- Transactions do not see whether a change has been written back. -/
theorem seen_commit (h : e.Coherent) (txn : TxnId) : (e.commit txn).2.seen = e.seen := by
  rcases h.commit_cases txn with ⟨e', hc, hs⟩ | ⟨err, e', done, hc, -, hs, -⟩
  · rw [hc]
    exact hs.seen
  · rw [hc]
    exact hs.seen

end Coherent

/-! ## Forgetting -/

/-- The engine without the cached copies of some pages. -/
theorem foldl_discard (e : Engine) (pages : List PageId) :
    ∃ c, pages.foldl discard e = { e with cache := c } ∧
      ∀ pg, c.page? pg = if pg ∈ pages then none else e.cache.page? pg := by
  induction pages generalizing e with
  | nil => exact ⟨e.cache, rfl, fun pg => rfl⟩
  | cons page pages ih =>
    obtain ⟨c, hc, hp⟩ := ih (e.discard page)
    refine ⟨c, hc, fun pg => ?_⟩
    rw [hp, discard, Cache.page?_discard]
    by_cases h₁ : pg = page <;> by_cases h₂ : pg ∈ pages <;> simp [h₁, h₂]

/-- An abort forgets the pages that the transaction holds for itself alone, and gives all locks
back. -/
theorem abort_eq (e : Engine) (txn : TxnId) :
    ∃ c, e.abort txn = ({ e with cache := c } : Engine).releaseAll txn ∧
      ∀ pg, c.page? pg =
        if e.locks.modeOf txn pg = .exclusive then none else e.cache.page? pg := by
  obtain ⟨c, hc, hp⟩ := foldl_discard e (e.held txn)
  refine ⟨c, ?_, fun pg => ?_⟩
  · rw [abort, hc]
  · rw [hp]
    exact if_congr mem_held rfl rfl

theorem Coherent.abort (h : e.Coherent) (txn : TxnId) : (e.abort txn).Coherent := by
  obtain ⟨c, hc, hp⟩ := abort_eq e txn
  have hkept : ∀ {pg q}, c.page? pg = some q →
      e.locks.modeOf txn pg ≠ .exclusive ∧ e.cache.page? pg = some q := by
    intro pg q hq
    rw [hp] at hq
    split at hq
    · cases hq
    · next hx => exact ⟨hx, hq⟩
  rw [hc]
  have hcoh : Coherent { e with cache := c } :=
    { toWellFormed := h.toWellFormed
      version := fun hq => h.version (hkept hq).2
      owner := fun hq hd => h.owner (hkept hq).2 hd }
  exact hcoh.releaseAll fun hx hq => absurd hx (hkept hq).1

/-- After an abort transactions see the stored versions of the pages that were held, and of the
others what they saw. -/
theorem seen_abort (e : Engine) (txn : TxnId) (page : PageId) :
    (e.abort txn).seen page =
      if e.locks.modeOf txn page = .exclusive then e.stored page else e.seen page := by
  obtain ⟨c, hc, hp⟩ := abort_eq e txn
  rw [hc]
  change ((c.page? page).map Page.asStored).or (e.stored page) = _
  rw [hp]
  split <;> rfl

theorem toBacking_abort (e : Engine) (txn : TxnId) : (e.abort txn).toBacking = e.toBacking := by
  obtain ⟨c, hc, -⟩ := abort_eq e txn
  rw [hc]
  rfl

theorem locks_abort (e : Engine) (txn : TxnId) :
    (e.abort txn).locks = e.locks.releaseAll txn := by
  obtain ⟨c, hc, -⟩ := abort_eq e txn
  rw [hc]
  rfl

end Engine

end RowStore
