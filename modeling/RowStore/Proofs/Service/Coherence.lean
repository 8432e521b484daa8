import RowStore.Proofs.Database
import RowStore.Proofs.Service.Sound

/-!
# Cache coherence

Changes stay in the cache until their transaction ends, and a commit writes them back at once. So
what a file has of a page is what was last committed, a cached copy differs from it only by what the
one transaction has changed that holds the page for itself alone, and nobody else gets to see it.
`Service.CacheCoherent` says this of a service, whatever is done to it next, and it holds after
every run.
-/

namespace RowStore

open Engine

namespace Service

/-- The cached copies are in step with the stored pages, and the next action keeps them so. -/
structure CacheCoherent (s : Service) : Prop where
  /-- A cached copy of a page that nobody holds for itself alone is clean and has the bytes that are
  remembered and stored. -/
  unheld : ∀ {page q}, s.engine.cache.page? page = some q →
    (∀ txn, s.engine.locks.modeOf txn page ≠ .exclusive) →
    ∃ p, s.engine.stored page = some p ∧ q.dirtiedBy = none ∧ q.data = p.data ∧
      q.before = p.data
  /-- A cached copy of a page that a transaction holds for itself alone remembers the stored bytes,
  and is clean and has them, or is marked with this transaction. -/
  held : ∀ {page q txn}, s.engine.cache.page? page = some q →
    s.engine.locks.modeOf txn page = .exclusive →
    ∃ p, s.engine.stored page = some p ∧ q.before = p.data ∧
      (q.dirtiedBy = none ∧ q.data = p.data ∨ q.dirtiedBy = some txn)
  /-- A file changes when a transaction commits: then it has of a page that was held for the
  transaction alone what the transaction saw of it. Otherwise it gets at most a page without rows
  more. -/
  stored_perform : ∀ {a}, s.PermitsWrites a → ∀ page,
    GrowsAt s.engine.stored (s.perform a).2.engine.stored page ∨
    ∃ txn, a = .commit txn ∧ s.engine.locks.modeOf txn page = .exclusive ∧
      (s.perform a).2.engine.stored page = s.engine.seen page
  /-- What transactions see of a page is changed by none but who holds the page for itself alone. -/
  seen_perform : ∀ {a}, s.PermitsWrites a → ∀ page,
    GrowsAt s.engine.seen (s.perform a).2.engine.seen page ∨
    ∃ txn, a.actor = some txn ∧ (s.engine.locks.modeOf txn page = .exclusive ∨
      (s.perform a).2.engine.locks.modeOf txn page = .exclusive)
  /-- Who asks for a page with success is shown the stored bytes, or what it has made of them
  itself. -/
  fetched : ∀ {a page reply}, s.PermitsWrites a → s.purpose a = .fetch page →
    (s.perform a).1 = some (.ok reply) →
    ∃ k q p, reply = .handle k q ∧ a.actor = some k.txn ∧ k.page = page ∧
      (s.perform a).2.engine.stored page = some p ∧ q.before = p.data ∧
      (q.dirtiedBy = none ∧ q.data = p.data ∨ q.dirtiedBy = some k.txn)

variable {s s' : Service} {a : Action} {txn : TxnId} {task : Purpose} {o : Option Outcome}
  {page : PageId}

/-! ## Cached copies -/

theorem Sound.unheld (h : s.Sound) {q : Page} (hq : s.engine.cache.page? page = some q)
    (hx : ∀ txn, s.engine.locks.modeOf txn page ≠ .exclusive) :
    ∃ p, s.engine.stored page = some p ∧ q.dirtiedBy = none ∧ q.data = p.data ∧
      q.before = p.data := by
  obtain ⟨p, hp, hv⟩ := h.engine.version hq
  have hd : q.dirtiedBy = none := by
    cases hd : q.dirtiedBy with
    | none => rfl
    | some txn => exact absurd (h.engine.owner hq hd) (hx txn)
  exact ⟨p, hp, hd, hv.clean hd, hv.before⟩

/-- Beside the lock of one transaction, nobody else has marked the page. -/
theorem Sound.clean_or_own (h : s.Sound) {q : Page} (hq : s.engine.cache.page? page = some q)
    (hm : s.engine.locks.modeOf txn page ≠ .free) :
    ∃ p, s.engine.stored page = some p ∧ q.before = p.data ∧
      (q.dirtiedBy = none ∧ q.data = p.data ∨ q.dirtiedBy = some txn) := by
  obtain ⟨p, hp, hv⟩ := h.engine.version hq
  refine ⟨p, hp, hv.before, ?_⟩
  cases hd : q.dirtiedBy with
  | none => exact .inl ⟨rfl, hv.clean hd⟩
  | some x =>
    right
    by_contra hne
    refine hm (h.engine.consistent.toSound.modeOf_eq_free_of_ne (h.engine.owner hq hd) ?_)
    rintro rfl
    exact hne rfl

/-! ## What calls leave alone -/

/-- A call changes no file, unless a table grows. -/
theorem Moves.stored (h : s.Moves txn task o s') (ho : o ≠ some (.error .overflow)) :
    Grows s.engine.stored s'.engine.stored := by
  obtain ⟨⟨result, hp, hres, -⟩, -⟩ := h
  cases hp with
  | done _ _ _ _ _ _ he => exact he.stored
  | looked _ _ _ _ hq => exact hq.stored
  | failed _ _ hq => exact hq.stored
  | overflown => exact absurd hres ho
  | waits _ _ _ _ hq => exact hq.stored

/-- A call changes what transactions see of at most one page, which its transaction holds for itself
alone then. -/
theorem Moves.seen (h : s.Moves txn task o s') (ho : o ≠ some (.error .overflow)) (page : PageId) :
    GrowsAt s.engine.seen s'.engine.seen page ∨
      s'.engine.locks.modeOf txn page = .exclusive := by
  obtain ⟨⟨result, hp, hres, -⟩, -⟩ := h
  cases hp with
  | done _ _ _ place content _ he =>
    obtain ⟨f, p, q, hf, -, -, hseen⟩ := he.seen
    by_cases hpg : page = place.page
    · exact .inr (hpg ▸ he.held)
    · rw [GrowsAt, hseen, Function.update_of_ne hpg]
      exact .inl (hf page)
  | looked _ _ _ _ hq => exact .inl (hq.seen page)
  | failed _ _ hq => exact .inl (hq.seen page)
  | overflown => exact absurd hres ho
  | waits _ _ _ _ hq => exact .inl (hq.seen page)

/-- A call for a page that ends well answers with a handle. -/
theorem Moves.answers (h : s.Moves txn task o s') {reply : Reply} (ho : o = some (.ok reply)) :
    reply.Answers s'.engine txn task := by
  obtain ⟨⟨result, hp, hres, -⟩, -⟩ := h
  cases hp with
  | done _ _ hr =>
    rw [hres] at ho
    cases ho
    exact hr
  | looked _ _ hr =>
    rw [hres] at ho
    cases ho
    exact hr
  | failed | overflown | waits =>
    rw [hres] at ho
    cases ho

/-! ## One action -/

theorem Sound.stored_perform (h : s.Sound) (ha : s.PermitsWrites a) (page : PageId) :
    GrowsAt s.engine.stored (s.perform a).2.engine.stored page ∨
    ∃ txn, a = .commit txn ∧ s.engine.locks.modeOf txn page = .exclusive ∧
      (s.perform a).2.engine.stored page = s.engine.seen page := by
  rcases ha with ha | ⟨k, change, rfl, -, -⟩
  · cases a with
    | issue r =>
      obtain ⟨txn, -, hm⟩ := moves_perform h ha (.inl ⟨r, rfl⟩)
      exact .inl (hm.stored ha.2 page)
    | turn w =>
      obtain ⟨txn, -, hm⟩ := moves_perform h ha (.inr ⟨w, rfl⟩)
      exact .inl (hm.stored ha.2 page)
    | letGo k =>
      obtain ⟨c, hc, -⟩ := recaches_perform (s := s) (.inr ⟨k, rfl⟩)
      rw [hc]
      exact .inl (.inl rfl)
    | evict =>
      obtain ⟨c, hc, -⟩ := recaches_perform (s := s) (.inl rfl)
      rw [hc]
      exact .inl (.inl rfl)
    | commit txn =>
      rw [perform_commit]
      rcases h.engine.toCoherent.commit_cases txn with ⟨e, he, hs⟩ | ⟨err, e, done, he, hd, hs, -⟩
      · rw [he]
        by_cases hx : page ∈ s.engine.held txn
        · exact .inr ⟨txn, rfl, mem_held.1 hx, hs.stored hx⟩
        · exact .inl (.inl (hs.stored_of_not_mem hx))
      · rw [he]
        by_cases hx : page ∈ done
        · exact .inr ⟨txn, rfl, mem_held.1 (hd.subset hx), hs.stored hx⟩
        · exact .inl (.inl (hs.stored_of_not_mem hx))
    | abort txn =>
      rw [perform_abort, toBacking_abort]
      exact .inl (.inl rfl)
    | write | install | flush | flushHeld | flushAll | discard | release => exact ha.1.elim
  · rcases write_cases s k change with ⟨err, he⟩ | ⟨q, hq, he⟩
    · rw [he]
      exact .inl (.inl rfl)
    · rw [he]
      exact .inl (.inl rfl)

/-- What an action does to the files, unless it is a commit, is at most to let them grow. -/
theorem Sound.grows_perform (h : s.Sound) (ha : s.PermitsWrites a) (hc : ∀ txn, a ≠ .commit txn) :
    Grows s.engine.stored (s.perform a).2.engine.stored := fun page =>
  (h.stored_perform ha page).resolve_right fun ⟨txn, he, _⟩ => hc txn he

theorem Sound.seen_perform (h : s.Sound) (ha : s.PermitsWrites a) (page : PageId) :
    GrowsAt s.engine.seen (s.perform a).2.engine.seen page ∨
    ∃ txn, a.actor = some txn ∧ (s.engine.locks.modeOf txn page = .exclusive ∨
      (s.perform a).2.engine.locks.modeOf txn page = .exclusive) := by
  rcases ha with ha | ⟨k, change, rfl, -, hx⟩
  · cases a with
    | issue r =>
      obtain ⟨txn, hact, hm⟩ := moves_perform h ha (.inl ⟨r, rfl⟩)
      exact (hm.seen ha.2 page).imp_right fun hx => ⟨txn, hact, .inr hx⟩
    | turn w =>
      obtain ⟨txn, hact, hm⟩ := moves_perform h ha (.inr ⟨w, rfl⟩)
      exact (hm.seen ha.2 page).imp_right fun hx => ⟨txn, hact, .inr hx⟩
    | letGo k =>
      obtain ⟨c, hc, hr⟩ := recaches_perform (s := s) (.inr ⟨k, rfl⟩)
      rw [hc]
      exact .inl (.inl (congrFun (h.engine.toCoherent.seen_recache hr) page))
    | evict =>
      obtain ⟨c, hc, hr⟩ := recaches_perform (s := s) (.inl rfl)
      rw [hc]
      exact .inl (.inl (congrFun (h.engine.toCoherent.seen_recache hr) page))
    | commit txn => exact .inl (.inl (congrFun (h.engine.toCoherent.seen_commit txn) page))
    | abort txn =>
      rw [perform_abort]
      by_cases hx : s.engine.locks.modeOf txn page = .exclusive
      · exact .inr ⟨txn, rfl, .inl hx⟩
      · exact .inl (.inl ((seen_abort s.engine txn page).trans (if_neg hx)))
    | write | install | flush | flushHeld | flushAll | discard | release => exact ha.1.elim
  · by_cases hpg : page = k.page
    · exact .inr ⟨k.txn, rfl, .inl (hpg ▸ hx)⟩
    · rcases write_cases s k change with ⟨err, he⟩ | ⟨q, hq, he⟩
      · rw [he]
        exact .inl (.inl rfl)
      · rw [he]
        left
        left
        exact (congrFun (Coherent.seen_update hq) page).trans (Function.update_of_ne hpg ..)

/-- Who asks for a page with success gets a handle and is shown the cached copy, and transactions
see the same pages as before. -/
theorem Sound.fetch_answers (h : s.Sound) (ha : s.PermitsWrites a)
    (hp : s.purpose a = .fetch page) {reply : Reply} (ho : (s.perform a).1 = some (.ok reply)) :
    ∃ k q, reply = .handle k q ∧ a.actor = some k.txn ∧ k.page = page ∧
      (s.perform a).2.engine.cache.page? page = some q ∧
      (s.perform a).2.engine.locks.modeOf k.txn page ≠ .free ∧
      Grows s.engine.seen (s.perform a).2.engine.seen := by
  have hcall : (∃ r, a = .issue r) ∨ ∃ w, a = .turn w := by
    cases a with
    | issue r => exact .inl ⟨r, rfl⟩
    | turn w => exact .inr ⟨w, rfl⟩
    | _ => cases hp
  have hper : s.Permits a := by
    rcases ha with ha | ⟨k, change, rfl, -⟩
    · exact ha
    · cases hp
  obtain ⟨txn, hact, hm⟩ := moves_perform h hper hcall
  have hans := hm.answers ho
  obtain ⟨⟨result, hprog, hres, -⟩, -⟩ := hm
  rw [hp] at hans hprog
  cases reply with
  | handle k q =>
    obtain ⟨hk, rfl, hq, hmode⟩ := hans
    obtain rfl : page = k.page := Purpose.fetch.inj hk
    refine ⟨k, q, rfl, hact, rfl, hq, hmode, ?_⟩
    cases hprog with
    | done _ _ _ _ _ hfits => exact hfits.elim
    | looked _ _ _ _ hquiet => exact hquiet.seen
    | failed | overflown | waits => cases hres.symm.trans ho
  | done | pages | rows | items => exact absurd rfl (hans page)

theorem Sound.fetched (h : s.Sound) (ha : s.PermitsWrites a) (hp : s.purpose a = .fetch page)
    {reply : Reply} (ho : (s.perform a).1 = some (.ok reply)) :
    ∃ k q p, reply = .handle k q ∧ a.actor = some k.txn ∧ k.page = page ∧
      (s.perform a).2.engine.stored page = some p ∧ q.before = p.data ∧
      (q.dirtiedBy = none ∧ q.data = p.data ∨ q.dirtiedBy = some k.txn) := by
  obtain ⟨k, q, hr, hact, hk, hq, hmode, -⟩ := h.fetch_answers ha hp ho
  obtain ⟨p, hp, hb, hc⟩ := (h.perform ha).clean_or_own hq hmode
  exact ⟨k, q, p, hr, hact, hk, hp, hb, hc⟩

/-! ## Runs -/

/-- After every run that starts with an empty pool, whatever the files have, the cached copies are
in step with the stored pages, and the next action keeps them so. -/
theorem Runs.cacheCoherent {backing : Backing} (hb : backing.WellFormed) {capacity : Nat}
    {choices : Nat → Nat} {as : List Action}
    (h : (start backing capacity choices).Runs PermitsWrites as) :
    ((start backing capacity choices).after as).CacheCoherent := by
  have hs := (Sound.start hb capacity choices).after h
  exact
    { unheld := hs.unheld
      held := fun hq hx => hs.clean_or_own hq (hx ▸ by decide)
      stored_perform := fun ha page => hs.stored_perform ha page
      seen_perform := fun ha page => hs.seen_perform ha page
      fetched := fun ha hp ho => hs.fetched ha hp ho }

end Service

namespace Sample

/-- A transaction deletes a row through a handle and commits. Another one wants to read the page
meanwhile, and has to wait. -/
def shown : List Action :=
  [.issue (.fetch 1 page .write false),
    .write ⟨page, 1, .write, 0⟩ fun p => ((p.delete (some ⟨page, 0⟩)).toOption).getD p,
    .issue (.fetch 2 page .read false), .commit 1, .turn ⟨2, page, .shared, true⟩]

theorem edited_delete (p : Page) (place : Option RowId) :
    p.Edited ((p.delete place).toOption.getD p) := by
  cases h : p.delete place with
  | error err => exact .refl
  | ok q => exact .delete .refl h

theorem runs_shown : (Service.start backing 2 id).Runs Service.PermitsWrites shown :=
  ⟨.inl ⟨⟨trivial, of_decide_eq_true (by cbv)⟩, of_decide_eq_true (by cbv)⟩,
    .inr ⟨_, _, rfl, fun p => edited_delete p _, of_decide_eq_true (by cbv)⟩,
    .inl ⟨⟨trivial, of_decide_eq_true (by cbv)⟩, of_decide_eq_true (by cbv)⟩,
    .inl ⟨of_decide_eq_true (by cbv), of_decide_eq_true (by cbv)⟩,
    .inl ⟨of_decide_eq_true (by cbv), of_decide_eq_true (by cbv)⟩, trivial⟩

/-- The cache is coherent after this run, and the page that has been read lacks the row. -/
theorem cacheCoherent_shown :
    backing.WellFormed ∧ (Service.start backing 2 id).Runs Service.PermitsWrites shown ∧
      ((Service.start backing 2 id).after shown).CacheCoherent ∧
      (((Service.start backing 2 id).after shown).engine.cache.page? page).map (·.slot? 0) =
        some none :=
  ⟨wellFormed_backing, runs_shown, Service.Runs.cacheCoherent wellFormed_backing runs_shown,
    by cbv⟩

end Sample

end RowStore
