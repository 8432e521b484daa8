import RowStore.Proofs.Call.Twins
import RowStore.Proofs.Database
import RowStore.Proofs.Service.Sound

/-!
# Evictions that nobody notices

A cache that is full evicts a clean page for a new one, and which one is its own choice. Runs in
which it chooses differently go apart: one reads a page from its file where the other has it
cached, and after an abort they need not even cache as many pages. But no request tells them
apart. Its outcome is the same, it waits and goes on at the same time, and the files, the log,
the locks and the marked pages stay the same. `Service.Runs.eviction_unseen` says so.

Only the frames that handles refer to may be others. So the transactions do not write through
handles that they have been given, which are stale as soon as their page is evicted, and pages
are evicted only to make room: an eviction that is asked for fails if nothing clean happens to
be cached.
-/

namespace RowStore

open Engine

namespace Service

variable {s s' : Service} {a : Action} {as : List Action} {txn : TxnId} {r : Request} {w : Waiter}

/-! ## Services that differ in clean pages -/

/-- The services differ at most in the clean pages that are cached. -/
structure Twins (s s' : Service) : Prop where
  /-- The tables, the files and the log are the same. -/
  backing : s'.engine.toBacking = s.engine.toBacking
  /-- The locks are the same, and so are the requests that wait for them. -/
  locks : s'.engine.locks = s.engine.locks
  /-- The same calls wait. -/
  blocked : s'.blocked = s.blocked
  /-- The same pages are marked in the caches, with the same content. -/
  cache : s.engine.cache.Twins s'.engine.cache

namespace Twins

theorem of_engine (h : s.engine.Twins s'.engine) (hb : s'.blocked = s.blocked) : s.Twins s' :=
  ⟨h.toBacking, h.locks, hb, h.cache⟩

theorem engine (h : s.Twins s') : s.engine.Twins s'.engine :=
  .of_cache h.backing h.locks h.cache

theorem start (backing : Backing) (capacity : Nat) (choices choices' : Nat → Nat) :
    (start backing capacity choices).Twins (.start backing capacity choices') where
  backing := rfl
  locks := rfl
  blocked := rfl
  cache := ⟨rfl, fun _ => rfl, .empty capacity choices, .empty capacity choices'⟩

/-- The same transactions have waiting calls. -/
theorem hasBlocked_iff (h : s.Twins s') : s'.HasBlocked txn ↔ s.HasBlocked txn := by
  rw [HasBlocked, HasBlocked, h.blocked]

end Twins

/-! ## Actions -/

/-- The result of an action, whatever frame a handle refers to. -/
def shownResult (o : Option Outcome) : Option Outcome := o.map Outcome.shown

theorem shownResult_eq_error_iff {o : Option Outcome} {err : Error} :
    shownResult o = some (.error err) ↔ o = some (.error err) := by
  cases o with
  | none => exact Iff.rfl
  | some o =>
    simp only [shownResult, Option.map_some, Option.some.injEq, Outcome.shown_eq_error_iff]

/-- The results are the same, and the services differ at most in the clean pages that are cached. -/
structure Matches (x x' : Option Outcome × Service) : Prop where
  /-- The results are the same, whatever frame a handle refers to. -/
  result : shownResult x'.1 = shownResult x.1
  /-- The services are twins. -/
  twins : x.2.Twins x'.2

/-- Pages are evicted only to make room. -/
def PermitsRequests (s : Service) (a : Action) : Prop := s.Permits a ∧ a ≠ .evict

namespace Twins

/-- A request has the same result in twins. -/
theorem issue (h : s.Twins s') (hs : s.Sound) (hs' : s'.Sound) (hi : ¬ s.HasBlocked r.txn)
    (hr : r.Known s.engine.catalog) : Matches (s.issue r) (s'.issue r) := by
  have hidle : ¬ s.engine.locks.IsBlocked r.txn := mt hs.isBlocked_iff.1 hi
  have hidle' : ¬ s'.engine.locks.IsBlocked r.txn := h.locks ▸ hidle
  have hr' : r.Known s'.engine.catalog := h.backing ▸ hr
  have hstart := r.agree_start h.engine
  have hprog := Request.progress_start hs.engine hidle hr
  have hprog' := Request.progress_start hs'.engine hidle' hr'
  unfold Service.issue
  generalize r.start s.engine = x at hstart hprog
  generalize r.start s'.engine = x' at hstart hprog'
  cases hstart with
  | finished ho ht => exact ⟨congrArg some ho, .of_engine ht h.blocked⟩
  | @waits c _ e e' ht =>
    cases hprog with
    | waits h₁ _ _ hready =>
      cases hprog' with
      | waits h₁' =>
        have hrun := agree_run (p := fun _ => True) (fun _ _ => trivial) c trivial ht h₁ h₁' hready
        dsimp only
        generalize e.run (p := fun _ => True) _ c trivial = y at hrun
        generalize e'.run (p := fun _ => True) _ c trivial = y' at hrun
        cases hrun with
        | finished ho ht => exact ⟨congrArg some ho, .of_engine ht h.blocked⟩
        | @waits next _ _ _ ht => exact ⟨rfl, .of_engine ht (congrArg (· ++ [next]) h.blocked)⟩

/-- A turn has the same result in twins. -/
theorem turn (h : s.Twins s') (hs : s.Sound) (hs' : s'.Sound) (hw : w ∈ s.engine.locks.waiting) :
    Matches (s.turn w) (s'.turn w) := by
  obtain ⟨c, hc, hf, ht, hp, hm⟩ := find?_eq_some hs hw
  have hd := LockTable.Decides.of_retry hs.engine.consistent hw
  have hl := hs.engine.consistent.retry hw
  rw [← ht, ← hp, ← hm] at hd
  unfold Service.turn
  rw [h.blocked, hf, h.locks]
  generalize s.engine.locks.retry w = retried at hd hl
  obtain ⟨verdict, locks⟩ := retried
  dsimp only at hd hl ⊢
  by_cases hv : verdict = .blocked
  · rw [if_pos hv, if_pos hv]
    exact ⟨rfl, .of_engine (h.engine.withLocks locks) rfl⟩
  · rw [if_neg hv, if_neg hv]
    have hres := agree_resume h.engine hs.engine hs'.engine hd hl hv (sane_of_blocked hs hc)
    generalize resume { s.engine with locks } c (verdict = .granted) = y at hres
    generalize resume { s'.engine with locks } c (verdict = .granted) = y' at hres
    cases hres with
    | finished ho ht => exact ⟨congrArg some ho, .of_engine ht rfl⟩
    | waits ht => exact ⟨rfl, .of_engine ht rfl⟩

/-- An action that is permitted has the same result in twins. -/
theorem perform (h : s.Twins s') (hs : s.Sound) (hs' : s'.Sound) (ha : s.PermitsRequests a) :
    Matches (s.perform a) (s'.perform a) := by
  obtain ⟨⟨ha, -⟩, hne⟩ := ha
  cases a with
  | issue r => exact h.issue hs hs' ha.2 ha.1
  | turn w => exact h.turn hs hs' ha
  | letGo k =>
    have hc := h.engine.step (h.cache.left.letGo k) (h.cache.right.letGo k)
    exact ⟨rfl, .of_engine hc h.blocked⟩
  | evict => exact absurd rfl hne
  | commit txn =>
    have hcommit := h.engine.commit txn
    unfold Service.perform
    dsimp only
    generalize s.engine.commit txn = x, s'.engine.commit txn = x' at hcommit
    cases hcommit with
    | mk result ht => exact ⟨rfl, .of_engine ht h.blocked⟩
  | abort txn => exact ⟨rfl, .of_engine (h.engine.abort txn) h.blocked⟩
  | write | install | flush | flushHeld | flushAll | discard | release => exact ha.elim

/-- What is permitted in one of the twins is permitted in the other. -/
theorem permits (h : s.Twins s') (hs : s.Sound) (hs' : s'.Sound) (ha : s.PermitsRequests a) :
    s'.PermitsRequests a := by
  have hmatch := (h.perform hs hs' ha).result
  obtain ⟨⟨ha, ho⟩, hne⟩ := ha
  refine ⟨⟨?_, fun ho' => ho ?_⟩, hne⟩
  · cases a with
    | issue r => exact ⟨h.backing ▸ ha.1, mt h.hasBlocked_iff.1 ha.2⟩
    | turn w => exact h.locks ▸ ha
    | commit txn | abort txn => exact mt h.hasBlocked_iff.1 ha
    | letGo | evict => trivial
    | write | install | flush | flushHeld | flushAll | discard | release => exact ha.elim
  · rw [← shownResult_eq_error_iff, ← hmatch, shownResult_eq_error_iff]
    exact ho'

end Twins

/-! ## Runs -/

/-- The results of a series of actions, one after the other. -/
def results : Service → List Action → List (Option Outcome)
  | _, [] => []
  | s, a :: as => (s.perform a).1 :: (s.perform a).2.results as

/-- A run in one of the twins is one in the other, with the same results, and it leaves twins. -/
theorem Twins.run (h : s.Twins s') (hs : s.Sound) (hs' : s'.Sound)
    (hr : s.Runs PermitsRequests as) : s'.Runs PermitsRequests as ∧
      (s'.results as).map shownResult = (s.results as).map shownResult ∧
      ∀ first, first <+: as → (s.after first).Twins (s'.after first) := by
  induction as generalizing s s' with
  | nil =>
    refine ⟨trivial, rfl, fun first hf => ?_⟩
    rw [List.prefix_nil.1 hf]
    exact h
  | cons a as ih =>
    obtain ⟨ha, hr⟩ := hr
    have ha' := h.permits hs hs' ha
    have hmatch := h.perform hs hs' ha
    obtain ⟨hr', hres, htwins⟩ :=
      ih hmatch.twins (hs.perform (.inl ha.1)) (hs'.perform (.inl ha'.1)) hr
    refine ⟨⟨ha', hr'⟩, ?_, fun first hf => ?_⟩
    · exact congrArg₂ List.cons hmatch.result hres
    · cases first with
      | nil => exact h
      | cons b first =>
        obtain ⟨rfl, hrest⟩ := List.cons_prefix_cons.1 hf
        exact htwins first hrest

/-- Whatever a cache chooses to evict, a run that starts with an empty pool has the same
results, the same calls wait and go on at the same time, and at every point the files, the log,
the locks and the marked pages are the same. -/
theorem Runs.eviction_unseen {backing : Backing} (hb : backing.WellFormed) {capacity : Nat}
    {choices choices' : Nat → Nat}
    (h : (start backing capacity choices).Runs PermitsRequests as) :
    (start backing capacity choices').Runs PermitsRequests as ∧
      ((start backing capacity choices').results as).map shownResult =
        ((start backing capacity choices).results as).map shownResult ∧
      ∀ first, first <+: as → ((start backing capacity choices).after first).Twins
        ((start backing capacity choices').after first) :=
  (Twins.start backing capacity choices choices').run (.start hb capacity choices)
    (.start hb capacity choices') h

end Service

namespace Sample

/-- The table's file has three pages with room for two rows each, the first of which is there. -/
def wide : Backing where
  catalog := Catalog.empty.add table table.file
  disk := Disk.empty.put ⟨table.file, 9, .ofBytes [1, 0, 0, 0, 5, 0, 0, 0, 0,
    1, 0, 0, 0, 6, 0, 0, 0, 0, 1, 0, 0, 0, 7, 0, 0, 0, 0], 0⟩
  journal := .empty
  host := .plain

theorem wellFormed_wide : wide.WellFormed :=
  (Backing.wellFormed_empty .empty .plain).add (f := ⟨table.file, 9, _, 0⟩) (by decide)
    table.schema _

/-- A page of the table. -/
def wideAt (number : Nat) : PageId := ⟨table.id, number⟩

/-- A transaction reads the three pages, of which the cache can hold two. Another one changes the
first two, and then there is no room for the third. It commits, and a third transaction reads the
whole table. -/
def crowding : List Action :=
  [.issue (.fetch 1 (wideAt 0) .read false), .issue (.fetch 1 (wideAt 1) .read false),
    .issue (.fetch 1 (wideAt 2) .read false), .commit 1,
    .issue (.insert 2 table.id ⟨[.int 8], none⟩), .issue (.delete 2 (some ⟨wideAt 1, 0⟩)),
    .issue (.fetch 2 (wideAt 2) .read false), .commit 2, .issue (.scan 3 table)]

/-- The cache chooses the first of the eligible pages, or the second. -/
def choosing (choice : Nat) : Service := .start wide 2 fun _ => choice

theorem runs_crowding : (choosing 0).Runs Service.PermitsRequests crowding :=
  ⟨⟨⟨⟨trivial, of_decide_eq_true (by cbv)⟩, of_decide_eq_true (by cbv)⟩, nofun⟩,
    ⟨⟨⟨trivial, of_decide_eq_true (by cbv)⟩, of_decide_eq_true (by cbv)⟩, nofun⟩,
    ⟨⟨⟨trivial, of_decide_eq_true (by cbv)⟩, of_decide_eq_true (by cbv)⟩, nofun⟩,
    ⟨⟨of_decide_eq_true (by cbv), of_decide_eq_true (by cbv)⟩, nofun⟩,
    ⟨⟨⟨trivial, of_decide_eq_true (by cbv)⟩, of_decide_eq_true (by cbv)⟩, nofun⟩,
    ⟨⟨⟨trivial, of_decide_eq_true (by cbv)⟩, of_decide_eq_true (by cbv)⟩, nofun⟩,
    ⟨⟨⟨trivial, of_decide_eq_true (by cbv)⟩, of_decide_eq_true (by cbv)⟩, nofun⟩,
    ⟨⟨of_decide_eq_true (by cbv), of_decide_eq_true (by cbv)⟩, nofun⟩,
    ⟨⟨⟨trivial, of_decide_eq_true (by cbv)⟩, of_decide_eq_true (by cbv)⟩, nofun⟩, trivial⟩

/-- The two runs evict different pages, but the results are the same. That there is no room for the
third page is one of them. -/
theorem eviction_unseen_crowding : wide.WellFormed ∧
    (choosing 0).Runs Service.PermitsRequests crowding ∧
    ((choosing 1).Runs Service.PermitsRequests crowding ∧
      ((choosing 1).results crowding).map Service.shownResult =
        ((choosing 0).results crowding).map Service.shownResult ∧
      ∀ first, first <+: crowding →
        ((choosing 0).after first).Twins ((choosing 1).after first)) ∧
    ((choosing 0).after (crowding.take 3)).engine.cache.pages = [wideAt 1, wideAt 2] ∧
    ((choosing 1).after (crowding.take 3)).engine.cache.pages = [wideAt 0, wideAt 2] ∧
    ((choosing 0).results crowding)[6]? = some (some (.error (.allPagesDirty 2))) :=
  ⟨wellFormed_wide, runs_crowding, Service.Runs.eviction_unseen wellFormed_wide runs_crowding,
    by cbv, by cbv, by cbv⟩

end Sample

end RowStore
