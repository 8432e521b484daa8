import RowStore.Proofs.Service.Coherence
import RowStore.Proofs.Service.Orderly

/-!
# Marks and locks

A cached page that bears the mark of a transaction is in good hands as long as that transaction
holds it for itself alone: then its commit or abort will settle the page. `Engine.Guarded` says that
this is so for every marked page, and nearly everything keeps it so.

The exception is a change through a handle. A handle remembers the frame of its page and for what it
was given, but a change through it does not ask whether the transaction still holds the page: it
goes through as long as the page has stayed. So a transaction that has ended can still mark a page,
and nobody will settle that. `Service.Runs.guarded_iff` says that this is the only way in which a
page gets out of hand: all marked pages are guarded all along a run just if every change through a
handle that succeeds is made while the handle's transaction holds the page for itself alone.
-/

namespace RowStore

namespace Engine

variable {e e' : Engine} {txn : TxnId} {page : PageId} {result : Except Error Unit}

/-- A page that is marked with a transaction is held by it for itself alone. -/
def Guarded (e : Engine) : Prop :=
  ∀ ⦃page q txn⦄, e.cache.page? page = some q → q.dirtiedBy = some txn →
    e.locks.modeOf txn page = .exclusive

namespace Guarded

/-- Marked pages that were there before, under locks of which none for sole use has been lost, are
guarded. -/
theorem of_marked (h : e.Guarded)
    (hc : ∀ {page q txn}, e'.cache.page? page = some q → q.dirtiedBy = some txn →
      ∃ p, e.cache.page? page = some p ∧ p.dirtiedBy = some txn)
    (hl : e'.locks = e.locks) : e'.Guarded := by
  intro page q txn hq hd
  obtain ⟨p, hp, hpd⟩ := hc hq hd
  rw [hl]
  exact h hp hpd

theorem load (h : e.Guarded) (hl : e.Loads page e') : e'.Guarded := by
  refine h.of_marked (fun {pg q txn} hq hd => ?_) hl.stays.locks
  rcases hl.page?_eq_some hq with hq | ⟨-, hp⟩
  · exact ⟨q, hq, hd⟩
  · rw [dirtiedBy_of_load hp] at hd
    cases hd

theorem move (h : e.Guarded) (hm : e.Move txn e') : e'.Guarded := by
  have hl := hm.stays.locks
  cases hm with
  | load hl => exact h.load hl
  | keep k => exact h.of_marked (fun hq hd => ⟨_, hq, hd⟩) rfl
  | @write page q q' hx hq he =>
    intro pg r y hr hd
    rcases Cache.page?_update_eq_some hr with ⟨rfl, -, -, rfl⟩ | hr
    · cases he.alike.dirtiedBy.symm.trans hd
      exact hx
    · exact h hr hd
  | @install p _ hi =>
    obtain ⟨hx, hp, ho⟩ := install_eq_ok hi
    intro pg r y hr hd
    rw [hl]
    by_cases hpg : pg = p.id
    · subst hpg
      rw [hp] at hr
      cases hr
      cases hd
      exact hx
    · exact h (ho hpg hr) hd
  | grow => exact h.of_marked (fun hq hd => ⟨_, hq, hd⟩) rfl

/-- A verdict takes the sole use of a page from nobody. -/
theorem decide (h : e.Guarded) {mode : LockMode} {verdict : Verdict} {locks : LockTable}
    (hd : e.locks.Decides txn page mode verdict locks) : Guarded { e with locks } := by
  intro pg q y hq hm
  exact hd.exclusive_of (h hq hm)

/-- A page that is given back after a probe was nobody's to begin with, so it bears no mark of the
transaction. -/
theorem stage (h : e.Guarded) (hs : e.Stage txn e') : e'.Guarded := by
  cases hs with
  | verdict hd => exact h.decide hd
  | move hm => exact h.move hm
  | @probe page locks e₁ hf hd hs hl =>
    intro pg q y hq hm
    have hx := (h.decide hd).load hl hq hm
    rw [Engine.release, LockTable.modeOf_release, if_neg]
    · exact hx
    · rintro ⟨rfl, rfl⟩
      rcases hl.page?_eq_some hq with hq | ⟨-, hp⟩
      · cases hf.symm.trans (h hq hm)
      · rw [dirtiedBy_of_load hp] at hm
        cases hm

theorem flush (h : e.Guarded) (hf : e.Flushes page result e') : e'.Guarded := by
  refine h.of_marked (fun {pg q txn} hq hd => ?_) hf.locks
  obtain ⟨p, hp, rfl | rfl⟩ := hf.page?_eq_some hq
  · exact ⟨q, hp, hd⟩
  · cases hd

theorem rebase (page : PageId) (h : e.Guarded) : (rebase page e).Guarded := by
  refine h.of_marked (fun {pg q txn} hq hd => ?_) rfl
  obtain ⟨p, hp, -, hpd⟩ := page?_rebase hq
  exact ⟨p, hp, hpd ▸ hd⟩

theorem flushEach {andThen : PageId → Engine → Engine}
    (hthen : ∀ {e} page, Guarded e → (andThen page e).Guarded) (pages : List PageId)
    (h : e.Guarded) : (flushEach .none andThen pages e).2.Guarded :=
  flushEach_keeps (p := Guarded) (fun h hf => h.flush hf) hthen pages h

/-- To end well is to have written back all pages that bear the transaction's mark. -/
theorem commit (h : e.Guarded) (txn : TxnId) : (e.commit txn).2.Guarded := by
  have hg := h.flushEach (fun page h => h.rebase page) (e.held txn)
  have hl := locks_flushEach (f := Engine.rebase) .none (fun _ _ => rfl) (e.held txn) e
  unfold Engine.commit commitUnder
  generalize hf : Engine.flushEach .none Engine.rebase (e.held txn) e = flushed at hg hl
  obtain ⟨result, e₁⟩ := flushed
  cases result with
  | error err => exact hg
  | ok u =>
    intro pg q y hq hm
    have hx : e₁.locks.modeOf y pg = .exclusive := hg hq hm
    change (e₁.locks.releaseAll txn).modeOf y pg = .exclusive
    rw [LockTable.modeOf_releaseAll, if_neg]
    · exact hx
    · rintro rfl
      rw [hl] at hx
      cases (unmarked_flushEach hf (mem_held.2 hx) hq).symm.trans hm

/-- An abort forgets all pages that bear the transaction's mark. -/
theorem abort (h : e.Guarded) (txn : TxnId) : (e.abort txn).Guarded := by
  obtain ⟨c, hc, hp⟩ := abort_eq e txn
  rw [hc]
  intro pg q y hq hm
  change c.page? pg = some q at hq
  rw [hp] at hq
  split at hq
  · cases hq
  · next hx =>
    have hy := h hq hm
    rw [Engine.releaseAll, LockTable.modeOf_releaseAll, if_neg]
    · exact hy
    · rintro rfl
      exact hx hy

end Guarded

end Engine

open Engine

namespace Service

variable {s : Service} {a : Action} {as : List Action} {k : Handle} {change : Page → Page}

/-! ## Changes through handles -/

/-- Whatever is allowed happens, but changes through handles only insert and delete rows, and no
lock is given back before its transaction ends. -/
def PermitsHandles (s : Service) (a : Action) : Prop :=
  s.Allows a ∧
  match a with
  | .write _ change => ∀ p : Page, p.Edited (change p)
  | .release .. => False
  | _ => True

/-- A change through a handle that succeeds is made while the handle's transaction holds the page
for itself alone. -/
def WritesHeld (s : Service) (a : Action) : Prop :=
  ∀ k change, a = .write k change → (s.perform a).1 = some (.ok .done) →
    s.engine.locks.modeOf k.txn k.page = .exclusive

/-- A change through a handle succeeds just if the handle is for changes and its page has stayed in
its frame. Who holds the page is not asked. -/
theorem write_succeeds_iff : (s.perform (.write k change)).1 = some (.ok .done) ↔
    k.access = .write ∧ s.engine.cache.isValid k = true := by
  constructor
  · intro ho
    cases hw : s.engine.cache.write k fun p => ((), change p) with
    | error err => simp [perform, hw] at ho
    | ok y =>
      obtain ⟨q, hq, -⟩ := Cache.write_eq_ok hw
      exact ⟨Cache.access_of_write hw, Cache.isValid_iff.2 ⟨q, hq⟩⟩
  · rintro ⟨ha, hv⟩
    obtain ⟨q, hq⟩ := Cache.isValid_iff.1 hv
    simp only [perform, Cache.write_of_read ha hq]

/-- A change through a handle that succeeds marks the page with the handle's transaction. -/
theorem marked_of_write (hc : ∀ p : Page, p.Edited (change p))
    (ho : (s.perform (.write k change)).1 = some (.ok .done)) :
    ∃ q, (s.perform (.write k change)).2.engine.cache.page? k.page = some q ∧
      q.dirtiedBy = some k.txn := by
  rcases write_cases s k change with ⟨err, he⟩ | ⟨q, hq, he⟩
  · rw [he] at ho
    cases ho
  · refine ⟨change (q.markDirty (some k.txn)), ?_, (hc _).alike.dirtiedBy⟩
    rw [he, Cache.page?_update, if_pos rfl, hq]
    rfl

theorem locks_write (s : Service) (k : Handle) (change : Page → Page) :
    (s.perform (.write k change)).2.engine.locks = s.engine.locks := by
  rcases write_cases s k change with ⟨err, he⟩ | ⟨q, -, he⟩
  · rw [he]
  · rw [he]

/-- One action keeps all marked pages guarded just if it is no change through a handle of a page
that the handle's transaction does not hold for itself alone. -/
theorem guarded_perform_iff (h : s.Orderly) (hg : s.engine.Guarded) (ha : s.PermitsHandles a) :
    (s.perform a).2.engine.Guarded ↔ s.WritesHeld a := by
  obtain ⟨ha, hp⟩ := ha
  constructor
  · rintro hg' k change rfl ho
    obtain ⟨q, hq, hd⟩ := marked_of_write hp ho
    rw [← locks_write s k change]
    exact hg' hq hd
  · intro hw
    cases a with
    | issue r =>
      obtain ⟨txn, -, hs⟩ := serves_perform h ha (.inl ⟨r, rfl⟩)
      exact hs.stages.keeps (p := Guarded) (fun hg hs => hg.stage hs) hg
    | turn w =>
      obtain ⟨txn, -, hs⟩ := serves_perform h ha (.inr ⟨w, rfl⟩)
      exact hs.stages.keeps (p := Guarded) (fun hg hs => hg.stage hs) hg
    | write k change =>
      rcases write_cases s k change with ⟨err, he⟩ | ⟨q, hq, he⟩
      · rw [he]
        exact hg
      · have hx := hw k change rfl (by rw [he])
        rw [he]
        exact hg.move (.write hx hq (hp _))
    | letGo k => exact hg.of_marked (fun hq hd => ⟨_, hq, hd⟩) rfl
    | evict =>
      rcases evict_cases s with he | ⟨page, c, hev, he⟩
      · rw [he]
        exact hg
      · rw [he]
        obtain ⟨-, rfl⟩ := Cache.evict_eq_ok hev
        have hc : ∀ {pg q}, (s.engine.discard page).cache.page? pg = some q →
            s.engine.cache.page? pg = some q := Cache.page?_of_discard
        exact hg.of_marked (fun hq hd => ⟨_, hc hq, hd⟩) rfl
    | install txn p =>
      rcases install_cases s txn p with he | ⟨e, hi, he⟩
      · rw [he]
        exact hg
      · rw [he]
        exact hg.move (.install hi)
    | flush page => exact hg.flush (flushes_flushUnder s.engine page)
    | flushHeld txn => exact hg.flushEach (fun _ hg => hg) _
    | flushAll => exact hg.flushEach (fun _ hg => hg) _
    | discard page => exact hg.of_marked (fun hq hd => ⟨_, Cache.page?_of_discard hq, hd⟩) rfl
    | release txn page => exact hp.elim
    | commit txn => exact hg.commit txn
    | abort txn => exact hg.abort txn

theorem guarded_iff_of (h : s.Orderly) (hg : s.engine.Guarded)
    (hr : s.Runs PermitsHandles as) :
    s.Runs (fun s a => (s.perform a).2.engine.Guarded) as ↔ s.Runs WritesHeld as := by
  induction as generalizing s with
  | nil => exact Iff.rfl
  | cons a as ih =>
    obtain ⟨ha, hr⟩ := hr
    have hstep := guarded_perform_iff h hg ha
    have hnext := fun hg => ih (h.perform ha.1) hg hr
    constructor
    · rintro ⟨hg, hgs⟩
      exact ⟨hstep.1 hg, (hnext hg).1 hgs⟩
    · rintro ⟨hw, hws⟩
      have hg := hstep.2 hw
      exact ⟨hg, (hnext hg).2 hws⟩

/-- In a run that starts with an empty pool, a change through a handle succeeds as long as the page
has stayed, whoever holds it; and all marked pages are guarded all along the run just if every
change that succeeds is made while the handle's transaction holds the page for itself alone. -/
theorem Runs.guarded_iff {backing : Backing} {capacity : Nat} {choices : Nat → Nat}
    (h : (start backing capacity choices).Runs PermitsHandles as) :
    (∀ k change, (((start backing capacity choices).after as).perform (.write k change)).1 =
        some (.ok .done) ↔
      k.access = .write ∧ ((start backing capacity choices).after as).engine.cache.isValid k) ∧
    ((start backing capacity choices).Runs (fun s a => (s.perform a).2.engine.Guarded) as ↔
      (start backing capacity choices).Runs WritesHeld as) := by
  refine ⟨fun k change => write_succeeds_iff, ?_⟩
  have hempty : ∀ page, (start backing capacity choices).engine.cache.page? page = none :=
    fun page => Cache.page?_empty capacity choices page
  refine guarded_iff_of (.start backing capacity choices) ?_ h
  intro page q txn hq
  rw [hempty] at hq
  cases hq

end Service

namespace Sample

/-- A handle to the page for changes, as the first transaction to ask for one gets it. -/
def handle : Handle := ⟨page, 1, .write, 0⟩

/-- The only row of the page is deleted. -/
def emptied (p : Page) : Page := ((p.delete (some ⟨page, 0⟩)).toOption).getD p

/-- A transaction gets a handle, deletes a row through it and commits. -/
def emptying : List Action :=
  [.issue (.fetch 1 page .write false), .write handle emptied, .commit 1]

theorem runs_emptying : (Service.start backing 2 id).Runs Service.PermitsHandles emptying :=
  ⟨⟨Service.not_hasBlocked_of_nil rfl 1, trivial⟩, ⟨trivial, fun p => edited_delete p _⟩,
    ⟨trivial, trivial⟩, trivial⟩

/-- Marked pages are guarded all along this run just if changes are made under locks, and that they
are. -/
theorem guarded_iff_emptying :
    (Service.start backing 2 id).Runs Service.PermitsHandles emptying ∧
      ((∀ k change, (((Service.start backing 2 id).after emptying).perform (.write k change)).1 =
          some (.ok .done) ↔ k.access = .write ∧
            ((Service.start backing 2 id).after emptying).engine.cache.isValid k) ∧
        ((Service.start backing 2 id).Runs (fun s a => (s.perform a).2.engine.Guarded) emptying ↔
          (Service.start backing 2 id).Runs Service.WritesHeld emptying)) ∧
      (Service.start backing 2 id).Runs Service.WritesHeld emptying := by
  refine ⟨runs_emptying, Service.Runs.guarded_iff runs_emptying, nofun, ?_, nofun, trivial⟩
  rintro k change hk -
  cases hk
  cbv

/-- The service after the transaction has got its handle and committed. -/
def committed : Service :=
  (Service.start backing 2 id).after [.issue (.fetch 1 page .write false), .commit 1]

/-- If the transaction commits first, it can delete the row through the handle all the same. The
change succeeds although nobody holds the page, and it marks a page that no commit will settle. -/
theorem written_after_commit :
    (Service.start backing 2 id).Runs Service.PermitsHandles
        [.issue (.fetch 1 page .write false), .commit 1, .write handle emptied] ∧
      (∃ q, ((Service.start backing 2 id).perform (.issue (.fetch 1 page .write false))).1 =
        some (.ok (.handle handle q))) ∧
      (committed.perform (.write handle emptied)).1 = some (.ok .done) ∧
      committed.engine.locks.modeOf 1 page = .free ∧
      ¬ (committed.perform (.write handle emptied)).2.engine.Guarded := by
  refine ⟨⟨⟨Service.not_hasBlocked_of_nil rfl 1, trivial⟩, ⟨trivial, trivial⟩,
    ⟨trivial, fun p => edited_delete p _⟩, trivial⟩, ?_, by cbv,
    by cbv, fun hg => ?_⟩
  · exact ⟨_, by cbv⟩
  · have hmark : ((committed.perform (.write handle emptied)).2.engine.cache.page? page).bind
        (·.dirtiedBy) = some 1 := by cbv
    obtain ⟨q, hq, hd⟩ := Option.bind_eq_some_iff.1 hmark
    have hfree : (committed.perform (.write handle emptied)).2.engine.locks.modeOf 1 page =
        .free := by cbv
    cases hfree.symm.trans (hg hq hd)

end Sample

end RowStore
