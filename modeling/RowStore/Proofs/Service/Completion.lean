import RowStore.Proofs.Service.Failure
import RowStore.Proofs.Service.History

/-!
# How transactions end

At the end of a transaction all its locks are given back, and so nobody waits for it any more.
Besides, a commit makes the pages durable that the transaction held for itself alone, and an abort
forgets them. `Service.Commits` and `Service.Aborts` say this in full, with what is left alone: the
other pages in the cache and on the disk, the other transactions' locks, and who waits for them.

`Service.Runs.completes` says that every transaction ends so if it has no waiting call and the
log does not fail. It rests on the coherence of the cache: the marks of a transaction are on
pages that it holds for itself alone, so a commit that goes through these misses no change, and
what its records remember as the bytes before is what the disk has.
-/

namespace RowStore

open Engine

/-! ## Locks -/

namespace LockTable

variable {t : LockTable} {txn : TxnId}

/-- A transaction is gone: it has no locks, waits for nobody and is waited for by nobody. As for the
others, nothing has changed. -/
structure Leaves (t t' : LockTable) (txn : TxnId) : Prop where
  /-- No record is left of the transaction, and all those of the others are. -/
  holders : ∀ page, t'.holders page = (t.holders page).filter (·.txn ≠ txn)
  /-- It holds nothing, and the others hold what they held. -/
  modeOf : ∀ x page, t'.modeOf x page = if x = txn then .free else t.modeOf x page
  /-- The same requests wait. -/
  waits : ∀ {x page mode}, t'.Waits x page mode ↔ t.Waits x page mode
  /-- It does not wait behind anybody's records, and nobody waits behind its own. -/
  no_edge : ∀ {x r}, r ∈ t'.graph.waitingOn x → x ≠ txn ∧ r.txn ≠ txn
  /-- The others wait behind the same records of each other. -/
  waitingOn : ∀ {x}, x ≠ txn →
    t'.graph.waitingOn x = (t.graph.waitingOn x).filter (·.txn ≠ txn)

theorem leaves_releaseAll (t : LockTable) (txn : TxnId) : t.Leaves (t.releaseAll txn) txn where
  holders := holders_releaseAll t txn
  modeOf x page := modeOf_releaseAll t txn x page
  waits := waits_releaseAll
  no_edge {x r} hr := by
    change r ∈ (t.graph.purge txn).waitingOn x at hr
    rw [WaitGraph.waitingOn_purge] at hr
    split at hr
    · cases hr
    · next hx => exact ⟨hx, by simpa using (List.mem_filter.1 hr).2⟩
  waitingOn hx := (WaitGraph.waitingOn_purge ..).trans (if_neg hx)

end LockTable

namespace Service

variable {s s' : Service} {a : Action} {as : List Action} {txn : TxnId} {page : PageId}
  {reply : Reply}

/-! ## What the end of a transaction amounts to -/

/-- What both ends of a transaction have in common. -/
structure Ends (s s' : Service) (txn : TxnId) : Prop where
  /-- The transaction's locks are given back. -/
  locks : s.engine.locks.Leaves s'.engine.locks txn
  /-- The same calls wait. -/
  blocked : s'.blocked = s.blocked
  /-- The tables are the same. -/
  catalog : s'.engine.catalog = s.engine.catalog
  /-- Pages that the transaction did not hold for itself alone are cached as they were. -/
  cached : ∀ {page}, s.engine.locks.modeOf txn page ≠ .exclusive →
    s'.engine.cache.page? page = s.engine.cache.page? page
  /-- They are stored as they were. -/
  stored : ∀ {page}, s.engine.locks.modeOf txn page ≠ .exclusive →
    s'.engine.stored page = s.engine.stored page

/-- A transaction ends and what it has done is durable. -/
structure Commits (s s' : Service) (txn : TxnId) : Prop extends s.Ends s' txn where
  /-- The pages that it held for itself alone are stored as it saw them. -/
  durable : ∀ {page}, s.engine.locks.modeOf txn page = .exclusive →
    s'.engine.stored page = s.engine.seen page
  /-- They stay cached, without marks and with their bytes for durable. -/
  clean : ∀ {page}, s.engine.locks.modeOf txn page = .exclusive →
    s'.engine.cache.page? page = (s.engine.cache.page? page).map written
  /-- The log has a new record for each page that the transaction had changed, with the bytes that
  were stored before and those that are stored now, and no other new record. -/
  logged : ∃ new, s'.engine.journal.records = s.engine.journal.records ++ new ∧
    (new.map (·.page)).Nodup ∧ ∀ r, r ∈ new ↔ r.txn = txn ∧
      (∃ q, s.engine.cache.page? r.page = some q ∧ q.dirtiedBy = some txn) ∧
      s.engine.image r.page = some r.before ∧ s'.engine.image r.page = some r.after

/-- A transaction ends and what it has done is forgotten. -/
structure Aborts (s s' : Service) (txn : TxnId) : Prop extends s.Ends s' txn where
  /-- The pages that it held for itself alone are not cached. -/
  forgotten : ∀ {page}, s.engine.locks.modeOf txn page = .exclusive →
    s'.engine.cache.page? page = none
  /-- Neither the files nor the log are touched. -/
  backing : s'.engine.toBacking = s.engine.toBacking
  /-- As long as nobody has read such a page again it is stored as it was, and the next one who does
  is shown what is stored. -/
  read : ∀ {as page}, s.engine.locks.modeOf txn page = .exclusive → s'.Runs PermitsWrites as →
    (∀ first, first <+: as → (s'.after first).engine.cache.page? page = none) →
    GrowsAt s.engine.stored (s'.after as).engine.stored page ∧
      ∀ {a reply}, (s'.after as).PermitsWrites a → (s'.after as).purpose a = .fetch page →
        ((s'.after as).perform a).1 = some (.ok reply) →
        ∃ k q, reply = .handle k q ∧ k.page = page ∧ (s'.after as).engine.stored page = some q

/-! ## Commits -/

/-- The changes that are pending on the pages which a transaction holds for itself alone are those
that the transaction has made. -/
theorem Sound.mem_pending (h : s.Sound) {r : UpdateRecord} :
    r ∈ (s.engine.held txn).filterMap s.engine.pending? ↔ r.txn = txn ∧
      (∃ q, s.engine.cache.page? r.page = some q ∧ q.dirtiedBy = some txn) ∧
      s.engine.image r.page = some r.before ∧ s.engine.shown r.page = some r.after := by
  have hcoh := h.engine.toCoherent
  rw [List.mem_filterMap]
  constructor
  · rintro ⟨page, hp, hr⟩
    obtain ⟨hx, hbefore, hafter, -⟩ := hcoh.of_pending? hr
    obtain ⟨q, x, hq, hd, rfl⟩ := pending?_eq_some_iff.1 hr
    obtain rfl : x = txn := h.engine.consistent.toSound.eq_of_exclusive (mem_held.1 hp) hx
    exact ⟨rfl, ⟨q, hq, hd⟩, hbefore, hafter⟩
  · rintro ⟨rfl, ⟨q, hq, hd⟩, hbefore, hafter⟩
    have hr : s.engine.pending? r.page = some ⟨r.txn, r.page, q.before, q.data⟩ :=
      pending?_eq_some_iff.2 ⟨q, r.txn, hq, hd, rfl⟩
    obtain ⟨hx, hbefore', hafter', -⟩ := hcoh.of_pending? hr
    have hb : q.before = r.before := Option.some.inj (hbefore'.symm.trans hbefore)
    have ha : q.data = r.after := Option.some.inj (hafter'.symm.trans hafter)
    refine ⟨r.page, mem_held.2 hx, ?_⟩
    rw [hr, hb, ha]

theorem Sound.commits (h : s.Sound) (hj : s.engine.journal.Reliable) (txn : TxnId) :
    (s.perform (.commit txn)).1 = some (.ok .done) ∧
      s.Commits (s.perform (.commit txn)).2 txn := by
  have hcoh := h.engine.toCoherent
  obtain ⟨e, hc, hs, hrec⟩ := hcoh.commit_eq_ok hj txn
  have hcached := page?_commit hc
  have hstored : ∀ {page}, s.engine.locks.modeOf txn page = .exclusive →
      e.stored page = s.engine.seen page := fun hx => hs.stored (mem_held.2 hx)
  rw [outcome_commit, perform_commit, hc]
  refine ⟨rfl, ?_⟩
  exact
    { locks := by
        change s.engine.locks.Leaves (e.locks.releaseAll txn) txn
        rw [hs.locks]
        exact s.engine.locks.leaves_releaseAll txn
      blocked := rfl
      catalog := hs.catalog
      cached := fun {page} hx => (hcached page).trans (if_neg hx)
      stored := fun hx => hs.stored_of_not_mem (mt mem_held.1 hx)
      durable := hstored
      clean := fun {page} hx => (hcached page).trans (if_pos hx)
      logged := by
        refine ⟨_, hrec, nodup_page_filterMap_pending? (nodup_held s.engine txn), fun r => ?_⟩
        rw [h.mem_pending]
        refine and_congr_right fun _ => and_congr_right fun ⟨q, hq, hd⟩ =>
          and_congr_right fun _ => ?_
        have himage : e.image r.page = s.engine.shown r.page :=
          congrArg _ (hstored (h.engine.owner hq hd))
        change _ ↔ e.image r.page = _
        rw [himage] }

/-! ## Aborts -/

/-- As long as a page is not cached it stays stored as it is. -/
theorem Sound.stored_of_not_cached (h : s.Sound) (hr : s.Runs PermitsWrites as)
    (hn : ∀ first, first <+: as → (s.after first).engine.cache.page? page = none) :
    GrowsAt s.engine.stored (s.after as).engine.stored page := by
  induction as generalizing s with
  | nil => exact .inl rfl
  | cons a as ih =>
    -- A commit stores what is seen of the page, which is what is stored if it is not cached.
    have hrest := ih (h.perform hr.1) hr.2 fun first hf => hn (a :: first) (by simpa using hf)
    refine GrowsAt.trans ?_ hrest
    rcases h.stored_perform hr.1 page with hg | ⟨x, -, -, hx⟩
    · exact hg
    · have hseen : s.engine.seen page = s.engine.stored page :=
        seen_of_not_cached (hn [] List.nil_prefix)
      exact .inl (hx.trans hseen)

/-- Whoever asks for a page that is not cached, with success, is shown the stored page. -/
theorem fetched_of_not_cached (h : s.Orderly) (ha : s.PermitsWrites a)
    (hp : s.purpose a = .fetch page) (hn : s.engine.cache.page? page = none)
    (ho : (s.perform a).1 = some (.ok reply)) :
    ∃ k q, reply = .handle k q ∧ k.page = page ∧ s.engine.stored page = some q := by
  obtain ⟨txn, access, keep, hc⟩ := course_of_purpose h ha.allows hp ho
  obtain ⟨k, q, hr, hk, hl⟩ := course_fetch hn hc
  exact ⟨k, q, hr, hk, congrArg Except.toOption hl⟩

theorem Sound.aborts (h : s.Sound) (horderly : s.Orderly) (hi : ¬ s.HasBlocked txn) :
    (s.perform (.abort txn)).1 = some (.ok .done) ∧
      s.Aborts (s.perform (.abort txn)).2 txn := by
  have hlast := h.abort hi
  have hordered : (s.perform (.abort txn)).2.Orderly :=
    horderly.perform (a := .abort txn) trivial
  obtain ⟨c, hc, hp⟩ := abort_eq s.engine txn
  rw [perform_abort, hc] at hlast hordered ⊢
  refine ⟨rfl, ?_⟩
  exact
    { locks := s.engine.locks.leaves_releaseAll txn
      blocked := rfl
      catalog := rfl
      cached := fun {page} hx => (hp page).trans (if_neg hx)
      stored := fun _ => rfl
      forgotten := fun {page} hx => (hp page).trans (if_pos hx)
      backing := rfl
      read := fun {as page} _ hr hn => by
        refine ⟨hlast.stored_of_not_cached hr hn, fun ha hpu ho => ?_⟩
        have ho' := hr.keeps (fun hs ha => hs.perform (PermitsWrites.allows ha)) hordered
        exact fetched_of_not_cached ho' ha hpu (hn as List.prefix_rfl) ho }

/-! ## Runs -/

/-- After every run that starts with an empty pool, a transaction without a waiting call can end
either way. Until it commits, none of its actions does anything to the stored pages but let files
grow. -/
theorem Runs.completes {backing : Backing} (hb : backing.WellFormed)
    (hj : backing.journal.Reliable) {capacity : Nat} {choices : Nat → Nat}
    (h : (start backing capacity choices).Runs PermitsWrites as)
    (hs : (start backing capacity choices).after as = s) (hi : ¬ s.HasBlocked txn) :
    ((s.perform (.commit txn)).1 = some (.ok .done) ∧
      s.Commits (s.perform (.commit txn)).2 txn) ∧
    ((s.perform (.abort txn)).1 = some (.ok .done) ∧
      s.Aborts (s.perform (.abort txn)).2 txn) ∧
    ∀ {first a rest}, as = first ++ a :: rest → a.actor = some txn → a ≠ .commit txn →
      Grows ((start backing capacity choices).after first).engine.stored
        (((start backing capacity choices).after first).perform a).2.engine.stored := by
  have hstart := Steady.start hb hj capacity choices
  have hlast : s.Steady := hs ▸ hstart.after h
  refine ⟨hlast.sound.commits hlast.reliable txn, hlast.sound.aborts hlast.orderly hi, ?_⟩
  rintro first a rest rfl hact hne
  obtain ⟨hfirst, ha, -⟩ := runs_append.1 h
  refine (hstart.after hfirst).sound.grows_perform ha ?_
  rintro x rfl
  exact hne (congrArg Action.commit (Option.some.inj hact))

end Service

namespace Sample

/-- A transaction inserts two rows, the second one into a page that the table grows by. Another one
wants to read the first page, and waits. -/
def contending : List Action :=
  [.issue (.insert 1 table.id ⟨[.int 7], none⟩), .issue (.insert 1 table.id ⟨[.int 8], none⟩),
    .issue (.fetch 2 page .read false)]

/-- The service after this run. -/
def contended : Service := (Service.start backing 2 id).after contending

theorem runs_contending : (Service.start backing 2 id).Runs Service.PermitsWrites contending :=
  ⟨.inl ⟨⟨trivial, of_decide_eq_true (by cbv)⟩, of_decide_eq_true (by cbv)⟩,
    .inl ⟨⟨trivial, of_decide_eq_true (by cbv)⟩, of_decide_eq_true (by cbv)⟩,
    .inl ⟨⟨trivial, of_decide_eq_true (by cbv)⟩, of_decide_eq_true (by cbv)⟩, trivial⟩

/-- The first transaction can end either way while the second one waits. If it commits, the log gets
a record for each of the two pages. -/
theorem completes_contended : backing.WellFormed ∧ backing.journal.Reliable ∧
    (Service.start backing 2 id).Runs Service.PermitsWrites contending ∧
    ¬ contended.HasBlocked 1 ∧ contended.HasBlocked 2 ∧
    (((contended.perform (.commit 1)).1 = some (.ok .done) ∧
        contended.Commits (contended.perform (.commit 1)).2 1) ∧
      ((contended.perform (.abort 1)).1 = some (.ok .done) ∧
        contended.Aborts (contended.perform (.abort 1)).2 1) ∧
      ∀ {first a rest}, contending = first ++ a :: rest → a.actor = some 1 → a ≠ .commit 1 →
        Grows ((Service.start backing 2 id).after first).engine.stored
          (((Service.start backing 2 id).after first).perform a).2.engine.stored) ∧
    contended.engine.held 1 = [page, ⟨table.id, 1⟩] ∧
    (contended.perform (.commit 1)).2.engine.journal.records =
      [⟨1, page, [1, 0, 0, 0, 5, 0, 0, 0, 0], [3, 0, 0, 0, 5, 0, 0, 0, 7]⟩,
        ⟨1, ⟨table.id, 1⟩, Bytes.zeros 9, [1, 0, 0, 0, 8, 0, 0, 0, 0]⟩] := by
  have hidle : ¬ contended.HasBlocked 1 := of_decide_eq_true (by cbv)
  have hwaits : contended.HasBlocked 2 := of_decide_eq_true (by cbv)
  exact ⟨wellFormed_backing, Journal.reliable_empty, runs_contending, hidle, hwaits,
    Service.Runs.completes wellFormed_backing Journal.reliable_empty runs_contending rfl hidle,
    by cbv, by cbv⟩

end Sample

end RowStore
