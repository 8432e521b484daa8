import RowStore.Proofs.Pool.Account
import RowStore.Proofs.Service.Coherence
import RowStore.Proofs.Service.Repeatable

/-!
# The log as a history

A cached page remembers the bytes that were last known to be durable, through all changes that are
made to it, and a commit logs these bytes together with the present ones. So if the log does not
fail, the records of a page go on from each other: `Service.Runs.history` says that after every run
the log is a full history of the stored pages. Redoing it on the pages that were stored at first
gives the pages that are stored now, and undoing it gives the first ones back.

What carries this along the run is that only a commit touches the log, and that the bytes which a
cached copy remembers are the stored ones.
-/

namespace RowStore

open Engine UpdateRecord

namespace Service

variable {s s' : Service} {a : Action} {as : List Action} {txn : TxnId} {page : PageId}
  {o : Option Outcome} {first : PageId → Option Bytes}

theorem Serves.journal (h : s.Serves txn o s') : s'.engine.journal = s.engine.journal :=
  h.stages.keeps (p := fun e => e.journal = s.engine.journal)
    (fun hi hs => hs.keeps_of_moves (p := fun e => e.journal = s.engine.journal)
      (fun _ hi => hi) (fun hi hm => hm.stays.journal.trans hi) hi) rfl

/-- Nothing but a commit touches the log. -/
theorem journal_perform (h : s.Orderly) (ha : s.PermitsWrites a) (hc : ∀ txn, a ≠ .commit txn) :
    (s.perform a).2.engine.journal = s.engine.journal := by
  rcases id ha with ⟨hper, -⟩ | ⟨k, change, rfl, -⟩
  · cases a with
    | issue r =>
      obtain ⟨txn, -, hs⟩ := serves_perform h ha.allows (.inl ⟨r, rfl⟩)
      exact hs.journal
    | turn w =>
      obtain ⟨txn, -, hs⟩ := serves_perform h ha.allows (.inr ⟨w, rfl⟩)
      exact hs.journal
    | letGo k => rfl
    | evict => rcases evict_cases s with he | ⟨pg, c, -, he⟩ <;> rw [he]
    | commit txn => exact absurd rfl (hc txn)
    | abort txn => exact congrArg Backing.journal (toBacking_abort s.engine txn)
    | write | install | flush | flushHeld | flushAll | discard | release => exact hper.elim
  · rcases write_cases s k change with ⟨err, he⟩ | ⟨q, -, he⟩ <;> rw [he]

/-- A page whose stored version grows shows what it showed, or comes up with zeros. -/
theorem image_of_growsAt {b b' : Backing} (h : GrowsAt b.stored b'.stored page) :
    b'.image page = b.image page ∨
      b.image page = none ∧ ∃ n, b'.image page = some (Bytes.zeros n) := by
  rcases h with h | ⟨hn, schema, size, h⟩
  · exact .inl (congrArg _ h)
  · refine .inr ⟨congrArg _ hn, size, ?_⟩
    rw [Backing.image, h]
    rfl

/-- The service is sound and orderly, and its log does not fail. -/
structure Steady (s : Service) : Prop where
  /-- The service is sound. -/
  sound : s.Sound
  /-- It is orderly. -/
  orderly : s.Orderly
  /-- Its log does not fail. -/
  reliable : s.engine.journal.Reliable

namespace Steady

theorem start {backing : Backing} (hb : backing.WellFormed) (hj : backing.journal.Reliable)
    (capacity : Nat) (choices : Nat → Nat) : (start backing capacity choices).Steady :=
  ⟨.start hb capacity choices, .start backing capacity choices, hj⟩

theorem perform (h : s.Steady) (ha : s.PermitsWrites a) : (s.perform a).2.Steady where
  sound := h.sound.perform ha
  orderly := h.orderly.perform ha.allows
  reliable := by
    by_cases hc : ∃ txn, a = .commit txn
    · obtain ⟨txn, rfl⟩ := hc
      obtain ⟨e, hc, hs, -⟩ := h.sound.engine.toCoherent.commit_eq_ok h.reliable txn
      rw [perform_commit, hc]
      exact hs.reliable h.reliable
    · exact (journal_perform h.orderly ha fun txn he => hc ⟨txn, he⟩) ▸ h.reliable

theorem after (h : s.Steady) (hr : s.Runs PermitsWrites as) : (s.after as).Steady :=
  hr.keeps (fun hs ha => hs.perform ha) h

end Steady

/-- The service is steady, and its log is a history of the stored pages. -/
structure Recorded (first : PageId → Option Bytes) (s : Service) : Prop extends s.Steady where
  /-- The log is a history. -/
  history : History first s.engine.image s.engine.journal.records

/-- A commit goes on with the history. -/
theorem Recorded.commit (h : s.Recorded first) (ha : s.PermitsWrites (.commit txn)) :
    (s.perform (.commit txn)).2.Recorded first := by
  have hcoh := h.sound.engine.toCoherent
  obtain ⟨e, hc, hs, hrec⟩ := hcoh.commit_eq_ok h.reliable txn
  refine ⟨h.toSteady.perform ha, ?_⟩
  rw [perform_commit, hc]
  change History first e.image e.journal.records
  rw [hrec]
  refine h.history.append fun page => ?_
  rw [ofPage_filterMap_pending? (nodup_held s.engine txn)]
  by_cases hp : page ∈ s.engine.held txn
  · have himage : e.image page = s.engine.shown page := congrArg _ (hs.stored hp)
    rw [if_pos hp, himage]
    cases hr : s.engine.pending? page with
    | none =>
      exact .inl ⟨rfl, .inl (congrArg _ (hcoh.seen_of_pending?_eq_none hr))⟩
    | some r =>
      obtain ⟨-, hbefore, hafter, hlen⟩ := hcoh.of_pending? hr
      exact .inr ⟨r, rfl, hbefore, hafter, hlen⟩
  · rw [if_neg hp]
    exact .inl ⟨rfl, .inl (congrArg _ (hs.stored_of_not_mem hp))⟩

theorem Recorded.perform (h : s.Recorded first) (ha : s.PermitsWrites a) :
    (s.perform a).2.Recorded first := by
  by_cases hc : ∃ txn, a = .commit txn
  · obtain ⟨txn, rfl⟩ := hc
    exact h.commit ha
  · have hne : ∀ txn, a ≠ .commit txn := fun txn he => hc ⟨txn, he⟩
    have hj := journal_perform h.orderly ha hne
    have hgrows := h.sound.grows_perform ha hne
    refine ⟨h.toSteady.perform ha, ?_⟩
    rw [hj, ← List.append_nil s.engine.journal.records]
    exact h.history.append fun page => .inl ⟨rfl, image_of_growsAt (hgrows page)⟩

/-- After every run that starts with an empty pool and an empty log, one that does not fail, the
records of each page lead from its first bytes to its present ones. Redoing all records gives the
present bytes of all pages, and undoing them gives the first. The pages that have come up since were
zeros at first; if they are left out, redoing brings them up again unless they are zeros still. -/
theorem Runs.history {backing : Backing} (hb : backing.WellFormed) (hj : backing.journal.Reliable)
    (hempty : backing.journal.records = []) {capacity : Nat} {choices : Nat → Nat}
    (h : (start backing capacity choices).Runs PermitsWrites as)
    (hs : (start backing capacity choices).after as = s) :
    History backing.image s.engine.image s.engine.journal.records ∧
      redo s.engine.journal.records (origin backing.image s.engine.image) = s.engine.image ∧
      undo s.engine.journal.records s.engine.image = origin backing.image s.engine.image ∧
      ∀ page, redo s.engine.journal.records backing.image page = s.engine.image page ∨
        backing.image page = none ∧ redo s.engine.journal.records backing.image page = none ∧
          ∃ n, s.engine.image page = some (Bytes.zeros n) := by
  have hstart : (start backing capacity choices).Recorded backing.image :=
    ⟨.start hb hj capacity choices, by
      change History backing.image backing.image backing.journal.records
      rw [hempty]
      exact .refl _⟩
  have hlast : s.Recorded backing.image := hs ▸ h.keeps (fun hk ha => hk.perform ha) hstart
  exact ⟨hlast.history, hlast.history.redo_eq, hlast.history.undo_eq, hlast.history.redo_first⟩

end Service

namespace Sample

/-- A transaction inserts two rows, the second one into a page that the table grows by, and
commits. Another one deletes the row that was there at first, and commits. A third one deletes
another row and aborts. -/
def recording : List Action :=
  [.issue (.insert 1 table.id ⟨[.int 7], none⟩), .issue (.insert 1 table.id ⟨[.int 8], none⟩),
    .commit 1, .evict, .issue (.delete 2 (some ⟨page, 0⟩)), .commit 2,
    .issue (.delete 3 (some ⟨page, 1⟩)), .abort 3]

/-- The service after this run. -/
def recorded : Service := (Service.start backing 2 id).after recording

theorem runs_recording : (Service.start backing 2 id).Runs Service.PermitsWrites recording :=
  ⟨.inl ⟨⟨trivial, of_decide_eq_true (by cbv)⟩, of_decide_eq_true (by cbv)⟩,
    .inl ⟨⟨trivial, of_decide_eq_true (by cbv)⟩, of_decide_eq_true (by cbv)⟩,
    .inl ⟨of_decide_eq_true (by cbv), of_decide_eq_true (by cbv)⟩,
    .inl ⟨trivial, of_decide_eq_true (by cbv)⟩,
    .inl ⟨⟨trivial, of_decide_eq_true (by cbv)⟩, of_decide_eq_true (by cbv)⟩,
    .inl ⟨of_decide_eq_true (by cbv), of_decide_eq_true (by cbv)⟩,
    .inl ⟨⟨trivial, of_decide_eq_true (by cbv)⟩, of_decide_eq_true (by cbv)⟩,
    .inl ⟨of_decide_eq_true (by cbv), of_decide_eq_true (by cbv)⟩, trivial⟩

/-- The log of this run has two records of the first page, of which the second goes on from the
first, and one of the page that has come up. -/
theorem history_recorded : backing.WellFormed ∧ backing.journal.Reliable ∧
    backing.journal.records = [] ∧
    (Service.start backing 2 id).Runs Service.PermitsWrites recording ∧
    (History backing.image recorded.engine.image recorded.engine.journal.records ∧
      redo recorded.engine.journal.records (origin backing.image recorded.engine.image) =
        recorded.engine.image ∧
      undo recorded.engine.journal.records recorded.engine.image =
        origin backing.image recorded.engine.image ∧
      ∀ page, redo recorded.engine.journal.records backing.image page =
          recorded.engine.image page ∨
        backing.image page = none ∧
          redo recorded.engine.journal.records backing.image page = none ∧
          ∃ n, recorded.engine.image page = some (Bytes.zeros n)) ∧
    recorded.engine.journal.records =
      [⟨1, page, [1, 0, 0, 0, 5, 0, 0, 0, 0], [3, 0, 0, 0, 5, 0, 0, 0, 7]⟩,
        ⟨1, ⟨table.id, 1⟩, Bytes.zeros 9, [1, 0, 0, 0, 8, 0, 0, 0, 0]⟩,
        ⟨2, page, [3, 0, 0, 0, 5, 0, 0, 0, 7], [2, 0, 0, 0, 5, 0, 0, 0, 7]⟩] :=
  ⟨wellFormed_backing, Journal.reliable_empty, rfl, runs_recording,
    Service.Runs.history wellFormed_backing Journal.reliable_empty rfl runs_recording rfl, by cbv⟩

end Sample

end RowStore
