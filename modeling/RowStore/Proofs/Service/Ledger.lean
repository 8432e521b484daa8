import RowStore.Proofs.Database
import RowStore.Proofs.Service.Sound

/-!
# The ledger of row changes

A *ledger* lists the insertions and deletions of a run that have succeeded, in the order in which
they were made, and for each of them what has become of its transaction since. Playing a ledger back
on the rows that the files had at first gives the rows that they have now, if only the changes of
transactions that have committed count. If the changes of transactions that still run count too, it
gives what transactions see.

The proof goes along the run: `Service.Booked` ties a service to the ledger so far. What carries it
past the end of a transaction is that a transaction still holds for itself alone every page that it
has changed. So on the pages that it holds there are no other changes that are still running, and on
other pages there is none of its own.
-/

namespace RowStore

open Engine

/-! ## Ledgers -/

/-- What has become of the transaction that made a change. -/
inductive Fate
  /-- It has not ended since. -/
  | running
  /-- It has ended, and has made its changes durable. -/
  | committed
  /-- It has ended, and has forgotten its changes. -/
  | undone
deriving DecidableEq

/-- One change of a row. -/
structure Entry where
  /-- Who made it. -/
  txn : TxnId
  /-- Where. -/
  place : RowId
  /-- What the place holds from then on. -/
  content : Option Bytes
  /-- What has become of the transaction since. -/
  fate : Fate
deriving DecidableEq

/-- Changes in the order in which they were made. -/
abbrev Ledger := List Entry

/-- The change once its transaction has ended, if it is one of those that the transaction has made
since it began. -/
def Entry.close (txn : TxnId) (fate : Fate) (c : Entry) : Entry :=
  if c.txn = txn ∧ c.fate = .running then { c with fate } else c

namespace Ledger

/-- The ledger once a transaction has ended. -/
def close (txn : TxnId) (fate : Fate) (l : Ledger) : Ledger := l.map (Entry.close txn fate)

/-- The rows after those changes that count. -/
def apply (counts : Entry → Bool) : Ledger → (RowId → Option Bytes) → RowId → Option Bytes
  | [], rows => rows
  | c :: l, rows =>
    apply counts l (if counts c then Function.update rows c.place c.content else rows)

/-- The rows after the changes of the transactions that have committed. -/
def durable (l : Ledger) (rows : RowId → Option Bytes) : RowId → Option Bytes :=
  l.apply (·.fate = .committed) rows

/-- The rows after all changes that have not been undone. -/
def live (l : Ledger) (rows : RowId → Option Bytes) : RowId → Option Bytes :=
  l.apply (·.fate ≠ .undone) rows

variable {l : Ledger} {rows rows' : RowId → Option Bytes} {place : RowId}
  {counts counts' : Entry → Bool} {txn : TxnId} {fate : Fate}

theorem apply_append (counts : Entry → Bool) (l m : Ledger) (rows : RowId → Option Bytes) :
    apply counts (l ++ m) rows = apply counts m (apply counts l rows) := by
  induction l generalizing rows with
  | nil => rfl
  | cons c l ih => exact ih _

/-- Closing changes neither the place nor the content of a change. -/
theorem apply_close (counts : Entry → Bool) (l : Ledger) (rows : RowId → Option Bytes) :
    apply counts (l.close txn fate) rows = apply (fun c => counts (c.close txn fate)) l rows := by
  induction l generalizing rows with
  | nil => rfl
  | cons c l ih =>
    have hp : (c.close txn fate).place = c.place := by
      unfold Entry.close
      split <;> rfl
    have hc : (c.close txn fate).content = c.content := by
      unfold Entry.close
      split <;> rfl
    rw [close, List.map_cons, apply, apply, hp, hc]
    exact ih _

/-- What a place holds depends on the changes made there only. -/
theorem apply_congr (hr : rows place = rows' place)
    (hc : ∀ c ∈ l, c.place = place → counts c = counts' c) :
    apply counts l rows place = apply counts' l rows' place := by
  induction l generalizing rows rows' with
  | nil => exact hr
  | cons c l ih =>
    refine ih ?_ fun d hd => hc d (List.mem_cons_of_mem _ hd)
    by_cases hp : c.place = place
    · rw [hc c List.mem_cons_self hp]
      split
      · rw [hp, Function.update_self, Function.update_self]
      · exact hr
    · have hu : ∀ f : RowId → Option Bytes,
          Function.update f c.place c.content place = f place := fun f =>
        Function.update_of_ne (Ne.symm hp) _ _
      split <;> split <;> simp only [hu, hr]

end Ledger

/-! ## Runs with their ledgers -/

/-- The place that serving a purpose changes, and what it holds then. Where a row is put within its
table is told by `spot`, a page number and a slot. -/
def Purpose.change? (spot : Nat × Nat) : Purpose → Option (RowId × Option Bytes)
  | store table bytes => some (⟨⟨table, spot.1⟩, spot.2⟩, some bytes)
  | remove place => some (place, none)
  | _ => none

theorem Purpose.IsLook.change?_eq_none {task : Purpose} (h : task.IsLook) (spot : Nat × Nat) :
    task.change? spot = none := by
  cases task with
  | store | remove => exact h.elim
  | fetch | look => rfl

/-- A change that serves a purpose is the one that the purpose asks for, for some spot. It puts a
row where there is none, or takes one away from where there is one. -/
theorem Purpose.Fits.change? {task : Purpose} {rows : RowId → Option Bytes} {place : RowId}
    {content : Option Bytes} (h : task.Fits rows place content) :
    task.change? (place.page.number, place.slot) = some (place, content) ∧
      (content = none ↔ rows place ≠ none) := by
  cases task with
  | store table bytes =>
    obtain ⟨rfl, hempty, rfl⟩ := h
    exact ⟨rfl, nofun, fun hn => absurd hempty hn⟩
  | remove r =>
    obtain ⟨rfl, hfound, rfl⟩ := h
    exact ⟨rfl, fun _ => hfound, fun _ => rfl⟩
  | fetch | look => exact h.elim

namespace Service

/-- The change that an action has made, if it has ended well and was made for one. -/
def made (s : Service) (a : Action) (spot : Nat × Nat) : Option Entry :=
  match a.actor, (s.perform a).1 with
  | some txn, some (.ok _) =>
    ((s.purpose a).change? spot).map fun (place, content) => ⟨txn, place, content, .running⟩
  | _, _ => none

/-- The ledger after an action. -/
def record (s : Service) (a : Action) (spot : Nat × Nat) (l : Ledger) : Ledger :=
  match a, (s.perform a).1 with
  | .commit txn, some (.ok _) => l.close txn .committed
  | .abort txn, some (.ok _) => l.close txn .undone
  | a, _ => l ++ (s.made a spot).toList

/-- The ledger after a series of actions. -/
def ledger : (s : Service) → (spots : Nat → Nat × Nat) → (l : Ledger) → List Action → Ledger
  | _, _, l, [] => l
  | s, spots, l, a :: as =>
    ledger (s.perform a).2 (fun n => spots (n + 1)) (s.record a (spots 0) l) as

variable {s : Service} {l : Ledger} {rows : RowId → Option Bytes} {a : Action} {txn x : TxnId}
  {page : PageId} {place : RowId}

/-- The files hold what the ledger says is durable, and transactions see what it says is live. -/
structure Booked (s : Service) (l : Ledger) (rows : RowId → Option Bytes) : Prop
    extends s.Sound where
  /-- The log does not fail. -/
  reliable : s.engine.journal.Reliable
  /-- The files hold the changes of transactions that have committed. -/
  stored : rowsOf s.engine.stored = l.durable rows
  /-- Transactions see all changes that have not been undone. -/
  seen : rowsOf s.engine.seen = l.live rows
  /-- Who runs still holds every page that it has changed for itself alone. -/
  held : ∀ {c}, c ∈ l → c.fate = .running →
    s.engine.locks.modeOf c.txn c.place.page = .exclusive

namespace Booked

theorem start {backing : Backing} (hb : backing.WellFormed) (hj : backing.journal.Reliable)
    (capacity : Nat) (choices : Nat → Nat) :
    (start backing capacity choices).Booked [] (rowsOf backing.stored) where
  toSound := .start hb capacity choices
  reliable := hj
  stored := rfl
  seen := by
    refine congrArg rowsOf (funext fun page => ?_)
    exact seen_of_not_cached (Cache.page?_empty ..)
  held hc := nomatch hc

/-- The changes on a page that a transaction holds for itself alone and that are still running are
its own. -/
theorem txn_eq (h : s.Booked l rows) {c : Entry} (hc : c ∈ l) (hr : c.fate = .running)
    (hx : s.engine.locks.modeOf txn c.place.page = .exclusive) : c.txn = txn :=
  h.engine.consistent.toSound.eq_of_exclusive hx (h.held hc hr)

/-! ### Calls -/

/-- A quiet change needs no entry. -/
theorem of_quiet (h : s.Booked l rows) {s' : Service} (hs : s'.Sound)
    (hq : s.engine.Quiet txn s'.engine) : s'.Booked l rows where
  toSound := hs
  reliable := hq.journal ▸ h.reliable
  stored := hq.stored.rowsOf_eq.trans h.stored
  seen := hq.rows.trans h.seen
  held hc hr := hq.exclusive (h.held hc hr)

/-- An edit is entered as a change of a transaction that runs. -/
theorem of_edits (h : s.Booked l rows) {s' : Service} (hs : s'.Sound) {content : Option Bytes}
    (he : s.engine.Edits txn place content s'.engine) :
    s'.Booked (l ++ [⟨txn, place, content, .running⟩]) rows where
  toSound := hs
  reliable := he.journal ▸ h.reliable
  stored := by
    rw [he.stored.rowsOf_eq, h.stored, Ledger.durable, Ledger.durable, Ledger.apply_append]
    rfl
  seen := by
    rw [he.rows, h.seen, Ledger.live, Ledger.live, Ledger.apply_append]
    rfl
  held {c} hc hr := by
    rcases List.mem_append.1 hc with hc | hc
    · exact he.exclusive (h.held hc hr)
    · rw [List.mem_singleton.1 hc]
      exact he.held

/-- An entry that is made is that of a change which served the purpose. -/
def Serves (s : Service) (a : Action) (spot : Nat × Nat) : Prop :=
  ∀ {c}, s.made a spot = some c →
    (c.content = none ↔ rowsOf s.engine.seen c.place ≠ none)

/-- A call that goes on, or ends, is booked once the place of a row that it has inserted is
known. -/
theorem moves (h : s.Booked l rows) (ha : s.Permits a) (hact : a.actor = some txn)
    (hm : s.Moves txn (s.purpose a) (s.perform a).1 (s.perform a).2) :
    ∃ spot, Serves s a spot ∧
      (s.perform a).2.Booked (l ++ (s.made a spot).toList) rows := by
  have hs := hm.sound h.toSound ha.2
  have quiet : s.engine.Quiet txn (s.perform a).2.engine →
      s.made a (0, 0) = none → ∃ spot, Serves s a spot ∧
        (s.perform a).2.Booked (l ++ (s.made a spot).toList) rows := by
    intro hq he
    refine ⟨(0, 0), fun {c} hc => ?_, ?_⟩
    · rw [he] at hc
      cases hc
    · rw [he, Option.toList_none, List.append_nil]
      exact h.of_quiet hs hq
  obtain ⟨⟨result, hp, ho, -⟩, -⟩ := hm
  cases hp with
  | done he hi hr place content ht hed =>
    obtain ⟨hchange, hserves⟩ := ht.change?
    have hent : s.made a (place.page.number, place.slot) =
        some ⟨txn, place, content, .running⟩ := by
      simp only [made, hact, ho, Sum.getLeft?_inl, hchange, Option.map_some]
    refine ⟨(place.page.number, place.slot), fun {c} hc => ?_, ?_⟩
    · rw [hent] at hc
      cases hc
      exact hserves
    · rw [hent]
      exact h.of_edits hs hed
  | looked he hi hr ht hq =>
    refine quiet hq ?_
    simp only [made, hact, ho, Sum.getLeft?_inl, ht.change?_eq_none, Option.map_none]
  | failed he hi hq =>
    refine quiet hq ?_
    simp only [made, hact, ho, Sum.getLeft?_inl]
  | overflown => exact absurd ho ha.2
  | waits he hx ht hpend hq =>
    refine quiet hq ?_
    simp only [made, hact, ho, Sum.getLeft?_inr]

/-! ### The ends of transactions -/

theorem held_close (h : s.Booked l rows) {fate : Fate} (hf : fate ≠ .running) {c : Entry}
    (hc : c ∈ l.close txn fate) (hr : c.fate = .running) :
    (s.engine.locks.releaseAll txn).modeOf c.txn c.place.page = .exclusive := by
  obtain ⟨d, hd, rfl⟩ := List.mem_map.1 hc
  unfold Entry.close at hr ⊢
  split at hr
  · exact absurd hr hf
  · next hn =>
    rw [if_neg hn, LockTable.modeOf_releaseAll, if_neg fun ht => hn ⟨ht, hr⟩]
    exact h.held hd hr

/-- Closing tells the changes on the pages that a transaction holds for itself alone from the
others. -/
theorem fate_close (h : s.Booked l rows) {c : Entry} (hc : c ∈ l) (fate : Fate) :
    (c.close txn fate).fate =
      if s.engine.locks.modeOf txn c.place.page = .exclusive ∧ c.fate = .running then fate
      else c.fate := by
  unfold Entry.close
  by_cases hr : c.fate = .running
  · by_cases hx : s.engine.locks.modeOf txn c.place.page = .exclusive
    · rw [if_pos ⟨h.txn_eq hc hr hx, hr⟩, if_pos ⟨hx, hr⟩]
    · have ht : c.txn ≠ txn := fun ht => hx (ht ▸ h.held hc hr)
      rw [if_neg fun hn => ht hn.1, if_neg fun hn => hx hn.1]
  · rw [if_neg fun hn => hr hn.2, if_neg fun hn => hr hn.2]

/-- A commit does not fail, and enters that the changes of its transaction are durable. -/
theorem commit (h : s.Booked l rows) (hi : ¬ s.HasBlocked txn) :
    (s.perform (.commit txn)).1 = some (.ok .done) ∧
      (s.perform (.commit txn)).2.Booked (l.close txn .committed) rows := by
  have hs := h.toSound.commit hi
  obtain ⟨e, he, hset⟩ | ⟨err, e, done, -, -, -, hr⟩ := h.engine.toCoherent.commit_cases txn
  · have hperf : s.perform (.commit txn) =
        (some (.ok .done), { s with engine := e.releaseAll txn }) := by
      rw [perform, he]
      rfl
    rw [hperf] at hs ⊢
    refine ⟨rfl, hs, hset.reliable h.reliable, funext fun place => ?_, ?_, fun hc hr => ?_⟩
    · change (e.stored place.page).bind _ = _
      rw [Ledger.durable, Ledger.apply_close]
      by_cases hx : s.engine.locks.modeOf txn place.page = .exclusive
      · rw [hset.stored (mem_held.2 hx)]
        refine (congrFun h.seen place).trans (Ledger.apply_congr rfl fun c hc hp => ?_)
        rw [← hp] at hx
        rw [h.fate_close hc]
        cases hf : c.fate <;> simp [hx]
      · rw [hset.stored_of_not_mem fun hm => hx (mem_held.1 hm)]
        refine (congrFun h.stored place).trans (Ledger.apply_congr rfl fun c hc hp => ?_)
        rw [← hp] at hx
        rw [h.fate_close hc, if_neg fun hn => hx hn.1]
    · change rowsOf e.seen = _
      rw [hset.seen, h.seen, Ledger.live, Ledger.live, Ledger.apply_close]
      funext place
      refine Ledger.apply_congr rfl fun c hc _ => ?_
      rw [h.fate_close hc]
      by_cases hx : s.engine.locks.modeOf txn c.place.page = .exclusive <;>
        cases hf : c.fate <;> simp [hx]
    · have := h.held_close (by decide) hc hr
      rw [← hset.locks] at this
      exact this
  · exact absurd h.reliable hr

/-- An abort enters that the changes of its transaction are undone. -/
theorem abort (h : s.Booked l rows) (hi : ¬ s.HasBlocked txn) :
    (s.perform (.abort txn)).2.Booked (l.close txn .undone) rows := by
  have hs := h.toSound.abort hi
  have hb := toBacking_abort s.engine txn
  refine ⟨hs, ?_, ?_, funext fun place => ?_, fun hc hr => ?_⟩
  · rw [perform_abort, hb]
    exact h.reliable
  · rw [perform_abort, hb, h.stored, Ledger.durable, Ledger.durable, Ledger.apply_close]
    funext place
    refine Ledger.apply_congr rfl fun c hc _ => ?_
    rw [h.fate_close hc]
    by_cases hx : s.engine.locks.modeOf txn c.place.page = .exclusive <;>
      cases hf : c.fate <;> simp [hx]
  · rw [perform_abort, rowsOf, seen_abort, Ledger.live, Ledger.apply_close]
    by_cases hx : s.engine.locks.modeOf txn place.page = .exclusive
    · rw [if_pos hx]
      refine (congrFun h.stored place).trans (Ledger.apply_congr rfl fun c hc hp => ?_)
      rw [← hp] at hx
      rw [h.fate_close hc]
      cases hf : c.fate <;> simp [hx]
    · rw [if_neg hx]
      refine (congrFun h.seen place).trans (Ledger.apply_congr rfl fun c hc hp => ?_)
      rw [← hp] at hx
      rw [h.fate_close hc, if_neg fun hn => hx hn.1]
  · rw [perform_abort, locks_abort]
    exact h.held_close (by decide) hc hr

/-! ### One action -/

/-- Which clean pages are cached need not be booked. -/
theorem recache (h : s.Booked l rows) (ha : a = .evict ∨ ∃ k, a = .letGo k) :
    (s.perform a).2.Booked l rows := by
  obtain ⟨c, hc, hr⟩ := recaches_perform (s := s) ha
  have hq : s.engine.Quiet 0 { s.engine with cache := c } := .of_recaches h.engine.toCoherent hr
  have hs := h.toSound.recache ha
  rw [hc] at hs ⊢
  exact h.of_quiet hs hq

/-- Every permitted action can be booked. -/
theorem perform (h : s.Booked l rows) (ha : s.Permits a) :
    ∃ spot, Serves s a spot ∧ (s.perform a).2.Booked (s.record a spot l) rows := by
  cases a with
  | issue r =>
    obtain ⟨txn, hact, hm⟩ := moves_perform h.toSound ha (.inl ⟨r, rfl⟩)
    exact h.moves ha hact hm
  | turn w =>
    obtain ⟨txn, hact, hm⟩ := moves_perform h.toSound ha (.inr ⟨w, rfl⟩)
    exact h.moves ha hact hm
  | letGo k =>
    refine ⟨(0, 0), fun {c} hc => (nomatch hc), ?_⟩
    change (s.perform (.letGo k)).2.Booked (l ++ []) rows
    rw [List.append_nil]
    exact h.recache (.inr ⟨k, rfl⟩)
  | evict =>
    refine ⟨(0, 0), fun {c} hc => (nomatch hc), ?_⟩
    change (s.perform .evict).2.Booked (l ++ []) rows
    rw [List.append_nil]
    exact h.recache (.inl rfl)
  | commit txn =>
    obtain ⟨ho, hb⟩ := h.commit ha.1
    refine ⟨(0, 0), fun {c} hc => ?_, ?_⟩
    · simp only [made, Action.actor, ho] at hc
      cases hc
    · simp only [record, ho]
      exact hb
  | abort txn =>
    refine ⟨(0, 0), fun {c} hc => ?_, h.abort ha.1⟩
    cases hc
  | write | install | flush | flushHeld | flushAll | discard | release => exact ha.1.elim

end Booked

/-! ## Whole runs -/

/-- How the rows of the service compare to a ledger, and what its next action adds to it. -/
structure Balanced (s : Service) (l : Ledger) (rows : RowId → Option Bytes) (next : Option Action)
    (spot : Nat × Nat) : Prop where
  /-- The files hold the changes of transactions that have committed, and no others. -/
  stored : rowsOf s.engine.stored = l.durable rows
  /-- Transactions see all changes that have not been undone. -/
  seen : rowsOf s.engine.seen = l.live rows
  /-- If the next action is an insertion, it puts the row where there is none, with all changes made
  that have not been undone; if it is a deletion, it takes a row away from where there is one. -/
  serves : ∀ {a c}, next = some a → s.made a spot = some c →
    (c.content = none ↔ l.live rows c.place ≠ none)
  /-- If the next action is a commit, it does not fail. -/
  commits : ∀ {txn}, next = some (.commit txn) →
    (s.perform (.commit txn)).1 = some (.ok .done)

/-- A booked service stays booked along a run, for some choice of spots. -/
theorem Booked.run {as : List Action} (h : s.Booked l rows) (hr : s.Runs Permits as) :
    ∃ spots : Nat → Nat × Nat, ∀ k ≤ as.length,
      (s.after (as.take k)).Balanced (s.ledger spots l (as.take k)) rows as[k]? (spots k) := by
  induction as generalizing s l with
  | nil =>
    refine ⟨fun _ => (0, 0), fun k hk => ?_⟩
    obtain rfl : k = 0 := Nat.le_zero.1 hk
    exact ⟨h.stored, h.seen, nofun, nofun⟩
  | cons a as ih =>
    obtain ⟨spot, hserves, hb⟩ := h.perform hr.1
    obtain ⟨spots, hall⟩ := ih hb hr.2
    refine ⟨fun | 0 => spot | n + 1 => spots n, fun k hk => ?_⟩
    cases k with
    | zero =>
      refine ⟨h.stored, h.seen, fun {b c} hn hc => ?_, fun {txn} hn => ?_⟩
      · cases hn
        change c.content = none ↔ l.live rows c.place ≠ none
        rw [← h.seen]
        exact hserves hc
      · cases hn
        exact (h.commit hr.1.1).1
    | succ k => exact hall k (Nat.le_of_succ_le_succ hk)

/-- No row is lost, duplicated or leaked: at every point of a run that starts with an empty pool and
any files, the rows in the files are those that the files had at first after the changes, in the
order in which they were made, of the transactions that have committed since they made them. -/
theorem Runs.balanced {backing : Backing} (hb : backing.WellFormed)
    (hj : backing.journal.Reliable) {capacity : Nat} {choices : Nat → Nat} {as : List Action}
    (h : (Service.start backing capacity choices).Runs Permits as) :
    ∃ spots : Nat → Nat × Nat, ∀ k ≤ as.length,
      ((Service.start backing capacity choices).after (as.take k)).Balanced
        ((Service.start backing capacity choices).ledger spots [] (as.take k))
        (rowsOf backing.stored) as[k]? (spots k) :=
  (Booked.start hb hj capacity choices).run h

end Service

namespace Sample

/-- A transaction inserts a row and commits. Another one wants to delete a row of the same page
meanwhile, has to wait, and aborts after all. -/
def ended : List Action :=
  [.issue (.insert 1 table.id ⟨[.int 7], none⟩), .issue (.delete 2 (some ⟨page, 0⟩)), .commit 1,
    .turn ⟨2, page, .exclusive, true⟩, .abort 2]

theorem runs_ended : (Service.start backing 2 id).Runs Service.Permits ended :=
  ⟨⟨⟨trivial, of_decide_eq_true (by cbv)⟩, of_decide_eq_true (by cbv)⟩,
    ⟨⟨trivial, of_decide_eq_true (by cbv)⟩, of_decide_eq_true (by cbv)⟩,
    ⟨of_decide_eq_true (by cbv), of_decide_eq_true (by cbv)⟩,
    ⟨of_decide_eq_true (by cbv), of_decide_eq_true (by cbv)⟩,
    ⟨of_decide_eq_true (by cbv), of_decide_eq_true (by cbv)⟩, trivial⟩

/-- The rows are balanced all along this run. In the end the file has the old row, which has only
been deleted for a while, and the inserted one. -/
theorem balanced_ended :
    backing.WellFormed ∧ backing.journal.Reliable ∧
      (Service.start backing 2 id).Runs Service.Permits ended ∧
      (∃ spots : Nat → Nat × Nat, ∀ k ≤ ended.length,
        ((Service.start backing 2 id).after (ended.take k)).Balanced
          ((Service.start backing 2 id).ledger spots [] (ended.take k)) (rowsOf backing.stored)
          ended[k]? (spots k)) ∧
      (rowsOf ((Service.start backing 2 id).after ended).engine.stored ⟨page, 0⟩ =
        some [0, 0, 0, 5]) ∧
      rowsOf ((Service.start backing 2 id).after ended).engine.stored ⟨page, 1⟩ =
        some [0, 0, 0, 7] :=
  ⟨wellFormed_backing, Journal.reliable_empty, runs_ended,
    Service.Runs.balanced wellFormed_backing Journal.reliable_empty runs_ended, by cbv, by cbv⟩

end Sample

end RowStore
