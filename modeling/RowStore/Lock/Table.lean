import RowStore.Lock.WaitGraph
import RowStore.PageMap

/-!
# Page locks

Transactions lock whole pages, shared or exclusively, and keep their locks until they end. A
request that the present holders do not allow waits; one that would wait in a circle is refused.

A lock table is the granted records, page by page, together with the waiting requests. A waiting
request is woken when the records on its page change, and then takes another *turn*: it is granted,
keeps waiting behind the holders of the moment, or is refused. Nobody queues: a request that the
holders allow is granted at once, whoever waits.

The view of the granted records is `LockTable.holders`, and there is one lemma for what each change
does to it.
-/

namespace RowStore

/-- A request that waits for a lock. -/
structure Waiter where
  /-- Who waits. -/
  txn : TxnId
  /-- The page waited for. -/
  page : PageId
  /-- The mode asked for. -/
  mode : LockMode
  /-- Whether the locks of the page have changed since the request last looked at them. -/
  notified : Bool
deriving DecidableEq

/-- The locks on pages. -/
structure LockTable where
  /-- The granted locks on every page that the table knows: those asked for since they were last
  idle. -/
  granted : PageMap (List LockRecord)
  /-- The requests that wait. -/
  waiting : List Waiter
  /-- Who waits behind which records. -/
  graph : WaitGraph

/-- What became of a request. -/
inductive Verdict
  /-- The lock is held. -/
  | granted
  /-- The request waits. -/
  | blocked
  /-- The request would have waited in a circle and is off. -/
  | deadlock
deriving DecidableEq

namespace LockTable

/-- The table without locks. -/
def empty : LockTable := ⟨∅, [], WaitGraph.empty⟩

/-! ## Looking -/

/-- The known pages, listed by table and number. The order in which they are gone through is up to
the machine. -/
def pages (t : LockTable) : List PageId := t.granted.keys

/-- The records on a page. -/
def holders (t : LockTable) (page : PageId) : List LockRecord := (t.granted[page]?).getD []

/-- The records of a transaction. -/
def locksOf (t : LockTable) (txn : TxnId) : List LockRecord :=
  t.granted.values.flatMap (·.filter (·.txn = txn))

/-- How strongly a transaction holds a page. -/
def modeOf (t : LockTable) (txn : TxnId) (page : PageId) : LockMode :=
  if ⟨txn, .exclusive, page⟩ ∈ t.holders page then .exclusive
  else if ⟨txn, .shared, page⟩ ∈ t.holders page then .shared
  else .free

/-- The known pages that a transaction holds in exactly the mode. -/
def pagesHeld (t : LockTable) (txn : TxnId) (mode : LockMode) : List PageId :=
  t.pages.filter fun page => t.modeOf txn page = mode

/-- Whether the holders of a page allow a request: sharing only conflicts with the sole use of
another, and sole use with any lock. -/
def admits (t : LockTable) (txn : TxnId) (page : PageId) : LockMode → Bool
  | .free => true
  | .shared => (t.holders page).all fun r => r.mode ≠ .exclusive || r.txn = txn
  | .exclusive => (t.holders page).all fun r => r.mode = .free

/-- The records of others on a page. -/
def blockers (t : LockTable) (txn : TxnId) (page : PageId) : List LockRecord :=
  (t.holders page).filter (·.txn ≠ txn)

/-- How many waiting requests are due another turn. -/
def notifiedCount (t : LockTable) : Nat := t.waiting.countP (·.notified)

/-- The first waiting request that is due another turn. -/
def nextNotified? (t : LockTable) : Option Waiter := t.waiting.find? (·.notified)

theorem mem_waiting_of_nextNotified? {t : LockTable} {w : Waiter} (h : t.nextNotified? = some w) :
    w ∈ t.waiting := List.mem_of_find?_eq_some h

theorem notified_of_nextNotified? {t : LockTable} {w : Waiter} (h : t.nextNotified? = some w) :
    w.notified = true := List.find?_some h

/-! ## Single changes -/

/-- Makes a page known. -/
def touch (t : LockTable) (page : PageId) : LockTable :=
  { t with granted := t.granted.insertIfNew page [] }

/-- Records that the transaction holds the page in the mode. -/
def grant (t : LockTable) (txn : TxnId) (page : PageId) (mode : LockMode) : LockTable :=
  { t with granted := t.granted.insert page (⟨txn, mode, page⟩ :: t.holders page) }

/-- Gives every request that waits for the page another turn. -/
def notify (t : LockTable) (page : PageId) : LockTable :=
  { t with waiting := t.waiting.map fun w =>
      if w.page = page then { w with notified := true } else w }

/-- Takes the transaction's records on the page away. -/
def drop (t : LockTable) (txn : TxnId) (page : PageId) : LockTable :=
  { t with granted := t.granted.modify page (·.filter (·.txn ≠ txn)) }

/-- Ends the waiting of a transaction. -/
def dequeue (t : LockTable) (txn : TxnId) : LockTable :=
  { t with waiting := t.waiting.filter (·.txn ≠ txn) }

/-- Lets a transaction wait, with no turn due. -/
def enqueue (t : LockTable) (txn : TxnId) (page : PageId) (mode : LockMode) : LockTable :=
  { t.dequeue txn with waiting := (t.dequeue txn).waiting ++ [⟨txn, page, mode, false⟩] }

@[simp] theorem holders_empty (page : PageId) : empty.holders page = [] := by
  simp [empty, holders]

@[simp] theorem holders_touch (t : LockTable) (page p : PageId) :
    (t.touch page).holders p = t.holders p := by
  simp only [touch, holders, Std.TreeMap.getElem?_insertIfNew, Std.LawfulEqOrd.compare_eq_iff_eq]
  split
  · next h =>
    obtain ⟨rfl, hn⟩ := h
    rw [Std.TreeMap.getElem?_eq_none hn]
    rfl
  · rfl

@[simp] theorem holders_grant (t : LockTable) (txn : TxnId) (page p : PageId) (mode : LockMode) :
    (t.grant txn page mode).holders p =
      if p = page then ⟨txn, mode, page⟩ :: t.holders page else t.holders p := by
  by_cases h : p = page
  · simp [grant, holders, h]
  · simp [grant, holders, Std.TreeMap.getElem?_insert, h, Ne.symm h]

@[simp] theorem holders_drop (t : LockTable) (txn : TxnId) (page p : PageId) :
    (t.drop txn page).holders p =
      if p = page then (t.holders page).filter (·.txn ≠ txn) else t.holders p := by
  by_cases h : p = page
  · subst h
    cases hg : t.granted[p]? <;> simp [drop, holders, hg]
  · simp [drop, holders, Std.TreeMap.getElem?_modify, h, Ne.symm h]

@[simp] theorem holders_notify (t : LockTable) (page p : PageId) :
    (t.notify page).holders p = t.holders p := rfl

@[simp] theorem holders_dequeue (t : LockTable) (txn : TxnId) (p : PageId) :
    (t.dequeue txn).holders p = t.holders p := rfl

@[simp] theorem holders_enqueue (t : LockTable) (txn : TxnId) (page p : PageId) (mode : LockMode) :
    (t.enqueue txn page mode).holders p = t.holders p := rfl

/-! ## Requests -/

/-- One turn of a request. The holders of a page that has gained one are not the ones its other
waiters wait behind, so those are due a turn too. -/
def turn (t : LockTable) (txn : TxnId) (page : PageId) (mode : LockMode) : Verdict × LockTable :=
  if t.admits txn page mode then
    (.granted, ({ t.grant txn page mode with
      graph := t.graph.clearWaiting txn }.dequeue txn).notify page)
  else
    let graph := t.graph.setWaiting txn (t.blockers txn page)
    if graph.hasCycleFrom txn then
      (.deadlock, { t with graph := graph.clearWaiting txn }.dequeue txn)
    else (.blocked, { t with graph }.enqueue txn page mode)

/-- Asks for a page in at least the mode. Who asks for sole use of a page that it shares gives the
share up before it waits. -/
def acquire (t : LockTable) (txn : TxnId) (page : PageId) (mode : LockMode) :
    Verdict × LockTable :=
  let t := t.touch page
  let held := t.modeOf txn page
  if mode ≤ held then (.granted, t)
  else if mode = .exclusive ∧ held = .shared then
    ((t.drop txn page).notify page).turn txn page mode
  else t.turn txn page mode

/-- Gives back what the transaction holds of a page. Nobody waits behind it any more. -/
def release (t : LockTable) (txn : TxnId) (page : PageId) : LockTable :=
  if (t.holders page).any (·.txn = txn) then
    { t with graph := t.graph.removeHolder txn page }.drop txn page |>.notify page
  else t

/-- Gives back everything that the transaction holds, and forgets the pages that nobody holds or
waits for. -/
def releaseAll (t : LockTable) (txn : TxnId) : LockTable :=
  { granted := t.granted.filterMap fun page records =>
      let rest := records.filter (·.txn ≠ txn)
      if rest.isEmpty && !t.waiting.any (·.page = page) then none else some rest
    waiting := t.waiting.map fun w =>
      if (t.holders w.page).any (·.txn = txn) then { w with notified := true } else w
    graph := t.graph.purge txn }

/-- After giving everything back a transaction holds nothing, and the others hold what they held. -/
@[simp] theorem holders_releaseAll (t : LockTable) (txn : TxnId) (p : PageId) :
    (t.releaseAll txn).holders p = (t.holders p).filter (·.txn ≠ txn) := by
  simp only [releaseAll, holders, Std.TreeMap.getElem?_filterMap, Std.TreeMap.getKey_eq]
  cases hg : t.granted[p]? with
  | none => simp
  | some records =>
    simp only [Option.pbind_some, Option.getD_some]
    split <;> simp_all

/-! ## Turns of the waiting requests -/

/-- A turn of a waiting request. -/
def retry (t : LockTable) (w : Waiter) : Verdict × LockTable := t.turn w.txn w.page w.mode

theorem waiting_retry_of_blocked {t : LockTable} {w : Waiter} (h : (t.retry w).1 = .blocked) :
    (t.retry w).2.waiting =
      t.waiting.filter (·.txn ≠ w.txn) ++ [⟨w.txn, w.page, w.mode, false⟩] := by
  unfold retry turn at h ⊢
  split at h
  · cases h
  · next ha =>
    simp only [ha, Bool.false_eq_true, if_false] at h ⊢
    split at h
    · cases h
    · next hc =>
      simp [hc, enqueue, dequeue]

theorem length_waiting_retry_of_not_blocked {t : LockTable} {w : Waiter}
    (h : (t.retry w).1 ≠ .blocked) :
    (t.retry w).2.waiting.length = (t.waiting.filter (·.txn ≠ w.txn)).length := by
  unfold retry turn at h ⊢
  split
  · simp [notify, dequeue, grant]
  · next ha =>
    simp only [ha, Bool.false_eq_true, if_false] at h ⊢
    split
    · simp [dequeue]
    · next hc =>
      simp [hc] at h

theorem notifiedCount_filter_lt {ws : List Waiter} {w : Waiter} (hm : w ∈ ws)
    (hn : w.notified = true) :
    (ws.filter (·.txn ≠ w.txn)).countP (·.notified) < ws.countP (·.notified) := by
  have hp : 0 < (ws.filter fun a => !decide (a.txn ≠ w.txn)).countP (·.notified) :=
    List.countP_pos_iff.2 ⟨w, by simp [hm], hn⟩
  have hs := List.countP_eq_countP_filter_add ws (·.notified) (·.txn ≠ w.txn)
  omega

/-- A request that no longer waits is no longer due a turn. -/
theorem notifiedCount_dequeue_lt {t : LockTable} {w : Waiter} (hm : w ∈ t.waiting)
    (hn : w.notified = true) : (t.dequeue w.txn).notifiedCount < t.notifiedCount :=
  notifiedCount_filter_lt hm hn

/-- A request that keeps waiting is no longer due a turn. -/
theorem notifiedCount_retry_lt {t : LockTable} {w : Waiter} (hm : w ∈ t.waiting)
    (hn : w.notified = true) (h : (t.retry w).1 = .blocked) :
    (t.retry w).2.notifiedCount < t.notifiedCount := by
  have := notifiedCount_filter_lt hm hn
  simpa [notifiedCount, waiting_retry_of_blocked h, List.countP_append] using this

theorem length_filter_txn_lt {ws : List Waiter} {w : Waiter} (hm : w ∈ ws) :
    (ws.filter (·.txn ≠ w.txn)).length < ws.length :=
  List.length_filter_lt_length_iff_exists.2 ⟨w, hm, by simp⟩

/-- Gives every waiting request the turns it is due, until none is, and tells what became of those
that no longer wait. -/
def settle (t : LockTable) : List (Waiter × Verdict) × LockTable :=
  match _hw : t.nextNotified? with
  | none => ([], t)
  | some w =>
    match _hr : t.retry w with
    | (verdict, next) =>
      if _hb : verdict = .blocked then next.settle
      else
        let (rest, last) := next.settle
        ((w, verdict) :: rest, last)
termination_by (t.waiting.length, t.notifiedCount)
decreasing_by
  · have hm := mem_waiting_of_nextNotified? _hw
    have hb : (t.retry w).1 = .blocked := by rw [_hr]; exact _hb
    have hl : next.waiting.length ≤ t.waiting.length := by
      have := waiting_retry_of_blocked hb
      rw [_hr] at this
      rw [this, List.length_append]
      exact length_filter_txn_lt hm
    have hc : next.notifiedCount < t.notifiedCount := by
      have := notifiedCount_retry_lt hm (notified_of_nextNotified? _hw) hb
      rwa [_hr] at this
    rcases Nat.lt_or_eq_of_le hl with hl | hl
    · exact Prod.Lex.left _ _ hl
    · rw [hl]
      exact Prod.Lex.right _ hc
  · have hb : (t.retry w).1 ≠ .blocked := by rw [_hr]; exact _hb
    have := length_waiting_retry_of_not_blocked hb
    rw [_hr] at this
    apply Prod.Lex.left
    rw [this]
    exact length_filter_txn_lt (mem_waiting_of_nextNotified? _hw)

/-- Asks for a lock, and then gives the waiting requests the turns that they are due. The verdict is
the one that stands in the end. -/
def request (t : LockTable) (txn : TxnId) (page : PageId) (mode : LockMode) :
    Verdict × List (Waiter × Verdict) × LockTable :=
  match t.acquire txn page mode with
  | (.blocked, t) =>
    let (woken, t) := t.settle
    match woken.find? (·.1.txn = txn) with
    | some (_, verdict) => (verdict, woken.filter (·.1.txn ≠ txn), t)
    | none => (.blocked, woken, t)
  | (verdict, t) => (verdict, t.settle)

end LockTable

end RowStore
