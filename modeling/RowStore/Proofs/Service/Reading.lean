import RowStore.Proofs.Call.Read
import RowStore.Proofs.Service.Footprint

/-!
# Transactions that only read

What others do has no bearing on the locks of a transaction, and what it holds they do not change.
What it does itself leaves it what it holds as well, as long as it only reads. So from action to
action it keeps what it holds, and sees it as before: `Service.OnlyReads` says which actions these
are, and `Sound.keeps` that `Engine.Keeps` holds of each of them.
-/

namespace RowStore

open Engine

variable {txn : TxnId} {page : PageId} {p : Page}

/-- The action asks for pages to read at most. -/
def Action.IsRead : Action → Prop
  | issue r => r.IsRead
  | turn w => w.mode = .shared
  | _ => False

theorem Access.eq_read_of_mode {access : Access} (h : access.mode = .shared) :
    access = .read := by
  cases access with
  | read => rfl
  | write => cases h

namespace Service

variable {s : Service} {a : Action} {as : List Action}

/-- The action is permitted, and it is not one by which the transaction wants to change or to end
anything. -/
structure OnlyReads (txn : TxnId) (s : Service) (a : Action) : Prop where
  /-- The action is permitted. -/
  permitted : s.PermitsWrites a
  /-- If it is one of the transaction then it only reads. -/
  reads : a.actor = some txn → a.IsRead

theorem Runs.permitted (h : s.Runs (OnlyReads txn) as) : s.Runs PermitsWrites as := by
  induction as generalizing s with
  | nil => trivial
  | cons a as ih => exact ⟨h.1.permitted, ih h.2⟩

/-- No action makes a page disappear. -/
theorem Sound.seen_ne_none (h : s.Sound) (ha : s.PermitsWrites a)
    (hp : s.engine.seen page = some p) : ∃ q, (s.perform a).2.engine.seen page = some q := by
  rw [← Option.ne_none_iff_exists']
  intro hn
  have hstored := ((h.perform ha).engine.seen_eq_none_iff).1 hn
  rcases h.stored_perform ha page with hg | ⟨txn, -, -, hseen⟩
  · cases hs : s.engine.stored page with
    | none => cases hp.symm.trans (h.engine.seen_eq_none_iff.2 hs)
    | some q => cases hstored.symm.trans (hg.eq_some hs)
  · cases hstored.symm.trans (hseen.trans hp)

/-- A transaction that reads keeps what it holds. -/
theorem Sound.keeps_of_read (h : s.Sound) (ho : s.Orderly) (ha : s.PermitsWrites a)
    (hact : a.actor = some txn) (hr : a.IsRead) :
    s.engine.Keeps txn (s.perform a).2.engine := by
  have hallows := ha.allows
  cases a with
  | issue r =>
    obtain rfl : r.txn = txn := Option.some.inj hact
    obtain ⟨he, hread⟩ := Request.start_of_read hr s.engine
    have hx := (r.start_cases s.engine).2
    rcases hstart : r.start s.engine with ⟨step, e⟩
    rw [hstart] at he hread hx
    obtain rfl : e = s.engine := he
    cases step with
    | finished outcome =>
      have hp : s.issue r = (some outcome, s) := by rw [issue, hstart]
      change s.engine.Keeps r.txn (s.issue r).2.engine
      rw [hp]
      exact .refl _ _
    | waits c _ =>
      obtain ⟨result, hcourse, -⟩ := course_issue ho hallows hstart
      have hk := hcourse.keeps_of_read h.engine.toCoherent (hread c rfl)
      rwa [(hx c rfl).1] at hk
  | turn w =>
    obtain rfl : w.txn = txn := Option.some.inj hact
    obtain ⟨c, -, hf, ht, -, hm⟩ := ho.find?_eq_some hallows
    obtain ⟨result, hcourse, -⟩ := course_turn ho hallows hf
    have hk := hcourse.keeps_of_read h.engine.toCoherent (Access.eq_read_of_mode (hm.trans hr))
    rwa [ht] at hk
  | _ => exact hr.elim

/-- What others do leaves a transaction what it holds. -/
theorem Sound.keeps_of_ne (h : s.Sound) (ho : s.Orderly) (ha : s.PermitsWrites a)
    (hact : a.actor ≠ some txn) : s.engine.Keeps txn (s.perform a).2.engine where
  held hm := by
    rwa [ho.modeOf_perform_of_ne ha hact]
  seen {page p} hm hp := by
    rcases h.seen_perform ha page with hg | ⟨x, hx, hex⟩
    · exact hg.eq_some hp
    · have hne : txn ≠ x := by
        rintro rfl
        exact hact hx
      have hm' := hm
      rw [← ho.modeOf_perform_of_ne ha hact] at hm'
      rcases hex with hex | hex
      · exact absurd (ho.safe.modeOf_eq_free_of_ne hex hne) hm
      · exact absurd ((ho.perform ha.allows).safe.modeOf_eq_free_of_ne hex hne) hm'
  present hp := h.seen_ne_none ha hp

/-- Whoever acts, a transaction that only reads keeps what it holds. -/
theorem Sound.keeps (h : s.Sound) (ho : s.Orderly) (ha : s.OnlyReads txn a) :
    s.engine.Keeps txn (s.perform a).2.engine := by
  by_cases hact : a.actor = some txn
  · exact h.keeps_of_read ho ha.permitted hact (ha.reads hact)
  · exact h.keeps_of_ne ho ha.permitted hact

/-- So it does all along a run. -/
theorem Sound.keeps_after (h : s.Sound) (ho : s.Orderly) (hr : s.Runs (OnlyReads txn) as) :
    s.engine.Keeps txn (s.after as).engine := by
  induction as generalizing s with
  | nil => exact .refl _ _
  | cons a as ih =>
    obtain ⟨ha, hr⟩ := hr
    have hperm := ha.permitted
    exact (h.keeps ho ha).trans (ih (h.perform hperm) (ho.perform hperm.allows) hr)

end Service

end RowStore
