import RowStore.Proofs.Call.Run
import RowStore.Proofs.Lock.Safety
import RowStore.Proofs.Pool.Move

/-!
# The course of a call

`Engine.run` and `Engine.resume` take a call from one lock to the next. `Engine.Course` is the same
as a relation, with what is known about each verdict on the way, so that what holds of every course
can be shown by induction on it: no other induction on the work of a call is needed.

All in all a course is a series of *stages*: verdicts on locks, single moves, and probes of pages
that turn out to be full. As in `RowStore.Proofs.Pool.Move` nothing is assumed about the cached
pages, so this tells what calls do to any engine, however it came about.
-/

namespace RowStore

open Relation

/-- An insertion that takes itself to have had no lock on the page it is about to try has none. -/
def Call.Fresh (e : Engine) : Call → Prop
  | insert i => i.heldBefore = .free → e.locks.modeOf i.txn i.page = .free
  | _ => True

namespace Engine

/-- The verdict on the lock that a call asks for, and the locks as they are then. -/
structure Judges (e : Engine) (c : Call) (verdict : Verdict) (locks : LockTable) : Prop
    extends e.locks.Decides c.txn c.page c.mode verdict locks where
  /-- The locks stand side by side. -/
  safe : locks.Safe
  /-- A lock that the transaction has already is granted. -/
  needed : verdict ≠ .granted → ¬ c.mode ≤ e.locks.modeOf c.txn c.page
  /-- What the call knows about its lock was so before. -/
  fresh : c.Fresh e

/-- What a call leads to, from one verdict to the next: to its end, or to a call that waits for its
lock. -/
inductive Course : Engine → Call → Outcome ⊕ Call → Engine → Prop
  /-- The call has to wait. -/
  | blocked {e : Engine} {c : Call} {locks : LockTable} (hj : e.Judges c .blocked locks) :
    Course e c (.inr c) { e with locks }
  /-- The call ends. -/
  | ended {e e' : Engine} {c : Call} {verdict : Verdict} {locks : LockTable} {outcome : Outcome}
    (hj : e.Judges c verdict locks) (hv : verdict ≠ .blocked)
    (ha : c.answer (verdict = .granted) { e with locks } = (.finished outcome, e')) :
    Course e c (.inl outcome) e'
  /-- The call goes on to another lock. -/
  | next {e e₁ e' : Engine} {c d : Call} {verdict : Verdict} {locks : LockTable}
    {result : Outcome ⊕ Call} {hw : d.work < c.work} (hj : e.Judges c verdict locks)
    (hv : verdict ≠ .blocked)
    (ha : c.answer (verdict = .granted) { e with locks } = (.waits d hw, e₁))
    (hx : d.txn = c.txn) (hc : Course e₁ d result e') : Course e c result e'

end Engine

open Engine

variable {e e' e₁ : Engine} {locks : LockTable} {txn x : TxnId} {page p : PageId} {m : LockMode}
  {verdict : Verdict} {c d : Call} {i : Insertion} {result : Outcome ⊕ Call}

/-! ## Answers

What follows from a verdict touches the locks only where an insertion gives a page back that it had
no lock on before. -/

namespace Insertion

theorem fresh_trying (i : Insertion) (e : Engine) (number : Nat) (grown : Bool)
    (h : e'.locks = e.locks) : (Call.insert (i.trying e number grown)).Fresh e' := by
  intro hf
  rw [h]
  exact hf

theorem grow_cases {p : Call → Prop} (i : Insertion) (e : Engine)
    (h : ∀ j : Insertion, j.grown = true → p (.insert j)) :
    e.Moves i.txn (i.grow e h).2 ∧
      ∀ d, (i.grow e h).1.result = .inr d → d.txn = i.txn ∧ d.Fresh (i.grow e h).2 := by
  unfold grow
  split
  · exact ⟨.refl, nofun⟩
  · next number disk hg =>
    have hm : e.Moves i.txn { e with disk } := .single (.grow hg)
    dsimp only
    split
    · refine ⟨hm, fun d hd => ?_⟩
      cases hd
      exact ⟨rfl, i.fresh_trying { e with disk } number true rfl⟩
    · exact ⟨hm, nofun⟩

theorem start_cases (i : Insertion) (e : Engine) :
    e.Moves i.txn (i.start e).2 ∧
      ∀ d, (i.start e).1.result = .inr d → d.txn = i.txn ∧ d.Fresh (i.start e).2 := by
  unfold start
  split
  · refine ⟨.refl, fun d hd => ?_⟩
    cases hd
  · split
    · refine ⟨.refl, fun d hd => ?_⟩
      cases hd
    · exact i.grow_cases e _
    · refine ⟨.refl, fun d hd => ?_⟩
      cases hd
      exact ⟨rfl, fresh_trying _ e 0 false rfl⟩

theorem locks_tryPage (i : Insertion) (e : Engine) :
    (i.tryPage e).2.locks = e.locks ∨
      i.heldBefore = .free ∧ (i.tryPage e).2.locks = e.locks.release i.txn i.page := by
  have hl := locks_tryInsert e i.txn i.page i.row
  unfold tryPage
  generalize e.tryInsert i.txn i.page i.row = tried at hl
  obtain ⟨r, e₁⟩ := tried
  dsimp only at hl
  split
  · next he =>
    cases he
    exact .inl hl
  · next he =>
    cases he
    exact .inl ((locks_conclude ..).trans hl)
  · next he =>
    cases he
    split
    · exact .inl hl
    · by_cases hf : i.heldBefore = .free
      · rw [if_pos hf]
        have hr : (e₁.release i.txn i.page).locks = e.locks.release i.txn i.page :=
          congrArg (·.release i.txn i.page) hl
        right
        split
        · exact ⟨hf, hr⟩
        · exact ⟨hf, (i.grow_cases _ _).1.stays.locks.trans hr⟩
      · rw [if_neg hf]
        left
        split
        · exact hl
        · exact (i.grow_cases _ _).1.stays.locks.trans hl

theorem next_tryPage (i : Insertion) (e : Engine) (hd : (i.tryPage e).1.result = .inr d) :
    d.txn = i.txn ∧ d.Fresh (i.tryPage e).2 := by
  revert hd
  unfold tryPage
  split
  · nofun
  · nofun
  · split
    · nofun
    · generalize (if i.heldBefore = LockMode.free then _ else _ : Engine) = e₁
      dsimp only
      split
      · intro hd
        cases hd
        exact ⟨rfl, i.fresh_trying e₁ (i.number + 1) false rfl⟩
      · exact (i.grow_cases e₁ _).2 d

end Insertion

namespace Call

theorem result_refuse (c : Call) (err : Error) :
    (c.refuse err).result = .inl (.error err) ∨ c.access = .read ∧
      ∀ d, (c.refuse err).result = .inr d → d.txn = c.txn ∧ ∀ e, d.Fresh e := by
  cases c with
  | fetch | insert | delete | collect => exact .inl rfl
  | take c more given =>
    refine .inr ⟨rfl, fun d hd => ?_⟩
    rw [refuse] at hd
    rcases c.result_serve more (.error err :: given) _ with
      ⟨xs, c', hs⟩ | ⟨rest, more', items, hs, ht⟩
    · rw [hs] at hd
      cases hd
    · rw [hs] at hd
      cases hd
      exact ⟨ht, fun _ => trivial⟩

theorem locks_proceed (c : Call) (e : Engine) :
    (c.proceed e).2.locks = e.locks ∨ ∃ i, c = .insert i ∧ i.heldBefore = .free ∧
      (c.proceed e).2.locks = e.locks.release i.txn i.page := by
  cases c with
  | fetch txn page access keep =>
    left
    unfold proceed
    dsimp only
    split
    · rfl
    · next k e₁ hr =>
      rw [← locks_reach hr]
      cases keep <;> rfl
  | insert i =>
    rcases i.locks_tryPage e with hl | ⟨hf, hl⟩
    · exact .inl hl
    · exact .inr ⟨i, rfl, hf, hl⟩
  | delete txn place install =>
    left
    have hl := locks_tryDelete e txn place
    unfold proceed
    dsimp only
    generalize e.tryDelete txn place = tried at hl
    obtain ⟨r, e₁⟩ := tried
    cases r with
    | error err => exact hl
    | ok q => exact (locks_conclude e₁ txn q install).trans hl
  | collect c seen =>
    left
    have hl := locks_nextRows e c
    unfold proceed
    dsimp only
    generalize e.nextRows c = read at hl
    obtain ⟨r, e₁⟩ := read
    cases r <;> exact hl
  | take c more given =>
    left
    have hl := locks_nextRows e c
    unfold proceed
    dsimp only
    generalize e.nextRows c = read at hl
    obtain ⟨r, e₁⟩ := read
    cases r <;> exact hl

theorem locks_answer (c : Call) (granted : Bool) (e : Engine) :
    (c.answer granted e).2.locks = e.locks ∨ ∃ i, c = .insert i ∧ i.heldBefore = .free ∧
      (c.answer granted e).2.locks = e.locks.release i.txn i.page := by
  cases granted with
  | false => exact .inl rfl
  | true => exact c.locks_proceed e

theorem next_proceed (c : Call) (e : Engine) (hd : (c.proceed e).1.result = .inr d) :
    d.txn = c.txn ∧ d.Fresh (c.proceed e).2 := by
  revert hd
  cases c with
  | fetch txn page access keep =>
    unfold proceed
    dsimp only
    split <;> nofun
  | insert i => exact i.next_tryPage e
  | delete txn place install =>
    unfold proceed
    dsimp only
    split <;> nofun
  | collect c seen =>
    unfold proceed
    dsimp only
    split
    · nofun
    · next rows e₁ hn =>
      intro hd
      rcases Cursor.result_serveAll { c with next := c.next + 1 } (rows.reverse ++ seen) _ with
        ⟨rs, hs⟩ | hs
      · rw [hs] at hd
        cases hd
      · rw [hs] at hd
        cases hd
        exact ⟨rfl, trivial⟩
  | take c more given =>
    unfold proceed
    dsimp only
    split
    · next err e₁ hn =>
      intro hd
      rcases (take c more given).result_refuse err with hs | ⟨-, hs⟩
      · rw [hs] at hd
        cases hd
      · exact ⟨(hs d hd).1, (hs d hd).2 e₁⟩
    · next rows e₁ hn =>
      intro hd
      rcases Cursor.result_serve { c with next := c.next + 1, buffered := rows } (more + 1) given _
        with ⟨xs, c', hs⟩ | ⟨rest, more', items, hs, ht⟩
      · rw [hs] at hd
        cases hd
      · rw [hs] at hd
        cases hd
        exact ⟨ht, trivial⟩

theorem next_answer (c : Call) (granted : Bool) (e : Engine)
    (hd : (c.answer granted e).1.result = .inr d) :
    d.txn = c.txn ∧ d.Fresh (c.answer granted e).2 := by
  cases granted with
  | true => exact next_proceed c e hd
  | false =>
    rcases c.result_refuse (.deadlock c.txn c.page c.mode) with hs | ⟨-, hs⟩
    · cases hs.symm.trans hd
    · exact ⟨(hs d hd).1, (hs d hd).2 _⟩

end Call

/-! ## Calls that run -/

namespace Engine

/-- After the answer to a verdict the locks still stand side by side, and the transaction waits for
nothing. -/
theorem Judges.answer (hj : e.Judges c verdict locks) (hv : verdict ≠ .blocked) :
    (c.answer (verdict = .granted) { e with locks }).2.locks.Safe ∧
      ¬ (c.answer (verdict = .granted) { e with locks }).2.locks.IsBlocked c.txn := by
  have hi := hj.not_isBlocked hv
  rcases c.locks_answer (verdict = .granted) { e with locks } with hl | ⟨i, -, -, hl⟩
  · rw [hl]
    exact ⟨hj.safe, hi⟩
  · rw [hl]
    refine ⟨hj.safe.release _ _, ?_⟩
    rintro ⟨pg, m, hw⟩
    exact hi ⟨pg, m, LockTable.waits_release.1 hw⟩

/-- The first turn of a call's request is judged. -/
theorem judges_acquire (h : e.locks.Safe) (hi : ¬ e.locks.IsBlocked c.txn) (hf : c.Fresh e) :
    e.Judges c (e.locks.acquire c.txn c.page c.mode).1
      (e.locks.acquire c.txn c.page c.mode).2 where
  toDecides := .of_acquire h.toSound hi
  safe := h.acquire c.txn c.page c.mode
  needed hv hm := by
    rw [LockTable.acquire_eq, if_pos hm] at hv
    exact hv rfl
  fresh := hf

/-- A later turn of a call's request is judged too. Who waits for a page has no lock on it. -/
theorem judges_retry (h : e.locks.Safe) {w : Waiter} (hw : w ∈ e.locks.waiting)
    (ht : c.txn = w.txn) (hp : c.page = w.page) (hm : c.mode = w.mode) :
    e.Judges c (e.locks.retry w).1 (e.locks.retry w).2 := by
  have hwaits := LockTable.waits_of_mem hw
  have hfree : e.locks.modeOf c.txn c.page = .free := by
    rw [ht, hp]
    exact LockTable.modeOf_eq_free (h.apart hwaits)
  have hd := h.decides_retry hw
  rw [← ht, ← hp, ← hm] at hd
  refine ⟨hd, h.retry hw, fun _ hle => ?_, ?_⟩
  · have hne := h.mode_ne hwaits
    rw [hfree, hm] at hle
    cases hmode : w.mode with
    | free => exact hne hmode
    | shared | exclusive =>
      rw [hmode] at hle
      exact absurd hle (by decide)
  · cases c with
    | insert i => exact fun _ => hfree
    | _ => trivial

/-- A call that runs has its course. -/
theorem course_run {p : Call → Prop} (hp : ∀ {c d : Call}, p c → d.work < c.work → p d) (c : Call)
    (hc : p c) (h : e.locks.Safe) (hi : ¬ e.locks.IsBlocked c.txn) (hf : c.Fresh e) :
    e.Course c (e.run hp c hc).1.result (e.run hp c hc).2 := by
  induction hn : c.work using Nat.strong_induction_on generalizing e c with
  | _ n ih =>
    have hj := judges_acquire h hi hf
    rw [run]
    generalize e.locks.acquire c.txn c.page c.mode = acquired at hj
    obtain ⟨verdict, locks⟩ := acquired
    by_cases hv : verdict = .blocked
    · subst hv
      exact .blocked hj
    · obtain ⟨hs, hi₁⟩ := hj.answer hv
      cases verdict with
      | blocked => exact absurd rfl hv
      | granted | deadlock =>
        all_goals
          dsimp only at hs hi₁ ⊢
          generalize ha : c.answer _ { e with locks } = answered at hs hi₁ ⊢
          obtain ⟨step, e₁⟩ := answered
          cases step with
          | finished outcome => exact .ended hj hv ha
          | waits next hw =>
            obtain ⟨hx, hf₁⟩ := c.next_answer (d := next) _ { e with locks } (by rw [ha]; rfl)
            rw [ha] at hf₁
            exact .next hj hv ha hx
              (ih next.work (hn ▸ hw) next (hp hc hw) hs (hx ▸ hi₁) hf₁ rfl)

/-- A call on whose lock a turn has decided has its course. -/
theorem course_resume (hj : e.Judges c verdict locks) (hv : verdict ≠ .blocked) :
    e.Course c (resume { e with locks } c (verdict = .granted)).1.result
      (resume { e with locks } c (verdict = .granted)).2 := by
  obtain ⟨hs, hi⟩ := hj.answer hv
  unfold resume
  generalize ha : c.answer _ { e with locks } = answered at hs hi ⊢
  obtain ⟨step, e₁⟩ := answered
  cases step with
  | finished outcome => exact .ended hj hv ha
  | waits next hw =>
    obtain ⟨hx, hf⟩ := c.next_answer (d := next) _ { e with locks } (by rw [ha]; rfl)
    rw [ha] at hf
    exact .next hj hv ha hx
      (course_run (fun h hd => Nat.lt_trans hd h) next hw hs (hx ▸ hi) hf)

end Engine

end RowStore
