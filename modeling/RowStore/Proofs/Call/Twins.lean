import RowStore.Proofs.Call.Run
import RowStore.Proofs.Pool.Twins

/-!
# Calls in engines that differ in clean pages

A request goes the same way in twins: it ends with the same outcome, or waits with the same
call. Only the frame that a handle refers to may be another. `Agree` compares how far a request
has come in two engines, and the proof follows a call from one lock to the next, by induction on
the work that is left.

Twins have the same locks, so the verdicts on locks are the same. That a stage of a call agrees
needs engines that are coherent; that they are still at the next lock is what `Engine.Progress`
says.
-/

namespace RowStore

open Engine

/-! ## What is shown -/

/-- The reply, whatever frame a handle refers to. -/
def Reply.shown : Reply → Reply
  | handle k p => handle { k with serial := 0 } p
  | reply => reply

/-- The outcome, whatever frame a handle refers to. -/
def Outcome.shown (o : Outcome) : Outcome := o.map Reply.shown

theorem Outcome.shown_eq_error_iff {o : Outcome} {err : Error} :
    shown o = .error err ↔ o = .error err := by
  cases o with
  | error e => exact Iff.rfl
  | ok reply => exact ⟨nofun, nofun⟩

/-- A request has come as far in two engines, which are twins still. -/
inductive Agree {p : Call → Prop} : Step p × Engine → Step p × Engine → Prop
  /-- It has ended with the same outcome. -/
  | finished {o o' : Outcome} {e e' : Engine} (ho : Outcome.shown o' = Outcome.shown o)
    (h : e.Twins e') : Agree (.finished o, e) (.finished o', e')
  /-- It needs the same lock. -/
  | waits {c : Call} {hc : p c} {e e' : Engine} (h : e.Twins e') :
    Agree (.waits c hc, e) (.waits c hc, e')

variable {e e' : Engine} {locks : LockTable} {txn : TxnId}

/-- A step that does not look at the cache agrees with itself. -/
theorem Agree.of_twins {p : Call → Prop} (step : Step p) (h : e.Twins e') :
    Agree (step, e) (step, e') := by
  cases step with
  | finished o => exact .finished rfl h
  | waits c hc => exact .waits h

/-- An outcome that is the same from two engines is the end in both. -/
theorem Agree.of_same {p : Call → Prop} {x x' : Outcome × Engine} (h : Same x x') :
    Agree (p := p) (.finished x.1, x.2) (.finished x'.1, x'.2) := by
  cases h with
  | mk o h => exact .finished rfl h

/-! ## Insertions -/

namespace Insertion

/-- A table grows by a page whatever is cached. -/
theorem agree_grow {p : Call → Prop} (i : Insertion) (h : e.Twins e')
    (hp : ∀ j : Insertion, j.grown = true → p (.insert j)) :
    Agree (i.grow e hp) (i.grow e' hp) := by
  obtain ⟨h⟩ := h
  unfold grow
  dsimp only
  cases e.disk.grow i.table with
  | error err => exact .of_twins _ (.mk h)
  | ok x =>
    obtain ⟨number, disk⟩ := x
    dsimp only
    split
    · exact .of_twins _ (.mk (e := { e with disk }) h)
    · exact .of_twins _ (.mk (e := { e with disk }) h)

theorem agree_start (i : Insertion) (h : e.Twins e') : Agree (i.start e) (i.start e') := by
  unfold start
  rw [h.toBacking]
  split
  · exact .of_twins _ h
  · split
    · exact .of_twins _ h
    · exact i.agree_grow h _
    · obtain ⟨h⟩ := h
      exact .of_twins _ (.mk h)

theorem agree_tryPage (i : Insertion) (h : e.Twins e') (hc : e.Coherent) (hc' : e'.Coherent) :
    Agree (i.tryPage e) (i.tryPage e') := by
  have htried := h.tryInsert hc hc' i.txn i.page i.row
  unfold tryPage
  generalize e.tryInsert i.txn i.page i.row = x, e'.tryInsert i.txn i.page i.row = x' at htried
  cases htried with
  | @mk result e₁ e₁' ht =>
    match result with
    | .error err => exact .of_twins _ ht
    | .ok (some p) => exact .of_same (ht.conclude i.txn p i.install)
    | .ok none =>
      dsimp only
      by_cases hg : i.grown
      · rw [dif_pos hg, dif_pos hg]
        exact .of_twins _ ht
      · rw [dif_neg hg, dif_neg hg]
        have hfreed : Twins (if i.heldBefore = .free then e₁.release i.txn i.page else e₁)
            (if i.heldBefore = .free then e₁'.release i.txn i.page else e₁') := by
          split
          · exact ht.release i.txn i.page
          · exact ht
        generalize (if i.heldBefore = .free then e₁.release i.txn i.page else e₁) = d,
          (if i.heldBefore = .free then e₁'.release i.txn i.page else e₁') = d' at hfreed
        split
        · cases hfreed with
          | mk hd => exact .of_twins _ (.mk hd)
        · exact i.agree_grow hfreed _

end Insertion

/-! ## Stages -/

namespace Call

variable (h : e.Twins e') (hc : e.Coherent) (hc' : e'.Coherent)
include h hc hc'

/-- A handle that is asked for shows the same page in twins. -/
theorem agree_fetch (txn : TxnId) (page : PageId) (access : Access) (keep : Bool) :
    Agree ((fetch txn page access keep).proceed e) ((fetch txn page access keep).proceed e') := by
  have hreach := h.reach hc hc' txn page access
  unfold proceed
  dsimp only
  generalize e.reach txn page access = r, e'.reach txn page access = r' at hreach
  cases hreach with
  | failed err => exact .of_twins _ h
  | got ht hq hq' =>
    dsimp only
    rw [hq, hq']
    refine .finished rfl ?_
    cases keep with
    | false => exact ht
    | true => exact ht.step (ht.cache.left.keep _) (ht.cache.right.keep _)

theorem agree_delete (txn : TxnId) (place : RowId) (install : Bool) :
    Agree ((delete txn place install).proceed e) ((delete txn place install).proceed e') := by
  have htried := h.tryDelete hc hc' txn place
  unfold proceed
  dsimp only
  generalize e.tryDelete txn place = x, e'.tryDelete txn place = x' at htried
  cases htried with
  | mk result ht =>
    cases result with
    | error err => exact .of_twins _ ht
    | ok p => exact .of_same (ht.conclude txn p install)

theorem agree_collect (d : Cursor) (seen : List Row) :
    Agree ((collect d seen).proceed e) ((collect d seen).proceed e') := by
  have hrows := h.nextRows hc hc' d
  unfold proceed
  dsimp only
  generalize e.nextRows d = x, e'.nextRows d = x' at hrows
  cases hrows with
  | mk result ht => cases result <;> exact .of_twins _ ht

theorem agree_take (d : Cursor) (more : Nat) (given : List Item) :
    Agree ((take d more given).proceed e) ((take d more given).proceed e') := by
  have hrows := h.nextRows hc hc' d
  unfold proceed
  dsimp only
  generalize e.nextRows d = x, e'.nextRows d = x' at hrows
  cases hrows with
  | mk result ht => cases result <;> exact .of_twins _ ht

theorem agree_proceed (c : Call) : Agree (c.proceed e) (c.proceed e') := by
  cases c with
  | fetch txn page access keep => exact agree_fetch h hc hc' txn page access keep
  | insert i => exact i.agree_tryPage h hc hc'
  | delete txn place install => exact agree_delete h hc hc' txn place install
  | collect d seen => exact agree_collect h hc hc' d seen
  | take d more given => exact agree_take h hc hc' d more given

theorem agree_answer (c : Call) (granted : Bool) :
    Agree (c.answer granted e) (c.answer granted e') := by
  unfold answer
  split
  · exact agree_proceed h hc hc' c
  · exact .of_twins _ h

end Call

/-! ## Up to the end -/

namespace Engine

/-- A call that runs until it ends or has to wait comes as far in twins. -/
theorem agree_run {p : Call → Prop} (hp : ∀ {c d : Call}, p c → d.work < c.work → p d)
    (c : Call) (hc : p c) (h : e.Twins e') (hs : e.Sound) (hs' : e'.Sound) (hr : Ready c e) :
    Agree (e.run hp c hc) (e'.run hp c hc) := by
  -- By induction on the work that is left. At the next lock both engines are sound again.
  induction hn : c.work using Nat.strong_induction_on generalizing e e' c with
  | _ n ih =>
    cases h with
    | @mk cache h =>
      have hr' : Ready c { e with cache } := hr
      have hd : LockTable.Decides _ c.txn c.page c.mode _ _ :=
        .of_acquire hs.consistent.toSound hr.2
      have hl := hs.consistent.acquire c.txn c.page c.mode
      rw [run, run]
      dsimp only
      generalize e.locks.acquire c.txn c.page c.mode = acquired at hd hl
      obtain ⟨verdict, locks⟩ := acquired
      have ht : Twins { e with locks } { e with cache, locks } := .mk (e := { e with locks }) h
      by_cases hv : verdict = .blocked
      · subst hv
        exact .waits ht
      · have hc₁ := (hs.decide hd hl).toCoherent
        have hc₁' := (hs'.decide hd hl).toCoherent
        have hstage := Call.agree_answer ht hc₁ hc₁' c (verdict = .granted)
        have hprog := Call.progress_answer hs hd hl hv hr.1
        have hprog' := Call.progress_answer hs' hd hl hv hr'.1
        cases verdict with
        | blocked => exact absurd rfl hv
        | granted | deadlock =>
          all_goals
            dsimp only at hstage hprog hprog' ⊢
            generalize c.answer _ { e with locks } = x at hstage hprog
            generalize c.answer _ { e with cache, locks } = x' at hstage hprog'
            cases hstage with
            | finished ho ht => exact .finished ho ht
            | @waits next hw _ _ ht =>
              cases hprog with
              | waits h₁ _ _ hready =>
                cases hprog' with
                | waits h₁' => exact ih next.work (hn ▸ hw) next (hp hc hw) ht h₁ h₁' hready rfl

/-- So does a call that goes on after a turn has decided about its lock. -/
theorem agree_resume {c : Call} {verdict : Verdict} (h : e.Twins e') (hs : e.Sound) (hs' : e'.Sound)
    (hd : e.locks.Decides c.txn c.page c.mode verdict locks) (hl : locks.Consistent)
    (hv : verdict ≠ .blocked) (hc : c.Sane e) :
    Agree (resume { e with locks } c (verdict = .granted))
      (resume { e' with locks } c (verdict = .granted)) := by
  cases h with
  | @mk cache h =>
    have hsane : c.Sane { e with cache } := hc
    have ht : Twins { e with locks } { e with cache, locks } := .mk (e := { e with locks }) h
    have hstage := Call.agree_answer ht (hs.decide hd hl).toCoherent (hs'.decide hd hl).toCoherent c
      (verdict = .granted)
    have hprog := Call.progress_answer hs hd hl hv hc
    have hprog' := Call.progress_answer hs' hd hl hv hsane
    unfold resume
    dsimp only at hprog' ⊢
    generalize c.answer _ { e with locks } = x at hstage hprog
    generalize c.answer _ { e with cache, locks } = x' at hstage hprog'
    cases hstage with
    | finished ho ht => exact .finished ho ht
    | @waits next hw _ _ ht =>
      cases hprog with
      | waits h₁ _ _ hready =>
        cases hprog' with
        | waits h₁' => exact agree_run (fun h hd => Nat.lt_trans hd h) next hw ht h₁ h₁' hready

end Engine

/-- A request comes as far in twins before its first lock. -/
theorem Request.agree_start (r : Request) (h : e.Twins e') : Agree (r.start e) (r.start e') := by
  cases r with
  | fetch txn page access keep => exact .of_twins _ h
  | insert txn id row =>
    rw [start, start, h.toBacking]
    split
    · exact .of_twins _ h
    · exact Insertion.agree_start _ h
  | delete txn place =>
    cases place with
    | none => exact .of_twins _ h
    | some place =>
      rw [start, start, h.toBacking]
      split
      · exact .of_twins _ h
      · exact .of_twins _ h
  | insertInto txn table row => exact Insertion.agree_start _ h
  | deleteFrom txn table place =>
    cases place with
    | none => exact .of_twins _ h
    | some place =>
      rw [start, start]
      split
      · exact .of_twins _ h
      · exact .of_twins _ h
  | scan txn table =>
    rw [start, start, openCursor, openCursor, h.toBacking]
    split
    · exact .of_twins _ h
    · exact .of_twins _ h
  | take d count => exact .of_twins _ h

end RowStore
