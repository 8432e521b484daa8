import RowStore.Proofs.Call.Course

/-!
# What a course leaves alone

A course is a series of *stages*: verdicts on locks, single moves, and probes of pages that turn out
to be full and are given back. Whatever each stage keeps, every call keeps, and `Course.stages` is
how to show that something is kept.

Of the locks, a call only changes what its own transaction has and waits for. And a transaction
keeps hold of a page all through its calls, with one exception: a call that asks for the sole use of
a page that its transaction shares gives the share up if it cannot have the page at once.
-/

namespace RowStore.Engine

open Relation

variable {e e' e₁ : Engine} {locks : LockTable} {txn x : TxnId} {page p : PageId} {m : LockMode}
  {verdict : Verdict} {c d : Call} {i : Insertion} {result : Outcome ⊕ Call}

/-! ## Stages -/

/-- A stage of a call of the transaction. -/
inductive Stage (txn : TxnId) (e : Engine) : Engine → Prop
  /-- A verdict is given on a lock. -/
  | verdict {page : PageId} {mode : LockMode} {verdict : Verdict} {locks : LockTable}
    (hd : e.locks.Decides txn page mode verdict locks) (hs : locks.Safe) :
    Stage txn e { e with locks }
  /-- A single move. -/
  | move {e' : Engine} (h : e.Move txn e') : Stage txn e e'
  /-- A page that the transaction has no lock on is locked, read and given back. -/
  | probe {page : PageId} {locks : LockTable} {e' : Engine}
    (hf : e.locks.modeOf txn page = .free)
    (hd : e.locks.Decides txn page .exclusive .granted locks) (hs : locks.Safe)
    (hl : Loads page { e with locks } e') : Stage txn e (e'.release txn page)

/-- Any number of stages. -/
abbrev Stages (txn : TxnId) : Engine → Engine → Prop := ReflTransGen (Stage txn)

theorem Moves.stages (h : e.Moves txn e') : e.Stages txn e' :=
  ReflTransGen.mono (fun _ _ => .move) _ _ h

theorem stages_tryPage (i : Insertion) (hd : e.locks.Decides i.txn i.page .exclusive .granted locks)
    (hs : locks.Safe) (hf : i.heldBefore = .free → e.locks.modeOf i.txn i.page = .free) :
    e.Stages i.txn (i.tryPage { e with locks }).2 := by
  obtain ⟨hm, hfull⟩ := moves_tryInsert (e := { e with locks }) hd.exclusive_of_granted i.row
  have hgranted : e.Stages i.txn { e with locks } := .single (.verdict hd hs)
  unfold Insertion.tryPage
  generalize Engine.tryInsert { e with locks } i.txn i.page i.row = tried at hm hfull
  obtain ⟨r, e₁⟩ := tried
  have htried : e.Stages i.txn e₁ := hgranted.trans hm.stages
  cases r with
  | error err => exact htried
  | ok q =>
    cases q with
    | some q => exact htried.trans (moves_conclude e₁ i.txn q i.install).stages
    | none =>
      dsimp only
      split
      · exact htried
      · have hleft :
            e.Stages i.txn (if i.heldBefore = .free then e₁.release i.txn i.page else e₁) := by
          split
          · next hfree => exact .single (.probe (hf hfree) hd hs (hfull rfl))
          · exact htried
        split
        · exact hleft
        · exact hleft.trans (i.grow_cases _ _).1.stages

/-- A call that gets its lock goes through stages. -/
theorem Judges.stages_proceed (hj : e.Judges c .granted locks) :
    e.Stages c.txn (c.proceed { e with locks }).2 := by
  have hgranted : e.Stages c.txn { e with locks } := .single (.verdict hj.toDecides hj.safe)
  cases c with
  | fetch txn page access keep =>
    refine hgranted.trans ?_
    unfold Call.proceed
    dsimp only
    split
    · exact .refl
    · next k e₁ hr =>
      have hl : Stages txn { e with locks } e₁ := .single (.move (.load (reach_eq_ok hr).2.2.2))
      split
      · exact hl.trans (.single (.move (.keep k)))
      · exact hl
  | insert i => exact stages_tryPage i hj.toDecides hj.safe hj.fresh
  | delete txn place install =>
    refine hgranted.trans ?_
    have hm := moves_tryDelete (e := { e with locks }) hj.toDecides.exclusive_of_granted
    unfold Call.proceed
    dsimp only [Call.txn, Call.page] at hm ⊢
    generalize Engine.tryDelete { e with locks } txn place = tried at hm
    obtain ⟨r, e₁⟩ := tried
    cases r with
    | error err => exact hm.stages
    | ok q => exact hm.stages.trans (moves_conclude e₁ txn q install).stages
  | collect c seen | take c more given =>
    refine hgranted.trans ?_
    have hm := moves_nextRows { e with locks } c
    unfold Call.proceed
    dsimp only
    generalize Engine.nextRows { e with locks } c = read at hm
    obtain ⟨r, e₁⟩ := read
    cases r <;> exact hm.stages

theorem Judges.stages_answer (hj : e.Judges c verdict locks) (hv : verdict ≠ .blocked) :
    e.Stages c.txn (c.answer (verdict = .granted) { e with locks }).2 := by
  cases verdict with
  | granted => exact hj.stages_proceed
  | blocked => exact absurd rfl hv
  | deadlock => exact .single (.verdict hj.toDecides hj.safe)

/-- A course is a series of stages. -/
theorem Course.stages (h : e.Course c result e') : e.Stages c.txn e' := by
  induction h with
  | blocked hj => exact .single (.verdict hj.toDecides hj.safe)
  | ended hj hv ha =>
    have hs := hj.stages_answer hv
    rwa [ha] at hs
  | next hj hv ha hx _ ih =>
    have hs := hj.stages_answer hv
    rw [ha] at hs
    exact hs.trans (hx ▸ ih)

/-- What single moves keep, whoever holds which locks, a stage keeps. -/
theorem Stage.keeps_of_moves {p : Engine → Prop} (h : e.Stage txn e')
    (hlocks : ∀ {e : Engine} locks, p e → p { e with locks })
    (hmove : ∀ {e e'}, p e → e.Move txn e' → p e') (hi : p e) : p e' := by
  cases h with
  | verdict => exact hlocks _ hi
  | move hm => exact hmove hi hm
  | @probe page locks e₁ _ _ _ hl =>
    have hloaded : p e₁ := hmove (hlocks locks hi) (.load hl)
    exact hlocks _ hloaded

/-- What every stage keeps, calls keep. -/
theorem Stages.keeps {p : Engine → Prop} (h : e.Stages txn e')
    (hstage : ∀ {e e'}, p e → e.Stage txn e' → p e') (hi : p e) : p e' := by
  induction h with
  | refl => exact hi
  | tail _ hs ih => exact hstage ih hs

/-! ## The locks of others -/

/-- The other transactions have the locks that they had, and wait for what they waited for. -/
structure Spares (txn : TxnId) (e e' : Engine) : Prop where
  /-- The other transactions hold what they held. -/
  modeOf_eq : ∀ {x p}, x ≠ txn → e'.locks.modeOf x p = e.locks.modeOf x p
  /-- The other transactions wait for what they waited for. -/
  waits : ∀ {x p m}, x ≠ txn → (e'.locks.Waits x p m ↔ e.locks.Waits x p m)

theorem Spares.refl (txn : TxnId) (e : Engine) : e.Spares txn e := ⟨fun _ => rfl, fun _ => Iff.rfl⟩

theorem Spares.trans {e₂ : Engine} (h : e.Spares txn e₁) (h' : e₁.Spares txn e₂) :
    e.Spares txn e₂ :=
  ⟨fun hx => (h'.modeOf_eq hx).trans (h.modeOf_eq hx), fun hx => (h'.waits hx).trans (h.waits hx)⟩

theorem Spares.of_locks (h : e'.locks = e.locks) : e.Spares txn e' :=
  ⟨fun _ => by rw [h], fun _ => by rw [h]⟩

theorem Spares.of_decides {mode : LockMode} (hd : e.locks.Decides txn page mode verdict locks) :
    e.Spares txn { e with locks } :=
  ⟨fun hx => hd.modeOf_eq fun h => hx h.1, hd.waits_of_ne⟩

theorem Spares.release (e : Engine) (txn : TxnId) (page : PageId) :
    e.Spares txn (e.release txn page) :=
  ⟨fun hx => by rw [Engine.release, LockTable.modeOf_release, if_neg fun h => hx h.1],
    fun _ => LockTable.waits_release⟩

theorem Stage.spares (h : e.Stage txn e') : e.Spares txn e' := by
  cases h with
  | verdict hd => exact .of_decides hd
  | move h => exact .of_locks h.stays.locks
  | probe _ hd _ hl =>
    exact ((Spares.of_decides hd).trans (.of_locks hl.stays.locks)).trans (.release ..)

theorem Stages.spares (h : e.Stages txn e') : e.Spares txn e' := by
  induction h with
  | refl => exact .refl txn e
  | tail _ hs ih => exact ih.trans hs.spares

theorem Stage.safe (hs : e.locks.Safe) (h : e.Stage txn e') : e'.locks.Safe := by
  cases h with
  | verdict _ hs => exact hs
  | move h => exact h.stays.locks ▸ hs
  | @probe page locks e₁ _ _ hs hl =>
    have hl : e₁.locks = locks := hl.stays.locks
    have hr := hs.release txn page
    rwa [← hl] at hr

theorem Stages.safe (h : e.Stages txn e') (hs : e.locks.Safe) : e'.locks.Safe :=
  h.keeps (fun hs h => h.safe hs) hs

/-! ## The locks of the transaction itself -/

namespace Judges

/-- A request for a page that its transaction holds is one for sole use, if it is not granted at
once. -/
theorem mode_eq_exclusive (hj : e.Judges c verdict locks) (hv : verdict ≠ .granted)
    (hm : e.locks.modeOf c.txn c.page ≠ .free) : c.mode = .exclusive := by
  have hn := hj.needed hv
  unfold Call.mode at hn ⊢
  cases ha : c.access with
  | write => rfl
  | read =>
    rw [ha] at hn
    cases hmode : e.locks.modeOf c.txn c.page with
    | free => exact absurd hmode hm
    | shared | exclusive =>
      rw [hmode] at hn
      exact absurd (by decide) hn

/-- Who gets the lock that it asks for keeps hold of the pages that it holds. -/
theorem keeps_hold_of_granted (hj : e.Judges c .granted locks)
    (hm : e.locks.modeOf c.txn p ≠ .free) :
    (c.proceed { e with locks }).2.locks.modeOf c.txn p ≠ .free := by
  have hp : locks.modeOf c.txn p ≠ .free := by
    by_cases hpage : p = c.page
    · have hne : c.mode ≠ .free := by
        unfold Call.mode
        cases c.access <;> decide
      exact hpage ▸ hj.modeOf_ne_free hne
    · rwa [hj.modeOf_eq fun h => hpage h.2]
  rcases c.locks_proceed { e with locks } with hl | ⟨i, rfl, hf, hl⟩
  · rwa [hl]
  · rw [hl, LockTable.modeOf_release, if_neg]
    · exact hp
    · rintro ⟨-, rfl⟩
      exact hm (hj.fresh hf)

/-- Whatever the verdict, the transaction keeps hold of the page, unless it is refused its sole use
and the call ends. -/
theorem keeps_hold (hj : e.Judges c verdict locks) (hv : verdict ≠ .blocked)
    (hm : e.locks.modeOf c.txn p ≠ .free) :
    (c.answer (verdict = .granted) { e with locks }).2.locks.modeOf c.txn p ≠ .free ∨
      (c.answer (verdict = .granted) { e with locks }).1.result =
        .inl (.error (.deadlock c.txn p .exclusive)) := by
  cases verdict with
  | granted => exact .inl (hj.keeps_hold_of_granted hm)
  | blocked => exact absurd rfl hv
  | deadlock =>
    by_cases hpage : p = c.page
    · subst hpage
      have hmode := hj.mode_eq_exclusive nofun hm
      rcases c.result_refuse (.deadlock c.txn c.page c.mode) with hr | ⟨hread, -⟩
      · rw [← hmode]
        exact .inr hr
      · rw [Call.mode, hread] at hmode
        cases hmode
    · left
      change locks.modeOf c.txn p ≠ .free
      rwa [hj.modeOf_eq fun h => hpage h.2]

end Judges

namespace Course

theorem txn_eq (h : e.Course c (.inr d) e') : d.txn = c.txn := by
  generalize hr : (Sum.inr d : Outcome ⊕ Call) = result at h
  induction h with
  | blocked =>
    cases hr
    rfl
  | ended => cases hr
  | next _ _ _ hx _ ih => exact (ih hr).trans hx

/-- The transaction waits for what its call waits for, and for nothing if the call has ended. -/
theorem waits (h : e.Course c result e') :
    e'.locks.Waits c.txn p m ↔ ∃ d, result = .inr d ∧ d.page = p ∧ d.mode = m := by
  induction h with
  | blocked hj =>
    refine hj.waits_self.trans ⟨?_, ?_⟩
    · rintro ⟨-, rfl, rfl⟩
      exact ⟨_, rfl, rfl, rfl⟩
    · rintro ⟨d, hd, rfl, rfl⟩
      cases hd
      exact ⟨rfl, rfl, rfl⟩
  | ended hj hv ha =>
    obtain ⟨-, hi⟩ := hj.answer hv
    rw [ha] at hi
    constructor
    · intro hw
      exact absurd hw.isBlocked hi
    · rintro ⟨d, hd, -⟩
      cases hd
  | next _ _ _ hx _ ih =>
    rw [← hx]
    exact ih

/-- A transaction keeps hold of a page, unless it asks for the sole use of a page that it shares and
has to wait or is refused. -/
theorem keeps_hold (h : e.Course c result e') (hm : e.locks.modeOf c.txn p ≠ .free) :
    e'.locks.modeOf c.txn p ≠ .free ∨
      (∃ d, result = .inr d ∧ d.page = p ∧ d.mode = .exclusive) ∨
      result = .inl (.error (.deadlock c.txn p .exclusive)) := by
  induction h with
  | @blocked e c locks hj =>
    by_cases hpage : p = c.page
    · subst hpage
      exact .inr (.inl ⟨c, rfl, rfl, hj.mode_eq_exclusive nofun hm⟩)
    · left
      rwa [hj.modeOf_eq fun h => hpage h.2]
  | ended hj hv ha =>
    have hk := hj.keeps_hold hv hm
    rw [ha] at hk
    exact hk.imp_right .inr
  | next hj hv ha hx _ ih =>
    have hk := hj.keeps_hold hv hm
    rw [ha] at hk
    rw [← hx] at hk ⊢
    exact ih (hk.resolve_right nofun)

end Course

end RowStore.Engine
