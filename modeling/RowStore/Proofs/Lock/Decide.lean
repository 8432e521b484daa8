import RowStore.Proofs.Lock.Run

/-!
# What a verdict says about the locks

However a request comes by its verdict, at its first turn or a later one, it only bears on how
strongly its own transaction holds its own page: `LockTable.Decides` says what it can do to that.
Sole use is never lost by asking for a lock.
-/

namespace RowStore.LockTable

variable {t u : LockTable} {txn x : TxnId} {page p : PageId} {mode m : LockMode}
  {verdict : Verdict}

theorem modeOf_eq_of_holders_eq (h : t.holders p = u.holders p) :
    t.modeOf x p = u.modeOf x p :=
  modeOf_congr fun _ => by rw [h]

/-- The table `u` is one in which a request that was made in the table `t` has got its verdict. -/
structure Decides (t : LockTable) (txn : TxnId) (page : PageId) (mode : LockMode)
    (verdict : Verdict) (u : LockTable) : Prop where
  /-- The other transactions hold what they held, and this one the other pages that it held. -/
  modeOf_eq : ∀ {x p}, ¬ (x = txn ∧ p = page) → u.modeOf x p = t.modeOf x p
  /-- Sole use is not lost. -/
  exclusive : t.modeOf txn page = .exclusive → u.modeOf txn page = .exclusive
  /-- If the lock is granted it is held. -/
  le_modeOf : verdict = .granted → mode ≤ u.modeOf txn page
  /-- The other transactions wait for what they waited for. -/
  waits_of_ne : ∀ {x p m}, x ≠ txn → (u.Waits x p m ↔ t.Waits x p m)
  /-- The transaction waits for the page if it is to wait, and else for nothing. -/
  waits_self : ∀ {p m}, u.Waits txn p m ↔ verdict = .blocked ∧ p = page ∧ m = mode

theorem Decides.exclusive_of (h : Decides t txn page mode verdict u)
    (hx : t.modeOf x p = .exclusive) : u.modeOf x p = .exclusive := by
  by_cases hxp : x = txn ∧ p = page
  · obtain ⟨rfl, rfl⟩ := hxp
    exact h.exclusive hx
  · rw [h.modeOf_eq hxp, hx]

/-- Who is granted a page for sole use holds it so. -/
theorem Decides.exclusive_of_granted (h : Decides t txn page .exclusive .granted u) :
    u.modeOf txn page = .exclusive := by
  have hle := h.le_modeOf rfl
  cases hm : u.modeOf txn page with
  | exclusive => rfl
  | free | shared =>
    rw [hm] at hle
    exact absurd hle (by decide)

theorem Decides.modeOf_ne_free (h : Decides t txn page mode .granted u) (hm : mode ≠ .free) :
    u.modeOf txn page ≠ .free := by
  intro hf
  have hle := h.le_modeOf rfl
  rw [hf] at hle
  cases mode with
  | free => exact hm rfl
  | shared | exclusive => exact absurd hle (by decide)

/-- Who has got an answer does not wait. -/
theorem Decides.not_isBlocked (h : Decides t txn page mode verdict u) (hv : verdict ≠ .blocked) :
    ¬ u.IsBlocked txn := by
  rintro ⟨p, m, hw⟩
  exact hv (h.waits_self.1 hw).1

/-- A turn of a request for a page that its transaction does not hold decides about it. -/
theorem Decides.of_turn (hf : ∀ r ∈ t.holders page, r.txn ≠ txn) (hm : mode ≠ .free) :
    Decides t txn page mode (t.turn txn page mode).1 (t.turn txn page mode).2 := by
  have hfree : t.modeOf txn page = .free := modeOf_eq_free hf
  have hnx : t.modeOf txn page ≠ .exclusive := by
    rw [hfree]
    decide
  obtain ⟨ha, he⟩ | ⟨ha, -, he⟩ | ⟨ha, -, he⟩ := turn_cases t txn page mode
  · have hg : ∀ {x p}, (t.granting txn page mode).modeOf x p =
        if x = txn ∧ p = page then mode else t.modeOf x p := by
      intro x p
      rw [← modeOf_grant hf hm]
      exact modeOf_eq_of_holders_eq rfl
    rw [he]
    exact
      { modeOf_eq := fun hxp => by rw [hg, if_neg hxp]
        exclusive := fun hx => absurd hx hnx
        le_modeOf := fun _ => by
          rw [hg, if_pos ⟨rfl, rfl⟩]
          exact Nat.le_refl _
        waits_of_ne := fun hx => by simp [hx]
        waits_self := by simp }
  · rw [he]
    exact
      { modeOf_eq := fun _ => modeOf_eq_of_holders_eq rfl
        exclusive := fun hx => absurd hx hnx
        le_modeOf := fun h => nomatch h
        waits_of_ne := fun hx => by simp [hx]
        waits_self := by simp }
  · rw [he]
    exact
      { modeOf_eq := fun _ => modeOf_eq_of_holders_eq rfl
        exclusive := fun hx => absurd hx hnx
        le_modeOf := fun h => nomatch h
        waits_of_ne := fun hx => by simp [hx]
        waits_self := by simp }

/-- The first turn of a request decides about it. -/
theorem Decides.of_acquire (h : t.Sound) (hi : ¬ t.IsBlocked txn) :
    Decides t txn page mode (t.acquire txn page mode).1 (t.acquire txn page mode).2 := by
  rw [acquire_eq]
  split
  · next hm =>
    exact
      { modeOf_eq := fun _ => modeOf_touch ..
        exclusive := fun hx => by rw [modeOf_touch, hx]
        le_modeOf := fun _ => by rwa [modeOf_touch]
        waits_of_ne := fun _ => Iff.rfl
        waits_self := fun {p m} => ⟨fun hw => absurd hw.isBlocked hi, fun hw => nomatch hw.1⟩ }
  · next hm =>
    have hholds := fun p => holders_approach (p := p) h hm
    have hf : ∀ r ∈ (t.approach txn page mode).holders page, r.txn ≠ txn := by
      intro r hr
      rw [hholds, if_pos rfl] at hr
      simpa using (List.mem_filter.1 hr).2
    have hmode : mode ≠ .free := by
      rintro rfl
      exact hm (Nat.zero_le _)
    have heq : ∀ {x p}, ¬ (x = txn ∧ p = page) →
        (t.approach txn page mode).modeOf x p = t.modeOf x p := by
      intro x p hxp
      apply modeOf_congr
      intro m
      rw [hholds]
      split
      · next hp =>
        have hx : x ≠ txn := fun hx => hxp ⟨hx, hp⟩
        simp [hp, hx]
      · rfl
    have hd := Decides.of_turn hf hmode
    exact
      { modeOf_eq := fun hxp => (hd.modeOf_eq hxp).trans (heq hxp)
        exclusive := fun hx =>
          absurd (by cases mode <;> simp [hx, LockMode.le_def, LockMode.rank]) hm
        le_modeOf := hd.le_modeOf
        waits_of_ne := fun hx => (hd.waits_of_ne hx).trans waits_approach
        waits_self := hd.waits_self }

/-- A later turn of a request decides about it too. -/
theorem Decides.of_retry (h : t.Consistent) {w : Waiter} (hw : w ∈ t.waiting) :
    Decides t w.txn w.page w.mode (t.retry w).1 (t.retry w).2 :=
  of_turn (h.apart (waits_of_mem hw)) (h.mode_ne (waits_of_mem hw))

/-- Giving a page back is of no concern for any other page or transaction. -/
theorem modeOf_release (t : LockTable) (txn x : TxnId) (page p : PageId) :
    (t.release txn page).modeOf x p = if x = txn ∧ p = page then .free else t.modeOf x p := by
  rw [← modeOf_drop]
  exact modeOf_eq_of_holders_eq (by rw [holders_release, holders_drop])

theorem waits_release : (t.release txn page).Waits x p m ↔ t.Waits x p m := by
  rcases release_cases t txn page with ⟨-, he⟩ | he
  · rw [he]
  · rw [he, waits_releasing]

end RowStore.LockTable
