import RowStore.Proofs.Call.Scan
import RowStore.Proofs.Page.Extent
import RowStore.Proofs.Service.Reading

/-!
# Cursors in a service

A transaction asks its cursor for rows, waits until it gets its answers, and asks again, and others
act in between. `Service.Asks` says what it has asked for and what it has got. Whatever it has got,
its cursor has come as far as `Engine.Tracks` says: every request that ends, at once or after some
turns, leads from one such cursor to the next, and what others do meanwhile does not touch the pages
that have been read.
-/

namespace RowStore

open Engine

namespace Service

variable {s : Service} {a : Action} {as bs : List Action} {txn : TxnId} {o d d' c : Cursor}
  {xs ys past : List Item} {call : Call} {count m n : Nat} {reply : Reply}

/-! ## Asking for rows -/

/-- The transaction asks its cursor for so many rows in all, whenever it likes, and gets these
answers. Others act in between, and the transaction itself may do other things. -/
inductive Asks (txn : TxnId) : Service → Cursor → List Action → Nat → List Item → Cursor → Prop
  /-- Nothing happens. -/
  | nil {s : Service} {d : Cursor} : Asks txn s d [] 0 [] d
  /-- The transaction asks for rows, and gets its answers when it has waited for as many locks as
  it may be. -/
  | take {s : Service} {d d₁ d₂ : Cursor} {as bs : List Action} {m n : Nat} {xs ys : List Item}
    (h : Carries txn (.items xs d₁) s (.issue (.take d m) :: as))
    (hr : Asks txn (s.after (.issue (.take d m) :: as)) d₁ bs n ys d₂) :
    Asks txn s d (.issue (.take d m) :: as ++ bs) (m + n) (xs ++ ys) d₂
  /-- Something else happens. -/
  | other {s : Service} {d d₁ : Cursor} {a : Action} {as : List Action} {n : Nat} {xs : List Item}
    (h : Asks txn (s.perform a).2 d as n xs d₁) : Asks txn s d (a :: as) n xs d₁

/-- What a request for rows has come to. -/
structure Delivers (o : Cursor) (past : List Item) (count : Nat) (out : Option Outcome × Service)
    (result : Outcome ⊕ Call) : Prop where
  /-- The cursor gives its answers, or needs another page. -/
  yields : out.2.engine.Yields o past count result
  /-- The request has ended with these answers, if it has. -/
  outcome : out.1 = result.getLeft?
  /-- Otherwise it waits. -/
  blocked : ∀ c, result = .inr c → c ∈ out.2.blocked

theorem Sound.delivers_issue (h : s.Sound) (ho : s.Orderly) (ha : ¬ s.HasBlocked d.txn)
    (ht : s.engine.Tracks o d past) (count : Nat) :
    ∃ result, Delivers o past count (s.issue (.take d count)) result := by
  have hpast : s.engine.Tracks o d (past ++ [].reverse) := (List.append_nil past).symm ▸ ht
  have hserve := hpast.serve (p := fun _ => True) (m := count) (Nat.zero_add _)
    fun _ _ _ _ _ _ _ => trivial
  have hstart : (Request.take d count).start s.engine =
    (d.serve count [] fun _ _ _ _ _ _ _ => trivial, s.engine) := rfl
  generalize d.serve (p := fun _ => True) count [] _ = step at hserve hstart
  cases step with
  | finished outcome =>
    have hissue : s.issue (.take d count) = (some outcome, s) := by rw [issue, hstart]
    rw [hissue]
    refine ⟨.inl outcome, hserve, rfl, ?_⟩
    rintro c ⟨⟩
  | waits c _ =>
    obtain ⟨result, hcourse, hres, hb, -⟩ := course_issue (r := .take d count) ho ha hstart
    cases hserve with
    | waits ht hl hempty hn =>
      exact ⟨result, hcourse.yields h.engine.toCoherent ht hl hempty hn, hres,
        fun c hc => (hb c).2 (.inr hc)⟩

theorem Sound.delivers_turn (h : s.Sound) (ho : s.Orderly) (ha : s.PermitsWrites a)
    (hcall : a.IsCallOf o.txn) (hc : call ∈ s.blocked)
    (hy : s.engine.Yields o past count (.inr call)) :
    ∃ result, Delivers o past count (s.perform a) result := by
  cases hy with
  | @waits d more given ht hl hempty hn =>
    obtain ⟨w, hw, rfl, hwx⟩ := ha.turn_of_hasBlocked hcall ⟨_, hc, ht.txn⟩
    have hf : s.blocked.find? (·.txn = w.txn) = some (.take d more given) := by
      rw [hwx, ← ht.txn]
      exact find?_txn ho.nodup hc
    obtain ⟨result, hcourse, hres, hb, -⟩ := course_turn ho hw hf
    exact ⟨result, hcourse.yields h.engine.toCoherent ht hl hempty hn, hres,
      fun c hc => (hb c).2 (.inr hc)⟩

/-- A request for rows that waits gets its answers in the end. -/
theorem Carries.yields_of_blocked (h : Carries o.txn reply s as) (hs : s.Sound) (ho : s.Orderly)
    (hr : s.Runs (OnlyReads o.txn) as) (hc : call ∈ s.blocked)
    (hy : s.engine.Yields o past count (.inr call)) :
    (s.after as).engine.Yields o past count (.inl (.ok reply)) := by
  have hx : call.txn = o.txn := by
    cases hy with
    | waits ht => exact ht.txn
  induction h generalizing call with
  | @succeeds s a hcall hok =>
    obtain ⟨result, hd⟩ := hs.delivers_turn ho hr.1.permitted hcall hc hy
    obtain rfl := Sum.getLeft?_eq_some_iff.1 (hd.outcome.symm.trans hok)
    exact hd.yields
  | @waits s a as hcall hnone _ ih =>
    obtain ⟨result, hd⟩ := hs.delivers_turn ho hr.1.permitted hcall hc hy
    obtain ⟨c', rfl⟩ := Sum.isRight_iff.1 (Sum.getLeft?_eq_none_iff.1 (hd.outcome.symm.trans hnone))
    refine ih (hs.perform hr.1.permitted) (ho.perform hr.1.permitted.allows) hr.2
      (hd.blocked c' rfl) hd.yields ?_
    cases hd.yields with
    | waits ht => exact ht.txn
  | @other s a as hne _ ih =>
    exact ih (hs.perform hr.1.permitted) (ho.perform hr.1.permitted.allows) hr.2
      (ho.blocked_perform_of_ne hr.1.permitted.allows hne hc hx) (hy.keeps (hs.keeps ho hr.1)) hx

/-- A request for rows gets its answers, at once or in the end. -/
theorem Carries.yields (h : Carries o.txn reply s (.issue (.take d count) :: as)) (hs : s.Sound)
    (ho : s.Orderly) (hr : s.Runs (OnlyReads o.txn) (.issue (.take d count) :: as))
    (ht : s.engine.Tracks o d past) :
    (s.after (.issue (.take d count) :: as)).engine.Yields o past count (.inl (.ok reply)) := by
  obtain ⟨result, hd⟩ := hs.delivers_issue ho hr.1.permitted.allows ht count
  cases h with
  | succeeds _ hok =>
    obtain rfl := Sum.getLeft?_eq_some_iff.1 (hd.outcome.symm.trans hok)
    exact hd.yields
  | waits _ hnone hrest =>
    obtain ⟨c, rfl⟩ := Sum.isRight_iff.1 (Sum.getLeft?_eq_none_iff.1 (hd.outcome.symm.trans hnone))
    exact hrest.yields_of_blocked (hs.perform hr.1.permitted) (ho.perform hr.1.permitted.allows)
      hr.2 (hd.blocked c rfl) hd.yields
  | other hne => exact absurd (congrArg some ht.txn) hne

/-- A cursor that is opened when its pages can be read has handed out nothing yet. -/
theorem Sound.tracks_openAt (h : s.Sound)
    (hread : ∀ k < n, ∃ p, s.engine.stored ⟨c.table.id, k⟩ = some p) :
    s.engine.Tracks (c.openAt n) (c.openAt n) [] := by
  refine .openAt c fun {k} hk => Option.ne_none_iff_exists'.1 ?_
  obtain ⟨p, hp⟩ := hread k hk
  rw [Ne, h.engine.seen_eq_none_iff, hp]
  exact Option.some_ne_none p

/-- However long the transaction goes on asking, its cursor has handed out the rows of the pages
read, and gives one answer for each row asked for. -/
theorem Asks.tracks (h : Asks o.txn s d as n ys d') (hs : s.Sound) (ho : s.Orderly)
    (hr : s.Runs (OnlyReads o.txn) as) (ht : s.engine.Tracks o d xs) :
    (s.after as).engine.Tracks o d' (xs ++ ys) ∧ ys.length = n := by
  induction h generalizing xs with
  | nil => exact ⟨(List.append_nil xs).symm ▸ ht, rfl⟩
  | @take s d d₁ d₂ as bs m n ys zs hcar _ ih =>
    obtain ⟨hr₁, hr₂⟩ := runs_append.1 hr
    cases hcar.yields hs ho hr₁ ht with
    | answers ht₁ hl =>
      obtain ⟨ht₂, hn⟩ := ih (hs.after hr₁.permitted) (ho.after hr₁.permitted) hr₂ ht₁
      rw [after_append, ← List.append_assoc, List.length_append, hl, hn]
      exact ⟨ht₂, rfl⟩
  | other _ ih =>
    exact ih (hs.perform hr.1.permitted) (ho.perform hr.1.permitted.allows) hr.2
      (ht.keeps (hs.keeps ho hr.1))

end Service

end RowStore
