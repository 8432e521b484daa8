import RowStore.Proofs.Log.Cut

/-!
# Appending behind a torn record

Opening a log file looks at nothing of what is there, and appending goes on at its end. If the file
was cut between two records, the new records are read behind the whole ones that are left. If it was
cut inside a record, the beginning that is left of it still asks for the bytes that it says, and
takes them from the new records: as long as these have too few bytes, none of them is read, and
once they have enough, what is read is the record that the bytes taken make of the torn one, and
whatever stands behind them, which may begin inside a new record.
-/

namespace RowStore

namespace LogFile

open UpdateRecord

variable {rs p new : List UpdateRecord} {f : LogFile} {torn more : Bytes} {k : Nat}

/-- How many of the bytes behind the beginning of a record count as the rest of it. -/
def swallowed (torn more : Bytes) : Nat :=
  4 + Bytes.toNat (Bytes.slice 0 4 (torn ++ more)) - torn.length

/-- What stands behind the first four bytes makes no difference to them. -/
theorem slice_four_append (h : 4 ≤ torn.length) (more : Bytes) :
    Bytes.slice 0 4 (torn ++ more) = Bytes.slice 0 4 torn := by
  rw [Bytes.slice, Bytes.slice, List.drop_zero, List.drop_zero, List.take_append_of_le_length h]

/-- The beginning of a record takes some of what is behind it. -/
theorem Unfinished.swallowed_pos (h : Unfinished torn) (more : Bytes) :
    0 < swallowed torn more := by
  unfold swallowed
  by_cases hfour : 4 ≤ torn.length
  · rw [slice_four_append hfour]
    exact Nat.sub_pos_of_lt h
  · omega

/-- If the length of the torn record is left, it takes as many bytes as were cut off. -/
theorem Cut.swallowed_eq (hc : Cut rs p torn) (hs : ∀ r ∈ rs, r.Storable) (hfour : 4 ≤ torn.length)
    (more : Bytes) :
    ∃ r, p ++ [r] <+: rs ∧ torn <+: r.encode ∧
      torn.length + swallowed torn more = r.encode.length := by
  cases hc with
  | whole => exact absurd hfour (by decide)
  | @torn _ rest r _ hpre hlt =>
    refine ⟨r, by simp, hpre, ?_⟩
    obtain ⟨t, ht⟩ := hpre
    have hlen := toNat_slice_encode (hs r (by simp)) []
    rw [List.append_nil, ← ht, slice_four_append hfour] at hlen
    rw [swallowed, slice_four_append hfour, hlen, ← length_encode]
    omega

/-- What is read where a beginning of a record stands before other bytes. -/
theorem recordsOf_torn_append (h : Unfinished torn) (more : Bytes) :
    recordsOf (torn ++ more) =
      if more.length < swallowed torn more then .ok []
      else do
        let r ← decode ((torn ++ more.take (swallowed torn more)).drop 4)
        return r :: (← recordsOf (more.drop (swallowed torn more))) := by
  have hpos := h.swallowed_pos more
  have hstop : 4 + Bytes.toNat (Bytes.slice 0 4 (torn ++ more)) =
      torn.length + swallowed torn more := by
    unfold swallowed at hpos ⊢
    omega
  split
  · next hlt =>
    refine recordsOf_of_unfinished ?_
    rw [Unfinished, hstop, List.length_append]
    omega
  · next hge =>
    have hdone : ¬ Unfinished (torn ++ more) := by
      rw [Unfinished, hstop, List.length_append]
      omega
    have hbody : Bytes.slice 4 (torn.length + swallowed torn more - 4) (torn ++ more) =
        (torn ++ more.take (swallowed torn more)).drop 4 := by
      rw [Bytes.slice, ← List.drop_take, List.take_length_add_append]
    rw [recordsOf_of_not_unfinished hdone, hstop, hbody, List.drop_length_add_append]

/-- Records that are appended to a log that was cut are read behind the whole ones if the cut was
between two records. If it was inside one, its beginning takes the first bytes of the new records:
what the log then reads as has the new records only in so far as they stand behind these. -/
theorem Written.records_behind_cut (h : Written rs f) (hs : ∀ r ∈ rs, r.Storable)
    (hnew : ∀ r ∈ new, r.Storable) (hk : k ≤ f.content.length) :
    ∃ g p torn, f.setLength k = .ok g ∧ Cut rs p torn ∧ g.bytes = p.flatMap encode ++ torn ∧
      (torn = [] → (new.foldl LogFile.append (opened (some g.content))).records = .ok (p ++ new)) ∧
      (torn ≠ [] →
        let more := new.flatMap encode
        let n := swallowed torn more
        0 < n ∧
        (4 ≤ torn.length → ∃ r, p ++ [r] <+: rs ∧ torn <+: r.encode ∧
          torn.length + n = r.encode.length) ∧
        (new.foldl LogFile.append (opened (some g.content))).records =
          if more.length < n then .ok p
          else do
            let r ← decode ((torn ++ more.take n).drop 4)
            return p ++ r :: (← recordsOf (more.drop n))) := by
  obtain ⟨g, p, torn, hset, hgap, hc, -, hg⟩ := h.cut hk
  have hread : (new.foldl LogFile.append (opened (some g.content))).records =
      (recordsOf (torn ++ new.flatMap encode)).map (p ++ ·) := by
    rw [opened_content, records_eq (by rw [gap_foldl_append, hgap]), bytes_foldl_append, hg,
      List.append_assoc, recordsOf_flatMap_append (hc.storable hs)]
  refine ⟨g, p, torn, hset, hc, hg, ?_, ?_⟩
  -- without a torn record the file is a written one
  · rintro rfl
    have hnone : recordsOf [] = .ok [] := recordsOf_of_unfinished (by decide : 0 < 4 + 0)
    rw [hread, List.nil_append, ← List.append_nil (new.flatMap encode),
      recordsOf_flatMap_append hnew, hnone]
    simp only [Except.map, List.append_nil]
  · intro _ more n
    refine ⟨(hc.unfinished hs).swallowed_pos more, fun hfour => hc.swallowed_eq hs hfour more, ?_⟩
    rw [hread, recordsOf_torn_append (hc.unfinished hs)]
    split
    · simp only [Except.map, List.append_nil]
    · cases decode ((torn ++ more.take n).drop 4) with
      | error e => rfl
      | ok r => cases recordsOf (more.drop n) <;> rfl

end LogFile

/-! ## A log that was cut inside its only record -/

namespace Sample

/-- The log that tells of the first change. -/
def shortLog : LogFile := (LogFile.opened none).append firstChange

theorem written_shortLog : LogFile.Written [firstChange] shortLog :=
  .append (.create rfl) _

/-- Behind a record of which 32 bytes are left stands a new one, and the first takes all of it. -/
theorem records_behind_cut_short :
    (∀ r ∈ [firstChange], r.Storable) ∧ (∀ r ∈ [secondChange], r.Storable) ∧
      32 ≤ shortLog.content.length ∧
    ∃ g p torn, shortLog.setLength 32 = .ok g ∧ LogFile.Cut [firstChange] p torn ∧
      g.bytes = p.flatMap UpdateRecord.encode ++ torn ∧
      (torn = [] → ([secondChange].foldl LogFile.append (LogFile.opened (some g.content))).records =
        .ok (p ++ [secondChange])) ∧
      (torn ≠ [] →
        let more := [secondChange].flatMap UpdateRecord.encode
        let n := LogFile.swallowed torn more
        0 < n ∧
        (4 ≤ torn.length → ∃ r, p ++ [r] <+: [firstChange] ∧ torn <+: r.encode ∧
          torn.length + n = r.encode.length) ∧
        ([secondChange].foldl LogFile.append (LogFile.opened (some g.content))).records =
          if more.length < n then .ok p
          else do
            let r ← UpdateRecord.decode ((torn ++ more.take n).drop 4)
            return p ++ r :: (← LogFile.recordsOf (more.drop n))) :=
  ⟨by decide, by decide, by decide,
    written_shortLog.records_behind_cut (by decide) (by decide) (by decide)⟩

/-- A complete record that was appended after the cut is not read. -/
theorem unread_behind_cut :
    LogFile.Written [firstChange] shortLog ∧ firstChange.Storable ∧ secondChange.Storable ∧
    ∃ g, shortLog.setLength 32 = .ok g ∧
      ((LogFile.opened (some g.content)).append secondChange).records = .ok [] :=
  ⟨written_shortLog, by decide, by decide, _, LogFile.setLength_of_le (by decide), by
    rw [LogFile.records_eq (by decide), LogFile.recordsOf_of_unfinished (by decide)]⟩

end Sample

end RowStore
