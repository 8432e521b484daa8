import RowStore.Log.File
import RowStore.Proofs.Log.Record

/-!
# Logs that are cut short

A log file that records were appended to holds their stored forms, one after the other. If it is
cut anywhere, some records are left whole, and of the next one there may be a beginning. However
that beginning is cut, in its length or behind it, it is shorter than its length says, so reading
the file gives the whole records and nothing else.
-/

namespace RowStore

namespace LogFile

open UpdateRecord

variable {rs p : List UpdateRecord} {f : LogFile} {r : UpdateRecord} {b torn : Bytes} {k : Nat}

/-! ## Reading byte strings -/

/-- The complete records that a byte string begins with. -/
def recordsOf (b : Bytes) : Except Error (List UpdateRecord) := decodeAll (.ofBytes b)

/-- The bytes end before their first record does. -/
def Unfinished (b : Bytes) : Prop := b.length < 4 + Bytes.toNat (Bytes.slice 0 4 b)

instance : DecidablePred Unfinished := fun _ => inferInstanceAs (Decidable (_ < _))

/-- A file without holes is read as the byte string that it holds. -/
theorem records_eq (h : f.content.gap = 0) : f.records = recordsOf f.bytes := by
  have hload : f.content.load = .ok f.content := SparseBytes.load_of_lt (by simp [h, memoryLimit])
  rw [records, hload]
  exact decodeAll_congr (by simp [bytes])

theorem recordsOf_of_unfinished (h : Unfinished b) : recordsOf b = .ok [] := by
  have hsplit := map_bytes_splitFirst? (.ofBytes b)
  simp only [SparseBytes.bytes_ofBytes] at hsplit
  rw [if_pos (show _ < _ from h), Option.map_eq_none_iff] at hsplit
  rw [recordsOf, decodeAll]
  split
  · rfl
  · simp_all

/-- If the first record is complete, its body is read, and then what follows it. -/
theorem recordsOf_of_not_unfinished (h : ¬ Unfinished b) :
    let stop := 4 + Bytes.toNat (Bytes.slice 0 4 b)
    recordsOf b = do
      let r ← decode (Bytes.slice 4 (stop - 4) b)
      return r :: (← recordsOf (b.drop stop)) := by
  have hsplit := map_bytes_splitFirst? (.ofBytes b)
  simp only [SparseBytes.bytes_ofBytes] at hsplit
  rw [if_neg (show ¬ _ < _ from h)] at hsplit
  obtain ⟨⟨body, rest⟩, hs, heq⟩ := Option.map_eq_some_iff.1 hsplit
  obtain ⟨rfl, hrest⟩ := Prod.mk.inj heq
  intro stop
  rw [recordsOf, decodeAll]
  split
  · simp_all
  · next body' rest' hs' =>
    cases hs.symm.trans hs'
    rw [recordsOf, decodeAll_congr (hrest.trans (SparseBytes.bytes_ofBytes _).symm)]

/-- A stored record is read, and then what follows it. -/
theorem recordsOf_encode_append (h : r.Storable) (b : Bytes) :
    recordsOf (r.encode ++ b) = (recordsOf b).map (r :: ·) := by
  have hlen := toNat_slice_encode h b
  have hdone : ¬ Unfinished (r.encode ++ b) := by
    rw [Unfinished, hlen, List.length_append, length_encode]
    omega
  have hbody : Bytes.slice 4 r.body.length (r.encode ++ b) = r.body := by
    rw [Bytes.slice, encode, List.append_assoc, List.drop_left' (by simp), List.take_left' rfl]
  rw [recordsOf_of_not_unfinished hdone, hlen, Nat.add_sub_cancel_left, hbody, decode_body h,
    List.drop_left' (length_encode r)]
  cases recordsOf b <;> rfl

/-- Stored records are read, and then what follows them. -/
theorem recordsOf_flatMap_append (h : ∀ r ∈ rs, r.Storable) (b : Bytes) :
    recordsOf (rs.flatMap encode ++ b) = (recordsOf b).map (rs ++ ·) := by
  induction rs with
  | nil =>
    simp only [List.flatMap_nil, List.nil_append]
    cases recordsOf b <;> rfl
  | cons r rs ih =>
    obtain ⟨hr, hrs⟩ := List.forall_mem_cons.1 h
    rw [List.flatMap_cons, List.append_assoc, recordsOf_encode_append hr, ih hrs]
    cases recordsOf b <;> rfl

/-! ## Cutting -/

/-- What is left of the stored records `rs` when they are cut: those that are whole, and the
beginning of the next one. -/
inductive Cut : List UpdateRecord → List UpdateRecord → Bytes → Prop
  /-- Nothing is cut off. -/
  | whole {rs : List UpdateRecord} : Cut rs rs []
  /-- The cut is before or inside a record. -/
  | torn {p rest : List UpdateRecord} {r : UpdateRecord} {torn : Bytes} (h : torn <+: r.encode)
    (hlt : torn.length < r.encode.length) : Cut (p ++ r :: rest) p torn

namespace Cut

/-- There is one way to cut the stored records after `k` bytes. -/
theorem exists_of_le (hk : k ≤ (rs.flatMap encode).length) :
    ∃ p torn, Cut rs p torn ∧ (rs.flatMap encode).take k = p.flatMap encode ++ torn := by
  induction rs generalizing k with
  | nil => exact ⟨[], [], .whole, by simp⟩
  | cons r rs ih =>
    rw [List.flatMap_cons, List.length_append] at hk
    rw [List.flatMap_cons]
    -- the cut is inside the first record, or behind it
    by_cases hlt : k < r.encode.length
    · refine ⟨[], r.encode.take k, .torn (p := []) (List.take_prefix ..) ?_, ?_⟩
      · rw [List.length_take]
        omega
      · rw [List.take_append_of_le_length (Nat.le_of_lt hlt)]
        rfl
    · obtain ⟨p, torn, hc, htake⟩ := ih (k := k - r.encode.length) (by omega)
      refine ⟨r :: p, torn, ?_, ?_⟩
      · cases hc with
        | whole => exact .whole
        | torn h hlt => exact .torn (p := r :: p) h hlt
      · rw [List.take_append, List.take_of_length_le (by omega), htake, List.flatMap_cons,
          List.append_assoc]

/-- The beginning of a record is shorter than it says. -/
theorem unfinished (hc : Cut rs p torn) (h : ∀ r ∈ rs, r.Storable) : Unfinished torn := by
  cases hc with
  | whole => exact Nat.lt_add_right _ (by decide : 0 < 4)
  | @torn _ rest r _ hpre hlt =>
    -- with four bytes or more its length is left, and it is that of the whole record
    by_cases hfour : torn.length < 4
    · exact Nat.lt_add_right _ hfour
    · have hr : r.Storable := h r (by simp)
      have hslice : Bytes.slice 0 4 torn = Bytes.slice 0 4 (r.encode ++ []) := by
        obtain ⟨t, ht⟩ := hpre
        rw [List.append_nil, ← ht, Bytes.slice, Bytes.slice, List.drop_zero, List.drop_zero,
          List.take_append_of_le_length (by omega)]
      rw [Unfinished, hslice, toNat_slice_encode hr, ← length_encode]
      exact hlt

theorem storable (hc : Cut rs p torn) (h : ∀ r ∈ rs, r.Storable) : ∀ r ∈ p, r.Storable := by
  cases hc with
  | whole => exact h
  | torn => exact fun r hr => h r (List.mem_append_left _ hr)

end Cut

/-- The records `p` are all those of `rs`, from the first on, whose stored forms fit in `k`
bytes. -/
structure Fitting (rs : List UpdateRecord) (k : Nat) (p : List UpdateRecord) : Prop where
  /-- They are the first of the records. -/
  first : p <+: rs
  /-- They fit. -/
  fits : (p.flatMap encode).length ≤ k
  /-- There are no more that fit. -/
  most : ∀ {q : List UpdateRecord}, q <+: rs → (q.flatMap encode).length ≤ k → q <+: p

/-- The whole records after a cut are all that fit in the bytes that are left. -/
theorem Cut.fitting (hc : Cut rs p torn) :
    Fitting rs ((p.flatMap encode).length + torn.length) p := by
  cases hc with
  | whole => exact ⟨List.prefix_rfl, Nat.le_add_right .., fun hq _ => hq⟩
  | @torn _ rest r _ hpre hlt =>
    refine ⟨List.prefix_append .., Nat.le_add_right .., fun {q} hq hfit => ?_⟩
    obtain hqp | ⟨s, rfl⟩ := List.prefix_or_prefix_of_prefix hq (List.prefix_append p (r :: rest))
    · exact hqp
    -- a prefix that goes on behind `p` has all of the next record
    · rw [List.prefix_append_right_inj] at hq
      cases s with
      | nil => simp
      | cons r' s =>
        obtain ⟨rfl, -⟩ := List.cons_prefix_cons.1 hq
        simp only [List.flatMap_append, List.flatMap_cons, List.length_append] at hfit
        omega

/-- Reading what is left after a cut gives the whole records. -/
theorem Cut.recordsOf_eq (hc : Cut rs p torn) (h : ∀ r ∈ rs, r.Storable) :
    recordsOf (p.flatMap encode ++ torn) = .ok p := by
  rw [recordsOf_flatMap_append (hc.storable h), recordsOf_of_unfinished (hc.unfinished h)]
  simp [Except.map]

/-! ## Log files that were written -/

/-- The log files that come from a file without bytes by appending records and opening the file
again. -/
inductive Written : List UpdateRecord → LogFile → Prop
  /-- A file that is new, or has no bytes, is opened. -/
  | create {found : Option SparseBytes} (h : (opened found).content.length = 0) :
    Written [] (opened found)
  /-- A record is appended. -/
  | append {rs : List UpdateRecord} {f : LogFile} (h : Written rs f) (r : UpdateRecord) :
    Written (rs ++ [r]) (f.append r)
  /-- The file is opened again. -/
  | reopen {rs : List UpdateRecord} {f : LogFile} (h : Written rs f) :
    Written rs (opened (some f.content))

namespace Written

/-- The file holds the stored records, one after the other. -/
theorem bytes_eq (h : Written rs f) : f.bytes = rs.flatMap encode := by
  induction h with
  | create h => exact List.eq_nil_of_length_eq_zero ((length_bytes _).trans h)
  | append _ r ih => simp [ih]
  | reopen _ ih => exact ih

/-- The file is stored without holes. -/
theorem gap_eq (h : Written rs f) : f.content.gap = 0 := by
  induction h with
  | create h => exact Nat.eq_zero_of_le_zero (h ▸ SparseBytes.gap_le_length _)
  | append _ r ih => simpa using ih
  | reopen _ ih => exact ih

/-- A file that is cut keeps the whole records and the beginning of the next one. -/
theorem cut (h : Written rs f) (hk : k ≤ f.content.length) :
    ∃ g p torn, f.setLength k = .ok g ∧ g.content.gap = 0 ∧ Cut rs p torn ∧
      g.bytes = f.bytes.take k ∧ g.bytes = p.flatMap encode ++ torn := by
  have hset := setLength_of_le hk
  have htake : LogFile.bytes ⟨f.content.resize k⟩ = f.bytes.take k := by
    rw [bytes_of_setLength hset, Bytes.resize, length_bytes, Nat.sub_eq_zero_of_le hk]
    exact List.append_nil _
  have hall : k ≤ (rs.flatMap encode).length := by rwa [← h.bytes_eq, length_bytes]
  obtain ⟨p, torn, hc, heq⟩ := Cut.exists_of_le hall
  refine ⟨_, p, torn, hset, ?_, hc, htake, ?_⟩
  · exact Nat.eq_zero_of_le_zero (h.gap_eq ▸ SparseBytes.gap_resize_le hk)
  · rw [htake, h.bytes_eq, heq]

/-- A written log that is cut to its first `k` bytes, anywhere, reads back as the records that fit
in `k` bytes, and uncut as all of them. -/
theorem records_of_cut (h : Written rs f) (hs : ∀ r ∈ rs, r.Storable)
    (hk : k ≤ f.content.length) :
    ∃ g p, f.setLength k = .ok g ∧ g.bytes = f.bytes.take k ∧ g.records = .ok p ∧
      Fitting rs k p ∧ (k = f.content.length → p = rs) := by
  obtain ⟨g, p, torn, hset, hgap, hc, htake, hg⟩ := h.cut hk
  have hlen : (p.flatMap encode).length + torn.length = k := by
    rw [← List.length_append, ← hg, htake, List.length_take, length_bytes, Nat.min_eq_left hk]
  have hfit : Fitting rs k p := hlen ▸ hc.fitting
  refine ⟨g, p, hset, htake, ?_, hfit, fun hall => ?_⟩
  · rw [records_eq hgap, hg, hc.recordsOf_eq hs]
  · have hrs : rs <+: p := hfit.most List.prefix_rfl
      (Nat.le_of_eq (by rw [← h.bytes_eq, hall, length_bytes]))
    exact hfit.first.eq_of_length_le hrs.length_le

end Written

end LogFile

/-! ## A log that was opened twice -/

namespace Sample

/-- A change to the first page of a table. -/
def firstChange : UpdateRecord := ⟨1, ⟨1, 0⟩, [], List.replicate 40 1⟩

/-- A change to the second page. -/
def secondChange : UpdateRecord := ⟨2, ⟨1, 1⟩, [5], [7]⟩

/-- The two of them. -/
def changes : List UpdateRecord := [firstChange, secondChange]

/-- The log that tells of the first change, was opened again, and then tells of the second. -/
def log : LogFile :=
  (LogFile.opened (some ((LogFile.opened none).append firstChange).content)).append secondChange

theorem written_log : LogFile.Written changes log :=
  .append (.reopen (.append (.create rfl) _)) _

theorem storable_changes : ∀ r ∈ changes, r.Storable := by decide

/-- Cut inside the second record, the log reads back as the first. -/
theorem records_of_cut_log : 80 ≤ log.content.length ∧
    ∃ g p, log.setLength 80 = .ok g ∧ g.bytes = log.bytes.take 80 ∧ g.records = .ok p ∧
      LogFile.Fitting changes 80 p ∧ (80 = log.content.length → p = changes) :=
  ⟨by decide, LogFile.Written.records_of_cut written_log storable_changes (by decide)⟩

end Sample

end RowStore
