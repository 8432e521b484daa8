import RowStore.Proofs.Page.Vacancy

/-!
# The rows of a page

The rows of a page are what its occupied slots decode to, in the order of the slots, each with its
place. `Page.Lists` says this in terms of the map from slots to bytes, and `Page.rows` finds these
rows, unless there is an occupied slot that does not decode.
-/

namespace RowStore

section Traversal

variable {α β : Type} {f : α → Except Error β} {xs : List α} {ys : List β}

/-- To map a list is to map each of its members. -/
theorem mapM_eq_ok_iff : xs.mapM f = .ok ys ↔ List.Forall₂ (fun x y => f x = .ok y) xs ys := by
  induction xs generalizing ys with
  | nil =>
    rw [List.mapM_nil, List.forall₂_nil_left_iff]
    exact ⟨fun h => (Except.ok.inj h).symm, fun h => h ▸ rfl⟩
  | cons x xs ih =>
    rw [List.mapM_cons, bind_eq_ok, List.forall₂_cons_left_iff]
    constructor
    · rintro ⟨y, hy, h⟩
      obtain ⟨zs, hzs, h⟩ := bind_eq_ok.1 h
      exact ⟨y, zs, hy, ih.1 hzs, (Except.ok.inj h).symm⟩
    · rintro ⟨y, zs, hy, hzs, rfl⟩
      exact ⟨y, hy, bind_eq_ok.2 ⟨zs, ih.2 hzs, rfl⟩⟩

/-- A list cannot be mapped just if one of its members cannot. -/
theorem mapM_eq_error_iff :
    (∃ err, xs.mapM f = .error err) ↔ ∃ x ∈ xs, ∃ err, f x = .error err := by
  induction xs with
  | nil =>
    constructor
    · rintro ⟨err, h⟩
      cases h
    · rintro ⟨x, hx, -⟩
      cases hx
  | cons x xs ih =>
    rw [List.mapM_cons, List.exists_mem_cons_iff, ← ih]
    cases f x with
    | error err => exact ⟨fun _ => .inl ⟨err, rfl⟩, fun _ => ⟨err, rfl⟩⟩
    | ok y =>
      cases xs.mapM f with
      | error err => exact ⟨fun _ => .inr ⟨err, rfl⟩, fun _ => ⟨err, rfl⟩⟩
      | ok ys =>
        constructor
        · rintro ⟨err, h⟩
          cases h
        · rintro (⟨err, h⟩ | ⟨err, h⟩) <;> cases h

end Traversal

namespace Page

variable {p q : Page} {rows : List Row} {slot : Nat}

/-! ## Occupied slots -/

/-- The occupied slots, in order. -/
def occupied (p : Page) : List Nat := (List.range p.slots).filter fun slot => (p.slot? slot).isSome

theorem mem_occupied : slot ∈ p.occupied ↔ ∃ bytes, p.slot? slot = some bytes := by
  rw [occupied, List.mem_filter, List.mem_range, Option.isSome_iff_exists, and_iff_right_iff_imp]
  rintro ⟨bytes, h⟩
  by_contra hn
  rw [slot?, isUsed_eq_false_of_le (Nat.not_lt.1 hn)] at h
  cases h

theorem isSome_slot? (p : Page) (slot : Nat) : (p.slot? slot).isSome = p.isUsed slot := by
  unfold slot?
  split
  · next h => exact h.symm
  · next h => exact (Bool.not_eq_true _ ▸ h).symm

theorem occupancy_eq (p : Page) : p.occupancy = (List.range p.slots).map p.isUsed := by
  apply List.ext_getElem
  · rw [length_occupancy, List.length_map, List.length_range]
  · intro i h _
    rw [getElem_occupancy h, List.getElem_map, List.getElem_range]

theorem occupied_eq (p : Page) : p.occupied = (List.range p.slots).filter p.isUsed :=
  congrArg (List.filter · _) (funext p.isSome_slot?)

theorem usedSlots_eq (p : Page) : p.usedSlots = p.occupied := by
  have hz : (List.range p.slots).zipIdx = (List.range p.slots).map fun i => (i, i) := by
    apply List.ext_getElem <;> simp
  rw [usedSlots, occupancy_eq, occupied_eq, List.zipIdx_map, hz, List.map_map, List.filterMap_map,
    ← List.filterMap_eq_filter]
  refine List.filterMap_congr fun slot _ => ?_
  simp [Option.guard]

theorem emptySlots_eq (p : Page) :
    p.emptySlots = (List.range p.slots).countP fun slot => ¬ p.isUsed slot := by
  rw [emptySlots, occupancy_eq, List.count_eq_countP, List.countP_map]
  exact List.countP_congr fun slot _ => by simp

/-- Every slot is empty or occupied. -/
theorem emptySlots_add_length_occupied (p : Page) :
    p.emptySlots + p.occupied.length = p.slots := by
  have hl := List.length_eq_countP_add_countP p.isUsed (l := List.range p.slots)
  rw [List.length_range] at hl
  rw [emptySlots_eq, occupied_eq, ← List.countP_eq_length_filter, Nat.add_comm]
  exact hl.symm

/-! ## Rows -/

/-- The row is what a slot decodes to, with its place. -/
def Holds (p : Page) (slot : Nat) (row : Row) : Prop :=
  ∃ bytes values, p.slot? slot = some bytes ∧ Value.decodeAll p.schema.types bytes = .ok values ∧
    row = ⟨values, some ⟨p.id, slot⟩⟩

/-- The rows are what the occupied slots decode to, in order. -/
def Lists (p : Page) (rows : List Row) : Prop := List.Forall₂ p.Holds p.occupied rows

theorem slotBytes_of_slot? {bytes : Bytes} (h : p.slot? slot = some bytes) :
    p.slotBytes slot = bytes := by
  unfold slot? at h
  split at h
  · exact Option.some.inj h
  · cases h

/-- An occupied slot decodes to the row that it holds. -/
theorem decodeSlot_eq_ok_iff (h : slot ∈ p.occupied) {row : Row} :
    p.decodeSlot slot = .ok row ↔ p.Holds slot row := by
  obtain ⟨bytes, hb⟩ := mem_occupied.1 h
  rw [decodeSlot, slotBytes_of_slot? hb, decodeAs, bind_eq_ok]
  constructor
  · rintro ⟨values, hv, h⟩
    exact ⟨bytes, values, hb, hv, (Except.ok.inj h).symm⟩
  · rintro ⟨other, values, hb', hv, rfl⟩
    obtain rfl := Option.some.inj (hb.symm.trans hb')
    exact ⟨values, hv, rfl⟩

theorem decodeSlot_eq_error_iff (h : slot ∈ p.occupied) : (∃ err, p.decodeSlot slot = .error err) ↔
    ∃ bytes err, p.slot? slot = some bytes ∧ Value.decodeAll p.schema.types bytes = .error err := by
  obtain ⟨bytes, hb⟩ := mem_occupied.1 h
  rw [decodeSlot, slotBytes_of_slot? hb, decodeAs]
  constructor
  · rintro ⟨err, he⟩
    cases hv : Value.decodeAll p.schema.types bytes with
    | error err => exact ⟨bytes, err, hb, hv⟩
    | ok values =>
      rw [hv] at he
      cases he
  · rintro ⟨other, err, hb', hv⟩
    obtain rfl := Option.some.inj (hb.symm.trans hb')
    exact ⟨err, by rw [hv]; rfl⟩

/-- The rows that are found are those that the page lists. -/
theorem rows_eq_ok_iff : p.rows = .ok rows ↔ p.Lists rows := by
  rw [rows_eq_mapM_decodeSlot, usedSlots_eq, mapM_eq_ok_iff, Lists, List.forall₂_iff_zip,
    List.forall₂_iff_zip]
  refine and_congr_right fun _ => forall₂_congr fun slot row => ?_
  exact forall_congr' fun hz => decodeSlot_eq_ok_iff (List.of_mem_zip hz).1

/-- No rows are found just if there is an occupied slot that does not decode. -/
theorem rows_eq_error_iff : (∃ err, p.rows = .error err) ↔ ∃ slot bytes err,
    p.slot? slot = some bytes ∧ Value.decodeAll p.schema.types bytes = .error err := by
  rw [rows_eq_mapM_decodeSlot, usedSlots_eq, mapM_eq_error_iff]
  constructor
  · rintro ⟨slot, hs, he⟩
    exact ⟨slot, (decodeSlot_eq_error_iff hs).1 he⟩
  · rintro ⟨slot, bytes, err, hb, hv⟩
    have hs : slot ∈ p.occupied := mem_occupied.2 ⟨bytes, hb⟩
    exact ⟨slot, hs, (decodeSlot_eq_error_iff hs).2 ⟨bytes, err, hb, hv⟩⟩

/-- A page lists one row for each occupied slot. -/
theorem Lists.length_eq (h : p.Lists rows) : rows.length = p.occupied.length :=
  (List.Forall₂.length_eq h).symm

/-- A page lists its rows in one way only. -/
theorem Lists.unique {more : List Row} (h : p.Lists rows) (h' : p.Lists more) : rows = more :=
  Except.ok.inj ((rows_eq_ok_iff.2 h).symm.trans (rows_eq_ok_iff.2 h'))

/-! ## Legible pages -/

/-- Every occupied slot decodes. -/
def Legible (p : Page) : Prop := ∀ ⦃slot bytes⦄, p.slot? slot = some bytes →
  ∃ values, Value.decodeAll p.schema.types bytes = .ok values

/-- The rows of a legible page are found. -/
theorem Legible.rows_ne_error (h : p.Legible) (err : Error) : p.rows ≠ .error err := by
  intro hr
  obtain ⟨slot, bytes, err', hb, hv⟩ := rows_eq_error_iff.1 ⟨err, hr⟩
  obtain ⟨values, hv'⟩ := h hb
  cases hv.symm.trans hv'

/-- A page whose rows are found is legible. -/
theorem legible_of_rows (h : p.rows = .ok rows) : p.Legible := by
  intro slot bytes hb
  cases hv : Value.decodeAll p.schema.types bytes with
  | ok values => exact ⟨values, rfl⟩
  | error err =>
    obtain ⟨err', he⟩ := rows_eq_error_iff.2 ⟨slot, bytes, err, hb, hv⟩
    cases h.symm.trans he

theorem legible_of_empty (h : ∀ slot, p.slot? slot = none) : p.Legible := by
  intro slot bytes hb
  cases (h slot).symm.trans hb

/-- A page stays legible if rows of its types are put into its slots. -/
theorem Legible.update {content : Option Bytes} (h : p.Legible) (hs : q.schema = p.schema)
    (hq : q.slot? = Function.update p.slot? slot content)
    (hc : ∀ bytes, content = some bytes →
      ∃ row : Row, row.types = p.schema.types ∧ row.encode = bytes) : q.Legible := by
  intro i bytes hb
  rw [hs]
  rw [hq, Function.update_apply] at hb
  split at hb
  · obtain ⟨row, ht, rfl⟩ := hc bytes hb
    obtain ⟨values, hv, -⟩ := row.decodeAll_encode
    exact ⟨values, ht ▸ hv⟩
  · exact h hb

/-- Insertions and deletions leave a page legible. -/
theorem Legible.edited (h : p.Legible) (he : p.Edited q) : q.Legible := by
  induction he with
  | refl => exact h
  | insert _ hq ih =>
    obtain ⟨ha, -, -, hslot⟩ := slot?_of_insert hq
    refine ih.update ha.schema hslot ?_
    rintro bytes ⟨⟩
    exact ⟨_, (firstVacancy_of_insert hq).1, rfl⟩
  | @delete _ _ place _ hq ih =>
    cases place with
    | none =>
      rw [delete_none] at hq
      cases hq
    | some place =>
      obtain ⟨ha, -, -, hslot⟩ := slot?_of_delete hq
      refine ih.update ha.schema hslot ?_
      rintro bytes ⟨⟩

end Page

end RowStore
