import Mathlib.Logic.ExistsUnique
import RowStore.Catalog

/-!
# The indexes of the catalog

The two indexes of a catalog never drift apart. `find?_add` and `lookup_add` say of every number
and of every name what is found under it once a table has been added. A catalog whose indexes are
inverse to each other, `Paired`, therefore stays one, and adding a table to it, `Adds`, takes out
the table that had the name and the table that had the number, each under both of its keys.
-/

namespace RowStore

namespace Catalog

variable {c c' : Catalog} {t u : Table} {id : TableId} {name other : String}

/-! ## Looking up -/

theorem idOf_eq_ok : c.idOf name = .ok id ↔ c.byName.lookup name = some id := by
  unfold idOf
  split
  · next i hi => simp [hi]
  · next hi => simp [hi]

theorem table_eq_ok : c.table id = .ok t ↔ ∃ name, c.find? id = some (t, name) := by
  unfold table
  split
  · next u other hf => simp [hf]
  · next hf => simp [hf]

theorem nameOf_eq_ok : c.nameOf id = .ok name ↔ ∃ t, c.find? id = some (t, name) := by
  unfold nameOf
  split
  · next u other hf => simp [hf]
  · next hf => simp [hf]

/-- The listed numbers are those under which something is found. -/
theorem mem_ids : id ∈ c.ids ↔ ∃ x, c.find? id = some x := by
  show id ∈ c.byId.map (·.1) ↔ ∃ x, c.byId.lookup id = some x
  rw [← Option.isSome_iff_exists, List.lookup_isSome_iff, List.mem_map]
  simp only [beq_iff_eq, @eq_comm _ id]

/-! ## Taking tables out -/

theorem find?_removeName (c : Catalog) (name : String) (id : TableId) :
    (c.removeName name).find? id =
      if c.byName.lookup name = some id then none else c.find? id := by
  unfold removeName
  split
  · next i hi =>
    rw [find?_dropId, hi]
    simp only [Option.some.injEq, eq_comm]
    rfl
  · next hi => rw [hi, if_neg (by simp)]

theorem lookup_removeName (c : Catalog) (name other : String) :
    (c.removeName name).byName.lookup other =
      if other = name then none else c.byName.lookup other := by
  unfold removeName
  split
  · exact lookup_dropName c name other
  · next hi =>
    split
    · next h => rw [h, hi]
    · rfl

theorem find?_removeId (c : Catalog) (id other : TableId) :
    (c.removeId id).find? other = if other = id then none else c.find? other := by
  unfold removeId
  split
  · exact find?_dropId c id other
  · next hf =>
    split
    · next h => rw [h, hf]
    · rfl

theorem lookup_removeId (c : Catalog) (id : TableId) (name : String) :
    (c.removeId id).byName.lookup name =
      if (c.find? id).map (·.2) = some name then none else c.byName.lookup name := by
  unfold removeId
  split
  · next u other hf =>
    rw [lookup_dropName, hf]
    simp only [Option.map_some, Option.some.injEq, eq_comm]
    rfl
  · next hf => rw [hf, if_neg (by simp)]

theorem ids_removeName (c : Catalog) (name : String) : (c.removeName name).ids.Sublist c.ids := by
  unfold removeName
  split
  · exact List.filter_sublist.map _
  · exact .refl _

theorem ids_removeId (c : Catalog) (id : TableId) : (c.removeId id).ids.Sublist c.ids := by
  unfold removeId
  split
  · exact List.filter_sublist.map _
  · exact .refl _

/-! ## Adding a table -/

/-- What is found under a number once a table has been added. -/
theorem find?_add (c : Catalog) (t : Table) (name : String) (id : TableId) :
    (c.add t name).find? id =
      if id = t.id then some (t, name)
      else if c.byName.lookup name = some id then none else c.find? id := by
  show List.lookup id ((t.id, t, name) :: ((c.removeName name).removeId t.id).byId) = _
  rw [List.lookup_cons]
  split
  · next h => rw [if_pos (eq_of_beq h)]
  · next h =>
    have hne := ne_of_beq_false h
    rw [if_neg hne, ← find?_removeName]
    exact (find?_removeId _ t.id id).trans (if_neg hne)

/-- What is found under a name once a table has been added. The table that had the number is no
longer there to give its name away if it went with the new name. -/
theorem lookup_add (c : Catalog) (t : Table) (name other : String) :
    (c.add t name).byName.lookup other =
      if other = name then some t.id
      else if ((c.removeName name).find? t.id).map (·.2) = some other then none
      else c.byName.lookup other := by
  show List.lookup other ((name, t.id) :: ((c.removeName name).removeId t.id).byName) = _
  rw [List.lookup_cons]
  split
  · next h => rw [if_pos (eq_of_beq h)]
  · next h =>
    have hne := ne_of_beq_false h
    rw [if_neg hne, lookup_removeId, lookup_removeName, if_neg hne]

/-- A table that is found after another has been added is this one, or was found before. -/
theorem table_of_add (h : (c.add t name).table id = .ok u) :
    id = t.id ∧ u = t ∨ c.table id = .ok u := by
  obtain ⟨other, hf⟩ := table_eq_ok.1 h
  rw [find?_add] at hf
  split at hf
  · next he =>
    cases hf
    exact .inl ⟨he, rfl⟩
  · split at hf
    · cases hf
    · exact .inr (table_eq_ok.2 ⟨other, hf⟩)

/-- A table that has been added is found. -/
theorem table_add_self (c : Catalog) (t : Table) (name : String) :
    (c.add t name).table t.id = .ok t := by
  apply table_eq_ok.2
  exact ⟨name, by rw [find?_add, if_pos rfl]⟩

/-! ## Indexes that are inverse to each other -/

/-- The indexes of a catalog are inverse to each other. -/
structure Paired (c : Catalog) : Prop where
  /-- A name leads to a number just if the number leads to the name. -/
  idOf_iff {id : TableId} {name : String} : c.idOf name = .ok id ↔ c.nameOf id = .ok name
  /-- The table under a number has this number. -/
  table_id {id : TableId} {t : Table} : c.table id = .ok t → t.id = id
  /-- No number is listed twice. -/
  nodup_ids : c.ids.Nodup

/-- The listed numbers are those with exactly one name that leads to them. -/
theorem Paired.mem_ids_iff (h : c.Paired) : id ∈ c.ids ↔ ∃! name, c.idOf name = .ok id := by
  constructor
  · intro hid
    obtain ⟨⟨t, name⟩, hf⟩ := mem_ids.1 hid
    have hn : c.nameOf id = .ok name := nameOf_eq_ok.2 ⟨t, hf⟩
    refine ⟨name, h.idOf_iff.2 hn, ?_⟩
    intro other ho
    exact Except.ok.inj ((h.idOf_iff.1 ho).symm.trans hn)
  · rintro ⟨name, hn, -⟩
    obtain ⟨t, hf⟩ := nameOf_eq_ok.1 (h.idOf_iff.1 hn)
    exact mem_ids.2 ⟨_, hf⟩

theorem Paired.lookup_iff (h : c.Paired) :
    c.byName.lookup name = some id ↔ ∃ t, c.find? id = some (t, name) :=
  idOf_eq_ok.symm.trans (h.idOf_iff.trans nameOf_eq_ok)

/-- The name of the table that has a number, in terms of the index by name. -/
theorem Paired.map_find?_iff (h : c.Paired) :
    (c.find? id).map (·.2) = some name ↔ c.byName.lookup name = some id := by
  rw [h.lookup_iff, Option.map_eq_some_iff]
  constructor
  · rintro ⟨⟨t, _⟩, ht, rfl⟩
    exact ⟨t, ht⟩
  · rintro ⟨t, ht⟩
    exact ⟨(t, name), ht, rfl⟩

/-- No two names lead to one number. -/
theorem Paired.name_unique (h : c.Paired) (hn : c.byName.lookup name = some id)
    (ho : c.byName.lookup other = some id) : name = other :=
  Option.some.inj ((h.map_find?_iff.2 hn).symm.trans (h.map_find?_iff.2 ho))

/-- What is found under a name once a table has been added: a name other than the new one is gone
if it was the name of the table that had the number. -/
theorem Paired.lookup_add (h : c.Paired) (t : Table) (name other : String) :
    (c.add t name).byName.lookup other =
      if other = name then some t.id
      else if c.byName.lookup other = some t.id then none else c.byName.lookup other := by
  rw [Catalog.lookup_add, find?_removeName]
  by_cases hname : other = name
  · rw [if_pos hname, if_pos hname]
  · rw [if_neg hname, if_neg hname]
    by_cases hn : c.byName.lookup name = some t.id
    · -- The number's table has gone with the new name, so it has had no other name.
      have ho : c.byName.lookup other ≠ some t.id := fun ho => hname (h.name_unique ho hn)
      rw [if_pos hn, if_neg ho, if_neg nofun]
    · simp only [if_neg hn, h.map_find?_iff]

theorem Paired.lookup_add_eq_some (h : c.Paired) :
    (c.add t name).byName.lookup other = some id ↔
      other = name ∧ id = t.id ∨
        other ≠ name ∧ id ≠ t.id ∧ c.byName.lookup other = some id := by
  rw [h.lookup_add]
  by_cases hname : other = name
  · simp [hname, eq_comm]
  · by_cases ho : c.byName.lookup other = some t.id
    · simp [hname, ho, eq_comm]
    · rw [if_neg hname, if_neg ho]
      constructor
      · intro hid
        exact .inr ⟨hname, fun he => ho (he ▸ hid), hid⟩
      · rintro (⟨he, -⟩ | ⟨-, -, hid⟩)
        · exact absurd he hname
        · exact hid

theorem Paired.find?_add_eq_some (h : c.Paired) :
    (c.add t name).find? id = some (u, other) ↔
      id = t.id ∧ u = t ∧ other = name ∨
        id ≠ t.id ∧ other ≠ name ∧ c.find? id = some (u, other) := by
  rw [find?_add]
  by_cases hid : id = t.id
  · simp [hid, eq_comm]
  · rw [if_neg hid]
    constructor
    · intro hu
      split at hu
      · cases hu
      · next hn => exact .inr ⟨hid, fun he => hn (he ▸ h.lookup_iff.2 ⟨u, hu⟩), hu⟩
    · rintro (⟨he, -⟩ | ⟨-, hname, hu⟩)
      · exact absurd he hid
      · rw [if_neg, hu]
        exact fun hn => hname (h.name_unique (h.lookup_iff.2 ⟨u, hu⟩) hn)

theorem paired_empty : empty.Paired where
  idOf_iff := ⟨nofun, nofun⟩
  table_id h := nomatch h
  nodup_ids := .nil

/-- Adding a table keeps the indexes inverse to each other. -/
theorem Paired.add (h : c.Paired) (t : Table) (name : String) : (c.add t name).Paired where
  idOf_iff {id other} := by
    rw [idOf_eq_ok, nameOf_eq_ok, h.lookup_add_eq_some]
    simp only [h.find?_add_eq_some, h.lookup_iff]
    constructor
    · rintro (⟨ho, hid⟩ | ⟨ho, hid, u, hu⟩)
      · exact ⟨t, .inl ⟨hid, rfl, ho⟩⟩
      · exact ⟨u, .inr ⟨hid, ho, hu⟩⟩
    · rintro ⟨u, ⟨hid, -, ho⟩ | ⟨hid, ho, hu⟩⟩
      · exact .inl ⟨ho, hid⟩
      · exact .inr ⟨ho, hid, u, hu⟩
  table_id {id u} hu := by
    rcases table_of_add hu with ⟨rfl, rfl⟩ | hu
    · rfl
    · exact h.table_id hu
  nodup_ids := by
    show (t.id :: ((c.removeName name).removeId t.id).ids).Nodup
    rw [List.nodup_cons]
    constructor
    · intro hm
      obtain ⟨x, hx⟩ := mem_ids.1 hm
      rw [find?_removeId, if_pos rfl] at hx
      cases hx
    · exact ((ids_removeId ..).trans (ids_removeName ..)).nodup h.nodup_ids

/-! ## What adding a table comes to -/

/-- Nothing is found under a number. -/
structure Lacks (c : Catalog) (id : TableId) : Prop where
  table : c.table id = .error (.noSuchTable id)
  nameOf : c.nameOf id = .error (.noSuchTable id)
  idOf (name : String) : c.idOf name ≠ .ok id
  not_mem_ids : id ∉ c.ids

/-- The same is found under a number in both catalogs. -/
structure Same (c c' : Catalog) (id : TableId) : Prop where
  table : c'.table id = c.table id
  nameOf : c'.nameOf id = c.nameOf id
  mem_ids : id ∈ c'.ids ↔ id ∈ c.ids

/-- The second catalog is the first one with a table under a name. -/
structure Adds (c : Catalog) (t : Table) (name : String) (c' : Catalog) : Prop where
  /-- The name leads to the table's number. -/
  idOf_self : c'.idOf name = .ok t.id
  /-- The number leads to the name. -/
  nameOf_self : c'.nameOf t.id = .ok name
  /-- The number leads to the table. -/
  table_self : c'.table t.id = .ok t
  /-- The number of the table that had the name is gone. -/
  lacks {id : TableId} : c.idOf name = .ok id → id ≠ t.id → c'.Lacks id
  /-- The name of the table that had the number is gone. -/
  idOf_old {other : String} : c.nameOf t.id = .ok other → other ≠ name →
    c'.idOf other = .error (.noSuchName other) ∧ ∀ id, c'.nameOf id ≠ .ok other
  /-- Under every other number the same is found as before. -/
  same {id : TableId} : id ≠ t.id → c.idOf name ≠ .ok id → c.Same c' id
  /-- Under every other name the same is found as before. -/
  idOf {other : String} : other ≠ name → c.nameOf t.id ≠ .ok other → c'.idOf other = c.idOf other

theorem Paired.lacks (h : c.Paired) (hid : c.find? id = none) : c.Lacks id where
  table := by
    unfold Catalog.table
    rw [hid]
  nameOf := by
    unfold Catalog.nameOf
    rw [hid]
  idOf name hn := by
    obtain ⟨t, ht⟩ := nameOf_eq_ok.1 (h.idOf_iff.1 hn)
    cases hid.symm.trans ht
  not_mem_ids hm := by
    obtain ⟨x, hx⟩ := Catalog.mem_ids.1 hm
    cases hid.symm.trans hx

theorem same_of_find?_eq (h : c'.find? id = c.find? id) : c.Same c' id where
  table := by
    unfold table
    rw [h]
  nameOf := by
    unfold nameOf
    rw [h]
  mem_ids := by rw [mem_ids, mem_ids, h]

/-- Adding a table takes out the table that had its name and the table that had its number, and
leaves the others as they were. -/
theorem Paired.adds (h : c.Paired) (t : Table) (name : String) :
    c.Adds t name (c.add t name) where
  idOf_self := by
    apply idOf_eq_ok.2
    rw [h.lookup_add, if_pos rfl]
  nameOf_self := by
    apply nameOf_eq_ok.2
    exact ⟨t, by rw [find?_add, if_pos rfl]⟩
  table_self := table_add_self c t name
  lacks {id} hn hid := by
    apply (h.add t name).lacks
    rw [find?_add, if_neg hid, if_pos (idOf_eq_ok.1 hn)]
  idOf_old {other} ho hname := by
    have hl : (c.add t name).byName.lookup other = none := by
      rw [h.lookup_add, if_neg hname, if_pos (idOf_eq_ok.1 (h.idOf_iff.2 ho))]
    constructor
    · unfold Catalog.idOf
      rw [hl]
    · intro id hid
      have hid := idOf_eq_ok.1 ((h.add t name).idOf_iff.2 hid)
      cases hl.symm.trans hid
  same {id} hid hn := by
    apply same_of_find?_eq
    rw [find?_add, if_neg hid, if_neg (mt idOf_eq_ok.2 hn)]
  idOf {other} hname ho := by
    have hl : (c.add t name).byName.lookup other = c.byName.lookup other := by
      rw [h.lookup_add, if_neg hname, if_neg (mt (h.idOf_iff.1 ∘ idOf_eq_ok.2) ho)]
    unfold Catalog.idOf
    rw [hl]

/-! ## Sequences of changes -/

/-- What can be done to a catalog. -/
inductive Change where
  /-- A table is added under a name. -/
  | add (t : Table) (name : String)
  /-- All tables are taken out. -/
  | clear

/-- The catalog after a change. -/
def change (c : Catalog) : Change → Catalog
  | .add t name => c.add t name
  | .clear => c.clear

/-- The catalog after a sequence of changes. -/
def changeAll (c : Catalog) (changes : List Change) : Catalog := changes.foldl change c

theorem Paired.change (h : c.Paired) : ∀ change, (c.change change).Paired
  | .add t name => h.add t name
  | .clear => paired_empty

theorem Paired.changeAll (h : c.Paired) (changes : List Change) : (c.changeAll changes).Paired := by
  induction changes generalizing c with
  | nil => exact h
  | cons change changes ih => exact ih (h.change change)

/-- Whatever is added to a catalog and cleared from it, its indexes are inverse to each other: the
listed numbers are those with exactly one name. The next table that is added drives out the one
that had its name and the one that had its number, under both of their keys, and the rest of the
catalog stays as it was. -/
theorem changeAll_inverse (changes : List Change) :
    (empty.changeAll changes).Paired ∧
      (∀ id, id ∈ (empty.changeAll changes).ids ↔
        ∃! name, (empty.changeAll changes).idOf name = .ok id) ∧
      ∀ t name, (empty.changeAll changes).Adds t name ((empty.changeAll changes).add t name) := by
  have h := paired_empty.changeAll changes
  exact ⟨h, fun _ => h.mem_ids_iff, h.adds⟩

/-- The third table takes over the name of the first and the number of the second. -/
example : (empty.changeAll [.add ⟨1, "one", .ofTypes [.int]⟩ "a",
    .add ⟨2, "two", .ofTypes [.int]⟩ "b", .add ⟨2, "three", .ofTypes [.int]⟩ "a"]) =
      ⟨[(2, ⟨2, "three", .ofTypes [.int]⟩, "a")], [("a", 2)]⟩ := by
  decide

end Catalog

end RowStore
