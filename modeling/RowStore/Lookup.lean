/-!
# Looking up in lists of pairs

What becomes of a look-up when the pairs of a key are taken out of the list.
-/

namespace RowStore

variable {α β : Type} [BEq α] [LawfulBEq α] [DecidableEq α]

/-- A key whose pairs are taken out is not found. -/
theorem lookup_filter_self (l : List (α × β)) (k : α) :
    (l.filter (·.1 ≠ k)).lookup k = none := by
  induction l with
  | nil => rfl
  | cons p l ih =>
    obtain ⟨a, b⟩ := p
    by_cases h : a = k
    · simpa [h] using ih
    · have hk : (k == a) = false := beq_eq_false_iff_ne.2 (Ne.symm h)
      simpa [h, List.lookup_cons, hk] using ih

/-- Taking out the pairs of a key leaves the look-ups of the others as they were. -/
theorem lookup_filter_of_ne (l : List (α × β)) {k a : α} (h : a ≠ k) :
    (l.filter (·.1 ≠ k)).lookup a = l.lookup a := by
  induction l with
  | nil => rfl
  | cons p l ih =>
    obtain ⟨x, b⟩ := p
    by_cases hx : x = k
    · subst hx
      have ha : (a == x) = false := beq_eq_false_iff_ne.2 h
      simpa [List.lookup_cons, ha] using ih
    · by_cases hax : a = x
      · simp [hx, hax]
      · have ha : (a == x) = false := beq_eq_false_iff_ne.2 hax
        simpa [hx, List.lookup_cons, ha] using ih

end RowStore
