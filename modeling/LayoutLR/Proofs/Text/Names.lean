/-
  Layout-aware LR toolkit — what names are made of.

  A name starts with a letter or an underscore and goes on with letters, numerals
  and underscores.  None of these is blank or a mark; that the tables of characters
  do not meet is checked range by range.

  * `isName`: the texts that are names;
  * `holds_of_disjoint`: tables that do not meet;
  * `holds_notInitial`, `isBlank_name`, `isDigit_name`, `not_comment_name`: what a name does
    not start with.
-/
import LayoutLR.Text.Class

namespace LayoutLR

open Text

/-- Whether a text is a name: a letter or an underscore, then letters, numerals and
    underscores. -/
def isName : List Char → Bool
  | [] => false
  | c :: cs => (isLetter c || c == '_') && cs.all fun d => isWordChar d || d == '_'

/-- Ranges that do not meet have no characters in common. -/
theorem holds_of_disjoint {r r' : Ranges} {c : Char} (h : (r.all fun p => r'.all fun p' =>
    decide (p.2 < p'.1) || decide (p'.2 < p.1)) = true) (hc : r.holds c = true) :
    r'.holds c = false := by
  rw [Ranges.holds, List.any_eq_false]
  intro p' hp'
  obtain ⟨p, hp, hin⟩ := List.any_eq_true.1 hc
  have := List.all_eq_true.1 (List.all_eq_true.1 h p hp) p' hp'
  simp only [Bool.and_eq_true, Bool.or_eq_true, decide_eq_true_eq] at hin this ⊢
  omega

/-- What a name does not start with: `#`, the slash, digits, the colon and blanks. -/
def notInitial : Ranges :=
  (0x23, 0x23) :: (0x2f, 0x3a) :: blanks

theorem holds_notInitial {c : Char} (h : (isLetter c || c == '_') = true) :
    notInitial.holds c = false := by
  have hletter : Ranges.holds ((0x5f, 0x5f) :: alphabetic) c = true := by
    rw [Bool.or_eq_true, beq_iff_eq] at h
    rcases h with h | rfl
    · unfold isLetter at h
      split at h
      · have hle : 0x41 ≤ c.toNat ∧ c.toNat ≤ 0x5a ∨ 0x61 ≤ c.toNat ∧ c.toNat ≤ 0x7a := by
          change (decide (c.val ≥ 'A'.val ∧ c.val ≤ 'Z'.val) ||
            decide (c.val ≥ 'a'.val) && decide (c.val ≤ 'z'.val)) = true at h
          simpa [UInt32.le_iff_toNat_le] using h
        rcases hle with hle | hle
        · exact List.any_eq_true.2 ⟨(0x41, 0x5a), .tail _ (.head _), by simpa using hle⟩
        · exact List.any_eq_true.2 ⟨(0x61, 0x7a), .tail _ (.tail _ (.head _)), by simpa using hle⟩
      · simp only [Ranges.holds, List.any_cons, Bool.or_eq_true] at h ⊢
        exact Or.inr h
    · decide
  exact holds_of_disjoint (by decide +kernel) hletter

section

variable {c : Char}

theorem isBlank_name (h : (isLetter c || c == '_') = true) : isBlank c = false := by
  have hno := holds_notInitial h
  simp only [notInitial, Ranges.holds, List.any_cons, Bool.or_eq_false_iff] at hno
  exact hno.2.2

theorem isDigit_name (h : (isLetter c || c == '_') = true) : c.isDigit = false := by
  have hno := holds_notInitial h
  simp only [notInitial, Ranges.holds, List.any_cons, Bool.or_eq_false_iff] at hno
  have := hno.2.1
  simp [Char.isDigit, UInt32.le_iff_toNat_le] at this ⊢
  omega

/-- A name does not start with a comment. -/
theorem not_comment_name (h : (isLetter c || c == '_') = true) : c ≠ '/' ∧ c ≠ '#' := by
  have hno := holds_notInitial h
  constructor
  · rintro rfl
    exact absurd hno (by decide)
  · rintro rfl
    exact absurd hno (by decide)

end

end LayoutLR
