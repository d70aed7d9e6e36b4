import GradleBuild.Text.Ranges
import GradleBuild.Text.Split

/-!
# Blank characters

The blank characters are those with the property White_Space.  `trim` drops them at both ends of a text, `words` gives
the longest runs without one.

* `words_trim`: blanks at the ends make no difference to the words.
* `mem_words`: a word is not empty, and none of its characters is blank.
-/

namespace GradleBuild

namespace Blank

/-- The code points with the property White_Space. -/
def ranges : List (Nat × Nat) := [
  (0x9, 0xD), (0x20, 0x20), (0x85, 0x85), (0xA0, 0xA0), (0x1680, 0x1680), (0x2000, 0x200A), (0x2028, 0x2029),
  (0x202F, 0x202F), (0x205F, 0x205F), (0x3000, 0x3000)]

end Blank

def isBlank (c : Char) : Bool := inRanges Blank.ranges c

/-- A list without its blank characters at either end. -/
def trimChars (cs : List Char) : List Char :=
  ((cs.dropWhile isBlank).reverse.dropWhile isBlank).reverse

def trim (s : String) : String := String.ofList (trimChars s.toList)

/-- Whether a text has blank characters only, or none at all. -/
def isAllBlank (s : String) : Bool := s.toList.all isBlank

/-- The longest runs of characters that are not blank. -/
def words (s : String) : List String :=
  ((pieces isBlank s.toList).filter (· ≠ [])).map String.ofList

private theorem filter_pieces_dropWhile (cs : List Char) :
    (pieces isBlank (cs.dropWhile isBlank)).filter (· ≠ []) = (pieces isBlank cs).filter (· ≠ []) := by
  induction cs with
  | nil => rfl
  | cons c cs ih =>
    by_cases hc : isBlank c = true
    · simpa [List.dropWhile_cons, pieces, hc] using ih
    · rw [List.dropWhile_cons, if_neg hc]

private theorem filter_pieces_dropEnd (cs : List Char) :
    (pieces isBlank (cs.dropWhile isBlank).reverse).filter (· ≠ []) = (pieces isBlank cs.reverse).filter (· ≠ []) := by
  induction cs with
  | nil => rfl
  | cons c cs ih =>
    by_cases hc : isBlank c = true
    · have hlast : (pieces isBlank (cs.reverse ++ [c])).filter (· ≠ []) =
          (pieces isBlank cs.reverse).filter (· ≠ []) := by
        simp [pieces_append_singleton cs.reverse hc]
      rw [List.dropWhile_cons, if_pos hc, List.reverse_cons, hlast, ih]
    · rw [List.dropWhile_cons, if_neg hc]

/-- Blanks at the ends of a text make no difference to its words. -/
theorem words_trim (s : String) : words (trim s) = words s := by
  have hfront := filter_pieces_dropWhile s.toList
  have hend := filter_pieces_dropEnd (s.toList.dropWhile isBlank).reverse
  rw [List.reverse_reverse] at hend
  rw [words, words, trim, String.toList_ofList, trimChars, hend, hfront]

/-- A word is not empty, and none of its characters is blank. -/
theorem mem_words {s w : String} (h : w ∈ words s) : w ≠ "" ∧ ∀ c ∈ w.toList, isBlank c = false := by
  obtain ⟨cs, hcs, rfl⟩ := List.mem_map.1 h
  obtain ⟨hpiece, hne⟩ := List.mem_filter.1 hcs
  rw [String.toList_ofList]
  refine ⟨fun hempty => ?_, not_sep_of_mem_pieces hpiece⟩
  have hnil : cs = [] := by
    rw [← String.toList_ofList (l := cs), hempty]
    rfl
  simp [hnil] at hne

theorem any_isAllBlank_words (s : String) : (words s).any isAllBlank = false := by
  rw [List.any_eq_false]
  intro w hw
  obtain ⟨hne, hblank⟩ := mem_words hw
  obtain ⟨c, hc⟩ := List.exists_mem_of_ne_nil w.toList (by simpa using hne)
  rw [isAllBlank, Bool.not_eq_true, List.all_eq_false]
  exact ⟨c, hc, by simp [hblank c hc]⟩

end GradleBuild
