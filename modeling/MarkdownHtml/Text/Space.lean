/-
# White space and the small character classes

Texts are lists of characters. Three notions of blank are in use and differ:
`isWhite` is the white space of the Unicode standard and is what trimming and
word splitting go by; `isPad` is space and tab, the blanks that indent and
separate markers; `isAsciiSpace` ends a bare link destination.

Key definitions: `isWhite`, `isPad`, `isPunctuation`, `trimStart`, `trimEnd`,
`trim`, `firstWord?`.
-/

namespace MarkdownHtml
namespace Text

/-- White space of the Unicode standard (`White_Space`). -/
def isWhite (c : Char) : Bool :=
  let n := c.toNat
  (9 ≤ n && n ≤ 13) || n == 32 || n == 0x85 || n == 0xA0 || n == 0x1680 ||
    (0x2000 ≤ n && n ≤ 0x200A) || n == 0x2028 || n == 0x2029 || n == 0x202F || n == 0x205F ||
    n == 0x3000

/-- Space and tab, which indent lines and follow markers. -/
def isPad (c : Char) : Bool := c == ' ' || c == '\t'

/-- Line feed and carriage return. -/
def isLineEnd (c : Char) : Bool := c == '\n' || c == '\r'

/-- ASCII white space: space, tab, line feed, form feed, carriage return. -/
def isAsciiSpace (c : Char) : Bool :=
  c == ' ' || c == '\t' || c == '\n' || c == '\x0c' || c == '\r'

/-- ASCII control characters. -/
def isControl (c : Char) : Bool := c.toNat < 0x20 || c.toNat == 0x7F

/-- ASCII punctuation: the characters a backslash can escape. -/
def isPunctuation (c : Char) : Bool :=
  let n := c.toNat
  (0x21 ≤ n && n ≤ 0x2F) || (0x3A ≤ n && n ≤ 0x40) || (0x5B ≤ n && n ≤ 0x60) ||
    (0x7B ≤ n && n ≤ 0x7E)

/-- Whether `s` is empty or starts with a space or tab, as a text behind a
marker has to. -/
def padOrEnd : List Char → Bool
  | [] => true
  | c :: _ => isPad c

/-- Drops the longest run at the end of `s` whose characters all satisfy `p`. -/
def dropEndWhile (p : Char → Bool) (s : List Char) : List Char :=
  (s.reverse.dropWhile p).reverse

/-- Without the white space in front. -/
def trimStart (s : List Char) : List Char := s.dropWhile isWhite

/-- Without the white space behind. -/
def trimEnd (s : List Char) : List Char := dropEndWhile isWhite s

/-- Without the white space on both sides. -/
def trim (s : List Char) : List Char := trimEnd (trimStart s)

/-- The first run of characters that are not white space, if there is one. -/
def firstWord? (s : List Char) : Option (List Char) :=
  match (trimStart s).takeWhile fun c => !isWhite c with
  | [] => none
  | word => some word

/-- Where the ASCII letters lie. -/
theorem toNat_of_isAlpha {c : Char} (h : c.isAlpha = true) : 0x40 < c.toNat ∧ c.toNat < 0x7F := by
  have hval : c.toNat = c.val.toNat := rfl
  have hcases : (decide (65 ≤ c.val ∧ c.val ≤ 90) ||
      (decide (97 ≤ c.val) && decide (c.val ≤ 122))) = true := h
  simp only [Bool.or_eq_true, Bool.and_eq_true, decide_eq_true_eq, UInt32.le_iff_toNat_le]
    at hcases
  simp at hcases
  omega

theorem toNat_of_isDigit {c : Char} (h : c.isDigit = true) : 0x2F < c.toNat ∧ c.toNat < 0x3A := by
  have hval : c.toNat = c.val.toNat := rfl
  have hboth : (decide (48 ≤ c.val) && decide (c.val ≤ 57)) = true := h
  simp only [Bool.and_eq_true, decide_eq_true_eq, UInt32.le_iff_toNat_le] at hboth
  simp at hboth
  omega

theorem isPad_iff {c : Char} : isPad c = true ↔ c = ' ' ∨ c = '\t' := by
  simp only [isPad, Bool.or_eq_true, beq_iff_eq]

/-- Space and tab are white space. -/
theorem isPad_eq_false {c : Char} (h : isWhite c = false) : isPad c = false := by
  cases hc : isPad c with
  | false => rfl
  | true =>
    rcases isPad_iff.mp hc with rfl | rfl
    · exact absurd h (by decide)
    · exact absurd h (by decide)

/-- What is dropped at the end is a run of characters that satisfy `p`. -/
theorem exists_dropEndWhile_append (p : Char → Bool) (s : List Char) :
    ∃ t, s = dropEndWhile p s ++ t ∧ ∀ c ∈ t, p c = true := by
  refine ⟨(s.reverse.takeWhile p).reverse, ?_, ?_⟩
  · unfold dropEndWhile
    rw [← List.reverse_append, List.takeWhile_append_dropWhile, List.reverse_reverse]
  · intro c hc
    have hm : c ∈ s.reverse.takeWhile p := by simpa using hc
    exact List.all_eq_true.mp List.all_takeWhile c hm

theorem dropEndWhile_eq_self {p : Char → Bool} {s : List Char} (h : ∀ c ∈ s, p c = false) :
    dropEndWhile p s = s := by
  obtain ⟨t, hs, ht⟩ := exists_dropEndWhile_append p s
  cases t with
  | nil => exact (hs.trans (List.append_nil _)).symm
  | cons c t =>
    have hc : c ∈ s := hs ▸ List.mem_append_right _ List.mem_cons_self
    exact absurd (ht c List.mem_cons_self) (by simp [h c hc])

/-- A run of characters that satisfy `p` is dropped behind others. -/
theorem dropEndWhile_append {p : Char → Bool} {s t : List Char} (hs : ∀ c ∈ s, p c = false)
    (ht : ∀ c ∈ t, p c = true) : dropEndWhile p (s ++ t) = s := by
  have hrun : ∀ c ∈ t.reverse, p c = true := fun c hc => ht c (List.mem_reverse.mp hc)
  rw [dropEndWhile, List.reverse_append, List.dropWhile_append_of_pos hrun]
  exact dropEndWhile_eq_self hs

theorem dropEndWhile_sublist (p : Char → Bool) (s : List Char) : (dropEndWhile p s).Sublist s := by
  obtain ⟨t, ht, -⟩ := exists_dropEndWhile_append p s
  have hpart : (dropEndWhile p s).Sublist (dropEndWhile p s ++ t) := List.sublist_append_left _ _
  rwa [← ht] at hpart

theorem trim_sublist (s : List Char) : (trim s).Sublist s :=
  (dropEndWhile_sublist _ _).trans (List.dropWhile_sublist _)

end Text
end MarkdownHtml
