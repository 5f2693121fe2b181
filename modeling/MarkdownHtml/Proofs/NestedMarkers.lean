/-
# Markers one behind the other

Several markers may start one line, and each but the last opens an item whose text is the next
marker. A marker is written as a sign, which is a bullet or a number, and spaces behind it
(`Marker.Written`), and is read back in front of any text that does not start with a blank
(`Marker.read?_written`). What stands behind the markers here is a word of letters, so no part
of the line is a rule.

A marker stands in the column where the text of the one before starts. Placing it therefore
closes no level, and its item is one deeper (`Builder.finish_openItem`). The limit is looked at
for every item before it opens, so that a line is refused just if it has more markers than the
limit admits levels (`Document.parse_markers`).

Key definitions: `Marker.Sign`, `Marker.Written`, `Marker.nested`.
Key theorems: `Marker.number_digits`, `Marker.read?_written`, `Builder.innerMarker?_line`,
`Builder.finish_openItem`, `Document.parse_markers`.
-/
import MarkdownHtml.Proofs.ListColumns
import MarkdownHtml.Proofs.PlainText

namespace MarkdownHtml

theorem Text.isWhite_eq_false {c : Char} (h : 0x20 < c.toNat) (h' : c.toNat < 0x7F) :
    isWhite c = false := by
  unfold isWhite
  simp
  omega

theorem Text.isWhite_of_isAlpha {c : Char} (h : c.isAlpha = true) : isWhite c = false := by
  have hbounds := toNat_of_isAlpha h
  exact isWhite_eq_false (by omega) hbounds.2

theorem Text.isLineEnd_eq_false {c : Char} (h : 0x20 ≤ c.toNat) : isLineEnd c = false := by
  have hfeed : c ≠ '\n' := by
    rintro rfl
    exact absurd h (by decide)
  have hreturn : c ≠ '\r' := by
    rintro rfl
    exact absurd h (by decide)
  simp [isLineEnd, hfeed, hreturn]

/-! ### Written markers -/

namespace Marker

/-- What a marker starts with: a bullet, or one to nine digits and a delimiter. -/
inductive Sign where
  | bullet (mark : Char) (known : mark ∈ ['-', '*', '+'])
  | ordered (digits : List (Fin 10)) (delimiter : Char) (ne_nil : digits ≠ [])
    (short : digits.length ≤ 9) (known : delimiter ∈ ['.', ')'])

/-- The character of a digit. -/
def digit (d : Fin 10) : Char := Nat.digitChar d

/-- The characters of a sign. -/
def Sign.text : Sign → List Char
  | .bullet mark _ => [mark]
  | .ordered digits delimiter .. => digits.map digit ++ [delimiter]

/-- The list that a sign stands for. -/
def Sign.list : Sign → ListKind
  | .bullet mark _ => .bullet mark
  | .ordered digits delimiter .. =>
    .ordered (Nat.ofDigits 10 (digits.map Fin.val).reverse) delimiter

/-- A marker as it is written: its sign and one or more spaces. -/
structure Written where
  sign : Sign
  spaces : Nat
  spaced : 0 < spaces

namespace Written

/-- The characters of a marker. -/
def text (m : Written) : List Char := m.sign.text ++ List.replicate m.spaces ' '

/-- A word behind markers. -/
def line (ms : List Written) (word : List Char) : List Char := ms.flatMap text ++ word

@[simp] theorem line_nil (word : List Char) : line [] word = word := rfl

theorem line_cons (m : Written) (ms : List Written) (word : List Char) :
    line (m :: ms) word = m.text ++ line ms word := by
  rw [line, List.flatMap_cons, List.append_assoc]
  rfl

end Written

/-- The items of markers one behind the other, the first of them at `depth`: only the last has a
text. -/
def nested (depth : Nat) (word : String) (ms : List Written) : List Block :=
  ms.mapIdx fun i m =>
    .item m.sign.list (depth + i) (if i + 1 = ms.length then [.text word] else [])

theorem nested_cons (depth : Nat) (word : String) (m : Written) {ms : List Written}
    (h : ms ≠ []) :
    nested depth word (m :: ms) = .item m.sign.list depth [] :: nested (depth + 1) word ms := by
  have hlength : 0 + 1 ≠ (m :: ms).length := by
    have hpos := List.length_pos_of_ne_nil h
    rw [List.length_cons]
    omega
  have hlast : ∀ i, (i + 1 + 1 = (m :: ms).length) = (i + 1 = ms.length) := by simp
  unfold nested
  rw [List.mapIdx_cons, if_neg hlength]
  simp only [hlast, Nat.add_zero, Nat.add_assoc depth, Nat.add_comm 1]

/-! ### Reading a marker back -/

theorem isDigit_digit (d : Fin 10) : (digit d).isDigit = true := by
  decide +revert

theorem toNat_digit (d : Fin 10) : (digit d).toNat - '0'.toNat = d := by
  decide +revert

/-- The number of a sign is the value of its digits. -/
theorem number_digits (digits : List (Fin 10)) :
    number (digits.map digit) =
      Nat.ofDigits 10 (digits.map Fin.val).reverse := by
  unfold number
  rw [Nat.ofDigits_eq_foldr, List.foldr_reverse, List.foldl_map, List.foldl_map]
  simp only [toNat_digit, Nat.cast_id, Nat.add_comm]

/-- A sign starts with a bullet or a digit. -/
theorem Sign.exists_head (sign : Sign) :
    ∃ c rest, sign.text = c :: rest ∧ (c ∈ ['-', '*', '+'] ∨ c.isDigit = true) := by
  cases sign with
  | bullet mark known => exact ⟨mark, [], rfl, .inl known⟩
  | ordered digits delimiter ne_nil short known =>
    obtain ⟨d, digits, rfl⟩ := List.exists_cons_of_ne_nil ne_nil
    exact ⟨digit d, _, rfl, .inr (isDigit_digit d)⟩

/-- No sign holds a line end. -/
theorem Sign.isLineEnd (sign : Sign) : ∀ c ∈ sign.text, Text.isLineEnd c = false := by
  intro c hc
  cases sign with
  | bullet mark known =>
    obtain rfl := List.mem_singleton.mp hc
    simp only [List.mem_cons, List.not_mem_nil, or_false] at known
    rcases known with rfl | rfl | rfl <;> rfl
  | ordered digits delimiter ne_nil short known =>
    rcases List.mem_append.mp hc with hc | hc
    · obtain ⟨d, -, rfl⟩ := List.mem_map.mp hc
      have hbounds := Text.toNat_of_isDigit (isDigit_digit d)
      exact Text.isLineEnd_eq_false (by omega)
    · obtain rfl := List.mem_singleton.mp hc
      simp only [List.mem_cons, List.not_mem_nil, or_false] at known
      rcases known with rfl | rfl <;> rfl

/-- Spaces behind a sign end with what is no blank. -/
theorem close?_spaces (list : ListKind) (size : Nat) {spaces : Nat} (h : 0 < spaces)
    {rest : List Char} (hrest : ∀ c ∈ rest.head?, Text.isPad c = false) :
    close? list size (List.replicate spaces ' ' ++ rest) = some ⟨list, size + spaces, rest⟩ := by
  have hpads : ∀ c ∈ List.replicate spaces ' ', Text.isPad c = true := by
    intro c hc
    rw [List.eq_of_mem_replicate hc]
    rfl
  have hstops : rest.takeWhile Text.isPad = [] ∧ rest.dropWhile Text.isPad = rest := by
    cases rest with
    | nil => exact ⟨rfl, rfl⟩
    | cons c rest =>
      have hc := hrest c rfl
      exact ⟨List.takeWhile_cons_of_neg (by simp [hc]), List.dropWhile_cons_of_neg (by simp [hc])⟩
  have hblank : Text.padOrEnd (List.replicate spaces ' ' ++ rest) = true := by
    obtain ⟨n, rfl⟩ : ∃ n, spaces = n + 1 := ⟨spaces - 1, by omega⟩
    rfl
  rw [close?, if_pos hblank, List.takeWhile_append_of_pos hpads, List.dropWhile_append_of_pos hpads,
    hstops.1, hstops.2, List.append_nil, List.length_replicate]

/-- Digits and a delimiter, with anything behind them. -/
theorem readOrdered?_digits {digits : List (Fin 10)} {delimiter : Char} (ne_nil : digits ≠ [])
    (short : digits.length ≤ 9) (known : delimiter ∈ ['.', ')']) (behind : List Char) :
    readOrdered? (digits.map digit ++ delimiter :: behind) =
      close? (.ordered (number (digits.map digit)) delimiter) (digits.length + 1) behind := by
  have hdigits : ∀ c ∈ digits.map digit, c.isDigit = true := by
    intro c hc
    obtain ⟨d, -, rfl⟩ := List.mem_map.mp hc
    exact isDigit_digit d
  have hdelimiter : delimiter.isDigit = false ∧ (delimiter == '.' || delimiter == ')') = true := by
    simp only [List.mem_cons, List.not_mem_nil, or_false] at known
    rcases known with rfl | rfl
    · exact ⟨rfl, rfl⟩
    · exact ⟨rfl, rfl⟩
  have hcount : ((digits.map digit).isEmpty || decide (9 < digits.length)) = false := by
    simp [ne_nil, short]
  have htake : (digits.map digit ++ delimiter :: behind).takeWhile Char.isDigit =
      digits.map digit := by
    rw [List.takeWhile_append_of_pos hdigits, List.takeWhile_cons_of_neg (by simp [hdelimiter.1]),
      List.append_nil]
  have hdrop : (digits.map digit ++ delimiter :: behind).dropWhile Char.isDigit =
      delimiter :: behind := by
    rw [List.dropWhile_append_of_pos hdigits, List.dropWhile_cons_of_neg (by simp [hdelimiter.1])]
  unfold readOrdered?
  simp only [htake, hdrop, List.length_map, hcount, hdelimiter.2, if_true, Bool.false_eq_true,
    if_false]

/-- A digit is no bullet. -/
theorem readBullet?_digit (d : Fin 10) (behind : List Char) :
    readBullet? (digit d :: behind) = none := by
  have hnone : (digit d == '-' || digit d == '*' || digit d == '+') = false := by
    decide +revert
  rw [readBullet?, if_neg (by simp [hnone])]

/-- A sign is read back if a marker can end behind it. -/
theorem read?_sign (sign : Sign) {behind : List Char} {marker : Marker}
    (h : close? sign.list sign.text.length behind = some marker) :
    read? (sign.text ++ behind) = some marker := by
  cases sign with
  | bullet mark known =>
    have hmark : (mark == '-' || mark == '*' || mark == '+') = true := by
      simpa [or_assoc] using known
    have hclose : close? (.bullet mark) 1 behind = some marker := h
    rw [read?, Sign.text, List.singleton_append, readBullet?, if_pos hmark, hclose, Option.some_or]
  | ordered digits delimiter ne_nil short known =>
    have hclose : close? (.ordered (number (digits.map digit)) delimiter) (digits.length + 1)
        behind = some marker := by
      rw [number_digits, ← h, Sign.text, List.length_append, List.length_map]
      rfl
    have hbullet : readBullet? (digits.map digit ++ delimiter :: behind) = none := by
      obtain ⟨d, more, rfl⟩ := List.exists_cons_of_ne_nil ne_nil
      exact readBullet?_digit d _
    rw [read?, Sign.text, List.append_assoc, List.singleton_append, hbullet, Option.none_or,
      readOrdered?_digits ne_nil short known, hclose]

/-- **A marker is read back.** -/
theorem read?_written (m : Written) {rest : List Char}
    (hrest : ∀ c ∈ rest.head?, Text.isPad c = false) :
    read? (m.text ++ rest) = some ⟨m.sign.list, m.text.length, rest⟩ := by
  have hwidth : m.text.length = m.sign.text.length + m.spaces := by
    rw [Written.text, List.length_append, List.length_replicate]
  rw [hwidth, Written.text, List.append_assoc]
  exact read?_sign m.sign (close?_spaces m.sign.list m.sign.text.length m.spaced hrest)

end Marker

/-! ### A word behind markers -/

/-- A word of letters. -/
structure Text.IsWord (word : List Char) : Prop where
  ne_nil : word ≠ []
  letters : ∀ c ∈ word, c.isAlpha = true

namespace Text.IsWord

variable {word : List Char}

theorem isWhite (h : IsWord word) : ∀ c ∈ word, Text.isWhite c = false :=
  fun c hc => isWhite_of_isAlpha (h.letters c hc)

/-- A word holds no character that marks something or ends a line. -/
theorem clear (h : IsWord word) : ∀ c ∈ word, c ∉ Text.markers ∧ c ≠ '\n' := by
  intro c hc
  have hletter := h.letters c hc
  have hall : (Text.markers ++ ['\n']).all fun d => !d.isAlpha := by decide
  have hne : ∀ d ∈ Text.markers ++ ['\n'], c ≠ d := by
    rintro d hd rfl
    have hd := List.all_eq_true.mp hall c hd
    rw [hletter] at hd
    exact absurd hd (by decide)
  exact ⟨fun hmark => hne c (List.mem_append_left _ hmark) rfl, hne '\n' (by simp)⟩

/-- A word is one text node. -/
theorem parse_joinLines (h : IsWord word) (limits : Limits) :
    Inline.parse limits (joinLines [word]) = .ok [.text (String.ofList word)] := by
  have hjoin : joinLines [word] = word :=
    joinLines_singleton (fun c hc => h.isWhite c (List.mem_of_mem_head? hc))
      fun c hc => h.isWhite c (List.mem_of_getLast? hc)
  rw [hjoin]
  exact Inline.parse_unmarked (Text.unmarked_of_clear h.clear) h.ne_nil limits

/-- A word starts no item. -/
theorem read?_eq_none (h : IsWord word) : Marker.read? word = none := by
  obtain ⟨c, rest, rfl⟩ := List.exists_cons_of_ne_nil h.ne_nil
  have hletter := h.letters c List.mem_cons_self
  have hdigit : c.isDigit = false := by
    by_contra hc
    have hdigit := toNat_of_isDigit (Bool.of_not_eq_false hc)
    have hbounds := toNat_of_isAlpha hletter
    omega
  have hbullet : (c == '-' || c == '*' || c == '+') = false := by
    by_contra hc
    simp only [Bool.not_eq_false, Bool.or_eq_true, beq_iff_eq] at hc
    rcases hc with (rfl | rfl) | rfl <;> exact absurd hletter (by decide)
  simp [Marker.read?, Marker.readBullet?, Marker.readOrdered?, hbullet, hdigit]

end Text.IsWord

/-- A text with a letter is no rule. -/
theorem Line.isRule_of_isAlpha {s : List Char} {c : Char} (hc : c ∈ s) (h : c.isAlpha = true) :
    Line.isRule s = false := by
  have hpad : Text.isPad c = false := Text.isPad_eq_false (Text.isWhite_of_isAlpha h)
  have hmem : c ∈ s.filter fun d => !Text.isPad d := List.mem_filter.mpr ⟨hc, by simp [hpad]⟩
  unfold Line.isRule
  split
  · rfl
  · rename_i d rest hfilter
    rw [hfilter] at hmem
    by_contra hrule
    simp only [Bool.not_eq_false, Bool.and_eq_true, List.all_eq_true, beq_iff_eq] at hrule
    have hsame : c = d := by
      rcases List.mem_cons.mp hmem with hhead | htail
      · exact hhead
      · exact hrule.1.2 c htail
    have hchar := hrule.1.1
    rw [← hsame] at hchar
    simp only [Line.isRuleChar, Bool.or_eq_true, beq_iff_eq] at hchar
    rcases hchar with (rfl | rfl) | rfl <;> exact absurd h (by decide)

namespace Marker.Written

variable {word : List Char}

/-- A word behind markers starts with a letter, a bullet or a digit. -/
theorem exists_head_line (ms : List Written) (hword : Text.IsWord word) :
    ∃ c rest, line ms word = c :: rest ∧
      (c ∈ ['-', '*', '+'] ∨ c.isDigit = true ∨ c.isAlpha = true) := by
  cases ms with
  | nil =>
    obtain ⟨c, rest, rfl⟩ := List.exists_cons_of_ne_nil hword.ne_nil
    exact ⟨c, rest, rfl, .inr (.inr (hword.letters c List.mem_cons_self))⟩
  | cons m ms =>
    obtain ⟨c, rest, htext, hc⟩ := m.sign.exists_head
    refine ⟨c, rest ++ List.replicate m.spaces ' ' ++ line ms word, ?_, hc.imp_right .inl⟩
    rw [line_cons, text, htext]
    rfl

/-- Such a line starts with no white space. -/
theorem isWhite_of_head {c : Char}
    (h : c ∈ ['-', '*', '+'] ∨ c.isDigit = true ∨ c.isAlpha = true) : Text.isWhite c = false := by
  rcases h with hbullet | hdigit | hletter
  · simp only [List.mem_cons, List.not_mem_nil, or_false] at hbullet
    rcases hbullet with rfl | rfl | rfl <;> rfl
  · have hbounds := Text.toNat_of_isDigit hdigit
    exact Text.isWhite_eq_false (by omega) (by omega)
  · exact Text.isWhite_of_isAlpha hletter

theorem isPad_head?_line (ms : List Written) (hword : Text.IsWord word) :
    ∀ c ∈ (line ms word).head?, Text.isPad c = false := by
  obtain ⟨c, rest, hline, hc⟩ := exists_head_line ms hword
  rw [hline]
  rintro d ⟨⟩
  exact Text.isPad_eq_false (isWhite_of_head hc)

theorem isRule_line (ms : List Written) (hword : Text.IsWord word) :
    Line.isRule (line ms word) = false := by
  obtain ⟨c, rest, rfl⟩ := List.exists_cons_of_ne_nil hword.ne_nil
  exact Line.isRule_of_isAlpha (List.mem_append_right _ List.mem_cons_self)
    (hword.letters c List.mem_cons_self)

/-- Such a line is one line. -/
theorem texts_line (ms : List Written) (hword : Text.IsWord word) :
    LineReader.texts (line ms word) = [line ms word] := by
  have hends : ∀ c ∈ line ms word, Text.isLineEnd c = false := by
    intro c hc
    rcases List.mem_append.mp hc with hc | hc
    · obtain ⟨m, -, hc⟩ := List.mem_flatMap.mp hc
      rcases List.mem_append.mp hc with hc | hc
      · exact m.sign.isLineEnd c hc
      · rw [List.eq_of_mem_replicate hc]
        rfl
    · have hbounds := Text.toNat_of_isAlpha (hword.letters c hc)
      exact Text.isLineEnd_eq_false (by omega)
  obtain ⟨c, rest, hline, -⟩ := exists_head_line ms hword
  exact LineReader.texts_word (by rw [hline]; exact List.cons_ne_nil c rest) hends

theorem read?_line (m : Written) (ms : List Written) (hword : Text.IsWord word) :
    Marker.read? (line (m :: ms) word) = some ⟨m.sign.list, m.text.length, line ms word⟩ := by
  rw [line_cons]
  exact read?_written m (isPad_head?_line ms hword)

/-- A line of markers and a word is a list item, whatever else its markers might start. -/
theorem classify_line (number : Nat) (m : Written) (ms : List Written) (hword : Text.IsWord word) :
    Line.classify number (line (m :: ms) word) =
      ⟨number, line (m :: ms) word, 0, 0,
        .marker ⟨m.sign.list, m.text.length, line ms word⟩⟩ := by
  have hread := read?_line m ms hword
  have hrule := isRule_line (m :: ms) hword
  obtain ⟨c, rest, hline, hc⟩ := exists_head_line (m :: ms) hword
  rw [hline] at hread hrule ⊢
  have hother : ∀ d ∈ ['>', '#', '~', '\x60'], c ≠ d := by
    rintro d hd rfl
    simp only [List.mem_cons, List.not_mem_nil, or_false] at hd
    rcases hd with rfl | rfl | rfl | rfl <;> exact absurd hc (by decide)
  have hfence : Fence.read? (c :: rest) = none := by
    cases hfence : Fence.read? (c :: rest) with
    | none => rfl
    | some fence =>
      have hchar : c = fence.kind.char := Option.some.inj (Fence.head?_of_read? hfence)
      refine absurd hchar (hother _ ?_)
      cases fence.kind <;> decide
  have hheading : Heading.read? (c :: rest) = none := by
    have hhash : c ≠ '#' := hother '#' (by decide)
    simp [Heading.read?, hhash]
  rw [Line.classify_eq_kindOfText number (isWhite_of_head hc) (hother '>' (by decide)),
    Line.kindOfText, hfence, hheading, hrule, hread]
  rfl

end Marker.Written

/-! ### Items one inside the other -/

/-- A marker that does not stand to the left of the innermost text closes no level. -/
theorem ListStack.placing_of_le {levels : ListStack} {indent : Nat}
    (h : ∀ top ∈ levels.head?, top.content ≤ indent) (width : Nat) :
    levels.placing indent width = (levels.length, ⟨indent, indent + width⟩ :: levels) := by
  have hunwind : levels.unwind indent = levels := by
    cases levels with
    | nil => rfl
    | cons top levels => rw [ListStack.unwind, if_pos (h top rfl)]
  rw [ListStack.placing, ListStack.place, hunwind]

namespace Builder

theorem pushAll_singleton (line : Line) (b : Builder) : b.pushAll [line] = b.push line := by
  rw [pushAll]
  split
  · rename_i hpush
    rw [hpush]
    rfl
  · rfl

open Marker (Written nested)
open Marker.Written (line)

variable {word : List Char}

theorem innerMarker?_line (m : Written) (ms : List Written) (hword : Text.IsWord word) :
    innerMarker? (line (m :: ms) word) = some ⟨m.sign.list, m.text.length, line ms word⟩ := by
  rw [innerMarker?, Marker.Written.isRule_line (m :: ms) hword]
  exact Marker.Written.read?_line m ms hword

theorem innerMarker?_word (hword : Text.IsWord word) : innerMarker? word = none := by
  unfold innerMarker?
  rw [hword.read?_eq_none]
  exact ite_self none

/-- An item whose text is a word. -/
theorem finish_item (hword : Text.IsWord word) {b : Builder} {list : ListKind} {depth : Nat}
    (h : b.leaf = .item list depth [word]) :
    b.finish.failure = none ∧
      b.finish.builder.path = b.path.push (.item list depth [.text (String.ofList word)]) := by
  have hnodes : (Inline.read b.limits (joinLines [word])).nodes =
      .ok [.text (String.ofList word)] := hword.parse_joinLines b.limits
  simp only [finish, flush, h, List.reverse_singleton, readInline, hnodes]
  exact ⟨rfl, rfl⟩

/-- **Markers one behind the other.** Every marker opens an item one level deeper, until the
word is the text of the last, or the limit is met. -/
theorem finish_openItem (hword : Text.IsWord word) (m : Written) (ms : List Written)
    {fuel indent : Nat} (hfuel : (line ms word).length < fuel) {b : Builder}
    (hlists : ∀ top ∈ b.lists.head?, top.content ≤ indent) {a : Attempt}
    (ha : a = (b.openItem fuel indent ⟨m.sign.list, m.text.length, line ms word⟩).andThen finish) :
    (b.lists.length + (m :: ms).length ≤ b.limits.maxNesting →
      a.failure = none ∧ a.builder.path = { b.path with
        inner := (nested b.lists.length (String.ofList word) (m :: ms)).reverse ++
          b.path.inner }) ∧
    (b.limits.maxNesting < b.lists.length + (m :: ms).length →
      a.failure = some b.limits.nestingError) := by
  induction ms generalizing m fuel indent b with
  | nil =>
    obtain ⟨fuel, rfl⟩ : ∃ n, fuel = n + 1 := ⟨fuel - 1, by omega⟩
    rw [openItem_succ (ListStack.placing_of_le hlists _), Marker.Written.line_nil,
      innerMarker?_word hword] at ha
    rw [List.length_singleton]
    by_cases hdeep : b.limits.maxNesting ≤ b.lists.length
    · rw [if_pos hdeep] at ha
      subst ha
      exact ⟨fun hle => by omega, fun _ => rfl⟩
    · rw [if_neg hdeep] at ha
      subst ha
      exact ⟨fun _ => finish_item hword rfl, fun hlt => by omega⟩
  | cons next ms ih =>
    obtain ⟨fuel, rfl⟩ : ∃ n, fuel = n + 1 := ⟨fuel - 1, by omega⟩
    rw [openItem_succ (ListStack.placing_of_le hlists _),
      innerMarker?_line next ms hword] at ha
    by_cases hdeep : b.limits.maxNesting ≤ b.lists.length
    · rw [if_pos hdeep] at ha
      subst ha
      refine ⟨fun hle => ?_, fun _ => rfl⟩
      rw [List.length_cons] at hle
      omega
    · rw [if_neg hdeep] at ha
      have hshort := Marker.length_content_lt (Marker.Written.read?_line next ms hword)
      -- the next marker starts where the text of this one does
      have hrest := ih next (Nat.lt_of_lt_of_le hshort (Nat.le_of_lt_succ hfuel))
        (by rintro top ⟨⟩; exact Nat.le_refl _) ha
      have hlength : b.lists.length + (m :: next :: ms).length =
          b.lists.length + 1 + (next :: ms).length := by
        rw [List.length_cons]
        omega
      rw [hlength, Marker.nested_cons _ _ m (List.cons_ne_nil next ms), List.reverse_cons,
        List.append_assoc]
      exact hrest

end Builder

/-! ### The line as a document -/

open Marker

/-- **Markers on one line nest.** One or more markers and a word are as many items, each one
level deeper than the one before and of the list its marker tells, with the word as the text of
the last. They are refused if they are more than the limit on nesting admits. -/
theorem Document.parse_markers {limits : Limits} {ms : List Written} {word : String}
    (hne : ms ≠ []) (hword : Text.IsWord word.toList)
    (hsize : (String.ofList (Written.line ms word.toList)).utf8ByteSize ≤ limits.maxInputBytes) :
    (ms.length ≤ limits.maxNesting →
      Document.parse limits (String.ofList (Written.line ms word.toList)) =
        .ok (ms.mapIdx fun i m =>
          .item m.sign.list i (if i + 1 = ms.length then [.text word] else []))) ∧
    (limits.maxNesting < ms.length →
      Document.parse limits (String.ofList (Written.line ms word.toList)) =
        .error (.tooDeep limits.maxNesting)) := by
  obtain ⟨m, more, rfl⟩ := List.exists_cons_of_ne_nil hne
  have htext : (String.ofList (Written.line (m :: more) word.toList)).toList =
      Written.line (m :: more) word.toList := String.toList_ofList
  have hlines : Line.ofText (Written.line (m :: more) word.toList) =
      [Line.classify 1 (Written.line (m :: more) word.toList)] := by
    rw [Line.ofText_eq, Written.texts_line _ hword]
    rfl
  have hpush : Builder.push (Line.classify 1 (Written.line (m :: more) word.toList)) { limits } =
      Builder.openItem ((Written.line more word.toList).length + 1) 0
        ⟨m.sign.list, m.text.length, Written.line more word.toList⟩ { limits } := by
    rw [Written.classify_line 1 m more hword]
    rfl
  obtain ⟨hfits, hdeep⟩ := Builder.finish_openItem (b := { limits }) hword m more
    (Nat.lt_succ_self _) (by simp) rfl
  have hparse := Document.parse_eq hsize
  rw [htext, hlines, Builder.pushAll_singleton, hpush] at hparse
  rw [hparse]
  simp only [List.length_nil, Nat.zero_add] at hfits hdeep
  refine ⟨fun hle => ?_, fun hlt => Attempt.result_of_error (hdeep hlt)⟩
  obtain ⟨hok, hpath⟩ := hfits hle
  have hblocks : nested 0 word (m :: more) = (m :: more).mapIdx fun i m' =>
      Block.item m'.sign.list i (if i + 1 = (m :: more).length then [.text word] else []) := by
    simp only [nested, Nat.zero_add]
  rw [Attempt.result_of_ok hok, Builder.blocks, hpath, ← hblocks, String.ofList_toList,
    List.append_nil]
  exact congrArg Except.ok (List.reverse_reverse _)

/-- A number with leading zeros between two bullets, admitted by a limit of three levels and not
by one of two. -/
theorem Document.parse_markers_mixed :
    Document.parse { maxNesting := 3 } "- 007)  * ab" =
        .ok [.item (.bullet '-') 0 [], .item (.ordered 7 ')') 1 [],
          .item (.bullet '*') 2 [.text "ab"]] ∧
      Document.parse { maxNesting := 2 } "- 007)  * ab" = .error (.tooDeep 2) := by
  have hword : Text.IsWord "ab".toList := ⟨by decide, by simp⟩
  have hline : String.ofList (Written.line [⟨.bullet '-' (by decide), 1, by decide⟩,
      ⟨.ordered [0, 0, 7] ')' (by decide) (by decide) (by decide), 2, by decide⟩,
      ⟨.bullet '*' (by decide), 1, by decide⟩] "ab".toList) = "- 007)  * ab" := by decide
  have hsize : "- 007)  * ab".utf8ByteSize ≤ 1048576 := by decide
  rw [← hline] at hsize ⊢
  have hfits := (@Document.parse_markers { maxNesting := 3 } _ _ (by simp) hword hsize).1
    (by decide)
  have hdeep := (@Document.parse_markers { maxNesting := 2 } _ _ (by simp) hword hsize).2
    (by decide)
  refine ⟨?_, hdeep⟩
  rw [hfits]
  simp [Sign.list, Nat.ofDigits_cons]

end MarkdownHtml
