/-
# Cutting into lines loses nothing

A text is its lines put together again, each with its end behind it: a line feed, a carriage
return, or the two together. Only the last line may lack its end, and then it is not empty
(`Line.Cut`). A carriage return in front of a line feed is never an end of its own, so there is
one such cut only, and the lines that are read are the lines of it (`Line.cut_toList`).

A document is read from its lines, and how they end is not asked again. Other line ends in
place of those of a text (`Text.withEnds`) leave a cut into the same lines (`Line.Cut.withEnds`),
so the document is the same.

Key definitions: `LineEnd`, `Line.Cut`, `Text.withEnds`.
Key theorems: `LineReader.toList_of_next?`, `Line.cut_toList`, `Line.Cut.texts_eq`,
`Line.Cut.withEnds`, `Document.parse_withEnds`.
-/
import MarkdownHtml.Proofs.LiteralText

namespace MarkdownHtml

/-- How a line ends. -/
inductive LineEnd where
  | feed
  | carriage
  /-- A carriage return and a line feed. -/
  | pair
deriving Repr, DecidableEq

/-- The characters of a line end. -/
def LineEnd.text : LineEnd → List Char
  | .feed => ['\n']
  | .carriage => ['\r']
  | .pair => ['\r', '\n']

/-- In front of `rest` the end is one as a whole: a carriage return is none in front of a line
feed, with which it goes together. -/
def LineEnd.Whole (e : LineEnd) (rest : List Char) : Prop :=
  e = .carriage → rest.head? ≠ some '\n'

/-- The text with `e` in place of every line end. -/
def Text.withEnds (e : LineEnd) : List Char → List Char
  | [] => []
  | '\r' :: '\n' :: rest => e.text ++ withEnds e rest
  | c :: rest => if isLineEnd c then e.text ++ withEnds e rest else c :: withEnds e rest

/-- `Cut n s lines`: the text `s` is made of `lines`, which are numbered from `n + 1` on. No line
holds a line end. Behind each stands one, except that the last may have none if it is not
empty. -/
inductive Line.Cut : Nat → List Char → List Line → Prop where
  | nil (n : Nat) : Cut n [] []
  | last {n : Nat} {line : Line} (number : line.number = n + 1)
      (clear : ∀ c ∈ line.raw, c ≠ '\r' ∧ c ≠ '\n') (ne_nil : line.raw ≠ []) :
      Cut n line.raw [line]
  | cons {n : Nat} {line : Line} {rest : List Char} {lines : List Line} (e : LineEnd)
      (number : line.number = n + 1) (clear : ∀ c ∈ line.raw, c ≠ '\r' ∧ c ≠ '\n')
      (whole : e.Whole rest) (cut : Cut (n + 1) rest lines) :
      Cut n (line.raw ++ e.text ++ rest) (line :: lines)

theorem Text.isLineEnd_eq_false_iff {c : Char} : isLineEnd c = false ↔ c ≠ '\r' ∧ c ≠ '\n' := by
  simp [isLineEnd, and_comm]

/-! ### One line in front of a rest -/

namespace LineReader

/-- A line with its end in front of any text. -/
theorem texts_end {word rest : List Char} {e : LineEnd} (he : e.Whole rest)
    (h : ∀ c ∈ word, Text.isLineEnd c = false) :
    texts (word ++ e.text ++ rest) = word :: texts rest := by
  have hdone : split [] [word] rest = word :: texts rest := split_append_done [] [] [word] rest
  cases e with
  | feed =>
    rw [LineEnd.text, List.append_assoc, List.singleton_append]
    exact texts_line h rest
  | carriage =>
    have hreturn : split word.reverse [] ('\r' :: rest) = split [] [word] rest := by
      rw [split, if_pos (by decide), List.reverse_reverse]
      rintro rest' - rfl
      exact he rfl rfl
    rw [LineEnd.text, List.append_assoc, List.singleton_append, texts, split_append_clear h,
      List.append_nil, hreturn, hdone]
  | pair =>
    have hpair : texts (word ++ LineEnd.pair.text ++ rest) =
        split word.reverse [] ('\r' :: '\n' :: rest) := by
      rw [texts, List.append_assoc, split_append_clear h, List.append_nil]
      rfl
    rw [hpair, split_return_feed, List.reverse_reverse, hdone]

/-- A text ends with its first line, or goes on behind the end of it. -/
theorem exists_end (s : List Char) :
    firstLine s = s ∧ afterLine s = [] ∨
      ∃ e : LineEnd, e.Whole (afterLine s) ∧ firstLine s ++ e.text ++ afterLine s = s := by
  have hcut : firstLine s ++ s.dropWhile (fun c => !Text.isLineEnd c) = s :=
    List.takeWhile_append_dropWhile
  unfold afterLine
  cases hrest : s.dropWhile (fun c => !Text.isLineEnd c) with
  | nil =>
    rw [hrest, List.append_nil] at hcut
    exact .inl ⟨hcut, rfl⟩
  | cons c rest =>
    rw [hrest] at hcut
    have hc : Text.isLineEnd c = true := by
      have hhead := List.head?_dropWhile_not (fun c => !Text.isLineEnd c) s
      rw [hrest] at hhead
      simpa using hhead
    refine .inr ?_
    have hkind : c = '\n' ∨ c = '\r' := by simpa [Text.isLineEnd] using hc
    rcases hkind with rfl | rfl
    · refine ⟨.feed, by simp [LineEnd.Whole], ?_⟩
      rw [List.append_assoc]
      exact hcut
    · cases rest with
      | nil =>
        refine ⟨.carriage, by simp [LineEnd.Whole, dropLineEnd], ?_⟩
        rw [List.append_assoc]
        exact hcut
      | cons d rest =>
        by_cases hd : d = '\n'
        · subst hd
          refine ⟨.pair, by simp [LineEnd.Whole], ?_⟩
          rw [List.append_assoc]
          exact hcut
        · have hdrop : dropLineEnd ('\r' :: d :: rest) = d :: rest := by
            rw [dropLineEnd]
            rintro rest' - heq
            exact hd (List.cons.inj heq).1
          rw [hdrop]
          refine ⟨.carriage, fun _ hhead => hd (Option.some.inj hhead), ?_⟩
          rw [List.append_assoc]
          exact hcut

theorem isLineEnd_firstLine (s : List Char) : ∀ c ∈ firstLine s, Text.isLineEnd c = false := by
  intro c hc
  have hall := List.all_eq_true.mp (List.all_takeWhile (p := fun c => !Text.isLineEnd c)) c hc
  simpa using hall

/-- The lines of a text are the first of them and those of the text behind it. -/
theorem texts_of_ne_nil {s : List Char} (h : s ≠ []) :
    texts s = firstLine s :: texts (afterLine s) := by
  have hclear := isLineEnd_firstLine s
  rcases exists_end s with ⟨hfirst, hafter⟩ | ⟨e, hwhole, hcut⟩
  · rw [hafter]
    rw [hfirst] at hclear ⊢
    exact texts_word h hclear
  · have hline := texts_end hwhole hclear
    rwa [hcut] at hline

/-- **Reading line by line** gives the same lines as cutting all of the text. -/
theorem toList_of_next? {r next : LineReader} {line : Line} (h : r.next? = some (line, next)) :
    r.toList = line :: next.toList := by
  unfold next? at h
  split_ifs at h with hempty
  obtain ⟨rfl, rfl⟩ := Prod.mk.inj (Option.some.inj h)
  have htexts := texts_of_ne_nil (mt List.isEmpty_iff.mpr hempty)
  unfold texts at htexts
  have hnumber : ∀ i, r.number + (i + 1) + 1 = r.number + 1 + i + 1 := by omega
  rw [toList, htexts, List.mapIdx_cons, toList]
  simp only [hnumber, Nat.add_zero]

theorem length_afterLine_lt {s : List Char} (h : s ≠ []) : (afterLine s).length < s.length := by
  rcases exists_end s with ⟨-, hafter⟩ | ⟨e, -, hcut⟩
  · rw [hafter]
    exact List.length_pos_of_ne_nil h
  · have hlength := congrArg List.length hcut
    have hend : 0 < e.text.length := by cases e <;> decide
    rw [List.length_append, List.length_append] at hlength
    omega

end LineReader

/-! ### The whole text -/

namespace Line

open LineReader

/-- **The lines that are read make up the text.** -/
theorem cut_toList (r : LineReader) : Cut r.number r.rest r.toList := by
  obtain ⟨s, n⟩ := r
  induction hlength : s.length using Nat.strongRecOn generalizing s n with
  | ind length ih =>
    by_cases hs : s = []
    · subst hs
      exact .nil n
    · have hclear : ∀ c ∈ (classify (n + 1) (firstLine s)).raw, c ≠ '\r' ∧ c ≠ '\n' :=
        fun c hc => Text.isLineEnd_eq_false_iff.mp (isLineEnd_firstLine s c hc)
      have hnext : next? ⟨s, n⟩ =
          some (classify (n + 1) (firstLine s), ⟨afterLine s, n + 1⟩) := by
        rw [next?, if_neg (mt List.isEmpty_iff.mp hs)]
      rw [toList_of_next? hnext]
      rcases exists_end s with ⟨hfirst, hafter⟩ | ⟨e, hwhole, hcut⟩
      · rw [hfirst] at hclear ⊢
        rw [hafter]
        exact @Cut.last n (classify (n + 1) s) rfl hclear hs
      · have hrest := ih _ (hlength ▸ length_afterLine_lt hs) (afterLine s) (n + 1) rfl
        have hline : Cut n (firstLine s ++ e.text ++ afterLine s) _ :=
          @Cut.cons n (classify (n + 1) (firstLine s)) _ _ e rfl hclear hwhole hrest
        rwa [hcut] at hline

namespace Cut

variable {n : Nat} {s : List Char} {lines : List Line}

/-- There is one way to cut a text. -/
theorem texts_eq (h : Cut n s lines) : texts s = lines.map raw := by
  induction h with
  | nil n => rfl
  | last number clear ne_nil =>
    exact texts_word ne_nil fun c hc => Text.isLineEnd_eq_false_iff.mpr (clear c hc)
  | cons e number clear whole cut ih =>
    rw [texts_end whole fun c hc => Text.isLineEnd_eq_false_iff.mpr (clear c hc), ih, List.map_cons]

end Cut

end Line

/-! ### Other line ends -/

namespace Text

/-- What ends no line is kept. -/
theorem withEnds_append {word : List Char} (h : ∀ c ∈ word, c ≠ '\r' ∧ c ≠ '\n') (e : LineEnd)
    (rest : List Char) : withEnds e (word ++ rest) = word ++ withEnds e rest := by
  induction word with
  | nil => rfl
  | cons c word ih =>
    have hc := h c List.mem_cons_self
    have hother : isLineEnd c = false := isLineEnd_eq_false_iff.mpr hc
    rw [List.cons_append, withEnds, if_neg (by simp [hother]),
      ih fun d hd => h d (List.mem_cons_of_mem _ hd), List.cons_append]
    intro rest' hreturn
    exact absurd hreturn hc.1

/-- A line end is replaced as a whole. -/
theorem withEnds_end {old : LineEnd} {rest : List Char} (h : old.Whole rest) (e : LineEnd) :
    withEnds e (old.text ++ rest) = e.text ++ withEnds e rest := by
  cases old with
  | feed =>
    rw [LineEnd.text, List.singleton_append, withEnds, if_pos (by decide)]
    simp
  | carriage =>
    rw [LineEnd.text, List.singleton_append, withEnds, if_pos (by decide)]
    rintro rest' - rfl
    exact h rfl rfl
  | pair =>
    show withEnds e ('\r' :: '\n' :: rest) = _
    rw [withEnds]

/-- Every line feed has gone, so that a carriage return stays an end of its own. -/
theorem whole_withEnds (e : LineEnd) (s : List Char) : e.Whole (withEnds e s) := by
  rintro rfl hhead
  fun_cases withEnds LineEnd.carriage s with
  | case1 => simp [withEnds] at hhead
  | case2 rest => simp [withEnds, LineEnd.text] at hhead
  | case3 c rest hpair hc =>
    rw [withEnds, if_pos hc] at hhead
    · simp [LineEnd.text] at hhead
    · exact hpair
  | case4 c rest hpair hc =>
    rw [withEnds, if_neg hc] at hhead
    · rw [List.head?_cons] at hhead
      rw [Option.some.inj hhead] at hc
      exact hc rfl
    · exact hpair

end Text

/-- Other line ends leave a cut into the same lines. -/
theorem Line.Cut.withEnds {n : Nat} {s : List Char} {lines : List Line} (h : Cut n s lines)
    (e : LineEnd) : Cut n (Text.withEnds e s) lines := by
  induction h with
  | nil n => exact .nil n
  | @last n line number clear ne_nil =>
    have hword := Text.withEnds_append clear e []
    rw [List.append_nil, Text.withEnds, List.append_nil] at hword
    rw [hword]
    exact .last number clear ne_nil
  | cons old number clear whole cut ih =>
    rw [List.append_assoc, Text.withEnds_append clear, Text.withEnds_end whole, ← List.append_assoc]
    exact .cons e number clear (Text.whole_withEnds e _) ih

theorem Line.ofText_withEnds (e : LineEnd) (s : List Char) :
    Line.ofText (Text.withEnds e s) = Line.ofText s := by
  have hcut := Line.cut_toList (LineReader.ofText s)
  have htexts : LineReader.texts (Text.withEnds e s) = LineReader.texts s :=
    (hcut.withEnds e).texts_eq.trans hcut.texts_eq.symm
  rw [Line.ofText_eq, Line.ofText_eq, htexts]

/-- **Cutting into lines loses nothing, and line ends do not matter.** The lines of a text, with
the ends between them, are the text, and the document is the same with any one line end in place
of all. -/
theorem Document.parse_withEnds (input : String) :
    Line.Cut 0 input.toList (Line.ofText input.toList) ∧
      ∀ (limits : Limits) (e : LineEnd), input.utf8ByteSize ≤ limits.maxInputBytes →
        (String.ofList (Text.withEnds e input.toList)).utf8ByteSize ≤ limits.maxInputBytes →
        Document.parse limits (String.ofList (Text.withEnds e input.toList)) =
          Document.parse limits input := by
  refine ⟨Line.cut_toList (LineReader.ofText input.toList), ?_⟩
  intro limits e hsize hother
  rw [Document.parse_eq hsize, Document.parse_eq hother, String.toList_ofList, Line.ofText_withEnds]

/-- All three line ends, an empty line in each place, and a last line without an end. -/
theorem Document.parse_withEnds_mixed :
    (Line.ofText "# a\r\n\r\r\n> b\n\rc".toList).map Line.raw =
        ["# a".toList, [], [], "> b".toList, [], "c".toList] ∧
      String.ofList (Text.withEnds .pair "# a\r\n\r\r\n> b\n\rc".toList) =
        "# a\r\n\r\n\r\n> b\r\n\r\nc" ∧
      Document.parse { maxInputBytes := 18 } "# a\r\n\r\n\r\n> b\r\n\r\nc" =
        Document.parse { maxInputBytes := 18 } "# a\r\n\r\r\n> b\n\rc" := by
  refine ⟨by decide, by decide, ?_⟩
  exact (Document.parse_withEnds "# a\r\n\r\r\n> b\n\rc").2 { maxInputBytes := 18 } .pair
    (by decide) (by decide)

end MarkdownHtml
