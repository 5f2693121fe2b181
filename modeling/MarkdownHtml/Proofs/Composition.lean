/-
# Documents that are put together

Two laws on how the document of a text follows from those of its parts.

Quoting every line wraps the document in one quote (`Document.parse_quoted`). The run
on the quoted lines is the run on the lines themselves above one open quote, which the
first line opens.

A blank line separates documents (`Document.parse_append_blank`): if the first text does
not end inside fenced code that stands in no quote, two line feeds and a second text
behind it give the blocks of both, or the error that comes first. The blank line closes
the leaf, the lists and the quotes that are open, and fails just where the end of the
text would; the run on the second text goes on above the blocks of the first.

Key definitions: `Builder.inBareCode`.
Key theorems: `Builder.pushAll_blanks`, `Document.parse_quoted`,
`Document.parse_append_blank`.
-/
import MarkdownHtml.Proofs.Bases

namespace MarkdownHtml

/-! ### The end of a run -/

namespace Attempt

theorem result_of_ok {a : Attempt} (h : a.failure = none) :
    a.conclude.result = .ok a.builder.blocks := by
  simp only [conclude, h]

theorem result_of_error {a : Attempt} {e : ConversionError} (h : a.failure = some e) :
    a.conclude.result = .error e := by
  simp only [conclude, h]

theorem andThen_of_ok {a : Attempt} (h : a.failure = none) (next : Builder → Attempt) :
    a.andThen next = next a.builder := by
  unfold andThen
  rw [h]

theorem andThen_of_error {a : Attempt} {e : ConversionError} (h : a.failure = some e)
    (next : Builder → Attempt) : a.andThen next = a := by
  unfold andThen
  rw [h]

end Attempt

theorem Document.parse_eq {limits : Limits} {input : String}
    (h : input.utf8ByteSize ≤ limits.maxInputBytes) :
    Document.parse limits input =
      ((Builder.pushAll (Line.ofText input.toList) { limits }).andThen
        Builder.finish).conclude.result := by
  unfold Document.parse Document.read
  simp only [Limits.refusal?_eq_none_iff.mpr h]
  rfl

/-! ### A quote around all lines -/

/-- One open quote with nothing in it or before it. -/
def QuotePath.opened : QuotePath := ⟨[], [[]]⟩

theorem QuotePath.finish_onto_opened (p : QuotePath) :
    (opened.onto p).finish = [.quote p.finish] := by
  rw [finish_onto]
  simp [opened, finish, depth, closeMany]

theorem QuotePath.setDepth_opened (n : Nat) :
    setDepth (n + 1) opened = openMany n opened ∧ setDepth (n + 1) {} = openMany n opened := by
  constructor
  · simp [setDepth, opened, depth, closeMany]
  · simp [setDepth, opened, depth, closeMany, openMany]

namespace Builder

/-- A line that stands in quotes opens the first of them itself. -/
theorem push_opened {limits : Limits} {line : Line} (hq : 1 ≤ line.quoteDepth)
    (hf : (push line { limits, path := .opened }).failure = none) :
    push line { limits } = push line { limits, path := .opened } := by
  have hmax : ¬ limits.maxNesting < line.quoteDepth := by
    intro hlt
    have hrefused : push line { limits, path := .opened } =
        refuse (.quoteTooDeep line.number line.quoteDepth) { limits, path := .opened } := by
      unfold push takeLine enterQuotes
      simp only [hlt, if_true]
      exact Attempt.andThen_of_error rfl _
    rw [hrefused] at hf
    exact absurd hf (by simp [refuse])
  obtain ⟨n, hn⟩ : ∃ n, line.quoteDepth = n + 1 := ⟨line.quoteDepth - 1, by omega⟩
  obtain ⟨hset, hset'⟩ := QuotePath.setDepth_opened n
  -- whichever of the two paths it starts from, the line leaves the same quotes open
  have hfirst : enterQuotes line { limits } =
      .done { limits, path := QuotePath.openMany n .opened } := by
    unfold enterQuotes
    simp only [hmax, if_false]
    rw [if_neg (by simp [hn, QuotePath.depth]), hn, ← hset']
    rfl
  have hsecond : enterQuotes line { limits, path := .opened } =
      .done { limits, path := QuotePath.openMany n .opened } := by
    unfold enterQuotes
    simp only [hmax, if_false]
    by_cases hone : n = 0
    · rw [if_pos (by simp [hn, hone, QuotePath.depth, QuotePath.opened]), hone]
      rfl
    · rw [if_neg (by simp [hn, hone, QuotePath.depth, QuotePath.opened]), hn, ← hset]
      rfl
  unfold push takeLine
  simp only [hfirst, hsecond]

/-- Quoted lines are taken as the lines themselves are, above one open quote. -/
theorem pushAll_quoted {limits : Limits} {lines lines' : List Line} (hne : lines ≠ [])
    (hl : List.Forall₂ (Line.Deeper 1) lines lines')
    (hf : (pushAll lines { limits }).failure = none)
    (hroom : (pushAll lines { limits }).builder.path.reach < limits.maxNesting) :
    (pushAll lines { limits }).Over .opened (pushAll lines' { limits }) := by
  have hstart : Over .opened { limits } { limits, path := .opened } := ⟨rfl, rfl, rfl, rfl⟩
  have hover := pushAll_over hstart hl (.inr ⟨hf, hroom⟩)
  suffices hsame : pushAll lines' { limits } = pushAll lines' { limits, path := .opened } by
    rw [hsame]
    exact hover
  cases hl with
  | nil => exact absurd rfl hne
  | @cons line line' lines lines' hline _ =>
    have hfirst : (push line' { limits, path := .opened }).failure = none := by
      have hall := hover.failure.trans hf
      rw [pushAll_cons] at hall
      exact (Attempt.of_andThen hall).1
    have hq : 1 ≤ line'.quoteDepth := by
      rw [hline.quoteDepth]
      omega
    rw [pushAll_cons, pushAll_cons, push_opened hq hfirst]

end Builder

/-- Lines with `> ` in front are the lines, one quote deeper. -/
theorem Line.deeper_ofLines {lines : List String}
    (hclear : ∀ line ∈ lines, ∀ c ∈ line.toList, Text.isLineEnd c = false) :
    List.Forall₂ (Line.Deeper 1) (Line.ofText (Text.ofLines lines).toList)
      (Line.ofText (Text.ofLines (lines.map ("> " ++ ·))).toList) := by
  have hmark : ∀ c ∈ "> ".toList, Text.isLineEnd c = false := by simp [Text.isLineEnd]
  have hclear' : ∀ line ∈ lines.map ("> " ++ ·), ∀ c ∈ line.toList,
      Text.isLineEnd c = false := by
    intro line hline c hc
    obtain ⟨inner, hinner, rfl⟩ := List.mem_map.mp hline
    rw [String.toList_append] at hc
    rcases List.mem_append.mp hc with hc | hc
    · exact hmark c hc
    · exact hclear inner hinner c hc
  have hraws : (lines.map ("> " ++ ·)).map String.toList =
      (lines.map String.toList).map fun raw => '>' :: ' ' :: raw := by
    simp
  rw [Line.ofText_eq, Line.ofText_eq, LineReader.texts_ofLines hclear,
    LineReader.texts_ofLines hclear', hraws]
  exact Line.forall₂_classify Line.deeper_quoted _ 0 0

/-- The nesting of a document bounds how deep the run that gives it reaches. -/
theorem Document.reach_le_of_parse {limits : Limits} {input : String} {doc : Document}
    (h : Document.parse limits input = .ok doc) :
    (Builder.pushAll (Line.ofText input.toList) { limits }).builder.path.reach ≤
      Block.quoteNestingAll doc := by
  obtain ⟨-, -, rfl⟩ := Document.of_parse h
  rw [Builder.blocks, QuotePath.quoteNestingAll_finish]
  exact (Builder.flush_fills _).path.reach_le

/-- **Quoting wraps a document in a quote.** Lines that are read as some blocks, which leave
room for one quote more, are read with `> ` in front of each as these blocks in a quote. -/
theorem Document.parse_quoted {limits : Limits} {lines : List String} {blocks : Document}
    (hne : lines ≠ []) (hends : ∀ line ∈ lines, ∀ c ∈ line.toList, c ≠ '\n' ∧ c ≠ '\r')
    (hsize : (Text.ofLines (lines.map ("> " ++ ·))).utf8ByteSize ≤ limits.maxInputBytes)
    (hparse : Document.parse limits (Text.ofLines lines) = .ok blocks)
    (hnest : Block.quoteNestingAll blocks < limits.maxNesting) :
    Document.parse limits (Text.ofLines (lines.map ("> " ++ ·))) = .ok [.quote blocks] := by
  have hclear : ∀ line ∈ lines, ∀ c ∈ line.toList, Text.isLineEnd c = false := by
    intro line hline c hc
    simpa [Text.isLineEnd] using hends line hline c hc
  have hlines : Line.ofText (Text.ofLines lines).toList ≠ [] := by
    rw [Line.ofText_eq, LineReader.texts_ofLines hclear]
    simpa using hne
  have hroom := Nat.lt_of_le_of_lt (Document.reach_le_of_parse hparse) hnest
  obtain ⟨hpush, hflush, rfl⟩ := Document.of_parse hparse
  have hover := Builder.pushAll_quoted hlines (Line.deeper_ofLines hclear) hpush hroom
  have hfinish := hover.builder.flush
  rw [Document.parse_eq hsize, Attempt.andThen_of_ok (hover.failure.trans hpush), Builder.finish,
    Attempt.result_of_ok (hfinish.failure.trans hflush), Builder.blocks, hfinish.builder.path,
    QuotePath.finish_onto_opened]
  rfl

/-- A quote that ends, an item, and fenced code with a `>` of its own. -/
theorem Document.parse_quoted_mixed :
    Document.parse ⟨100, 2⟩ (Text.ofLines ["> a", "- b", "```", "> c", "```"]) =
        .ok [.quote [.paragraph [.text "a"]], .item (.bullet '-') 0 [.text "b"],
          .code none "> c\n"] ∧
      Document.parse ⟨100, 2⟩ (Text.ofLines (["> a", "- b", "```", "> c", "```"].map ("> " ++ ·))) =
        .ok [.quote [.quote [.paragraph [.text "a"]], .item (.bullet '-') 0 [.text "b"],
          .code none "> c\n"]] := by
  have hparse : Document.parse ⟨100, 2⟩ (Text.ofLines ["> a", "- b", "```", "> c", "```"]) =
      .ok [.quote [.paragraph [.text "a"]], .item (.bullet '-') 0 [.text "b"],
        .code none "> c\n"] := by cbv
  exact ⟨hparse, Document.parse_quoted (by decide) (by simp) (by decide) hparse (by decide)⟩

/-! ### A blank line between documents -/

namespace Builder

/-- Whether fenced code is open that stands in no quote. -/
def inBareCode (b : Builder) : Bool :=
  match b.leaf with
  | .code .. => b.path.depth == 0
  | _ => false

theorem leaf_flush (b : Builder) : b.flush.builder.leaf = .none := by
  have hread : ∀ (text : List Char) (kind : LeafKind) (block : List Inline → Block),
      (readInline text (fun nodes => emitLeaf kind (block nodes))
        { b with leaf := .none }).builder.leaf = .none := by
    intro text kind block
    unfold readInline
    simp only
    split <;> rfl
  unfold flush
  simp only
  split
  · rfl
  · exact hread _ _ _
  · exact hread _ _ _
  · rfl

/-- Where no leaf is open there is none to close. -/
theorem flush_of_none {b : Builder} (h : b.leaf = .none) : b.flush = .done b := by
  obtain ⟨limits, path, lists, leaf, events⟩ := b
  obtain rfl : leaf = .none := h
  rfl

theorem flushAll_of_ok {b : Builder} (h : b.flush.failure = none) :
    b.flushAll = .done { b.flush.builder with lists := [] } :=
  Attempt.andThen_of_ok h _

/-- The state behind a blank line: everything that was open in `b` is closed. -/
def closed (b : Builder) : Builder :=
  { b.flush.builder with path := b.flush.builder.path.setDepth 0, lists := [] }

/-- A blank line that is read closes everything, and fails where closing the leaf does. -/
theorem takeLine_blank {line : Line} (hline : line.IsBlank) (b : Builder) :
    (b.takeLine line).failure = b.flush.failure ∧
      (b.flush.failure = none → b.takeLine line = .done b.closed) := by
  obtain ⟨hkind, hdepth⟩ := hline
  have htake : ∀ c : Builder, c.takeKind line = c.flushAll := by
    intro c
    unfold takeKind
    rw [hkind]
  have hmax : ¬ b.limits.maxNesting < line.quoteDepth := by omega
  unfold takeLine enterQuotes
  rw [if_neg hmax, hdepth]
  by_cases hsame : 0 = b.path.depth
  · rw [if_pos hsame, Attempt.andThen_done, htake]
    have hpath : b.flush.builder.path.setDepth 0 = b.flush.builder.path := by
      have hflush : b.flush.builder.path.depth = 0 := b.flush_fills.path.depth_eq.trans hsame.symm
      have hself := b.flush.builder.path.setDepth_self
      rwa [hflush] at hself
    refine ⟨?_, fun hf => ?_⟩
    · unfold flushAll Attempt.andThen
      cases hf : b.flush.failure with
      | none => rfl
      | some e => exact hf
    · rw [flushAll_of_ok hf, closed, hpath]
  · rw [if_neg hsame]
    cases hf : b.flush.failure with
    | some e =>
      have hfail : b.flushAll = b.flush := Attempt.andThen_of_error hf _
      refine ⟨?_, fun hn => absurd hn (by simp)⟩
      rw [hfail, Attempt.andThen_of_error hf, Attempt.andThen_of_error hf, hf]
    | none =>
      have hleaf : b.closed.leaf = .none := b.leaf_flush
      have hagain : b.closed.flushAll = .done b.closed := by
        unfold flushAll
        rw [flush_of_none hleaf, Attempt.andThen_done]
        rfl
      rw [flushAll_of_ok hf, Attempt.andThen_done, Attempt.andThen_done, htake]
      exact ⟨congrArg Attempt.failure hagain, fun _ => hagain⟩

/-- Outside code that stands in no quote, a blank line closes everything. -/
theorem push_blank {line : Line} (hline : line.IsBlank) {b : Builder}
    (hopen : b.inBareCode = false) :
    (b.push line).failure = b.flush.failure ∧
      (b.flush.failure = none → b.push line = .done b.closed) := by
  unfold push
  split
  · rename_i kind length indent language lines hleaf
    have hdeep : ¬ b.path.depth ≤ line.quoteDepth := by
      unfold inBareCode at hopen
      rw [hleaf] at hopen
      have hquoted : b.path.depth ≠ 0 := by simpa using hopen
      rw [hline.2]
      omega
    -- code in a quote ends with the quote, and closing it cannot fail
    have hf : b.flush.failure = none := by
      unfold flush
      rw [hleaf]
      rfl
    have hflushed := flush_of_none b.leaf_flush
    have hclosed : b.flush.builder.closed = b.closed := by
      unfold closed
      rw [hflushed]
      rfl
    simp only
    rw [if_neg hdeep, Attempt.andThen_of_ok hf]
    obtain ⟨hfail, hdone⟩ := takeLine_blank hline b.flush.builder
    rw [hflushed] at hfail hdone
    rw [hfail, hf, hdone rfl, hclosed]
    exact ⟨rfl, fun _ => rfl⟩
  · exact takeLine_blank hline b

/-- Behind a blank line a builder is as at the start, above the blocks that are done. -/
theorem over_closed (b : Builder) :
    Over ⟨b.flush.builder.blocks.reverse, []⟩ { limits := b.limits } b.closed where
  limits := b.flush_fills.limits
  path := by
    have hset : b.flush.builder.path.setDepth 0 =
        b.flush.builder.path.closeMany b.flush.builder.path.depth := by
      simp [QuotePath.setDepth, QuotePath.openMany]
    simp only [closed]
    rw [hset, QuotePath.closeMany_depth]
    rfl
  lists := rfl
  leaf := b.leaf_flush

/-- Blank lines change nothing at the start. -/
theorem pushAll_blanks_start {limits : Limits} {blanks : List Line}
    (hblanks : ∀ line ∈ blanks, line.IsBlank) :
    pushAll blanks { limits } = .done { limits } := by
  induction blanks with
  | nil => rfl
  | cons line blanks ih =>
    have hpush : push line { limits } = .done { limits } :=
      (push_blank (hblanks line List.mem_cons_self) rfl).2 rfl
    rw [pushAll_cons, hpush, Attempt.andThen_done]
    exact ih fun l hl => hblanks l (List.mem_cons_of_mem _ hl)

/-- Blank lines fail where the end of the text does. Otherwise what follows is built above
the blocks that the end of the text would have given. -/
theorem pushAll_blanks {blanks : List Line} (hne : blanks ≠ [])
    (hblanks : ∀ line ∈ blanks, line.IsBlank) {b : Builder} (hopen : b.inBareCode = false) :
    (b.pushAll blanks).failure = b.flush.failure ∧
      (b.flush.failure = none →
        Over ⟨b.flush.builder.blocks.reverse, []⟩ { limits := b.limits }
          (b.pushAll blanks).builder) := by
  cases blanks with
  | nil => exact absurd rfl hne
  | cons line blanks =>
    have hrest : ∀ l ∈ blanks, l.IsBlank := fun l hl => hblanks l (List.mem_cons_of_mem _ hl)
    obtain ⟨hfail, hdone⟩ := push_blank (hblanks line List.mem_cons_self) hopen
    rw [pushAll_cons]
    cases hf : b.flush.failure with
    | some e =>
      rw [Attempt.andThen_of_error (hfail.trans hf)]
      exact ⟨hfail.trans hf, fun hn => absurd hn (by simp)⟩
    | none =>
      -- further blank lines are as at the start
      have hsame : List.Forall₂ (Line.Deeper 0) blanks blanks :=
        List.forall₂_same.mpr fun l _ => ⟨rfl, rfl, rfl, fun _ => rfl⟩
      have hover := pushAll_over b.over_closed hsame (.inl rfl)
      rw [pushAll_blanks_start hrest] at hover
      rw [hdone hf, Attempt.andThen_done]
      exact ⟨hover.failure, fun _ => hover.builder⟩

/-- Above blocks that are done, a run ends with these and its own, or with its own error. -/
theorem Over.result {blocks : List Block} {a a' : Attempt}
    (h : a.Over ⟨blocks.reverse, []⟩ a') :
    a'.conclude.result = do
      let above ← a.conclude.result
      return blocks ++ above := by
  cases hf : a.failure with
  | some e =>
    rw [Attempt.result_of_error (h.failure.trans hf), Attempt.result_of_error hf]
    rfl
  | none =>
    have hfinish : a'.builder.blocks = blocks ++ a.builder.blocks := by
      unfold Builder.blocks
      rw [h.builder.path, QuotePath.finish_onto]
      simp [QuotePath.finish, QuotePath.depth, QuotePath.closeMany]
    rw [Attempt.result_of_ok (h.failure.trans hf), Attempt.result_of_ok hf, hfinish]
    rfl

/-- The rest of a text behind blank lines is read on its own. -/
theorem result_pushAll_blanks {blanks lines rest : List Line} (hne : blanks ≠ [])
    (hblanks : ∀ line ∈ blanks, line.IsBlank) (hrest : List.Forall₂ (Line.Deeper 0) lines rest)
    {b : Builder} (hopen : b.inBareCode = false) :
    ((b.pushAll (blanks ++ rest)).andThen finish).conclude.result = do
      let first ← b.finish.conclude.result
      let second ← ((pushAll lines { limits := b.limits }).andThen finish).conclude.result
      return first ++ second := by
  obtain ⟨hfail, hover⟩ := pushAll_blanks hne hblanks hopen
  rw [pushAll_append, finish]
  cases hf : b.flush.failure with
  | some e =>
    have hblank := hfail.trans hf
    rw [Attempt.andThen_of_error hblank, Attempt.andThen_of_error hblank,
      Attempt.result_of_error hblank, Attempt.result_of_error hf]
    rfl
  | none =>
    have hrun := pushAll_over (hover hf) hrest (.inl rfl)
    have hend : ((pushAll lines { limits := b.limits }).andThen finish).Over
        ⟨b.flush.builder.blocks.reverse, []⟩
        (((b.pushAll blanks).builder.pushAll rest).andThen finish) :=
      hrun.andThen fun _ => hrun.builder.flush
    rw [Attempt.andThen_of_ok (hfail.trans hf), Attempt.result_of_ok hf]
    exact Over.result hend

end Builder

/-- **A blank line separates documents.** Unless the first text ends in fenced code that
stands in no quote, two line feeds and a second text behind it give the blocks of the one
and then those of the other, or the error of the first that has one. -/
theorem Document.parse_append_blank {limits : Limits} {a b : String}
    (hsize : (a ++ "\n\n" ++ b).utf8ByteSize ≤ limits.maxInputBytes)
    (hopen : (Builder.pushAll (Line.ofText a.toList) { limits }).builder.inBareCode = false) :
    Document.parse limits (a ++ "\n\n" ++ b) = do
      let first ← Document.parse limits a
      let second ← Document.parse limits b
      return first ++ second := by
  have hsizes := hsize
  simp only [String.utf8ByteSize_append] at hsizes
  have htext : (a ++ "\n\n" ++ b).toList = a.toList ++ '\n' :: '\n' :: b.toList := by simp
  obtain ⟨blanks, rest, hlines, hne, hblanks, hrest⟩ :=
    Line.ofText_append_feeds a.toList b.toList
  rw [Document.parse_eq hsize, Document.parse_eq (show a.utf8ByteSize ≤ _ by omega),
    Document.parse_eq (show b.utf8ByteSize ≤ _ by omega), htext, hlines, List.append_assoc,
    Builder.pushAll_append]
  generalize hdone : Builder.pushAll (Line.ofText a.toList) { limits } = done at hopen
  cases hf : done.failure with
  | some e =>
    rw [Attempt.andThen_of_error hf, Attempt.andThen_of_error hf, Attempt.result_of_error hf]
    rfl
  | none =>
    have hgrows := Builder.pushAll_grows (hdone ▸ hf)
    have hlimits : done.builder.limits = limits := hdone ▸ hgrows.limits
    rw [Attempt.andThen_of_ok hf, Attempt.andThen_of_ok hf,
      Builder.result_pushAll_blanks hne hblanks hrest hopen, hlimits]

/-- Fenced code in a quote and an unfinished line, in front of a list. -/
theorem Document.parse_append_blank_quoted :
    (Builder.pushAll (Line.ofText "> ```\n> a\r".toList) { limits := {} }).builder.inBareCode =
        false ∧
      Document.parse {} ("> ```\n> a\r" ++ "\n\n" ++ "- b") =
        .ok [.quote [.code none "a\n"], .item (.bullet '-') 0 [.text "b"]] := by
  have hopen : (Builder.pushAll (Line.ofText "> ```\n> a\r".toList)
      { limits := {} }).builder.inBareCode = false := by cbv
  have hfirst : Document.parse {} "> ```\n> a\r" = .ok [.quote [.code none "a\n"]] := by cbv
  have hsecond : Document.parse {} "- b" = .ok [.item (.bullet '-') 0 [.text "b"]] := by cbv
  refine ⟨hopen, ?_⟩
  rw [Document.parse_append_blank (by decide) hopen, hfirst, hsecond]
  rfl

end MarkdownHtml
