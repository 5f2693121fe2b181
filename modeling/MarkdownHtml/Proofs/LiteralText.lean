/-
# Text without syntax stays as it is

Running text in which every token is text wherever it stands is read as one text node
(`Inline.read_literal`): no frame is ever open, so that no limit on nesting matters, and each
token only lengthens the text. Lines that start nothing are one paragraph
(`Document.parse_text`), and a paragraph of text is written as it is but for the entities
(`Document.toHtml_text`).

A backslash before every character that is punctuation makes any line such a text. No token
of it is a delimiter, a bracket or a break (`Token.Tiles.literal_escape`), and it opens no
block: it starts with a backslash, or with a character that starts nothing
(`Line.classify_escape`). So the text comes out literally, whatever it holds
(`convert_escape`).

Key definitions: `Token.isLiteral`, `InlineParser.State.saying`, `Line.starters`.
Key theorems: `InlineParser.run_literal`, `Inline.read_literal`, `Builder.pushAll_text`,
`Document.parse_text`, `Token.Tiles.literal_escape`, `Line.classify_escape`, `convert_escape`.
-/
import MarkdownHtml.Proofs.ClosingFences
import MarkdownHtml.Proofs.Escapes

namespace MarkdownHtml

/-! ### Tokens that are text -/

/-- Whether the token is text wherever it stands outside brackets. -/
def Token.isLiteral (t : Token) : Bool :=
  match t.kind with
  | .rightBracket | .leftParen | .rightParen | .escape | .softBreak | .blank | .text => true
  | _ => false

/-- The text that tokens stand for. -/
def Token.literalText (ts : List Token) : List Char :=
  ts.flatMap fun t => (Atom.token t).literal

namespace InlineParser

/-- The state in which only the text `s` is read, and nothing is open. -/
def State.saying (s : List Char) : State := State.pushText (String.ofList s) {}

namespace State

theorem ofList_cons_ne (c : Char) (s : List Char) : (String.ofList (c :: s)).isEmpty = false := by
  simp

theorem saying_cons (c : Char) (s : List Char) :
    saying (c :: s) = { root := ⟨[.text (String.ofList (c :: s))], 0⟩ } := by
  simp only [saying, pushText, onTop, Content.pushText]
  rw [ofList_cons_ne]
  rfl

/-- Text behind text is one text. -/
theorem pushText_saying (s t : List Char) :
    (saying s).pushText (String.ofList t) = saying (s ++ t) := by
  cases s with
  | nil => rfl
  | cons c s =>
    cases t with
    | nil =>
      rw [List.append_nil]
      rfl
    | cons d t =>
      rw [saying_cons, List.cons_append, saying_cons, ← List.cons_append, String.ofList_append]
      simp only [pushText, onTop, Content.pushText]
      rw [ofList_cons_ne]
      rfl

/-- **One literal token.** -/
theorem step_literal {t : Token} (hspelled : t.kind.Spelled t.lexeme) (h : t.isLiteral = true)
    (limit index : Nat) (closer : Option Nat) (rest : List Token) (s : List Char) :
    (saying s).step limit t index closer rest =
      .ok (0, saying (s ++ (Atom.token t).literal)) := by
  unfold Token.isLiteral at h
  unfold step
  cases hk : t.kind with
  | backticks | stars | underscores | imageOpen | leftBracket | hardBreak =>
    rw [hk] at h
    exact absurd h (by simp)
  | leftParen | rightParen | blank | text =>
    simp only [Atom.literal, hk, ← pushText_saying]
    rfl
  | escape => simp only [Atom.literal, hk, ← pushText_saying]
  | softBreak => simp only [Atom.literal, hk, ← pushText_saying]
  | rightBracket =>
    rw [hk] at hspelled
    have hlexeme : t.lexeme = [']'] := hspelled
    have hclosed : (saying s).stack = [] := by
      cases s <;> rfl
    simp only [Atom.literal, hk, hlexeme, ← pushText_saying, closeBracket, hclosed]
    rfl

/-- The nodes behind text alone. -/
theorem finish_saying {s : List Char} (h : s ≠ []) :
    (saying s).finish = [.text (String.ofList s)] := by
  obtain ⟨c, s, rfl⟩ := List.exists_cons_of_ne_nil h
  rw [saying_cons]
  rfl

theorem dropped_saying (s : List Char) : (saying s).dropped = 0 := rfl

end State

/-- **Any literal tokens.** Reading them lengthens the text that is read already. -/
theorem run_literal (limit index : Nat) {start : Nat} {before : Option Char} {text : List Char}
    {ts : List Token} (ht : Token.Tiles start before text ts)
    (h : ∀ t ∈ ts, t.isLiteral = true) (s : List Char) :
    run limit index start (State.saying s) ts (CodeSpan.closersFrom index ts) =
      .ok (State.saying (s ++ Token.literalText ts)) := by
  induction ht generalizing index s with
  | nil => simp [run, Token.literalText]
  | @cons start before c rest ts htail ih =>
    have hstep := State.step_literal (Token.spelled_front start before c rest)
      (h _ List.mem_cons_self) limit index
      ((CodeSpan.closer? (Token.front start before c rest) ts).map (index + 1 + ·)) ts s
    have hrest := @ih (index + 1) (fun t ht => h t (List.mem_cons_of_mem _ ht))
      (s ++ (Atom.token (Token.front start before c rest)).literal)
    have hstart : ¬ (Token.front start before c rest).start < start := Nat.lt_irrefl start
    rw [CodeSpan.closersFrom, run, if_neg hstart, hstep]
    simp only [Nat.add_zero]
    rw [hrest, List.append_assoc]
    rfl

end InlineParser

/-- Running text of literal tokens is one text node. -/
theorem Inline.read_literal {text : List Char}
    (h : ∀ t ∈ Token.ofText text, t.isLiteral = true)
    (hne : Token.literalText (Token.ofText text) ≠ []) (limits : Limits) :
    Inline.read limits text =
      ⟨0, .ok [.text (String.ofList (Token.literalText (Token.ofText text)))]⟩ := by
  have hrun := InlineParser.run_literal limits.maxNesting 0 (Token.tiles_ofText text) h []
  have hstart : InlineParser.State.saying [] = {} := rfl
  rw [hstart, List.nil_append] at hrun
  unfold Inline.read
  simp only [CodeSpan.closers_eq_closersFrom]
  rw [hrun]
  simp only [InlineParser.State.finish_saying hne, InlineParser.State.dropped_saying]

/-! ### Lines that start nothing -/

namespace Line

/-- The characters, digits apart, that can start a quote, a fence, a heading, a rule or a list
item. -/
def starters : List Char := ['>', '\x60', '~', '#', '-', '*', '_', '+']

theorem mem_starters_of_isRuleChar {c : Char} (h : isRuleChar c = true) : c ∈ starters := by
  simp only [isRuleChar, Bool.or_eq_true, beq_iff_eq] at h
  rcases h with (rfl | rfl) | rfl <;> decide

theorem mem_starters_kindChar (kind : FenceKind) : kind.char ∈ starters := by
  cases kind with
  | backticks => decide
  | tildes => decide

theorem fence_read?_eq_none {c : Char} (h : c ∉ starters) (s : List Char) :
    Fence.read? (c :: s) = none := by
  cases hread : Fence.read? (c :: s) with
  | none => rfl
  | some fence =>
    obtain rfl : c = fence.kind.char := Option.some.inj (Fence.head?_of_read? hread)
    exact absurd (mem_starters_kindChar fence.kind) h

theorem heading_read?_eq_none {c : Char} (h : c ∉ starters) (s : List Char) :
    Heading.read? (c :: s) = none := by
  have hhash : c ≠ '#' := fun hc => h (by simp [hc, starters])
  simp [Heading.read?, hhash]

theorem readBullet?_eq_none {c : Char} (h : c ∉ starters) (s : List Char) :
    Marker.readBullet? (c :: s) = none := by
  have hminus : c ≠ '-' := fun hc => h (by simp [hc, starters])
  have hstar : c ≠ '*' := fun hc => h (by simp [hc, starters])
  have hplus : c ≠ '+' := fun hc => h (by simp [hc, starters])
  simp [Marker.readBullet?, hminus, hstar, hplus]

theorem isRule_eq_false {c : Char} {s : List Char} (h : c ∉ starters)
    (hpad : Text.isPad c = false) : isRule (c :: s) = false := by
  have hrule : isRuleChar c = false := by
    by_contra hc
    exact h (mem_starters_of_isRuleChar (Bool.of_not_eq_false hc))
  simp [isRule, hpad, hrule]

/-- A line that starts with neither a blank nor a quote marker is what its text starts with. -/
theorem classify_eq_kindOfText (number : Nat) {c : Char} {s : List Char}
    (hwhite : Text.isWhite c = false) (hquote : c ≠ '>') :
    classify number (c :: s) = ⟨number, c :: s, 0, 0, kindOfText (c :: s)⟩ := by
  have hpad : Text.isPad c = false := Text.isPad_eq_false hwhite
  have htake : (c :: s).takeWhile Text.isPad = [] := by simp [hpad]
  have hdrop : (c :: s).dropWhile Text.isPad = c :: s := by simp [hpad]
  have hhead : (c :: s).head? ≠ some '>' := fun hc => hquote (Option.some.inj hc)
  have hstrip : stripAll (c :: s) = ⟨0, c :: s⟩ :=
    stripAll_of_no_marker (stripMarker?_eq_none (by rw [hdrop]; exact hhead))
  have hkind : kindOf 0 (c :: s) = kindOfText (c :: s) := by
    unfold kindOf
    rw [if_neg (by simp [hwhite]), if_pos (Nat.zero_le _)]
  unfold classify
  rw [hstrip]
  simp only [htake, hdrop]
  exact congrArg _ hkind

/-- A line is text if it starts with a character that starts nothing and with no number. -/
theorem classify_text (number : Nat) {c : Char} {s : List Char} (hwhite : Text.isWhite c = false)
    (hstart : c ∉ starters) (hnumber : Marker.readOrdered? (c :: s) = none) :
    classify number (c :: s) = ⟨number, c :: s, 0, 0, .text (c :: s)⟩ := by
  have hquote : c ≠ '>' := fun hc => hstart (by simp [hc, starters])
  have hpad : Text.isPad c = false := Text.isPad_eq_false hwhite
  have hmarker : Marker.read? (c :: s) = none := by
    rw [Marker.read?, readBullet?_eq_none hstart, hnumber]
    rfl
  rw [classify_eq_kindOfText number hwhite hquote, kindOfText, fence_read?_eq_none hstart,
    heading_read?_eq_none hstart, isRule_eq_false hstart hpad, hmarker]
  rfl

end Line

/-! ### A paragraph -/

namespace Builder

/-- **One line of text** in a paragraph, or at the start of one. -/
theorem push_text {b : Builder} {line : Line} {lines : List (List Char)}
    (hleaf : b.leaf = .paragraph lines ∨ b.leaf = .none ∧ lines = [])
    (hdepth : b.path.depth = 0) (hquote : line.quoteDepth = 0)
    (hkind : line.kind = .text line.raw) :
    b.push line = .done { b with leaf := .paragraph (line.raw :: lines) } := by
  have henter : b.enterQuotes line = .done b := by
    unfold enterQuotes
    rw [if_neg (by omega), if_pos (by omega)]
  have hextend : b.extendText line.raw = { b with leaf := .paragraph (line.raw :: lines) } := by
    unfold extendText
    rcases hleaf with hleaf | ⟨hleaf, rfl⟩
    · rw [hleaf]
    · rw [hleaf]
  have htake : b.takeLine line = .done { b with leaf := .paragraph (line.raw :: lines) } := by
    rw [takeLine, henter, Attempt.andThen_done, takeKind, hkind]
    simp only
    rw [hextend]
  unfold push
  rcases hleaf with hleaf | ⟨hleaf, -⟩
  · rw [hleaf]
    exact htake
  · rw [hleaf]
    exact htake

/-- **Any lines of text.** -/
theorem pushAll_text {b : Builder} {lines : List Line} {before : List (List Char)}
    (hleaf : b.leaf = .paragraph before) (hdepth : b.path.depth = 0)
    (hlines : ∀ line ∈ lines, line.quoteDepth = 0 ∧ line.kind = .text line.raw) :
    b.pushAll lines =
      .done { b with leaf := .paragraph ((lines.map Line.raw).reverse ++ before) } := by
  induction lines generalizing b before with
  | nil => rw [pushAll, List.map_nil, List.reverse_nil, List.nil_append, ← hleaf]
  | cons line lines ih =>
    obtain ⟨hquote, hkind⟩ := hlines line List.mem_cons_self
    have hfirst := push_text (.inl hleaf) hdepth hquote hkind
    have hrest : pushAll lines { b with leaf := .paragraph (line.raw :: before) } =
        .done { b with
          leaf := .paragraph ((lines.map Line.raw).reverse ++ line.raw :: before) } :=
      ih rfl hdepth fun l hl => hlines l (List.mem_cons_of_mem _ hl)
    rw [pushAll_cons, hfirst, Attempt.andThen_done, hrest, List.map_cons, List.reverse_cons,
      List.append_assoc, List.singleton_append]

end Builder

/-- A text of lines that start nothing is one paragraph of what the lines are together. -/
theorem Document.parse_text {limits : Limits} {input : String} {first : List Char}
    {more : List (List Char)} (hsize : input.utf8ByteSize ≤ limits.maxInputBytes)
    (htexts : LineReader.texts input.toList = first :: more)
    (hkind : ∀ raw ∈ first :: more, ∀ number,
      Line.classify number raw = ⟨number, raw, 0, 0, .text raw⟩) :
    Document.parse limits input =
      (Inline.parse limits (joinLines (first :: more))).map fun nodes => [.paragraph nodes] := by
  have hlines : ∀ line ∈ more.mapIdx (fun i raw => Line.classify (0 + (i + 1) + 1) raw),
      line.quoteDepth = 0 ∧ line.kind = .text line.raw := by
    intro line hline
    obtain ⟨i, hi, rfl⟩ := List.mem_mapIdx.mp hline
    rw [hkind _ (List.mem_cons_of_mem _ (List.getElem_mem hi))]
    exact ⟨rfl, rfl⟩
  have hraws := Line.map_raw_classify more fun i => 0 + (i + 1) + 1
  have hfirst : Builder.push (Line.classify (0 + 0 + 1) first) { limits } =
      .done { limits, leaf := .paragraph [first] } := by
    rw [hkind first List.mem_cons_self]
    exact Builder.push_text (.inr ⟨rfl, rfl⟩) rfl rfl rfl
  have hrest := Builder.pushAll_text (b := { limits, leaf := .paragraph [first] }) rfl rfl hlines
  rw [hraws] at hrest
  have hread : Inline.parse limits (joinLines (first :: more)) =
      (Inline.read limits (joinLines (first :: more))).nodes := rfl
  rw [Document.parse_eq hsize, Line.ofText_eq, htexts, List.mapIdx_cons, Builder.pushAll_cons,
    hfirst, Attempt.andThen_done, hrest, Attempt.andThen_done, Builder.finish, Builder.flush, hread]
  simp only [List.reverse_append, List.reverse_reverse, List.reverse_singleton,
    List.singleton_append, Builder.readInline]
  cases (Inline.read limits (joinLines (first :: more))).nodes with
  | ok nodes => rfl
  | error e => rfl

/-- A paragraph of text is written as it is, but for the entities. -/
theorem Document.toHtml_text (s : String) (options : RenderOptions) :
    Document.toHtml [.paragraph [.text s]] options = "<p>" ++ Html.escapeText s ++ "</p>\n" := by
  have hpieces : Document.pieces [.paragraph [.text s]] options =
      [.start .paragraph [], .text s, .stop .paragraph, .lineFeed] := by
    simp [Document.pieces, Render.chunk, Render.blocks, Render.block, Render.nodes, Render.node,
      Render.Writer.closeTo, Render.Writer.closeMany]
  rw [Document.toHtml, hpieces]
  apply String.toList_inj.mp
  simp [Html.write, Html.Piece.appendTo, Html.Tag.name]

theorem convert_result (options : Options) (input : String) :
    (convert options input).result =
      (Document.parse options.limits input).map fun doc => doc.toHtml options.render := by
  unfold convert Document.parse
  simp only
  cases (Document.read options.limits input).result with
  | ok doc => rfl
  | error e => rfl

/-! ### Escaped text -/

namespace Text

/-- A run that backslashes end is the same in an escaped text, less its punctuation. -/
theorem takeWhile_escape {p : Char → Bool} (hp : p '\\' = false) (s : List Char) :
    (escape s).takeWhile p = s.takeWhile (fun c => p c && !isPunctuation c) ∧
      (escape s).dropWhile p = escape (s.dropWhile fun c => p c && !isPunctuation c) := by
  induction s with
  | nil => exact ⟨rfl, rfl⟩
  | cons c s ih =>
    rw [escape_cons]
    by_cases hpunct : isPunctuation c = true
    · simp [hpunct, hp, escape_cons]
    · rw [if_neg hpunct]
      by_cases hc : p c = true
      · simp [hpunct, hc, ih.1, ih.2]
      · simp [hpunct, hc, escape_cons]

theorem isLineEnd_of_mem_escape {s : List Char} (h : ∀ c ∈ s, isLineEnd c = false) :
    ∀ c ∈ escape s, isLineEnd c = false := by
  intro c hc
  unfold escape at hc
  obtain ⟨d, hd, hcd⟩ := List.mem_flatMap.mp hc
  split_ifs at hcd
  · rcases List.mem_cons.mp hcd with rfl | hcd
    · rfl
    · rw [List.mem_singleton.mp hcd]
      exact h d hd
  · rw [List.mem_singleton.mp hcd]
    exact h d hd

end Text

namespace Token

theorem lineEndLength_eq_zero {s : List Char} (h : ∀ c ∈ s, Text.isLineEnd c = false) :
    lineEndLength s = 0 := by
  unfold lineEndLength
  split
  · exact absurd (h '\n' List.mem_cons_self) (by decide)
  · exact absurd (h '\r' List.mem_cons_self) (by decide)
  · rfl

/-- Away from punctuation and line ends a token is a run of blanks or of plain text. -/
theorem scan_of_not_punctuation {c : Char} {rest : List Char}
    (hpunct : Text.isPunctuation c = false) (hends : ∀ d ∈ c :: rest, Text.isLineEnd d = false) :
    scan c rest = (.blank, countWhile Text.isPad rest) ∨
      scan c rest = (.text, countWhile isPlain rest) := by
  have hend := hends c List.mem_cons_self
  have hspace : scanSpace rest = (.blank, countWhile Text.isPad rest) := by
    have hnone : lineEndLength (rest.drop (countWhile (· == ' ') rest)) = 0 :=
      lineEndLength_eq_zero fun d hd => hends d (List.mem_cons_of_mem _ (List.mem_of_mem_drop hd))
    simp [scanSpace, hnone]
  unfold scan
  split
  iterate 9 exact absurd hpunct (by decide)
  iterate 2 exact absurd hend (by decide)
  · exact .inl hspace
  · exact .inl rfl
  · exact .inr rfl

/-- The first token of an escaped text is literal, and behind it the text is escaped again. -/
theorem front_escape (start : Nat) (before : Option Char) {c : Char} {s rest : List Char}
    {first : Char} (hends : ∀ d ∈ c :: s, Text.isLineEnd d = false)
    (heq : Text.escape (c :: s) = first :: rest) :
    ∃ word behind, c :: s = word ++ behind ∧
      (front start before first rest).isLiteral = true ∧
      (Atom.token (front start before first rest)).literal = word ∧
      (front start before first rest).after = Text.escape behind := by
  rw [Text.escape_cons] at heq
  by_cases hpunct : Text.isPunctuation c = true
  · rw [if_pos hpunct] at heq
    obtain ⟨rfl, rfl⟩ := List.cons.inj heq
    have hscan : scan '\\' (c :: Text.escape s) = (.escape, 1) := by
      simp [scan, scanBackslash, hpunct]
    refine ⟨[c], s, rfl, ?_, ?_, ?_⟩
    · simp [isLiteral, front, hscan]
    · simp [Atom.literal, front, hscan]
    · simp [front, hscan]
  · rw [if_neg hpunct] at heq
    obtain ⟨rfl, rfl⟩ := List.cons.inj heq
    have hends' : ∀ d ∈ c :: Text.escape s, Text.isLineEnd d = false := by
      intro d hd
      rcases List.mem_cons.mp hd with rfl | hd
      · exact hends d List.mem_cons_self
      · exact Text.isLineEnd_of_mem_escape (fun e he => hends e (List.mem_cons_of_mem _ he)) d hd
    -- a run of a class without the backslash stops where the next escape starts
    have hrun : ∀ (kind : TokenKind) (p : Char → Bool), kind = .blank ∨ kind = .text →
        p '\\' = false → scan c (Text.escape s) = (kind, countWhile p (Text.escape s)) →
        ∃ word behind, c :: s = word ++ behind ∧
          (front start before c (Text.escape s)).isLiteral = true ∧
          (Atom.token (front start before c (Text.escape s))).literal = word ∧
          (front start before c (Text.escape s)).after = Text.escape behind := by
      intro kind p hkind hp hscan
      obtain ⟨htake, hdrop⟩ := Text.takeWhile_escape hp s
      have hlexeme : (front start before c (Text.escape s)).lexeme =
          c :: s.takeWhile fun d => p d && !Text.isPunctuation d := by
        rw [front, hscan]
        simp only [take_countWhile, htake]
      have hk : (front start before c (Text.escape s)).kind = kind := by rw [front, hscan]
      refine ⟨c :: s.takeWhile fun d => p d && !Text.isPunctuation d,
        s.dropWhile fun d => p d && !Text.isPunctuation d, ?_, ?_, ?_, ?_⟩
      · rw [List.cons_append, List.takeWhile_append_dropWhile]
      · rcases hkind with rfl | rfl
        · rw [isLiteral, hk]
        · rw [isLiteral, hk]
      · rcases hkind with rfl | rfl
        · simp only [Atom.literal, hk, hlexeme]
        · simp only [Atom.literal, hk, hlexeme]
      · rw [front, hscan]
        exact (drop_countWhile _ _).trans hdrop
    rcases scan_of_not_punctuation (Bool.eq_false_iff.mpr hpunct) hends' with hscan | hscan
    · exact hrun .blank Text.isPad (.inl rfl) rfl hscan
    · exact hrun .text isPlain (.inr rfl) rfl hscan

/-- **Escaped text is literal.** -/
theorem Tiles.literal_escape {start : Nat} {before : Option Char} {s : List Char}
    {ts : List Token} (hends : ∀ c ∈ s, Text.isLineEnd c = false)
    (h : Tiles start before (Text.escape s) ts) :
    (∀ t ∈ ts, t.isLiteral = true) ∧ literalText ts = s := by
  generalize htext : Text.escape s = text at h
  induction h generalizing s with
  | nil =>
    cases s with
    | nil => exact ⟨by simp, rfl⟩
    | cons c s =>
      rw [Text.escape_cons] at htext
      split_ifs at htext
  | @cons start before first rest ts _ ih =>
    cases s with
    | nil => exact absurd htext (by simp [Text.escape])
    | cons c s =>
      obtain ⟨word, behind, hs, hliteral, hword, hafter⟩ := front_escape start before hends htext
      have hends' : ∀ d ∈ behind, Text.isLineEnd d = false := fun d hd =>
        hends d (hs ▸ List.mem_append_right _ hd)
      obtain ⟨hall, hsaid⟩ := ih hends' hafter.symm
      refine ⟨?_, ?_⟩
      · intro t ht
        rcases List.mem_cons.mp ht with rfl | ht
        · exact hliteral
        · exact hall t ht
      · rw [hs, ← hsaid, literalText, List.flatMap_cons, hword]
        rfl

end Token

namespace Line

/-- No number starts an escaped text: what ends a number is punctuation. -/
theorem readOrdered?_escape (s : List Char) : Marker.readOrdered? (Text.escape s) = none := by
  have hdigits := (Text.takeWhile_escape (p := Char.isDigit) rfl s).2
  unfold Marker.readOrdered?
  simp only [hdigits]
  split_ifs
  · rfl
  · generalize s.dropWhile _ = rest
    cases rest with
    | nil => rfl
    | cons c rest =>
      rw [Text.escape_cons]
      by_cases hpunct : Text.isPunctuation c = true
      · rw [if_pos hpunct]
        rfl
      · rw [if_neg hpunct]
        have hdot : c ≠ '.' := by
          rintro rfl
          exact hpunct rfl
        have hparen : c ≠ ')' := by
          rintro rfl
          exact hpunct rfl
        simp [hdot, hparen]

/-- An escaped text that starts with no white space is text. -/
theorem classify_escape (number : Nat) {c : Char} {s : List Char}
    (hwhite : Text.isWhite c = false) :
    classify number (Text.escape (c :: s)) =
      ⟨number, Text.escape (c :: s), 0, 0, .text (Text.escape (c :: s))⟩ := by
  have hnumber := readOrdered?_escape (c :: s)
  rw [Text.escape_cons] at hnumber ⊢
  by_cases hpunct : Text.isPunctuation c = true
  · rw [if_pos hpunct] at hnumber ⊢
    exact classify_text number rfl (by decide) hnumber
  · rw [if_neg hpunct] at hnumber ⊢
    refine classify_text number hwhite (fun hc => ?_) hnumber
    have hall : starters.all Text.isPunctuation = true := rfl
    exact hpunct (List.all_eq_true.mp hall c hc)

end Line

namespace Text

theorem trimStart_eq_self {s : List Char} (h : ∀ c ∈ s.head?, isWhite c = false) :
    trimStart s = s := by
  cases s with
  | nil => rfl
  | cons c s =>
    have hc : isWhite c = false := h c rfl
    simp [trimStart, hc]

theorem trimEnd_eq_self {s : List Char} (h : ∀ c ∈ s.getLast?, isWhite c = false) :
    trimEnd s = s := by
  have hrev : trimStart s.reverse = s.reverse :=
    trimStart_eq_self fun c hc => h c (by rwa [List.head?_reverse] at hc)
  unfold trimStart at hrev
  rw [trimEnd, dropEndWhile, hrev, List.reverse_reverse]

/-- Escaping changes neither end of a text into white space. -/
theorem isWhite_head?_escape {s : List Char} (h : ∀ c ∈ s.head?, isWhite c = false) :
    ∀ c ∈ (escape s).head?, isWhite c = false := by
  cases s with
  | nil => exact h
  | cons d s =>
    rw [escape_cons]
    split_ifs
    · rintro c ⟨⟩
      rfl
    · rintro c ⟨⟩
      exact h d rfl

theorem getLast?_escape (s : List Char) : (escape s).getLast? = s.getLast? := by
  cases s using List.reverseRecOn with
  | nil => rfl
  | append_singleton s c =>
    unfold escape
    rw [List.flatMap_append, List.flatMap_singleton]
    split_ifs
    · simp
    · simp

theorem escape_ne_nil {s : List Char} (h : s ≠ []) : escape s ≠ [] := by
  obtain ⟨c, s, rfl⟩ := List.exists_cons_of_ne_nil h
  rw [escape_cons]
  split_ifs
  · simp
  · simp

end Text

/-- One line that white space neither starts nor ends is joined as it is. -/
theorem joinLines_singleton {s : List Char} (hfirst : ∀ c ∈ s.head?, Text.isWhite c = false)
    (hlast : ∀ c ∈ s.getLast?, Text.isWhite c = false) : joinLines [s] = s := by
  rw [joinLines, List.map_singleton, Text.trimStart_eq_self hfirst, List.intercalate_singleton,
    Text.trimEnd_eq_self hlast]

/-- A line without an end is a line. -/
theorem LineReader.texts_word {word : List Char} (hne : word ≠ [])
    (h : ∀ c ∈ word, Text.isLineEnd c = false) : texts word = [word] := by
  have hsplit := split_append_clear h [] [] []
  rw [List.append_nil, List.append_nil] at hsplit
  rw [texts, hsplit, split, if_neg (by simpa using hne)]
  simp

/-- Escaped running text is one text node. -/
theorem Inline.parse_escape {s : List Char} (hne : s ≠ [])
    (hends : ∀ c ∈ s, Text.isLineEnd c = false) (limits : Limits) :
    Inline.parse limits (Text.escape s) = .ok [.text (String.ofList s)] := by
  obtain ⟨hliteral, hsaid⟩ := Token.Tiles.literal_escape hends (Token.tiles_ofText (Text.escape s))
  have hread := Inline.read_literal hliteral (by rwa [hsaid]) limits
  rw [Inline.parse, hread, hsaid]

/-- **Escaped text comes out literally.** One line of text, not empty and without white space
at its ends, is a paragraph of just this text once every character that is punctuation has a
backslash before it, whatever the limit on nesting. -/
theorem convert_escape {options : Options} {s : String} (hne : s ≠ "")
    (hends : ∀ c ∈ s.toList, c ≠ '\n' ∧ c ≠ '\r')
    (hfirst : ∀ c ∈ s.toList.head?, Text.isWhite c = false)
    (hlast : ∀ c ∈ s.toList.getLast?, Text.isWhite c = false)
    (hsize : (String.ofList (Text.escape s.toList)).utf8ByteSize ≤ options.limits.maxInputBytes) :
    (convert options (String.ofList (Text.escape s.toList))).result =
      .ok ("<p>" ++ Html.escapeText s ++ "</p>\n") := by
  have hnil : s.toList ≠ [] := fun h => hne (String.toList_eq_nil_iff.mp h)
  have hclear : ∀ c ∈ s.toList, Text.isLineEnd c = false := by
    intro c hc
    simpa [Text.isLineEnd] using hends c hc
  have htexts : LineReader.texts (String.ofList (Text.escape s.toList)).toList =
      [Text.escape s.toList] := by
    rw [String.toList_ofList]
    exact LineReader.texts_word (Text.escape_ne_nil hnil) (Text.isLineEnd_of_mem_escape hclear)
  have hkind : ∀ raw ∈ [Text.escape s.toList], ∀ number,
      Line.classify number raw = ⟨number, raw, 0, 0, .text raw⟩ := by
    intro raw hraw number
    obtain ⟨c, t, ht⟩ := List.exists_cons_of_ne_nil hnil
    rw [List.mem_singleton.mp hraw, ht]
    exact Line.classify_escape number (hfirst c (by rw [ht]; rfl))
  have hjoin : joinLines [Text.escape s.toList] = Text.escape s.toList :=
    joinLines_singleton (Text.isWhite_head?_escape hfirst) (by rwa [Text.getLast?_escape])
  have hparse : Document.parse options.limits (String.ofList (Text.escape s.toList)) =
      .ok [.paragraph [.text s]] := by
    rw [Document.parse_text hsize htexts hkind, hjoin, Inline.parse_escape hnil hclear,
      String.ofList_toList]
    rfl
  rw [convert_result, hparse, ← Document.toHtml_text s options.render]
  rfl

/-- A text of every kind of syntax, under a limit that admits no nesting at all. -/
theorem convert_escape_syntax :
    String.ofList (Text.escape "1. *a* [b](c) `d` \\ <e>".toList) =
        "1\\. \\*a\\* \\[b\\]\\(c\\) \\`d\\` \\\\ \\<e\\>" ∧
      (convert { limits := { maxNesting := 0 } }
        (String.ofList (Text.escape "1. *a* [b](c) `d` \\ <e>".toList))).result =
        .ok "<p>1. *a* [b](c) `d` \\ &lt;e&gt;</p>\n" := by
  refine ⟨by decide, ?_⟩
  rw [convert_escape (by decide) (by simp) (by rintro c ⟨⟩; rfl) (by rintro c ⟨⟩; rfl) (by decide)]
  rfl

end MarkdownHtml
