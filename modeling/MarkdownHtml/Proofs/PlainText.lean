/-
# Text without syntax passes through

Running text is unmarked if it holds no character that marks something and no space before a
line feed (`Text.Unmarked`). Its tokens are literal and say just what stands there, also in
front of a run of delimiters, which is cut off as a token of its own
(`Token.Tiles.unmarked_append`).

A line that starts nothing and holds no such character is plain (`Line.IsPlain`). Plain lines
with a line feed between each two are cut where they were joined, each is text, and joined
again they are unmarked: white space stands at neither end of a line, so that trimming takes
nothing and no break is hard. The text comes out as one paragraph of itself
(`convert_plain`).

Key definitions: `Text.markers`, `Text.Unmarked`, `Line.IsPlain`.
Key theorems: `Token.front_unmarked`, `Token.Tiles.unmarked_append`, `Inline.parse_unmarked`,
`LineReader.texts_intercalate`, `joinLines_plain`, `unmarked_intercalate`, `convert_plain`.
-/
import MarkdownHtml.Proofs.LiteralText

namespace MarkdownHtml

/-! ### Unmarked text -/

namespace Text

/-- The characters that code spans, emphasis, links, images and escapes start with, and the
carriage return. -/
def markers : List Char := ['\x60', '*', '_', '[', '\\', '\r']

/-- No character marks anything, and no space stands before a line feed. -/
structure Unmarked (s : List Char) : Prop where
  clear : ∀ c ∈ s, c ∉ markers
  unbroken : s.IsChain fun a b => ¬ (a = ' ' ∧ b = '\n')

theorem Unmarked.of_append_right {s t : List Char} (h : Unmarked (s ++ t)) : Unmarked t where
  clear c hc := h.clear c (List.mem_append_right s hc)
  unbroken := h.unbroken.right_of_append

/-- Without a line feed there is no space before one. -/
theorem unmarked_of_clear {s : List Char} (h : ∀ c ∈ s, c ∉ markers ∧ c ≠ '\n') :
    Unmarked s where
  clear c hc := (h c hc).1
  unbroken := by
    apply (List.isChain_isInfix s).imp
    rintro a b hpair ⟨-, hfeed⟩
    have hmem : b ∈ s := hpair.subset (by simp)
    exact (h b hmem).2 hfeed

/-- A line feed joins unmarked texts, the first of which does not end with a space. -/
theorem Unmarked.append_feed {s t : List Char} (hs : Unmarked s) (ht : Unmarked t)
    (hlast : ∀ c ∈ s.getLast?, c ≠ ' ') : Unmarked (s ++ '\n' :: t) where
  clear c hc := by
    rcases List.mem_append.mp hc with hc | hc
    · exact hs.clear c hc
    · rcases List.mem_cons.mp hc with rfl | hc
      · decide
      · exact ht.clear c hc
  unbroken := by
    have hrest : ('\n' :: t).IsChain fun a b => ¬ (a = ' ' ∧ b = '\n') := by
      apply ht.unbroken.cons
      rintro b - ⟨hspace, -⟩
      exact absurd hspace (by decide)
    apply hs.unbroken.append hrest
    rintro a ha b - ⟨hspace, -⟩
    exact hlast a ha hspace

end Text

namespace Token

/-- Spaces in unmarked text lead to no line end, nor does a delimiter behind them. -/
theorem scanSpace_unmarked {s tail : List Char} (h : Text.Unmarked s)
    (htail : ∀ d ∈ tail.head?, d = '*' ∨ d = '_') :
    scanSpace (s ++ tail) = (.blank, countWhile Text.isPad s) := by
  have hspaces : countWhile (· == ' ') (s ++ tail) = countWhile (· == ' ') s := by
    apply countWhile_append
    intro d hd
    rcases htail d hd with rfl | rfl <;> rfl
  have hpads : countWhile Text.isPad (s ++ tail) = countWhile Text.isPad s := by
    apply countWhile_append
    intro d hd
    rcases htail d hd with rfl | rfl <;> rfl
  have hle := countWhile_le (· == ' ') s
  have hsoft : ¬ (1 ≤ countWhile (· == ' ') s ∧
      1 ≤ lineEndLength ((s ++ tail).drop (countWhile (· == ' ') s))) := by
    rintro ⟨hsome, hend⟩
    rw [List.drop_append_of_le_length hle, drop_countWhile] at hend
    have hcut : s.takeWhile (· == ' ') ++ s.dropWhile (· == ' ') = s :=
      List.takeWhile_append_dropWhile
    cases hrest : s.dropWhile (· == ' ') with
    | nil =>
      rw [hrest, List.nil_append] at hend
      cases tail with
      | nil => exact absurd hend (by simp [lineEndLength])
      | cons d tail => rcases htail d rfl with rfl | rfl <;> simp [lineEndLength] at hend
    | cons d rest =>
      rw [hrest] at hend hcut
      have hd : d ∉ Text.markers := h.clear d (hcut ▸ List.mem_append_right _ List.mem_cons_self)
      have hfeed : d = '\n' := by
        unfold lineEndLength at hend
        split at hend
        · rename_i heq
          exact (List.cons.inj heq).1
        · rename_i heq
          rw [(List.cons.inj heq).1] at hd
          exact absurd hd (by decide)
        · exact absurd hend (by omega)
      -- the last of the spaces stands right before the line feed
      have hne : s.takeWhile (· == ' ') ≠ [] := by
        intro hnil
        rw [countWhile, hnil] at hsome
        exact absurd hsome (by simp)
      obtain ⟨last, hlast⟩ := Option.ne_none_iff_exists'.mp (mt List.getLast?_eq_none_iff.mp hne)
      have hspace : last = ' ' := by
        have hmem : last ∈ s.takeWhile (· == ' ') := List.mem_of_getLast? hlast
        simpa using List.all_eq_true.mp List.all_takeWhile last hmem
      have hchain := h.unbroken
      rw [← hcut] at hchain
      exact (List.isChain_append.mp hchain).2.2 last hlast d rfl ⟨hspace, hfeed⟩
  unfold scanSpace
  simp only [hspaces, hpads]
  rw [if_neg hsoft]

/-- The first token of unmarked text, in front of a delimiter or of nothing, is literal and
ends within the text. -/
theorem front_unmarked (start : Nat) (before : Option Char) {c : Char} {s tail : List Char}
    (h : Text.Unmarked (c :: s)) (htail : ∀ d ∈ tail.head?, d = '*' ∨ d = '_') :
    ∃ more ≤ s.length, (front start before c (s ++ tail)).isLiteral = true ∧
      (front start before c (s ++ tail)).lexeme = c :: s.take more ∧
      (Atom.token (front start before c (s ++ tail))).literal = c :: s.take more ∧
      (front start before c (s ++ tail)).after = s.drop more ++ tail := by
  -- what has to be known of a kind and a length that `scan` gives
  have hscan : ∀ (kind : TokenKind) (more : Nat), scan c (s ++ tail) = (kind, more) →
      more ≤ s.length → kind = .text ∨ kind = .blank ∨ kind = .rightBracket ∨
        kind = .leftParen ∨ kind = .rightParen ∨ kind = .softBreak ∧ c = '\n' ∧ more = 0 →
      ∃ more ≤ s.length, (front start before c (s ++ tail)).isLiteral = true ∧
        (front start before c (s ++ tail)).lexeme = c :: s.take more ∧
        (Atom.token (front start before c (s ++ tail))).literal = c :: s.take more ∧
        (front start before c (s ++ tail)).after = s.drop more ++ tail := by
    intro kind more heq hle hkind
    have hk : (front start before c (s ++ tail)).kind = kind := by rw [front, heq]
    have hlexeme : (front start before c (s ++ tail)).lexeme = c :: s.take more := by
      rw [front, heq]
      simp only [List.take_append_of_le_length hle]
    refine ⟨more, hle, ?_, hlexeme, ?_, ?_⟩
    · rcases hkind with rfl | rfl | rfl | rfl | rfl | ⟨rfl, -, -⟩ <;> rw [isLiteral, hk]
    · rcases hkind with rfl | rfl | rfl | rfl | rfl | ⟨rfl, rfl, rfl⟩ <;>
        simp only [Atom.literal, hk, hlexeme, List.take_zero]
    · rw [front, heq]
      simp only [List.drop_append_of_le_length hle]
  have hc : c ∉ Text.markers := h.clear c List.mem_cons_self
  have hs : Text.Unmarked s := Text.Unmarked.of_append_right (s := [c]) h
  have hrun : ∀ p : Char → Bool, p '*' = false → p '_' = false →
      countWhile p (s ++ tail) = countWhile p s := by
    intro p hstar hscore
    apply countWhile_append
    intro d hd
    rcases htail d hd with rfl | rfl
    · exact hstar
    · exact hscore
  cases heq : scan c (s ++ tail) with
  | mk kind more =>
    have hcases := heq
    unfold scan at hcases
    split at hcases
    · exact absurd hc (by decide)
    · exact absurd hc (by decide)
    · exact absurd hc (by decide)
    · -- an exclamation mark stands before no bracket
      have hbracket : (s ++ tail).head? ≠ some '[' := by
        intro hhead
        cases s with
        | nil => rcases htail '[' hhead with h | h <;> exact absurd h (by decide)
        | cons d s =>
          obtain rfl : d = '[' := Option.some.inj hhead
          exact absurd (hs.clear '[' List.mem_cons_self) (by decide)
      rw [if_neg hbracket] at hcases
      obtain ⟨rfl, rfl⟩ := Prod.mk.inj hcases
      exact hscan _ _ heq (Nat.zero_le _) (by simp)
    · exact absurd hc (by decide)
    · obtain ⟨rfl, rfl⟩ := Prod.mk.inj hcases
      exact hscan _ _ heq (Nat.zero_le _) (by simp)
    · obtain ⟨rfl, rfl⟩ := Prod.mk.inj hcases
      exact hscan _ _ heq (Nat.zero_le _) (by simp)
    · obtain ⟨rfl, rfl⟩ := Prod.mk.inj hcases
      exact hscan _ _ heq (Nat.zero_le _) (by simp)
    · exact absurd hc (by decide)
    · obtain ⟨rfl, rfl⟩ := Prod.mk.inj hcases
      exact hscan _ _ heq (Nat.zero_le _) (by simp)
    · exact absurd hc (by decide)
    · rw [scanSpace_unmarked hs htail] at hcases
      obtain ⟨rfl, rfl⟩ := Prod.mk.inj hcases
      exact hscan _ _ heq (countWhile_le _ _) (by simp)
    · rw [hrun Text.isPad rfl rfl] at hcases
      obtain ⟨rfl, rfl⟩ := Prod.mk.inj hcases
      exact hscan _ _ heq (countWhile_le _ _) (by simp)
    · rw [hrun isPlain rfl rfl] at hcases
      obtain ⟨rfl, rfl⟩ := Prod.mk.inj hcases
      exact hscan _ _ heq (countWhile_le _ _) (by simp)

/-- **Unmarked text is literal**, also in front of a delimiter, where its tokens end. -/
theorem Tiles.unmarked_append {start : Nat} {before : Option Char} {s tail : List Char}
    {ts : List Token} (hs : Text.Unmarked s) (htail : ∀ d ∈ tail.head?, d = '*' ∨ d = '_')
    (h : Tiles start before (s ++ tail) ts) :
    ∃ us vs, ts = us ++ vs ∧ (∀ t ∈ us, t.isLiteral = true) ∧ us.flatMap lexeme = s ∧
      literalText us = s ∧
      Tiles (start + Text.byteLength s) (s.getLast?.or before) tail vs := by
  generalize htext : s ++ tail = text at h
  induction h generalizing s with
  | nil start before =>
    obtain ⟨rfl, rfl⟩ := List.append_eq_nil_iff.mp htext
    exact ⟨[], [], rfl, by simp, rfl, rfl, .nil _ _⟩
  | @cons start before c rest ts htiles ih =>
    cases s with
    | nil =>
      rw [List.nil_append] at htext
      subst htext
      exact ⟨[], _, rfl, by simp, rfl, rfl, .cons htiles⟩
    | cons d s =>
      obtain ⟨rfl, rfl⟩ := List.cons.inj htext
      obtain ⟨more, hle, hliteral, hlexeme, hsaid, hafter⟩ :=
        front_unmarked start before hs htail
      have hword : (d :: s.take more) ++ s.drop more = d :: s := by simp
      have hrest : Text.Unmarked (s.drop more) := by
        apply Text.Unmarked.of_append_right (s := d :: s.take more)
        rwa [hword]
      obtain ⟨us, vs, rfl, hall, hlexemes, hus, hvs⟩ := ih hrest hafter.symm
      refine ⟨front start before d (s ++ tail) :: us, vs, rfl, ?_, ?_, ?_, ?_⟩
      · intro t ht
        rcases List.mem_cons.mp ht with rfl | ht
        · exact hliteral
        · exact hall t ht
      · rw [List.flatMap_cons, hlexeme, hlexemes, hword]
      · unfold literalText at hus ⊢
        rw [List.flatMap_cons, hsaid, hus, hword]
      · have hstop : (front start before d (s ++ tail)).stop + Text.byteLength (s.drop more) =
            start + Text.byteLength (d :: s) := by
          have hsize := congrArg Text.byteLength hword
          rw [Text.byteLength_append] at hsize
          rw [stop, hlexeme, ← hsize, Nat.add_assoc]
          rfl
        have hlast : (s.drop more).getLast?.or (d :: s.take more).getLast? =
            (d :: s).getLast?.or before := by
          have happend : (d :: s).getLast? =
              (s.drop more).getLast?.or (d :: s.take more).getLast? := by
            rw [← List.getLast?_append, hword]
          rw [← happend]
          simp [List.getLast?_cons]
        rw [← hstop, ← hlast, ← hlexeme]
        exact hvs

end Token

/-- Unmarked running text is one text node. -/
theorem Inline.parse_unmarked {s : List Char} (h : Text.Unmarked s) (hne : s ≠ [])
    (limits : Limits) : Inline.parse limits s = .ok [.text (String.ofList s)] := by
  have htiles := Token.tiles_ofText s
  rw [← List.append_nil s] at htiles
  obtain ⟨us, vs, hus, hliteral, -, hsaid, hvs⟩ := htiles.unmarked_append h (by simp)
  obtain rfl : vs = [] := by
    cases hvs
    rfl
  rw [List.append_nil, List.append_nil] at hus
  rw [← hus] at hliteral hsaid
  rw [Inline.parse, Inline.read_literal hliteral (by rwa [hsaid]), hsaid]

/-! ### Plain lines -/

/-- A line that starts nothing and marks nothing: it is not empty, its first character is
neither white space nor a digit nor one that can start a block, its last character is not
white space, and it holds no line end and no character that marks something. -/
structure Line.IsPlain (raw : List Char) : Prop where
  ne_nil : raw ≠ []
  clear : ∀ c ∈ raw, c ∉ Text.markers ∧ c ≠ '\n'
  first : ∀ c ∈ raw.head?, Text.isWhite c = false ∧ c.isDigit = false ∧
    c ∉ ['#', '>', '~', '-', '+']
  last : ∀ c ∈ raw.getLast?, Text.isWhite c = false

namespace Line.IsPlain

variable {raw : List Char}

theorem isLineEnd (h : IsPlain raw) : ∀ c ∈ raw, Text.isLineEnd c = false := by
  intro c hc
  obtain ⟨hmark, hfeed⟩ := h.clear c hc
  have hreturn : c ≠ '\r' := by
    rintro rfl
    exact hmark (by decide)
  simp [Text.isLineEnd, hfeed, hreturn]

/-- A plain line is text. -/
theorem classify (h : IsPlain raw) (number : Nat) :
    Line.classify number raw = ⟨number, raw, 0, 0, .text raw⟩ := by
  obtain ⟨c, s, rfl⟩ := List.exists_cons_of_ne_nil h.ne_nil
  obtain ⟨hwhite, hdigit, hstart⟩ := h.first c rfl
  have hmark : c ∉ Text.markers := (h.clear c List.mem_cons_self).1
  have hstarters : c ∉ Line.starters := by
    have hall : Line.starters.all fun d =>
        Text.markers.contains d || ['#', '>', '~', '-', '+'].contains d := rfl
    intro hc
    have hcase := List.all_eq_true.mp hall c hc
    rw [Bool.or_eq_true, List.contains_iff_mem, List.contains_iff_mem] at hcase
    exact hcase.elim hmark hstart
  have hnumber : Marker.readOrdered? (c :: s) = none := by
    simp [Marker.readOrdered?, hdigit]
  exact Line.classify_text number hwhite hstarters hnumber

end Line.IsPlain

/-- Lines with a line feed between each two are cut where they were joined. -/
theorem LineReader.texts_intercalate {lines : List (List Char)}
    (hends : ∀ line ∈ lines, ∀ c ∈ line, Text.isLineEnd c = false)
    (hne : ∀ line ∈ lines, line ≠ []) : texts (List.intercalate ['\n'] lines) = lines := by
  induction lines with
  | nil => rfl
  | cons line lines ih =>
    have hline := hends line List.mem_cons_self
    cases lines with
    | nil =>
      rw [List.intercalate_singleton]
      exact texts_word (hne line List.mem_cons_self) hline
    | cons next lines =>
      rw [List.intercalate_cons_cons, List.append_assoc, List.singleton_append,
        texts_line hline, ih (fun l hl => hends l (List.mem_cons_of_mem _ hl))
          fun l hl => hne l (List.mem_cons_of_mem _ hl)]

/-- Joined lines end as the last of them. -/
theorem getLast?_intercalate {lines : List (List Char)} (hne : ∀ line ∈ lines, line ≠ []) :
    (List.intercalate ['\n'] lines).getLast? = lines.getLast?.bind List.getLast? := by
  induction lines with
  | nil => rfl
  | cons line lines ih =>
    cases lines with
    | nil => simp
    | cons next lines =>
      have hrest := ih fun l hl => hne l (List.mem_cons_of_mem _ hl)
      rw [List.intercalate_cons_cons, List.getLast?_append, hrest, List.getLast?_cons_cons]
      obtain ⟨final, hfinal⟩ : ∃ final, (next :: lines).getLast? = some final :=
        ⟨_, List.getLast?_cons⟩
      have hmem : final ∈ next :: lines := List.mem_of_getLast? hfinal
      obtain ⟨c, hc⟩ : ∃ c, final.getLast? = some c :=
        Option.ne_none_iff_exists'.mp (by simpa using hne final (List.mem_cons_of_mem _ hmem))
      rw [hfinal, Option.bind_some, hc]
      rfl

/-- Plain lines are joined as they are. -/
theorem joinLines_plain {lines : List (List Char)} (h : ∀ line ∈ lines, Line.IsPlain line) :
    joinLines lines = List.intercalate ['\n'] lines := by
  have hfront : lines.map Text.trimStart = lines := by
    have hsame : ∀ line ∈ lines, Text.trimStart line = id line := fun line hline =>
      Text.trimStart_eq_self fun c hc => ((h line hline).first c hc).1
    rw [List.map_congr_left hsame, List.map_id]
  rw [joinLines, hfront]
  apply Text.trimEnd_eq_self
  intro c hc
  rw [getLast?_intercalate fun line hline => (h line hline).ne_nil] at hc
  obtain ⟨final, hfinal, hlast⟩ := Option.bind_eq_some_iff.mp hc
  exact (h final (List.mem_of_getLast? hfinal)).last c hlast

/-- Plain lines, joined, are unmarked. -/
theorem unmarked_intercalate {lines : List (List Char)} (h : ∀ line ∈ lines, Line.IsPlain line) :
    Text.Unmarked (List.intercalate ['\n'] lines) := by
  induction lines with
  | nil => exact ⟨by simp, by simp⟩
  | cons line lines ih =>
    have hline := h line List.mem_cons_self
    have hunmarked : Text.Unmarked line := Text.unmarked_of_clear hline.clear
    cases lines with
    | nil =>
      rw [List.intercalate_singleton]
      exact hunmarked
    | cons next lines =>
      have hrest := ih fun l hl => h l (List.mem_cons_of_mem _ hl)
      have hlast : ∀ c ∈ line.getLast?, c ≠ ' ' := by
        rintro c hc rfl
        exact absurd (hline.last ' ' hc) (by decide)
      rw [List.intercalate_cons_cons, List.append_assoc, List.singleton_append]
      exact hunmarked.append_feed hrest hlast

/-- **Text without syntax passes through.** Plain lines, one or more, with a line feed between
each two, are one paragraph of just this text, whatever the limit on nesting. -/
theorem convert_plain {options : Options} {lines : List String} (hne : lines ≠ [])
    (hplain : ∀ line ∈ lines, Line.IsPlain line.toList)
    (hsize : ("\n".intercalate lines).utf8ByteSize ≤ options.limits.maxInputBytes) :
    (convert options ("\n".intercalate lines)).result =
      .ok ("<p>" ++ Html.escapeText ("\n".intercalate lines) ++ "</p>\n") := by
  have hraws : ∀ raw ∈ lines.map String.toList, Line.IsPlain raw := by
    intro raw hraw
    obtain ⟨line, hline, rfl⟩ := List.mem_map.mp hraw
    exact hplain line hline
  have htext : ("\n".intercalate lines).toList =
      List.intercalate ['\n'] (lines.map String.toList) := String.toList_intercalate
  have htexts : LineReader.texts ("\n".intercalate lines).toList = lines.map String.toList := by
    rw [htext]
    exact LineReader.texts_intercalate (fun raw hraw => (hraws raw hraw).isLineEnd)
      fun raw hraw => (hraws raw hraw).ne_nil
  obtain ⟨first, more, hlines⟩ :=
    List.exists_cons_of_ne_nil (mt List.map_eq_nil_iff.mp hne : lines.map String.toList ≠ [])
  have hjoined : joinLines (first :: more) = ("\n".intercalate lines).toList := by
    rw [htext, ← hlines]
    exact joinLines_plain hraws
  have hunmarked : Text.Unmarked ("\n".intercalate lines).toList := by
    rw [htext]
    exact unmarked_intercalate hraws
  have hnil : ("\n".intercalate lines).toList ≠ [] := by
    intro hempty
    rw [hempty] at htexts
    exact absurd htexts.symm (by rw [hlines]; simp [LineReader.texts, LineReader.split])
  have hnodes : Inline.parse options.limits (joinLines (first :: more)) =
      .ok [.text ("\n".intercalate lines)] := by
    rw [hjoined, Inline.parse_unmarked hunmarked hnil, String.ofList_toList]
  have hparse : Document.parse options.limits ("\n".intercalate lines) =
      .ok [.paragraph [.text ("\n".intercalate lines)]] := by
    rw [hlines] at htexts hraws
    rw [Document.parse_text hsize htexts fun raw hraw => (hraws raw hraw).classify, hnodes]
    rfl
  rw [convert_result, hparse]
  exact congrArg Except.ok (Document.toHtml_text _ options.render)

/-- Lines with entities, brackets and white space of all kinds, under a limit that admits no
nesting at all. -/
theorem convert_plain_lines :
    ((∀ line ∈ ["a & b", "(c)] ! 1. <d>", "é\u00a0  # -"], Line.IsPlain line.toList) ∧
      "\n".intercalate ["a & b", "(c)] ! 1. <d>", "é\u00a0  # -"] =
        "a & b\n(c)] ! 1. <d>\né\u00a0  # -") ∧
      (convert { limits := { maxNesting := 0 } }
        ("\n".intercalate ["a & b", "(c)] ! 1. <d>", "é\u00a0  # -"])).result =
        .ok "<p>a &amp; b\n(c)] ! 1. &lt;d&gt;\né\u00a0  # -</p>\n" := by
  have hplain : ∀ line ∈ ["a & b", "(c)] ! 1. <d>", "é\u00a0  # -"],
      Line.IsPlain line.toList := by
    intro line hline
    simp only [List.mem_cons, List.not_mem_nil, or_false] at hline
    rcases hline with rfl | rfl | rfl <;>
      exact ⟨by decide, by simp [Text.markers], by rintro c ⟨⟩; decide, by rintro c ⟨⟩; decide⟩
  refine ⟨⟨hplain, by decide⟩, ?_⟩
  rw [convert_plain (by simp) hplain (by decide)]
  rfl

end MarkdownHtml
