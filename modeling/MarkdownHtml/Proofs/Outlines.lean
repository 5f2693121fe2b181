/-
# An outline tells the document

Two documents with the same outline are the same (`Document.outline_faithful`), whichever
characters quoted texts show by their number.

Read from its top, the line of a node tells the node but for what is inside it
(`Outline.inlineLine_inj`, `Outline.blockLine_inj`), if the language of code is one word and
markers are those of lists (`Block.Usual`, which holds of all that is parsed). What is inside a
node are the lines behind it that are indented deeper: they end with the text, or where a line is
indented less (`Outline.Stops`). The trees are compared with any text behind them that stops
there (`Outline.inlinesText_inj`, `Outline.blocksText_inj`).

Key definitions: `Block.Usual`, `Outline.Label`, `Outline.Stops`.
Key theorems: `Outline.inlineLine_inj`, `Outline.blockLine_inj`, `Outline.inlinesText_inj`,
`Outline.blocksText_inj`, `Document.usual_of_parse`, `Document.outline_faithful`.
-/
import MarkdownHtml.Outline
import MarkdownHtml.Proofs.LineGroups
import MarkdownHtml.Proofs.Markup
import MarkdownHtml.Proofs.NestingLimit
import MarkdownHtml.Proofs.QuotedTexts

namespace MarkdownHtml

/-- The markers of lists. -/
def ListKind.Usual : ListKind → Prop
  | .bullet mark => mark = '-' ∨ mark = '*' ∨ mark = '+'
  | .ordered _ delimiter => delimiter = '.' ∨ delimiter = ')'

/-- Items have the markers of lists, and code that names a language names it by one word. -/
def Block.Usual : Block → Prop
  | .item list _ _ => list.Usual
  | .code language _ =>
    ∀ word ∈ language, word ≠ "" ∧ ∀ c ∈ word.toList, Text.isWhite c = false
  | _ => True

/-! ### Nodes without what is inside them -/

namespace Inline

/-- The nodes inside a node. -/
def children : Inline → List Inline
  | .emphasis children => children
  | .strong children => children
  | .link _ _ children => children
  | _ => []

/-- The node without the nodes inside it. -/
def bare : Inline → Inline
  | .emphasis _ => .emphasis []
  | .strong _ => .strong []
  | .link href title _ => .link href title []
  | n => n

theorem eq_of_bare {n m : Inline} (hbare : n.bare = m.bare) (h : n.children = m.children) :
    n = m := by
  cases n <;> cases m <;> simp_all [bare, children]

mutual

theorem children_induction {P : List Inline → Prop} (nil : P [])
    (cons : ∀ n ns, P n.children → P ns → P (n :: ns)) : ∀ n : Inline, P n.children
  | .emphasis children => forest_induction nil cons children
  | .strong children => forest_induction nil cons children
  | .link _ _ children => forest_induction nil cons children
  | .text _ => nil
  | .code _ => nil
  | .image _ _ _ => nil
  | .lineBreak => nil

/-- Induction over nodes in a row and the nodes inside them. -/
theorem forest_induction {P : List Inline → Prop} (nil : P [])
    (cons : ∀ n ns, P n.children → P ns → P (n :: ns)) : ∀ ns : List Inline, P ns
  | [] => nil
  | n :: ns => cons n ns (children_induction nil cons n) (forest_induction nil cons ns)

end

end Inline

namespace Block

/-- The blocks inside a block. -/
def inside : Block → List Block
  | .quote blocks => blocks
  | _ => []

/-- The block without what is inside it. -/
def bare : Block → Block
  | .paragraph _ => .paragraph []
  | .heading level _ => .heading level []
  | .item list depth _ => .item list depth []
  | .quote _ => .quote []
  | b => b

theorem eq_of_bare {b c : Block} (hbare : b.bare = c.bare) (hcontent : b.content = c.content)
    (hinside : b.inside = c.inside) : b = c := by
  cases b <;> cases c <;> simp_all [bare, content, inside]

/-- A block holds running text or blocks, and one like it holds the same of both. -/
theorem text_or_blocks {b c : Block} (hbare : b.bare = c.bare) :
    b.inside = [] ∧ c.inside = [] ∨ b.content = [] ∧ c.content = [] := by
  cases b <;> cases c <;> simp_all [bare, content, inside]

mutual

theorem inside_induction {P : List Block → Prop} (nil : P [])
    (cons : ∀ b bs, P b.inside → P bs → P (b :: bs)) : ∀ b : Block, P b.inside
  | .quote blocks => forest_induction nil cons blocks
  | .paragraph _ => nil
  | .heading _ _ => nil
  | .item _ _ _ => nil
  | .code _ _ => nil
  | .rule => nil

/-- Induction over blocks in a row and the blocks inside them. -/
theorem forest_induction {P : List Block → Prop} (nil : P [])
    (cons : ∀ b bs, P b.inside → P bs → P (b :: bs)) : ∀ bs : List Block, P bs
  | [] => nil
  | b :: bs => cons b bs (inside_induction nil cons b) (forest_induction nil cons bs)

end

theorem preorderAll_cons (b : Block) (bs : List Block) :
    preorderAll (b :: bs) = b :: (preorderAll b.inside ++ preorderAll bs) := by
  cases b <;> simp [preorderAll, preorder, inside]

end Block

namespace Outline

open Text

variable {hidden : Char → Bool}

/-! ### What a line tells -/

/-- The text of a line: it starts with no blank and holds no line feed. -/
structure Label (s : List Char) : Prop where
  start : ∃ c rest, s = c :: rest ∧ c ≠ ' '
  clear : '\n' ∉ s

theorem digits_injective {m n : Nat} (h : (toString m).toList = (toString n).toList) : m = n := by
  rw [Nat.toString_eq_ofList_toDigits, Nat.toString_eq_ofList_toDigits, String.toList_ofList,
    String.toList_ofList] at h
  rw [← Nat.ofDigitChars_ten_toDigits (n := m), h, Nat.ofDigitChars_ten_toDigits]

theorem not_mem_digits {c : Char} (hc : c.isDigit = false) (n : Nat) : c ∉ (toString n).toList := by
  intro h
  rw [Html.isDigit_of_mem_toString c h] at hc
  exact absurd hc (by simp)

theorem label_inlineLine (n : Inline) : Label (inlineLine hidden n).toList := by
  have hquoted := feed_not_mem_quotedBy hidden
  have hoption := feed_not_mem_quotedOptionBy hidden
  refine ⟨?_, ?_⟩
  · cases n <;> simp [inlineLine]
  · cases n <;> simp [inlineLine, hquoted, hoption]

/-- The line of a node tells the node, but for the nodes inside it. -/
theorem inlineLine_inj {n m : Inline}
    (h : (inlineLine hidden n).toList = (inlineLine hidden m).toList) : n.bare = m.bare := by
  have hquoted := selfDelimiting_quotedBy hidden
  have hoption := selfDelimiting_quotedOptionBy hidden
  -- the first letters tell the kinds of nodes apart
  cases n <;> cases m <;> try (simp [inlineLine] at h; done)
  case text.text s t =>
    have hst : (quotedBy hidden s).toList = (quotedBy hidden t).toList := by
      simpa [inlineLine] using h
    rw [hquoted.injective hst]
  case code.code s t =>
    have hst : (quotedBy hidden s).toList = (quotedBy hidden t).toList := by
      simpa [inlineLine] using h
    rw [hquoted.injective hst]
  case emphasis.emphasis => rfl
  case strong.strong => rfl
  case lineBreak.lineBreak => rfl
  case link.link href title _ href' title' _ =>
    simp only [inlineLine, String.toList_append, List.append_assoc,
      List.append_cancel_left_eq] at h
    obtain ⟨rfl, htitle⟩ := hquoted href href' _ _ h
    rw [List.append_cancel_left_eq] at htitle
    rw [hoption.injective htitle]
    rfl
  case image.image source alt title source' alt' title' =>
    simp only [inlineLine, String.toList_append, List.append_assoc,
      List.append_cancel_left_eq] at h
    obtain ⟨rfl, hrest⟩ := hquoted source source' _ _ h
    rw [List.append_cancel_left_eq] at hrest
    obtain ⟨rfl, htitle⟩ := hquoted alt alt' _ _ hrest
    rw [List.append_cancel_left_eq] at htitle
    rw [hoption.injective htitle]

/-- Markers hold no blank and no line feed. -/
theorem not_mem_markerText {list : ListKind} (h : list.Usual) {c : Char}
    (hc : c = ' ' ∨ c = '\n') : c ∉ (markerText list).toList := by
  cases list with
  | bullet mark =>
    simp only [markerText, Char.toString, String.toList_singleton, List.mem_singleton]
    rintro rfl
    rcases h with rfl | rfl | rfl <;> simp at hc
  | ordered start delimiter =>
    simp only [markerText, Char.toString, String.toList_append, String.toList_singleton,
      List.mem_append, List.mem_singleton, not_or]
    refine ⟨not_mem_digits ?_ start, ?_⟩
    · rcases hc with rfl | rfl <;> rfl
    · rintro rfl
      rcases h with rfl | rfl <;> simp at hc

/-- The marker of an item tells its list: a bullet is a single character, and a number has a
delimiter behind it. -/
theorem markerText_inj {list list' : ListKind}
    (h : (markerText list).toList = (markerText list').toList) : list = list' := by
  have hlong : ∀ (mark : Char) (start : Nat) (delimiter : Char),
      [mark] ≠ (toString start).toList ++ [delimiter] := by
    intro mark start delimiter heq
    have hlength := congrArg List.length heq
    have hpos : 0 < (toString start).toList.length := by
      rw [Nat.toString_eq_ofList_toDigits, String.toList_ofList]
      exact Nat.length_toDigits_pos
    simp only [List.length_append, List.length_singleton] at hlength
    omega
  cases list with
  | bullet mark =>
    cases list' with
    | bullet mark' =>
      simp only [markerText, Char.toString, String.toList_singleton, List.cons.injEq] at h
      rw [h.1]
    | ordered start' delimiter' =>
      simp only [markerText, Char.toString, String.toList_append, String.toList_singleton] at h
      exact absurd h (hlong _ _ _)
  | ordered start delimiter =>
    simp only [markerText, Char.toString, String.toList_append, String.toList_singleton] at h
    cases list' with
    | bullet mark' =>
      simp only [String.toList_singleton] at h
      exact absurd h.symm (hlong _ _ _)
    | ordered start' delimiter' =>
      simp only [String.toList_append, String.toList_singleton] at h
      obtain ⟨hstart, hdelimiter⟩ := List.append_inj' h rfl
      rw [digits_injective hstart, (List.cons.inj hdelimiter).1]

theorem not_mem_language {language : Option String} {raw : String}
    (h : (Block.code language raw).Usual) {c : Char} (hc : Text.isWhite c = true) :
    c ∉ (language.getD "").toList := by
  cases language with
  | none => simp
  | some word =>
    intro hmem
    have hword := (h word rfl).2 c hmem
    rw [hc] at hword
    exact absurd hword (by simp)

/-- A language that is named is not empty. -/
theorem language_inj {language language' : Option String} {raw raw' : String}
    (hb : (Block.code language raw).Usual) (hc : (Block.code language' raw').Usual)
    (h : language.getD "" = language'.getD "") : language = language' := by
  cases language with
  | none =>
    cases language' with
    | none => rfl
    | some word => exact absurd h.symm (hc word rfl).1
  | some word =>
    cases language' with
    | none => exact absurd h (hb word rfl).1
    | some word' => exact congrArg some h

theorem label_blockLine {b : Block} (h : b.Usual) : Label (blockLine hidden b).toList := by
  have hdigits := not_mem_digits (c := '\n') rfl
  refine ⟨?_, ?_⟩
  · cases b <;> simp [blockLine]
  · cases b with
    | paragraph content => simp [blockLine]
    | heading level content => simpa [blockLine] using hdigits level
    | item list depth content =>
      have hmarker := not_mem_markerText h (.inr rfl)
      simpa [blockLine, hmarker] using hdigits depth
    | code language raw =>
      have hlanguage := not_mem_language h (c := '\n') (by decide)
      simpa [blockLine, hlanguage] using feed_not_mem_quotedBy hidden raw
    | quote blocks => simp [blockLine]
    | rule => simp [blockLine]

/-- The line of a block tells the block, but for what is inside it. -/
theorem blockLine_inj {b c : Block} (hb : b.Usual) (hc : c.Usual)
    (h : (blockLine hidden b).toList = (blockLine hidden c).toList) : b.bare = c.bare := by
  -- the first letters tell the kinds of blocks apart
  cases b <;> cases c <;> try (simp [blockLine] at h; done)
  case paragraph.paragraph => rfl
  case quote.quote => rfl
  case rule.rule => rfl
  case heading.heading level _ level' _ =>
    have hlevel : (toString level).toList = (toString level').toList := by
      simpa [blockLine] using h
    rw [digits_injective hlevel]
    rfl
  case item.item list depth _ list' depth' _ =>
    have hparts : (markerText list).toList ++ ' ' :: ("depth=".toList ++
        ((toString depth).toList ++ [')'])) = (markerText list').toList ++ ' ' ::
          ("depth=".toList ++ ((toString depth').toList ++ [')'])) := by
      simpa [blockLine] using h
    obtain ⟨hlist, hrest⟩ := append_stop_inj (not_mem_markerText hb (.inl rfl))
      (not_mem_markerText hc (.inl rfl)) hparts
    rw [List.append_cancel_left_eq, List.append_cancel_right_eq] at hrest
    rw [markerText_inj hlist, digits_injective hrest]
    rfl
  case code.code language raw language' raw' =>
    have hparts : ((language.getD "").toList ++ [')']) ++ ' ' :: (quotedBy hidden raw).toList =
        ((language'.getD "").toList ++ [')']) ++ ' ' :: (quotedBy hidden raw').toList := by
      simpa [blockLine] using h
    have hclear : ∀ {language : Option String} {raw : String}, (Block.code language raw).Usual →
        ' ' ∉ (language.getD "").toList ++ [')'] := by
      intro language raw husual
      simpa using not_mem_language husual (c := ' ') (by decide)
    obtain ⟨hlanguage, hraw⟩ := append_stop_inj (hclear hb) (hclear hc) hparts
    rw [List.append_cancel_right_eq, String.toList_inj] at hlanguage
    rw [language_inj hb hc hlanguage, (selfDelimiting_quotedBy hidden).injective hraw]

/-! ### Where the lines of what is inside end -/

/-- A line with its indentation. -/
def row (indent : Nat) (label : List Char) : List Char :=
  List.replicate (2 * indent) ' ' ++ (label ++ ['\n'])

/-- The text is empty, or starts with a line that is indented less than `indent`. -/
def Stops (indent : Nat) (text : List Char) : Prop :=
  text = [] ∨ ∃ less < indent, ∃ c rest,
    text = List.replicate (2 * less) ' ' ++ c :: rest ∧ c ≠ ' '

variable {indent : Nat} {s t x y : List Char}

/-- Blanks up to the first other character. -/
theorem replicate_append_inj {m n : Nat} {c d : Char} (hc : c ≠ ' ') (hd : d ≠ ' ')
    (h : List.replicate m ' ' ++ c :: x = List.replicate n ' ' ++ d :: y) : m = n := by
  have hcount : ∀ {k : Nat} {e : Char} {z : List Char}, e ≠ ' ' →
      ((List.replicate k ' ' ++ e :: z).takeWhile (· == ' ')).length = k := by
    intro k e z he
    rw [List.takeWhile_append_of_pos (by simp), List.takeWhile_cons_of_neg (by simpa using he),
      List.append_nil, List.length_replicate]
  calc m = ((List.replicate m ' ' ++ c :: x).takeWhile (· == ' ')).length := (hcount hc).symm
    _ = ((List.replicate n ' ' ++ d :: y).takeWhile (· == ' ')).length := by rw [h]
    _ = n := hcount hd

theorem Stops.mono {more : Nat} (h : Stops indent x) (hle : indent ≤ more) : Stops more x := by
  rcases h with rfl | ⟨less, hless, hstart⟩
  · exact .inl rfl
  · exact .inr ⟨less, Nat.lt_of_lt_of_le hless hle, hstart⟩

theorem stops_row {more : Nat} (hs : Label s) (h : indent < more) (x : List Char) :
    Stops more (row indent s ++ x) := by
  obtain ⟨c, rest, rfl, hc⟩ := hs.start
  exact .inr ⟨indent, h, c, rest ++ ['\n'] ++ x, by simp [row], hc⟩

theorem not_stops_row (hs : Label s) (x : List Char) : ¬ Stops indent (row indent s ++ x) := by
  obtain ⟨c, rest, rfl, hc⟩ := hs.start
  rintro (hnil | ⟨less, hless, d, rest', hrow, hd⟩)
  · exact absurd hnil (by simp [row])
  · simp only [row, List.append_assoc, List.cons_append] at hrow
    have hsame := replicate_append_inj hc hd hrow
    omega

/-- A line in front of a text tells what it says, and the text. -/
theorem row_append_inj (hs : Label s) (ht : Label t) (h : row indent s ++ x = row indent t ++ y) :
    s = t ∧ x = y := by
  simp only [row, List.append_assoc, List.append_cancel_left_eq, List.singleton_append] at h
  exact append_stop_inj hs.clear ht.clear h

/-! ### The text of an outline -/

theorem toList_appendLine (out : String) (indent : Nat) (line : String) :
    (appendLine out indent line).toList = out.toList ++ row indent line.toList := by
  simp [appendLine, row]

/-- The lines of running text. -/
def inlinesText (hidden : Char → Bool) (indent : Nat) (ns : List Inline) : List Char :=
  (appendInlines hidden indent "" ns).toList

/-- The lines of blocks. -/
def blocksText (hidden : Char → Bool) (indent : Nat) (bs : List Block) : List Char :=
  (appendBlocks hidden indent "" bs).toList

/-- A node is its line and the lines of the nodes inside it. -/
theorem appendInline_eq (indent : Nat) (out : String) (n : Inline) :
    appendInline hidden indent out n =
      appendInlines hidden (indent + 1) (appendLine out indent (inlineLine hidden n))
        n.children := by
  cases n <;> rfl

/-- A block is its line and the lines of what is inside it. -/
theorem appendBlock_eq (indent : Nat) (out : String) (b : Block) :
    appendBlock hidden indent out b =
      appendBlocks hidden (indent + 1)
        (appendInlines hidden (indent + 1) (appendLine out indent (blockLine hidden b)) b.content)
        b.inside := by
  cases b <;> rfl

/-- Lines are appended to what is there. -/
theorem toList_appendInlines (ns : List Inline) : ∀ (indent : Nat) (out : String),
    (appendInlines hidden indent out ns).toList = out.toList ++ inlinesText hidden indent ns := by
  induction ns using Inline.forest_induction with
  | nil =>
    intro indent out
    simp [appendInlines, inlinesText]
  | cons n ns hchildren hns =>
    intro indent out
    rw [inlinesText, appendInlines, appendInlines, hns, hns, appendInline_eq, appendInline_eq,
      hchildren, hchildren, toList_appendLine, toList_appendLine]
    simp

theorem inlinesText_cons (indent : Nat) (n : Inline) (ns : List Inline) :
    inlinesText hidden indent (n :: ns) = row indent (inlineLine hidden n).toList ++
      (inlinesText hidden (indent + 1) n.children ++ inlinesText hidden indent ns) := by
  rw [inlinesText, appendInlines, toList_appendInlines, appendInline_eq, toList_appendInlines,
    toList_appendLine]
  simp

theorem toList_appendBlocks (bs : List Block) : ∀ (indent : Nat) (out : String),
    (appendBlocks hidden indent out bs).toList = out.toList ++ blocksText hidden indent bs := by
  induction bs using Block.forest_induction with
  | nil =>
    intro indent out
    simp [appendBlocks, blocksText]
  | cons b bs hinside hbs =>
    intro indent out
    rw [blocksText, appendBlocks, appendBlocks, hbs, hbs, appendBlock_eq, appendBlock_eq, hinside,
      hinside, toList_appendInlines, toList_appendInlines, toList_appendLine, toList_appendLine]
    simp

theorem blocksText_cons (indent : Nat) (b : Block) (bs : List Block) :
    blocksText hidden indent (b :: bs) = row indent (blockLine hidden b).toList ++
      (inlinesText hidden (indent + 1) b.content ++
        (blocksText hidden (indent + 1) b.inside ++ blocksText hidden indent bs)) := by
  rw [blocksText, appendBlocks, toList_appendBlocks, appendBlock_eq, toList_appendBlocks,
    toList_appendInlines, toList_appendLine]
  simp

/-! ### Trees with the same lines -/

theorem stops_inlinesText (h : Stops indent x) (ns : List Inline) :
    Stops (indent + 1) (inlinesText hidden indent ns ++ x) := by
  cases ns with
  | nil => exact h.mono (Nat.le_succ indent)
  | cons n ns =>
    rw [inlinesText_cons, List.append_assoc]
    exact stops_row (label_inlineLine n) (Nat.lt_succ_self indent) _

theorem stops_blocksText (h : Stops indent x) {bs : List Block}
    (hbs : ∀ b ∈ Block.preorderAll bs, b.Usual) :
    Stops (indent + 1) (blocksText hidden indent bs ++ x) := by
  cases bs with
  | nil => exact h.mono (Nat.le_succ indent)
  | cons b bs =>
    rw [Block.preorderAll_cons] at hbs
    rw [blocksText_cons, List.append_assoc]
    exact stops_row (label_blockLine (hbs b List.mem_cons_self)) (Nat.lt_succ_self indent) _

/-- **Running text with the same lines is the same**, and so are the texts behind them, if these
stop there. -/
theorem inlinesText_inj (ns : List Inline) : ∀ {ms : List Inline} {indent : Nat} {x y : List Char},
    Stops indent x → Stops indent y →
      inlinesText hidden indent ns ++ x = inlinesText hidden indent ms ++ y → ns = ms ∧ x = y := by
  induction ns using Inline.forest_induction with
  | nil =>
    intro ms indent x y hx hy h
    cases ms with
    | nil => exact ⟨rfl, h⟩
    | cons m ms =>
      have hx' : x = inlinesText hidden indent (m :: ms) ++ y := h
      rw [hx', inlinesText_cons, List.append_assoc] at hx
      exact absurd hx (not_stops_row (label_inlineLine m) _)
  | cons n ns hchildren hns =>
    intro ms indent x y hx hy h
    cases ms with
    | nil =>
      have hy' : inlinesText hidden indent (n :: ns) ++ x = y := h
      rw [← hy', inlinesText_cons, List.append_assoc] at hy
      exact absurd hy (not_stops_row (label_inlineLine n) _)
    | cons m ms =>
      rw [inlinesText_cons, inlinesText_cons] at h
      simp only [List.append_assoc] at h
      obtain ⟨hline, hrest⟩ := row_append_inj (label_inlineLine n) (label_inlineLine m) h
      obtain ⟨hinner, hrest⟩ :=
        hchildren (stops_inlinesText hx ns) (stops_inlinesText hy ms) hrest
      obtain ⟨rfl, rfl⟩ := hns hx hy hrest
      rw [Inline.eq_of_bare (inlineLine_inj hline) hinner]
      exact ⟨rfl, rfl⟩

/-- **Blocks with the same lines are the same.** -/
theorem blocksText_inj (bs : List Block) : ∀ {cs : List Block} {indent : Nat} {x y : List Char},
    (∀ b ∈ Block.preorderAll bs, b.Usual) → (∀ c ∈ Block.preorderAll cs, c.Usual) →
    Stops indent x → Stops indent y →
      blocksText hidden indent bs ++ x = blocksText hidden indent cs ++ y → bs = cs ∧ x = y := by
  induction bs using Block.forest_induction with
  | nil =>
    intro cs indent x y hbs hcs hx hy h
    cases cs with
    | nil => exact ⟨rfl, h⟩
    | cons c cs =>
      have hx' : x = blocksText hidden indent (c :: cs) ++ y := h
      rw [Block.preorderAll_cons] at hcs
      rw [hx', blocksText_cons, List.append_assoc] at hx
      exact absurd hx (not_stops_row (label_blockLine (hcs c List.mem_cons_self)) _)
  | cons b bs hinside hrec =>
    intro cs indent x y hbs hcs hx hy h
    rw [Block.preorderAll_cons] at hbs
    have hb := hbs b List.mem_cons_self
    have hbi : ∀ d ∈ Block.preorderAll b.inside, d.Usual := fun d hd => hbs d (by simp [hd])
    have hbs : ∀ d ∈ Block.preorderAll bs, d.Usual := fun d hd => hbs d (by simp [hd])
    cases cs with
    | nil =>
      have hy' : blocksText hidden indent (b :: bs) ++ x = y := h
      rw [← hy', blocksText_cons, List.append_assoc] at hy
      exact absurd hy (not_stops_row (label_blockLine hb) _)
    | cons c cs =>
      rw [Block.preorderAll_cons] at hcs
      have hc := hcs c List.mem_cons_self
      have hci : ∀ d ∈ Block.preorderAll c.inside, d.Usual := fun d hd => hcs d (by simp [hd])
      have hcs : ∀ d ∈ Block.preorderAll cs, d.Usual := fun d hd => hcs d (by simp [hd])
      rw [blocksText_cons, blocksText_cons] at h
      simp only [List.append_assoc] at h
      obtain ⟨hline, hrest⟩ := row_append_inj (label_blockLine hb) (label_blockLine hc) h
      have hbare := blockLine_inj hb hc hline
      have hstops : Stops (indent + 1) (blocksText hidden indent bs ++ x) :=
        stops_blocksText hx hbs
      have hstops' : Stops (indent + 1) (blocksText hidden indent cs ++ y) :=
        stops_blocksText hy hcs
      have hsame : b.content = c.content ∧ b.inside = c.inside ∧
          blocksText hidden indent bs ++ x = blocksText hidden indent cs ++ y := by
        rcases Block.text_or_blocks hbare with ⟨hbn, hcn⟩ | ⟨hbn, hcn⟩
        · rw [hbn, hcn] at hrest ⊢
          obtain ⟨hcontent, hrest⟩ := inlinesText_inj b.content hstops hstops' hrest
          exact ⟨hcontent, rfl, hrest⟩
        · rw [hbn, hcn] at hrest ⊢
          obtain ⟨hblocks, hrest⟩ := hinside hbi hci hstops hstops' hrest
          exact ⟨rfl, hblocks, hrest⟩
      obtain ⟨hcontent, hblocks, hrest⟩ := hsame
      obtain ⟨rfl, rfl⟩ := hrec hbs hcs hx hy hrest
      rw [Block.eq_of_bare hbare hcontent hblocks]
      exact ⟨rfl, rfl⟩

end Outline

/-! ### What is parsed -/

theorem Marker.usual_of_read? {text : List Char} {m : Marker} (h : Marker.read? text = some m) :
    m.list.Usual := by
  have hclose : ∀ {list : ListKind} {size : Nat} {rest : List Char},
      list.Usual → Marker.close? list size rest = some m → m.list.Usual := by
    intro list size rest hlist h
    unfold Marker.close? at h
    split_ifs at h
    obtain rfl := Option.some.inj h
    exact hlist
  unfold Marker.read? at h
  rcases Option.or_eq_some_iff.mp h with h | ⟨-, h⟩
  · unfold Marker.readBullet? at h
    split at h
    · split_ifs at h with hmark
      refine hclose ?_ h
      simpa [ListKind.Usual, or_assoc] using hmark
    · exact absurd h (by simp)
  · simp only [Marker.readOrdered?] at h
    split_ifs at h
    split at h
    · split_ifs at h with hdelimiter
      refine hclose ?_ h
      simpa [ListKind.Usual] using hdelimiter
    · exact absurd h (by simp)

theorem Marker.Nests.usual {depth depth' : Nat} {marker last : Marker} {outer : List Block}
    (h : marker.Nests depth outer depth' last) (hmarker : marker.list.Usual) :
    (∀ b ∈ outer, b.Usual) ∧ last.list.Usual := by
  induction h with
  | last => exact ⟨by simp, hmarker⟩
  | inner hinner hnext ih =>
    unfold Builder.innerMarker? at hinner
    split_ifs at hinner
    obtain ⟨houter, hlast⟩ := ih (Marker.usual_of_read? hinner)
    refine ⟨?_, hlast⟩
    intro b hb
    rcases List.mem_cons.mp hb with rfl | hb
    · exact hmarker
    · exact houter b hb

/-- The language of a fence is a word. -/
theorem Fence.usual_language? (info : List Char) (raw : String) :
    (Block.code (Fence.language? info) raw).Usual := by
  intro word hword
  obtain ⟨chars, hchars, rfl⟩ := Option.map_eq_some_iff.mp hword
  unfold Text.firstWord? at hchars
  split at hchars
  · exact absurd hchars (by simp)
  · rename_i hne
    obtain rfl := Option.some.inj hchars
    rw [String.toList_ofList]
    refine ⟨?_, ?_⟩
    · rw [Ne, String.ofList_eq_empty_iff]
      exact hne
    · intro c hc
      simpa using List.all_eq_true.mp List.all_takeWhile c hc

theorem Line.Yields.usual {limits : Limits} {first : Line} {more : List Line}
    {blocks : List Block} (h : first.Yields limits more blocks)
    (hmarker : ∀ m, first.kind = .marker m → m.list.Usual) : ∀ b ∈ blocks, b.Usual := by
  intro b hb
  cases h with
  | blank => exact absurd hb (by simp)
  | heading =>
    rw [List.mem_singleton.mp hb]
    trivial
  | rule =>
    rw [List.mem_singleton.mp hb]
    trivial
  | paragraph =>
    rw [List.mem_singleton.mp hb]
    trivial
  | items hkind hnests =>
    obtain ⟨houter, hlast⟩ := hnests.usual (hmarker _ hkind)
    rcases List.mem_append.mp hb with hb | hb
    · exact houter b hb
    · rw [List.mem_singleton.mp hb]
      exact hlast
  | code =>
    rw [List.mem_singleton.mp hb]
    exact Fence.usual_language? _ _

theorem Line.usual_marker {s : List Char} {line : Line} (hline : line ∈ Line.ofText s) {m : Marker}
    (h : line.kind = .marker m) : m.list.Usual := by
  obtain ⟨i, hi, rfl⟩ := List.mem_mapIdx.mp hline
  exact Marker.usual_of_read? (Line.read?_of_kindOf h)

/-- Blocks are usual if their leaves are. -/
theorem Block.usual_of_leaves (bs : List Block) : ∀ {around : Nat},
    (∀ leaf ∈ leavesInAll around bs, leaf.2.Usual) → ∀ b ∈ preorderAll bs, b.Usual := by
  induction bs using Block.forest_induction with
  | nil =>
    intro around h b hb
    exact absurd hb (by simp [preorderAll])
  | cons a bs hinside hbs =>
    intro around h b hb
    rw [leavesInAll] at h
    rw [preorderAll_cons, List.mem_cons, List.mem_append] at hb
    rcases hb with rfl | hb | hb
    · cases b with
      | quote blocks => trivial
      | _ => exact h (around, _) (by simp [leavesIn])
    · cases a with
      | quote blocks =>
        exact hinside (fun leaf hleaf => h leaf (List.mem_append_left _ hleaf)) b hb
      | _ => exact absurd hb (by simp [inside, preorderAll])
    · exact hbs (fun leaf hleaf => h leaf (List.mem_append_right _ hleaf)) b hb

/-- All blocks of a parsed document are usual. -/
theorem Document.usual_of_parse {limits : Limits} {input : String} {doc : Document}
    (h : Document.parse limits input = .ok doc) : ∀ b ∈ Block.preorderAll doc, b.Usual := by
  obtain ⟨hpush, hflush, rfl⟩ := Document.of_parse h
  have hstart : ∀ next, Builder.Accounts limits [] next { limits } := fun _ => .idle rfl .nil
  have hrun : Builder.Accounts limits (Line.ofText input.toList) none _ :=
    Builder.pushAll_accounts rfl hstart hpush
  obtain ⟨groups, hlines, hleaves, -, -⟩ :=
    hrun.flush (Builder.pushAll_grows hpush).limits (by simp) hflush
  apply Block.usual_of_leaves
  intro leaf hleaf
  have hfound : leaf ∈ groups.flatMap LineGroup.leaves := by
    rw [← hleaves, ← QuotePath.leaves_finish]
    exact hleaf
  obtain ⟨g, hg, hleaf⟩ := List.mem_flatMap.mp hfound
  obtain ⟨block, hblock, rfl⟩ := List.mem_map.mp hleaf
  have hfirst : g.first ∈ Line.ofText input.toList := by
    rw [hlines]
    exact List.mem_flatMap.mpr ⟨g, hg, List.mem_cons_self⟩
  exact g.yields.usual (fun _ hkind => Line.usual_marker hfirst hkind) block hblock

/-! ### Whole documents -/

/-- **An outline tells the document.** Documents with the markers of lists and one word for the
language of code, as all parsed documents are, are the same if their outlines are, whichever
characters the outlines show by their number. -/
theorem Document.outline_faithful :
    (∀ (limits : Limits) (input : String) (doc : Document),
      Document.parse limits input = .ok doc → ∀ b ∈ Block.preorderAll doc, b.Usual) ∧
    ∀ (hidden : Char → Bool) (doc doc' : Document),
      (∀ b ∈ Block.preorderAll doc, b.Usual) → (∀ b ∈ Block.preorderAll doc', b.Usual) →
        doc.outlineBy hidden = doc'.outlineBy hidden → doc = doc' := by
  refine ⟨fun limits input doc h => Document.usual_of_parse h, ?_⟩
  intro hidden doc doc' husual husual' h
  have htext : Outline.blocksText hidden 0 doc ++ [] = Outline.blocksText hidden 0 doc' ++ [] := by
    rw [List.append_nil, List.append_nil]
    exact congrArg String.toList h
  exact (Outline.blocksText_inj doc husual husual' (.inl rfl) (.inl rfl) htext).1

/-- Two texts of one document, and one where the code is inside the quote: its outline differs by
the indentation of a line. -/
theorem Document.outline_faithful_indented :
    ∃ doc doc' other : Document, Document.parse {} "> - *a*\n\n~~~ b)" = .ok doc ∧
      Document.parse {} "> - _a_\n~~~~b) c" = .ok doc' ∧
      Document.parse {} "> - *a*\n> ~~~ b)" = .ok other ∧
      doc.outline =
        "BlockQuote\n  ListItem(- depth=0)\n    Emphasis\n      Text \"a\"\nCodeBlock(b)) \"\"\n" ∧
      doc = doc' ∧ ∀ hidden, doc.outlineBy hidden ≠ other.outlineBy hidden := by
  have hparse : Document.parse {} "> - *a*\n\n~~~ b)" =
      .ok [.quote [.item (.bullet '-') 0 [.emphasis [.text "a"]]], .code (some "b)") ""] := by cbv
  have hparse' : Document.parse {} "> - _a_\n~~~~b) c" =
      .ok [.quote [.item (.bullet '-') 0 [.emphasis [.text "a"]]], .code (some "b)") ""] := by cbv
  have hother : Document.parse {} "> - *a*\n> ~~~ b)" =
      .ok [.quote [.item (.bullet '-') 0 [.emphasis [.text "a"]], .code (some "b)") ""]] := by cbv
  have husual := Document.outline_faithful.1 _ _ _ hparse
  have husual' := Document.outline_faithful.1 _ _ _ hparse'
  refine ⟨_, _, _, hparse, hparse', hother, by cbv, ?_, ?_⟩
  · exact Document.outline_faithful.2 Text.isHidden _ _ husual husual' rfl
  · intro hidden h
    have hsame := Document.outline_faithful.2 hidden _ _ husual
      (Document.outline_faithful.1 _ _ _ hother) h
    exact absurd hsame (by simp)

end MarkdownHtml
