/-
# The lines that make a block

Every line of a text lands in one leaf of its document, or is blank. The lines are cut
into groups (`LineGroup`): a blank line, a heading, a rule, a paragraph, a line of list
markers with the text that goes on in it, or fenced code with its closing fence. The
leaves of the document, in order, are those of the groups, and each stands in as many
quotes as the first line of its group has markers (`Document.exists_groups_of_parse`).
No group ends before it has to: the line behind it is none that it could go on with
(`Line.GoesOn`).

The builder holds the last group open while it collects it. Of a paragraph and of code
nothing is in the tree yet, of a line of markers all items but the last
(`Leaf.Collects`). Whichever line closes the leaf, the group is completed then
(`Builder.Accounts`).

Key definitions: `Document.leaves`, `Marker.Nests`, `Line.Yields`, `Line.GoesOn`,
`LineGroup`, `Leaf.Collects`, `Builder.Accounts`.
Key theorems: `QuotePath.leaves_finish`, `Builder.openItem_nests`, `Builder.push_accounts`,
`Builder.pushAll_accounts`, `Document.exists_groups_of_parse`.
-/
import MarkdownHtml.Proofs.Composition

namespace MarkdownHtml

/-! ### The leaves of a document -/

namespace Block

mutual

/-- The leaves of a block that stands in `around` quotes, each with the number of quotes
it stands in. -/
def leavesIn (around : Nat) : Block → List (Nat × Block)
  | .quote blocks => leavesInAll (around + 1) blocks
  | b => [(around, b)]

/-- The leaves of blocks that stand in `around` quotes. -/
def leavesInAll (around : Nat) : List Block → List (Nat × Block)
  | [] => []
  | b :: bs => leavesIn around b ++ leavesInAll around bs

end

theorem leavesInAll_append (around : Nat) (as bs : List Block) :
    leavesInAll around (as ++ bs) = leavesInAll around as ++ leavesInAll around bs := by
  induction as with
  | nil => rfl
  | cons a as ih => rw [List.cons_append, leavesInAll, leavesInAll, ih, List.append_assoc]

end Block

/-- The leaves of a document in order, each with the number of quotes it stands in. -/
def Document.leaves (doc : Document) : List (Nat × Block) := Block.leavesInAll 0 doc

namespace QuotePath

/-- The leaves of levels of quotes, innermost first. -/
def leavesOf : List (List Block) → List (Nat × Block)
  | [] => []
  | blocks :: outer => leavesOf outer ++ Block.leavesInAll outer.length blocks.reverse

/-- The leaves that are in the tree so far. -/
def leaves (p : QuotePath) : List (Nat × Block) := leavesOf (p.inner :: p.outer)

theorem leaves_push (block : Block) (p : QuotePath) :
    (p.push block).leaves = p.leaves ++ block.leavesIn p.depth := by
  simp only [leaves, push, leavesOf, List.reverse_cons]
  rw [Block.leavesInAll_append, ← List.append_assoc]
  simp [Block.leavesInAll, depth]

theorem leaves_openMany (n : Nat) (p : QuotePath) : (p.openMany n).leaves = p.leaves := by
  refine openMany_keeps (P := fun q => q.leaves = p.leaves) ?_ n p rfl
  intro q h
  rw [← h]
  simp [leaves, leavesOf, Block.leavesInAll]

theorem leaves_closeMany (n : Nat) (p : QuotePath) : (p.closeMany n).leaves = p.leaves := by
  refine closeMany_keeps (P := fun q => q.leaves = p.leaves) ?_ n p rfl
  -- the quote that closes is the last block of the level around it
  intro inner around outer h
  rw [← h]
  exact leaves_push (.quote inner.reverse) ⟨around, outer⟩

theorem leaves_setDepth (d : Nat) (p : QuotePath) : (p.setDepth d).leaves = p.leaves := by
  unfold setDepth
  rw [leaves_openMany, leaves_closeMany]

theorem leaves_finish (p : QuotePath) : Document.leaves p.finish = p.leaves := by
  have hclosed := leaves_closeMany p.depth p
  rw [closeMany_depth] at hclosed
  rw [← hclosed]
  simp [leaves, leavesOf, Document.leaves]

end QuotePath

/-! ### Groups of lines -/

/-- `Nests depth marker outer depth' last`: the text behind `marker` starts with further
markers, one inside the other, of which `last` is the innermost. They give the empty items
`outer`, of depths from `depth` on, and behind them an item of depth `depth'`. -/
inductive Marker.Nests : Nat → Marker → List Block → Nat → Marker → Prop
  | last {depth : Nat} {marker : Marker} (h : Builder.innerMarker? marker.content = none) :
    Nests depth marker [] depth marker
  | inner {depth depth' : Nat} {marker next last : Marker} {outer : List Block}
    (h : Builder.innerMarker? marker.content = some next)
    (hnext : Nests (depth + 1) next outer depth' last) :
    Nests depth marker (.item marker.list depth [] :: outer) depth' last

namespace Line

/-- What fenced code that stands in `depth` quotes sees of a line. -/
def inside (depth : Nat) (line : Line) : List Char := (stripAtMost depth line.raw).rest

/-- The line is `text`, and stands in `depth` quotes. -/
def IsText (depth : Nat) (line : Line) (text : List Char) : Prop :=
  line.quoteDepth = depth ∧ line.kind = .text text

/-- Whether the line closes the code that `fence` opens in the line `first`. -/
def Closes (first : Line) (fence : Fence) (line : Line) : Prop :=
  Builder.closesCode fence.kind fence.length (line.inside first.quoteDepth) = true

/-- What the line adds to the code that `first` opens. -/
def codeOf (first line : Line) : List Char :=
  stripIndent (line.inside first.quoteDepth) first.indent

/-- `first.Yields limits more blocks`: the line `first` and the lines `more` behind it make
one group, which gives the leaves `blocks`. -/
inductive Yields (limits : Limits) (first : Line) : List Line → List Block → Prop
  | blank (h : first.kind = .blank) : Yields limits first [] []
  | heading {heading : Heading} {nodes : List Inline} (h : first.kind = .heading heading)
    (hread : Inline.parse limits heading.text = .ok nodes) :
    Yields limits first [] [.heading heading.level nodes]
  | rule (h : first.kind = .rule) : Yields limits first [] [.rule]
  | paragraph {more : List Line} {text : List Char} {texts : List (List Char)}
    {nodes : List Inline} (h : first.kind = .text text)
    (hmore : List.Forall₂ (IsText first.quoteDepth) more texts)
    (hread : Inline.parse limits (joinLines (text :: texts)) = .ok nodes) :
    Yields limits first more [.paragraph nodes]
  | items {more : List Line} {marker last : Marker} {depth depth' : Nat} {outer : List Block}
    {texts : List (List Char)} {nodes : List Inline} (h : first.kind = .marker marker)
    (hnests : marker.Nests depth outer depth' last)
    (hmore : List.Forall₂ (IsText first.quoteDepth) more texts)
    (hread : Inline.parse limits (joinLines (last.content :: texts)) = .ok nodes) :
    Yields limits first more (outer ++ [.item last.list depth' nodes])
  /-- Code ends with its closing fence, if it has one, and otherwise with the quote it
  stands in or with the text. -/
  | code {fence : Fence} {content : List Line} {closing : Option Line}
    (h : first.kind = .fence fence)
    (hdeep : ∀ line ∈ content ++ closing.toList, first.quoteDepth ≤ line.quoteDepth)
    (hcontent : ∀ line ∈ content, ¬ first.Closes fence line)
    (hclosing : ∀ line ∈ closing, first.Closes fence line) :
    Yields limits first (content ++ closing.toList)
      [.code (Fence.language? fence.info)
        (String.ofList (codeText (content.map first.codeOf)))]

/-- A group that starts with the line `first` and has the lines `more` goes on with `line`. -/
def GoesOn (first : Line) (more : List Line) (line : Line) : Prop :=
  match first.kind with
  | .text _ | .marker _ => ∃ text, line.IsText first.quoteDepth text
  | .fence fence =>
    first.quoteDepth ≤ line.quoteDepth ∧ ∀ before ∈ more, ¬ first.Closes fence before
  | _ => False

end Line

/-- Lines in a row that give leaves together. -/
structure LineGroup (limits : Limits) where
  first : Line
  /-- The lines behind the first. -/
  more : List Line
  blocks : List Block
  yields : first.Yields limits more blocks

namespace LineGroup

variable {limits : Limits}

def lines (g : LineGroup limits) : List Line := g.first :: g.more

/-- The leaves of the group, in the quotes of its first line. -/
def leaves (g : LineGroup limits) : List (Nat × Block) :=
  g.blocks.map fun block => (g.first.quoteDepth, block)

/-- The group ends in front of the line `next`. -/
def EndsAt (g : LineGroup limits) (next : Line) : Prop := ¬ g.first.GoesOn g.more next

end LineGroup

/-- `Cut limits lines leaves next`: the lines are cut into groups that give the leaves, and
the last group ends there if the line `next` follows. -/
def Cut (limits : Limits) (lines : List Line) (leaves : List (Nat × Block))
    (next : Option Line) : Prop :=
  ∃ groups : List (LineGroup limits),
    lines = groups.flatMap LineGroup.lines ∧ leaves = groups.flatMap LineGroup.leaves ∧
      groups.IsChain (fun g g' => g.EndsAt g'.first) ∧
      ∀ g ∈ groups.getLast?, ∀ line ∈ next, g.EndsAt line

namespace Cut

variable {limits : Limits} {lines : List Line} {leaves : List (Nat × Block)} {next : Option Line}

theorem nil : Cut limits [] [] next := ⟨[], rfl, rfl, .nil, by simp⟩

/-- One group more. -/
theorem concat (g : LineGroup limits) (h : Cut limits lines leaves (some g.first))
    (hnext : ∀ line ∈ next, g.EndsAt line) :
    Cut limits (lines ++ g.lines) (leaves ++ g.leaves) next := by
  obtain ⟨groups, rfl, rfl, hchain, hlast⟩ := h
  refine ⟨groups ++ [g], by simp, by simp, ?_, by simpa using hnext⟩
  refine List.isChain_append.mpr ⟨hchain, .singleton g, ?_⟩
  intro g' hg' g'' hg''
  obtain rfl : g = g'' := by simpa using hg''
  exact hlast g' hg' g.first rfl

/-- One group more, of whose leaves only the last is new. -/
theorem complete {first : Line} {more : List Line} {outer : List Block} {block : Block}
    (h : Cut limits lines leaves (some first))
    (hyields : first.Yields limits more (outer ++ [block]))
    (hends : ∀ line ∈ next, ¬ first.GoesOn more line) :
    Cut limits (lines ++ first :: more)
      ((leaves ++ outer.map fun b => (first.quoteDepth, b)) ++ [(first.quoteDepth, block)])
      next := by
  have hcut := h.concat ⟨first, more, outer ++ [block], hyields⟩ hends
  unfold LineGroup.leaves at hcut
  rw [List.map_append, ← List.append_assoc] at hcut
  exact hcut

end Cut

/-! ### The group that is open -/

/-- `leaf.Collects first more outer`: the open leaf holds the line `first` and the lines
`more` behind it, and of their items `outer` are in the tree. -/
inductive Leaf.Collects (first : Line) : List Line → List Block → Leaf → Prop
  | paragraph {more : List Line} {text : List Char} {texts : List (List Char)}
    (h : first.kind = .text text)
    (hmore : List.Forall₂ (Line.IsText first.quoteDepth) more texts) :
    Collects first more [] (.paragraph (text :: texts).reverse)
  | item {more : List Line} {marker last : Marker} {depth depth' : Nat} {outer : List Block}
    {texts : List (List Char)} (h : first.kind = .marker marker)
    (hnests : marker.Nests depth outer depth' last)
    (hmore : List.Forall₂ (Line.IsText first.quoteDepth) more texts) :
    Collects first more outer (.item last.list depth' (last.content :: texts).reverse)
  | code {fence : Fence} {content : List Line} (h : first.kind = .fence fence)
    (hdeep : ∀ line ∈ content, first.quoteDepth ≤ line.quoteDepth)
    (hcontent : ∀ line ∈ content, ¬ first.Closes fence line) :
    Collects first content [] (.code fence.kind fence.length first.indent
      (Fence.language? fence.info) (content.map first.codeOf).reverse)

/-- Whether the leaf, which stands in `depth` quotes, takes the line. -/
def Leaf.Takes (depth : Nat) (line : Line) : Leaf → Prop
  | .none => False
  | .code .. => depth ≤ line.quoteDepth
  | _ => ∃ text, line.IsText depth text

/-- Whether the leaf is fenced code. -/
def Leaf.isCode : Leaf → Bool
  | .code .. => true
  | _ => false

theorem Leaf.exists_code {leaf : Leaf} (h : ¬ leaf.isCode = false) :
    ∃ kind length indent language lines, leaf = .code kind length indent language lines := by
  cases leaf with
  | code kind length indent language lines => exact ⟨kind, length, indent, language, lines, rfl⟩
  | _ => exact absurd rfl h

theorem Leaf.Collects.takes {leaf : Leaf} {first line : Line} {more : List Line}
    {outer : List Block} (h : leaf.Collects first more outer) (hline : first.GoesOn more line) :
    leaf.Takes first.quoteDepth line := by
  unfold Line.GoesOn at hline
  cases h with
  | paragraph hkind hmore =>
    rw [hkind] at hline
    exact hline
  | item hkind hnests hmore =>
    rw [hkind] at hline
    exact hline
  | code hkind hdeep hcontent =>
    rw [hkind] at hline
    exact hline.1

namespace Leaf.Collects

variable {kind : FenceKind} {length indent : Nat} {language : Option String}
  {codeLines : List (List Char)} {first line : Line} {more : List Line} {outer : List Block}

/-- Fenced code, with or without a line that closes it. -/
theorem yields_code {limits : Limits} (closing : Option Line)
    (h : (Leaf.code kind length indent language codeLines).Collects first more outer)
    (hdeep : ∀ line ∈ closing, first.quoteDepth ≤ line.quoteDepth)
    (hclosing : ∀ line ∈ closing,
      Builder.closesCode kind length (line.inside first.quoteDepth) = true) :
    first.Yields limits (more ++ closing.toList)
      (outer ++ [.code language (String.ofList (codeText codeLines.reverse))]) := by
  cases h with
  | code hkind hmore hcontent =>
    rw [List.reverse_reverse]
    refine .code hkind (fun line hline => ?_) hcontent hclosing
    rcases List.mem_append.mp hline with hline | hline
    · exact hmore line hline
    · exact hdeep line (Option.mem_toList.mp hline)

/-- Fenced code ends with the line that closes it. -/
theorem ends_closed
    (h : (Leaf.code kind length indent language codeLines).Collects first more outer)
    (hclose : Builder.closesCode kind length (line.inside first.quoteDepth) = true)
    (next : Line) : ¬ first.GoesOn (more ++ [line]) next := by
  intro hgoes
  cases h with
  | code hkind hmore hcontent =>
    unfold Line.GoesOn at hgoes
    rw [hkind] at hgoes
    exact hgoes.2 line (by simp) hclose

/-- Fenced code goes on with a line that does not close it. -/
theorem code_concat
    (h : (Leaf.code kind length indent language codeLines).Collects first more outer)
    (hdeep : first.quoteDepth ≤ line.quoteDepth)
    (hopen : ¬ Builder.closesCode kind length (line.inside first.quoteDepth) = true) :
    (Leaf.code kind length indent language
      (Line.stripIndent (line.inside first.quoteDepth) indent :: codeLines)).Collects first
      (more ++ [line]) outer := by
  cases h with
  | @code fence _ hkind hmore hcontent =>
    have hnew : (Leaf.code fence.kind fence.length first.indent (Fence.language? fence.info)
        ((more ++ [line]).map first.codeOf).reverse).Collects first (more ++ [line]) [] := by
      refine .code hkind (fun l hl => ?_) fun l hl => ?_
      · rcases List.mem_append.mp hl with hl | hl
        · exact hmore l hl
        · rw [List.mem_singleton.mp hl]
          exact hdeep
      · rcases List.mem_append.mp hl with hl | hl
        · exact hcontent l hl
        · rw [List.mem_singleton.mp hl]
          exact hopen
    rw [List.map_append, List.reverse_append] at hnew
    exact hnew

end Leaf.Collects

/-- Outside code a leaf takes only text. -/
theorem Leaf.Takes.exists_text {leaf : Leaf} {depth : Nat} {line : Line}
    (h : leaf.Takes depth line) (hcode : leaf.isCode = false) :
    ∃ text, line.IsText depth text := by
  cases leaf with
  | none => exact absurd h id
  | code => exact absurd hcode (by simp [isCode])
  | paragraph => exact h
  | item => exact h

/-- A marker at the column of an item's text closes no level. -/
theorem ListStack.unwind_place (indent width : Nat) (levels : ListStack) :
    (levels.place indent width).unwind (indent + width) = levels.place indent width := by
  rw [place, unwind, if_pos (Nat.le_refl _)]

namespace Builder

/-- `b.Accounts limits lines next`: behind `lines`, every line is in a group. The groups are
complete and give all leaves, and the last ends there if `next` follows; or the lines of
the last are in the open leaf. -/
inductive Accounts (limits : Limits) (lines : List Line) (next : Option Line) (b : Builder) :
    Prop
  | idle (leaf : b.leaf = .none) (cut : Cut limits lines b.path.leaves next)
  | busy {before more : List Line} {first : Line} {leaves : List (Nat × Block)}
    {outer : List Block} (split : lines = before ++ first :: more)
    (cut : Cut limits before leaves (some first)) (depth : first.quoteDepth = b.path.depth)
    (path : b.path.leaves = leaves ++ outer.map fun block => (first.quoteDepth, block))
    (leaf : b.leaf.Collects first more outer)

variable {limits : Limits} {lines : List Line} {next : Option Line} {b : Builder}

/-- A leaf that closes completes its group. -/
theorem flush_yields {first : Line} {more : List Line} {outer : List Block}
    (hl : b.limits = limits) (h : b.leaf.Collects first more outer)
    (hf : b.flush.failure = none) :
    ∃ block, first.Yields limits more (outer ++ [block]) ∧
      b.flush.builder.path.leaves = b.path.leaves ++ [(b.path.depth, block)] := by
  obtain ⟨limits', path, lists, leaf, events⟩ := b
  obtain rfl : limits' = limits := hl
  unfold flush at hf ⊢
  cases leaf with
  | none => nomatch h
  | code kind length indent language codeLines =>
    have hyields : first.Yields limits' (more ++ []) _ := h.yields_code none (by simp) (by simp)
    rw [List.append_nil] at hyields
    exact ⟨_, hyields, QuotePath.leaves_push _ path⟩
  | paragraph texts =>
    obtain ⟨nodes, events', hp, he⟩ := of_readInline hf
    cases h with
    | paragraph hkind hmore =>
      rw [List.reverse_reverse] at hp
      refine ⟨.paragraph nodes, .paragraph hkind hmore hp, ?_⟩
      simp only [he]
      exact QuotePath.leaves_push _ path
  | item list depth texts =>
    obtain ⟨nodes, events', hp, he⟩ := of_readInline hf
    cases h with
    | item hkind hnests hmore =>
      rw [List.reverse_reverse] at hp
      refine ⟨.item _ _ nodes, .items hkind hnests hmore hp, ?_⟩
      simp only [he]
      exact QuotePath.leaves_push _ path

namespace Accounts

/-- Closing the open leaf in front of a line that it does not take completes the last group. -/
theorem flush (hl : b.limits = limits) (h : b.Accounts limits lines next)
    (hnext : ∀ line ∈ next, ¬ b.leaf.Takes b.path.depth line) (hf : b.flush.failure = none) :
    Cut limits lines b.flush.builder.path.leaves next := by
  cases h with
  | idle leaf cut =>
    rw [flush_of_none leaf]
    exact cut
  | @busy before more first leaves outer hsplit cut depth path leaf =>
    obtain ⟨block, hyields, hleaves⟩ := flush_yields hl leaf hf
    have hends : ∀ line ∈ next, ¬ first.GoesOn more line := by
      intro line hline hgoes
      have htakes := leaf.takes hgoes
      rw [depth] at htakes
      exact hnext line hline htakes
    rw [hleaves, path, hsplit, ← depth]
    exact cut.complete hyields hends

theorem flushAll (hl : b.limits = limits) (h : b.Accounts limits lines next)
    (hnext : ∀ line ∈ next, ¬ b.leaf.Takes b.path.depth line) (hf : b.flushAll.failure = none) :
    Cut limits lines b.flushAll.builder.path.leaves next ∧ b.flushAll.builder.leaf = .none := by
  obtain ⟨hflush, he, -⟩ := Attempt.of_andThen hf
  have hcut := h.flush hl hnext hflush
  unfold Builder.flushAll
  rw [he]
  exact ⟨hcut, b.leaf_flush⟩

/-- Quotes are opened and closed around complete groups. -/
theorem enterQuotes {line : Line} (hl : b.limits = limits)
    (h : b.Accounts limits lines (some line)) (hcode : b.leaf.isCode = false)
    (hf : (b.enterQuotes line).failure = none) :
    (b.enterQuotes line).builder.Accounts limits lines (some line) ∧
      (b.enterQuotes line).builder.leaf.isCode = false := by
  unfold Builder.enterQuotes at hf ⊢
  split_ifs at hf ⊢ with hmax hsame
  · exact absurd hf (by simp [refuse])
  · exact ⟨h, hcode⟩
  · obtain ⟨hflush, he, -⟩ := Attempt.of_andThen hf
    have hnext : ∀ next ∈ some line, ¬ b.leaf.Takes b.path.depth next := by
      rintro next ⟨⟩ htakes
      obtain ⟨text, hdepth, -⟩ := htakes.exists_text hcode
      exact hsame hdepth
    obtain ⟨hcut, hleaf⟩ := h.flushAll hl hnext hflush
    rw [he]
    refine ⟨.idle hleaf ?_, ?_⟩
    · simp only [Attempt.done, QuotePath.leaves_setDepth]
      exact hcut
    · simp only [Attempt.done, hleaf]
      rfl

end Accounts

/-- The items of the markers that start a line: all but the last are in the tree. -/
theorem openItem_nests {fuel indent : Nat} {marker : Marker} {b : Builder}
    (hfuel : marker.content.length < fuel)
    (hf : (b.openItem fuel indent marker).failure = none) :
    ∃ outer depth last, marker.Nests (b.lists.unwind indent).length outer depth last ∧
      (b.openItem fuel indent marker).builder.leaf = .item last.list depth [last.content] ∧
      (b.openItem fuel indent marker).builder.path.leaves =
        b.path.leaves ++ outer.map fun block => (b.path.depth, block) := by
  induction fuel generalizing indent marker b with
  | zero => omega
  | succ fuel ih =>
    rw [openItem_succ rfl] at hf ⊢
    by_cases hmax : b.limits.maxNesting ≤ (b.lists.unwind indent).length
    · rw [if_pos hmax] at hf
      exact absurd hf (by simp [refuse])
    · rw [if_neg hmax] at hf ⊢
      cases hinner : innerMarker? marker.content with
      | none => exact ⟨[], _, marker, .last hinner, rfl, (List.append_nil _).symm⟩
      | some inner =>
        simp only [hinner] at hf ⊢
        have hshort : inner.content.length < marker.content.length := by
          unfold innerMarker? at hinner
          split_ifs at hinner
          exact Marker.length_content_lt hinner
        obtain ⟨outer, depth, last, hnests, hleaf, hleaves⟩ := ih (by omega) hf
        simp only [emit] at hnests hleaves
        rw [ListStack.unwind_place, ListStack.place, List.length_cons] at hnests
        refine ⟨_, depth, last, .inner hinner hnests, hleaf, ?_⟩
        rw [List.map_cons, List.append_cons]
        rw [QuotePath.leaves_push] at hleaves
        exact hleaves

/-- A line that is a group of its own, all before it being closed. -/
theorem accounts_line {line : Line} {leaves : List (Nat × Block)} {blocks : List Block}
    (hcut : Cut limits lines leaves (some line)) (hyields : line.Yields limits [] blocks)
    (hends : ∀ next, ¬ line.GoesOn [] next) (hleaf : b.leaf = .none)
    (hpath : b.path.leaves = leaves ++ blocks.map fun block => (line.quoteDepth, block)) :
    b.Accounts limits (lines ++ [line]) next := by
  refine .idle hleaf ?_
  rw [hpath]
  exact hcut.concat ⟨line, [], blocks, hyields⟩ fun next _ => hends next

/-- A line of markers, all before it being closed. -/
theorem openItem_accounts {line : Line} {marker : Marker}
    (hcut : Cut limits lines b.path.leaves (some line)) (hdepth : line.quoteDepth = b.path.depth)
    (hkind : line.kind = .marker marker)
    (hf : (b.openItem (marker.content.length + 1) line.indent marker).failure = none) :
    (b.openItem (marker.content.length + 1) line.indent marker).builder.Accounts limits
      (lines ++ [line]) next := by
  obtain ⟨outer, depth, last, hnests, hleaf, hleaves⟩ :=
    openItem_nests (Nat.lt_succ_self marker.content.length) hf
  have hsame := (openItem_fills (marker.content.length + 1) line.indent marker b).path.depth_eq
  have hcollects : (Leaf.item last.list depth [last.content]).Collects line [] outer :=
    .item hkind hnests .nil
  rw [← hleaf] at hcollects
  rw [← hdepth] at hleaves
  rw [← hsame] at hdepth
  exact .busy rfl hcut hdepth hleaves hcollects

/-- A line of text goes on with the open paragraph or item, or starts a paragraph. -/
theorem extendText_accounts {line : Line} {text : List Char}
    (h : b.Accounts limits lines (some line)) (hcode : b.leaf.isCode = false)
    (hdepth : line.quoteDepth = b.path.depth) (hkind : line.kind = .text text) :
    (b.extendText text).Accounts limits (lines ++ [line]) next := by
  obtain ⟨limits', path, lists, leaf, events⟩ := b
  cases h with
  | idle hleaf cut =>
    obtain rfl : leaf = .none := hleaf
    exact .busy rfl cut hdepth (List.append_nil _).symm (.paragraph hkind .nil)
  | @busy before more first leaves outer hsplit cut depth hpath hcollects =>
    have htext : List.Forall₂ (Line.IsText first.quoteDepth) [line] [text] :=
      .cons ⟨hdepth.trans depth.symm, hkind⟩ .nil
    have hlines : lines ++ [line] = before ++ first :: (more ++ [line]) := by simp [hsplit]
    cases hcollects with
    | @paragraph _ start texts hfirst hmore =>
      have hall : (Leaf.paragraph (text :: (start :: texts).reverse)).Collects first
          (more ++ [line]) [] := by
        have hnew := Leaf.Collects.paragraph hfirst (List.rel_append hmore htext)
        rwa [← List.cons_append, List.reverse_append] at hnew
      exact .busy hlines cut depth hpath hall
    | @item _ marker last _ depth' _ texts hfirst hnests hmore =>
      have hall : (Leaf.item last.list depth' (text :: (last.content :: texts).reverse)).Collects
          first (more ++ [line]) outer := by
        have hnew := Leaf.Collects.item hfirst hnests (List.rel_append hmore htext)
        rwa [← List.cons_append, List.reverse_append] at hnew
      exact .busy hlines cut depth hpath hall
    | code => exact absurd hcode (by simp [Leaf.isCode])

theorem takeKind_accounts {line : Line} (hl : b.limits = limits)
    (h : b.Accounts limits lines (some line)) (hcode : b.leaf.isCode = false)
    (hdepth : line.quoteDepth = b.path.depth) (hf : (b.takeKind line).failure = none) :
    (b.takeKind line).builder.Accounts limits (lines ++ [line]) next := by
  -- a line that is no text closes the open leaf
  have hends : (∀ text, line.kind ≠ .text text) →
      ∀ next ∈ some line, ¬ b.leaf.Takes b.path.depth next := by
    rintro hno next ⟨⟩ htakes
    obtain ⟨text, -, hkind⟩ := htakes.exists_text hcode
    exact hno text hkind
  have hsame : b.flushAll.builder.path.depth = line.quoteDepth :=
    b.flushAll_fills.path.depth_eq.trans hdepth.symm
  unfold takeKind at hf ⊢
  split at hf
  · rename_i hkind
    obtain ⟨hcut, hleaf⟩ := h.flushAll hl (hends (by simp [hkind])) hf
    exact accounts_line hcut (.blank hkind) (by simp [Line.GoesOn, hkind]) hleaf (by simp)
  · rename_i fence hkind
    obtain ⟨hflush, he, -⟩ := Attempt.of_andThen hf
    obtain ⟨hcut, hleaf⟩ := h.flushAll hl (hends (by simp [hkind])) hflush
    rw [he]
    exact .busy rfl hcut hsame.symm (List.append_nil _).symm (.code hkind (by simp) (by simp))
  · rename_i heading hkind
    obtain ⟨hflush, he, hread⟩ := Attempt.of_andThen hf
    obtain ⟨hcut, hleaf⟩ := h.flushAll hl (hends (by simp [hkind])) hflush
    obtain ⟨nodes, events, hp, hb⟩ := of_readInline hread
    rw [b.flushAll_fills.limits, hl] at hp
    rw [he, hb]
    refine accounts_line hcut (.heading hkind hp) (by simp [Line.GoesOn, hkind]) hleaf ?_
    simp only [emit, QuotePath.leaves_push, hsame]
    rfl
  · rename_i hkind
    obtain ⟨hflush, he, -⟩ := Attempt.of_andThen hf
    obtain ⟨hcut, hleaf⟩ := h.flushAll hl (hends (by simp [hkind])) hflush
    rw [he]
    refine accounts_line hcut (.rule hkind) (by simp [Line.GoesOn, hkind]) hleaf ?_
    simp only [Attempt.done, emit, QuotePath.leaves_push, hsame]
    rfl
  · rename_i marker hkind
    obtain ⟨hflush, he, hopen⟩ := Attempt.of_andThen hf
    have hcut := h.flush hl (hends (by simp [hkind])) hflush
    have hsame : line.quoteDepth = b.flush.builder.path.depth :=
      hdepth.trans b.flush_fills.path.depth_eq.symm
    rw [he]
    exact openItem_accounts hcut hsame hkind hopen
  · rename_i text hkind
    exact extendText_accounts h hcode hdepth hkind

theorem takeLine_accounts {line : Line} (hl : b.limits = limits)
    (h : b.Accounts limits lines (some line)) (hcode : b.leaf.isCode = false)
    (hf : (b.takeLine line).failure = none) :
    (b.takeLine line).builder.Accounts limits (lines ++ [line]) next := by
  unfold takeLine at hf ⊢
  obtain ⟨henter, he, hkind⟩ := Attempt.of_andThen hf
  obtain ⟨haccounts, hcode'⟩ := h.enterQuotes hl hcode henter
  obtain ⟨c, hc, hset⟩ := enterQuotes_eq henter
  have hl' : (b.enterQuotes line).builder.limits = limits := by
    rw [hset]
    exact hc.limits.trans hl
  have hdepth : line.quoteDepth = (b.enterQuotes line).builder.path.depth := by
    rw [hset, QuotePath.depth_setDepth]
  rw [he]
  exact takeKind_accounts hl' haccounts hcode' hdepth hkind

/-- Fenced code that takes a line is closed by it or holds it. -/
theorem push_code_accounts {line : Line} {kind : FenceKind} {length indent : Nat}
    {language : Option String} {codeLines : List (List Char)}
    (h : b.Accounts limits lines (some line))
    (hleaf : b.leaf = .code kind length indent language codeLines)
    (hdeep : b.path.depth ≤ line.quoteDepth) :
    (b.push line).builder.Accounts limits (lines ++ [line]) next := by
  obtain ⟨limits', path, lists, leaf, events⟩ := b
  obtain rfl : leaf = _ := hleaf
  cases h with
  | idle hnone cut => exact absurd hnone (by simp)
  | @busy before more first leaves outer hsplit cut depth hpath hcollects =>
    have hlines : lines ++ [line] = before ++ first :: (more ++ [line]) := by simp [hsplit]
    have hdeep' : first.quoteDepth ≤ line.quoteDepth := by
      rw [depth]
      exact hdeep
    have hinside : line.inside first.quoteDepth = (Line.stripAtMost path.depth line.raw).rest := by
      rw [depth]
      rfl
    unfold push unquote
    simp only
    rw [if_pos hdeep, ← hinside]
    by_cases hclose : closesCode kind length (line.inside first.quoteDepth) = true
    · have hyields : first.Yields limits (more ++ [line]) _ :=
        hcollects.yields_code (some line) (by simpa using hdeep') (by simpa using hclose)
      have hcut : Cut limits (before ++ first :: (more ++ [line])) _ next :=
        cut.complete hyields fun next _ => hcollects.ends_closed hclose next
      have hleaves : (path.push (.code language (String.ofList
          (codeText codeLines.reverse)))).leaves = path.leaves ++ [(path.depth, _)] :=
        QuotePath.leaves_push _ path
      rw [← hpath, depth, ← hleaves] at hcut
      rw [if_pos hclose, hlines]
      exact .idle rfl hcut
    · rw [if_neg hclose]
      exact .busy hlines cut depth hpath (hcollects.code_concat hdeep' hclose)

theorem push_of_not_code {line : Line} (h : b.leaf.isCode = false) :
    b.push line = b.takeLine line := by
  unfold push
  split
  · rename_i hleaf
    rw [hleaf] at h
    exact absurd h (by simp [Leaf.isCode])
  · rfl

/-- **One line.** Whatever line it takes, the builder accounts for it. -/
theorem push_accounts {line : Line} (hl : b.limits = limits)
    (h : b.Accounts limits lines (some line)) (hf : (b.push line).failure = none) :
    (b.push line).builder.Accounts limits (lines ++ [line]) next := by
  by_cases hcode : b.leaf.isCode = false
  · rw [push_of_not_code hcode] at hf ⊢
    exact takeLine_accounts hl h hcode hf
  · obtain ⟨kind, length, indent, language, codeLines, hleaf⟩ := Leaf.exists_code hcode
    by_cases hdeep : b.path.depth ≤ line.quoteDepth
    · exact push_code_accounts h hleaf hdeep
    · -- the quote of the code ends, and the line is read
      have hpush : b.push line = b.flush.andThen (takeLine line) := by
        unfold push
        simp only [hleaf]
        rw [if_neg hdeep]
      rw [hpush] at hf ⊢
      obtain ⟨hflush, he, htake⟩ := Attempt.of_andThen hf
      have hends : ∀ next ∈ some line, ¬ b.leaf.Takes b.path.depth next := by
        rintro next ⟨⟩
        rw [hleaf]
        exact hdeep
      have hcut := h.flush hl hends hflush
      have hl' : b.flush.builder.limits = limits := b.flush_fills.limits.trans hl
      have hcode' : b.flush.builder.leaf.isCode = false := by
        rw [b.leaf_flush]
        rfl
      rw [he]
      exact takeLine_accounts hl' (.idle b.leaf_flush hcut) hcode' htake

/-- **Any lines.** -/
theorem pushAll_accounts {more : List Line} (hl : b.limits = limits)
    (h : ∀ next, b.Accounts limits lines next) (hf : (b.pushAll more).failure = none) :
    (b.pushAll more).builder.Accounts limits (lines ++ more) next := by
  induction more generalizing b lines with
  | nil =>
    rw [List.append_nil]
    exact h next
  | cons line more ih =>
    rw [pushAll_cons] at hf ⊢
    obtain ⟨hpush, he, hrest⟩ := Attempt.of_andThen hf
    have hl' : (b.push line).builder.limits = limits := (push_grows hpush).1.limits.trans hl
    rw [he, List.append_cons]
    exact ih hl' (fun _ => push_accounts hl (h (some line)) hpush) hrest

end Builder

/-! ### Whole documents -/

/-- **Every line lands in one block, or is blank.** The lines of a text that is read are cut
into groups, none of which could go on with the line behind it. The leaves of the document
are those of the groups in order, each in as many quotes as its group's first line has
markers. -/
theorem Document.exists_groups_of_parse {limits : Limits} {input : String} {doc : Document}
    (h : Document.parse limits input = .ok doc) :
    ∃ groups : List (LineGroup limits),
      Line.ofText input.toList = groups.flatMap LineGroup.lines ∧
        doc.leaves = groups.flatMap LineGroup.leaves ∧
        groups.IsChain fun g g' => g.EndsAt g'.first := by
  obtain ⟨hpush, hflush, rfl⟩ := Document.of_parse h
  have hstart : ∀ next, Builder.Accounts limits [] next { limits } :=
    fun _ => .idle rfl .nil
  have hrun : Builder.Accounts limits (Line.ofText input.toList) none _ :=
    Builder.pushAll_accounts rfl hstart hpush
  have hl := (Builder.pushAll_grows hpush).limits
  obtain ⟨groups, hlines, hleaves, hchain, -⟩ := hrun.flush hl (by simp) hflush
  refine ⟨groups, hlines, ?_, hchain⟩
  rw [Builder.blocks, QuotePath.leaves_finish, hleaves]

/-- Items of one line, code that ends with its quote, and a blank line in the code after it. -/
theorem Document.exists_groups_of_parse_quoted :
    Document.parse {} "> - 1. a\n> b\n>> ```\n>>  c\n```\n\nd\n```" =
        .ok [.quote [.item (.bullet '-') 0 [], .item (.ordered 1 '.') 1 [.text "a\nb"],
          .quote [.code none " c\n"]], .code none "\nd\n"] ∧
      ∃ groups : List (LineGroup {}),
        Line.ofText "> - 1. a\n> b\n>> ```\n>>  c\n```\n\nd\n```".toList =
            groups.flatMap LineGroup.lines ∧
          [(1, .item (.bullet '-') 0 []), (1, .item (.ordered 1 '.') 1 [.text "a\nb"]),
            (2, .code none " c\n"), (0, .code none "\nd\n")] =
            groups.flatMap LineGroup.leaves ∧
          groups.IsChain fun g g' => g.EndsAt g'.first := by
  have hparse : Document.parse {} "> - 1. a\n> b\n>> ```\n>>  c\n```\n\nd\n```" =
      .ok [.quote [.item (.bullet '-') 0 [], .item (.ordered 1 '.') 1 [.text "a\nb"],
        .quote [.code none " c\n"]], .code none "\nd\n"] := by cbv
  exact ⟨hparse, Document.exists_groups_of_parse hparse⟩

end MarkdownHtml
