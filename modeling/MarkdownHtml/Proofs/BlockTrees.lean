/-
# The trees that documents are read as

A parsed document breaks no rule of `WellFormed`. Beyond that, quotes nest no deeper
than the limit, list items lie above it, paragraphs are not empty, and all running text
is sound (`Document.sound_of_parse`).

Two facts carry this through any sequence of lines. The blocks of every open quote
break no rule, and leave room for the quotes around them (`QuotePath.Sound`). And the
open leaf fits the open lists (`Leaf.Fits`): outside items no list is open, and an open
item is as deep as the lists say and no deeper than the block before it permits. Only
while markers of one line are opened does this hold in a weaker form, with no leaf open
and no more lists than the next item may be deep (`Builder.Flushed`).

Key definitions: `Block.preorder`, `Block.quoteNesting`, `Block.Sound`, `QuotePath.Sound`,
`Leaf.Fits`, `Builder.Sound`, `Builder.Flushed`.
Key theorems: `Builder.flush_flushed`, `Builder.openItem_sound`, `Builder.push_sound`,
`Builder.pushAll_sound`, `Document.sound_of_parse`.
-/
import MarkdownHtml.Convert
import MarkdownHtml.Proofs.InlineTrees

namespace MarkdownHtml

/-! ### All blocks of a document -/

namespace Block

mutual

/-- The block and all blocks inside it. -/
def preorder : Block → List Block
  | .quote blocks => .quote blocks :: preorderAll blocks
  | b => [b]

/-- The blocks and all blocks inside them. -/
def preorderAll : List Block → List Block
  | [] => []
  | b :: bs => preorder b ++ preorderAll bs

end

mutual

/-- How deep quotes nest in a block. -/
def quoteNesting : Block → Nat
  | .quote blocks => quoteNestingAll blocks + 1
  | _ => 0

/-- How deep quotes nest in blocks. -/
def quoteNestingAll : List Block → Nat
  | [] => 0
  | b :: bs => max (quoteNesting b) (quoteNestingAll bs)

end

/-- The running text of a block. -/
def content : Block → List Inline
  | .paragraph content => content
  | .heading _ content => content
  | .item _ _ content => content
  | _ => []

/-- What a block of a sound document has to be by itself. -/
def Sound (limits : Limits) : Block → Prop
  | .paragraph content => content ≠ [] ∧ Inline.SoundText limits.maxNesting content
  | .heading level content =>
    (1 ≤ level ∧ level ≤ 6) ∧ Inline.SoundText limits.maxNesting content
  | .item _ depth content =>
    depth < limits.maxNesting ∧ Inline.SoundText limits.maxNesting content
  | _ => True

theorem mem_preorderAll {b : Block} {bs : List Block} :
    b ∈ preorderAll bs ↔ ∃ c ∈ bs, b ∈ preorder c := by
  induction bs with
  | nil => simp [preorderAll]
  | cons c bs ih => simp [preorderAll, ih]

theorem quoteNestingAll_append (as bs : List Block) :
    quoteNestingAll (as ++ bs) = max (quoteNestingAll as) (quoteNestingAll bs) := by
  induction as with
  | nil => simp [quoteNestingAll]
  | cons a as ih =>
    rw [List.cons_append, quoteNestingAll, quoteNestingAll, ih]
    omega

theorem quoteNestingAll_reverse (bs : List Block) :
    quoteNestingAll bs.reverse = quoteNestingAll bs := by
  induction bs with
  | nil => rfl
  | cons b bs ih =>
    rw [List.reverse_cons, quoteNestingAll_append, ih]
    simp only [quoteNestingAll]
    omega

end Block

/-- All nodes of running text in a document. -/
def Document.inlines (doc : Document) : List Inline :=
  (Block.preorderAll doc).flatMap fun b => Inline.preorderAll b.content

/-! ### Levels of quotes -/

namespace WellFormed

/-- One more block behind blocks that break no rule. -/
theorem inBlocks?_concat {limits : Limits} {previous : Option Nat} {bs : List Block} {b : Block}
    (hbs : inBlocks? limits previous bs = none)
    (hb : inBlock? limits ((bs.getLast?.map depthAfter).getD previous) b = none) :
    inBlocks? limits previous (bs ++ [b]) = none := by
  induction bs generalizing previous with
  | nil =>
    simp only [List.nil_append, inBlocks?]
    rw [show inBlock? limits previous b = none from hb]
  | cons a bs ih =>
    simp only [inBlocks?, List.cons_append] at hbs ⊢
    cases ha : inBlock? limits previous a with
    | some v => simp [ha] at hbs
    | none =>
      simp only [ha] at hbs ⊢
      refine ih hbs ?_
      cases bs with
      | nil => exact hb
      | cons c bs =>
        -- what the last block leaves does not depend on what was there before
        have hl : (c :: bs).getLast? = some ((c :: bs).getLast (by simp)) :=
          List.getLast?_eq_some_getLast (by simp)
        rw [List.getLast?_cons_cons, hl] at hb
        rw [hl]
        exact hb

end WellFormed

/-- The blocks of one quote, newest first, with `around` quotes open around it: they break
no rule, and quotes in them stay within the limit. -/
structure SoundLevel (limits : Limits) (around : Nat) (blocks : List Block) : Prop where
  rules : WellFormed.inBlocks? limits none blocks.reverse = none
  sound : ∀ b ∈ Block.preorderAll blocks, b.Sound limits
  nesting : Block.quoteNestingAll blocks + around ≤ limits.maxNesting

/-- The deepest an item may be behind these blocks, newest first. -/
def allowedBehind (blocks : List Block) : Nat :=
  WellFormed.allowedDepth (blocks.head?.bind WellFormed.depthAfter)

namespace SoundLevel

variable {limits : Limits} {around : Nat} {blocks : List Block}

theorem nil (h : around ≤ limits.maxNesting) : SoundLevel limits around [] where
  rules := rfl
  sound b hb := absurd hb (by simp [Block.preorderAll])
  nesting := by simpa [Block.quoteNestingAll] using h

theorem cons {b : Block} (h : SoundLevel limits around blocks)
    (hr : WellFormed.inBlock? limits (blocks.head?.bind WellFormed.depthAfter) b = none)
    (hs : ∀ c ∈ Block.preorder b, c.Sound limits)
    (hn : b.quoteNesting + around ≤ limits.maxNesting) :
    SoundLevel limits around (b :: blocks) where
  rules := by
    rw [List.reverse_cons]
    refine WellFormed.inBlocks?_concat h.rules ?_
    rw [List.getLast?_reverse]
    cases blocks <;> exact hr
  sound c hc := by
    rcases List.mem_append.mp hc with hc | hc
    · exact hs c hc
    · exact h.sound c hc
  nesting := by
    have := h.nesting
    simp only [Block.quoteNestingAll]
    omega

/-- A block that holds no blocks. -/
theorem cons_leaf {b : Block} (h : SoundLevel limits around blocks)
    (hp : Block.preorder b = [b]) (hn : b.quoteNesting = 0) (hs : b.Sound limits)
    (hr : WellFormed.inBlock? limits (blocks.head?.bind WellFormed.depthAfter) b = none) :
    SoundLevel limits around (b :: blocks) := by
  refine h.cons hr (fun c hc => ?_) ?_
  · rw [hp] at hc
    obtain rfl := List.mem_singleton.mp hc
    exact hs
  · have := h.nesting
    omega

theorem paragraph {content : List Inline} (h : SoundLevel limits around blocks)
    (hn : content ≠ []) (hs : Inline.SoundText limits.maxNesting content) :
    SoundLevel limits around (.paragraph content :: blocks) :=
  h.cons_leaf rfl rfl ⟨hn, hs⟩ (WellFormed.inText?_eq_none hs)

theorem heading {level : Nat} {content : List Inline} (h : SoundLevel limits around blocks)
    (hl : 1 ≤ level ∧ level ≤ 6) (hs : Inline.SoundText limits.maxNesting content) :
    SoundLevel limits around (.heading level content :: blocks) := by
  refine h.cons_leaf rfl rfl ⟨hl, hs⟩ ?_
  rw [WellFormed.inBlock?, if_pos hl]
  exact WellFormed.inText?_eq_none hs

theorem item {list : ListKind} {depth : Nat} {content : List Inline}
    (h : SoundLevel limits around blocks) (hd : depth ≤ allowedBehind blocks)
    (hl : depth < limits.maxNesting) (hs : Inline.SoundText limits.maxNesting content) :
    SoundLevel limits around (.item list depth content :: blocks) := by
  refine h.cons_leaf rfl rfl ⟨hl, hs⟩ ?_
  unfold allowedBehind at hd
  rw [WellFormed.inBlock?, if_pos hd]
  exact WellFormed.inText?_eq_none hs

/-- A quote that closes becomes a block of the level around it. -/
theorem quote {inner : List Block} (h : SoundLevel limits around blocks)
    (hi : SoundLevel limits (around + 1) inner) :
    SoundLevel limits around (.quote inner.reverse :: blocks) := by
  refine h.cons hi.rules (fun c hc => ?_) ?_
  · rcases List.mem_cons.mp hc with rfl | hc
    · trivial
    · obtain ⟨b, hb, hc⟩ := Block.mem_preorderAll.mp hc
      exact hi.sound c (Block.mem_preorderAll.mpr ⟨b, List.mem_reverse.mp hb, hc⟩)
  · have := hi.nesting
    rw [Block.quoteNesting, Block.quoteNestingAll_reverse]
    omega

end SoundLevel

namespace QuotePath

/-- All levels are sound, innermost first. -/
def SoundLevels (limits : Limits) : List (List Block) → Prop
  | [] => True
  | blocks :: outer => SoundLevel limits outer.length blocks ∧ SoundLevels limits outer

/-- The blocks of all open quotes are sound. -/
def Sound (limits : Limits) (p : QuotePath) : Prop := SoundLevels limits (p.inner :: p.outer)

/-- The deepest the next item may be. -/
def allowed (p : QuotePath) : Nat := allowedBehind p.inner

theorem Sound.push {limits : Limits} {p : QuotePath} {b : Block} (h : p.Sound limits)
    (hb : SoundLevel limits p.depth (b :: p.inner)) : (p.push b).Sound limits :=
  ⟨hb, h.2⟩

theorem Sound.depth_le {limits : Limits} {p : QuotePath} (h : p.Sound limits) :
    p.depth ≤ limits.maxNesting := by
  have hn := h.1.nesting
  unfold depth
  omega

theorem Sound.closeMany {limits : Limits} {p : QuotePath} (h : p.Sound limits) (n : Nat) :
    (p.closeMany n).Sound limits := by
  refine closeMany_keeps (P := fun q => q.Sound limits) ?_ n p h
  rintro inner around outer ⟨hi, ha, ho⟩
  exact ⟨ha.quote hi, ho⟩

theorem Sound.openMany {limits : Limits} {p : QuotePath} {n : Nat} (h : p.Sound limits)
    (hn : p.depth + n ≤ limits.maxNesting) : (p.openMany n).Sound limits := by
  induction n generalizing p with
  | zero => exact h
  | succ n ih =>
    refine ih ⟨SoundLevel.nil ?_, h⟩ ?_
    · simp only [depth] at hn
      simp only [List.length_cons]
      omega
    · simp only [depth, List.length_cons] at hn ⊢
      omega

theorem Sound.setDepth {limits : Limits} {p : QuotePath} {d : Nat} (h : p.Sound limits)
    (hd : d ≤ limits.maxNesting) : (p.setDepth d).Sound limits := by
  refine (h.closeMany _).openMany ?_
  have := h.depth_le
  rw [depth_closeMany]
  omega

end QuotePath

/-! ### Lines -/

/-- What the builder relies on of a line: headings have a level from 1 to 6, and a line of
text is more than white space. -/
structure Line.Sound (line : Line) : Prop where
  heading : ∀ heading, line.kind = .heading heading → 1 ≤ heading.level ∧ heading.level ≤ 6
  text : ∀ text, line.kind = .text text → ∃ c ∈ text, Text.isWhite c = false

theorem Heading.level_of_read? {text : List Char} {heading : Heading}
    (h : Heading.read? text = some heading) : 1 ≤ heading.level ∧ heading.level ≤ 6 := by
  simp only [Heading.read?] at h
  split_ifs at h with h₁ h₂
  obtain rfl := Option.some.inj h
  simp only
  omega

namespace Line

theorem kindOfText_heading {text : List Char} {heading : Heading}
    (h : kindOfText text = .heading heading) : Heading.read? text = some heading := by
  unfold kindOfText at h
  split at h
  · exact absurd h (by simp)
  · split at h
    · rename_i hr
      rw [hr, LineKind.heading.inj h]
    · split_ifs at h
      split at h <;> exact absurd h (by simp)

theorem kindOfText_text {text content : List Char} (h : kindOfText text = .text content) :
    content = text := by
  unfold kindOfText at h
  split at h
  · exact absurd h (by simp)
  · split at h
    · exact absurd h (by simp)
    · split_ifs at h
      split at h
      · exact absurd h (by simp)
      · exact (LineKind.text.inj h).symm

theorem sound_classify (number : Nat) (raw : List Char) : (classify number raw).Sound := by
  simp only [classify]
  generalize columns ((stripAll raw).rest.takeWhile Text.isPad) = indent
  generalize (stripAll raw).rest.dropWhile Text.isPad = text
  constructor
  · intro heading h
    simp only [kindOf] at h
    split_ifs at h
    · exact Heading.level_of_read? (kindOfText_heading h)
    · split at h <;> exact absurd h (by simp)
  · intro content h
    simp only [kindOf] at h
    split_ifs at h with hw hi
    · rw [kindOfText_text h]
      simpa using hw
    · split at h
      · exact absurd h (by simp)
      · rw [← LineKind.text.inj h]
        simpa using hw

theorem sound_ofText (s : List Char) : ∀ line ∈ Line.ofText s, line.Sound := by
  intro line hline
  obtain ⟨i, -, rfl⟩ := List.mem_mapIdx.mp hline
  exact sound_classify _ _

end Line

/-- The text behind a marker is the end of the text it was read from, at least one character
behind its start. -/
theorem Marker.content_suffix_tail {text : List Char} {m : Marker}
    (h : Marker.read? text = some m) : ∃ c rest, c :: rest <:+ text ∧ m.content <:+ rest := by
  have hclose : ∀ {list : ListKind} {size : Nat} {rest : List Char},
      Marker.close? list size rest = some m → m.content <:+ rest := by
    intro list size rest h
    unfold Marker.close? at h
    split_ifs at h
    obtain rfl := Option.some.inj h
    exact List.dropWhile_suffix _
  unfold Marker.read? at h
  rcases Option.or_eq_some_iff.mp h with h | ⟨-, h⟩
  · unfold Marker.readBullet? at h
    split at h
    · split_ifs at h
      exact ⟨_, _, List.suffix_refl _, hclose h⟩
    · exact absurd h (by simp)
  · simp only [Marker.readOrdered?] at h
    split_ifs at h
    split at h
    · rename_i c rest hd
      split_ifs at h
      exact ⟨c, rest, hd ▸ List.dropWhile_suffix _, hclose h⟩
    · exact absurd h (by simp)

theorem Marker.content_suffix {text : List Char} {m : Marker} (h : Marker.read? text = some m) :
    m.content <:+ text := by
  obtain ⟨c, rest, hrest, hcontent⟩ := Marker.content_suffix_tail h
  exact hcontent.trans ((List.suffix_cons c rest).trans hrest)

theorem Marker.length_content_lt {text : List Char} {m : Marker} (h : Marker.read? text = some m) :
    m.content.length < text.length := by
  obtain ⟨c, rest, hrest, hcontent⟩ := Marker.content_suffix_tail h
  have hlength := hrest.length_le
  rw [List.length_cons] at hlength
  exact Nat.lt_of_le_of_lt hcontent.length_le hlength

/-- Text blocks that are more than white space are joined to some text. -/
theorem joinLines_ne_nil {lines : List (List Char)}
    (h : ∃ line ∈ lines, ∃ c ∈ line, Text.isWhite c = false) : joinLines lines ≠ [] := by
  obtain ⟨line, hline, c, hc, hw⟩ := h
  have hstart : c ∈ Text.trimStart line := by
    rw [← List.takeWhile_append_dropWhile (p := Text.isWhite) (l := line)] at hc
    rcases List.mem_append.mp hc with hc | hc
    · exact absurd (List.all_eq_true.mp List.all_takeWhile c hc) (by simp [hw])
    · exact hc
  have hin : c ∈ List.intercalate ['\n'] (lines.map Text.trimStart) := by
    clear hc
    induction lines with
    | nil => exact absurd hline (by simp)
    | cons l lines ih =>
      rcases List.mem_cons.mp hline with rfl | hline
      · cases lines <;> simp [List.intercalate, hstart]
      · cases lines with
        | nil => exact absurd hline (by simp)
        | cons k lines =>
          have := ih hline
          simp only [List.map_cons, List.intercalate, List.intersperse_cons_cons,
            List.flatten_cons] at this ⊢
          simp [this]
  intro he
  obtain ⟨t, ht, hwhite⟩ := Text.exists_dropEndWhile_append Text.isWhite
    (List.intercalate ['\n'] (lines.map Text.trimStart))
  unfold joinLines Text.trimEnd at he
  rw [he, List.nil_append] at ht
  rw [ht] at hin
  exact absurd (hwhite c hin) (by simp [hw])

/-! ### The builder -/

/-- The open leaf fits the open lists, where the next item may be `allowed` deep. -/
def Leaf.Fits (limits : Limits) (allowed : Nat) (lists : ListStack) : Leaf → Prop
  | .none => lists = []
  | .code .. => lists = []
  | .paragraph lines => lists = [] ∧ ∃ line ∈ lines, ∃ c ∈ line, Text.isWhite c = false
  | .item _ depth _ =>
    lists.length = depth + 1 ∧ depth ≤ allowed ∧ depth < limits.maxNesting

theorem Attempt.of_andThen {a : Attempt} {next : Builder → Attempt}
    (h : (a.andThen next).failure = none) :
    a.failure = none ∧ a.andThen next = next a.builder ∧ (next a.builder).failure = none := by
  unfold Attempt.andThen at h ⊢
  cases hf : a.failure with
  | none =>
    rw [hf] at h
    exact ⟨rfl, rfl, h⟩
  | some e =>
    rw [hf] at h
    exact absurd (hf.symm.trans h) (by simp)

theorem ListStack.length_unwind_le (indent : Nat) (levels : ListStack) :
    (levels.unwind indent).length ≤ levels.length := by
  induction levels with
  | nil => exact Nat.le_refl _
  | cons top below ih =>
    unfold ListStack.unwind
    split_ifs
    · exact Nat.le_refl _
    · simp
    · simp only [List.length_cons]
      omega

namespace Builder

/-- Between two lines: the blocks are sound, and the leaf fits the lists. -/
structure Sound (limits : Limits) (b : Builder) : Prop where
  limits_eq : b.limits = limits
  path : b.path.Sound limits
  leaf : b.leaf.Fits limits b.path.allowed b.lists

/-- Between two items of one line: no leaf is open, and the next item may be as deep as
lists are open. -/
structure Flushed (limits : Limits) (b : Builder) : Prop where
  limits_eq : b.limits = limits
  path : b.path.Sound limits
  leaf : b.leaf = .none
  lists : b.lists.length ≤ b.path.allowed

theorem Flushed.sound {limits : Limits} {b : Builder} (h : b.Flushed limits)
    (hl : b.lists = []) : b.Sound limits := by
  refine ⟨h.limits_eq, h.path, ?_⟩
  rw [h.leaf]
  exact hl

/-- Reading running text that does not fail hands its nodes on. -/
theorem of_readInline {text : List Char} {next : List Inline → Builder → Builder} {b : Builder}
    (h : (b.readInline text next).failure = none) :
    ∃ nodes events, Inline.parse b.limits text = .ok nodes ∧
      (b.readInline text next).builder = next nodes { b with events } := by
  unfold readInline at h ⊢
  cases hr : (Inline.read b.limits text).nodes with
  | error e =>
    simp only [hr] at h
    exact absurd h (by simp)
  | ok nodes =>
    refine ⟨nodes, (b.noteDropped (Inline.read b.limits text)).events, hr, ?_⟩
    simp only [hr]
    rfl

/-- Closing the open leaf. -/
theorem flush_flushed {limits : Limits} {b : Builder} (h : b.Sound limits)
    (hf : b.flush.failure = none) :
    b.flush.builder.Flushed limits ∧ b.flush.builder.lists = b.lists := by
  obtain ⟨limits', path, lists, leaf, events⟩ := b
  obtain rfl : limits' = limits := h.limits_eq
  have hlevel := h.path.1
  have hfit := h.leaf
  unfold flush at hf ⊢
  cases leaf with
  | none =>
    obtain rfl : lists = [] := hfit
    exact ⟨⟨rfl, h.path, rfl, Nat.zero_le _⟩, rfl⟩
  | code fence length indent language lines =>
    obtain rfl : lists = [] := hfit
    have hpath :
        (path.push (.code language (String.ofList (codeText lines.reverse)))).Sound limits' :=
      h.path.push (hlevel.cons_leaf rfl rfl trivial rfl)
    exact ⟨⟨rfl, hpath, rfl, Nat.zero_le _⟩, rfl⟩
  | paragraph lines =>
    obtain ⟨nodes, events', hp, he⟩ := of_readInline hf
    obtain ⟨rfl, hne⟩ : lists = [] ∧ _ := hfit
    have hnodes : nodes ≠ [] :=
      Inline.ne_nil_of_parse hp (joinLines_ne_nil (by simpa using hne))
    have hpath : (path.push (.paragraph nodes)).Sound limits' :=
      h.path.push (hlevel.paragraph hnodes (Inline.soundText_of_parse hp))
    simp only [he]
    exact ⟨⟨rfl, hpath, rfl, Nat.zero_le _⟩, rfl⟩
  | item list depth lines =>
    obtain ⟨nodes, events', hp, he⟩ := of_readInline hf
    obtain ⟨hl, hd, hlt⟩ : lists.length = depth + 1 ∧ _ := hfit
    have hpath : (path.push (.item list depth nodes)).Sound limits' :=
      h.path.push (hlevel.item hd hlt (Inline.soundText_of_parse hp))
    simp only [he]
    -- the item that is appended permits one level more, which is what lists are open
    exact ⟨⟨rfl, hpath, rfl, Nat.le_of_eq hl⟩, rfl⟩

/-- Closing the open leaf and every list. -/
theorem flushAll_sound {limits : Limits} {b : Builder} (h : b.Sound limits)
    (hf : b.flushAll.failure = none) :
    b.flushAll.builder.Sound limits ∧ b.flushAll.builder.leaf = .none ∧
      b.flushAll.builder.lists = [] := by
  unfold flushAll at hf ⊢
  obtain ⟨hfl, he, -⟩ := Attempt.of_andThen hf
  rw [he]
  obtain ⟨hb, -⟩ := flush_flushed h hfl
  refine ⟨⟨hb.limits_eq, hb.path, ?_⟩, hb.leaf, rfl⟩
  simp only [Attempt.done, hb.leaf]
  rfl

/-- Opening the items of one line. -/
theorem openItem_sound {limits : Limits} {fuel indent : Nat} {marker : Marker} {b : Builder}
    (h : b.Flushed limits) (hfuel : marker.content.length < fuel)
    (hf : (b.openItem fuel indent marker).failure = none) :
    (b.openItem fuel indent marker).builder.Sound limits := by
  induction fuel generalizing indent marker b with
  | zero => omega
  | succ fuel ih =>
    obtain ⟨limits', path, lists, leaf, events⟩ := b
    obtain rfl : limits' = limits := h.limits_eq
    obtain rfl : leaf = .none := h.leaf
    have hle := ListStack.length_unwind_le indent lists
    have hlists : lists.length ≤ path.allowed := h.lists
    rw [openItem_succ rfl] at hf ⊢
    by_cases hmax : limits'.maxNesting ≤ (lists.unwind indent).length
    · rw [if_pos hmax] at hf
      exact absurd hf (by simp [refuse])
    · rw [if_neg hmax] at hf ⊢
      have hlt : (lists.unwind indent).length < limits'.maxNesting := by omega
      split at hf
      · rename_i inner hinner
        have hshort : inner.content.length < marker.content.length := by
          unfold innerMarker? at hinner
          split_ifs at hinner
          exact Marker.length_content_lt hinner
        refine ih ⟨rfl, ?_, rfl, ?_⟩ (by omega) hf
        · refine h.path.push (h.path.1.item (Nat.le_trans hle hlists) hlt ?_)
          exact ⟨Inline.joined_nil, by simp, by simp [Inline.preorderAll]⟩
        · -- the item that was emitted permits one level more
          exact Nat.le_refl _
      · exact ⟨rfl, h.path, rfl, Nat.le_trans hle hlists, hlt⟩

theorem enterQuotes_sound {limits : Limits} {line : Line} {b : Builder} (h : b.Sound limits)
    (hf : (b.enterQuotes line).failure = none) :
    (b.enterQuotes line).builder.Sound limits := by
  unfold enterQuotes at hf ⊢
  split_ifs at hf ⊢ with hmax hsame
  · exact absurd hf (by simp [refuse])
  · exact h
  · obtain ⟨hfl, he, -⟩ := Attempt.of_andThen hf
    obtain ⟨hb, hleaf, hlists⟩ := flushAll_sound h hfl
    rw [he]
    rw [h.limits_eq] at hmax
    refine ⟨hb.limits_eq, hb.path.setDepth (by omega), ?_⟩
    simp only [Attempt.done, hleaf]
    exact hlists

theorem extendText_sound {limits : Limits} {text : List Char} {b : Builder} (h : b.Sound limits)
    (ht : ∃ c ∈ text, Text.isWhite c = false) : (b.extendText text).Sound limits := by
  have hfit := h.leaf
  unfold extendText
  split
  · rename_i lines hleaf
    rw [hleaf] at hfit
    exact ⟨h.limits_eq, h.path, hfit.1, text, List.mem_cons_self, ht⟩
  · rename_i list depth lines hleaf
    rw [hleaf] at hfit
    exact ⟨h.limits_eq, h.path, hfit⟩
  · -- a paragraph starts, and outside items no list is open
    rename_i hno hno'
    have hl : b.lists = [] := by
      cases hleaf : b.leaf with
      | none => rwa [hleaf] at hfit
      | code => rwa [hleaf] at hfit
      | paragraph lines => exact absurd hleaf (hno lines)
      | item list depth lines => exact absurd hleaf (hno' list depth lines)
    exact ⟨h.limits_eq, h.path, hl, text, List.mem_cons_self, ht⟩

/-- A step behind closing everything. -/
theorem flushAll_andThen_sound {limits : Limits} {b : Builder} {next : Builder → Attempt}
    (h : b.Sound limits) (hf : (b.flushAll.andThen next).failure = none)
    (hnext : ∀ b : Builder, b.Sound limits → b.leaf = .none → b.lists = [] →
      (next b).failure = none → (next b).builder.Sound limits) :
    (b.flushAll.andThen next).builder.Sound limits := by
  obtain ⟨hfl, he, hn⟩ := Attempt.of_andThen hf
  obtain ⟨hb, hleaf, hlists⟩ := flushAll_sound h hfl
  rw [he]
  exact hnext _ hb hleaf hlists hn

theorem takeKind_sound {limits : Limits} {line : Line} {b : Builder} (hline : line.Sound)
    (h : b.Sound limits) (hf : (b.takeKind line).failure = none) :
    (b.takeKind line).builder.Sound limits := by
  unfold takeKind at hf ⊢
  split at hf
  · exact (flushAll_sound h hf).1
  · exact flushAll_andThen_sound h hf fun b hb _ hlists _ => ⟨hb.limits_eq, hb.path, hlists⟩
  · rename_i heading hkind
    refine flushAll_andThen_sound h hf fun b hb hleaf hlists hf => ?_
    obtain ⟨nodes, events, hp, he⟩ := of_readInline hf
    rw [hb.limits_eq] at hp
    rw [he]
    refine ⟨hb.limits_eq, hb.path.push ?_, ?_⟩
    · exact hb.path.1.heading (hline.heading heading hkind) (Inline.soundText_of_parse hp)
    · simp only [emit, hleaf]
      exact hlists
  · refine flushAll_andThen_sound h hf fun b hb hleaf hlists _ => ?_
    refine ⟨hb.limits_eq, hb.path.push (hb.path.1.cons_leaf rfl rfl trivial rfl), ?_⟩
    simp only [Attempt.done, emit, hleaf]
    exact hlists
  · obtain ⟨hfl, he, hn⟩ := Attempt.of_andThen hf
    rw [he]
    exact openItem_sound (flush_flushed h hfl).1 (Nat.lt_succ_self _) hn
  · rename_i text hkind
    exact extendText_sound h (hline.text text hkind)

theorem takeLine_sound {limits : Limits} {line : Line} {b : Builder} (hline : line.Sound)
    (h : b.Sound limits) (hf : (b.takeLine line).failure = none) :
    (b.takeLine line).builder.Sound limits := by
  unfold takeLine at hf ⊢
  obtain ⟨he, heq, hn⟩ := Attempt.of_andThen hf
  rw [heq]
  exact takeKind_sound hline (enterQuotes_sound h he) hn

/-- **One line.** Taking a line keeps the builder sound, unless it fails. -/
theorem push_sound {limits : Limits} {line : Line} {b : Builder} (hline : line.Sound)
    (h : b.Sound limits) (hf : (b.push line).failure = none) :
    (b.push line).builder.Sound limits := by
  unfold push at hf ⊢
  split at hf
  · rename_i kind length indent language lines hleaf
    have hl : b.lists = [] := by
      have hfit := h.leaf
      rwa [hleaf] at hfit
    -- code that ends leaves no list open, as there was none
    have hflush : b.flush.failure = none → b.flush.builder.Sound limits := by
      intro hfl
      obtain ⟨hb, hlists⟩ := flush_flushed h hfl
      exact hb.sound (hlists.trans hl)
    simp only at hf ⊢
    split_ifs at hf ⊢
    · exact hflush hf
    · exact ⟨h.limits_eq, h.path, hl⟩
    · obtain ⟨hfl, he, hn⟩ := Attempt.of_andThen hf
      rw [he]
      exact takeLine_sound hline (hflush hfl) hn
  · exact takeLine_sound hline h hf

/-- **Any lines.** Whatever lines it takes, the builder stays sound. -/
theorem pushAll_sound {limits : Limits} {lines : List Line} {b : Builder}
    (hlines : ∀ line ∈ lines, line.Sound) (h : b.Sound limits)
    (hf : (b.pushAll lines).failure = none) : (b.pushAll lines).builder.Sound limits := by
  induction lines generalizing b with
  | nil => exact h
  | cons line lines ih =>
    have hpush := push_sound (hlines line List.mem_cons_self) h
    unfold pushAll at hf ⊢
    generalize b.push line = a at hf hpush ⊢
    obtain ⟨b', failure⟩ := a
    cases failure with
    | none => exact ih (fun l hl => hlines l (List.mem_cons_of_mem _ hl)) (hpush rfl) hf
    | some e => exact absurd hf (by simp)

end Builder

/-! ### Whole documents -/

/-- Closing every quote leaves one level, the document. -/
theorem QuotePath.Sound.finish {limits : Limits} {p : QuotePath} (h : p.Sound limits) :
    ∃ blocks, p.finish = blocks.reverse ∧ SoundLevel limits 0 blocks := by
  have hd : (p.closeMany p.depth).outer.length = 0 := by
    have := QuotePath.depth_closeMany p.depth p
    rwa [Nat.sub_self] at this
  exact ⟨_, rfl, hd ▸ (h.closeMany p.depth).1⟩

/-- A document that is read is what the builder ends with behind its last line. -/
theorem Document.of_parse {limits : Limits} {input : String} {doc : Document}
    (h : Document.parse limits input = .ok doc) :
    (Builder.pushAll (Line.ofText input.toList) { limits }).failure = none ∧
      (Builder.pushAll (Line.ofText input.toList) { limits }).builder.flush.failure = none ∧
      (Builder.pushAll (Line.ofText input.toList) { limits }).builder.flush.builder.blocks =
        doc := by
  unfold Document.parse Document.read at h
  simp only at h
  split at h
  · exact absurd h (by simp)
  · simp only [Document.ofLines, Attempt.conclude] at h
    split at h
    · rename_i hf
      obtain ⟨hpush, he, hfinish⟩ := Attempt.of_andThen hf
      rw [he] at h
      exact ⟨hpush, hfinish, Except.ok.inj h⟩
    · exact absurd h (by simp)

theorem Document.level_of_parse {limits : Limits} {input : String} {doc : Document}
    (h : Document.parse limits input = .ok doc) :
    ∃ blocks, doc = blocks.reverse ∧ SoundLevel limits 0 blocks := by
  obtain ⟨hpush, hflush, rfl⟩ := Document.of_parse h
  have hstart : Builder.Sound limits { limits } :=
    ⟨rfl, ⟨SoundLevel.nil (Nat.zero_le _), trivial⟩, rfl⟩
  have hb := Builder.pushAll_sound (Line.sound_ofText input.toList) hstart hpush
  exact (Builder.flush_flushed hb hflush).1.path.finish

/-- **Parsed documents are sound.** A document that a text is read as breaks no rule:
headings have levels 1 to 6, items go down one level at a time, text is neither empty nor
next to text, and formatting nests within the limit. Quotes nest within the limit too, and
items lie above it; no link is inside a link, and neither emphasis nor paragraphs are
empty. -/
theorem Document.sound_of_parse {limits : Limits} {input : String} {doc : Document}
    (h : Document.parse limits input = .ok doc) :
    doc.violation? limits = none ∧
      Block.quoteNestingAll doc ≤ limits.maxNesting ∧
      (∀ list depth content, Block.item list depth content ∈ Block.preorderAll doc →
        depth < limits.maxNesting) ∧
      (∀ href title children, Inline.link href title children ∈ doc.inlines →
        ∀ n ∈ Inline.preorderAll children, n.isLink = false) ∧
      Inline.emphasis [] ∉ doc.inlines ∧ Inline.strong [] ∉ doc.inlines ∧
      Block.paragraph [] ∉ Block.preorderAll doc := by
  obtain ⟨blocks, rfl, hlevel⟩ := Document.level_of_parse h
  have hsound : ∀ b ∈ Block.preorderAll blocks.reverse, b.Sound limits := by
    intro b hb
    obtain ⟨c, hc, hb⟩ := Block.mem_preorderAll.mp hb
    exact hlevel.sound b (Block.mem_preorderAll.mpr ⟨c, List.mem_reverse.mp hc, hb⟩)
  have hinline : ∀ n ∈ Document.inlines blocks.reverse, n.Sound := by
    intro n hn
    obtain ⟨b, hb, hn⟩ := List.mem_flatMap.mp hn
    have hs := hsound b hb
    cases b with
    | paragraph => exact hs.2.sound n hn
    | heading => exact hs.2.sound n hn
    | item => exact hs.2.sound n hn
    | _ => exact absurd hn (by simp [Block.content, Inline.preorderAll])
  refine ⟨hlevel.rules, ?_, ?_, ?_, ?_, ?_, ?_⟩
  · rw [Block.quoteNestingAll_reverse]
    exact hlevel.nesting
  · intro list depth content hb
    exact (hsound _ hb).1
  · intro href title children hn
    exact (hinline _ hn).2
  · exact fun hn => (hinline _ hn).1 rfl
  · exact fun hn => (hinline _ hn).1 rfl
  · exact fun hb => (hsound _ hb).1 rfl

/-- Items in a quote, at the limit of two levels. -/
theorem Document.sound_of_parse_quoted :
    ∃ doc, Document.parse ⟨100, 2⟩ "> # a\n> - *b*\n>   1. [c](u)\n\nd _e_" = .ok doc ∧
      doc.violation? ⟨100, 2⟩ = none ∧ Block.quoteNestingAll doc ≤ 2 ∧
      Block.paragraph [] ∉ Block.preorderAll doc := by
  have h : Document.parse ⟨100, 2⟩ "> # a\n> - *b*\n>   1. [c](u)\n\nd _e_" =
      .ok [.quote [.heading 1 [.text "a"], .item (.bullet '-') 0 [.emphasis [.text "b"]],
          .item (.ordered 1 '.') 1 [.link "u" none [.text "c"]]],
        .paragraph [.text "d ", .emphasis [.text "e"]]] := by cbv
  obtain ⟨hrules, hquotes, -, -, -, -, hparagraphs⟩ := Document.sound_of_parse h
  exact ⟨_, h, hrules, hquotes, hparagraphs⟩

end MarkdownHtml
