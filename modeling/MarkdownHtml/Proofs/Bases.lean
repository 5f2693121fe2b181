/-
# Building on top of other blocks

A builder that starts above blocks and open quotes which are there already does above
them what a builder does that starts with nothing (`Builder.Over`). It takes the same
lines, with as many quote markers more in front of each as quotes are open below, fails
where the other fails, and ends with the same blocks on top (`Builder.pushAll_over`).
Only the limit on quotes can tell the two apart, since it counts the quotes below too.
It does not if there are none, or if the run above fits with them: quotes that were open
once stay in the tree, so the nesting of the result bounds that of every line
(`QuotePath.reach`, `Builder.pushAll_grows`).

Key definitions: `QuotePath.onto`, `QuotePath.reach`, `Builder.Fills`, `Builder.Grows`,
`Builder.Reads`, `Builder.Over`, `Attempt.Over`.
Key theorems: `QuotePath.setDepth_onto`, `QuotePath.finish_onto`, `Builder.push_grows`,
`Builder.push_over`, `Builder.pushAll_over`.
-/
import MarkdownHtml.Proofs.BlockTrees
import MarkdownHtml.Proofs.Lines

namespace MarkdownHtml

/-! ### Paths on top of others -/

namespace QuotePath

/-- Levels of quotes, innermost first, with `base` below them: the outermost goes on with
the innermost quote of `base`. -/
def raise (base : QuotePath) (inner : List Block) : List (List Block) → QuotePath
  | [] => ⟨inner ++ base.inner, base.outer⟩
  | around :: outer =>
    ⟨inner, (raise base around outer).inner :: (raise base around outer).outer⟩

/-- The path with `base` below it. -/
def onto (base p : QuotePath) : QuotePath := raise base p.inner p.outer

theorem depth_onto (base p : QuotePath) : (base.onto p).depth = p.depth + base.depth := by
  obtain ⟨inner, outer⟩ := p
  unfold onto depth
  induction outer generalizing inner with
  | nil => simp [raise]
  | cons around outer ih =>
    have hlen := ih around
    simp only at hlen
    simp only [raise, List.length_cons, hlen]
    omega

theorem push_onto (base : QuotePath) (block : Block) (p : QuotePath) :
    base.onto (p.push block) = (base.onto p).push block := by
  obtain ⟨inner, _ | ⟨around, outer⟩⟩ := p <;> rfl

theorem openMany_onto (base : QuotePath) (n : Nat) (p : QuotePath) :
    base.onto (p.openMany n) = (base.onto p).openMany n := by
  induction n generalizing p with
  | zero => rfl
  | succ n ih =>
    rw [openMany, openMany, ih]
    rfl

/-- Quotes that are open above the base are closed above it. -/
theorem closeMany_onto (base : QuotePath) {n : Nat} {p : QuotePath} (h : n ≤ p.depth) :
    base.onto (p.closeMany n) = (base.onto p).closeMany n := by
  induction n generalizing p with
  | zero => simp [closeMany]
  | succ n ih =>
    obtain ⟨inner, _ | ⟨around, outer⟩⟩ := p
    · simp [depth] at h
    · have hn : n ≤ (push (.quote inner.reverse) ⟨around, outer⟩).depth := by
        simp only [depth, List.length_cons] at h
        simp only [push, depth]
        omega
      have hclosed := ih hn
      rw [push_onto] at hclosed
      exact hclosed

theorem setDepth_onto (base : QuotePath) (d : Nat) (p : QuotePath) :
    base.onto (p.setDepth d) = (base.onto p).setDepth (d + base.depth) := by
  have hclose : (base.onto p).depth - (d + base.depth) = p.depth - d := by
    rw [depth_onto]
    omega
  have hopen : d + base.depth - (base.onto p).depth = d - p.depth := by
    rw [depth_onto]
    omega
  unfold setDepth
  rw [hclose, hopen, openMany_onto, closeMany_onto base (by omega)]

theorem closeMany_add (m n : Nat) (p : QuotePath) :
    p.closeMany (m + n) = (p.closeMany m).closeMany n := by
  induction m generalizing p with
  | zero => simp [closeMany]
  | succ m ih =>
    obtain ⟨inner, _ | ⟨around, outer⟩⟩ := p
    · have hnil : ∀ k, closeMany k ⟨inner, []⟩ = ⟨inner, []⟩ := by
        intro k
        cases k <;> rfl
      rw [hnil, hnil, hnil]
    · rw [Nat.add_right_comm, closeMany, closeMany, ih]

/-- Closing all quotes leaves the blocks of the document. -/
theorem closeMany_depth (p : QuotePath) : p.closeMany p.depth = ⟨p.finish.reverse, []⟩ := by
  have hdepth := depth_closeMany p.depth p
  rw [Nat.sub_self] at hdepth
  have houter : (p.closeMany p.depth).outer = [] := List.length_eq_zero_iff.mp hdepth
  unfold finish
  rw [List.reverse_reverse, ← houter]

/-- The blocks of the path end up as the last ones in the innermost quote of the base. -/
theorem finish_onto (base p : QuotePath) :
    (base.onto p).finish = finish ⟨p.finish.reverse ++ base.inner, base.outer⟩ := by
  have hclosed : (base.onto p).closeMany p.depth =
      ⟨p.finish.reverse ++ base.inner, base.outer⟩ := by
    rw [← closeMany_onto base (Nat.le_refl _), closeMany_depth]
    rfl
  unfold finish
  rw [depth_onto, closeMany_add, hclosed]
  rfl

theorem setDepth_self (p : QuotePath) : p.setDepth p.depth = p := by
  unfold setDepth
  rw [Nat.sub_self]
  simp [closeMany, openMany]

/-! ### How deep a path reaches -/

/-- How deep quotes nest in levels, innermost first, once all are closed. -/
def reachOf (inner : List Block) : List (List Block) → Nat
  | [] => Block.quoteNestingAll inner
  | around :: outer =>
    max (Block.quoteNestingAll inner + (outer.length + 1)) (reachOf around outer)

/-- How deep quotes nest once the path is closed. -/
def reach (p : QuotePath) : Nat := reachOf p.inner p.outer

theorem depth_le_reach (p : QuotePath) : p.depth ≤ p.reach := by
  obtain ⟨inner, _ | ⟨around, outer⟩⟩ := p
  · exact Nat.zero_le _
  · simp only [depth, reach, reachOf, List.length_cons]
    omega

theorem reach_closeMany (n : Nat) (p : QuotePath) : (p.closeMany n).reach = p.reach := by
  refine closeMany_keeps (P := fun q => q.reach = p.reach) ?_ n p rfl
  -- the quote that closes counts one in the level around it
  intro inner around outer h
  rw [← h]
  cases outer with
  | nil =>
    simp only [reach, reachOf, Block.quoteNestingAll, Block.quoteNesting,
      Block.quoteNestingAll_reverse, List.length_nil]
  | cons further outer =>
    simp only [reach, reachOf, Block.quoteNestingAll, Block.quoteNesting,
      Block.quoteNestingAll_reverse, List.length_cons]
    omega

theorem quoteNestingAll_finish (p : QuotePath) : Block.quoteNestingAll p.finish = p.reach := by
  have hclosed := reach_closeMany p.depth p
  rw [closeMany_depth] at hclosed
  rw [← Block.quoteNestingAll_reverse]
  exact hclosed

theorem reach_openMany_le (n : Nat) (p : QuotePath) : p.reach ≤ (p.openMany n).reach := by
  refine openMany_keeps (P := fun q => p.reach ≤ q.reach) ?_ n p (Nat.le_refl _)
  intro q h
  have hone : q.reach ≤ reach ⟨[], q.inner :: q.outer⟩ := by
    simp only [reach, reachOf]
    omega
  exact Nat.le_trans h hone

theorem reach_setDepth_le (d : Nat) (p : QuotePath) : p.reach ≤ (p.setDepth d).reach := by
  have hopen := reach_openMany_le (d - p.depth) (p.closeMany (p.depth - d))
  rw [reach_closeMany] at hopen
  exact hopen

/-- `Fills p q`: blocks were appended to the innermost quote of `p`. -/
def Fills (p q : QuotePath) : Prop := ∃ blocks, q = { p with inner := blocks ++ p.inner }

theorem Fills.refl (p : QuotePath) : p.Fills p := ⟨[], rfl⟩

theorem Fills.trans {p q r : QuotePath} (h : p.Fills q) (h' : q.Fills r) : p.Fills r := by
  obtain ⟨blocks, rfl⟩ := h
  obtain ⟨more, rfl⟩ := h'
  exact ⟨more ++ blocks, by rw [List.append_assoc]⟩

theorem fills_push (block : Block) (p : QuotePath) : p.Fills (p.push block) := ⟨[block], rfl⟩

theorem Fills.depth_eq {p q : QuotePath} (h : p.Fills q) : q.depth = p.depth := by
  obtain ⟨blocks, rfl⟩ := h
  rfl

theorem Fills.reach_le {p q : QuotePath} (h : p.Fills q) : p.reach ≤ q.reach := by
  obtain ⟨blocks, rfl⟩ := h
  obtain ⟨inner, _ | ⟨around, outer⟩⟩ := p
  · simp only [reach, reachOf, Block.quoteNestingAll_append]
    omega
  · simp only [reach, reachOf, Block.quoteNestingAll_append]
    omega

end QuotePath

/-! ### What a step does to the path -/

namespace Builder

/-- `Fills b c`: blocks were appended to the innermost quote. -/
structure Fills (b c : Builder) : Prop where
  limits : c.limits = b.limits
  path : b.path.Fills c.path

/-- `Grows b c`: quotes that are open in `b`, or were once, are still in the tree of `c`. -/
structure Grows (b c : Builder) : Prop where
  limits : c.limits = b.limits
  reach : b.path.reach ≤ c.path.reach

theorem Fills.of_path_eq {b c : Builder} (hl : c.limits = b.limits) (hp : c.path = b.path) :
    b.Fills c := ⟨hl, hp ▸ QuotePath.Fills.refl b.path⟩

theorem Fills.trans {b c d : Builder} (h : b.Fills c) (h' : c.Fills d) : b.Fills d :=
  ⟨h'.limits.trans h.limits, h.path.trans h'.path⟩

theorem Fills.grows {b c : Builder} (h : b.Fills c) : b.Grows c := ⟨h.limits, h.path.reach_le⟩

theorem Grows.trans {b c d : Builder} (h : b.Grows c) (h' : c.Grows d) : b.Grows d :=
  ⟨h'.limits.trans h.limits, Nat.le_trans h.reach h'.reach⟩

theorem fills_emit (block : Block) (b : Builder) : b.Fills (b.emit block) :=
  ⟨rfl, QuotePath.fills_push block b.path⟩

theorem andThen_fills {b : Builder} {a : Attempt} {next : Builder → Attempt}
    (h : b.Fills a.builder) (hnext : ∀ c, Fills c (next c).builder) :
    b.Fills (a.andThen next).builder := by
  unfold Attempt.andThen
  cases a.failure with
  | none => exact h.trans (hnext a.builder)
  | some e => exact h

theorem readInline_fills (text : List Char) {next : List Inline → Builder → Builder} (b : Builder)
    (hnext : ∀ nodes c, Fills c (next nodes c)) : b.Fills (b.readInline text next).builder := by
  have hdropped : b.Fills (b.noteDropped (Inline.read b.limits text)) := .of_path_eq rfl rfl
  unfold readInline
  simp only
  split
  · exact hdropped.trans (hnext _ _)
  · exact hdropped

theorem flush_fills (b : Builder) : b.Fills b.flush.builder := by
  have hrest : b.Fills { b with leaf := .none } := .of_path_eq rfl rfl
  have hemit : ∀ (kind : LeafKind) (block : Block) (c : Builder), c.Fills (c.emitLeaf kind block) :=
    fun _ block c => ⟨rfl, QuotePath.fills_push block c.path⟩
  unfold flush
  simp only
  split
  · exact hrest
  · exact hrest.trans (readInline_fills _ _ fun _ c => hemit _ _ c)
  · exact hrest.trans (readInline_fills _ _ fun _ c => hemit _ _ c)
  · exact hrest.trans (hemit _ _ _)

theorem flushAll_fills (b : Builder) : b.Fills b.flushAll.builder :=
  andThen_fills b.flush_fills fun _ => .of_path_eq rfl rfl

theorem openItem_fills (fuel indent : Nat) (marker : Marker) (b : Builder) :
    b.Fills (b.openItem fuel indent marker).builder := by
  induction fuel generalizing indent marker b with
  | zero => exact .of_path_eq rfl rfl
  | succ fuel ih =>
    have hplaced : b.Fills { b with lists := b.lists.place indent marker.width } :=
      .of_path_eq rfl rfl
    rw [openItem_succ rfl]
    split_ifs
    · exact .of_path_eq rfl rfl
    · split
      · exact (hplaced.trans (fills_emit _ _)).trans (ih _ _ _)
      · exact .of_path_eq rfl rfl

theorem takeKind_fills (line : Line) (b : Builder) : b.Fills (b.takeKind line).builder := by
  unfold takeKind
  split
  · exact b.flushAll_fills
  · exact andThen_fills b.flushAll_fills fun _ => .of_path_eq rfl rfl
  · exact andThen_fills b.flushAll_fills fun c => readInline_fills _ c fun _ d => fills_emit _ d
  · exact andThen_fills b.flushAll_fills fun c => fills_emit _ c
  · exact andThen_fills b.flush_fills fun c => openItem_fills _ _ _ c
  · unfold extendText
    split <;> exact .of_path_eq rfl rfl

/-- Quotes are opened and closed as the line tells, when the open leaf is closed. -/
theorem enterQuotes_eq {line : Line} {b : Builder} (hf : (b.enterQuotes line).failure = none) :
    ∃ c, b.Fills c ∧ (b.enterQuotes line).builder =
      { c with path := c.path.setDepth line.quoteDepth } := by
  unfold enterQuotes at hf ⊢
  split_ifs at hf ⊢ with hmax hsame
  · exact absurd hf (by simp [refuse])
  · refine ⟨b, .of_path_eq rfl rfl, ?_⟩
    rw [hsame, QuotePath.setDepth_self]
    rfl
  · obtain ⟨-, he, -⟩ := Attempt.of_andThen hf
    rw [he]
    exact ⟨_, b.flushAll_fills, rfl⟩

theorem takeLine_grows {line : Line} {b : Builder} (hf : (b.takeLine line).failure = none) :
    b.Grows (b.takeLine line).builder ∧
      (b.takeLine line).builder.path.depth = line.quoteDepth := by
  unfold takeLine at hf ⊢
  obtain ⟨hq, he, -⟩ := Attempt.of_andThen hf
  rw [he]
  obtain ⟨c, hc, hset⟩ := enterQuotes_eq hq
  have hfill := takeKind_fills line (b.enterQuotes line).builder
  rw [hset] at hfill ⊢
  refine ⟨⟨hfill.limits.trans hc.limits, ?_⟩, ?_⟩
  · calc b.path.reach ≤ c.path.reach := hc.path.reach_le
      _ ≤ (c.path.setDepth line.quoteDepth).reach := c.path.reach_setDepth_le _
      _ ≤ _ := hfill.path.reach_le
  · rw [hfill.path.depth_eq, QuotePath.depth_setDepth]

/-- The line is read on its own, and not taken by open code. -/
def Reads (line : Line) (b : Builder) : Prop :=
  ∀ kind length indent language lines, b.leaf = .code kind length indent language lines →
    line.quoteDepth < b.path.depth

/-- **One line.** Quotes that are open once are never lost, and a line that is read opens as
many as it has markers. -/
theorem push_grows {line : Line} {b : Builder} (hf : (b.push line).failure = none) :
    b.Grows (b.push line).builder ∧
      (b.Reads line → (b.push line).builder.path.depth = line.quoteDepth) := by
  unfold push at hf ⊢
  split at hf
  · rename_i kind length indent language lines hleaf
    simp only at hf ⊢
    split_ifs at hf ⊢ with hdeep hclose
    · refine ⟨b.flush_fills.grows, fun hreads => ?_⟩
      have hlt := hreads _ _ _ _ _ hleaf
      omega
    · refine ⟨⟨rfl, Nat.le_refl _⟩, fun hreads => ?_⟩
      have hlt := hreads _ _ _ _ _ hleaf
      omega
    · obtain ⟨-, he, hn⟩ := Attempt.of_andThen hf
      obtain ⟨hgrows, hdepth⟩ := takeLine_grows hn
      rw [he]
      exact ⟨b.flush_fills.grows.trans hgrows, fun _ => hdepth⟩
  · obtain ⟨hgrows, hdepth⟩ := takeLine_grows hf
    exact ⟨hgrows, fun _ => hdepth⟩

theorem pushAll_cons (line : Line) (lines : List Line) (b : Builder) :
    b.pushAll (line :: lines) = (b.push line).andThen (pushAll lines) := by
  rw [pushAll]
  cases hf : (b.push line).failure with
  | none =>
    have he : b.push line = ⟨(b.push line).builder, none⟩ := by rw [← hf]
    rw [he]
    rfl
  | some e =>
    have he : b.push line = ⟨(b.push line).builder, some e⟩ := by rw [← hf]
    rw [he]
    rfl

theorem pushAll_append (xs ys : List Line) (b : Builder) :
    b.pushAll (xs ++ ys) = (b.pushAll xs).andThen (pushAll ys) := by
  induction xs generalizing b with
  | nil => rfl
  | cons line xs ih =>
    rw [List.cons_append, pushAll_cons, pushAll_cons]
    unfold Attempt.andThen
    cases hf : (b.push line).failure with
    | none => exact ih _
    | some e => simp only [hf]

/-- **Any lines.** -/
theorem pushAll_grows {lines : List Line} {b : Builder}
    (hf : (b.pushAll lines).failure = none) : b.Grows (b.pushAll lines).builder := by
  induction lines generalizing b with
  | nil => exact ⟨rfl, Nat.le_refl _⟩
  | cons line lines ih =>
    rw [pushAll_cons] at hf ⊢
    obtain ⟨hpush, he, hrest⟩ := Attempt.of_andThen hf
    rw [he]
    exact (push_grows hpush).1.trans (ih hrest)

/-! ### Builders on top of others -/

/-- `b'` is as `b`, with `base` below its path. What happened so far does not matter. -/
structure Over (base : QuotePath) (b b' : Builder) : Prop where
  limits : b'.limits = b.limits
  path : b'.path = base.onto b.path
  lists : b'.lists = b.lists
  leaf : b'.leaf = b.leaf

end Builder

/-- Two steps fail alike, and leave builders of which the second has `base` below. -/
structure Attempt.Over (base : QuotePath) (a a' : Attempt) : Prop where
  builder : a.builder.Over base a'.builder
  failure : a'.failure = a.failure

theorem Attempt.Over.andThen {base : QuotePath} {a a' : Attempt} {next next' : Builder → Attempt}
    (h : a.Over base a')
    (hnext : a.failure = none → (next a.builder).Over base (next' a'.builder)) :
    (a.andThen next).Over base (a'.andThen next') := by
  unfold Attempt.andThen
  rw [h.failure]
  cases hf : a.failure with
  | none => exact hnext hf
  | some e => exact h

namespace Builder

variable {base : QuotePath} {b b' : Builder}

namespace Over

theorem done (h : b.Over base b') : (Attempt.done b).Over base (Attempt.done b') := ⟨h, rfl⟩

theorem emit (h : b.Over base b') (block : Block) : (b.emit block).Over base (b'.emit block) := by
  refine ⟨h.limits, ?_, h.lists, h.leaf⟩
  simp only [Builder.emit, h.path, QuotePath.push_onto]

theorem note (h : b.Over base b') (event event' : Event) :
    (b.note event).Over base (b'.note event') :=
  ⟨h.limits, h.path, h.lists, h.leaf⟩

theorem withLeaf (h : b.Over base b') (leaf : Leaf) :
    Over base { b with leaf } { b' with leaf } :=
  ⟨h.limits, h.path, h.lists, rfl⟩

theorem withLists (h : b.Over base b') (lists : ListStack) :
    Over base { b with lists } { b' with lists } :=
  ⟨h.limits, h.path, rfl, h.leaf⟩

theorem refuse (h : b.Over base b') (event event' : Event) :
    (b.refuse event).Over base (b'.refuse event') := by
  refine ⟨h.note event event', ?_⟩
  simp only [Builder.refuse, h.limits]

theorem readInline (h : b.Over base b') (text : List Char)
    {next : List Inline → Builder → Builder}
    (hnext : ∀ nodes {c c' : Builder}, c.Over base c' → (next nodes c).Over base (next nodes c')) :
    (b.readInline text next).Over base (b'.readInline text next) := by
  have hdropped : (b.noteDropped (Inline.read b.limits text)).Over base
      (b'.noteDropped (Inline.read b.limits text)) := ⟨h.limits, h.path, h.lists, h.leaf⟩
  unfold Builder.readInline
  rw [h.limits]
  simp only
  split
  · exact (hnext _ hdropped).done
  · exact ⟨hdropped, rfl⟩

theorem emitLeaf (h : b.Over base b') (kind : LeafKind) (block : Block) :
    (b.emitLeaf kind block).Over base (b'.emitLeaf kind block) :=
  (h.note _ _).emit block

theorem flush (h : b.Over base b') : b.flush.Over base b'.flush := by
  have hrest := h.withLeaf .none
  unfold Builder.flush
  rw [h.leaf]
  simp only
  split
  · exact hrest.done
  · exact hrest.readInline _ fun nodes _ _ hc => hc.emitLeaf _ _
  · exact hrest.readInline _ fun nodes _ _ hc => hc.emitLeaf _ _
  · exact (hrest.emitLeaf _ _).done

theorem flushAll (h : b.Over base b') : b.flushAll.Over base b'.flushAll :=
  h.flush.andThen fun _ => (h.flush.builder.withLists []).done

theorem openItem (h : b.Over base b') (fuel indent : Nat) (marker : Marker) :
    (b.openItem fuel indent marker).Over base (b'.openItem fuel indent marker) := by
  induction fuel generalizing indent marker b b' with
  | zero => exact h.done
  | succ fuel ih =>
    obtain ⟨limits, path, lists, leaf, events⟩ := b
    obtain ⟨limits', path', lists', leaf', events'⟩ := b'
    obtain rfl : limits' = limits := h.limits
    obtain rfl : lists' = lists := h.lists
    have hplaced := h.withLists (lists'.place indent marker.width)
    rw [openItem_succ rfl, openItem_succ rfl]
    split_ifs
    · exact hplaced.refuse _ _
    · split
      · exact ih (hplaced.emit _) _ _
      · exact (hplaced.withLeaf _).done

theorem extendText (h : b.Over base b') (text : List Char) :
    (b.extendText text).Over base (b'.extendText text) := by
  unfold Builder.extendText
  rw [h.leaf]
  split <;> exact h.withLeaf _

theorem takeKind {line line' : Line} (h : b.Over base b') (hl : line.Deeper base.depth line') :
    (b.takeKind line).Over base (b'.takeKind line') := by
  unfold Builder.takeKind
  rw [hl.kind, hl.indent]
  split
  · exact h.flushAll
  · exact h.flushAll.andThen fun _ => (h.flushAll.builder.withLeaf _).done
  · exact h.flushAll.andThen fun _ =>
      h.flushAll.builder.readInline _ fun nodes _ _ hc => hc.emit _
  · exact h.flushAll.andThen fun _ => (h.flushAll.builder.emit _).done
  · exact h.flush.andThen fun _ => h.flush.builder.openItem _ _ _
  · exact (h.extendText _).done

/-- Quotes are opened and closed above the base, if the limit admits both lines or neither. -/
theorem enterQuotes {line line' : Line} (h : b.Over base b') (hl : line.Deeper base.depth line')
    (hfit : b.limits.maxNesting < line.quoteDepth + base.depth →
      b.limits.maxNesting < line.quoteDepth) :
    (b.enterQuotes line).Over base (b'.enterQuotes line') := by
  have hset : ∀ {c c' : Builder}, c.Over base c' →
      Over base { c with path := c.path.setDepth line.quoteDepth }
        { c' with path := c'.path.setDepth (line.quoteDepth + base.depth) } := by
    intro c c' hc
    refine ⟨hc.limits, ?_, hc.lists, hc.leaf⟩
    rw [hc.path, QuotePath.setDepth_onto]
  have hdepth : b'.path.depth = b.path.depth + base.depth := by
    rw [h.path, QuotePath.depth_onto]
  unfold Builder.enterQuotes
  rw [hl.quoteDepth, h.limits, hdepth]
  by_cases hmax : b.limits.maxNesting < line.quoteDepth
  · rw [if_pos hmax, if_pos (by omega)]
    exact h.refuse _ _
  · rw [if_neg hmax, if_neg fun hlt => hmax (hfit hlt)]
    by_cases hsame : line.quoteDepth = b.path.depth
    · rw [if_pos hsame, if_pos (by omega)]
      exact h.done
    · rw [if_neg hsame, if_neg (by omega)]
      exact h.flushAll.andThen fun _ => (hset h.flushAll.builder).done

theorem takeLine {line line' : Line} (h : b.Over base b') (hl : line.Deeper base.depth line')
    (hfit : b.limits.maxNesting < line.quoteDepth + base.depth →
      b.limits.maxNesting < line.quoteDepth) :
    (b.takeLine line).Over base (b'.takeLine line') :=
  (h.enterQuotes hl hfit).andThen fun _ => (h.enterQuotes hl hfit).builder.takeKind hl

end Over

/-- **One line above a base.** A line with the markers of the base in front is taken like the
line without them, unless it is read and only the base makes it too deep. -/
theorem push_over {line line' : Line} (h : b.Over base b') (hl : line.Deeper base.depth line')
    (hfit : b.Reads line → b.limits.maxNesting < line.quoteDepth + base.depth →
      b.limits.maxNesting < line.quoteDepth) :
    (b.push line).Over base (b'.push line') := by
  have hdepth : b'.path.depth = b.path.depth + base.depth := by
    rw [h.path, QuotePath.depth_onto]
  unfold push
  rw [h.leaf]
  split
  · rename_i kind length indent language lines hleaf
    simp only
    rw [hl.quoteDepth, hdepth]
    by_cases hdeep : b.path.depth ≤ line.quoteDepth
    · -- code takes the line, and sees the same of it
      have hcontent : b'.unquote line' = b.unquote line := by
        unfold unquote
        rw [hdepth, hl.rest]
      have hdeep' : b.path.depth + base.depth ≤ line.quoteDepth + base.depth := by omega
      rw [if_pos hdeep, if_pos hdeep', hcontent]
      by_cases hclose : closesCode kind length (b.unquote line) = true
      · rw [if_pos hclose, if_pos hclose]
        exact h.flush
      · rw [if_neg hclose, if_neg hclose]
        exact (h.withLeaf _).done
    · have hdeep' : ¬ b.path.depth + base.depth ≤ line.quoteDepth + base.depth := by omega
      rw [if_neg hdeep, if_neg hdeep']
      have hreads : b.Reads line := fun _ _ _ _ _ _ => by omega
      refine h.flush.andThen fun _ => h.flush.builder.takeLine hl ?_
      rw [b.flush_fills.limits]
      exact hfit hreads
  · rename_i hno
    refine h.takeLine hl (hfit ?_)
    intro kind length indent language lines hleaf
    exact absurd hleaf (hno kind length indent language lines)

/-- **Any lines above a base.** Lines with the markers of the base in front are taken like
the lines without them, if the base opens no quote, or if the run without it ends well and
leaves room for its quotes. -/
theorem pushAll_over {lines lines' : List Line} (h : b.Over base b')
    (hl : List.Forall₂ (Line.Deeper base.depth) lines lines')
    (hfit : base.depth = 0 ∨ (b.pushAll lines).failure = none ∧
      (b.pushAll lines).builder.path.reach + base.depth ≤ b.limits.maxNesting) :
    (b.pushAll lines).Over base (b'.pushAll lines') := by
  induction hl generalizing b b' with
  | nil => exact h.done
  | @cons line line' lines lines' hline _ ih =>
    rw [pushAll_cons] at hfit ⊢
    rw [pushAll_cons]
    have hpush : (b.push line).Over base (b'.push line') := by
      refine push_over h hline fun hreads hmax => ?_
      rcases hfit with hbase | ⟨hf, hroom⟩
      · omega
      · -- the line is as deep as the path behind it, which leaves room
        obtain ⟨hone, he, hrest⟩ := Attempt.of_andThen hf
        rw [he] at hroom
        have hline := (push_grows hone).2 hreads
        have hdepth := (b.push line).builder.path.depth_le_reach
        have hreach := (pushAll_grows hrest).reach
        omega
    refine hpush.andThen fun hone => ih hpush.builder ?_
    rcases hfit with hbase | ⟨hf, hroom⟩
    · exact .inl hbase
    · obtain ⟨-, he, hrest⟩ := Attempt.of_andThen hf
      rw [he] at hroom
      rw [(push_grows hone).1.limits]
      exact .inr ⟨hrest, hroom⟩

end Builder
end MarkdownHtml
