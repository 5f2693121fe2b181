/-
# Runs of items among other blocks

What is written for a run of items does not depend on where the run stands, as long as the
blocks next to it are no items (`chunk_among`). The writer looks back at its output at one
point only: before a list inside an item it asks whether a line has ended. By then its own
output answers (`Anchored`), so each of its steps does the same behind any other output
(`Framed`), and blocks add the same to any output (`chunk_eq_append`). Blocks that are no items
close all lists before and leave none open.

Key definitions: `Block.isItem`, `Anchored`, `Writer.Framed`.
Key theorems: `framed_block`, `chunk_eq_append`, `chunk_append`, `chunk_among`.
-/
import MarkdownHtml.Proofs.ListMarks

namespace MarkdownHtml

/-- Whether the block is an item of a list. -/
def Block.isItem : Block → Bool
  | .item .. => true
  | _ => false

namespace Render

open Html

/-! ### Steps behind other output -/

/-- Whether the output ends a line does not depend on what is before it. -/
def Anchored (out : List Piece) : Prop := ∀ base, endsLine (out ++ base) = endsLine out

theorem Anchored.cons {out : List Piece} (h : Anchored out) (p : Piece) : Anchored (p :: out) := by
  intro base
  cases p with
  | text s =>
    simp only [List.cons_append, endsLine]
    split
    · rfl
    · exact h base
  | start tag attributes => rfl
  | stop tag => rfl
  | void tag attributes => rfl
  | lineFeed => rfl

theorem Anchored.append {out : List Piece} (h : Anchored out) (new : List Piece) :
    Anchored (new ++ out) := by
  induction new with
  | nil => exact h
  | cons p new ih => exact ih.cons p

namespace Writer

/-- The writer behind other output. -/
def onto (base : List Piece) (w : Writer) : Writer := ⟨w.out ++ base, w.lists⟩

/-- With a list open, the writer does not see what was before its own output. -/
def Settled (w : Writer) : Prop := w.lists ≠ [] → Anchored w.out

/-- A step of the writer that does the same behind other output. -/
structure Framed (f : Writer → Writer) : Prop where
  settled : ∀ w : Writer, w.Settled → (f w).Settled
  onto : ∀ w : Writer, w.Settled → ∀ base, f (w.onto base) = (f w).onto base

namespace Framed

theorem comp {f g : Writer → Writer} (hg : Framed g) (hf : Framed f) :
    Framed fun w => g (f w) where
  settled w hw := hg.settled (f w) (hf.settled w hw)
  onto w hw base := by rw [hf.onto w hw, hg.onto (f w) (hf.settled w hw)]

/-- More output. -/
theorem write (new : List Piece) : Framed fun w => { w with out := new ++ w.out } where
  settled w hw hlists := (hw hlists).append new
  onto w _ base := by
    show (⟨new ++ (w.out ++ base), w.lists⟩ : Writer) = ⟨new ++ w.out ++ base, w.lists⟩
    rw [List.append_assoc]

theorem closeMany (n : Nat) : Framed (Writer.closeMany n) := by
  induction n with
  | zero =>
    have hid : Writer.closeMany 0 = id := by
      funext w
      rw [Writer.closeMany]
      · rfl
      · simp
    rw [hid]
    exact ⟨fun _ hw => hw, fun _ _ _ => rfl⟩
  | succ n ih =>
    constructor
    · rintro ⟨out, _ | ⟨list, lists⟩⟩ hw
      · exact hw
      · rw [Writer.closeMany]
        exact ih.settled _ fun _ => (hw (by simp)).append
          [.lineFeed, .stop (listTag list), .lineFeed, .stop .item]
    · rintro ⟨out, _ | ⟨list, lists⟩⟩ hw base
      · rfl
      · have hclosed : Settled
            ⟨.lineFeed :: .stop (listTag list) :: .lineFeed :: .stop .item :: out, lists⟩ :=
          fun _ => (hw (by simp)).append [.lineFeed, .stop (listTag list), .lineFeed, .stop .item]
        rw [Writer.closeMany, ← ih.onto _ hclosed]
        rfl

/-- A choice that depends on the open lists only. -/
theorem pick {f : List ListKind → Writer → Writer} (h : ∀ lists, Framed (f lists)) :
    Framed fun w => f w.lists w where
  settled w := (h w.lists).settled w
  onto w := (h w.lists).onto w

theorem closeTo (keep : Nat) : Framed (Writer.closeTo keep) :=
  pick fun lists => closeMany (lists.length - keep)

/-- The only step that looks back, and only if a list is open. -/
theorem openList (list : ListKind) : Framed (Writer.openList list) where
  settled _ _ _ := fun _ => rfl
  onto w hw base := by
    obtain ⟨out, _ | ⟨current, lists⟩⟩ := w
    · rfl
    · have hline : endsLine (out ++ base) = endsLine out := hw (by simp) base
      simp only [Writer.openList, Writer.onto, hline]
      split_ifs
      · rfl
      · rfl

theorem openMany (list : ListKind) (n : Nat) : Framed (Writer.openMany list n) := by
  induction n using Nat.strongRecOn with
  | ind n ih =>
    match n with
    | 0 => exact ⟨fun _ hw => hw, fun _ _ _ => rfl⟩
    | 1 => exact openList list
    | n + 2 =>
      exact (ih (n + 1) (by omega)).comp ((write [.start .item []]).comp (openList list))

theorem nextItem (list : ListKind) (depth : Nat) : Framed (Writer.nextItem list depth) := by
  have hend : Framed fun w => { w with out := .lineFeed :: .stop .item :: w.out } :=
    write [.lineFeed, .stop .item]
  have hother : Framed fun w => (w.closeTo depth).openList list :=
    (openList list).comp (closeTo depth)
  constructor
  · rintro ⟨out, _ | ⟨current, lists⟩⟩ hw
    · exact hw
    · simp only [Writer.nextItem]
      split_ifs
      · exact hend.settled _ hw
      · exact hother.settled _ hw
  · rintro ⟨out, _ | ⟨current, lists⟩⟩ hw base
    · rfl
    · simp only [Writer.nextItem, Writer.onto]
      split_ifs
      · exact hend.onto _ hw base
      · exact hother.onto _ hw base

theorem openItem (list : ListKind) (depth : Nat) : Framed (Writer.openItem list depth) := by
  have hchoice : ∀ lists : List ListKind, Framed fun w =>
      if lists.length = depth + 1 then w.nextItem list depth
      else w.openMany list (depth + 1 - lists.length) := by
    intro lists
    split_ifs
    · exact nextItem list depth
    · exact openMany list _
  exact (write [.start .item []]).comp ((pick hchoice).comp (closeTo (depth + 1)))

end Framed

theorem closeTo_of_nil {w : Writer} (h : w.lists = []) (keep : Nat) : w.closeTo keep = w := by
  rw [closeTo, h, List.length_nil, Nat.zero_sub, closeMany]
  simp

end Writer

open Writer

/-! ### Blocks -/

/-- Blocks that are written the same behind other output add the same to any output. -/
theorem Writer.Framed.chunk_eq {options : RenderOptions} {doc : Document}
    (h : Framed fun w => blocks options w doc) (base : List Piece) :
    chunk options base doc = chunk options [] doc ++ base := by
  have hempty : (⟨[], []⟩ : Writer).Settled := fun h => absurd rfl h
  exact congrArg Writer.out (h.onto ⟨[], []⟩ hempty base)

/-- Output behind all lists. -/
theorem framed_closed (new : List Piece) :
    Framed fun w => { w.closeTo 0 with out := new ++ (w.closeTo 0).out } :=
  (Framed.write new).comp (Framed.closeTo 0)

mutual

/-- A block is written the same behind other output. -/
theorem framed_block (options : RenderOptions) :
    ∀ b : Block, Framed fun w => block options w b
  | .item list depth content => by
    have hblock : (fun w => block options w (.item list depth content)) = fun w =>
        { w.openItem list depth with
          out := nodes options [] content ++ (w.openItem list depth).out } := by
      funext w
      rw [block]
      simp only
      rw [nodes_append]
    rw [hblock]
    exact (Framed.write _).comp (Framed.openItem list depth)
  | .paragraph content => by
    have hclosed := framed_closed
      (.lineFeed :: .stop .paragraph :: (nodes options [] content ++ [.start .paragraph []]))
    simpa only [block, nodes_append options content (_ :: _), List.cons_append, List.append_assoc,
      List.nil_append] using hclosed
  | .heading level content => by
    have hclosed := framed_closed (.lineFeed :: .stop (.heading level) ::
      (nodes options [] content ++ [.start (.heading level) []]))
    simpa only [block, nodes_append options content (_ :: _), List.cons_append, List.append_assoc,
      List.nil_append] using hclosed
  | .code language raw =>
    framed_closed [.lineFeed, .stop .preformatted, .stop .code, .text raw,
      .start .code (languageAttributes options language), .start .preformatted []]
  | .quote inner => by
    -- inside the quote no list is open, and the blocks there add the same to any output
    have hinner : ∀ out, (blocks options ⟨out, []⟩ inner).out = chunk options [] inner ++ out :=
      (framed_blocks options inner).chunk_eq
    have hclosed := framed_closed
      (.lineFeed :: .stop .quote :: (chunk options [] inner ++ [.lineFeed, .start .quote []]))
    simpa only [block, hinner, List.cons_append, List.append_assoc, List.nil_append] using hclosed
  | .rule => framed_closed [.lineFeed, .void .rule []]

/-- Blocks are written the same behind other output. -/
theorem framed_blocks (options : RenderOptions) :
    ∀ doc : Document, Framed fun w => blocks options w doc
  | [] => Framed.closeTo 0
  | b :: doc => (framed_blocks options doc).comp (framed_block options b)

end

/-- **Blocks add the same to any output.** -/
theorem chunk_eq_append (options : RenderOptions) (base : List Piece) (doc : Document) :
    chunk options base doc = chunk options [] doc ++ base :=
  (framed_blocks options doc).chunk_eq base

/-- Behind a block that is no item, no list is open. -/
theorem lists_block {b : Block} (hb : b.isItem = false) (options : RenderOptions) (w : Writer) :
    (block options w b).lists = [] := by
  cases b with
  | item list depth content => exact absurd hb (by simp [Block.isItem])
  | _ => exact lists_closeTo_zero w

/-- A block that is no item closes all lists itself. -/
theorem block_closeTo {b : Block} (hb : b.isItem = false) (options : RenderOptions)
    (w : Writer) : block options (w.closeTo 0) b = block options w b := by
  have htwice : (w.closeTo 0).closeTo 0 = w.closeTo 0 := closeTo_of_nil (lists_closeTo_zero w) 0
  cases b with
  | item list depth content => exact absurd hb (by simp [Block.isItem])
  | _ => simp only [block, htwice]

theorem blocks_append (options : RenderOptions) (front back : Document) (w : Writer) :
    blocks options w (front ++ back) = blocks options (front.foldl (block options) w) back := by
  induction front generalizing w with
  | nil => rfl
  | cons b front ih =>
    rw [List.cons_append, blocks, ih]
    rfl

/-- Blocks one behind the other, where no list goes on from the first to the others. -/
theorem chunk_append (options : RenderOptions) (out : List Piece) {front back : Document}
    (h : (∀ b ∈ front.getLast?, b.isItem = false) ∨ (∀ b ∈ back.head?, b.isItem = false)) :
    chunk options out (front ++ back) = chunk options (chunk options out front) back := by
  have hfront : blocks options ⟨out, []⟩ front =
      (front.foldl (block options) ⟨out, []⟩).closeTo 0 := by
    have happend := blocks_append options front [] ⟨out, []⟩
    rwa [List.append_nil, blocks] at happend
  have hclosed : (⟨chunk options out front, []⟩ : Writer) =
      (front.foldl (block options) ⟨out, []⟩).closeTo 0 := by
    have hnil := lists_closeTo_zero (front.foldl (block options) ⟨out, []⟩)
    rw [chunk, hfront]
    generalize closeTo 0 (front.foldl (block options) ⟨out, []⟩) = v at hnil
    obtain ⟨written, lists⟩ := v
    obtain rfl : lists = [] := hnil
    rfl
  rw [chunk, chunk, hclosed, blocks_append]
  rcases h with hlast | hhead
  · -- the first ones have closed their lists
    rw [closeTo_of_nil]
    rcases List.eq_nil_or_concat front with rfl | ⟨front, b, rfl⟩
    · rfl
    · rw [List.concat_eq_append, List.foldl_append]
      exact lists_block (hlast b (by simp)) options _
  · cases back with
    | nil => rw [blocks, blocks, closeTo_of_nil (lists_closeTo_zero _)]
    | cons b back => rw [blocks, blocks, block_closeTo (hhead b rfl)]

/-- **A run of items is written the same wherever it stands**, if the blocks next to it are no
items. -/
theorem chunk_among (options : RenderOptions) (items : List ListItem) (out : List Piece)
    {before after : Document} (hbefore : ∀ b ∈ before.getLast?, b.isItem = false)
    (hafter : ∀ b ∈ after.head?, b.isItem = false) :
    chunk options out (before ++ items.map ListItem.block ++ after) =
      chunk options (chunk options [] (items.map ListItem.block) ++ chunk options out before)
        after := by
  rw [chunk_append options out (.inr hafter), chunk_append options out (.inl hbefore),
    chunk_eq_append options (chunk options out before)]

end Render

end MarkdownHtml
