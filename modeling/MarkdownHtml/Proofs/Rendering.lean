/-
# Rendered documents are well-formed

Whatever the document, its HTML scans without error, every tag it opens is closed in
turn, names and attributes are the writer's own, and no text of the document can be
taken for markup (`Document.markup_toHtml`). The tags do not depend on the texts at
all: they are those of the document with every string emptied (`Document.blank`).

The writer puts tags out one by one and keeps the lists that are open. The tags that are
open in its output (`Opens`) are an item and a list for every level it keeps, and below
them what was open before (`Writer.Itemed`); between the start of a list and that of its
item they are one item less (`Writer.Listed`).

Key definitions: `Opens`, `Writer.Itemed`, `Writer.Listed`, `Document.blank`,
`Document.strings`, `Html.Piece.said`.
Key theorems: `opens_node`, `Writer.Itemed.openItem`, `itemed_block`, `outline_block`,
`spoken_block`, `Document.markup_toHtml`.
-/
import MarkdownHtml.Html.Render
import MarkdownHtml.Proofs.Markup

namespace MarkdownHtml
namespace Html

/-! ### Open tags -/

/-- Whether the element has no content. -/
def Tag.isVoid : Tag → Bool
  | .rule | .lineBreak | .image => true
  | _ => false

/-- `Opens out tags`: output, newest piece first, closes no tag but the innermost one, and
leaves `tags` open, innermost first. -/
inductive Opens : List Piece → List Tag → Prop
  | nil : Opens [] []
  | start {out : List Piece} {tags : List Tag} {tag : Tag} {attributes : List Attribute} :
      Opens out tags → tag.isVoid = false → Opens (.start tag attributes :: out) (tag :: tags)
  | stop {out : List Piece} {tags : List Tag} {tag : Tag} :
      Opens out (tag :: tags) → Opens (.stop tag :: out) tags
  | void {out : List Piece} {tags : List Tag} {tag : Tag} {attributes : List Attribute} :
      Opens out tags → tag.isVoid = true → Opens (.void tag attributes :: out) tags
  | text {out : List Piece} {tags : List Tag} {s : String} :
      Opens out tags → Opens (.text s :: out) tags
  | lineFeed {out : List Piece} {tags : List Tag} :
      Opens out tags → Opens (.lineFeed :: out) tags

/-- Open tags are tags of elements with content. -/
theorem Opens.isVoid {out : List Piece} {tags : List Tag} (h : Opens out tags) :
    ∀ t ∈ tags, t.isVoid = false := by
  induction h with
  | nil => simp
  | start _ hv ih =>
    intro t ht
    rcases List.mem_cons.mp ht with rfl | ht
    · exact hv
    · exact ih t ht
  | stop _ ih => exact fun t ht => ih t (List.mem_cons_of_mem _ ht)
  | void _ _ ih => exact ih
  | text _ ih => exact ih
  | lineFeed _ ih => exact ih

theorem known_paired {tag : Tag} (h : tag.isVoid = false) :
    ((Markup.pairedNames.map String.toList).contains tag.name.toList ||
      Markup.isHeadingName tag.name.toList) = true := by
  cases tag with
  | heading level =>
    have hname : (Tag.heading level).name.toList = 'h' :: (toString level).toList := by
      simp [Tag.name]
    rw [hname, Bool.or_eq_true]
    right
    simp only [Markup.isHeadingName, Bool.and_eq_true, List.all_eq_true]
    exact ⟨by simp, isDigit_of_mem_toString⟩
  | rule | lineBreak | image => exact absurd h (by simp [Tag.isVoid])
  | _ => decide

theorem known_void {tag : Tag} (h : tag.isVoid = true) :
    (Markup.voidNames.map String.toList).contains tag.name.toList = true := by
  cases tag with
  | rule | lineBreak | image => decide
  | _ => exact absurd h (by simp [Tag.isVoid])

/-- The marks of output, oldest first. -/
def marksOf (out : List Piece) : List Markup.Mark := out.reverse.flatMap Piece.marks

theorem marksOf_cons (p : Piece) (out : List Piece) :
    marksOf (p :: out) = marksOf out ++ p.marks := by
  simp [marksOf]

/-- Open tags are what a scan of the output finds open. -/
theorem Opens.openAfter {out : List Piece} {tags : List Tag} (h : Opens out tags) :
    Markup.openAfter [] (marksOf out) = some (tags.map fun t => t.name.toList) := by
  induction h with
  | nil => rfl
  | start _ _ ih | void _ _ ih | lineFeed _ ih =>
    rw [marksOf_cons, Markup.openAfter_append, ih]
    rfl
  | stop _ ih =>
    rw [marksOf_cons, Markup.openAfter_append, ih]
    simp [Piece.marks, Markup.openAfter]
  | text _ ih =>
    rw [marksOf_cons, Markup.openAfter_append, ih]
    exact Markup.openAfter_chars _ _

/-- A scan of the output finds known names only. -/
theorem Opens.known {out : List Piece} {tags : List Tag} (h : Opens out tags) :
    ∀ m ∈ marksOf out, m.known = true := by
  have happend : ∀ {p : Piece} {out : List Piece}, (∀ m ∈ marksOf out, m.known = true) →
      (∀ m ∈ p.marks, m.known = true) → ∀ m ∈ marksOf (p :: out), m.known = true := by
    intro p out hout hp m hm
    rw [marksOf_cons] at hm
    rcases List.mem_append.mp hm with hm | hm
    · exact hout m hm
    · exact hp m hm
  induction h with
  | nil => simp [marksOf]
  | start _ hv ih => exact happend ih fun m hm => List.mem_singleton.mp hm ▸ known_paired hv
  | stop h ih =>
    have hv := h.isVoid _ List.mem_cons_self
    exact happend ih fun m hm => List.mem_singleton.mp hm ▸ known_paired hv
  | void _ hv ih => exact happend ih fun m hm => List.mem_singleton.mp hm ▸ known_void hv
  | text _ ih =>
    refine happend ih fun m hm => ?_
    obtain ⟨c, -, rfl⟩ := List.mem_map.mp hm
    rfl
  | lineFeed _ ih => exact happend ih fun m hm => List.mem_singleton.mp hm ▸ rfl

end Html

namespace Render

open Html

/-! ### The tags of nodes and lists -/

mutual

/-- A node leaves open what was open before it. -/
theorem opens_node (options : RenderOptions) {tags : List Tag} :
    ∀ (n : Inline) {out : List Piece}, Opens out tags → Opens (node options out n) tags
  | .text _, _, h => h.text
  | .emphasis children, _, h => (opens_nodes options children (h.start rfl)).stop
  | .strong children, _, h => (opens_nodes options children (h.start rfl)).stop
  | .code _, _, h => (h.start rfl).text.stop
  | .link _ _ children, _, h => (opens_nodes options children (h.start rfl)).stop
  | .image .., _, h => h.void rfl
  | .lineBreak, _, h => (h.void rfl).lineFeed

theorem opens_nodes (options : RenderOptions) {tags : List Tag} :
    ∀ (ns : List Inline) {out : List Piece}, Opens out tags → Opens (nodes options out ns) tags
  | [], _, h => h
  | n :: ns, _, h => opens_nodes options ns (opens_node options n h)

end

theorem isVoid_listTag (list : ListKind) : (listTag list).isVoid = false := by
  cases list <;> rfl

namespace Writer

/-- The tags that levels of lists keep open, each with an item. -/
def levelTags (lists : List ListKind) : List Tag := lists.flatMap fun l => [.item, listTag l]

/-- Every level that the writer keeps has its list and an item open, above `base`. -/
def Itemed (base : List Tag) (w : Writer) : Prop := Opens w.out (levelTags w.lists ++ base)

/-- The innermost level has its list open but no item yet. -/
def Listed (base : List Tag) (w : Writer) : Prop :=
  ∃ list lists, w.lists = list :: lists ∧
    Opens w.out (listTag list :: (levelTags lists ++ base))

theorem lists_closeMany (n : Nat) (w : Writer) : (w.closeMany n).lists = w.lists.drop n := by
  induction n generalizing w with
  | zero =>
    rw [closeMany]
    · rfl
    · simp
  | succ n ih =>
    obtain ⟨out, _ | ⟨list, lists⟩⟩ := w
    · rfl
    · exact ih _

theorem length_lists_closeTo (keep : Nat) (w : Writer) :
    (w.closeTo keep).lists.length = min keep w.lists.length := by
  rw [closeTo, lists_closeMany, List.length_drop]
  omega

theorem lists_closeTo_zero (w : Writer) : (w.closeTo 0).lists = [] := by
  rw [← List.length_eq_zero_iff, length_lists_closeTo]
  omega

namespace Itemed

variable {base : List Tag} {w : Writer}

theorem closeMany (h : w.Itemed base) (n : Nat) : (w.closeMany n).Itemed base := by
  induction n generalizing w with
  | zero =>
    rw [Writer.closeMany]
    · exact h
    · simp
  | succ n ih =>
    obtain ⟨out, _ | ⟨list, lists⟩⟩ := w
    · exact h
    · have hopen : Opens out (.item :: listTag list :: (levelTags lists ++ base)) := h
      have hclosed : Itemed base
          ⟨.lineFeed :: .stop (listTag list) :: .lineFeed :: .stop .item :: out, lists⟩ :=
        hopen.stop.lineFeed.stop.lineFeed
      exact ih hclosed

theorem closeTo (h : w.Itemed base) (keep : Nat) : (w.closeTo keep).Itemed base :=
  h.closeMany _

theorem openList (h : w.Itemed base) (list : ListKind) : (w.openList list).Listed base := by
  have hout : Opens (if !w.lists.isEmpty && !endsLine w.out then .lineFeed :: w.out else w.out)
      (levelTags w.lists ++ base) := by
    split_ifs
    · exact h.lineFeed
    · exact h
  exact ⟨list, w.lists, rfl, (hout.start (isVoid_listTag list)).lineFeed⟩

end Itemed

/-- The item of the innermost level starts. -/
theorem Listed.startItem {base : List Tag} {w : Writer} (h : w.Listed base) :
    Itemed base { w with out := .start .item [] :: w.out } := by
  obtain ⟨list, lists, hl, ho⟩ := h
  have hitem : Opens (.start .item [] :: w.out)
      (.item :: listTag list :: (levelTags lists ++ base)) := ho.start rfl
  unfold Itemed
  simp only [hl]
  exact hitem

theorem Itemed.openMany {base : List Tag} {w : Writer} (h : w.Itemed base) (list : ListKind)
    (n : Nat) : (w.openMany list (n + 1)).Listed base := by
  induction n generalizing w with
  | zero => exact h.openList list
  | succ n ih => exact ih (h.openList list).startItem

theorem Itemed.nextItem {base : List Tag} {w : Writer} (h : w.Itemed base) (list : ListKind)
    (depth : Nat) (hn : w.lists ≠ []) : (w.nextItem list depth).Listed base := by
  obtain ⟨out, _ | ⟨current, lists⟩⟩ := w
  · exact absurd rfl hn
  · simp only [Writer.nextItem]
    split_ifs
    · have hopen : Opens out (.item :: listTag current :: (levelTags lists ++ base)) := h
      exact ⟨current, lists, rfl, hopen.stop.lineFeed⟩
    · exact (h.closeTo depth).openList list

theorem Itemed.openItem {base : List Tag} {w : Writer} (h : w.Itemed base) (list : ListKind)
    (depth : Nat) : (w.openItem list depth).Itemed base := by
  have hclosed := h.closeTo (depth + 1)
  have hlen := length_lists_closeTo (depth + 1) w
  unfold Writer.openItem
  generalize w.closeTo (depth + 1) = v at hclosed hlen
  simp only
  split_ifs with heq
  · refine (hclosed.nextItem list depth ?_).startItem
    intro hnil
    simp [hnil] at heq
  · -- fewer levels are open than the item needs
    obtain ⟨n, hn⟩ : ∃ n, depth + 1 - v.lists.length = n + 1 :=
      ⟨depth - v.lists.length, by omega⟩
    rw [hn]
    exact (hclosed.openMany list n).startItem

end Writer

/-! ### The tags of blocks -/

open Writer

/-- A block that closes all lists and then writes. -/
theorem itemed_closed {base : List Tag} {w : Writer} {out : List Piece} (h : Opens out base) :
    Itemed base ⟨out, (w.closeTo 0).lists⟩ := by
  unfold Itemed
  simp only [lists_closeTo_zero]
  exact h

theorem opens_closeTo {base : List Tag} {w : Writer} (h : w.Itemed base) :
    Opens (w.closeTo 0).out base := by
  have hclosed := h.closeTo 0
  unfold Itemed at hclosed
  rwa [lists_closeTo_zero] at hclosed

mutual

/-- Every block leaves the levels that it keeps open, and nothing else. -/
theorem itemed_block (options : RenderOptions) {base : List Tag} :
    ∀ (b : Block) {w : Writer}, w.Itemed base → (block options w b).Itemed base
  | .item list depth content, _, h => opens_nodes options content (h.openItem list depth)
  | .paragraph content, w, h => by
    have hstart : Opens (.start .paragraph [] :: (w.closeTo 0).out) (.paragraph :: base) :=
      (opens_closeTo h).start rfl
    have hcontent := opens_nodes options content hstart
    exact itemed_closed hcontent.stop.lineFeed
  | .heading level content, w, h => by
    have hstart : Opens (.start (.heading level) [] :: (w.closeTo 0).out)
        (.heading level :: base) :=
      (opens_closeTo h).start rfl
    have hcontent := opens_nodes options content hstart
    exact itemed_closed hcontent.stop.lineFeed
  | .code _ _, w, h => by
    have hstart : Opens (.start .preformatted [] :: (w.closeTo 0).out) (.preformatted :: base) :=
      (opens_closeTo h).start rfl
    exact itemed_closed (hstart.start rfl).text.stop.stop.lineFeed
  | .quote inner, w, h => by
    have hstart : Opens (.start .quote [] :: (w.closeTo 0).out) (.quote :: base) :=
      (opens_closeTo h).start rfl
    have hinner : Itemed (.quote :: base)
        ⟨.lineFeed :: .start .quote [] :: (w.closeTo 0).out, []⟩ := hstart.lineFeed
    have hblocks := opens_blocks options inner hinner
    exact itemed_closed hblocks.stop.lineFeed
  | .rule, _, h => itemed_closed ((opens_closeTo h).void rfl).lineFeed

/-- Blocks leave nothing open that was not open before them. -/
theorem opens_blocks (options : RenderOptions) {base : List Tag} :
    ∀ (bs : List Block) {w : Writer}, w.Itemed base → Opens (blocks options w bs).out base
  | [], _, h => opens_closeTo h
  | b :: bs, _, h => opens_blocks options bs (itemed_block options b h)

end

end Render

/-! ### Documents without their strings -/

namespace Inline

mutual

/-- The node with every string emptied. -/
def blank : Inline → Inline
  | .text _ => .text ""
  | .emphasis children => .emphasis (blankAll children)
  | .strong children => .strong (blankAll children)
  | .code _ => .code ""
  | .link _ title children => .link "" (title.map fun _ => "") (blankAll children)
  | .image _ _ title => .image "" "" (title.map fun _ => "")
  | .lineBreak => .lineBreak

/-- The nodes with every string emptied. -/
def blankAll : List Inline → List Inline
  | [] => []
  | n :: ns => blank n :: blankAll ns

end

end Inline

namespace Block

mutual

/-- The block with every string emptied. -/
def blank : Block → Block
  | .paragraph content => .paragraph (Inline.blankAll content)
  | .heading level content => .heading level (Inline.blankAll content)
  | .item list depth content => .item list depth (Inline.blankAll content)
  | .code language _ => .code (language.map fun _ => "") ""
  | .quote blocks => .quote (blankAll blocks)
  | .rule => .rule

/-- The blocks with every string emptied. -/
def blankAll : List Block → List Block
  | [] => []
  | b :: bs => blank b :: blankAll bs

end

end Block

/-- The document with every string emptied: what is left is the shape of the tree, with the
levels, the kinds and depths of items, and whether there is a language or a title. -/
def Document.blank (doc : Document) : Document := Block.blankAll doc

namespace Html

/-- The tags of output in order, with the names of their attributes. -/
def outlineOf (out : List Piece) : List Markup.Mark := Markup.skeleton (marksOf out)

theorem outlineOf_cons (p : Piece) (out : List Piece) :
    outlineOf (p :: out) = outlineOf out ++ Markup.skeleton p.marks := by
  simp [outlineOf, marksOf_cons, Markup.skeleton]

/-- Characters leave no trace in an outline. -/
theorem outlineOf_text (s : String) (out : List Piece) :
    outlineOf (.text s :: out) = outlineOf out := by
  have hchars : Markup.skeleton (Piece.marks (.text s)) = [] := by
    refine List.filterMap_eq_nil_iff.mpr fun m hm => ?_
    obtain ⟨c, -, rfl⟩ := List.mem_map.mp hm
    rfl
  rw [outlineOf_cons, hchars, List.append_nil]

theorem outlineOf_lineFeed (out : List Piece) : outlineOf (.lineFeed :: out) = outlineOf out := by
  rw [outlineOf_cons]
  exact List.append_nil _

/-- The names of attributes. -/
def attributeNames (attributes : List Attribute) : List AttributeName :=
  attributes.map Attribute.name

/-- Two outputs have the same tags with the same attribute names. -/
def SameOutline (out out' : List Piece) : Prop := outlineOf out = outlineOf out'

namespace SameOutline

variable {out out' : List Piece} {as as' : List Attribute}

theorem text (h : SameOutline out out') (s s' : String) :
    SameOutline (.text s :: out) (.text s' :: out') := by
  unfold SameOutline
  rw [outlineOf_text, outlineOf_text]
  exact h

theorem lineFeed (h : SameOutline out out') :
    SameOutline (.lineFeed :: out) (.lineFeed :: out') := by
  unfold SameOutline
  rw [outlineOf_lineFeed, outlineOf_lineFeed]
  exact h

theorem stop (h : SameOutline out out') (tag : Tag) :
    SameOutline (.stop tag :: out) (.stop tag :: out') := by
  unfold SameOutline
  rw [outlineOf_cons, outlineOf_cons, h]

/-- Attributes with the same names leave the same in an outline, whatever their values. -/
theorem map_mark (ha : attributeNames as = attributeNames as') :
    (as.map Attribute.mark).map (fun a => (a.1, ([] : List Char))) =
      (as'.map Attribute.mark).map (fun a => (a.1, ([] : List Char))) := by
  have hnames : ∀ bs : List Attribute,
      (bs.map Attribute.mark).map (fun a => (a.1, ([] : List Char))) =
        (attributeNames bs).map fun n => (n.text.toList, []) := by
    intro bs
    simp [attributeNames, Attribute.mark]
  rw [hnames, hnames, ha]

theorem start (h : SameOutline out out') (tag : Tag)
    (ha : attributeNames as = attributeNames as') :
    SameOutline (.start tag as :: out) (.start tag as' :: out') := by
  unfold SameOutline
  rw [outlineOf_cons, outlineOf_cons, h]
  simp only [Markup.skeleton, Piece.marks, List.filterMap_cons, Markup.Mark.outline, map_mark ha]

theorem void (h : SameOutline out out') (tag : Tag)
    (ha : attributeNames as = attributeNames as') :
    SameOutline (.void tag as :: out) (.void tag as' :: out') := by
  unfold SameOutline
  rw [outlineOf_cons, outlineOf_cons, h]
  simp only [Markup.skeleton, Piece.marks, List.filterMap_cons, Markup.Mark.outline, map_mark ha]

end SameOutline
end Html

namespace Render

open Html

theorem attributeNames_title (title : Option String) :
    attributeNames (titleAttribute title) =
      attributeNames (titleAttribute (title.map fun _ => "")) := by
  cases title <;> rfl

theorem attributeNames_language (options options' : RenderOptions) (language : Option String) :
    attributeNames (languageAttributes options language) =
      attributeNames (languageAttributes options' (language.map fun _ => "")) := by
  cases language <;> rfl

mutual

/-- The tags of a node are those of the blank node. -/
theorem outline_node (options options' : RenderOptions) :
    ∀ (n : Inline) {out out' : List Piece}, SameOutline out out' →
      SameOutline (node options out n) (node options' out' n.blank)
  | .text s, _, _, h => h.text s ""
  | .emphasis children, _, _, h =>
    (outline_nodes options options' children (h.start .emphasis rfl)).stop .emphasis
  | .strong children, _, _, h =>
    (outline_nodes options options' children (h.start .strong rfl)).stop .strong
  | .code s, _, _, h => ((h.start .code rfl).text s "").stop .code
  | .link href title children, _, _, h =>
    have hnames : attributeNames (⟨.href, address options .link href⟩ :: titleAttribute title) =
        attributeNames (⟨.href, address options' .link ""⟩ ::
          titleAttribute (title.map fun _ => "")) :=
      congrArg (AttributeName.href :: ·) (attributeNames_title title)
    (outline_nodes options options' children (h.start .link hnames)).stop .link
  | .image _ _ title, _, _, h =>
    h.void .image
      (congrArg (fun names => AttributeName.source :: .alt :: names) (attributeNames_title title))
  | .lineBreak, _, _, h => (h.void .lineBreak rfl).lineFeed

theorem outline_nodes (options options' : RenderOptions) :
    ∀ (ns : List Inline) {out out' : List Piece}, SameOutline out out' →
      SameOutline (nodes options out ns) (nodes options' out' (Inline.blankAll ns))
  | [], _, _, h => h
  | n :: ns, _, _, h => outline_nodes options options' ns (outline_node options options' n h)

end

namespace Writer

/-- Two writers have the same levels open and the same tags written. -/
structure Alike (w w' : Writer) : Prop where
  lists : w.lists = w'.lists
  out : SameOutline w.out w'.out

namespace Alike

variable {w w' : Writer}

theorem closeMany (h : w.Alike w') (n : Nat) : (w.closeMany n).Alike (w'.closeMany n) := by
  induction n generalizing w w' with
  | zero =>
    rw [Writer.closeMany, Writer.closeMany]
    · exact h
    · simp
    · simp
  | succ n ih =>
    obtain ⟨out, lists⟩ := w
    obtain ⟨out', lists'⟩ := w'
    obtain rfl : lists = lists' := h.lists
    cases lists with
    | nil => exact h
    | cons list lists =>
      have hout := (((h.out.stop .item).lineFeed).stop (listTag list)).lineFeed
      exact ih ⟨rfl, hout⟩

theorem closeTo (h : w.Alike w') (keep : Nat) : (w.closeTo keep).Alike (w'.closeTo keep) := by
  unfold Writer.closeTo
  rw [h.lists]
  exact h.closeMany _

theorem openList (h : w.Alike w') (list : ListKind) :
    (w.openList list).Alike (w'.openList list) := by
  -- line feeds may be written on one side only
  have hout : ∀ v : Writer, outlineOf
      (if !v.lists.isEmpty && !endsLine v.out then .lineFeed :: v.out else v.out) =
        outlineOf v.out := by
    intro v
    split_ifs
    · exact outlineOf_lineFeed v.out
    · rfl
  refine ⟨by simp [Writer.openList, h.lists], ?_⟩
  have hsame : SameOutline
      (if !w.lists.isEmpty && !endsLine w.out then .lineFeed :: w.out else w.out)
      (if !w'.lists.isEmpty && !endsLine w'.out then .lineFeed :: w'.out else w'.out) :=
    (hout w).trans (h.out.trans (hout w').symm)
  exact (hsame.start (listTag list) rfl).lineFeed

theorem startItem (h : w.Alike w') :
    Alike { w with out := .start .item [] :: w.out } { w' with out := .start .item [] :: w'.out } :=
  ⟨h.lists, h.out.start .item rfl⟩

theorem openMany (h : w.Alike w') (list : ListKind) (n : Nat) :
    (w.openMany list n).Alike (w'.openMany list n) := by
  induction n using Nat.strongRecOn generalizing w w' with
  | ind n ih =>
    match n with
    | 0 => exact h
    | 1 => exact h.openList list
    | n + 2 => exact ih (n + 1) (by omega) (h.openList list).startItem

theorem nextItem (h : w.Alike w') (list : ListKind) (depth : Nat) :
    (w.nextItem list depth).Alike (w'.nextItem list depth) := by
  have hclosed := (h.closeTo depth).openList list
  unfold Writer.nextItem
  rw [← h.lists]
  cases w.lists with
  | nil => exact h
  | cons current lists =>
    simp only
    split_ifs
    · exact ⟨rfl, (h.out.stop .item).lineFeed⟩
    · exact hclosed

theorem openItem (h : w.Alike w') (list : ListKind) (depth : Nat) :
    (w.openItem list depth).Alike (w'.openItem list depth) := by
  have hclosed := h.closeTo (depth + 1)
  unfold Writer.openItem
  simp only [← hclosed.lists]
  split_ifs
  · exact (hclosed.nextItem list depth).startItem
  · exact (hclosed.openMany list _).startItem

end Alike
end Writer

mutual

/-- The tags of a block are those of the blank block. -/
theorem outline_block (options options' : RenderOptions) :
    ∀ (b : Block) {w w' : Writer}, w.Alike w' →
      (block options w b).Alike (block options' w' b.blank)
  | .item list depth content, _, _, h => by
    have hopen := h.openItem list depth
    exact ⟨hopen.lists, outline_nodes options options' content hopen.out⟩
  | .paragraph content, w, w', h => by
    have hclosed := h.closeTo 0
    have hstart : SameOutline (.start .paragraph [] :: (w.closeTo 0).out)
        (.start .paragraph [] :: (w'.closeTo 0).out) := hclosed.out.start .paragraph rfl
    have hcontent := outline_nodes options options' content hstart
    exact ⟨hclosed.lists, (hcontent.stop .paragraph).lineFeed⟩
  | .heading level content, w, w', h => by
    have hclosed := h.closeTo 0
    have hstart : SameOutline (.start (.heading level) [] :: (w.closeTo 0).out)
        (.start (.heading level) [] :: (w'.closeTo 0).out) := hclosed.out.start (.heading level) rfl
    have hcontent := outline_nodes options options' content hstart
    exact ⟨hclosed.lists, (hcontent.stop (.heading level)).lineFeed⟩
  | .code language raw, w, w', h => by
    have hclosed := h.closeTo 0
    have hstart : SameOutline (.start .preformatted [] :: (w.closeTo 0).out)
        (.start .preformatted [] :: (w'.closeTo 0).out) := hclosed.out.start .preformatted rfl
    have hnames := attributeNames_language options options' language
    have hcode := ((hstart.start .code hnames).text raw "").stop .code
    exact ⟨hclosed.lists, (hcode.stop .preformatted).lineFeed⟩
  | .quote inner, w, w', h => by
    have hclosed := h.closeTo 0
    have hstart : Writer.Alike ⟨.lineFeed :: .start .quote [] :: (w.closeTo 0).out, []⟩
        ⟨.lineFeed :: .start .quote [] :: (w'.closeTo 0).out, []⟩ :=
      ⟨rfl, (hclosed.out.start .quote rfl).lineFeed⟩
    have hinner := outline_blocks options options' inner hstart
    exact ⟨hclosed.lists, (hinner.out.stop .quote).lineFeed⟩
  | .rule, _, _, h => by
    have hclosed := h.closeTo 0
    exact ⟨hclosed.lists, (hclosed.out.void .rule rfl).lineFeed⟩

theorem outline_blocks (options options' : RenderOptions) :
    ∀ (bs : List Block) {w w' : Writer}, w.Alike w' →
      (blocks options w bs).Alike (blocks options' w' (Block.blankAll bs))
  | [], _, _, h => h.closeTo 0
  | b :: bs, _, _, h => outline_blocks options options' bs (outline_block options options' b h)

end

end Render

/-! ### Strings that come back -/

namespace Inline

mutual

/-- The texts, codes, titles and descriptions of a node, in the order they are written. -/
def strings : Inline → List String
  | .text s => [s]
  | .emphasis children => stringsAll children
  | .strong children => stringsAll children
  | .code s => [s]
  | .link _ title children => title.toList ++ stringsAll children
  | .image _ alt title => alt :: title.toList
  | .lineBreak => []

/-- The strings of the nodes. -/
def stringsAll : List Inline → List String
  | [] => []
  | n :: ns => strings n ++ stringsAll ns

end

end Inline

namespace Block

mutual

/-- The texts, codes, titles and descriptions of a block, in the order they are written. -/
def strings : Block → List String
  | .paragraph content => Inline.stringsAll content
  | .heading _ content => Inline.stringsAll content
  | .item _ _ content => Inline.stringsAll content
  | .code _ raw => [raw]
  | .quote blocks => stringsAll blocks
  | .rule => []

/-- The strings of the blocks. -/
def stringsAll : List Block → List String
  | [] => []
  | b :: bs => strings b ++ stringsAll bs

end

end Block

/-- The texts, codes, titles and descriptions of a document, in the order they are written. -/
def Document.strings (doc : Document) : List String := Block.stringsAll doc

/-- Whether an attribute of this name is a title or a description. -/
def Markup.describes (key : List Char) : Bool := key == "alt".toList || key == "title".toList

/-- The titles and descriptions among the attributes of a mark, decoded. -/
def Markup.Mark.said (m : Mark) : List String :=
  (m.attributes.filter fun a => describes a.1).map fun a => String.ofList (decode a.2)

namespace Html

/-- What a reader of a piece, as it is written, decodes: text, or the titles and
descriptions of a tag. -/
def Piece.said (p : Piece) : List String :=
  match p with
  | .text _ => [String.ofList (Markup.decode p.written)]
  | .lineFeed => []
  | _ => ((Markup.scan p.written).getD []).flatMap Markup.Mark.said

/-- Whether an attribute is a title or a description. -/
def AttributeName.describes : AttributeName → Bool
  | .alt | .title => true
  | _ => false

theorem describes_text (n : AttributeName) : Markup.describes n.text.toList = n.describes := by
  cases n <;> decide

/-- The values of titles and descriptions. -/
def describing (attributes : List Attribute) : List String :=
  (attributes.filter fun a => a.name.describes).map Attribute.value

theorem said_attributes (attributes : List Attribute) :
    ((attributes.map Attribute.mark).filter fun a => Markup.describes a.1).map
      (fun a => String.ofList (Markup.decode a.2)) = describing attributes := by
  have hvalue : (fun a => String.ofList (Markup.decode a.2)) ∘ Attribute.mark =
      Attribute.value := by
    funext a
    simp only [Function.comp_apply, Attribute.mark]
    rw [Markup.decode_value, String.ofList_toList]
  have hname : (fun a => Markup.describes a.1) ∘ Attribute.mark =
      fun a : Attribute => a.name.describes := by
    funext a
    exact describes_text a.name
  rw [List.filter_map, List.map_map, hvalue, hname]
  rfl

theorem scan_piece (p : Piece) : Markup.scan p.written = some p.marks := by
  have h := Markup.scan_written [p]
  simpa using h

theorem said_text (s : String) : (Piece.text s).said = [s] := by
  simp only [Piece.said, Piece.written]
  rw [Markup.decode_text, String.ofList_toList]

theorem said_stop (tag : Tag) : (Piece.stop tag).said = [] := by
  simp only [Piece.said, scan_piece]
  rfl

theorem said_start (tag : Tag) (attributes : List Attribute) :
    (Piece.start tag attributes).said = describing attributes := by
  simp only [Piece.said, scan_piece, Option.getD_some, Piece.marks, List.flatMap_singleton]
  exact said_attributes attributes

theorem said_void (tag : Tag) (attributes : List Attribute) :
    (Piece.void tag attributes).said = describing attributes := by
  simp only [Piece.said, scan_piece, Option.getD_some, Piece.marks, List.flatMap_singleton]
  exact said_attributes attributes

/-- What output says, oldest first. -/
def spoken (out : List Piece) : List String := out.reverse.flatMap Piece.said

theorem spoken_cons (p : Piece) (out : List Piece) : spoken (p :: out) = spoken out ++ p.said := by
  simp [spoken]

@[simp] theorem spoken_text (s : String) (out : List Piece) :
    spoken (.text s :: out) = spoken out ++ [s] := by
  rw [spoken_cons, said_text]

@[simp] theorem spoken_stop (tag : Tag) (out : List Piece) :
    spoken (.stop tag :: out) = spoken out := by
  rw [spoken_cons, said_stop, List.append_nil]

@[simp] theorem spoken_lineFeed (out : List Piece) : spoken (.lineFeed :: out) = spoken out := by
  rw [spoken_cons]
  exact List.append_nil _

@[simp] theorem spoken_start (tag : Tag) (attributes : List Attribute) (out : List Piece) :
    spoken (.start tag attributes :: out) = spoken out ++ describing attributes := by
  rw [spoken_cons, said_start]

@[simp] theorem spoken_void (tag : Tag) (attributes : List Attribute) (out : List Piece) :
    spoken (.void tag attributes :: out) = spoken out ++ describing attributes := by
  rw [spoken_cons, said_void]

@[simp] theorem describing_nil : describing [] = [] := rfl

end Html

namespace Render

open Html

theorem describing_link (options : RenderOptions) (href : String) (title : Option String) :
    describing (⟨.href, address options .link href⟩ :: titleAttribute title) = title.toList := by
  cases title <;> rfl

theorem describing_image (options : RenderOptions) (source alt : String) (title : Option String) :
    describing (⟨.source, address options .image source⟩ :: ⟨.alt, alt⟩ :: titleAttribute title) =
      alt :: title.toList := by
  cases title <;> rfl

theorem describing_list (list : ListKind) : describing (listAttributes list) = [] := by
  cases list with
  | bullet => rfl
  | ordered start delimiter =>
    simp only [listAttributes]
    split_ifs <;> rfl

theorem describing_language (options : RenderOptions) (language : Option String) :
    describing (languageAttributes options language) = [] := by
  cases language <;> rfl

mutual

/-- A node says its strings. -/
theorem spoken_node (options : RenderOptions) :
    ∀ (n : Inline) (out : List Piece), spoken (node options out n) = spoken out ++ n.strings
  | .text _, _ => by simp [node, Inline.strings]
  | .emphasis children, _ => by simp [node, Inline.strings, spoken_nodes options children]
  | .strong children, _ => by simp [node, Inline.strings, spoken_nodes options children]
  | .code _, _ => by simp [node, Inline.strings]
  | .link href title children, _ => by
    simp [node, Inline.strings, spoken_nodes options children, describing_link]
  | .image source alt title, _ => by simp [node, Inline.strings, describing_image]
  | .lineBreak, _ => by simp [node, Inline.strings]

theorem spoken_nodes (options : RenderOptions) :
    ∀ (ns : List Inline) (out : List Piece),
      spoken (nodes options out ns) = spoken out ++ Inline.stringsAll ns
  | [], _ => by simp [nodes, Inline.stringsAll]
  | n :: ns, out => by
    rw [nodes, spoken_nodes options ns, spoken_node options n, Inline.stringsAll,
      List.append_assoc]

end

/-- What `f` tells of the pieces of output, oldest first. -/
def told {α : Type} (f : Piece → List α) (out : List Piece) : List α := out.reverse.flatMap f

theorem told_cons {α : Type} (f : Piece → List α) (p : Piece) (out : List Piece) :
    told f (p :: out) = told f out ++ f p := by
  simp [told]

/-- `f` tells nothing of the pieces that open and close lists. -/
structure SilentOnLists {α : Type} (f : Piece → List α) : Prop where
  lineFeed : f .lineFeed = []
  stop : ∀ tag, f (.stop tag) = []
  start : ∀ list, f (.start (listTag list) (listAttributes list)) = []
  item : f (.start .item []) = []

namespace Writer

/-! Lists are opened and closed without a word. -/

section Silent

variable {α : Type} {f : Piece → List α} (hf : SilentOnLists f)
include hf

theorem told_closeMany (n : Nat) (w : Writer) : told f (w.closeMany n).out = told f w.out := by
  induction n generalizing w with
  | zero =>
    rw [closeMany]
    simp
  | succ n ih =>
    obtain ⟨out, _ | ⟨list, lists⟩⟩ := w
    · rfl
    · rw [closeMany, ih]
      simp only [told_cons, hf.lineFeed, hf.stop, List.append_nil]

theorem told_closeTo (keep : Nat) (w : Writer) : told f (w.closeTo keep).out = told f w.out :=
  told_closeMany hf _ w

theorem told_openList (list : ListKind) (w : Writer) :
    told f (w.openList list).out = told f w.out := by
  simp only [openList, told_cons, hf.lineFeed, hf.start, List.append_nil]
  split_ifs
  · rw [told_cons, hf.lineFeed, List.append_nil]
  · rfl

theorem told_openMany (list : ListKind) (n : Nat) (w : Writer) :
    told f (w.openMany list n).out = told f w.out := by
  induction n using Nat.strongRecOn generalizing w with
  | ind n ih =>
    match n with
    | 0 => rfl
    | 1 => exact told_openList hf list w
    | n + 2 =>
      rw [openMany, ih (n + 1) (by omega), told_cons, hf.item, List.append_nil]
      exact told_openList hf list w

theorem told_nextItem (list : ListKind) (depth : Nat) (w : Writer) :
    told f (w.nextItem list depth).out = told f w.out := by
  unfold nextItem
  split
  · split_ifs
    · simp only [told_cons, hf.lineFeed, hf.stop, List.append_nil]
    · rw [told_openList hf, told_closeTo hf]
  · rfl

theorem told_openItem (list : ListKind) (depth : Nat) (w : Writer) :
    told f (w.openItem list depth).out = told f w.out := by
  simp only [openItem, told_cons, hf.item, List.append_nil]
  split_ifs
  · rw [told_nextItem hf, told_closeTo hf]
  · rw [told_openMany hf, told_closeTo hf]

end Silent

/-- Nothing is said by opening and closing lists. -/
theorem silentOnLists_said : SilentOnLists Piece.said where
  lineFeed := rfl
  stop := said_stop
  start list := (said_start _ _).trans (describing_list list)
  item := said_start _ _

theorem spoken_closeTo (keep : Nat) (w : Writer) : spoken (w.closeTo keep).out = spoken w.out :=
  told_closeTo silentOnLists_said keep w

theorem spoken_openItem (list : ListKind) (depth : Nat) (w : Writer) :
    spoken (w.openItem list depth).out = spoken w.out :=
  told_openItem silentOnLists_said list depth w

end Writer

mutual

/-- A block says its strings. -/
theorem spoken_block (options : RenderOptions) :
    ∀ (b : Block) (w : Writer), spoken (block options w b).out = spoken w.out ++ b.strings
  | .item list depth content, w => by
    simp only [block, spoken_nodes, Writer.spoken_openItem, Block.strings]
  | .paragraph content, w => by
    simp [block, spoken_nodes, Writer.spoken_closeTo, Block.strings]
  | .heading level content, w => by
    simp [block, spoken_nodes, Writer.spoken_closeTo, Block.strings]
  | .code language raw, w => by
    simp [block, describing_language, Writer.spoken_closeTo, Block.strings]
  | .quote inner, w => by
    simp [block, spoken_blocks options inner, Writer.spoken_closeTo, Block.strings]
  | .rule, w => by simp [block, Writer.spoken_closeTo, Block.strings]

theorem spoken_blocks (options : RenderOptions) :
    ∀ (bs : List Block) (w : Writer),
      spoken (blocks options w bs).out = spoken w.out ++ Block.stringsAll bs
  | [], w => by simp [blocks, Writer.spoken_closeTo, Block.stringsAll]
  | b :: bs, w => by
    rw [blocks, spoken_blocks options bs, spoken_block options b, Block.stringsAll,
      List.append_assoc]

end

end Render

/-! ### Whole documents -/

theorem Document.scan_toHtml (doc : Document) (options : RenderOptions) :
    Markup.scan (doc.toHtml options).toList =
      some (Html.marksOf (Render.chunk options [] doc)) := by
  rw [Document.toHtml, Html.toList_write, Document.pieces]
  exact Markup.scan_written _

/-- **Rendering is free of injection and well-formed.** Whatever the document, its HTML can
be scanned; its tags nest and are all closed; their names are known; values hold no quote
and no angle bracket, and every `&` starts an entity. The tags and the names of their
attributes are those of the document with all strings emptied, whatever the options. And
the output is a sequence of pieces from which exactly the texts, codes, titles and
descriptions of the document are decoded, in order. -/
theorem Document.markup_toHtml (doc : Document) (options : RenderOptions) :
    ∃ marks, Markup.scan (doc.toHtml options).toList = some marks ∧
      Markup.openAfter [] marks = some [] ∧
      (∀ m ∈ marks, m.known = true) ∧
      (∀ m ∈ marks, ∀ a ∈ m.attributes, ∀ c ∈ a.2, c ≠ '"' ∧ c ≠ '<' ∧ c ≠ '>') ∧
      Markup.OnlyEntities (doc.toHtml options).toList ∧
      (Markup.scan (doc.blank.toHtml {}).toList).map Markup.skeleton =
        some (Markup.skeleton marks) ∧
      (doc.toHtml options).toList = (doc.pieces options).flatMap Html.Piece.written ∧
      (doc.pieces options).flatMap Html.Piece.said = doc.strings := by
  have hstart : Render.Writer.Itemed [] {} := Html.Opens.nil
  have hopens : Html.Opens (Render.chunk options [] doc) [] :=
    Render.opens_blocks options doc hstart
  have hwritten : (doc.toHtml options).toList = (doc.pieces options).flatMap Html.Piece.written :=
    Html.toList_write _
  refine ⟨_, doc.scan_toHtml options, hopens.openAfter, hopens.known, ?_, ?_, ?_, hwritten, ?_⟩
  · intro m hm
    obtain ⟨p, -, hm⟩ := List.mem_flatMap.mp hm
    exact Markup.values_clear p m hm
  · rw [hwritten]
    exact Markup.onlyEntities_flatMap fun p _ => Markup.onlyEntities_written p
  · have hblank : Render.Writer.Alike {} {} := ⟨rfl, rfl⟩
    rw [Document.scan_toHtml]
    exact congrArg some (Render.outline_blocks options {} doc hblank).out.symm
  · exact Render.spoken_blocks options doc {}

end MarkdownHtml
