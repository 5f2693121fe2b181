/-
# The marks of list items

Behind each item the writer has a list and an item open for every level it keeps. Here
levels are followed with their elements (`Level`), outermost first, and the writer is
described by what it adds behind its output: an item goes on with the list at its depth or
starts another, behind the ends of all deeper levels (`openItem_cases`).

In the elements that start in these marks, only items and lists are looked at (`listing`);
what an item holds has none of them (`Inert`). So the elements of a whole run of items can
be told from the items alone (`Built`), with one case for an item that goes on and one for
an item that starts a list.

Key definitions: `ListItem`, `ListKind.startTag`, `listing`, `Inert`, `Level`, `Built`.
Key theorems: `inert_nodes`, `openItem_cases`, `built_blocks`.
-/
import MarkdownHtml.Proofs.MarkupTrees
import MarkdownHtml.Proofs.Rendering

namespace MarkdownHtml

/-- One item of a list, to be written among other items. -/
structure ListItem where
  list : ListKind
  depth : Nat
  content : List Inline
deriving Repr

/-- The item as a block. -/
def ListItem.block (item : ListItem) : Block := .item item.list item.depth item.content

/-- The name and the attributes in the start tag of a list: `ul` for bullets, `ol` for
numbers, with its first number where that is not 1. -/
def ListKind.startTag : ListKind → List Char × List (List Char × List Char)
  | .bullet _ => ("ul".toList, [])
  | .ordered start _ =>
    ("ol".toList, if start = 1 then [] else [("start".toList, (toString start).toList)])

/-- Kinds that go on with each other are gone on with by the same kinds. -/
theorem ListKind.continues_congr {a b : ListKind} (h : a.continues b = true) (c : ListKind) :
    a.continues c = b.continues c := by
  cases a <;> cases b <;> cases c <;> simp_all [ListKind.continues]

@[simp] theorem ListKind.continues_self (a : ListKind) : a.continues a = true := by
  cases a <;> simp [ListKind.continues]

namespace Markup

/-! ### Items and lists among the elements -/

/-- The items and lists that start in the marks. -/
def listing (around : List Spot) (number : Nat) (marks : List Mark) : List Element :=
  (openings around number marks).filter fun e => e.self.isItem || e.self.isList

@[simp] theorem listing_char (around : List Spot) (number : Nat) (c : Char) (marks : List Mark) :
    listing around number (.char c :: marks) = listing around number marks := rfl

@[simp] theorem listing_stop (around : List Spot) (number : Nat) (name : List Char)
    (marks : List Mark) :
    listing around number (.stop name :: marks) = listing around.tail number marks := rfl

/-- Marks that close what they open, and open neither an item nor a list. -/
structure Inert (marks : List Mark) : Prop where
  inside : ∀ depth rest, inside depth (marks ++ rest) = marks ++ inside depth rest
  listing : ∀ around number rest, ∃ number', number ≤ number' ∧
    listing around number (marks ++ rest) = listing around number' rest

namespace Inert

theorem nil : Inert [] := ⟨fun _ _ => rfl, fun _ number _ => ⟨number, le_rfl, rfl⟩⟩

theorem append {ms ns : List Mark} (hm : Inert ms) (hn : Inert ns) : Inert (ms ++ ns) where
  inside depth rest := by
    rw [List.append_assoc, hm.inside, hn.inside, List.append_assoc]
  listing around number rest := by
    obtain ⟨between, hle, heq⟩ := hm.listing around number (ns ++ rest)
    obtain ⟨number', hle', heq'⟩ := hn.listing around between rest
    exact ⟨number', hle.trans hle', by rw [List.append_assoc, heq, heq']⟩

theorem char (c : Char) : Inert [.char c] :=
  ⟨fun depth rest => inside_char depth c rest, fun _ number _ => ⟨number, le_rfl, rfl⟩⟩

theorem chars (s : List Char) : Inert (s.map .char) := by
  induction s with
  | nil => exact nil
  | cons c s ih => exact (char c).append ih

theorem void (name : List Char) (attributes : List (List Char × List Char)) :
    Inert [.void name attributes] :=
  ⟨fun depth rest => inside_void depth name attributes rest,
    fun _ number _ => ⟨number, le_rfl, rfl⟩⟩

/-- An element of another name around them. -/
theorem element {ms : List Mark} (h : Inert ms) {name : List Char}
    (hname : name ∉ ["li".toList, "ul".toList, "ol".toList])
    (attributes : List (List Char × List Char)) :
    Inert (.start name attributes :: (ms ++ [.stop name])) where
  inside depth rest := by
    have hms := h.inside (depth + 1) (.stop name :: rest)
    simp only [List.cons_append, List.append_assoc, List.nil_append, Markup.inside, hms]
  listing around number rest := by
    obtain ⟨number', hle, heq⟩ :=
      h.listing (⟨number, name, attributes⟩ :: around) (number + 1) (.stop name :: rest)
    have hother : ((⟨number, name, attributes⟩ : Spot).isItem ||
        (⟨number, name, attributes⟩ : Spot).isList) = false := by
      simp only [List.mem_cons, List.not_mem_nil, or_false, not_or] at hname
      simpa [Spot.isItem, Spot.isList] using hname
    refine ⟨number', by omega, ?_⟩
    rw [listing_stop] at heq
    rw [List.cons_append, List.append_assoc, Markup.listing, openings,
      List.filter_cons_of_neg (by simp [hother])]
    exact heq

end Inert

end Markup

namespace Html

theorem marksOf_append (new out : List Piece) :
    marksOf (new ++ out) = marksOf out ++ marksOf new := by
  simp [marksOf]

end Html

namespace Render

open Html Markup

/-! ### The marks of what items hold -/

mutual

/-- A node is written the same behind any output. -/
theorem node_append (options : RenderOptions) :
    ∀ (n : Inline) (out : List Piece), node options out n = node options [] n ++ out
  | .text _, _ => rfl
  | .emphasis children, out => by
    rw [node, node, nodes_append options children, nodes_append options children [_]]
    simp
  | .strong children, out => by
    rw [node, node, nodes_append options children, nodes_append options children [_]]
    simp
  | .code _, _ => rfl
  | .link href title children, out => by
    rw [node, node, nodes_append options children, nodes_append options children [_]]
    simp
  | .image .., _ => rfl
  | .lineBreak, _ => rfl

theorem nodes_append (options : RenderOptions) :
    ∀ (ns : List Inline) (out : List Piece), nodes options out ns = nodes options [] ns ++ out
  | [], _ => rfl
  | n :: ns, out => by
    rw [nodes, nodes, nodes_append options ns, nodes_append options ns (node options [] n),
      node_append options n, List.append_assoc]

end

/-- What stands between a start and an end tag. -/
theorem marksOf_element (tag : Tag) (attributes : List Attribute) (content : List Piece) :
    marksOf (.stop tag :: (content ++ [.start tag attributes])) =
      .start tag.name.toList (attributes.map Attribute.mark) ::
        (marksOf content ++ [.stop tag.name.toList]) := by
  rw [marksOf_cons, marksOf_append]
  rfl

mutual

/-- A node opens neither an item nor a list. -/
theorem inert_node (options : RenderOptions) : ∀ n : Inline, Inert (marksOf (node options [] n))
  | .text s => by
    simpa [node, marksOf, Piece.marks] using Inert.chars (s.toList.flatMap textEntity)
  | .emphasis children => by
    rw [node, nodes_append, marksOf_element]
    exact (inert_nodes options children).element (by decide) _
  | .strong children => by
    rw [node, nodes_append, marksOf_element]
    exact (inert_nodes options children).element (by decide) _
  | .code s => by
    have htext : Inert (marksOf [.text s]) := by
      simpa [marksOf, Piece.marks] using Inert.chars (s.toList.flatMap textEntity)
    show Inert (marksOf (.stop .code :: ([.text s] ++ [.start .code []])))
    rw [marksOf_element]
    exact htext.element (by decide) _
  | .link href title children => by
    rw [node, nodes_append, marksOf_element]
    exact (inert_nodes options children).element (by decide) _
  | .image source alt title => by
    simpa [node, marksOf, Piece.marks] using Inert.void _ _
  | .lineBreak => by
    simpa [node, marksOf, Piece.marks] using (Inert.void _ _).append (Inert.char '\n')

/-- What an item holds opens neither an item nor a list. -/
theorem inert_nodes (options : RenderOptions) :
    ∀ ns : List Inline, Inert (marksOf (nodes options [] ns))
  | [] => Inert.nil
  | n :: ns => by
    rw [nodes, nodes_append, marksOf_append]
    exact (inert_node options n).append (inert_nodes options ns)

end

/-! ### Lists that start and end -/

/-- The start of an item. -/
def itemStart : List Mark := [.start "li".toList []]

/-- The end of an item. -/
def itemEnd : List Mark := [.stop "li".toList, .char '\n']

/-- The start of a list. -/
def listStart (kind : ListKind) : List Mark :=
  [.start kind.startTag.1 kind.startTag.2, .char '\n']

/-- What may stand before a list: a line feed or nothing. -/
def feeds : List (List Mark) := [[], [.char '\n']]

/-- The marks that end open lists with their items; the lists are outermost first. -/
def closing (lists : List ListKind) : List Mark :=
  lists.reverse.flatMap fun kind => itemEnd ++ [.stop kind.startTag.1, .char '\n']

theorem closing_append (outer inner : List ListKind) :
    closing (outer ++ inner) = closing inner ++ closing outer := by
  simp [closing]

theorem marks_stop_list (kind : ListKind) :
    (Piece.stop (listTag kind)).marks = [.stop kind.startTag.1] := by
  cases kind <;> rfl

/-- Digits are written as they are. -/
theorem flatMap_attributeEntity_toString (n : Nat) :
    (toString n).toList.flatMap attributeEntity = (toString n).toList := by
  have hdigit : ∀ c ∈ (toString n).toList, attributeEntity c = [c] := by
    intro c hc
    have hc := isDigit_of_mem_toString c hc
    have hne : ∀ d : Char, d.isDigit = false → c ≠ d := by
      rintro d hd rfl
      rw [hc] at hd
      exact Bool.noConfusion hd
    simp [attributeEntity, textEntity, hne '"' rfl, hne '&' rfl, hne '<' rfl, hne '>' rfl]
  rw [List.flatMap_congr hdigit]
  exact List.flatMap_singleton' _

theorem marks_start_list (kind : ListKind) :
    (Piece.start (listTag kind) (listAttributes kind)).marks =
      [.start kind.startTag.1 kind.startTag.2] := by
  cases kind with
  | bullet mark => rfl
  | ordered start delimiter =>
    simp only [Piece.marks, listTag, listAttributes, ListKind.startTag]
    split_ifs
    · rfl
    · simp only [List.map_cons, List.map_nil, Attribute.mark, AttributeName.text,
        flatMap_attributeEntity_toString, Tag.name]

namespace Writer

variable {lists : List ListKind} {w : Writer}

/-- Closing lists writes their ends. -/
theorem closeTo_eq (hw : w.lists = lists.reverse) (keep : Nat) :
    (w.closeTo keep).lists = (lists.take keep).reverse ∧
      marksOf (w.closeTo keep).out = marksOf w.out ++ closing (lists.drop keep) := by
  obtain ⟨out, _⟩ := w
  subst hw
  induction lists using List.reverseRecOn generalizing out with
  | nil => simp [closeTo, closeMany, closing]
  | append_singleton lists kind ih =>
    by_cases hkeep : (lists ++ [kind]).length ≤ keep
    · -- nothing is to be closed
      rw [List.take_of_length_le hkeep, List.drop_of_length_le hkeep, closeTo]
      simp only [List.length_reverse, Nat.sub_eq_zero_of_le hkeep]
      simp [closeMany, closing]
    · rw [List.length_append, List.length_singleton] at hkeep
      have hle : keep ≤ lists.length := by omega
      have hcount : lists.reverse.length + 1 - keep = lists.reverse.length - keep + 1 := by
        rw [List.length_reverse]
        omega
      have hclose : closeTo keep ⟨out, (lists ++ [kind]).reverse⟩ =
          closeTo keep ⟨.lineFeed :: .stop (listTag kind) :: .lineFeed :: .stop .item :: out,
            lists.reverse⟩ := by
        rw [closeTo, closeTo]
        simp only [List.reverse_append, List.reverse_singleton, List.singleton_append,
          List.length_cons]
        rw [hcount, closeMany]
      have hmarks : marksOf
          (.lineFeed :: .stop (listTag kind) :: .lineFeed :: .stop .item :: out) =
          marksOf out ++ closing [kind] := by
        simp only [marksOf_cons, marks_stop_list, List.append_assoc]
        rfl
      rw [hclose, List.take_append_of_le_length hle, List.drop_append_of_le_length hle]
      obtain ⟨hlists, hout⟩ := ih
        (.lineFeed :: .stop (listTag kind) :: .lineFeed :: .stop .item :: out)
      refine ⟨hlists, ?_⟩
      rw [hout, hmarks, closing_append, List.append_assoc]

/-- A list starts, on a line of its own. -/
theorem marksOf_openList (list : ListKind) (w : Writer) :
    ∃ feed ∈ feeds, marksOf (w.openList list).out =
      marksOf w.out ++ (feed ++ listStart list) := by
  simp only [openList, marksOf_cons, marks_start_list]
  split_ifs
  · refine ⟨[.char '\n'], by simp [feeds], ?_⟩
    rw [marksOf_cons]
    simp [Piece.marks, listStart]
  · refine ⟨[], by simp [feeds], ?_⟩
    simp [Piece.marks, listStart]

/-- An item goes on with the innermost list, or ends it and starts another. -/
theorem nextItem_cases {kind : ListKind} (hw : w.lists = (lists ++ [kind]).reverse)
    (list : ListKind) :
    (kind.continues list = true ∧
      (w.nextItem list lists.length).lists = (lists ++ [kind]).reverse ∧
      marksOf (w.nextItem list lists.length).out = marksOf w.out ++ itemEnd) ∨
    (kind.continues list = false ∧
      (w.nextItem list lists.length).lists = (lists ++ [list]).reverse ∧
      ∃ feed ∈ feeds, marksOf (w.nextItem list lists.length).out =
        marksOf w.out ++ (closing [kind] ++ (feed ++ listStart list))) := by
  obtain ⟨hlists, hclosed⟩ := closeTo_eq hw lists.length
  rw [List.take_left] at hlists
  rw [List.drop_left] at hclosed
  rw [List.reverse_append, List.reverse_singleton, List.singleton_append] at hw ⊢
  rw [List.reverse_append, List.reverse_singleton, List.singleton_append]
  unfold nextItem
  rw [hw]
  simp only
  by_cases hkind : kind.continues list = true
  · left
    rw [if_pos hkind]
    refine ⟨hkind, rfl, ?_⟩
    simp only [marksOf_cons, List.append_assoc]
    rfl
  · right
    rw [if_neg hkind]
    obtain ⟨feed, hfeed, hstart⟩ := marksOf_openList list (w.closeTo lists.length)
    refine ⟨Bool.eq_false_of_not_eq_true hkind, ?_, feed, hfeed, ?_⟩
    · show list :: (w.closeTo lists.length).lists = list :: lists.reverse
      rw [hlists]
    · rw [hstart, hclosed, List.append_assoc]

/-- **What an item does.** It goes on with the list at its depth, behind the ends of the
deeper ones; or, where no list is open there or its kind is another, it starts one. -/
theorem openItem_cases (hw : w.lists = lists.reverse) (list : ListKind) {depth : Nat}
    (hdepth : depth ≤ lists.length) :
    (∃ kind, lists[depth]? = some kind ∧ kind.continues list = true ∧
      (w.openItem list depth).lists = (lists.take depth ++ [kind]).reverse ∧
      marksOf (w.openItem list depth).out =
        marksOf w.out ++ (closing (lists.drop (depth + 1)) ++ (itemEnd ++ itemStart))) ∨
    ((∀ kind, lists[depth]? = some kind → kind.continues list = false) ∧
      (w.openItem list depth).lists = (lists.take depth ++ [list]).reverse ∧
      ∃ feed ∈ feeds, marksOf (w.openItem list depth).out =
        marksOf w.out ++
          (closing (lists.drop depth) ++ (feed ++ (listStart list ++ itemStart)))) := by
  obtain ⟨hlists, hout⟩ := closeTo_eq hw (depth + 1)
  have hlength : (lists.take depth).length = depth := List.length_take_of_le hdepth
  unfold openItem
  generalize w.closeTo (depth + 1) = v at hlists hout
  simp only
  by_cases hopen : depth < lists.length
  · -- a list is open at the depth, and it is the innermost now
    obtain ⟨kind, hk⟩ : ∃ kind, lists[depth]? = some kind := ⟨_, List.getElem?_eq_getElem hopen⟩
    have htake : lists.take (depth + 1) = lists.take depth ++ [kind] := by
      rw [List.take_add_one, hk]
      rfl
    have hdrop : lists.drop depth = [kind] ++ lists.drop (depth + 1) := by
      rw [List.drop_eq_getElem?_toList_append, hk]
      rfl
    have hlen : v.lists.length = depth + 1 := by
      rw [hlists, List.length_reverse, List.length_take]
      omega
    rw [htake] at hlists
    rw [if_pos hlen]
    have hnext := nextItem_cases hlists list
    rw [hlength] at hnext
    rcases hnext with ⟨hkind, hsame, hmarks⟩ | ⟨hkind, hnew, feed, hfeed, hmarks⟩
    · left
      refine ⟨kind, hk, hkind, hsame, ?_⟩
      rw [marksOf_cons, hmarks, hout, List.append_assoc, List.append_assoc]
      rfl
    · right
      refine ⟨fun kind' hk' => ?_, hnew, feed, hfeed, ?_⟩
      · obtain rfl := Option.some.inj (hk.symm.trans hk')
        exact hkind
      · rw [marksOf_cons, hmarks, hout, hdrop, closing_append]
        simp only [List.append_assoc]
        rfl
  · -- one list more than before is needed
    have hall : lists.length = depth := by omega
    rw [List.take_of_length_le (by omega)] at hlists
    rw [List.drop_of_length_le (by omega)] at hout
    have hlen : v.lists.length = depth := by rw [hlists, List.length_reverse, hall]
    obtain ⟨feed, hfeed, hstart⟩ := marksOf_openList list v
    right
    rw [if_neg (by omega), hlen, Nat.add_sub_cancel_left, openMany]
    refine ⟨fun kind hk => ?_, ?_, feed, hfeed, ?_⟩
    · rw [List.getElem?_eq_none (by omega)] at hk
      exact absurd hk (by simp)
    · show list :: v.lists = (lists.take depth ++ [list]).reverse
      rw [List.take_of_length_le (by omega), hlists]
      simp
    · rw [List.drop_of_length_le (by omega), marksOf_cons, hstart, hout]
      simp only [List.append_assoc]
      rfl

end Writer

/-! ### Levels and their elements -/

/-- A level of lists that is open: the numbers of its list and of the item in it, and the
kind that started the list. -/
structure Level where
  list : Nat
  kind : ListKind
  item : Nat

/-- The element of an item. -/
def itemSpot (number : Nat) : Spot := ⟨number, "li".toList, []⟩

/-- The element of a list. -/
def listSpot (number : Nat) (kind : ListKind) : Spot :=
  ⟨number, kind.startTag.1, kind.startTag.2⟩

/-- The list of a level. -/
def Level.spot (l : Level) : Spot := listSpot l.list l.kind

/-- The elements of the levels, innermost first; the levels are outermost first. -/
def around (levels : List Level) : List Spot :=
  levels.reverse.flatMap fun l => [itemSpot l.item, l.spot]

@[simp] theorem around_concat (levels : List Level) (l : Level) :
    around (levels ++ [l]) = itemSpot l.item :: l.spot :: around levels := by
  simp [around]

@[simp] theorem isList_itemSpot (number : Nat) : (itemSpot number).isList = false := rfl

@[simp] theorem isList_listSpot (number : Nat) (kind : ListKind) :
    (listSpot number kind).isList = true := by
  cases kind <;> rfl

@[simp] theorem isItem_listSpot (number : Nat) (kind : ListKind) :
    (listSpot number kind).isItem = false := by
  cases kind <;> rfl

/-- Each level has one list. -/
theorem countP_around (levels : List Level) :
    (around levels).countP Spot.isList = levels.length := by
  induction levels using List.reverseRecOn with
  | nil => rfl
  | append_singleton levels l ih => simp [Level.spot, ih]

/-- The ends of levels leave the elements of those that are kept. -/
theorem listing_closing (levels : List Level) (keep number : Nat) (rest : List Mark) :
    listing (around levels) number (closing ((levels.map Level.kind).drop keep) ++ rest) =
      listing (around (levels.take keep)) number rest := by
  have hgone : ∀ kept gone : List Level,
      listing (around (kept ++ gone)) number (closing (gone.map Level.kind) ++ rest) =
        listing (around kept) number rest := by
    intro kept gone
    induction gone using List.reverseRecOn with
    | nil => simp [closing]
    | append_singleton gone l ih =>
      rw [← List.append_assoc, around_concat, List.map_append, closing_append, List.append_assoc]
      exact ih
  have h := hgone (levels.take keep) (levels.drop keep)
  rwa [List.take_append_drop, List.map_drop] at h

/-- Items and lists are listed where they start. -/
theorem listing_start {outer : List Spot} {number : Nat} {name : List Char}
    {attributes : List (List Char × List Char)} (rest : List Mark)
    (h : ((⟨number, name, attributes⟩ : Spot).isItem ||
      (⟨number, name, attributes⟩ : Spot).isList) = true) :
    listing outer number (.start name attributes :: rest) =
      ⟨⟨number, name, attributes⟩, outer, inside 0 rest⟩ ::
        listing (⟨number, name, attributes⟩ :: outer) (number + 1) rest := by
  rw [listing, openings, List.filter_cons, if_pos h]
  rfl

/-- The marks of an item that goes on, and of what follows. -/
theorem listing_goOn {levels : List Level} {depth : Nat} {l : Level}
    (hl : levels[depth]? = some l) (number : Nat) (rest : List Mark) :
    listing (around levels) number
        (closing ((levels.map Level.kind).drop (depth + 1)) ++ (itemEnd ++ (itemStart ++ rest))) =
      ⟨itemSpot number, l.spot :: around (levels.take depth), inside 0 rest⟩ ::
        listing (around (levels.take depth ++ [{ l with item := number }])) (number + 1) rest := by
  have htake : levels.take (depth + 1) = levels.take depth ++ [l] := by
    rw [List.take_add_one, hl]
    rfl
  have hend : ∀ marks, listing (around (levels.take depth ++ [l])) number (itemEnd ++ marks) =
      listing (l.spot :: around (levels.take depth)) number marks := by
    intro marks
    rw [around_concat]
    rfl
  rw [listing_closing, htake, hend, itemStart, List.singleton_append, listing_start rest rfl,
    around_concat]
  rfl

/-- The marks of an item that starts a list, and of what follows. -/
theorem listing_startList (levels : List Level) (depth number : Nat) (list : ListKind)
    {feed : List Mark} (hfeed : feed ∈ feeds) (rest : List Mark) :
    ∃ inList, listing (around levels) number
        (closing ((levels.map Level.kind).drop depth) ++
          (feed ++ (listStart list ++ (itemStart ++ rest)))) =
      ⟨listSpot number list, around (levels.take depth), inList⟩ ::
        ⟨itemSpot (number + 1), listSpot number list :: around (levels.take depth),
          inside 0 rest⟩ ::
          listing (around (levels.take depth ++ [⟨number, list, number + 1⟩])) (number + 2)
            rest := by
  have hskip : ∀ marks, listing (around (levels.take depth)) number (feed ++ marks) =
      listing (around (levels.take depth)) number marks := by
    intro marks
    simp only [feeds, List.mem_cons, List.not_mem_nil, or_false] at hfeed
    rcases hfeed with rfl | rfl
    · rfl
    · rfl
  have hlist : ((listSpot number list).isItem || (listSpot number list).isList) = true := by simp
  rw [listing_closing, hskip, listStart, itemStart]
  simp only [List.cons_append, List.nil_append]
  rw [listing_start _ hlist, listing_char, listing_start rest rfl, around_concat]
  exact ⟨_, rfl⟩

/-! ### The elements of a run of items -/

/-- `Built options levels number items elements`: behind `number` elements, with `levels`
open, the items are written as `elements`, which are the items and lists among all that
start from there on. -/
inductive Built (options : RenderOptions) :
    List Level → Nat → List ListItem → List Element → Prop
  | nil {levels : List Level} {number : Nat} : Built options levels number [] []
  /-- The item goes on with the list that is open at its depth. -/
  | goOn {levels : List Level} {number number' : Nat} {item : ListItem} {items : List ListItem}
      {elements : List Element} {l : Level} {held : List Mark} :
      levels[item.depth]? = some l → l.kind.continues item.list = true →
      number < number' → marksOf (nodes options [] item.content) <+: held →
      Built options (levels.take item.depth ++ [{ l with item := number }]) number' items
        elements →
      Built options levels number (item :: items)
        (⟨itemSpot number, l.spot :: around (levels.take item.depth), held⟩ :: elements)
  /-- The item starts a list. -/
  | start {levels : List Level} {number number' : Nat} {item : ListItem} {items : List ListItem}
      {elements : List Element} {inList held : List Mark} :
      item.depth ≤ levels.length →
      (∀ l, levels[item.depth]? = some l → l.kind.continues item.list = false) →
      number + 1 < number' → marksOf (nodes options [] item.content) <+: held →
      Built options (levels.take item.depth ++ [⟨number, item.list, number + 1⟩]) number' items
        elements →
      Built options levels number (item :: items)
        (⟨listSpot number item.list, around (levels.take item.depth), inList⟩ ::
          ⟨itemSpot (number + 1), listSpot number item.list :: around (levels.take item.depth),
            held⟩ :: elements)

/-- An item that goes on, with what it holds, in front of others. -/
theorem built_goOn {options : RenderOptions} {levels : List Level} {item : ListItem}
    {items : List ListItem} {l : Level} {marks : List Mark} (hl : levels[item.depth]? = some l)
    (hkind : l.kind.continues item.list = true) (number : Nat)
    (hrest : ∀ number', Built options (levels.take item.depth ++ [{ l with item := number }])
      number' items (listing (around (levels.take item.depth ++ [{ l with item := number }]))
        number' marks)) :
    Built options levels number (item :: items) (listing (around levels) number
      (closing ((levels.map Level.kind).drop (item.depth + 1)) ++ (itemEnd ++ (itemStart ++
        (marksOf (nodes options [] item.content) ++ marks))))) := by
  have hinert := inert_nodes options item.content
  obtain ⟨number', hle, hpass⟩ := hinert.listing
    (around (levels.take item.depth ++ [{ l with item := number }])) (number + 1) marks
  rw [listing_goOn hl, hinert.inside, hpass]
  exact Built.goOn hl hkind hle (List.prefix_append _ _) (hrest number')

/-- An item that starts a list, with what it holds, in front of others. -/
theorem built_start {options : RenderOptions} {levels : List Level} {item : ListItem}
    {items : List ListItem} {marks feed : List Mark} (hdepth : item.depth ≤ levels.length)
    (hkind : ∀ l, levels[item.depth]? = some l → l.kind.continues item.list = false)
    (hfeed : feed ∈ feeds) (number : Nat)
    (hrest : ∀ number', Built options
      (levels.take item.depth ++ [⟨number, item.list, number + 1⟩]) number' items
        (listing (around (levels.take item.depth ++ [⟨number, item.list, number + 1⟩]))
          number' marks)) :
    Built options levels number (item :: items) (listing (around levels) number
      (closing ((levels.map Level.kind).drop item.depth) ++ (feed ++ (listStart item.list ++
        (itemStart ++ (marksOf (nodes options [] item.content) ++ marks)))))) := by
  have hinert := inert_nodes options item.content
  obtain ⟨number', hle, hpass⟩ := hinert.listing
    (around (levels.take item.depth ++ [⟨number, item.list, number + 1⟩])) (number + 2) marks
  obtain ⟨inList, hstart⟩ := listing_startList levels item.depth number item.list hfeed
    (marksOf (nodes options [] item.content) ++ marks)
  rw [hstart, hinert.inside, hpass]
  exact Built.start hdepth hkind hle (List.prefix_append _ _) (hrest number')

/-- The marks of a block that is an item: those that open it, and those of what it holds. -/
theorem marksOf_item (options : RenderOptions) (w : Writer) (item : ListItem) :
    marksOf (block options w item.block).out =
      marksOf (w.openItem item.list item.depth).out ++
        marksOf (nodes options [] item.content) := by
  rw [ListItem.block, block]
  simp only
  rw [nodes_append, marksOf_append]

/-- **Items are written as lists and items.** By induction on the items: each does to the
lists what `openItem_cases` says, and what it holds is passed over. -/
theorem built_blocks (options : RenderOptions) (items : List ListItem) {lists : List ListKind}
    {w : Writer} (hw : w.lists = lists.reverse)
    (hfirst : ∀ item ∈ items.head?, item.depth ≤ lists.length)
    (hsteps : items.IsChain fun a b => b.depth ≤ a.depth + 1) :
    ∃ marks, marksOf (blocks options w (items.map ListItem.block)).out = marksOf w.out ++ marks ∧
      ∀ levels number, levels.map Level.kind = lists →
        Built options levels number items (listing (around levels) number marks) := by
  induction items generalizing lists w with
  | nil =>
    refine ⟨closing lists, (Writer.closeTo_eq hw 0).2, ?_⟩
    rintro levels number rfl
    have hclose := listing_closing levels 0 number []
    rw [List.drop_zero, List.append_nil] at hclose
    rw [hclose]
    exact Built.nil
  | cons item items ih =>
    have hdepth : item.depth ≤ lists.length := hfirst item rfl
    rw [List.isChain_cons] at hsteps
    obtain ⟨hnext, hsteps⟩ := hsteps
    have hbehind : ∀ kind, ∀ next ∈ items.head?,
        next.depth ≤ (lists.take item.depth ++ [kind]).length := by
      intro kind next hmem
      rw [List.length_append, List.length_take_of_le hdepth]
      exact hnext next hmem
    rw [List.map_cons, blocks]
    rcases Writer.openItem_cases hw item.list hdepth with
      ⟨kind, hk, hkind, hlists, hout⟩ | ⟨hkind, hlists, feed, hfeed, hout⟩
    · have hopen : (block options w item.block).lists =
          (lists.take item.depth ++ [kind]).reverse := hlists
      obtain ⟨marks, hmarks, hbuilt⟩ := ih hopen (hbehind kind) hsteps
      refine ⟨closing (lists.drop (item.depth + 1)) ++ (itemEnd ++ (itemStart ++
        (marksOf (nodes options [] item.content) ++ marks))), ?_, ?_⟩
      · rw [hmarks, marksOf_item, hout]
        simp only [List.append_assoc]
      · rintro levels number rfl
        rw [List.getElem?_map, Option.map_eq_some_iff] at hk
        obtain ⟨l, hl, rfl⟩ := hk
        refine built_goOn hl hkind number fun number' => hbuilt _ number' ?_
        rw [List.map_append, List.map_take]
        rfl
    · have hopen : (block options w item.block).lists =
          (lists.take item.depth ++ [item.list]).reverse := hlists
      obtain ⟨marks, hmarks, hbuilt⟩ := ih hopen (hbehind item.list) hsteps
      refine ⟨closing (lists.drop item.depth) ++ (feed ++ (listStart item.list ++ (itemStart ++
        (marksOf (nodes options [] item.content) ++ marks)))), ?_, ?_⟩
      · rw [hmarks, marksOf_item, hout]
        simp only [List.append_assoc]
      · rintro levels number rfl
        refine built_start ?_ ?_ hfeed number fun number' => hbuilt _ number' ?_
        · simpa using hdepth
        · intro l hl
          apply hkind l.kind
          rw [List.getElem?_map, hl]
          rfl
        · rw [List.map_append, List.map_take]
          rfl

end Render
end MarkdownHtml
