/-
# Lists are rebuilt from depths

Items come with a depth each and nothing else, and the writer nests lists from them. Here
its HTML is read back as a tree, and the tree has the structure that the depths carry
(`Document.lists_toHtml`): one item each, as deep as its depth says; two items in one list
where nothing between them leaves the list; and every list with the tag of its first item.

What a list is left by is said by recursion on the items behind (`Joins`). Along a run, a
list that is open holds those items that join it (`Built.parent_iff_joins`); a list that is
not open any more gets no further item (`Built.parent_ne`), as elements that start later
have larger numbers.

Key definitions: `ListItem.Legal`, `SameList`, `Rebuilds`, `Joins`.
Key theorems: `Built.parent_iff_joins`, `Built.shared`, `Built.rebuilds`,
`Document.lists_toHtml`.
-/
import MarkdownHtml.Proofs.ItemRuns

namespace MarkdownHtml

/-! ### The structure that depths carry -/

/-- Depths that are legal: the first is 0, and each is at most one more than the one before. -/
structure ListItem.Legal (items : List ListItem) : Prop where
  first : ∀ item ∈ items.head?, item.depth = 0
  steps : items.IsChain fun a b => b.depth ≤ a.depth + 1

/-- Items `a` and `b`, at `i` and later at `j`, belong to one list: their depths are equal,
every item between is at least as deep, and all of that depth go on with the kind of `a`. -/
structure SameList (items : List ListItem) (i j : Nat) (a b : ListItem) : Prop where
  depth : b.depth = a.depth
  between : ∀ k c, i < k → k < j → items[k]? = some c → a.depth ≤ c.depth
  kind : ∀ k c, i ≤ k → k ≤ j → items[k]? = some c → c.depth = a.depth →
    a.list.continues c.list = true

/-- The items among elements. -/
def Markup.listItems (elements : List Markup.Element) : List Markup.Element :=
  elements.filter fun e => e.self.isItem

open Markup Html Render

/-- The element is where the item belongs: held by a list, inside one list more than its depth
says, and with what the item holds at its start. -/
structure ListItem.Placed (options : RenderOptions) (item : ListItem) (e : Element) : Prop where
  parent : ∃ list, e.parent = some list ∧ list.isList = true
  depth : e.around.countP Spot.isList = item.depth + 1
  content : marksOf (nodes options [] item.content) <+: e.content

/-- The list `s` starts with item `a`, the one at `i`: it holds that item and none of those
before, and its tag is the one that the kind of the item says. -/
structure StartsWith (items : List ListItem) (xs : List Element) (s : Spot) (i : Nat)
    (a : ListItem) : Prop where
  item : items[i]? = some a
  holds : ∃ x, xs[i]? = some x ∧ x.parent = some s
  first : ∀ (j : Nat) (y : Element), j < i → xs[j]? = some y → y.parent ≠ some s
  tag : (s.name, s.attributes) = a.list.startTag

/-- The elements have the list structure of the items. -/
structure Rebuilds (options : RenderOptions) (items : List ListItem) (elements : List Element) :
    Prop where
  /-- The items among the elements are the items, in order, each in its place. -/
  placed : List.Forall₂ (ListItem.Placed options) items (listItems elements)
  /-- Two items are held by one list where they belong to one. -/
  shared : ∀ i j a b x y, i < j → items[i]? = some a → items[j]? = some b →
    (listItems elements)[i]? = some x → (listItems elements)[j]? = some y →
    (x.parent = y.parent ↔ SameList items i j a b)
  /-- Every list holds items, and has the tag that the first of them says. -/
  opened : ∀ e ∈ elements, e.self.isList = true →
    ∃ i a, StartsWith items (listItems elements) e.self i a

/-! ### Joining a list -/

/-- Whether the item at an index joins a list of `kind` at `depth` that is open before the
first item: those before it leave the list open, and it is of the depth and goes on with the
kind. -/
def Joins (depth : Nat) (kind : ListKind) : List ListItem → Nat → Prop
  | [], _ => False
  | item :: _, 0 => item.depth = depth ∧ kind.continues item.list = true
  | item :: items, j + 1 => depth ≤ item.depth ∧
    (item.depth = depth → kind.continues item.list = true) ∧ Joins depth kind items j

/-- Behind an item that is deeper or goes on with the list, the list is open as before. -/
theorem joins_succ_iff {depth : Nat} {kind : ListKind} {item : ListItem} (hle : depth ≤ item.depth)
    (hkind : item.depth = depth → kind.continues item.list = true) (items : List ListItem)
    (j : Nat) : Joins depth kind (item :: items) (j + 1) ↔ Joins depth kind items j :=
  ⟨fun h => h.2.2, fun h => ⟨hle, hkind, h⟩⟩

/-- An item that is less deep, or of another kind at this depth, ends the list. -/
theorem not_joins_cons {depth : Nat} {kind : ListKind} {item : ListItem} (hle : item.depth ≤ depth)
    (hkind : item.depth = depth → kind.continues item.list = false) (items : List ListItem)
    (j : Nat) : ¬ Joins depth kind (item :: items) j := by
  have hother : item.depth = depth → kind.continues item.list = true → False := by
    intro hdepth hcontinues
    rw [hkind hdepth] at hcontinues
    exact Bool.noConfusion hcontinues
  cases j with
  | zero => exact fun h => hother h.1 h.2
  | succ j =>
    intro h
    have hdepth : item.depth = depth := Nat.le_antisymm hle h.1
    exact hother hdepth (h.2.1 hdepth)

theorem joins_congr {a b : ListKind} (h : a.continues b = true) (depth : Nat) :
    ∀ (items : List ListItem) (j : Nat), Joins depth a items j ↔ Joins depth b items j
  | [], _ => Iff.rfl
  | item :: _, 0 => by rw [Joins, Joins, ListKind.continues_congr h]
  | item :: items, j + 1 => by
    rw [Joins, Joins, ListKind.continues_congr h, joins_congr h depth items j]

/-- Joining, with all items up to the index at once. -/
theorem joins_iff {depth : Nat} {kind : ListKind} {items : List ListItem} {j : Nat}
    {b : ListItem} (hb : items[j]? = some b) :
    Joins depth kind items j ↔ b.depth = depth ∧
      (∀ (k : Nat) (c : ListItem), k < j → items[k]? = some c → depth ≤ c.depth) ∧
      ∀ (k : Nat) (c : ListItem), k ≤ j → items[k]? = some c → c.depth = depth →
        kind.continues c.list = true := by
  induction items generalizing j with
  | nil => simp at hb
  | cons item items ih =>
    cases j with
    | zero =>
      obtain rfl : item = b := by simpa using hb
      rw [Joins]
      constructor
      · rintro ⟨hdepth, hkind⟩
        refine ⟨hdepth, fun k c hk => absurd hk (Nat.not_lt_zero k), fun k c hk hc _ => ?_⟩
        obtain rfl := Nat.le_zero.mp hk
        obtain rfl : item = c := by simpa using hc
        exact hkind
      · rintro ⟨hdepth, -, hkind⟩
        exact ⟨hdepth, hkind 0 item le_rfl rfl hdepth⟩
    | succ j =>
      rw [Joins, ih (by simpa using hb)]
      constructor
      · rintro ⟨hle, hfirst, hdepth, hbetween, hkind⟩
        refine ⟨hdepth, fun k c hk hc => ?_, fun k c hk hc hd => ?_⟩
        · cases k with
          | zero =>
            obtain rfl : item = c := by simpa using hc
            exact hle
          | succ k => exact hbetween k c (by omega) hc
        · cases k with
          | zero =>
            obtain rfl : item = c := by simpa using hc
            exact hfirst hd
          | succ k => exact hkind k c (by omega) hc hd
      · rintro ⟨hdepth, hbetween, hkind⟩
        refine ⟨hbetween 0 item (by omega) rfl, hkind 0 item (by omega) rfl, hdepth, ?_, ?_⟩
        · exact fun k c hk hc => hbetween (k + 1) c (by omega) hc
        · exact fun k c hk hc => hkind (k + 1) c (by omega) hc

/-- The first item and one that joins its list belong to one list. -/
theorem sameList_zero_iff (a : ListItem) {items : List ListItem} {j : Nat} {b : ListItem}
    (hb : items[j]? = some b) :
    SameList (a :: items) 0 (j + 1) a b ↔ Joins a.depth a.list items j := by
  rw [joins_iff hb]
  constructor
  · intro h
    refine ⟨h.depth, fun k c hk hc => ?_, fun k c hk hc => ?_⟩
    · exact h.between (k + 1) c (by omega) (by omega) hc
    · exact h.kind (k + 1) c (by omega) (by omega) hc
  · rintro ⟨hdepth, hbetween, hkind⟩
    refine ⟨hdepth, fun k c hik hkj hc => ?_, fun k c hik hkj hc hd => ?_⟩
    · obtain ⟨k, rfl⟩ : ∃ k', k = k' + 1 := ⟨k - 1, by omega⟩
      exact hbetween k c (by omega) hc
    · cases k with
      | zero =>
        obtain rfl : a = c := by simpa using hc
        exact a.list.continues_self
      | succ k => exact hkind k c (by omega) hc hd

/-- With one more item in front, held by another list. -/
theorem StartsWith.cons {items : List ListItem} {xs : List Element} {s : Spot} {i : Nat}
    {a : ListItem} (h : StartsWith items xs s i a) (item : ListItem) {x : Element}
    (hx : x.parent ≠ some s) : StartsWith (item :: items) (x :: xs) s (i + 1) a where
  item := h.item
  holds := h.holds
  first := by
    intro j y hj hy
    cases j with
    | zero =>
      obtain rfl : x = y := by simpa using hy
      exact hx
    | succ j => exact h.first j y (by omega) hy
  tag := h.tag

theorem sameList_succ_iff (item : ListItem) (items : List ListItem) (i j : Nat)
    (a b : ListItem) :
    SameList (item :: items) (i + 1) (j + 1) a b ↔ SameList items i j a b := by
  constructor
  · intro h
    refine ⟨h.depth, fun k c hik hkj hc => ?_, fun k c hik hkj hc => ?_⟩
    · exact h.between (k + 1) c (by omega) (by omega) hc
    · exact h.kind (k + 1) c (by omega) (by omega) hc
  · intro h
    refine ⟨h.depth, fun k c hik hkj hc => ?_, fun k c hik hkj hc => ?_⟩
    · obtain ⟨k, rfl⟩ : ∃ k', k = k' + 1 := ⟨k - 1, by omega⟩
      exact h.between k c (by omega) (by omega) hc
    · obtain ⟨k, rfl⟩ : ∃ k', k = k' + 1 := ⟨k - 1, by omega⟩
      exact h.kind k c (by omega) (by omega) hc

namespace Render

/-! ### Numbers tell lists apart -/

/-- The lists of the levels, from the outermost on, start one after the other, and before
`number` elements have. -/
structure Ordered (levels : List Level) (number : Nat) : Prop where
  increasing : (levels.map Level.list).Pairwise (· < ·)
  below : ∀ l ∈ levels, l.list < number

namespace Ordered

variable {levels : List Level} {number number' depth : Nat} {l : Level}

theorem take (h : Ordered levels number) (depth : Nat) : Ordered (levels.take depth) number where
  increasing := by
    rw [List.map_take]
    exact h.increasing.sublist (List.take_sublist _ _)
  below m hm := h.below m (List.mem_of_mem_take hm)

/-- The levels behind an item that goes on. -/
theorem goOn (h : Ordered levels number) (hl : levels[depth]? = some l) (item : Nat)
    (hn : number ≤ number') : Ordered (levels.take depth ++ [{ l with item := item }]) number' := by
  have hmem : l ∈ levels := List.mem_of_getElem? hl
  have hsame : (levels.take depth ++ [{ l with item := item }]).map Level.list =
      (levels.take (depth + 1)).map Level.list := by
    rw [List.take_add_one, hl]
    simp
  constructor
  · rw [hsame]
    exact (h.take (depth + 1)).increasing
  · intro m hm
    rcases List.mem_append.mp hm with hm | hm
    · exact (h.below m (List.mem_of_mem_take hm)).trans_le hn
    · obtain rfl := List.mem_singleton.mp hm
      exact (h.below l hmem).trans_le hn

/-- The levels behind an item that starts a list. -/
theorem start (h : Ordered levels number) (depth : Nat) (kind : ListKind) (item : Nat)
    (hn : number < number') :
    Ordered (levels.take depth ++ [⟨number, kind, item⟩]) number' where
  increasing := by
    rw [List.map_append, List.pairwise_append]
    refine ⟨(h.take depth).increasing, List.pairwise_singleton _ _, ?_⟩
    intro m hm k hk
    obtain ⟨l, hl, rfl⟩ := List.mem_map.mp hm
    obtain rfl := List.mem_singleton.mp hk
    exact (h.take depth).below l hl
  below m hm := by
    rcases List.mem_append.mp hm with hm | hm
    · exact ((h.take depth).below m hm).trans hn
    · obtain rfl := List.mem_singleton.mp hm
      exact hn

/-- A level further out has another list. -/
theorem spot_ne (h : Ordered levels number) {d e : Nat} {m : Level} (hd : levels[d]? = some l)
    (he : levels[e]? = some m) (hne : d ≠ e) : l.spot ≠ m.spot := by
  intro hspot
  have hlist : l.list = m.list := congrArg Spot.number hspot
  have hnodup : (levels.map Level.list).Nodup := h.increasing.imp fun hlt => Nat.ne_of_lt hlt
  have hlen : d < (levels.map Level.list).length := by
    rw [List.length_map]
    exact (List.getElem?_eq_some_iff.mp hd).1
  refine hne ((List.getElem?_inj hlen hnodup).mp ?_)
  rw [List.getElem?_map, List.getElem?_map, hd, he, Option.map_some, Option.map_some, hlist]

theorem spot_ne_of_mem_take (h : Ordered levels number) (hl : levels[depth]? = some l) :
    ∀ {d : Nat}, d ≤ depth → ∀ m ∈ levels.take d, m.spot ≠ l.spot := by
  intro d hd m hm
  obtain ⟨e, he⟩ := List.mem_iff_getElem?.mp hm
  rw [List.getElem?_take] at he
  split_ifs at he with hlt
  exact h.spot_ne he hl (by omega)

end Ordered

/-! ### Runs of items -/

@[simp] theorem listItems_itemSpot (number : Nat) (outer : List Spot) (held : List Mark)
    (elements : List Element) :
    listItems (⟨itemSpot number, outer, held⟩ :: elements) =
      ⟨itemSpot number, outer, held⟩ :: listItems elements := rfl

@[simp] theorem listItems_listSpot (number : Nat) (kind : ListKind) (outer : List Spot)
    (held : List Mark) (elements : List Element) :
    listItems (⟨listSpot number kind, outer, held⟩ :: elements) = listItems elements :=
  List.filter_cons_of_neg (by simp)

/-- An item that is held by a list at its depth is in its place. -/
theorem placed_of_depth {options : RenderOptions} {item : ListItem} {levels : List Level}
    {held : List Mark} (hdepth : item.depth ≤ levels.length)
    (hheld : marksOf (nodes options [] item.content) <+: held) (number list : Nat)
    (kind : ListKind) :
    item.Placed options
      ⟨itemSpot number, listSpot list kind :: around (levels.take item.depth), held⟩ where
  parent := ⟨listSpot list kind, rfl, isList_listSpot list kind⟩
  depth := by
    rw [List.countP_cons_of_pos (isList_listSpot list kind), countP_around,
      List.length_take_of_le hdepth]
  content := hheld

/-- The levels further out than the new one stay. -/
theorem getElem?_outer {levels : List Level} {d e : Nat} (m : Level) (hd : d ≤ levels.length)
    (he : e < d) : (levels.take d ++ [m])[e]? = levels[e]? := by
  rw [List.getElem?_append_left (by rwa [List.length_take_of_le hd]), List.getElem?_take_of_lt he]

/-- The new level is at its depth. -/
theorem getElem?_new {levels : List Level} {d : Nat} (m : Level) (hd : d ≤ levels.length) :
    (levels.take d ++ [m])[d]? = some m := by
  have hlength : (levels.take d).length = d := List.length_take_of_le hd
  rw [List.getElem?_append_right hlength.le, hlength, Nat.sub_self]
  rfl

namespace Built

variable {options : RenderOptions} {levels : List Level} {number : Nat} {items : List ListItem}
  {elements : List Element}

/-- Each item is in its place. -/
theorem placed (h : Built options levels number items elements) :
    List.Forall₂ (ListItem.Placed options) items (listItems elements) := by
  induction h with
  | nil => exact List.Forall₂.nil
  | @goOn levels number _ item items elements l held hl _ _ hheld _ ih =>
    have hdepth : item.depth < levels.length := (List.getElem?_eq_some_iff.mp hl).1
    exact List.Forall₂.cons (placed_of_depth hdepth.le hheld number l.list l.kind) ih
  | @start levels number _ item items elements inList held hdepth _ _ hheld _ ih =>
    rw [listItems_listSpot]
    exact List.Forall₂.cons (placed_of_depth hdepth hheld (number + 1) number item.list) ih

/-- A list that is not open, and has started before, gets no item any more. -/
theorem parent_ne (h : Built options levels number items elements) {s : Spot}
    (hs : s.number < number) (hlevels : ∀ l ∈ levels, l.spot ≠ s) :
    ∀ e ∈ listItems elements, e.parent ≠ some s := by
  induction h with
  | nil => simp [listItems]
  | @goOn levels number _ item items elements l held hl _ hn _ _ ih =>
    have hspot : l.spot ≠ s := hlevels l (List.mem_of_getElem? hl)
    have hkept : ∀ m ∈ levels.take item.depth, m.spot ≠ s :=
      fun m hm => hlevels m (List.mem_of_mem_take hm)
    rw [listItems_itemSpot, List.forall_mem_cons]
    refine ⟨fun heq => hspot (Option.some.inj heq), ih (hs.trans hn) ?_⟩
    exact List.forall_mem_append.mpr ⟨hkept, List.forall_mem_singleton.mpr hspot⟩
  | @start levels number _ item items elements inList held _ _ hn _ _ ih =>
    have hspot : listSpot number item.list ≠ s := by
      rintro rfl
      exact absurd hs (Nat.lt_irrefl number)
    have hkept : ∀ m ∈ levels.take item.depth, m.spot ≠ s :=
      fun m hm => hlevels m (List.mem_of_mem_take hm)
    rw [listItems_listSpot, listItems_itemSpot, List.forall_mem_cons]
    refine ⟨fun heq => hspot (Option.some.inj heq), ih (by omega) ?_⟩
    exact List.forall_mem_append.mpr ⟨hkept, List.forall_mem_singleton.mpr hspot⟩

/-- **A list that is open holds the items that join it.** By induction along the run; a list
at `depth` is closed by an item that is less deep, and by one of its own depth that does
not go on with it. -/
theorem parent_iff_joins (h : Built options levels number items elements)
    (ho : Ordered levels number) {depth : Nat} {l : Level} (hl : levels[depth]? = some l)
    {j : Nat} {e : Element} (he : (listItems elements)[j]? = some e) :
    e.parent = some l.spot ↔ Joins depth l.kind items j := by
  induction h generalizing depth l j e with
  | nil => simp [listItems] at he
  | @goOn levels number number' item items elements own held hown hkind hn _ hrest ih =>
    have hbehind := ho.goOn hown number hn.le
    have hlen : item.depth ≤ levels.length := (List.getElem?_eq_some_iff.mp hown).1.le
    rw [listItems_itemSpot] at he
    by_cases hdepth : item.depth = depth
    · -- the item goes on with this list
      subst hdepth
      obtain rfl := Option.some.inj (hown.symm.trans hl)
      cases j with
      | zero =>
        obtain rfl : _ = e := by simpa using he
        exact iff_of_true rfl ⟨rfl, hkind⟩
      | succ j =>
        rw [joins_succ_iff le_rfl fun _ => hkind]
        exact ih hbehind (getElem?_new _ hlen) he
    · have hspot : own.spot ≠ l.spot := ho.spot_ne hown hl hdepth
      cases j with
      | zero =>
        obtain rfl : _ = e := by simpa using he
        exact iff_of_false (fun hparent => hspot (Option.some.inj hparent)) fun h => hdepth h.1
      | succ j =>
        rw [List.getElem?_cons_succ] at he
        by_cases hdeeper : depth < item.depth
        · rw [joins_succ_iff hdeeper.le fun heq => absurd heq hdepth]
          exact ih hbehind ((getElem?_outer _ hlen hdeeper).trans hl) he
        · -- the list is closed
          have hle : item.depth ≤ depth := Nat.le_of_not_lt hdeeper
          have hearlier : l.list < number' := (ho.below l (List.mem_of_getElem? hl)).trans hn
          refine iff_of_false ?_ (not_joins_cons hle (fun heq => absurd heq hdepth) _ _)
          apply hrest.parent_ne hearlier _ e (List.mem_of_getElem? he)
          exact List.forall_mem_append.mpr ⟨ho.spot_ne_of_mem_take hl hle,
            List.forall_mem_singleton.mpr hspot⟩
  | @start levels number number' item items elements inList held hdepth hkind hn _ hrest ih =>
    have hbehind := ho.start item.depth item.list (number + 1) (show number < number' by omega)
    have hbelow : l.list < number := ho.below l (List.mem_of_getElem? hl)
    have hspot : listSpot number item.list ≠ l.spot := by
      intro hspot
      have hlist : number = l.list := congrArg Spot.number hspot
      omega
    rw [listItems_listSpot, listItems_itemSpot] at he
    by_cases hdeeper : depth < item.depth
    · cases j with
      | zero =>
        obtain rfl : _ = e := by simpa using he
        exact iff_of_false (fun hparent => hspot (Option.some.inj hparent)) fun h => by
          have heq : item.depth = depth := h.1
          omega
      | succ j =>
        rw [List.getElem?_cons_succ] at he
        rw [joins_succ_iff hdeeper.le fun heq => by omega]
        exact ih hbehind ((getElem?_outer _ hdepth hdeeper).trans hl) he
    · -- the list is closed, by a shallower item or by one of another kind
      have hle : item.depth ≤ depth := Nat.le_of_not_lt hdeeper
      have hother : item.depth = depth → l.kind.continues item.list = false := by
        rintro rfl
        exact hkind l hl
      refine iff_of_false ?_ (not_joins_cons hle hother _ _)
      have hnone : ∀ x ∈ listItems elements, x.parent ≠ some l.spot := by
        apply hrest.parent_ne (hbelow.trans (by omega))
        exact List.forall_mem_append.mpr ⟨ho.spot_ne_of_mem_take hl hle,
          List.forall_mem_singleton.mpr hspot⟩
      rcases List.mem_cons.mp (List.mem_of_getElem? he) with rfl | hmem
      · exact fun hparent => hspot (Option.some.inj hparent)
      · exact hnone e hmem

/-- **Items are held by one list where they belong to one.** Up to the first of the two the
run is followed; behind it, its list is open. -/
theorem shared (h : Built options levels number items elements) (ho : Ordered levels number)
    {i j : Nat} {a b : ListItem} {x y : Element} (hij : i < j) (ha : items[i]? = some a)
    (hb : items[j]? = some b) (hx : (listItems elements)[i]? = some x)
    (hy : (listItems elements)[j]? = some y) :
    x.parent = y.parent ↔ SameList items i j a b := by
  induction h generalizing i j with
  | nil => simp at ha
  | @goOn levels number number' item items elements own held hown hkind hn _ hrest ih =>
    have hbehind := ho.goOn hown number hn.le
    have hlen : item.depth ≤ levels.length := (List.getElem?_eq_some_iff.mp hown).1.le
    obtain ⟨j, rfl⟩ : ∃ j', j = j' + 1 := ⟨j - 1, by omega⟩
    rw [listItems_itemSpot] at hx hy
    rw [List.getElem?_cons_succ] at hb hy
    cases i with
    | zero =>
      obtain rfl : item = a := by simpa using ha
      obtain rfl : _ = x := by simpa using hx
      have hjoins : y.parent = some own.spot ↔ Joins item.depth own.kind items j :=
        hrest.parent_iff_joins hbehind (getElem?_new _ hlen) hy
      rw [sameList_zero_iff item hb, ← joins_congr hkind, ← hjoins]
      exact eq_comm
    | succ i =>
      rw [List.getElem?_cons_succ] at ha hx
      rw [sameList_succ_iff]
      exact ih hbehind (by omega) ha hb hx hy
  | @start levels number number' item items elements inList held hdepth hkind hn _ hrest ih =>
    have hbehind := ho.start item.depth item.list (number + 1) (show number < number' by omega)
    obtain ⟨j, rfl⟩ : ∃ j', j = j' + 1 := ⟨j - 1, by omega⟩
    rw [listItems_listSpot, listItems_itemSpot] at hx hy
    rw [List.getElem?_cons_succ] at hb hy
    cases i with
    | zero =>
      obtain rfl : item = a := by simpa using ha
      obtain rfl : _ = x := by simpa using hx
      have hjoins : y.parent = some (listSpot number item.list) ↔
          Joins item.depth item.list items j :=
        hrest.parent_iff_joins hbehind (getElem?_new _ hdepth) hy
      rw [sameList_zero_iff item hb, ← hjoins]
      exact eq_comm
    | succ i =>
      rw [List.getElem?_cons_succ] at ha hx
      rw [sameList_succ_iff]
      exact ih hbehind (by omega) ha hb hx hy

/-- Every list that starts does so with an item, behind the elements that have started. -/
theorem opened (h : Built options levels number items elements) (ho : Ordered levels number)
    {e : Element} (he : e ∈ elements) (hlist : e.self.isList = true) :
    number ≤ e.self.number ∧ ∃ i a, StartsWith items (listItems elements) e.self i a := by
  induction h with
  | nil => simp at he
  | @goOn levels number number' item items elements own held hown hkind hn _ hrest ih =>
    rcases List.mem_cons.mp he with rfl | he
    · rw [isList_itemSpot] at hlist
      exact Bool.noConfusion hlist
    · obtain ⟨hlater, i, a, hstarts⟩ := ih (ho.goOn hown number hn.le) he
      have hbelow : own.list < number := ho.below own (List.mem_of_getElem? hown)
      have hother : own.spot ≠ e.self := by
        intro hspot
        have hnumber : own.list = e.self.number := congrArg Spot.number hspot
        omega
      refine ⟨by omega, i + 1, a, ?_⟩
      rw [listItems_itemSpot]
      exact hstarts.cons item fun hparent => hother (Option.some.inj hparent)
  | @start levels number number' item items elements inList held hdepth hkind hn _ hrest ih =>
    rw [listItems_listSpot, listItems_itemSpot]
    rcases List.mem_cons.mp he with rfl | he
    · refine ⟨le_rfl, 0, item, rfl, ⟨_, rfl, rfl⟩, ?_, rfl⟩
      exact fun j y hj => absurd hj (Nat.not_lt_zero j)
    rcases List.mem_cons.mp he with rfl | he
    · rw [isList_itemSpot] at hlist
      exact Bool.noConfusion hlist
    · obtain ⟨hlater, i, a, hstarts⟩ :=
        ih (ho.start item.depth item.list (number + 1) (by omega)) he
      have hother : listSpot number item.list ≠ e.self := by
        intro hspot
        have hnumber : number = e.self.number := congrArg Spot.number hspot
        omega
      refine ⟨by omega, i + 1, a, ?_⟩
      exact hstarts.cons item fun hparent => hother (Option.some.inj hparent)

/-- What is built has the structure of its items. -/
theorem rebuilds (h : Built options [] number items elements) :
    Rebuilds options items elements where
  placed := h.placed
  shared _ _ _ _ _ _ hij ha hb hx hy := h.shared ⟨List.Pairwise.nil, by simp⟩ hij ha hb hx hy
  opened _ he hlist := (h.opened ⟨List.Pairwise.nil, by simp⟩ he hlist).2

end Built

end Render

/-! ### Documents -/

/-- Only items and lists among the elements count. -/
theorem rebuilds_filter {options : RenderOptions} {items : List ListItem}
    {elements : List Element}
    (h : Rebuilds options items
      (elements.filter fun e => e.self.isItem || e.self.isList)) :
    Rebuilds options items elements := by
  have hitems : listItems (elements.filter fun e => e.self.isItem || e.self.isList) =
      listItems elements := by
    rw [listItems, listItems, List.filter_filter]
    refine List.filter_congr fun e _ => ?_
    cases e.self.isItem <;> rfl
  obtain ⟨hplaced, hshared, hopened⟩ := h
  rw [hitems] at hplaced hshared hopened
  refine ⟨hplaced, hshared, fun e he hlist => hopened e ?_ hlist⟩
  rw [List.mem_filter]
  exact ⟨he, by simp [hlist]⟩

/-- The HTML of items, read back as a tree, has their list structure. -/
theorem exists_rebuilds {items : List ListItem} (hlegal : ListItem.Legal items)
    (options : RenderOptions) :
    ∃ marks forest,
      scan (Document.toHtml (items.map ListItem.block) options).toList = some marks ∧
      tree? marks = some forest ∧ Rebuilds options items (elements forest) := by
  have hnested : openAfter [] (marksOf (chunk options [] (items.map ListItem.block))) = some [] :=
    (opens_blocks options (items.map ListItem.block) (w := {}) Opens.nil).openAfter
  obtain ⟨forest, hread, hmarks⟩ := exists_tree? hnested
  refine ⟨_, forest, Document.scan_toHtml _ options, hread, rebuilds_filter ?_⟩
  have hempty : (⟨[], []⟩ : Writer).lists = [].reverse := rfl
  have hfirst : ∀ item ∈ items.head?, item.depth ≤ ([] : List ListKind).length :=
    fun item hitem => (hlegal.first item hitem).le
  obtain ⟨marks, hwritten, hbuilt⟩ := built_blocks options items hempty hfirst hlegal.steps
  have hall : marksOf (chunk options [] (items.map ListItem.block)) = marks := hwritten
  rw [elements_eq_openings, hmarks, hall]
  exact (hbuilt [] 0 rfl).rebuilds

/-- **Lists are rebuilt from depths.** The HTML of a run of items with legal depths, read as a
tree, has exactly the items of the run, in order, each inside as many lists as its depth
says and with its content at the start; two of them are held by one list exactly where the
depths and the kinds between them say so; and every list has the tag of its first item. The
same is written for the run wherever it stands among blocks that are no items. -/
theorem Document.lists_toHtml (items : List ListItem) (hlegal : ListItem.Legal items)
    (options : RenderOptions) :
    (∃ marks forest,
      scan (Document.toHtml (items.map ListItem.block) options).toList = some marks ∧
      tree? marks = some forest ∧ Rebuilds options items (elements forest)) ∧
    ∀ (out : List Piece) (before after : Document),
      (∀ b ∈ before.getLast?, b.isItem = false) → (∀ b ∈ after.head?, b.isItem = false) →
      chunk options out (before ++ items.map ListItem.block ++ after) =
        chunk options (chunk options [] (items.map ListItem.block) ++ chunk options out before)
          after :=
  ⟨exists_rebuilds hlegal options,
    fun out _ _ hbefore hafter => chunk_among options items out hbefore hafter⟩

/-- Three levels, a step back over two of them, another kind at an inner level, and a list
that is gone on with behind a deeper one. -/
theorem Document.lists_toHtml_uneven :
    ∃ marks forest,
      scan (Document.toHtml (List.map ListItem.block
        [⟨.bullet '-', 0, [.text "a"]⟩, ⟨.ordered 3 '.', 1, [.emphasis [.text "b"]]⟩,
          ⟨.bullet '*', 2, []⟩, ⟨.ordered 7 '.', 1, [.text "c"]⟩, ⟨.ordered 1 ')', 1, []⟩,
          ⟨.bullet '-', 0, [.text "d"]⟩, ⟨.bullet '+', 1, []⟩]) {}).toList = some marks ∧
      tree? marks = some forest ∧
      Rebuilds {}
        [⟨.bullet '-', 0, [.text "a"]⟩, ⟨.ordered 3 '.', 1, [.emphasis [.text "b"]]⟩,
          ⟨.bullet '*', 2, []⟩, ⟨.ordered 7 '.', 1, [.text "c"]⟩, ⟨.ordered 1 ')', 1, []⟩,
          ⟨.bullet '-', 0, [.text "d"]⟩, ⟨.bullet '+', 1, []⟩] (elements forest) :=
  (Document.lists_toHtml _ ⟨by simp, by simp⟩ {}).1

end MarkdownHtml
