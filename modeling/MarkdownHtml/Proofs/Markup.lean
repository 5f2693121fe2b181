/-
# Scanning HTML for tags

A reader that knows nothing of documents scans HTML character by character (`scan`).
Between tags it takes every character as it is, and refuses a `>`. At a `<` it expects
an end tag or a start tag: a name, attributes with their values in double quotes, and
`>` or ` />`. Whatever else comes, the scan fails. What it finds are marks, on which
one can ask whether every start has its stop (`openAfter`), whether all names are known
(`Mark.known`), and what is left of them without the characters and the attribute
values (`skeleton`). Entities are read back by `decode`.

Pieces that are written and scanned come back as they are, with their texts and values
escaped (`scan_written`); escaped text has no tags in it, only the four entities, and
is decoded to what it was.

Key definitions: `Mark`, `scan`, `openAfter`, `Mark.known`, `skeleton`, `OnlyEntities`,
`decode`, `Html.Piece.written`.
Key theorems: `toList_write`, `scan_written`, `onlyEntities_written`,
`decode_text`, `decode_value`.
-/
import MarkdownHtml.Html.Piece
import Mathlib

namespace MarkdownHtml
namespace Markup

/-! ### Marks -/

/-- What a scan finds: tags with their attributes, values as they are written, and the
characters between tags. -/
inductive Mark where
  | start (name : List Char) (attributes : List (List Char × List Char))
  | stop (name : List Char)
  /-- A tag that closes itself. -/
  | void (name : List Char) (attributes : List (List Char × List Char))
  | char (c : Char)
deriving Repr, DecidableEq

/-- The attributes of a mark. -/
def Mark.attributes : Mark → List (List Char × List Char)
  | .start _ attributes => attributes
  | .void _ attributes => attributes
  | _ => []

/-- Where a scan stands. Inside a tag it keeps the name and the attributes so far. -/
inductive Place where
  | text
  /-- Behind a `<`. -/
  | opened
  | stopName (name : List Char)
  | startName (name : List Char)
  /-- Behind a space in a start tag. -/
  | space (name : List Char) (attributes : List (List Char × List Char))
  | attribute (name : List Char) (attributes : List (List Char × List Char)) (key : List Char)
  /-- Behind the `=` of an attribute. -/
  | equals (name : List Char) (attributes : List (List Char × List Char)) (key : List Char)
  | value (name : List Char) (attributes : List (List Char × List Char)) (key : List Char)
    (value : List Char)
  /-- Behind the quote that ends a value. -/
  | valueEnd (name : List Char) (attributes : List (List Char × List Char))
  /-- Behind the slash that closes a tag. -/
  | slash (name : List Char) (attributes : List (List Char × List Char))

/-- The characters of names. -/
def isNameChar (c : Char) : Bool := c.isAlphanum

/-- Takes one character: where the scan stands then, and what it has found. -/
def next : Place → Char → Option (Place × List Mark)
  | .text, c =>
    if c = '<' then some (.opened, [])
    else if c = '>' then none
    else some (.text, [.char c])
  | .opened, c =>
    if c = '/' then some (.stopName [], [])
    else if isNameChar c then some (.startName [c], [])
    else none
  | .stopName name, c =>
    if isNameChar c then some (.stopName (name ++ [c]), [])
    else if c = '>' ∧ name ≠ [] then some (.text, [.stop name])
    else none
  | .startName name, c =>
    if isNameChar c then some (.startName (name ++ [c]), [])
    else if c = ' ' then some (.space name [], [])
    else if c = '>' then some (.text, [.start name []])
    else none
  | .space name attributes, c =>
    if c = '/' then some (.slash name attributes, [])
    else if isNameChar c then some (.attribute name attributes [c], [])
    else none
  | .attribute name attributes key, c =>
    if isNameChar c then some (.attribute name attributes (key ++ [c]), [])
    else if c = '=' then some (.equals name attributes key, [])
    else none
  | .equals name attributes key, c =>
    if c = '"' then some (.value name attributes key [], []) else none
  | .value name attributes key value, c =>
    if c = '"' then some (.valueEnd name (attributes ++ [(key, value)]), [])
    else some (.value name attributes key (value ++ [c]), [])
  | .valueEnd name attributes, c =>
    if c = ' ' then some (.space name attributes, [])
    else if c = '>' then some (.text, [.start name attributes])
    else none
  | .slash name attributes, c =>
    if c = '>' then some (.text, [.void name attributes]) else none

/-- Scans from a place on; the end has to come between tags. -/
def scanFrom : Place → List Char → Option (List Mark)
  | .text, [] => some []
  | _, [] => none
  | place, c :: rest =>
    match next place c with
    | none => none
    | some (place, marks) => (scanFrom place rest).map (marks ++ ·)

/-- All marks of a text, if it is well-formed. -/
def scan (s : List Char) : Option (List Mark) := scanFrom .text s

/-! ### Questions about marks -/

/-- The tags that are open behind the marks, innermost first, where `outer` are open before
them; `none` if a tag is closed that is not the innermost. -/
def openAfter (outer : List (List Char)) : List Mark → Option (List (List Char))
  | [] => some outer
  | .start name _ :: marks => openAfter (name :: outer) marks
  | .stop name :: marks =>
    match outer with
    | innermost :: outer => if innermost = name then openAfter outer marks else none
    | [] => none
  | _ :: marks => openAfter outer marks

/-- The names of elements with content, headings aside. -/
def pairedNames : List String :=
  ["p", "pre", "code", "blockquote", "ul", "ol", "li", "em", "strong", "a"]

/-- The names of elements without content. -/
def voidNames : List String := ["hr", "br", "img"]

/-- Whether the name is that of a heading: an `h` and its level. -/
def isHeadingName : List Char → Bool
  | 'h' :: level => !level.isEmpty && level.all Char.isDigit
  | _ => false

/-- Whether the mark is a character or a tag with a known name of its sort. -/
def Mark.known : Mark → Bool
  | .start name _ => (pairedNames.map String.toList).contains name || isHeadingName name
  | .stop name => (pairedNames.map String.toList).contains name || isHeadingName name
  | .void name _ => (voidNames.map String.toList).contains name
  | .char _ => true

/-- A tag without the values of its attributes; no mark if it is a character. -/
def Mark.outline : Mark → Option Mark
  | .start name attributes => some (.start name (attributes.map fun a => (a.1, [])))
  | .stop name => some (.stop name)
  | .void name attributes => some (.void name (attributes.map fun a => (a.1, [])))
  | .char _ => none

/-- The tags in order, with the names of their attributes. -/
def skeleton (marks : List Mark) : List Mark := marks.filterMap Mark.outline

/-! ### Entities -/

/-- What follows the `&` of an entity. -/
def entities : List (List Char) :=
  [['a', 'm', 'p', ';'], ['l', 't', ';'], ['g', 't', ';'], ['q', 'u', 'o', 't', ';']]

/-- Every `&` starts one of the four entities. -/
def OnlyEntities (s : List Char) : Prop :=
  ∀ a b, s = a ++ '&' :: b → ∃ e ∈ entities, e <+: b

/-- Reads entities back. -/
def decode : List Char → List Char
  | [] => []
  | '&' :: 'a' :: 'm' :: 'p' :: ';' :: rest => '&' :: decode rest
  | '&' :: 'l' :: 't' :: ';' :: rest => '<' :: decode rest
  | '&' :: 'g' :: 't' :: ';' :: rest => '>' :: decode rest
  | '&' :: 'q' :: 'u' :: 'o' :: 't' :: ';' :: rest => '"' :: decode rest
  | c :: rest => c :: decode rest

theorem decode_cons_of_ne {c : Char} (h : c ≠ '&') (rest : List Char) :
    decode (c :: rest) = c :: decode rest := by
  rw [decode]
  all_goals simp_all

theorem decode_textEntity (c : Char) (rest : List Char) :
    decode (Html.textEntity c ++ rest) = c :: decode rest := by
  unfold Html.textEntity
  split_ifs with h₁ h₂ h₃
  · obtain rfl := eq_of_beq h₁
    rfl
  · obtain rfl := eq_of_beq h₂
    rfl
  · obtain rfl := eq_of_beq h₃
    rfl
  · exact decode_cons_of_ne (by simpa using h₁) rest

theorem decode_attributeEntity (c : Char) (rest : List Char) :
    decode (Html.attributeEntity c ++ rest) = c :: decode rest := by
  unfold Html.attributeEntity
  split_ifs with h
  · obtain rfl := eq_of_beq h
    rfl
  · exact decode_textEntity c rest

/-- Characters that are written one by one and read back one by one. -/
theorem decode_flatMap {f : Char → List Char}
    (hf : ∀ c rest, decode (f c ++ rest) = c :: decode rest) (s : List Char) :
    decode (s.flatMap f) = s := by
  induction s with
  | nil => rfl
  | cons c s ih => rw [List.flatMap_cons, hf, ih]

/-- A text is decoded to what it was. -/
theorem decode_text (s : String) : decode (s.toList.flatMap Html.textEntity) = s.toList :=
  decode_flatMap decode_textEntity s.toList

/-- So is the value of an attribute. -/
theorem decode_value (s : String) : decode (s.toList.flatMap Html.attributeEntity) = s.toList :=
  decode_flatMap decode_attributeEntity s.toList

theorem onlyEntities_nil : OnlyEntities [] := fun a b h => absurd h (by simp)

theorem OnlyEntities.append {s t : List Char} (hs : OnlyEntities s) (ht : OnlyEntities t) :
    OnlyEntities (s ++ t) := by
  intro a b h
  rcases List.append_eq_append_iff.mp h with ⟨u, rfl, hu⟩ | ⟨u, rfl, hu⟩
  · exact ht u b hu
  · cases u with
    | nil => exact ht [] b (by simpa using hu.symm)
    | cons c u =>
      -- the entity ends before the second text starts
      obtain ⟨rfl, rfl⟩ := List.cons.inj hu
      obtain ⟨e, he, hp⟩ := hs a u rfl
      exact ⟨e, he, hp.trans (List.prefix_append u t)⟩

theorem onlyEntities_of_clear {s : List Char} (h : '&' ∉ s) : OnlyEntities s := by
  intro a b hs
  exact absurd (hs ▸ List.mem_append_right a List.mem_cons_self) h

theorem onlyEntities_flatMap {α : Type} {f : α → List Char} {xs : List α}
    (h : ∀ x ∈ xs, OnlyEntities (f x)) : OnlyEntities (xs.flatMap f) := by
  induction xs with
  | nil => exact onlyEntities_nil
  | cons x xs ih =>
    rw [List.flatMap_cons]
    exact (h x List.mem_cons_self).append (ih fun y hy => h y (List.mem_cons_of_mem _ hy))

/-- One entity by itself. -/
theorem onlyEntities_entity {e : List Char} (he : e ∈ entities) : OnlyEntities ('&' :: e) := by
  have hclear : '&' ∉ e := by
    revert e
    decide
  intro a b h
  cases a with
  | nil =>
    obtain ⟨-, rfl⟩ := List.cons.inj h
    exact ⟨e, he, List.prefix_refl e⟩
  | cons c a =>
    obtain ⟨-, rfl⟩ := List.cons.inj h
    exact absurd (List.mem_append_right a List.mem_cons_self) hclear

theorem onlyEntities_textEntity (c : Char) : OnlyEntities (Html.textEntity c) := by
  unfold Html.textEntity
  split_ifs with h₁ h₂ h₃
  · exact onlyEntities_entity (by simp [entities])
  · exact onlyEntities_entity (by simp [entities])
  · exact onlyEntities_entity (by simp [entities])
  · refine onlyEntities_of_clear fun hm => ?_
    obtain rfl := List.mem_singleton.mp hm
    exact h₁ rfl

theorem onlyEntities_attributeEntity (c : Char) : OnlyEntities (Html.attributeEntity c) := by
  unfold Html.attributeEntity
  split_ifs
  · exact onlyEntities_entity (by simp [entities])
  · exact onlyEntities_textEntity c

/-- Characters that could be taken for markup. -/
theorem textEntity_clear (c : Char) : ∀ d ∈ Html.textEntity c, d ≠ '<' ∧ d ≠ '>' := by
  unfold Html.textEntity
  split_ifs with h₁ h₂ h₃
  · simp
  · simp
  · simp
  · simp_all

theorem attributeEntity_clear (c : Char) :
    ∀ d ∈ Html.attributeEntity c, d ≠ '"' ∧ d ≠ '<' ∧ d ≠ '>' := by
  unfold Html.attributeEntity
  split_ifs with h
  · simp
  · intro d hd
    refine ⟨?_, textEntity_clear c d hd⟩
    rintro rfl
    revert hd
    unfold Html.textEntity
    split_ifs
    · decide
    · decide
    · decide
    · intro hm
      obtain rfl := List.mem_singleton.mp hm
      exact h rfl

end Markup

/-! ### Pieces as they are written -/

namespace Html

/-- The characters of an attribute, with the space before it. -/
def Attribute.written (a : Attribute) : List Char :=
  ' ' :: a.name.text.toList ++ '=' :: '"' :: a.value.toList.flatMap attributeEntity ++ ['"']

/-- The characters of a piece. -/
def Piece.written : Piece → List Char
  | .start tag attributes =>
    '<' :: tag.name.toList ++ attributes.flatMap Attribute.written ++ ['>']
  | .stop tag => '<' :: '/' :: tag.name.toList ++ ['>']
  | .void tag attributes =>
    '<' :: tag.name.toList ++ attributes.flatMap Attribute.written ++ [' ', '/', '>']
  | .text s => s.toList.flatMap textEntity
  | .lineFeed => ['\n']

theorem toList_foldl_attributes (out : String) (attributes : List Attribute) :
    (attributes.foldl Attribute.appendTo out).toList =
      out.toList ++ attributes.flatMap Attribute.written := by
  induction attributes generalizing out with
  | nil => simp
  | cons a attributes ih =>
    rw [List.foldl_cons, ih]
    simp [Attribute.appendTo, Attribute.written, escapeAttribute]

theorem toList_appendTo (out : String) (p : Piece) :
    (p.appendTo out).toList = out.toList ++ p.written := by
  cases p with
  | start tag attributes =>
    simp [Piece.appendTo, Piece.written, toList_foldl_attributes]
  | stop tag => simp [Piece.appendTo, Piece.written]
  | void tag attributes =>
    simp [Piece.appendTo, Piece.written, toList_foldl_attributes]
  | text s => simp [Piece.appendTo, Piece.written, escapeText]
  | lineFeed => simp [Piece.appendTo, Piece.written]

/-- Output is its pieces, one behind the other. -/
theorem toList_write (pieces : List Piece) :
    (write pieces).toList = pieces.flatMap Piece.written := by
  have hfold : ∀ (ps : List Piece) (out : String),
      (ps.foldl Piece.appendTo out).toList = out.toList ++ ps.flatMap Piece.written := by
    intro ps
    induction ps with
    | nil => simp
    | cons p ps ih =>
      intro out
      rw [List.foldl_cons, ih, toList_appendTo, List.flatMap_cons, List.append_assoc]
  rw [write, hfold]
  rfl

/-! ### Scanning what is written -/

/-- An attribute as a scan finds it. -/
def Attribute.mark (a : Attribute) : List Char × List Char :=
  (a.name.text.toList, a.value.toList.flatMap attributeEntity)

/-- The marks of a piece. -/
def Piece.marks : Piece → List Markup.Mark
  | .start tag attributes => [.start tag.name.toList (attributes.map Attribute.mark)]
  | .stop tag => [.stop tag.name.toList]
  | .void tag attributes => [.void tag.name.toList (attributes.map Attribute.mark)]
  | .text s => (s.toList.flatMap textEntity).map .char
  | .lineFeed => [.char '\n']

/-- Numbers are written with digits. -/
theorem isDigit_of_mem_toString {n : Nat} : ∀ c ∈ (toString n).toList, c.isDigit = true := by
  intro c hc
  rw [Nat.toString_eq_ofList_toDigits, String.toList_ofList] at hc
  exact Nat.isDigit_of_mem_toDigits (by decide) (by decide) hc

/-- Names are not empty and made of letters and digits. -/
theorem Tag.name_chars (t : Tag) :
    ∃ c rest, t.name.toList = c :: rest ∧ ∀ d ∈ c :: rest, Markup.isNameChar d = true := by
  cases t with
  | heading level =>
    refine ⟨'h', (toString level).toList, ?_, fun d hd => ?_⟩
    · simp [Tag.name]
    · rcases List.mem_cons.mp hd with rfl | hd
      · decide
      · simp [Markup.isNameChar, Char.isAlphanum, isDigit_of_mem_toString d hd]
  | _ => exact ⟨_, _, rfl, List.all_eq_true.mp rfl⟩

theorem AttributeName.text_chars (n : AttributeName) :
    ∃ c rest, n.text.toList = c :: rest ∧ ∀ d ∈ c :: rest, Markup.isNameChar d = true := by
  cases n <;> exact ⟨_, _, rfl, List.all_eq_true.mp rfl⟩

end Html

namespace Markup

open Html

theorem scanFrom_cons {place place' : Place} {c : Char} {marks : List Mark}
    (h : next place c = some (place', marks)) (rest : List Char) :
    scanFrom place (c :: rest) = (scanFrom place' rest).map (marks ++ ·) := by
  cases place <;> simp only [scanFrom, h]

/-- A step that finds nothing yet. -/
theorem scanFrom_cons_nil {place place' : Place} {c : Char}
    (h : next place c = some (place', [])) (rest : List Char) :
    scanFrom place (c :: rest) = scanFrom place' rest := by
  rw [scanFrom_cons h]
  simp

/-- Characters that are taken one by one into what the place keeps. -/
theorem scanFrom_word {place : List Char → Place} {p : Char → Prop}
    (h : ∀ w c, p c → next (place w) c = some (place (w ++ [c]), [])) {word : List Char}
    (hw : ∀ c ∈ word, p c) (w rest : List Char) :
    scanFrom (place w) (word ++ rest) = scanFrom (place (w ++ word)) rest := by
  induction word generalizing w with
  | nil => simp
  | cons c word ih =>
    rw [List.cons_append, scanFrom_cons_nil (h w c (hw c List.mem_cons_self)),
      ih fun d hd => hw d (List.mem_cons_of_mem _ hd)]
    simp

theorem scanFrom_text {s : List Char} (h : ∀ c ∈ s, c ≠ '<' ∧ c ≠ '>') (rest : List Char) :
    scanFrom .text (s ++ rest) = (scanFrom .text rest).map (s.map .char ++ ·) := by
  induction s with
  | nil => simp
  | cons c s ih =>
    obtain ⟨h₁, h₂⟩ := h c List.mem_cons_self
    have hc : next .text c = some (.text, [.char c]) := by simp [next, h₁, h₂]
    rw [List.cons_append, scanFrom_cons hc, ih fun d hd => h d (List.mem_cons_of_mem _ hd)]
    simp [Option.map_map, Function.comp_def]

/-- One attribute behind its space. -/
theorem scanFrom_attribute (name : List Char) (before : List (List Char × List Char))
    (a : Attribute) (rest : List Char) :
    scanFrom (.valueEnd name before) (a.written ++ rest) =
      scanFrom (.valueEnd name (before ++ [a.mark])) rest := by
  obtain ⟨c, key, hkey, hchars⟩ := a.name.text_chars
  have hslash : c ≠ '/' := by
    rintro rfl
    exact absurd (hchars '/' List.mem_cons_self) (by decide)
  have hfirst : next (.space name before) c = some (.attribute name before [c], []) := by
    simp [next, hslash, hchars c List.mem_cons_self]
  have hkeys : ∀ w d, isNameChar d = true → next (.attribute name before w) d =
      some (.attribute name before (w ++ [d]), []) := by
    intro w d hd
    simp [next, hd]
  have hvalues : ∀ w d, d ≠ '"' → next (.value name before (c :: key) w) d =
      some (.value name before (c :: key) (w ++ [d]), []) := by
    intro w d hd
    simp [next, hd]
  have hclear : ∀ d ∈ a.value.toList.flatMap attributeEntity, d ≠ '"' := by
    intro d hd
    obtain ⟨e, -, hd⟩ := List.mem_flatMap.mp hd
    exact (attributeEntity_clear e d hd).1
  unfold Attribute.written Attribute.mark
  rw [hkey]
  simp only [List.cons_append, List.append_assoc, List.nil_append]
  rw [scanFrom_cons_nil rfl, scanFrom_cons_nil hfirst,
    scanFrom_word hkeys (fun d hd => hchars d (List.mem_cons_of_mem _ hd)),
    List.singleton_append, scanFrom_cons_nil rfl, scanFrom_cons_nil rfl,
    scanFrom_word hvalues hclear]
  exact scanFrom_cons_nil rfl _

theorem scanFrom_attributes (name : List Char) (before : List (List Char × List Char))
    (attributes : List Attribute) (rest : List Char) :
    scanFrom (.valueEnd name before) (attributes.flatMap Attribute.written ++ rest) =
      scanFrom (.valueEnd name (before ++ attributes.map Attribute.mark)) rest := by
  induction attributes generalizing before with
  | nil => simp
  | cons a attributes ih =>
    rw [List.flatMap_cons, List.append_assoc, scanFrom_attribute, ih]
    simp

/-- The name of a start tag, with the attributes behind it. -/
theorem scanFrom_start (t : Tag) (attributes : List Attribute) {c : Char} (rest : List Char)
    (hc : c = ' ' ∨ c = '>') :
    scanFrom .text ('<' :: t.name.toList ++ attributes.flatMap Attribute.written ++ c :: rest) =
      scanFrom (.valueEnd t.name.toList (attributes.map Attribute.mark)) (c :: rest) := by
  obtain ⟨first, name, hname, hchars⟩ := t.name_chars
  have hslash : first ≠ '/' := by
    rintro rfl
    exact absurd (hchars '/' List.mem_cons_self) (by decide)
  have hfirst : next .opened first = some (.startName [first], []) := by
    simp [next, hslash, hchars first List.mem_cons_self]
  have hnames : ∀ w d, isNameChar d = true → next (.startName w) d =
      some (.startName (w ++ [d]), []) := by
    intro w d hd
    simp [next, hd]
  -- behind its name a tag without attributes yet is like one behind an attribute
  have hend : ∀ {d : Char}, d = ' ' ∨ d = '>' →
      next (.startName (first :: name)) d = next (.valueEnd (first :: name) []) d := by
    rintro d (rfl | rfl) <;> rfl
  have hsame : ∀ {d : Char} (tail : List Char), d = ' ' ∨ d = '>' →
      scanFrom (.startName (first :: name)) (d :: tail) =
        scanFrom (.valueEnd (first :: name) []) (d :: tail) := by
    intro d tail hd
    simp only [scanFrom, hend hd]
  rw [hname]
  simp only [List.cons_append, List.append_assoc]
  rw [scanFrom_cons_nil rfl, scanFrom_cons_nil hfirst,
    scanFrom_word hnames (fun d hd => hchars d (List.mem_cons_of_mem _ hd))]
  have hattributes := scanFrom_attributes (first :: name) [] attributes (c :: rest)
  cases attributes with
  | nil => exact hsame rest hc
  | cons a attributes =>
    rw [List.flatMap_cons, List.append_assoc] at hattributes ⊢
    exact (hsame _ (.inl rfl)).trans hattributes

/-- A piece in front of anything is scanned as its marks. -/
theorem scanFrom_written (p : Piece) (rest : List Char) :
    scanFrom .text (p.written ++ rest) = (scanFrom .text rest).map (p.marks ++ ·) := by
  cases p with
  | start tag attributes =>
    have h := scanFrom_start tag attributes rest (.inr rfl)
    simp only [Piece.written, List.append_assoc, List.cons_append, List.nil_append] at h ⊢
    rw [h]
    exact scanFrom_cons rfl rest
  | stop tag =>
    obtain ⟨first, name, hname, hchars⟩ := tag.name_chars
    have hnames : ∀ w d, isNameChar d = true → next (.stopName w) d =
        some (.stopName (w ++ [d]), []) := by
      intro w d hd
      simp [next, hd]
    have hend : next (.stopName (first :: name)) '>' = some (.text, [.stop (first :: name)]) := by
      simp [next, show isNameChar '>' = false by decide]
    simp only [Piece.written, Piece.marks, hname, List.append_assoc, List.cons_append]
    rw [scanFrom_cons_nil rfl, scanFrom_cons_nil rfl, ← List.cons_append,
      scanFrom_word hnames hchars]
    exact scanFrom_cons hend rest
  | void tag attributes =>
    have h := scanFrom_start tag attributes ('/' :: '>' :: rest) (.inl rfl)
    simp only [Piece.written, List.append_assoc, List.cons_append, List.nil_append] at h ⊢
    rw [h, scanFrom_cons_nil rfl, scanFrom_cons_nil rfl]
    exact scanFrom_cons rfl rest
  | text s =>
    refine scanFrom_text (fun d hd => ?_) rest
    obtain ⟨c, -, hd⟩ := List.mem_flatMap.mp hd
    exact textEntity_clear c d hd
  | lineFeed => exact scanFrom_cons rfl rest

/-- **What is written is scanned as it was meant.** -/
theorem scan_written (pieces : List Piece) :
    scan (pieces.flatMap Piece.written) = some (pieces.flatMap Piece.marks) := by
  induction pieces with
  | nil => rfl
  | cons p pieces ih =>
    rw [List.flatMap_cons, scan, scanFrom_written]
    rw [scan] at ih
    rw [ih]
    rfl

/-- Names hold no `&`. -/
theorem not_mem_of_name {s : List Char}
    (h : ∃ c rest, s = c :: rest ∧ ∀ d ∈ c :: rest, isNameChar d = true) : '&' ∉ s := by
  obtain ⟨c, rest, rfl, hchars⟩ := h
  intro hm
  exact absurd (hchars '&' hm) (by decide)

theorem onlyEntities_attribute (a : Attribute) : OnlyEntities a.written := by
  have hname : OnlyEntities (' ' :: a.name.text.toList) := by
    refine onlyEntities_of_clear ?_
    simp [not_mem_of_name a.name.text_chars]
  have hvalue : OnlyEntities (a.value.toList.flatMap attributeEntity) :=
    onlyEntities_flatMap fun c _ => onlyEntities_attributeEntity c
  have hquotes : OnlyEntities ['=', '"'] ∧ OnlyEntities ['"'] :=
    ⟨onlyEntities_of_clear (by decide), onlyEntities_of_clear (by decide)⟩
  simpa [Attribute.written] using
    hname.append (hquotes.1.append (hvalue.append hquotes.2))

/-- What is written has no `&` but those of entities. -/
theorem onlyEntities_written (p : Piece) : OnlyEntities p.written := by
  have hname : ∀ (s : List Char) (t : Tag), '&' ∉ s → OnlyEntities (s ++ t.name.toList) := by
    intro s t hs
    refine onlyEntities_of_clear ?_
    simp [hs, not_mem_of_name t.name_chars]
  have hattributes : ∀ as : List Attribute, OnlyEntities (as.flatMap Attribute.written) :=
    fun as => onlyEntities_flatMap fun a _ => onlyEntities_attribute a
  cases p with
  | start t as =>
    exact ((hname ['<'] t (by decide)).append (hattributes as)).append
      (onlyEntities_of_clear (by decide))
  | stop t => exact (hname ['<', '/'] t (by decide)).append (onlyEntities_of_clear (by decide))
  | void t as =>
    exact ((hname ['<'] t (by decide)).append (hattributes as)).append
      (onlyEntities_of_clear (by decide))
  | text s => exact onlyEntities_flatMap fun c _ => onlyEntities_textEntity c
  | lineFeed => exact onlyEntities_of_clear (by decide)

/-- The values of attributes hold nothing that could end them or start a tag. -/
theorem values_clear (p : Piece) : ∀ m ∈ p.marks, ∀ a ∈ m.attributes,
    ∀ c ∈ a.2, c ≠ '"' ∧ c ≠ '<' ∧ c ≠ '>' := by
  have hattributes : ∀ as : List Attribute, ∀ a ∈ as.map Attribute.mark,
      ∀ c ∈ a.2, c ≠ '"' ∧ c ≠ '<' ∧ c ≠ '>' := by
    intro as a ha c hc
    obtain ⟨b, -, rfl⟩ := List.mem_map.mp ha
    obtain ⟨d, -, hc⟩ := List.mem_flatMap.mp hc
    exact attributeEntity_clear d c hc
  intro m hm a ha
  cases p with
  | start t as | void t as =>
    obtain rfl := List.mem_singleton.mp hm
    exact hattributes as a ha
  | stop t | lineFeed =>
    obtain rfl := List.mem_singleton.mp hm
    exact absurd ha (by simp [Mark.attributes])
  | text s =>
    obtain ⟨c, -, rfl⟩ := List.mem_map.mp hm
    exact absurd ha (by simp [Mark.attributes])

/-! ### Marks one behind the other -/

theorem openAfter_append (outer : List (List Char)) (ms ns : List Mark) :
    openAfter outer (ms ++ ns) = (openAfter outer ms).bind (openAfter · ns) := by
  induction ms generalizing outer with
  | nil => rfl
  | cons m ms ih =>
    cases m with
    | start name attributes => exact ih _
    | stop name =>
      cases outer with
      | nil => rfl
      | cons innermost outer =>
        simp only [List.cons_append, openAfter]
        split_ifs
        · exact ih _
        · rfl
    | void name attributes => exact ih _
    | char c => exact ih _

theorem openAfter_chars (outer : List (List Char)) (s : List Char) :
    openAfter outer (s.map .char) = some outer := by
  induction s with
  | nil => rfl
  | cons c s ih => exact ih

end Markup
end MarkdownHtml
