/-
# No written address can run a script

A browser drops blanks and controls in front of an address and tabs and line ends
anywhere in it before it looks for a scheme (`Browser.view`). While addresses are
filtered, no address that is written has a scheme there that runs scripts or reaches
local files, but for pictures that an image holds as data
(`Document.addresses_harmless`).

The filter looks at the address of the node, and what is written is another text: the
address percent-encoded, and then escaped. The two are tied together in three steps.
Decoding undoes the escapes. Percent-encoding leaves no blank and no control, so that a
browser takes what it reads as it is (`Browser.view_percentEncode`). And an encoded
character starts with `%`, which no scheme holds, so a scheme that is read was written
in front of the address itself (`Browser.Scheme.of_percentEncode`), where the filter has
seen it.

Key definitions: `Browser.view`, `Browser.Scheme`, `Browser.Harmless`,
`Document.addresses`, `Markup.Mark.addresses`.
Key theorems: `Browser.scheme?_eq_some_iff`, `Browser.Scheme.of_percentEncode`,
`Browser.harmless_percentEncode`, `Render.addressed_block`,
`Document.addresses_harmless`.
-/
import MarkdownHtml.Proofs.Rendering

namespace MarkdownHtml

/-! ### How a browser reads an address -/

namespace Browser

/-- Blanks and controls, which are dropped in front of an address. -/
def isLeading (c : Char) : Bool := c.toNat ≤ 0x20 || c.toNat == 0x7F

/-- Tabs and line ends, which are dropped anywhere in an address. -/
def isDropped (c : Char) : Bool := c == '\t' || c == '\n' || c == '\r'

/-- An address without its tabs and line ends. -/
def joined (s : List Char) : List Char := s.filter fun c => !isDropped c

/-- What a scheme is looked for in. -/
def view (s : List Char) : List Char := joined (s.dropWhile isLeading)

/-- Letters, digits and the three marks that a scheme may hold. -/
def SchemeChar (c : Char) : Prop :=
  c.isAlpha = true ∨ c.isDigit = true ∨ c = '+' ∨ c = '-' ∨ c = '.'

/-- `Scheme s name rest`: the text starts with the scheme `name`, a letter and scheme
characters up to the first colon, and goes on with `rest`. -/
structure Scheme (s name rest : List Char) : Prop where
  split : s = name ++ ':' :: rest
  letter : ∃ first more, name = first :: more ∧ first.isAlpha = true
  chars : ∀ c ∈ name, SchemeChar c

/-- A text in lower case, as far as it is ASCII. -/
def lowered (s : List Char) : String := String.ofList (s.map Char.toLower)

/-- The schemes that run scripts, reach local files or hold documents. -/
def scriptSchemes : List String := ["javascript", "vbscript", "file", "data"]

/-- The pictures that an image may hold as data. -/
def pictures : List String := ["image/png", "image/gif", "image/jpeg", "image/webp"]

/-- The address of a node, written as `value`, runs no script: the only scheme of
`scriptSchemes` it can have is `data`, for an image whose address holds a picture. -/
def Harmless (use : Url.Use) (url : String) (value : List Char) : Prop :=
  ∀ name rest, Scheme (view value) name rest → lowered name ∈ scriptSchemes →
    use = .image ∧ lowered name = "data" ∧
      ∃ picture ∈ pictures, ("data:" ++ picture).toList <+: (joined url.toList).map Char.toLower

/-! ### The filter sees what a browser sees -/

/-- Scheme characters are visible ones, and neither a colon nor `%`. -/
theorem SchemeChar.toNat {c : Char} (h : SchemeChar c) :
    0x20 < c.toNat ∧ c.toNat < 0x7F ∧ c.toNat ≠ 0x3A ∧ c.toNat ≠ 0x25 := by
  rcases h with h | h | rfl | rfl | rfl
  · have hletter := Text.toNat_of_isAlpha h
    omega
  · have hdigit := Text.toNat_of_isDigit h
    omega
  · decide
  · decide
  · decide

theorem SchemeChar.ne_colon {c : Char} (h : SchemeChar c) : c ≠ ':' := by
  rintro rfl
  exact absurd h.toNat.2.2.1 (by decide)

theorem SchemeChar.ne_percent {c : Char} (h : SchemeChar c) : c ≠ '%' := by
  rintro rfl
  exact absurd h.toNat.2.2.2 (by decide)

theorem isSchemeChar_iff (c : Char) : Url.isSchemeChar c = true ↔ SchemeChar c := by
  simp [Url.isSchemeChar, SchemeChar, Char.isAlphanum, or_assoc]

theorem isLeading_eq (c : Char) : (Text.isAsciiSpace c || Text.isControl c) = isLeading c := by
  have hspace : Text.isAsciiSpace c = true → c.toNat ≤ 0x20 := by
    intro h
    simp only [Text.isAsciiSpace, Bool.or_eq_true, beq_iff_eq] at h
    rcases h with (((rfl | rfl) | rfl) | rfl) | rfl <;> decide
  have heq : c.toNat = 0x20 → Text.isAsciiSpace c = true := by
    intro h
    have hc : c = ' ' := by rw [← Char.ofNat_toNat c, h]
    rw [hc]
    decide
  rw [Bool.eq_iff_iff]
  simp only [Bool.or_eq_true, Text.isControl, isLeading, decide_eq_true_eq, beq_iff_eq]
  constructor
  · rintro (h | h | h)
    · exact .inl (hspace h)
    · left
      omega
    · exact .inr h
  · rintro (h | h)
    · by_cases h20 : c.toNat = 0x20
      · exact .inl (heq h20)
      · right
        left
        omega
    · exact .inr (.inr h)

theorem cleaned_eq_view (s : List Char) : Url.cleaned s = view s := by
  have hdrop : (fun c => Text.isAsciiSpace c || Text.isControl c) = isLeading :=
    funext isLeading_eq
  unfold Url.cleaned view joined
  rw [hdrop]
  rfl

/-- A scheme is found exactly where there is one. -/
theorem scheme?_eq_some_iff {s lower rest : List Char} :
    Url.scheme? s = some (lower, rest) ↔
      ∃ name, Scheme s name rest ∧ lower = name.map Char.toLower := by
  constructor
  · intro h
    unfold Url.scheme? at h
    have hcut := List.takeWhile_append_dropWhile (p := (· != ':')) (l := s)
    simp only at h
    split at h
    · rename_i colon rest' first more hrest hname
      split_ifs at h with hchars
      simp only [Option.some.injEq, Prod.mk.injEq] at h
      obtain ⟨rfl, rfl⟩ := h
      obtain ⟨hfirst, hmore⟩ := Bool.and_eq_true_iff.mp hchars
      have hcolon : colon = ':' := by
        have hhead := List.head?_dropWhile_not (· != ':') s
        rw [hrest] at hhead
        simpa using hhead
      rw [hname, hrest, hcolon] at hcut
      refine ⟨first :: more, ⟨hcut.symm, ⟨first, more, rfl, hfirst⟩, ?_⟩, ?_⟩
      · intro c hc
        rcases List.mem_cons.mp hc with rfl | hc
        · exact .inl hfirst
        · exact (isSchemeChar_iff c).mp (List.all_eq_true.mp hmore c hc)
      · rw [Url.lower, hname]
    · exact absurd h (by simp)
  · rintro ⟨name, hs, rfl⟩
    have hbefore : ∀ c ∈ name, (c != ':') = true := by
      intro c hc
      simpa using (hs.chars c hc).ne_colon
    have htake : s.takeWhile (· != ':') = name := by
      rw [hs.split, List.takeWhile_append_of_pos hbefore]
      simp
    have hdrop : s.dropWhile (· != ':') = ':' :: rest := by
      rw [hs.split, List.dropWhile_append_of_pos hbefore]
      simp
    obtain ⟨first, more, rfl, hfirst⟩ := hs.letter
    have hmore : more.all Url.isSchemeChar = true := by
      rw [List.all_eq_true]
      intro c hc
      exact (isSchemeChar_iff c).mpr (hs.chars c (List.mem_cons_of_mem _ hc))
    unfold Url.scheme?
    simp only [htake, hdrop, hfirst, hmore, Bool.and_self, if_true]
    rfl

/-! ### Percent-encoded addresses -/

/-- What is written for one character of an address. -/
def encodeChar (c : Char) : List Char := (String.utf8EncodeChar c).flatMap Url.encodeByte

theorem toList_percentEncode (url : String) :
    (Url.percentEncode url).toList = url.toList.flatMap encodeChar := by
  have hbytes : Text.encode url = url.toList.flatMap String.utf8EncodeChar := by
    unfold Text.encode
    rw [String.toUTF8_eq_toByteArray, ← String.utf8Encode_toList]
    simp [List.utf8Encode]
  rw [Url.percentEncode, String.toList_ofList, hbytes, List.flatMap_assoc]
  rfl

/-- A byte is written as itself, or as an escape. -/
theorem encodeByte_cases (b : UInt8) :
    (0x20 < b.toNat ∧ b.toNat < 0x7F ∧ Url.encodeByte b = [Char.ofNat b.toNat]) ∨
      Url.needsEncoding b = true ∧
        Url.encodeByte b = ['%', Url.hexDigit (b.toNat / 16), Url.hexDigit (b.toNat % 16)] := by
  unfold Url.encodeByte
  by_cases h : Url.needsEncoding b = true
  · right
    rw [if_pos h]
    exact ⟨h, rfl⟩
  · left
    rw [if_neg h]
    simp only [Url.needsEncoding, Bool.or_eq_true, beq_iff_eq, decide_eq_true_eq, not_or] at h
    exact ⟨by omega, by omega, rfl⟩

theorem toNat_ofNat {n : Nat} (h : n < 0x80) : (Char.ofNat n).toNat = n := by
  have hvalid : n.isValidChar := .inl (by omega)
  rw [Char.ofNat, dif_pos hvalid]
  rfl

theorem toNat_hexDigit {n : Nat} (h : n < 16) :
    0x20 < (Url.hexDigit n).toNat ∧ (Url.hexDigit n).toNat < 0x7F := by
  unfold Url.hexDigit
  split_ifs
  · rw [toNat_ofNat (by omega)]
    omega
  · rw [toNat_ofNat (by omega)]
    omega

theorem toNat_encodeByte (b : UInt8) :
    ∀ c ∈ Url.encodeByte b, 0x20 < c.toNat ∧ c.toNat < 0x7F := by
  intro c hc
  have hb : b.toNat < 256 := UInt8.toNat_lt_size b
  rcases encodeByte_cases b with ⟨hlow, hhigh, he⟩ | ⟨-, he⟩
  · rw [he, List.mem_singleton] at hc
    rw [hc, toNat_ofNat (by omega)]
    exact ⟨hlow, hhigh⟩
  · rw [he] at hc
    simp only [List.mem_cons, List.not_mem_nil, or_false] at hc
    rcases hc with rfl | rfl | rfl
    · decide
    · exact toNat_hexDigit (by omega)
    · exact toNat_hexDigit (by omega)

theorem toNat_percentEncode (url : String) :
    ∀ c ∈ (Url.percentEncode url).toList, 0x20 < c.toNat ∧ c.toNat < 0x7F := by
  intro c hc
  rw [toList_percentEncode] at hc
  obtain ⟨d, -, hc⟩ := List.mem_flatMap.mp hc
  obtain ⟨b, -, hc⟩ := List.mem_flatMap.mp hc
  exact toNat_encodeByte b c hc

theorem isDropped_eq_false {c : Char} (h : 0x20 < c.toNat) : isDropped c = false := by
  simp only [isDropped, Bool.or_eq_false_iff, beq_eq_false_iff_ne]
  refine ⟨⟨?_, ?_⟩, ?_⟩
  all_goals
    rintro rfl
    exact absurd h (by decide)

theorem isLeading_eq_false {c : Char} (h : 0x20 < c.toNat ∧ c.toNat < 0x7F) :
    isLeading c = false := by
  simp only [isLeading, Bool.or_eq_false_iff, decide_eq_false_iff_not, beq_eq_false_iff_ne]
  omega

/-- Text without blanks and controls is seen as it is. -/
theorem view_eq_self {s : List Char} (h : ∀ c ∈ s, 0x20 < c.toNat ∧ c.toNat < 0x7F) :
    view s = s := by
  have hdrop : s.dropWhile isLeading = s := by
    cases s with
    | nil => rfl
    | cons c s =>
      rw [List.dropWhile_cons_of_neg]
      simp [isLeading_eq_false (h c List.mem_cons_self)]
  unfold view joined
  rw [hdrop, List.filter_eq_self]
  intro c hc
  simp [isDropped_eq_false (h c hc).1]

/-- A browser reads a percent-encoded address as it is. -/
theorem view_percentEncode (url : String) :
    view (Url.percentEncode url).toList = (Url.percentEncode url).toList :=
  view_eq_self (toNat_percentEncode url)

/-- A character is written as itself, or what is written starts with `%`. -/
theorem encodeChar_cases (c : Char) :
    encodeChar c = [c] ∨ ∃ more, encodeChar c = '%' :: more := by
  have hescape : ∀ (b : UInt8) (bs : List UInt8), 0x7F ≤ b.toNat →
      ∃ more, (b :: bs).flatMap Url.encodeByte = '%' :: more := by
    intro b bs hb
    rcases encodeByte_cases b with ⟨-, hhigh, -⟩ | ⟨-, he⟩
    · omega
    · rw [List.flatMap_cons, he]
      exact ⟨_, rfl⟩
  have hbyte : ∀ {n : Nat}, n < 256 → (UInt8.ofNat n).toNat = n := by
    intro n hn
    exact UInt8.toNat_ofNat_of_lt' hn
  unfold encodeChar String.utf8EncodeChar
  simp only
  split_ifs with h₁ h₂ h₃
  · have hb : (UInt8.ofNat c.val.toNat).toNat = c.val.toNat := hbyte (by omega)
    rcases encodeByte_cases (UInt8.ofNat c.val.toNat) with ⟨-, -, he⟩ | ⟨-, he⟩
    · left
      rw [List.flatMap_singleton, he, hb]
      exact congrArg (fun d => [d]) (Char.ofNat_toNat c)
    · right
      rw [List.flatMap_singleton, he]
      exact ⟨_, rfl⟩
  · right
    apply hescape
    rw [hbyte (by omega)]
    omega
  · right
    apply hescape
    rw [hbyte (by omega)]
    omega
  · right
    apply hescape
    rw [hbyte (by omega)]
    omega

/-- Characters that are written without an escape stand in the address itself. -/
theorem exists_of_flatMap_encodeChar {s word rest : List Char} (hword : '%' ∉ word)
    (h : s.flatMap encodeChar = word ++ rest) :
    ∃ tail, s = word ++ tail ∧ tail.flatMap encodeChar = rest := by
  induction word generalizing s with
  | nil => exact ⟨s, rfl, h⟩
  | cons c word ih =>
    obtain ⟨hc, hmore⟩ := not_or.mp (List.mem_cons.not.mp hword)
    cases s with
    | nil => exact absurd h (by simp)
    | cons d s =>
      rw [List.flatMap_cons] at h
      rcases encodeChar_cases d with hd | ⟨more, hd⟩
      · rw [hd] at h
        obtain ⟨rfl, htail⟩ := List.cons.inj h
        obtain ⟨tail, hs, hrest⟩ := ih hmore htail
        exact ⟨tail, by rw [hs, List.cons_append], hrest⟩
      · rw [hd] at h
        exact absurd (List.cons.inj h).1 hc

/-- A scheme that is read in a percent-encoded address is that of the address itself. -/
theorem Scheme.of_percentEncode {url : String} {name rest : List Char}
    (h : Scheme (Url.percentEncode url).toList name rest) :
    ∃ tail, url.toList = name ++ ':' :: tail := by
  have hclear : '%' ∉ name ++ [':'] := by
    intro hm
    rcases List.mem_append.mp hm with hm | hm
    · exact (h.chars '%' hm).ne_percent rfl
    · exact absurd hm (by decide)
  have hsplit : url.toList.flatMap encodeChar = (name ++ [':']) ++ rest := by
    rw [← toList_percentEncode, h.split]
    simp
  obtain ⟨tail, hurl, -⟩ := exists_of_flatMap_encodeChar hclear hsplit
  exact ⟨tail, by rw [hurl]; simp⟩

/-! ### What passes the filter is harmless -/

/-- A scheme in front of an address is seen by a browser, and the rest without its tabs and
line ends. -/
theorem Scheme.joined {name rest : List Char} (h : Scheme (name ++ ':' :: rest) name rest) :
    Browser.joined (name ++ ':' :: rest) = name ++ ':' :: Browser.joined rest := by
  have hname : name.filter (fun c => !isDropped c) = name := by
    rw [List.filter_eq_self]
    intro c hc
    simp [isDropped_eq_false (h.chars c hc).toNat.1]
  have hcolon : isDropped ':' = false := by decide
  unfold Browser.joined
  rw [List.filter_append, hname, List.filter_cons_of_pos (by simp [hcolon])]

theorem Scheme.view {name rest : List Char} (h : Scheme (name ++ ':' :: rest) name rest) :
    Browser.view (name ++ ':' :: rest) = name ++ ':' :: Browser.joined rest := by
  obtain ⟨first, more, hname, hfirst⟩ := h.letter
  have hstay : (name ++ ':' :: rest).dropWhile isLeading = name ++ ':' :: rest := by
    have hbounds := Text.toNat_of_isAlpha hfirst
    rw [hname, List.cons_append, List.dropWhile_cons_of_neg]
    rw [isLeading_eq_false (by omega)]
    simp
  unfold Browser.view
  rw [hstay, h.joined]

theorem lowered_eq_iff {s : List Char} {t : String} :
    lowered s = t ↔ s.map Char.toLower = t.toList := by
  unfold lowered
  constructor
  · rintro rfl
    simp
  · intro h
    rw [h, String.ofList_toList]

theorem mem_blockedSchemes {name : List Char} (h : lowered name ∈ scriptSchemes) :
    Url.blockedSchemes.contains (name.map Char.toLower) = true := by
  have hmem : name.map Char.toLower = (lowered name).toList := lowered_eq_iff.mp rfl
  rw [hmem]
  generalize lowered name = scheme at h
  simp only [scriptSchemes, List.mem_cons, List.not_mem_nil, or_false] at h
  rcases h with rfl | rfl | rfl | rfl <;> decide

/-- An address that passes the filter is harmless as it is written. -/
theorem harmless_percentEncode {use : Url.Use} {url : String}
    (hsafe : Url.isSafe use url.toList = true) :
    Harmless use url (Url.percentEncode url).toList := by
  intro name rest hscheme hscript
  rw [view_percentEncode] at hscheme
  obtain ⟨tail, hurl⟩ := hscheme.of_percentEncode
  have hown : Scheme (name ++ ':' :: tail) name tail := ⟨rfl, hscheme.letter, hscheme.chars⟩
  have hfound : Url.scheme? (Url.cleaned url.toList) =
      some (name.map Char.toLower, joined tail) := by
    rw [cleaned_eq_view, hurl, hown.view]
    exact scheme?_eq_some_iff.mpr ⟨name, ⟨rfl, hscheme.letter, hscheme.chars⟩, rfl⟩
  unfold Url.isSafe at hsafe
  rw [hfound] at hsafe
  simp only [mem_blockedSchemes hscript, Bool.not_true, Bool.false_eq_true, if_false] at hsafe
  split_ifs at hsafe with hdata
  simp only [Bool.and_eq_true, decide_eq_true_eq, beq_iff_eq] at hdata
  obtain ⟨format, hformat, hstart⟩ := List.any_eq_true.mp hsafe
  have hpicture : String.ofList format ∈ pictures := by
    revert hformat
    simp only [Url.pictureFormats, List.mem_cons, List.not_mem_nil, or_false]
    rintro (rfl | rfl | rfl | rfl) <;> decide
  refine ⟨hdata.1, lowered_eq_iff.mpr hdata.2, String.ofList format, hpicture, ?_⟩
  rw [hurl, hown.joined, List.map_append, hdata.2, String.toList_append, String.toList_ofList]
  obtain ⟨more, hmore⟩ := List.isPrefixOf_iff_prefix.mp hstart
  refine ⟨more, ?_⟩
  rw [List.map_cons, ← Url.lower, ← hmore]
  simp

/-- An address that the filter refuses has one of the schemes. -/
theorem exists_scheme_of_not_isSafe {use : Url.Use} {url : String}
    (h : Url.isSafe use url.toList = false) :
    ∃ name rest, Scheme (view url.toList) name rest ∧ lowered name ∈ scriptSchemes := by
  unfold Url.isSafe at h
  rw [cleaned_eq_view] at h
  split at h
  · exact absurd h (by simp)
  · rename_i scheme rest hfound
    obtain ⟨name, hscheme, rfl⟩ := scheme?_eq_some_iff.mp hfound
    refine ⟨name, rest, hscheme, ?_⟩
    by_cases hblocked : Url.blockedSchemes.contains (name.map Char.toLower) = true
    · rw [List.contains_iff_mem] at hblocked
      unfold lowered
      revert hblocked
      generalize name.map Char.toLower = scheme
      simp only [Url.blockedSchemes, List.mem_cons, List.not_mem_nil, or_false]
      rintro (rfl | rfl | rfl | rfl) <;> decide
    · rw [if_pos (by simpa using hblocked)] at h
      exact absurd h (by simp)

theorem harmless_nil (use : Url.Use) (url : String) : Harmless use url [] := by
  intro name rest hscheme
  exact absurd hscheme.split (by simp [view, joined])

end Browser

/-! ### The addresses of a document -/

namespace Inline

mutual

/-- The addresses of a node and where each is used, in the order they are written. -/
def addresses : Inline → List (Url.Use × String)
  | .emphasis children => addressesAll children
  | .strong children => addressesAll children
  | .link href _ children => (.link, href) :: addressesAll children
  | .image source _ _ => [(.image, source)]
  | _ => []

/-- The addresses of the nodes. -/
def addressesAll : List Inline → List (Url.Use × String)
  | [] => []
  | n :: ns => addresses n ++ addressesAll ns

end

end Inline

namespace Block

mutual

/-- The addresses of a block and where each is used, in the order they are written. -/
def addresses : Block → List (Url.Use × String)
  | .paragraph content => Inline.addressesAll content
  | .heading _ content => Inline.addressesAll content
  | .item _ _ content => Inline.addressesAll content
  | .quote blocks => addressesAll blocks
  | _ => []

/-- The addresses of the blocks. -/
def addressesAll : List Block → List (Url.Use × String)
  | [] => []
  | b :: bs => addresses b ++ addressesAll bs

end

end Block

/-- The addresses of a document and where each is used, in the order they are written. -/
def Document.addresses (doc : Document) : List (Url.Use × String) := Block.addressesAll doc

/-- The attribute of an address. -/
def Url.Use.key : Url.Use → List Char
  | .link => "href".toList
  | .image => "src".toList

/-- Whether an attribute of this name holds an address. -/
def Markup.holdsAddress (key : List Char) : Bool := key == "href".toList || key == "src".toList

/-- The attributes of a mark that hold addresses, with their values as they are written. -/
def Markup.Mark.addresses (m : Mark) : List (List Char × List Char) :=
  m.attributes.filter fun a => holdsAddress a.1

namespace Html

/-- Whether an attribute holds an address. -/
def AttributeName.holdsAddress : AttributeName → Bool
  | .href | .source => true
  | _ => false

theorem holdsAddress_text (n : AttributeName) :
    Markup.holdsAddress n.text.toList = n.holdsAddress := by
  cases n <;> decide

/-- The addresses among attributes, as a scan finds them. -/
def addressMarks (attributes : List Attribute) : List (List Char × List Char) :=
  (attributes.filter fun a => a.name.holdsAddress).map Attribute.mark

theorem filter_holdsAddress (attributes : List Attribute) :
    (attributes.map Attribute.mark).filter (fun a => Markup.holdsAddress a.1) =
      addressMarks attributes := by
  have hname : (fun a => Markup.holdsAddress a.1) ∘ Attribute.mark =
      fun a : Attribute => a.name.holdsAddress := by
    funext a
    exact holdsAddress_text a.name
  rw [List.filter_map, hname]
  rfl

end Html

namespace Render

open Html

/-- The addresses that a scan finds in a piece. -/
def addressesIn (p : Piece) : List (List Char × List Char) := p.marks.flatMap Markup.Mark.addresses

/-- An address as a scan finds it. -/
def addressMark (options : RenderOptions) (a : Url.Use × String) : List Char × List Char :=
  (a.1.key, (address options a.1 a.2).toList.flatMap attributeEntity)

theorem told_addressesIn (out : List Piece) :
    told addressesIn out = (marksOf out).flatMap Markup.Mark.addresses := by
  unfold told marksOf
  rw [List.flatMap_assoc]
  rfl

@[simp] theorem addressesIn_start (tag : Tag) (attributes : List Attribute) :
    addressesIn (.start tag attributes) = addressMarks attributes := by
  rw [addressesIn, Piece.marks, List.flatMap_singleton]
  exact filter_holdsAddress attributes

@[simp] theorem addressesIn_void (tag : Tag) (attributes : List Attribute) :
    addressesIn (.void tag attributes) = addressMarks attributes := by
  rw [addressesIn, Piece.marks, List.flatMap_singleton]
  exact filter_holdsAddress attributes

@[simp] theorem addressesIn_stop (tag : Tag) : addressesIn (.stop tag) = [] := rfl

@[simp] theorem addressesIn_lineFeed : addressesIn .lineFeed = [] := rfl

@[simp] theorem addressesIn_text (s : String) : addressesIn (.text s) = [] := by
  rw [addressesIn, List.flatMap_eq_nil_iff]
  intro m hm
  obtain ⟨c, -, rfl⟩ := List.mem_map.mp hm
  rfl

@[simp] theorem addressMarks_nil : addressMarks [] = [] := rfl

theorem addressMarks_language (options : RenderOptions) (language : Option String) :
    addressMarks (languageAttributes options language) = [] := by
  cases language <;> rfl

theorem addressMarks_list (list : ListKind) : addressMarks (listAttributes list) = [] := by
  cases list with
  | bullet => rfl
  | ordered start delimiter =>
    simp only [listAttributes]
    split_ifs <;> rfl

theorem addressMarks_link (options : RenderOptions) (href : String) (title : Option String) :
    addressMarks (⟨.href, address options .link href⟩ :: titleAttribute title) =
      [addressMark options (.link, href)] := by
  cases title <;> rfl

theorem addressMarks_image (options : RenderOptions) (source alt : String)
    (title : Option String) :
    addressMarks (⟨.source, address options .image source⟩ :: ⟨.alt, alt⟩ ::
      titleAttribute title) = [addressMark options (.image, source)] := by
  cases title <;> rfl

/-- Lists hold no addresses of their own. -/
theorem silentOnLists_addressesIn : SilentOnLists addressesIn where
  lineFeed := rfl
  stop _ := rfl
  start list := (addressesIn_start _ _).trans (addressMarks_list list)
  item := addressesIn_start _ _

mutual

/-- A node writes its addresses. -/
theorem addressed_node (options : RenderOptions) :
    ∀ (n : Inline) (out : List Piece), told addressesIn (node options out n) =
      told addressesIn out ++ n.addresses.map (addressMark options)
  | .text _, _ => by simp [node, told_cons, Inline.addresses]
  | .emphasis children, _ => by
    simp [node, told_cons, addressed_nodes options children, Inline.addresses]
  | .strong children, _ => by
    simp [node, told_cons, addressed_nodes options children, Inline.addresses]
  | .code _, _ => by simp [node, told_cons, Inline.addresses]
  | .link href title children, _ => by
    simp [node, told_cons, addressed_nodes options children, addressMarks_link, Inline.addresses]
  | .image source alt title, _ => by simp [node, told_cons, addressMarks_image, Inline.addresses]
  | .lineBreak, _ => by simp [node, told_cons, Inline.addresses]

theorem addressed_nodes (options : RenderOptions) :
    ∀ (ns : List Inline) (out : List Piece), told addressesIn (nodes options out ns) =
      told addressesIn out ++ (Inline.addressesAll ns).map (addressMark options)
  | [], _ => by simp [nodes, Inline.addressesAll]
  | n :: ns, out => by
    rw [nodes, addressed_nodes options ns, addressed_node options n, Inline.addressesAll,
      List.map_append, List.append_assoc]

end

theorem addressed_closeTo (keep : Nat) (w : Writer) :
    told addressesIn (w.closeTo keep).out = told addressesIn w.out :=
  Writer.told_closeTo silentOnLists_addressesIn keep w

mutual

/-- A block writes its addresses. -/
theorem addressed_block (options : RenderOptions) :
    ∀ (b : Block) (w : Writer), told addressesIn (block options w b).out =
      told addressesIn w.out ++ b.addresses.map (addressMark options)
  | .item list depth content, w => by
    simp only [block, addressed_nodes, Block.addresses,
      Writer.told_openItem silentOnLists_addressesIn]
  | .paragraph content, w => by
    simp [block, told_cons, addressed_nodes, addressed_closeTo, Block.addresses]
  | .heading level content, w => by
    simp [block, told_cons, addressed_nodes, addressed_closeTo, Block.addresses]
  | .code language raw, w => by
    simp [block, told_cons, addressMarks_language, addressed_closeTo, Block.addresses]
  | .quote inner, w => by
    simp [block, told_cons, addressed_blocks options inner, addressed_closeTo, Block.addresses]
  | .rule, w => by simp [block, told_cons, addressed_closeTo, Block.addresses]

theorem addressed_blocks (options : RenderOptions) :
    ∀ (bs : List Block) (w : Writer), told addressesIn (blocks options w bs).out =
      told addressesIn w.out ++ (Block.addressesAll bs).map (addressMark options)
  | [], w => by simp [blocks, addressed_closeTo, Block.addressesAll]
  | b :: bs, w => by
    rw [blocks, addressed_blocks options bs, addressed_block options b, Block.addressesAll,
      List.map_append, List.append_assoc]

end

end Render

/-! ### Whole documents -/

/-- An attribute that a scan finds is that of the address `a`, harmless, and empty only
where the address itself has one of the schemes. -/
structure Browser.Filtered (found : List Char × List Char) (a : Url.Use × String) : Prop where
  key : found.1 = a.1.key
  harmless : Harmless a.1 a.2 (Markup.decode found.2)
  kept : Markup.decode found.2 = (Url.percentEncode a.2).toList ∨
    found.2 = [] ∧
      ∃ name rest, Scheme (view a.2.toList) name rest ∧ lowered name ∈ scriptSchemes

theorem Browser.filtered_addressMark {options : RenderOptions} (h : options.filterUrls = true)
    (a : Url.Use × String) : Filtered (Render.addressMark options a) a := by
  obtain ⟨use, url⟩ := a
  have hdecode : Markup.decode (Render.addressMark options (use, url)).2 =
      (Render.address options use url).toList :=
    Markup.decode_value (Render.address options use url)
  by_cases hsafe : Url.isSafe use url.toList = true
  · have haddress : Render.address options use url = Url.percentEncode url := by
      simp [Render.address, hsafe]
    rw [haddress] at hdecode
    refine ⟨rfl, ?_, .inl hdecode⟩
    rw [hdecode]
    exact harmless_percentEncode hsafe
  · have hunsafe : Url.isSafe use url.toList = false := by simpa using hsafe
    have hempty : (Render.addressMark options (use, url)).2 = [] := by
      simp [Render.addressMark, Render.address, h, hunsafe]
    refine ⟨rfl, ?_, .inr ⟨hempty, exists_scheme_of_not_isSafe hunsafe⟩⟩
    rw [hempty]
    exact harmless_nil use url

/-- **No written address runs a script.** While addresses are filtered, a scan of the HTML
of any document finds one attribute for each address of the document, in order: an address
that a browser finds no harmful scheme in, whatever blanks, controls and capitals the
document has it written with. -/
theorem Document.addresses_harmless (doc : Document) {options : RenderOptions}
    (h : options.filterUrls = true) :
    ∃ marks, Markup.scan (doc.toHtml options).toList = some marks ∧
      List.Forall₂ Browser.Filtered (marks.flatMap Markup.Mark.addresses) doc.addresses := by
  refine ⟨_, doc.scan_toHtml options, ?_⟩
  have hfound : (Html.marksOf (Render.chunk options [] doc)).flatMap Markup.Mark.addresses =
      doc.addresses.map (Render.addressMark options) := by
    rw [← Render.told_addressesIn]
    exact Render.addressed_blocks options doc {}
  rw [hfound, List.forall₂_map_left_iff, List.forall₂_same]
  intro a _
  exact Browser.filtered_addressMark h a

/-- A link that hides its scheme, and an image that holds a picture. -/
theorem Document.addresses_harmless_hidden :
    ∃ marks, Markup.scan (Document.toHtml [.paragraph [
        .link " java\tScript:alert(1)" none [.image "DATA:image/PNG;base64,x" "" none]]] {}).toList =
          some marks ∧
      List.Forall₂ Browser.Filtered (marks.flatMap Markup.Mark.addresses)
        [(.link, " java\tScript:alert(1)"), (.image, "DATA:image/PNG;base64,x")] :=
  Document.addresses_harmless _ rfl

end MarkdownHtml
