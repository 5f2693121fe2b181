/-
# The grammar of link tails

A tail is an opening parenthesis, a destination, perhaps a title, and a closing parenthesis, with
blanks between them. Here the parts of a tail are data (`Parts`), with what is written for them and
what they say, and a condition says which parts make a tail in front of a given text
(`Parts.Fits`). A tail is read from a text exactly if the text starts with such parts
(`read?_eq_some_iff`). So the reader accepts all of the grammar and nothing else.

What the parts say is their contents with a backslash and the punctuation behind it as a pair. The
reader cuts the contents out by such pairs, but then judges every backslash in them by the next
character alone. So it returns what a part says unless an escaped backslash stands before
punctuation in it (`Parts.reading_destination_iff`, `read?_backslashes_ne`).

Every part ends where it has to. A destination in angle brackets and a title end with the first
delimiter that is not escaped, a bare destination ends where nothing more can belong to it, and
blanks end in front of what is no blank. Only for the first blanks does the last need saying: the
others stand in front of a character that is no blank in any case.

Key definitions: `LinkTail.Destination`, `LinkTail.Title`, `LinkTail.Ending`, `LinkTail.Parts`,
`LinkTail.Parts.tail`, `LinkTail.Parts.reading`, `LinkTail.Parts.Fits`.
Key theorems: `LinkTail.Parts.reading_destination_iff`, `LinkTail.exists_of_read?`,
`LinkTail.read?_of_fits`, `LinkTail.read?_eq_some_iff`.
-/
import MarkdownHtml.Proofs.Encoding
import MarkdownHtml.Proofs.TailReaders

namespace MarkdownHtml
namespace LinkTail

/-! ### Parts -/

/-- A destination as it is written, in angle brackets or bare. -/
inductive Destination where
  | angled (content : List Char)
  | bare (content : List Char)

namespace Destination

def content : Destination → List Char
  | angled x => x
  | bare x => x

def opening : Destination → List Char
  | angled _ => ['<']
  | bare _ => []

def written : Destination → List Char
  | angled x => '<' :: x ++ ['>']
  | bare x => x

/-- The destination is well-formed, in front of `rest`, and ends there. -/
def Fits (rest : List Char) : Destination → Prop
  | angled x => Angled x ∧ Passes x ('>' :: rest)
  | bare x => (x ++ rest).head? ≠ some '<' ∧ Bare 0 x ∧ Passes x rest ∧ StopsBare rest

end Destination

theorem exists_of_destination? {s : List Char} {part : Part} (h : destination? s = some part) :
    ∃ (d : Destination) (rest : List Char), d.Fits rest ∧ s = d.written ++ rest ∧
      part = ⟨d.written, unescape d.content, rest⟩ := by
  unfold destination? at h
  split at h
  · exact absurd h (by simp)
  · obtain ⟨⟨x, rest⟩, hread, rfl⟩ := Option.map_eq_some_iff.mp h
    obtain ⟨rfl, hpasses, hangled, -⟩ := took_start.mp (angle_eq_some_iff.mp hread)
    exact ⟨.angled x, rest, ⟨hangled, hpasses⟩, by simp [Destination.written], rfl⟩
  · rename_i hangle
    obtain ⟨⟨x, rest⟩, hread, rfl⟩ := Option.map_eq_some_iff.mp h
    obtain ⟨rfl, hpasses, hbare, hstops⟩ :=
      took_start.mp ((bare_eq_some_iff (Nat.zero_le _)).mp hread)
    refine ⟨.bare x, rest, ⟨?_, hbare, hpasses, hstops⟩, rfl, rfl⟩
    intro hhead
    obtain ⟨r, hr⟩ := List.head?_eq_some_iff.mp hhead
    exact hangle r hr

theorem destination?_of_fits {d : Destination} {rest : List Char} (h : d.Fits rest)
    (hne : d.written ++ rest ≠ []) :
    destination? (d.written ++ rest) = some ⟨d.written, unescape d.content, rest⟩ := by
  cases d with
  | angled x =>
    obtain ⟨hangled, hpasses⟩ := h
    have hread : angle [] (x ++ '>' :: rest) = some (x, rest) :=
      angle_eq_some_iff.mpr (took_start.mpr ⟨rfl, hpasses, hangled, rfl⟩)
    have htext : (Destination.angled x).written ++ rest = '<' :: (x ++ '>' :: rest) := by
      simp [Destination.written]
    rw [htext, destination?, hread]
    rfl
  | bare x =>
    obtain ⟨hhead, hbare, hpasses, hstops⟩ := h
    have hread : LinkTail.bare 0 [] (x ++ rest) = some (x, rest) :=
      (bare_eq_some_iff (Nat.zero_le _)).mpr (took_start.mpr ⟨rfl, hpasses, hbare, hstops⟩)
    change destination? (x ++ rest) = _
    rw [destination?, hread]
    · rfl
    · exact hne
    · intro r hr
      rw [hr] at hhead
      exact hhead rfl

/-- A title as it is written. -/
structure Title where
  opening : Char
  closing : Char
  content : List Char

namespace Title

/-- What a title starts and ends with. -/
def delimiters : List (Char × Char) := [('"', '"'), ('\x27', '\x27'), ('(', ')')]

def written (t : Title) : List Char := t.opening :: t.content ++ [t.closing]

/-- The title is well-formed, in front of `rest`, and ends there. -/
structure Fits (t : Title) (rest : List Char) : Prop where
  delimiters : (t.opening, t.closing) ∈ delimiters
  content : Quoted t.closing t.content
  passes : Passes t.content (t.closing :: rest)

end Title

theorem titleClose?_eq_some_iff {c close : Char} :
    titleClose? c = some close ↔ (c, close) ∈ Title.delimiters := by
  simp only [Title.delimiters, List.mem_cons, Prod.mk.injEq, List.not_mem_nil, or_false]
  unfold titleClose?
  constructor
  · intro h
    split_ifs at h with hquote hparen
    · obtain rfl := Option.some.inj h
      have hor : c = '"' ∨ c = '\x27' := by simpa using hquote
      rcases hor with rfl | rfl
      · exact .inl ⟨rfl, rfl⟩
      · exact .inr (.inl ⟨rfl, rfl⟩)
    · obtain rfl := Option.some.inj h
      exact .inr (.inr ⟨by simpa using hparen, rfl⟩)
  · rintro (⟨rfl, rfl⟩ | ⟨rfl, rfl⟩ | ⟨rfl, rfl⟩)
    · rfl
    · rfl
    · rfl

theorem exists_of_title? {c close : Char} {s : List Char} {part : Part}
    (hclose : titleClose? c = some close) (h : title? c close s = some part) :
    ∃ (t : Title) (rest : List Char), t.Fits rest ∧ c :: s = t.written ++ rest ∧
      part = ⟨t.written, unescape t.content, rest⟩ := by
  have hback : close ≠ '\\' := (titleClose?_eq_some hclose).2
  obtain ⟨⟨x, rest⟩, hread, rfl⟩ := Option.map_eq_some_iff.mp h
  obtain ⟨rfl, hpasses, hquoted, -⟩ := took_start.mp ((titleTo_eq_some_iff hback).mp hread)
  have hfits : Title.Fits ⟨c, close, x⟩ rest :=
    ⟨titleClose?_eq_some_iff.mp hclose, quotedFrom_false.mp hquoted, hpasses⟩
  exact ⟨⟨c, close, x⟩, rest, hfits, by simp [Title.written], rfl⟩

theorem title?_of_fits {t : Title} {rest : List Char} (h : t.Fits rest) :
    title? t.opening t.closing (t.content ++ t.closing :: rest) =
      some ⟨t.written, unescape t.content, rest⟩ := by
  have hback : t.closing ≠ '\\' :=
    (titleClose?_eq_some (titleClose?_eq_some_iff.mpr h.delimiters)).2
  have hread : titleTo t.closing false [] (t.content ++ t.closing :: rest) =
      some (t.content, rest) :=
    (titleTo_eq_some_iff hback).mpr
      (took_start.mpr ⟨rfl, h.passes, quotedFrom_false.mpr h.content, rfl⟩)
  rw [title?, hread]
  rfl

/-- What follows the destination, as it is written: perhaps a gap and a title, and then a gap
and the closing parenthesis. -/
inductive Ending where
  | plain (last : List Char)
  | titled (gap : List Char) (title : Title) (last : List Char)

namespace Ending

def written : Ending → List Char
  | plain last => last ++ [')']
  | titled gap title last => gap ++ title.written ++ last ++ [')']

def title? : Ending → Option Title
  | plain _ => none
  | titled _ title _ => some title

/-- The ending is well-formed, in front of `rest`. -/
def Fits (rest : List Char) : Ending → Prop
  | plain last => Gap false last
  | titled gap title last =>
    gap ≠ [] ∧ Gap false gap ∧ title.Fits (last ++ ')' :: rest) ∧ Gap false last

end Ending

theorem close?_eq_some_iff {written d s : List Char} {t : Option (List Char)} {tail : LinkTail} :
    close? written d t s = some tail ↔
      (∃ rest, s = ')' :: rest) ∧ tail = ⟨d, t, written ++ [')']⟩ := by
  unfold close?
  split
  · simp [eq_comm]
  · rename_i hne
    simpa using fun rest hs => absurd hs (hne rest)

/-- No title starts with a blank. -/
theorem Title.Fits.opening_not_blank {t : Title} {rest : List Char} (h : t.Fits rest) :
    ¬ Text.isPad t.opening = true ∧ t.opening ≠ '\n' := by
  have hall : ∀ d ∈ Title.delimiters, ¬ Text.isPad d.1 = true ∧ d.1 ≠ '\n' := by decide
  exact hall _ h.delimiters

theorem exists_of_afterDestination? {written d s : List Char} {tail : LinkTail}
    (h : afterDestination? written d s = some tail) :
    ∃ (e : Ending) (rest : List Char), e.Fits rest ∧ s = e.written ++ rest ∧
      tail = ⟨d, e.title?.map fun t => unescape t.content, written ++ e.written⟩ := by
  unfold afterDestination? at h
  generalize hblanks : blanks false [] s = b at h
  obtain ⟨gap, behind⟩ := b
  obtain ⟨rfl, hgap, -⟩ := blanks_start_iff.mp hblanks
  simp only at h
  split at h
  · rename_i g gs c inner close hclose
    obtain ⟨part, hpart, hclosed⟩ := Option.bind_eq_some_iff.mp h
    obtain ⟨t, behind, hfits, hinner, rfl⟩ := exists_of_title? hclose hpart
    generalize hlasts : blanks false [] behind = l at hclosed
    obtain ⟨last, after⟩ := l
    obtain ⟨rfl, hlast, -⟩ := blanks_start_iff.mp hlasts
    obtain ⟨⟨rest, rfl⟩, rfl⟩ := close?_eq_some_iff.mp hclosed
    refine ⟨.titled (g :: gs) t last, rest, ⟨by simp, hgap, hfits, hlast⟩, ?_, ?_⟩
    · rw [hinner]
      simp [Ending.written]
    · simp [Ending.written, Ending.title?]
  · obtain ⟨⟨rest, rfl⟩, rfl⟩ := close?_eq_some_iff.mp h
    exact ⟨.plain _, rest, hgap, by simp [Ending.written], by simp [Ending.written, Ending.title?]⟩

theorem afterDestination?_of_fits {e : Ending} {rest : List Char} (h : e.Fits rest)
    (written d : List Char) :
    afterDestination? written d (e.written ++ rest) =
      some ⟨d, e.title?.map fun t => unescape t.content, written ++ e.written⟩ := by
  cases e with
  | plain last =>
    have hblanks : blanks false [] (last ++ ')' :: rest) = (last, ')' :: rest) :=
      blanks_append_cons h (by decide) (by decide)
    have htext : (Ending.plain last).written ++ rest = last ++ ')' :: rest := by
      simp [Ending.written]
    rw [htext, afterDestination?, hblanks]
    simp only
    split
    · rename_i hclose
      exact absurd hclose (by simp [titleClose?])
    · rw [close?, Ending.written, List.append_assoc]
      rfl
  | titled gap t last =>
    obtain ⟨hne, hgap, htitle, hlast⟩ := h
    obtain ⟨g, gs, rfl⟩ := List.exists_cons_of_ne_nil hne
    obtain ⟨hpad, hfeed⟩ := htitle.opening_not_blank
    have htext : (Ending.titled (g :: gs) t last).written ++ rest = g :: gs ++
        t.opening :: (t.content ++ t.closing :: (last ++ ')' :: rest)) := by
      simp [Ending.written, Title.written]
    have hclose : (t.opening :: (t.content ++ t.closing :: (last ++ ')' :: rest))).head?.bind
        titleClose? = some t.closing := titleClose?_eq_some_iff.mpr htitle.delimiters
    have hlasts : blanks false [] (last ++ ')' :: rest) = (last, ')' :: rest) :=
      blanks_append_cons hlast (by decide) (by decide)
    rw [htext, afterDestination?, blanks_append_cons hgap hpad hfeed]
    simp only [hclose, title?_of_fits htitle, Option.bind_some, hlasts, close?, Ending.title?,
      Option.map_some, Ending.written, List.append_assoc]

theorem Ending.written_ne_nil (e : Ending) : e.written ≠ [] := by
  cases e with
  | plain last => simp [Ending.written]
  | titled gap t last => simp [Ending.written]

/-- The parts of a tail as they are written. -/
structure Parts where
  first : List Char
  destination : Destination
  ending : Ending

namespace Parts

def written (p : Parts) : List Char :=
  '(' :: p.first ++ p.destination.written ++ p.ending.written

/-- What the parts say: their contents with a backslash and the punctuation behind it as a pair. -/
def tail (p : Parts) : LinkTail where
  destination := Text.resolved p.destination.content
  title := p.ending.title?.map fun t => Text.resolved t.content
  raw := p.written

/-- What is read from the parts: their contents without the backslashes before punctuation. -/
def reading (p : Parts) : LinkTail where
  destination := unescape p.destination.content
  title := p.ending.title?.map fun t => unescape t.content
  raw := p.written

/-- The destination says what is read from it unless an escaped backslash stands before
punctuation in it. -/
theorem reading_destination_iff (p : Parts) : p.reading.destination = p.tail.destination ↔
    ¬ Text.Guards ['\\', '\\'] p.destination.content :=
  unescape_eq_resolved_iff p.destination.content

/-- So does the title, if there is one. -/
theorem reading_title_iff (p : Parts) : p.reading.title = p.tail.title ↔
    ∀ t ∈ p.ending.title?, ¬ Text.Guards ['\\', '\\'] t.content := by
  rw [reading, tail]
  cases p.ending.title? with
  | none => simp
  | some t => simpa using unescape_eq_resolved_iff t.content

/-- The parts are well-formed, in front of `rest`, and each is as long as it can be. -/
structure Fits (p : Parts) (rest : List Char) : Prop where
  first : Gap false p.first
  longest : ∀ c ∈ (p.destination.written ++ p.ending.written).head?, ¬ Gap false (p.first ++ [c])
  destination : p.destination.Fits (p.ending.written ++ rest)
  ending : p.ending.Fits rest

/-- The content of the destination and of the title, each with what is written in front of it. -/
def contents (p : Parts) : List (List Char × List Char) :=
  ('(' :: p.first ++ p.destination.opening, p.destination.content) ::
    match p.ending with
    | .plain _ => []
    | .titled gap t _ =>
      [('(' :: p.first ++ p.destination.written ++ gap ++ [t.opening], t.content)]

theorem exists_written_eq (p : Parts) :
    ∀ x ∈ p.contents, ∃ more, p.written = x.1 ++ x.2 ++ more := by
  obtain ⟨first, d, e⟩ := p
  intro x hx
  rcases List.mem_cons.mp hx with rfl | hx
  · cases d with
    | angled content => exact ⟨'>' :: e.written, by simp [written, Destination.written,
        Destination.opening, Destination.content]⟩
    | bare content => exact ⟨e.written, by simp [written, Destination.written, Destination.opening,
        Destination.content]⟩
  · cases e with
    | plain last => exact absurd hx (by simp)
    | titled gap t last =>
      obtain rfl := List.mem_singleton.mp hx
      exact ⟨t.closing :: (last ++ [')']), by simp [written, Ending.written, Title.written]⟩

end Parts

theorem exists_of_read? {s : List Char} {t : LinkTail} (h : read? s = some t) :
    ∃ (p : Parts) (rest : List Char), p.Fits rest ∧ s = p.written ++ rest ∧ t = p.reading := by
  unfold read? at h
  split at h
  · rename_i s
    generalize hblanks : blanks false [] s = b at h
    obtain ⟨first, behind⟩ := b
    obtain ⟨rfl, hfirst, hlongest⟩ := blanks_start_iff.mp hblanks
    obtain ⟨part, hpart, hafter⟩ := Option.bind_eq_some_iff.mp h
    obtain ⟨d, rest, hd, rfl, rfl⟩ := exists_of_destination? hpart
    obtain ⟨e, rest, he, rfl, rfl⟩ := exists_of_afterDestination? hafter
    have hne : d.written ++ e.written ≠ [] := by simp [e.written_ne_nil]
    rw [← List.append_assoc, List.head?_append_of_ne_nil _ hne] at hlongest
    exact ⟨⟨first, d, e⟩, rest, ⟨hfirst, hlongest, hd, he⟩, by simp [Parts.written], rfl⟩
  · exact absurd h (by simp)

theorem read?_of_fits {p : Parts} {rest : List Char} (h : p.Fits rest) :
    read? (p.written ++ rest) = some p.reading := by
  obtain ⟨first, d, e⟩ := p
  obtain ⟨hfirst, hlongest, hd, he⟩ := h
  have hne : d.written ++ e.written ≠ [] := by simp [e.written_ne_nil]
  have htext : (Parts.mk first d e).written ++ rest =
      '(' :: (first ++ (d.written ++ (e.written ++ rest))) := by simp [Parts.written]
  have hblanks : blanks false [] (first ++ (d.written ++ (e.written ++ rest))) =
      (first, d.written ++ (e.written ++ rest)) := by
    refine blanks_start_iff.mpr ⟨rfl, hfirst, ?_⟩
    rw [← List.append_assoc, List.head?_append_of_ne_nil _ hne]
    exact hlongest
  rw [htext, read?, hblanks]
  simp only
  rw [destination?_of_fits hd (by simp [e.written_ne_nil]), Option.bind_some,
    afterDestination?_of_fits he]
  rfl

/-- **Tails are read exactly if they are well-formed.** Behind any text `before`, a tail is read
from `s` if `s` starts with parts that fit, and in no other case. The tail is the text from the
first byte of `s` to the end of the parts, and a destination and a title are read as what the parts
say unless an escaped backslash stands before punctuation in them: then it is dropped too, and
less is read. The contents are cut out between character boundaries, at the bytes where they
stand. -/
theorem read?_eq_some_iff (before s : List Char) (t : LinkTail) :
    let start := Text.byteLength before
    read? (Text.splitAtBytes start (before ++ s)).2 = some t ↔
      ∃ (p : Parts) (rest : List Char), p.Fits rest ∧ s = p.written ++ rest ∧ t = p.reading ∧
        (t.destination = p.tail.destination ↔
          ¬ Text.Guards ['\\', '\\'] p.destination.content) ∧
        (t.title = p.tail.title ↔
          ∀ title ∈ p.ending.title?, ¬ Text.Guards ['\\', '\\'] title.content) ∧
        (Cursor.ofText (String.ofList (before ++ s)) 0).slice? start (start + t.size) =
          some (String.ofList p.written) ∧
        ∀ x ∈ p.contents, (Cursor.ofText (String.ofList s) start).slice? (Text.byteLength x.1)
          (Text.byteLength x.1 + Text.byteLength x.2) = some (String.ofList x.2) := by
  intro start
  rw [Text.splitAtBytes_append]
  constructor
  · intro h
    obtain ⟨p, rest, hfits, rfl, rfl⟩ := exists_of_read? h
    refine ⟨p, rest, hfits, rfl, rfl, p.reading_destination_iff, p.reading_title_iff, ?_, ?_⟩
    · rw [← List.append_assoc]
      exact Cursor.slice?_between before p.written rest 0
    · intro x hx
      obtain ⟨more, hmore⟩ := p.exists_written_eq x hx
      rw [hmore, List.append_assoc]
      exact Cursor.slice?_between x.1 x.2 (more ++ rest) start
  · rintro ⟨p, rest, hfits, rfl, rfl, -⟩
    exact read?_of_fits hfits

/-- Three backslashes and a star are two escapes, of a backslash and of a star, and are read as the
star alone. -/
theorem read?_backslashes_ne :
    ∃ p : Parts, p.Fits [] ∧ p.written = "(\\\\\\*)".toList ∧
      p.tail = ⟨"\\*".toList, none, p.written⟩ ∧
      read? p.written = some ⟨"*".toList, none, p.written⟩ ∧ read? p.written ≠ some p.tail := by
  let x := "\\\\\\*".toList
  have hback : Text.isPunctuation '\\' = true := rfl
  have hstar : Text.isPunctuation '*' = true := rfl
  have hbare : Bare 0 x := (bare_escape hback).mpr ((bare_escape hstar).mpr (bare_nil.mpr rfl))
  have hpasses : Passes x [')'] := .escape hback (.escape hstar (.nil _))
  refine ⟨⟨[], .bare x, .plain []⟩, ⟨gap_nil _, ?_, ⟨by decide, hbare, hpasses, ?_⟩, gap_nil _⟩,
    rfl, rfl, rfl, by decide⟩
  · rintro c hc ⟨hblank, -⟩
    obtain rfl : '\\' = c := Option.some.inj hc
    exact absurd (hblank '\\' List.mem_cons_self) (by decide)
  · exact stopsBare_cons.mpr (.inl rfl)

/-- Parentheses may be nested 32 deep and no deeper. -/
example :
    let nested := fun n => '(' :: List.replicate n '(' ++ List.replicate n ')' ++ [')']
    (read? (nested 32)).isSome = true ∧ read? (nested 33) = none := by decide

end LinkTail
end MarkdownHtml
