/-
# What it means to read a text as nodes

Running text is made of atoms: tokens, with runs of `*` and `_` taken apart into
their characters (`Atom`). A list of nodes is a reading of a list of atoms if the
atoms can be cut, from left to right and without rest, into one piece for each node,
and each piece is written the way its node is (`Piece`, `Reads`): text is the literal
value of its atoms, emphasis stands between delimiters of one character, the first
from a run that may open and the last from a run that may close, a link is a
bracketed reading of its children and a tail with its address and title, and so on.

Readings can be put together and taken apart at any node, and collecting nodes the
way the parser does, with neighbouring text merged, keeps a reading one.

Key definitions: `Atom`, `Atom.ofText`, `Piece`, `Reads`.
Key theorems: `Atom.flatMap_written_ofText`, `Reads.append`, `Reads.split`,
`Reads.absorb`.
-/
import MarkdownHtml.Inline.Parser
import MarkdownHtml.Proofs.CodeSpans
import MarkdownHtml.Proofs.LinkTails

namespace MarkdownHtml

/-! ### Atoms -/

/-- What a run of delimiters may do where it stands. -/
def Token.flanking (mark : Delimiter) (t : Token) : Flanking :=
  Flanking.between mark t.before t.after.head?

/-- A token, or one character of a run of delimiters. -/
inductive Atom where
  | token (t : Token)
  /-- One `mark` of the run `t`. -/
  | mark (mark : Delimiter) (t : Token)

namespace Atom

/-- The characters of an atom. -/
def written : Atom → List Char
  | .token t => t.lexeme
  | .mark m _ => [m.char]

/-- The text an atom stands for: an escape loses its backslash, a line end is a line
feed, and all else is itself. -/
def literal : Atom → List Char
  | .token t =>
    match t.kind with
    | .escape => t.lexeme.drop 1
    | .softBreak => ['\n']
    | _ => t.lexeme
  | .mark m _ => [m.char]

/-- Whether the atom is a hard line break, which is never text. -/
def isHardBreak : Atom → Bool
  | .token t => t.kind == .hardBreak
  | .mark .. => false

end Atom

/-- A token as atoms. -/
def Token.atoms (t : Token) : List Atom :=
  match t.delimiter? with
  | some m => List.replicate t.lexeme.length (.mark m t)
  | none => [.token t]

/-- The atoms of a text. -/
def Atom.ofText (s : List Char) : List Atom := (Token.ofText s).flatMap Token.atoms

/-- A run of delimiters is spelled with its character. -/
theorem Token.lexeme_of_delimiter? {t : Token} {m : Delimiter} (hs : t.kind.Spelled t.lexeme)
    (h : t.delimiter? = some m) : ∃ n, t.lexeme = List.replicate (n + 1) m.char := by
  unfold delimiter? at h
  split at h
  · rename_i hk
    obtain rfl : Delimiter.star = m := by simpa using h
    rw [hk] at hs
    exact hs
  · rename_i hk
    obtain rfl : Delimiter.underscore = m := by simpa using h
    rw [hk] at hs
    exact hs
  · exact absurd h (by simp)

/-- The atoms of a token are its characters. -/
theorem Token.flatMap_written_atoms {t : Token} (hs : t.kind.Spelled t.lexeme) :
    t.atoms.flatMap Atom.written = t.lexeme := by
  unfold Token.atoms
  split
  · rename_i m hm
    obtain ⟨n, hn⟩ := Token.lexeme_of_delimiter? hs hm
    simp [hn, Atom.written, List.flatMap_replicate]
  · simp [Atom.written]

theorem Token.flatMap_written {ts : List Token} (h : ∀ t ∈ ts, t.kind.Spelled t.lexeme) :
    (ts.flatMap Token.atoms).flatMap Atom.written = ts.flatMap Token.lexeme := by
  rw [List.flatMap_assoc, List.flatMap_def, List.flatMap_def]
  congr 1
  exact List.map_congr_left fun t ht => Token.flatMap_written_atoms (h t ht)

/-- Nothing of a text is outside its atoms. -/
theorem Atom.flatMap_written_ofText (s : List Char) : (ofText s).flatMap written = s := by
  rw [ofText, Token.flatMap_written (Token.tiles_ofText s).spelled, Token.flatMap_lexeme_ofText]

/-! ### Pieces and readings -/

mutual

/-- `Piece p n`: the atoms `p` are written the way the node `n` is. -/
inductive Piece : List Atom → Inline → Prop
  /-- Text is what its atoms stand for, and never empty. -/
  | text {p : List Atom} {s : String} :
      (∀ a ∈ p, a.isHardBreak = false) → p.flatMap Atom.literal = s.toList → s ≠ "" →
      Piece p (.text s)
  | emphasis {p : List Atom} {children : List Inline} {m : Delimiter} {first last : Token} :
      first.delimiter? = some m → (first.flanking m).canOpen = true →
      last.delimiter? = some m → (last.flanking m).canClose = true →
      Reads p children →
      Piece (List.replicate 1 (.mark m first) ++ p ++ List.replicate 1 (.mark m last))
        (.emphasis children)
  | strong {p : List Atom} {children : List Inline} {m : Delimiter} {first last : Token} :
      first.delimiter? = some m → (first.flanking m).canOpen = true →
      last.delimiter? = some m → (last.flanking m).canClose = true →
      Reads p children →
      Piece (List.replicate 2 (.mark m first) ++ p ++ List.replicate 2 (.mark m last))
        (.strong children)
  /-- Code stands between two runs of equally many backticks. -/
  | code {raw : List Atom} {first last : Token} {n : Nat} :
      first.lexeme = List.replicate (n + 1) '\x60' → last.lexeme = List.replicate (n + 1) '\x60' →
      Piece (.token first :: raw ++ [.token last])
        (.code (String.ofList (CodeSpan.content (raw.flatMap Atom.written))))
  /-- A link is a bracketed reading of its children and the whole tail behind it. -/
  | link {p tail : List Atom} {children : List Inline} {first last : Token} {t : LinkTail} :
      first.lexeme = ['['] → last.lexeme = [']'] → Reads p children →
      LinkTail.read? last.after = some t → tail.flatMap Atom.written = t.raw →
      Piece (.token first :: p ++ .token last :: tail)
        (.link (String.ofList t.destination) (t.title.map String.ofList) children)
  /-- Of an image only the plain text of what its brackets enclose is kept. -/
  | image {p tail : List Atom} {children : List Inline} {first last : Token} {t : LinkTail} :
      first.lexeme = ['!', '['] → last.lexeme = [']'] → Reads p children →
      LinkTail.read? last.after = some t → tail.flatMap Atom.written = t.raw →
      Piece (.token first :: p ++ .token last :: tail)
        (.image (String.ofList t.destination) (Inline.plainText children)
          (t.title.map String.ofList))
  | lineBreak {t : Token} : t.kind = .hardBreak → Piece [.token t] .lineBreak

/-- `Reads p ns`: the atoms `p` can be cut into consecutive pieces, one for each of the
nodes `ns`. -/
inductive Reads : List Atom → List Inline → Prop
  | nil : Reads [] []
  | cons {p q : List Atom} {n : Inline} {ns : List Inline} :
      Piece p n → Reads q ns → Reads (p ++ q) (n :: ns)

end

theorem Piece.reads {p : List Atom} {n : Inline} (h : Piece p n) : Reads p [n] := by
  have := Reads.cons h .nil
  simpa using this

theorem Reads.append {p q : List Atom} {ns ms : List Inline} (hp : Reads p ns)
    (hq : Reads q ms) : Reads (p ++ q) (ns ++ ms) := by
  induction ns generalizing p with
  | nil =>
    cases hp
    exact hq
  | cons n ns ih =>
    cases hp with
    | cons hn hns =>
      rw [List.append_assoc]
      exact .cons hn (ih hns)

/-- A reading falls apart where its nodes do. -/
theorem Reads.split {p : List Atom} {ns ms : List Inline} (h : Reads p (ns ++ ms)) :
    ∃ q r, p = q ++ r ∧ Reads q ns ∧ Reads r ms := by
  induction ns generalizing p with
  | nil => exact ⟨[], p, rfl, .nil, h⟩
  | cons n ns ih =>
    cases h with
    | @cons p₁ p₂ _ _ hn h =>
      obtain ⟨q, r, rfl, hq, hr⟩ := ih h
      exact ⟨p₁ ++ q, r, by rw [List.append_assoc], .cons hn hq, hr⟩

theorem Reads.of_singleton {p : List Atom} {n : Inline} (h : Reads p [n]) : Piece p n := by
  cases h with
  | cons hn h =>
    cases h
    rwa [List.append_nil]

/-! ### Collecting nodes -/

/-- Atoms that make up a text; no atoms make up no text. -/
structure Literal (p : List Atom) (s : String) : Prop where
  noBreak : ∀ a ∈ p, a.isHardBreak = false
  literal : p.flatMap Atom.literal = s.toList
  nonempty : s = "" → p = []

namespace Reads

theorem pushText {c : Content} {p q : List Atom} {s : String} (hc : Reads p c.toList)
    (hs : Literal q s) : Reads (p ++ q) (c.pushText s).toList := by
  obtain ⟨nodes, depth⟩ := c
  unfold Content.pushText
  split_ifs with he
  · rw [hs.nonempty (String.isEmpty_iff.mp he), List.append_nil]
    exact hc
  · have hne : s ≠ "" := fun h => he (String.isEmpty_iff.mpr h)
    split
    · -- the last node is text and grows
      rename_i t rest _ heq
      obtain ⟨rfl, rfl⟩ := Content.mk.inj heq
      simp only [Content.toList, List.reverse_cons] at hc ⊢
      obtain ⟨p₁, p₂, rfl, h₁, h₂⟩ := hc.split
      cases h₂.of_singleton with
      | text hb hl ht =>
        rw [List.append_assoc]
        refine h₁.append (Piece.text ?_ ?_ ?_).reads
        · intro a ha
          rcases List.mem_append.mp ha with ha | ha
          · exact hb a ha
          · exact hs.noBreak a ha
        · rw [List.flatMap_append, hl, hs.literal, String.toList_append]
        · intro h
          exact hne (String.append_eq_empty_iff.mp h).2
    · rename_i heq
      obtain ⟨rfl, rfl⟩ := Content.mk.inj heq
      simp only [Content.toList, List.reverse_cons] at hc ⊢
      exact hc.append (Piece.text hs.noBreak hs.literal hne).reads

theorem push {c : Content} {p q : List Atom} {n : Inline} {depth : Nat} (hc : Reads p c.toList)
    (hn : Piece q n) : Reads (p ++ q) (c.push n depth).toList := by
  simp only [Content.push, Content.toList, List.reverse_cons] at hc ⊢
  exact hc.append hn.reads

theorem addNode {c : Content} {p q : List Atom} {n : Inline} (hc : Reads p c.toList)
    (hn : Piece q n) : Reads (p ++ q) (c.addNode n).toList := by
  unfold Content.addNode
  split
  · cases hn with
    | text hb hl hs => exact hc.pushText ⟨hb, hl, fun h => absurd h hs⟩
  · simp only [Content.toList, List.reverse_cons] at hc ⊢
    exact hc.append hn.reads

theorem foldl_addNode {c : Content} {p q : List Atom} {ns : List Inline} (hc : Reads p c.toList)
    (hn : Reads q ns) : Reads (p ++ q) (ns.foldl Content.addNode c).toList := by
  induction ns generalizing c p q with
  | nil =>
    cases hn
    rwa [List.append_nil]
  | cons n ns ih =>
    cases hn with
    | cons hp hn =>
      rw [← List.append_assoc]
      exact ih (hc.addNode hp) hn

/-- What a frame that is given up leaves is read as its opener and its content. -/
theorem absorb {c other : Content} {p q r : List Atom} {s : String} (hc : Reads p c.toList)
    (hs : Literal q s) (ho : Reads r other.toList) :
    Reads (p ++ q ++ r) (Content.absorb s other c).toList := by
  have h := foldl_addNode (hc.pushText hs) ho
  simpa only [Content.absorb, Content.toList] using h

end Reads
end MarkdownHtml
