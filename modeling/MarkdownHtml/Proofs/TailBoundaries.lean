/-
# Where the parser goes on behind a link tail

A tail that is read from the byte behind a `]` ends with a `)` that is a token. So the
tokens behind the `]` come in two parts, those that lie in the tail, which are spelled as
the tail is, and those that start behind it. The parser, which passes over every token that
starts before the end of the tail, goes on with the first token of the second part, and
reads none of them in part (`LinkTail.ends_on_paren`).

The tail is read without regard to the tokens, from the bytes of the text; that these are
the bytes behind a token is `Token.Tiles.after_eq`.

Key theorems: `Token.Tiles.after_eq`, `Token.Tiles.cut_at`, `LinkTail.ends_on_paren`.
-/
import MarkdownHtml.Proofs.Encoding
import MarkdownHtml.Proofs.LongestMatch
import MarkdownHtml.Proofs.Steps

namespace MarkdownHtml

namespace Token

variable {s : List Char} {us vs : List Token} {t : Token}

/-- What stands behind a token is the text from the byte where it ends. -/
theorem Tiles.after_eq (h : Tiles 0 none s (us ++ t :: vs)) :
    (Text.splitAtBytes t.stop s).2 = t.after := by
  obtain ⟨b, hb⟩ := h.split
  rw [h.stop_eq, h.span.1, hb.tail.flatMap_lexeme, Text.splitAtBytes_append]

/-- Tokens that are laid end to end lie in front of a place between them, or behind it. -/
theorem Tiles.cut_at {start : Nat} {before : Option Char}
    (h : Tiles start before s (us ++ vs)) :
    (∀ u ∈ us, start ≤ u.start ∧ u.start < u.stop ∧
        u.stop ≤ start + Text.byteLength (us.flatMap lexeme)) ∧
      ∀ v ∈ vs, start + Text.byteLength (us.flatMap lexeme) ≤ v.start := by
  obtain ⟨b, hb⟩ := h.split
  refine ⟨fun u hu => ?_, hb.le_start⟩
  have hmem : u ∈ us ++ vs := List.mem_append_left _ hu
  exact ⟨h.le_start u hmem, h.start_lt_stop u hmem, h.stop_le u hu⟩

end Token

namespace LinkTail

/-- **A tail ends where a `)` ends.** If a tail is read from the byte where a token ends, then
the tokens behind that one are those of the tail, of which a `)` is the last, and others that
start behind the tail. To pass over all tokens that start before the end of the tail is to pass
over those of the tail. -/
theorem ends_on_paren {text : List Char} {us ts : List Token} {t : Token} {tail : LinkTail}
    (htokens : Token.ofText text = us ++ t :: ts)
    (hread : read? (Text.splitAtBytes t.stop text).2 = some tail) :
    ∃ inner close later, ts = inner ++ close :: later ∧
      close.kind = .rightParen ∧ close.stop = t.stop + tail.size ∧
      (inner ++ [close]).flatMap Token.lexeme = tail.raw ∧
      (∀ u ∈ inner ++ [close],
        t.stop ≤ u.start ∧ u.start < u.stop ∧ u.stop ≤ t.stop + tail.size) ∧
      (∀ u ∈ later, t.stop + tail.size ≤ u.start) ∧
      ∀ (limit index : Nat) (st : InlineParser.State) (closers : List (Option Nat)),
        InlineParser.run limit index (t.stop + tail.size) st ts closers =
          InlineParser.run limit (index + (inner.length + 1)) (t.stop + tail.size) st later
            (closers.drop (inner.length + 1)) := by
  have htiles : Token.Tiles 0 none text (us ++ t :: ts) := htokens ▸ Token.tiles_ofText text
  rw [htiles.after_eq] at hread
  obtain ⟨b, hb⟩ := htiles.split
  have hbehind := hb.tail
  obtain ⟨part, later, rfl, hraw, hlast⟩ := exists_tokens_of_read? hbehind hread
  obtain ⟨close, hclose, hkind⟩ := Option.map_eq_some_iff.mp hlast
  obtain ⟨inner, rfl⟩ := List.getLast?_eq_some_iff.mp hclose
  obtain ⟨hinside, houtside⟩ := hbehind.cut_at
  have hsize : t.stop + Text.byteLength ((inner ++ [close]).flatMap Token.lexeme) =
      t.stop + tail.size := by rw [hraw, size]
  rw [hsize] at hinside houtside
  have hstop : close.stop = t.stop + tail.size := by
    have hall : Token.Tiles 0 none text ((us ++ t :: inner) ++ close :: later) := by
      simpa using htiles
    rw [hall.stop_eq, ← hsize, htiles.stop_eq]
    simp only [List.flatMap_append, List.flatMap_cons, List.flatMap_nil, List.append_nil,
      Text.byteLength_append]
    omega
  refine ⟨inner, close, later, by simp, hkind, hstop, hraw, hinside, houtside, ?_⟩
  intro limit index st closers
  have hskip : ∀ u ∈ inner ++ [close], u.start < t.stop + tail.size := by
    intro u hu
    obtain ⟨-, hpos, hle⟩ := hinside u hu
    omega
  rw [InlineParser.run_skip later closers hskip, List.length_append, List.length_singleton]

/-- A `)` that is escaped, one in balanced parentheses and one in the title do not end the tail,
and the break before the title is one token of it. -/
theorem ends_on_paren_third :
    let text := "[x](a\\)(b)  \n\"c)\" ) *d*".toList
    ∃ inner close later, (Token.ofText text).drop 3 = inner ++ close :: later ∧
      close.kind = .rightParen ∧ close.stop = 19 ∧ ∀ u ∈ later, 19 ≤ u.start := by
  intro text
  obtain ⟨inner, close, later, hcut, hkind, hstop, -, -, hlater, -⟩ :=
    @ends_on_paren text ((Token.ofText text).take 2) ((Token.ofText text).drop 3)
      (Token.ofText text)[2]
      ⟨"a)(b)".toList, some "c)".toList, "(a\\)(b)  \n\"c)\" )".toList⟩ (by decide) (by decide)
  exact ⟨inner, close, later, hcut, hkind, hstop, hlater⟩

end LinkTail
end MarkdownHtml
