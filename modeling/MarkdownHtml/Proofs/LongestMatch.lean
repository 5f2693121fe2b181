/-
# Tokens are longest matches

Fourteen rules say how tokens are spelled (`TokenKind.Matches`), and they overlap: spaces
may start a run of blanks or a hard break, a backslash an escape or a hard break, and `![`
competes with a lone `!`. At each place the rule that matches most wins, and no two rules
match equally much. A character that starts no match is a token of plain text by itself.
`TokenKind.First` says so without regard to how a token is found, and `Token.scan` finds
just this token (`Token.first_scan`).

What the tokens of a text have to do with the text follows from that alone. They are laid
end to end over all of it, on character boundaries, and a run of delimiters takes in every
delimiter of its kind around it, but for one that is escaped: two runs of one kind side by
side would be one longer match (`Token.tiling_ofText`).

Key definitions: `TokenKind.Matches`, `TokenKind.First`, `TokenKind.run?`, `Token.Tiling`.
Key theorems: `TokenKind.Matches.le_scan`, `Token.first_scan`, `TokenKind.First.head_ne`,
`Token.Tiles.neighbours`, `Token.tiling_ofText`.
-/
import MarkdownHtml.Proofs.Tokens

namespace MarkdownHtml

/-! ### The rules -/

/-- A line feed, or a carriage return before one. -/
def Text.EndsLine (e : List Char) : Prop := e = ['\n'] ∨ e = ['\r', '\n']

namespace TokenKind

/-- The rules by which a text is cut into tokens. -/
inductive Matches : TokenKind → List Char → Prop
  | backticks (n : Nat) : Matches .backticks (List.replicate (n + 1) '\x60')
  | stars (n : Nat) : Matches .stars (List.replicate (n + 1) '*')
  | underscores (n : Nat) : Matches .underscores (List.replicate (n + 1) '_')
  | imageOpen : Matches .imageOpen ['!', '[']
  | leftBracket : Matches .leftBracket ['[']
  | rightBracket : Matches .rightBracket [']']
  | leftParen : Matches .leftParen ['(']
  | rightParen : Matches .rightParen [')']
  | escape {c : Char} : Text.isPunctuation c = true → Matches .escape ['\\', c]
  | spaces (n : Nat) {e : List Char} : Text.EndsLine e →
      Matches .hardBreak (List.replicate (n + 2) ' ' ++ e)
  | backslash {e : List Char} : Text.EndsLine e → Matches .hardBreak ('\\' :: e)
  | softBreak {e : List Char} : Text.EndsLine e → Matches .softBreak e
  | blank {w : List Char} : w ≠ [] → (∀ c ∈ w, Text.isPad c = true) → Matches .blank w
  | text {w : List Char} : w ≠ [] → (∀ c ∈ w, Token.isPlain c = true) → Matches .text w

/-- `First kind w rest`: the first token of the text `w ++ rest` is `w`, and it is of this
kind. No rule matches more of the text, and no other as much; or none matches anything, and
`w` is one character. -/
inductive First : TokenKind → List Char → List Char → Prop
  | longest {kind : TokenKind} {w rest : List Char} : kind.Matches w →
      (∀ {k : TokenKind} {x y : List Char}, k.Matches x → x ++ y = w ++ rest →
        x.length ≤ w.length ∧ (x.length = w.length → k = kind)) →
      First kind w rest
  | lone {c : Char} {rest : List Char} :
      (∀ {k : TokenKind} {x y : List Char}, k.Matches x → x ++ y ≠ c :: rest) →
      First .text [c] rest

theorem Matches.ne_nil {k : TokenKind} {w : List Char} (h : k.Matches w) : w ≠ [] := by
  cases h with
  | softBreak he => rcases he with rfl | rfl <;> exact List.cons_ne_nil _ _
  | blank hne => exact hne
  | text hne => exact hne
  | _ => exact List.cons_ne_nil _ _

end TokenKind

/-! ### What is scanned -/

namespace Token

/-- A run is not shorter than a text of its characters at its start. -/
theorem le_countWhile {p : Char → Bool} {w : List Char} (h : ∀ c ∈ w, p c = true)
    (rest : List Char) : w.length ≤ countWhile p (w ++ rest) := by
  rw [countWhile, List.takeWhile_append_of_pos h, List.length_append]
  omega

theorem lineEndLength_append {e : List Char} (h : Text.EndsLine e) (rest : List Char) :
    lineEndLength (e ++ rest) = e.length := by
  rcases h with rfl | rfl <;> rfl

/-- What is counted at a line end is the line end. -/
theorem exists_lineEnd {s : List Char} (h : lineEndLength s ≠ 0) :
    ∃ e rest, s = e ++ rest ∧ Text.EndsLine e ∧ lineEndLength s = e.length := by
  unfold lineEndLength at *
  split at h
  · exact ⟨['\n'], _, rfl, .inl rfl, rfl⟩
  · exact ⟨['\r', '\n'], _, rfl, .inr rfl, rfl⟩
  · exact absurd rfl h

theorem scan_of_isPlain {c : Char} (h : isPlain c = true) (rest : List Char) :
    scan c rest = (.text, countWhile isPlain rest) := by
  unfold scan
  split
  iterate 13 exact absurd h (by decide)
  rfl

/-- Spaces that lead straight to a line end are a hard break, and all the blanks there are. -/
theorem scanSpace_break (n : Nat) {e : List Char} (he : Text.EndsLine e) (r : List Char) :
    scanSpace (List.replicate (n + 1) ' ' ++ (e ++ r)) = (.hardBreak, n + 1 + e.length) ∧
      countWhile Text.isPad (List.replicate (n + 1) ' ' ++ (e ++ r)) = n + 1 := by
  have hcount : ∀ p : Char → Bool, p ' ' = true → p '\n' = false → p '\r' = false →
      countWhile p (List.replicate (n + 1) ' ' ++ (e ++ r)) = n + 1 := by
    intro p hspace hfeed hreturn
    have hstop : ∀ c ∈ (e ++ r).head?, p c = false := by
      intro c hc
      rcases he with rfl | rfl
      · obtain rfl : '\n' = c := Option.some.inj hc
        exact hfeed
      · obtain rfl : '\r' = c := Option.some.inj hc
        exact hreturn
    rw [countWhile_append hstop, countWhile, List.takeWhile_replicate, if_pos hspace,
      List.length_replicate]
  have hspaces := hcount (· == ' ') rfl rfl rfl
  have hend : 1 ≤ e.length := by rcases he with rfl | rfl <;> simp
  have hdrop : (List.replicate (n + 1) ' ' ++ (e ++ r)).drop (n + 1) = e ++ r :=
    List.drop_left' List.length_replicate
  refine ⟨?_, hcount Text.isPad rfl rfl rfl⟩
  simp only [scanSpace, hspaces, hdrop, lineEndLength_append he]
  rw [if_pos ⟨by omega, hend⟩]

/-- Behind a space, spaces lead to a line end, or the blanks are a token. -/
theorem scanSpace_cases (rest : List Char) :
    scanSpace rest = (.blank, countWhile Text.isPad rest) ∨
      ∃ n e r, rest = List.replicate (n + 1) ' ' ++ (e ++ r) ∧ Text.EndsLine e := by
  by_cases h : 1 ≤ countWhile (· == ' ') rest ∧
      1 ≤ lineEndLength (rest.drop (countWhile (· == ' ') rest))
  · right
    obtain ⟨e, r, hr, he, -⟩ := exists_lineEnd (Nat.pos_iff_ne_zero.mp h.2)
    have hspaces : rest.takeWhile (· == ' ') =
        List.replicate (countWhile (· == ' ') rest) ' ' := by
      refine List.eq_replicate_iff.mpr ⟨rfl, fun c hc => ?_⟩
      simpa using List.all_eq_true.mp List.all_takeWhile c hc
    refine ⟨countWhile (· == ' ') rest - 1, e, r, ?_, he⟩
    rw [Nat.sub_add_cancel h.1, ← hspaces, ← hr, drop_countWhile, List.takeWhile_append_dropWhile]
  · left
    simp only [scanSpace]
    rw [if_neg h]

end Token

namespace TokenKind

/-- The scanned token is the longest: a rule that matches the start of a text matches no more
than is scanned, and if it matches as much it is the rule for what is scanned. -/
theorem Matches.le_scan {k : TokenKind} {c : Char} {x y rest : List Char} (h : k.Matches x)
    (hx : x ++ y = c :: rest) :
    x.length ≤ (Token.scan c rest).2 + 1 ∧
      (x.length = (Token.scan c rest).2 + 1 → k = (Token.scan c rest).1) := by
  have hrun : ∀ (d : Char) (n : Nat), List.replicate (n + 1) d ++ y = c :: rest →
      d = c ∧ (List.replicate (n + 1) d).length ≤ Token.countWhile (· == d) rest + 1 := by
    intro d n hn
    rw [List.replicate_succ, List.cons_append] at hn
    obtain ⟨rfl, rfl⟩ := List.cons.inj hn
    have hle := Token.le_countWhile (p := (· == d)) (w := List.replicate n d) (by simp) y
    rw [List.length_replicate] at hle ⊢
    exact ⟨rfl, by omega⟩
  have hclass : ∀ (p : Char → Bool) (w : List Char), (∀ d ∈ w, p d = true) → w ++ y = c :: rest →
      w ≠ [] → p c = true ∧ w.length ≤ Token.countWhile p rest + 1 := by
    intro p w hw hwy hne
    obtain ⟨d, w, rfl⟩ := List.exists_cons_of_ne_nil hne
    obtain ⟨rfl, rfl⟩ := List.cons.inj hwy
    have hle := Token.le_countWhile (fun e he => hw e (List.mem_cons_of_mem _ he)) y
    exact ⟨hw d List.mem_cons_self, by simpa using hle⟩
  cases h with
  | backticks n =>
    obtain ⟨rfl, hle⟩ := hrun _ n hx
    exact ⟨hle, fun _ => rfl⟩
  | stars n =>
    obtain ⟨rfl, hle⟩ := hrun _ n hx
    exact ⟨hle, fun _ => rfl⟩
  | underscores n =>
    obtain ⟨rfl, hle⟩ := hrun _ n hx
    exact ⟨hle, fun _ => rfl⟩
  | imageOpen =>
    obtain ⟨rfl, rfl⟩ := List.cons.inj hx
    exact ⟨Nat.le_refl _, fun _ => rfl⟩
  | leftBracket | rightBracket | leftParen | rightParen =>
    obtain ⟨rfl, rfl⟩ := List.cons.inj hx
    exact ⟨Nat.le_refl _, fun _ => rfl⟩
  | @escape d hd =>
    obtain ⟨rfl, rfl⟩ := List.cons.inj hx
    have hscan : Token.scan '\\' (d :: y) = (.escape, 1) := by
      simp [Token.scan, Token.scanBackslash, hd]
    change _ ≤ (Token.scan '\\' (d :: y)).2 + 1 ∧ (_ → _ = (Token.scan '\\' (d :: y)).1)
    rw [hscan]
    exact ⟨Nat.le_refl _, fun _ => rfl⟩
  | @spaces n e he =>
    rw [List.replicate_succ, List.cons_append, List.cons_append, List.append_assoc] at hx
    obtain ⟨rfl, rfl⟩ := List.cons.inj hx
    have hscan : Token.scan ' ' (List.replicate (n + 1) ' ' ++ (e ++ y)) =
        (.hardBreak, n + 1 + e.length) := (Token.scanSpace_break n he y).1
    rw [hscan, List.length_append, List.length_replicate]
    exact ⟨by omega, fun _ => rfl⟩
  | @backslash e he =>
    obtain ⟨rfl, rfl⟩ := List.cons.inj hx
    rcases he with rfl | rfl <;> exact ⟨Nat.le_refl _, fun _ => rfl⟩
  | softBreak he =>
    rcases he with rfl | rfl
    · obtain ⟨rfl, rfl⟩ := List.cons.inj hx
      exact ⟨Nat.le_refl _, fun _ => rfl⟩
    · obtain ⟨rfl, rfl⟩ := List.cons.inj hx
      exact ⟨Nat.le_refl _, fun _ => rfl⟩
  | blank hne hw =>
    obtain ⟨hc, hle⟩ := hclass _ x hw hx hne
    have hor : c = ' ' ∨ c = '\t' := Text.isPad_iff.mp hc
    rcases hor with rfl | rfl
    · rcases Token.scanSpace_cases rest with hscan | ⟨n, e, r, rfl, he⟩
      · have hblank : Token.scan ' ' rest = (.blank, Token.countWhile Text.isPad rest) := hscan
        rw [hblank]
        exact ⟨hle, fun _ => rfl⟩
      · -- the hard break has all these blanks and a line end behind them
        obtain ⟨hscan, hpads⟩ := Token.scanSpace_break n he r
        have hbreak : Token.scan ' ' (List.replicate (n + 1) ' ' ++ (e ++ r)) =
            (.hardBreak, n + 1 + e.length) := hscan
        have hpos : 1 ≤ e.length := by rcases he with rfl | rfl <;> simp
        rw [hpads] at hle
        rw [hbreak]
        exact ⟨by omega, fun heq => absurd heq (by omega)⟩
    · exact ⟨hle, fun _ => rfl⟩
  | text hne hw =>
    obtain ⟨hc, hle⟩ := hclass _ x hw hx hne
    rw [Token.scan_of_isPlain hc]
    exact ⟨hle, fun _ => rfl⟩

end TokenKind

namespace Token

/-- What is scanned matches a rule, or is a character by itself that is not plain. -/
theorem exists_of_scan (c : Char) (rest : List Char) :
    ∃ w r, rest = w ++ r ∧ (scan c rest).2 = w.length ∧
      ((scan c rest).1.Matches (c :: w) ∨
        (scan c rest).1 = .text ∧ w = [] ∧ isPlain c = false) := by
  have hclass : ∀ {kind : TokenKind} {p : Char → Bool} {d : Char},
      (∀ w : List Char, (∀ e ∈ w, p e = true) → kind.Matches (d :: w)) →
      ∃ w r, rest = w ++ r ∧ countWhile p rest = w.length ∧
        (kind.Matches (d :: w) ∨ kind = .text ∧ w = [] ∧ isPlain d = false) :=
    fun {_ p _} hkind => ⟨rest.takeWhile p, rest.dropWhile p, List.takeWhile_append_dropWhile.symm,
      rfl, .inl (hkind _ fun e he => List.all_eq_true.mp List.all_takeWhile e he)⟩
  have hrun : ∀ {kind : TokenKind} {d : Char},
      (∀ n, kind.Matches (List.replicate (n + 1) d)) →
      ∃ w r, rest = w ++ r ∧ countWhile (· == d) rest = w.length ∧
        (kind.Matches (d :: w) ∨ kind = .text ∧ w = [] ∧ isPlain d = false) := by
    intro kind d hkind
    refine hclass fun w hw => ?_
    have hreplicate : w = List.replicate w.length d :=
      List.eq_replicate_iff.mpr ⟨rfl, fun e he => by simpa using hw e he⟩
    rw [hreplicate, ← List.replicate_succ]
    exact hkind _
  unfold scan
  split
  · exact hrun .backticks
  · exact hrun .stars
  · exact hrun .underscores
  · split_ifs with h
    · obtain ⟨s, rfl⟩ := List.head?_eq_some_iff.mp h
      exact ⟨['['], s, rfl, rfl, .inl .imageOpen⟩
    · exact ⟨[], rest, rfl, rfl, .inr ⟨rfl, rfl, rfl⟩⟩
  · exact ⟨[], rest, rfl, rfl, .inl .leftBracket⟩
  · exact ⟨[], rest, rfl, rfl, .inl .rightBracket⟩
  · exact ⟨[], rest, rfl, rfl, .inl .leftParen⟩
  · exact ⟨[], rest, rfl, rfl, .inl .rightParen⟩
  · unfold scanBackslash
    split
    · exact ⟨[], [], rfl, rfl, .inr ⟨rfl, rfl, rfl⟩⟩
    · rename_i d s
      split_ifs with hd hend
      · exact ⟨[d], s, rfl, rfl, .inl (.escape hd)⟩
      · exact ⟨[], d :: s, rfl, rfl, .inr ⟨rfl, rfl, rfl⟩⟩
      · obtain ⟨e, r, hr, he, hlength⟩ := exists_lineEnd hend
        exact ⟨e, r, hr, hlength, .inl (.backslash he)⟩
  · exact ⟨[], rest, rfl, rfl, .inl (.softBreak (.inl rfl))⟩
  · split_ifs with h
    · obtain ⟨s, rfl⟩ := List.head?_eq_some_iff.mp h
      exact ⟨['\n'], s, rfl, rfl, .inl (.softBreak (.inr rfl))⟩
    · exact ⟨[], rest, rfl, rfl, .inr ⟨rfl, rfl, rfl⟩⟩
  · rcases scanSpace_cases rest with hscan | ⟨n, e, r, rfl, he⟩
    · rw [hscan]
      exact hclass fun w hw => .blank (List.cons_ne_nil _ _) (List.forall_mem_cons.mpr ⟨rfl, hw⟩)
    · rw [(scanSpace_break n he r).1]
      refine ⟨List.replicate (n + 1) ' ' ++ e, r, (List.append_assoc _ _ _).symm, by simp, .inl ?_⟩
      rw [← List.cons_append, ← List.replicate_succ]
      exact .spaces n he
  · exact hclass fun w hw => .blank (List.cons_ne_nil _ _) (List.forall_mem_cons.mpr ⟨rfl, hw⟩)
  · have hc : isPlain c = true := by
      simp only [isPlain, Bool.not_eq_true', Bool.or_eq_false_iff, beq_eq_false_iff_ne, ne_eq]
      tauto
    exact hclass fun w hw => .text (List.cons_ne_nil _ _) (List.forall_mem_cons.mpr ⟨hc, hw⟩)

/-- **The scanned token is the first one by the rules.** -/
theorem first_scan (c : Char) (rest : List Char) :
    (scan c rest).1.First (c :: rest.take (scan c rest).2) (rest.drop (scan c rest).2) := by
  obtain ⟨w, r, rfl, hn, hw⟩ := exists_of_scan c rest
  have hle := fun {k : TokenKind} {x y : List Char} (hx : k.Matches x)
    (hxy : x ++ y = c :: (w ++ r)) => hx.le_scan hxy
  rw [hn] at hle
  rw [hn, List.take_left, List.drop_left]
  rcases hw with hmatches | ⟨hkind, rfl, hplain⟩
  · refine .longest hmatches fun hx hxy => ?_
    rw [List.length_cons]
    exact hle hx hxy
  · rw [hkind] at hle ⊢
    refine .lone fun {k x y} hx hxy => ?_
    -- a match would be this character, and plain text
    obtain ⟨hlength, hsame⟩ := hle hx hxy
    have hpos : 0 < x.length := List.length_pos_iff.mpr hx.ne_nil
    obtain rfl := hsame (by simp only [List.length_nil] at hlength ⊢; omega)
    obtain ⟨d, x, rfl⟩ := List.exists_cons_of_ne_nil hx.ne_nil
    obtain ⟨rfl, -⟩ := List.cons.inj hxy
    cases hx with
    | text _ hall =>
      rw [hall d List.mem_cons_self] at hplain
      exact absurd hplain (by simp)

end Token

/-! ### Runs of delimiters -/

namespace TokenKind

/-- The character that tokens of this kind are runs of. -/
def run? : TokenKind → Option Char
  | .backticks => some '\x60'
  | .stars => some '*'
  | .underscores => some '_'
  | _ => none

variable {k : TokenKind} {c : Char} {w rest : List Char}

theorem matches_iff_of_run? (hk : k.run? = some c) :
    k.Matches w ↔ ∃ n, w = List.replicate (n + 1) c := by
  cases k with
  | backticks =>
    obtain rfl := Option.some.inj hk
    refine ⟨fun h => ?_, fun ⟨n, hn⟩ => hn ▸ .backticks n⟩
    cases h with
    | backticks n => exact ⟨n, rfl⟩
  | stars =>
    obtain rfl := Option.some.inj hk
    refine ⟨fun h => ?_, fun ⟨n, hn⟩ => hn ▸ .stars n⟩
    cases h with
    | stars n => exact ⟨n, rfl⟩
  | underscores =>
    obtain rfl := Option.some.inj hk
    refine ⟨fun h => ?_, fun ⟨n, hn⟩ => hn ▸ .underscores n⟩
    cases h with
    | underscores n => exact ⟨n, rfl⟩
  | _ => exact absurd hk (by simp [run?])

/-- No two kinds are runs of one character. -/
theorem eq_of_run? {d : TokenKind} (hk : k.run? = some c) (hd : d.run? = some c) : k = d := by
  cases k with
  | backticks | stars | underscores =>
    obtain rfl := Option.some.inj hk
    cases d with
    | backticks | stars | underscores =>
      first
      | rfl
      | exact absurd hd (by decide)
    | _ => exact absurd hd (by simp [run?])
  | _ => exact absurd hk (by simp [run?])

/-- Delimiters are no blanks, no plain text and no other marks. -/
theorem not_isPlain_of_run? (hk : k.run? = some c) :
    Text.isPad c = false ∧ Token.isPlain c = false ∧ c ∉ ['\n', '[', ']', '(', ')'] := by
  cases k with
  | backticks | stars | underscores =>
    obtain rfl := Option.some.inj hk
    decide
  | _ => exact absurd hk (by simp [run?])

/-- A token of this kind consists of its character. -/
theorem First.eq_replicate (h : k.First w rest) (hk : k.run? = some c) :
    ∃ n, w = List.replicate (n + 1) c := by
  cases h with
  | longest hmatches => exact (matches_iff_of_run? hk).mp hmatches
  | lone => exact absurd hk (by simp [run?])

/-- A run ends where its characters do, since it would be longer otherwise. -/
theorem First.head_ne (h : k.First w rest) (hk : k.run? = some c) : rest.head? ≠ some c := by
  intro hhead
  obtain ⟨r, rfl⟩ := List.head?_eq_some_iff.mp hhead
  cases h with
  | longest hmatches hlongest =>
    obtain ⟨n, rfl⟩ := (matches_iff_of_run? hk).mp hmatches
    have hlonger : k.Matches (List.replicate (n + 2) c) := (matches_iff_of_run? hk).mpr ⟨n + 1, rfl⟩
    have hsame : List.replicate (n + 2) c ++ r = List.replicate (n + 1) c ++ c :: r := by
      rw [List.replicate_succ', List.append_assoc, List.singleton_append]
    have hle := (hlongest hlonger hsame).1
    rw [List.length_replicate, List.length_replicate] at hle
    omega
  | lone => exact absurd hk (by simp [run?])

/-- A token that ends with a delimiter is a run of it, or escapes it. -/
theorem First.of_getLast {d : TokenKind} (h : k.First w rest) (hd : d.run? = some c)
    (hlast : w.getLast? = some c) : k.run? = some c ∨ k = .escape ∧ w = ['\\', c] := by
  obtain ⟨hpad, hplain, hmarks⟩ := not_isPlain_of_run? hd
  have hmem : c ∈ w := List.mem_of_getLast? hlast
  have hmark : ∀ {m : Char}, m ∈ ['\n', '[', ']', '(', ')'] → some m ≠ some c :=
    fun hm heq => hmarks (Option.some.inj heq ▸ hm)
  have hend : ∀ x e : List Char, Text.EndsLine e → (x ++ e).getLast? ≠ some c := by
    rintro x e (rfl | rfl) hc
    all_goals exact hmark (m := '\n') (by simp) (by simpa using hc)
  cases h with
  | lone hlone =>
    -- the run of one character would match
    obtain rfl : _ = c := by simpa using hlast
    exact absurd rfl (hlone (y := rest) ((matches_iff_of_run? hd).mpr ⟨0, rfl⟩))
  | longest hmatches =>
    cases hmatches with
    | backticks | stars | underscores =>
      obtain rfl := List.eq_of_mem_replicate hmem
      exact .inl rfl
    | imageOpen | leftBracket | rightBracket | leftParen | rightParen =>
      exact absurd hlast (hmark (by simp))
    | escape =>
      obtain rfl : _ = c := by simpa using hlast
      exact .inr ⟨rfl, rfl⟩
    | spaces n he => exact absurd hlast (hend _ _ he)
    | backslash he => exact absurd hlast (hend ['\\'] _ he)
    | softBreak he => exact absurd hlast (hend [] _ he)
    | blank _ hall => exact absurd (hall c hmem) (by simp [hpad])
    | text _ hall => exact absurd (hall c hmem) (by simp [hplain])

end TokenKind

/-! ### How tokens lie in their text -/

/-- A place between two characters of `s`, or at one of its ends, `n` bytes behind its start. -/
def Text.IsBoundary (s : List Char) (n : Nat) : Prop := ∃ a b, s = a ++ b ∧ byteLength a = n

namespace Token

/-- Tokens that are laid end to end over all of `s`, each a longest match and not empty, and
the runs of delimiters among them as long as can be. -/
structure Tiling (s : List Char) (ts : List Token) : Prop where
  nonempty : ∀ t ∈ ts, t.start < t.stop
  first : ∀ t ∈ ts.head?, t.start = 0
  adjacent : ts.IsChain fun t u => t.stop = u.start
  last : ∀ t ∈ ts.getLast?, t.stop = Text.byteLength s
  /-- There are tokens if there is text. -/
  nil : ts = [] ↔ s = []
  boundaries : ∀ t ∈ ts, Text.IsBoundary s t.start ∧ Text.IsBoundary s t.stop
  /-- What stands between the ends of a token is the token, and the first behind it. -/
  spans : ∀ us t vs, ts = us ++ t :: vs →
    s = us.flatMap lexeme ++ t.lexeme ++ vs.flatMap lexeme ∧
      Text.byteLength (us.flatMap lexeme) = t.start ∧
      t.kind.First t.lexeme (vs.flatMap lexeme)
  /-- No two neighbours are runs of one kind. -/
  apart : ts.IsChain fun t u => t.kind = u.kind → t.kind.run? = none
  /-- Around a run stand no more of its delimiters, but for one in front that is escaped. -/
  maximal : ∀ us t vs, ts = us ++ t :: vs → ∀ c, t.kind.run? = some c →
    (∀ d ∈ t.lexeme, d = c) ∧ (vs.flatMap lexeme).head? ≠ some c ∧
      ((us.flatMap lexeme).getLast? = some c →
        ∃ u, us.getLast? = some u ∧ u.kind = .escape ∧ u.lexeme = ['\\', c])

/-- The first of some tokens is the first by the rules. -/
theorem Tiles.first {start : Nat} {before : Option Char} {s : List Char} {t : Token}
    {ts : List Token} (h : Tiles start before s (t :: ts)) :
    t.kind.First t.lexeme (ts.flatMap lexeme) := by
  rw [h.tail.flatMap_lexeme]
  cases h with
  | @cons _ _ c rest _ _ => exact first_scan c rest

/-- Runs of one kind are no neighbours: the first would not be the longest match. -/
theorem Tiles.run?_eq_none {start : Nat} {before : Option Char} {s : List Char} {t u : Token}
    {ts : List Token} (h : Tiles start before s (t :: u :: ts)) (hk : t.kind = u.kind) :
    t.kind.run? = none := by
  by_contra hrun
  obtain ⟨c, hc⟩ := Option.ne_none_iff_exists'.mp hrun
  obtain ⟨n, hn⟩ := h.tail.first.eq_replicate (hk ▸ hc)
  have hhead := h.first.head_ne hc
  rw [List.flatMap_cons, hn, List.replicate_succ, List.cons_append] at hhead
  exact hhead rfl

theorem run?_of_delimiter? {t : Token} {m : Delimiter} (h : t.delimiter? = some m) :
    t.kind.run? = some m.char := by
  unfold delimiter? at h
  split at h
  · rename_i hk
    obtain rfl := Option.some.inj h
    rw [hk]
    rfl
  · rename_i hk
    obtain rfl := Option.some.inj h
    rw [hk]
    rfl
  · exact absurd h (by simp)

/-- No two neighbours are runs of the same delimiter. -/
theorem Tiles.neighbours {start : Nat} {before : Option Char} {s : List Char} {t u : Token}
    {ts : List Token} (h : Tiles start before s (t :: u :: ts)) : Apart t u := by
  by_cases hnone : t.delimiter? = none
  · exact .inl hnone
  · obtain ⟨m, hm⟩ := Option.ne_none_iff_exists'.mp hnone
    refine .inr fun hsame => ?_
    have ht := run?_of_delimiter? hm
    have hu := run?_of_delimiter? (hsame.symm.trans hm)
    have hrun := h.run?_eq_none (TokenKind.eq_of_run? ht hu)
    exact absurd (ht.symm.trans hrun) (by simp)

variable {s : List Char} {us vs : List Token} {t u : Token}

/-- The tokens before and behind a token are the text before and behind it. -/
theorem Tiles.span (h : Tiles 0 none s (us ++ t :: vs)) :
    s = us.flatMap lexeme ++ t.lexeme ++ vs.flatMap lexeme ∧
      Text.byteLength (us.flatMap lexeme) = t.start ∧
      t.kind.First t.lexeme (vs.flatMap lexeme) := by
  obtain ⟨b, hb⟩ := h.split
  refine ⟨?_, ?_, hb.first⟩
  · rw [← h.flatMap_lexeme, List.flatMap_append, List.flatMap_cons, List.append_assoc]
  · have hstart := hb.start_head
    omega

theorem Tiles.stop_eq (h : Tiles 0 none s (us ++ t :: vs)) :
    t.stop = Text.byteLength (us.flatMap lexeme ++ t.lexeme) := by
  rw [Text.byteLength_append, h.span.2.1]
  rfl

theorem Tiles.stop_eq_start (h : Tiles 0 none s (us ++ t :: u :: vs)) : t.stop = u.start := by
  have hnext : Tiles 0 none s ((us ++ [t]) ++ u :: vs) := by simpa using h
  rw [h.stop_eq, ← hnext.span.2.1, List.flatMap_append, List.flatMap_singleton]

/-- In front of a run stands no more of its character, unless that is escaped. -/
theorem Tiles.escape_before_run (h : Tiles 0 none s (us ++ t :: vs)) {c : Char}
    (hc : t.kind.run? = some c) (hlast : (us.flatMap lexeme).getLast? = some c) :
    ∃ u, us.getLast? = some u ∧ u.kind = .escape ∧ u.lexeme = ['\\', c] := by
  rcases List.eq_nil_or_concat us with rfl | ⟨us, u, rfl⟩
  · exact absurd hlast (by simp)
  · rw [List.concat_eq_append] at h hlast ⊢
    have hbefore : Tiles 0 none s (us ++ u :: t :: vs) := by simpa using h
    have hne : u.lexeme ≠ [] := lexeme_ne_nil_of_spelled (h.spelled u (by simp))
    rw [List.flatMap_append, List.flatMap_singleton, List.getLast?_append_of_ne_nil _ hne] at hlast
    refine ⟨u, by simp, ?_⟩
    rcases hbefore.span.2.2.of_getLast hc hlast with hrun | hescape
    · -- the run `u` would go on into `t`
      obtain ⟨n, hn⟩ := h.span.2.2.eq_replicate hc
      have hhead := hbefore.span.2.2.head_ne hrun
      rw [List.flatMap_cons, hn, List.replicate_succ, List.cons_append] at hhead
      exact absurd rfl hhead
    · exact hescape

/-- **The tokens of a text tile it.** They are longest matches, laid end to end from the start of
the text to its end, on character boundaries, and no run of delimiters could be longer. -/
theorem tiling_ofText (s : List Char) : Tiling s (ofText s) := by
  have h := tiles_ofText s
  generalize ofText s = ts at h
  refine ⟨h.start_lt_stop, fun t ht => ?_, ?_, fun t ht => ?_, ?_, fun t ht => ?_, ?_, ?_, ?_⟩
  · obtain ⟨vs, rfl⟩ := List.head?_eq_some_iff.mp ht
    exact h.start_head
  · refine List.isChain_iff_forall_rel_of_append_cons_cons.mpr ?_
    rintro t u us vs rfl
    exact h.stop_eq_start
  · obtain ⟨us, rfl⟩ := List.getLast?_eq_some_iff.mp ht
    rw [h.stop_eq, ← h.flatMap_lexeme, List.flatMap_append, List.flatMap_singleton]
  · constructor
    · rintro rfl
      exact h.flatMap_lexeme.symm
    · rintro rfl
      cases h
      rfl
  · obtain ⟨us, vs, rfl⟩ := List.append_of_mem ht
    obtain ⟨hs, hstart, -⟩ := h.span
    refine ⟨⟨_, _, hs.trans (List.append_assoc _ _ _), hstart⟩, ⟨_, _, hs, h.stop_eq.symm⟩⟩
  · rintro us t vs rfl
    exact h.span
  · refine List.isChain_iff_forall_rel_of_append_cons_cons.mpr ?_
    rintro t u us vs rfl
    obtain ⟨b, hb⟩ := h.split
    exact hb.run?_eq_none
  · rintro us t vs rfl c hc
    obtain ⟨n, hn⟩ := h.span.2.2.eq_replicate hc
    exact ⟨fun d hd => List.eq_of_mem_replicate (hn ▸ hd), h.span.2.2.head_ne hc,
      h.escape_before_run hc⟩

/-- The first star is escaped, and the spaces belong to the break. -/
example :
    (ofText "\\***  \n".toList).map (fun t => (t.kind, t.start, t.stop)) =
      [(.escape, 0, 2), (.stars, 2, 4), (.hardBreak, 4, 7)] := by decide

end Token
end MarkdownHtml
