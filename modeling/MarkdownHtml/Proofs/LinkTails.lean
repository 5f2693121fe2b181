/-
# Link tails end between tokens

A link tail is read character by character, the tokens behind the `]` are cut
without regard to it, and the parser goes on with the first token that does not
start inside the tail. Nothing is lost because a tail ends where a token ends
(`exists_tokens_of_read?`).

The reason is that both treat backslashes alike. The readers of a tail pass over
a backslash together with the punctuation it escapes and over everything else one
character at a time (`Passes`). Walking so from a place between two tokens one never
stands inside an escape (`Outside`): every other token has its backslash in front,
and no `)` behind its first character. So the `)` that ends a tail is a token.

Key definitions: `LinkTail.Passes`, `LinkTail.Outside`.
Key theorems: `LinkTail.passes_of_read?`, `LinkTail.exists_tokens_of_read?`.
-/
import MarkdownHtml.Inline.LinkTail
import MarkdownHtml.Proofs.Tokens

namespace MarkdownHtml
namespace LinkTail

/-! ### How the readers move -/

/-- A reader moves over the first text, in front of the second: escapes are passed as
one, everything else character by character. -/
inductive Passes : List Char → List Char → Prop
  | nil (rest : List Char) : Passes [] rest
  | plain {c : Char} {x rest : List Char} : c ≠ '\\' → Passes x rest → Passes (c :: x) rest
  | escape {c : Char} {x rest : List Char} :
      Text.isPunctuation c = true → Passes x rest → Passes ('\\' :: c :: x) rest
  | lone {x rest : List Char} :
      (x ++ rest).head?.any Text.isPunctuation = false → Passes x rest → Passes ('\\' :: x) rest

theorem Passes.append {x y rest : List Char} (hx : Passes x (y ++ rest)) (hy : Passes y rest) :
    Passes (x ++ y) rest := by
  generalize hr : y ++ rest = r at hx
  induction hx with
  | nil => exact hy
  | plain hc _ ih => exact .plain hc (ih hr)
  | escape hc _ ih => exact .escape hc (ih hr)
  | @lone x r hn _ ih =>
    refine .lone ?_ (ih hr)
    change ((x ++ y) ++ rest).head?.any Text.isPunctuation = false
    rw [List.append_assoc, hr]
    exact hn

theorem passes_singleton {c : Char} (hc : c ≠ '\\') (rest : List Char) : Passes [c] rest :=
  .plain hc (.nil rest)

theorem passes_blanks (feedSeen : Bool) (done s : List Char) :
    ∃ x, (blanks feedSeen done s).1 = done.reverse ++ x ∧ s = x ++ (blanks feedSeen done s).2 ∧
      Passes x (blanks feedSeen done s).2 := by
  fun_induction blanks feedSeen done s with
  | case1 => exact ⟨[], by simp, rfl, .nil _⟩
  | case2 feedSeen done c rest hc ih =>
    obtain ⟨x, h1, h2, h3⟩ := ih
    refine ⟨c :: x, by simp [h1], by rw [List.cons_append, ← h2], .plain ?_ h3⟩
    rintro rfl
    exact absurd hc (by decide)
  | case3 feedSeen done c rest _ hc ih =>
    obtain ⟨x, h1, h2, h3⟩ := ih
    refine ⟨c :: x, by simp [h1], by rw [List.cons_append, ← h2], .plain ?_ h3⟩
    rintro rfl
    exact absurd hc (by simp)
  | case4 => exact ⟨[], by simp, rfl, .nil _⟩

theorem passes_angle {done s w rest : List Char} (h : angle done s = some (w, rest)) :
    ∃ x, w = done.reverse ++ x ∧ s = x ++ '>' :: rest ∧ Passes x ('>' :: rest) := by
  fun_induction angle done s with
  | case1 => exact absurd h (by simp)
  | case2 done rest' =>
    simp only [Option.some.injEq, Prod.mk.injEq] at h
    obtain ⟨rfl, rfl⟩ := h
    exact ⟨[], by simp, rfl, .nil _⟩
  | case3 => exact absurd h (by simp)
  | case4 => exact absurd h (by simp)
  | case5 done c rest' hc ih =>
    obtain ⟨x, rfl, rfl, hp⟩ := ih h
    exact ⟨'\\' :: c :: x, by simp, rfl, .escape hc hp⟩
  | case6 done c rest' hc ih =>
    obtain ⟨x, rfl, hs, hp⟩ := ih h
    refine ⟨'\\' :: x, by simp, by rw [hs]; rfl, .lone ?_ hp⟩
    rw [← hs]
    simpa using hc
  | case7 done c rest' _ _ _ hc ih =>
    obtain ⟨x, rfl, hs, hp⟩ := ih h
    refine ⟨c :: x, by simp, by rw [hs]; rfl, .plain ?_ hp⟩
    rintro rfl
    cases rest' with
    | nil => exact absurd h (by simp [angle])
    | cons d rest' => exact hc d rest' rfl rfl

theorem passes_bare {depth : Nat} {done s w rest : List Char}
    (h : bare depth done s = some (w, rest)) :
    ∃ x, w = done.reverse ++ x ∧ s = x ++ rest ∧ Passes x rest := by
  fun_induction bare depth done s with
  | case1 =>
    simp only [Option.some.injEq, Prod.mk.injEq] at h
    obtain ⟨rfl, rfl⟩ := h
    exact ⟨[], by simp, rfl, .nil _⟩
  | case2 => exact absurd h (by simp)
  | case3 depth done c rest' hc ih =>
    obtain ⟨x, rfl, rfl, hp⟩ := ih h
    exact ⟨'\\' :: c :: x, by simp, rfl, .escape hc hp⟩
  | case4 depth done c rest' hc ih =>
    obtain ⟨x, rfl, hs, hp⟩ := ih h
    refine ⟨'\\' :: x, by simp, by rw [hs]; rfl, .lone ?_ hp⟩
    rw [← hs]
    simpa using hc
  | case5 depth done rest' _ ih =>
    obtain ⟨x, rfl, rfl, hp⟩ := ih h
    exact ⟨'(' :: x, by simp, rfl, .plain (by decide) hp⟩
  | case6 => exact absurd h (by simp)
  | case7 =>
    simp only [Option.some.injEq, Prod.mk.injEq] at h
    obtain ⟨rfl, rfl⟩ := h
    exact ⟨[], by simp, rfl, .nil _⟩
  | case8 depth done rest' _ ih =>
    obtain ⟨x, rfl, rfl, hp⟩ := ih h
    exact ⟨')' :: x, by simp, rfl, .plain (by decide) hp⟩
  | case9 =>
    simp only [Option.some.injEq, Prod.mk.injEq] at h
    obtain ⟨rfl, rfl⟩ := h
    exact ⟨[], by simp, rfl, .nil _⟩
  | case10 => exact absurd h (by simp)
  | case11 depth done c rest' hc _ _ _ ih =>
    obtain ⟨x, rfl, hs, hp⟩ := ih h
    by_cases hb : c = '\\'
    · -- a backslash at the end of the text
      subst hb
      cases rest' with
      | nil =>
        obtain ⟨rfl, rfl⟩ : x = [] ∧ rest = [] := by simpa using hs.symm
        exact ⟨['\\'], by simp, rfl, .lone rfl hp⟩
      | cons d rest' => exact absurd rfl (hc d rest' rfl)
    · exact ⟨c :: x, by simp, by rw [hs]; rfl, .plain hb hp⟩

theorem passes_titleTo {close : Char} {feed : Bool} {done s w rest : List Char}
    (h : titleTo close feed done s = some (w, rest)) :
    ∃ x, w = done.reverse ++ x ∧ s = x ++ close :: rest ∧ Passes x (close :: rest) := by
  fun_induction titleTo close feed done s with
  | case1 => exact absurd h (by simp)
  | case2 feed done c rest' hc ih =>
    obtain ⟨x, rfl, rfl, hp⟩ := ih h
    exact ⟨'\\' :: c :: x, by simp, rfl, .escape hc hp⟩
  | case3 feed done c rest' hc ih =>
    obtain ⟨x, rfl, hs, hp⟩ := ih h
    refine ⟨'\\' :: x, by simp, by rw [hs]; rfl, .lone ?_ hp⟩
    rw [← hs]
    simpa using hc
  | case4 feed done c rest' _ hc =>
    simp only [Option.some.injEq, Prod.mk.injEq] at h
    obtain ⟨rfl, rfl⟩ := h
    obtain rfl : c = close := by simpa using hc
    exact ⟨[], by simp, rfl, .nil _⟩
  | case5 => exact absurd h (by simp)
  | case6 => exact absurd h (by simp)
  | case7 feed done c rest' hc _ _ _ ih =>
    obtain ⟨x, rfl, hs, hp⟩ := ih h
    refine ⟨c :: x, by simp, by rw [hs]; rfl, .plain ?_ hp⟩
    rintro rfl
    cases rest' with
    | nil => exact absurd h (by simp [titleTo])
    | cons d rest' => exact hc d rest' rfl rfl

/-! ### A whole tail -/

theorem passes_destination? {s : List Char} {d : Part} (h : destination? s = some d) :
    s = d.written ++ d.rest ∧ Passes d.written d.rest := by
  unfold destination? at h
  split at h
  · exact absurd h (by simp)
  · rename_i rest
    obtain ⟨⟨w, r⟩, hw, rfl⟩ := Option.map_eq_some_iff.mp h
    obtain ⟨x, hx, rfl, hp⟩ := passes_angle hw
    obtain rfl : w = x := hx
    refine ⟨by simp, ?_⟩
    have hw' : Passes (w ++ ['>']) r := Passes.append hp (passes_singleton (by decide) r)
    exact .plain (by decide) hw'
  · obtain ⟨⟨w, r⟩, hw, rfl⟩ := Option.map_eq_some_iff.mp h
    obtain ⟨x, hx, rfl, hp⟩ := passes_bare hw
    obtain rfl : w = x := hx
    exact ⟨rfl, hp⟩

/-- Only three characters start a title, and each has its own end. -/
theorem titleClose?_eq_some {c close : Char} (h : titleClose? c = some close) :
    c ≠ '\\' ∧ close ≠ '\\' := by
  unfold titleClose? at h
  split_ifs at h with h1 h2
  · obtain rfl : c = close := by simpa using h
    constructor <;> · rintro rfl; exact absurd h1 (by decide)
  · obtain rfl : ')' = close := by simpa using h
    refine ⟨?_, by decide⟩
    rintro rfl
    exact absurd h2 (by decide)

theorem passes_title? {c close : Char} {s : List Char} {t : Part}
    (hc : titleClose? c = some close) (h : title? c close s = some t) :
    c :: s = t.written ++ t.rest ∧ Passes t.written t.rest := by
  obtain ⟨h1, h2⟩ := titleClose?_eq_some hc
  obtain ⟨⟨w, r⟩, hw, rfl⟩ := Option.map_eq_some_iff.mp h
  obtain ⟨x, hx, rfl, hp⟩ := passes_titleTo hw
  obtain rfl : w = x := hx
  refine ⟨by simp, ?_⟩
  have hw' : Passes (w ++ [close]) r := Passes.append hp (passes_singleton h2 r)
  exact .plain h1 hw'

theorem close?_eq_some {written d s : List Char} {t : Option (List Char)} {tail : LinkTail}
    (h : close? written d t s = some tail) :
    tail.raw = written ++ [')'] ∧ ∃ rest, s = ')' :: rest := by
  unfold close? at h
  split at h
  · obtain rfl := (Option.some.inj h).symm
    exact ⟨rfl, _, rfl⟩
  · exact absurd h (by simp)

theorem passes_afterDestination? {written d s : List Char} {tail : LinkTail}
    (h : afterDestination? written d s = some tail) :
    ∃ x rest, tail.raw = written ++ x ++ [')'] ∧ s = x ++ ')' :: rest ∧
      Passes x (')' :: rest) := by
  unfold afterDestination? at h
  obtain ⟨gap, h1, h2, h3⟩ := passes_blanks false [] s
  simp only [List.reverse_nil, List.nil_append] at h1
  generalize blanks false [] s = b at h h1 h2 h3
  obtain ⟨gap', rest⟩ := b
  obtain rfl : gap' = gap := h1
  simp only at h h2 h3
  split at h
  · rename_i g gs c inner close hclose
    obtain ⟨t, ht, h⟩ := Option.bind_eq_some_iff.mp h
    simp only [List.head?_cons, Option.bind_some] at hclose
    obtain ⟨hw, hp⟩ := passes_title? hclose ht
    obtain ⟨last, l1, l2, l3⟩ := passes_blanks false [] t.rest
    simp only [List.reverse_nil, List.nil_append] at l1
    obtain ⟨hraw, rest, hr⟩ := close?_eq_some h
    rw [hr] at l2 l3
    refine ⟨g :: gs ++ (t.written ++ last), rest, ?_, ?_, ?_⟩
    · rw [hraw, l1]
      simp
    · rw [h2, hw, l2]
      simp
    · rw [hw, l2] at h3
      rw [l2] at hp
      refine Passes.append ?_ (Passes.append hp l3)
      simpa using h3
  · obtain ⟨hraw, rest', rfl⟩ := close?_eq_some h
    exact ⟨_, rest', hraw, h2, h3⟩

/-- A tail is the start of the text, from `(` to a `)`, and a reader passes over all of
it but that `)`. -/
theorem passes_of_read? {s : List Char} {tail : LinkTail} (h : read? s = some tail) :
    ∃ body rest, tail.raw = body ++ [')'] ∧ s = body ++ ')' :: rest ∧
      Passes body (')' :: rest) := by
  unfold read? at h
  split at h
  · rename_i s
    obtain ⟨gap, h1, h2, h3⟩ := passes_blanks false [] s
    simp only [List.reverse_nil, List.nil_append] at h1
    obtain ⟨d, hd, h⟩ := Option.bind_eq_some_iff.mp h
    obtain ⟨hw, hp⟩ := passes_destination? hd
    obtain ⟨x, rest, hraw, hx, hpx⟩ := passes_afterDestination? h
    rw [hw, hx] at h2 h3
    rw [hx] at hp
    refine ⟨'(' :: (gap ++ (d.written ++ x)), rest, ?_, ?_, ?_⟩
    · rw [hraw, h1]
      simp
    · rw [h2]
      simp
    · refine .plain (by decide) (Passes.append ?_ (Passes.append hp hpx))
      simpa using h3
  · exact absurd h (by simp)

/-! ### Places outside escapes -/

/-- The place between `a` and `b`, in a text of the tokens `ts`, is not inside an escape:
it lies between two tokens, or the rest `r` of the token around it has neither a
backslash nor a `)`. -/
def Outside (ts : List Token) (a b : List Char) : Prop :=
  ∃ us vs r s start before, ts = us ++ vs ∧ us.flatMap Token.lexeme = a ++ r ∧ b = r ++ s ∧
    Token.Tiles start before s vs ∧ ∀ x ∈ r, x ≠ '\\' ∧ x ≠ ')'

theorem outside_start {ts : List Token} {start : Nat} {before : Option Char} {s : List Char}
    (h : Token.Tiles start before s ts) : Outside ts [] s :=
  ⟨[], ts, [], s, start, before, rfl, rfl, rfl, h, by simp⟩

/-- A token other than an escape is outside escapes behind its first character. -/
theorem outside_of_front {us vs : List Token} {a rest : List Char} {c : Char} {start : Nat}
    {before : Option Char} (ha : us.flatMap Token.lexeme = a)
    (h : Token.Tiles start before (c :: rest) vs)
    (hk : (Token.front start before c rest).kind ≠ .escape) :
    Outside (us ++ vs) (a ++ [c]) rest := by
  cases h with
  | cons h =>
    have hr := (Token.spelled_front start before c rest).tail_clear hk
    refine ⟨us ++ [Token.front start before c rest], _, _, _, _, _, by simp, ?_, ?_, h, hr⟩
    · simp [ha, Token.front]
    · simp [Token.front]

/-- Moving over one character that is no backslash. -/
theorem Outside.plain {ts : List Token} {a b : List Char} {c : Char}
    (h : Outside ts a (c :: b)) (hc : c ≠ '\\') : Outside ts (a ++ [c]) b := by
  obtain ⟨us, vs, r, s, start, before, rfl, hu, hb, ht, hr⟩ := h
  cases r with
  | nil =>
    obtain rfl : s = c :: b := hb.symm
    refine outside_of_front (by simpa using hu) ht fun he => ?_
    obtain ⟨x, -, hx⟩ := he ▸ Token.spelled_front start before c b
    exact hc (by simpa [Token.front] using congrArg List.head? hx)
  | cons d r =>
    obtain ⟨rfl, rfl⟩ : c = d ∧ b = r ++ s := by simpa using hb
    exact ⟨us, vs, r, s, start, before, rfl, by simpa using hu, rfl, ht,
      fun x hx => hr x (List.mem_cons_of_mem _ hx)⟩

/-- A place before a backslash that is outside escapes lies between two tokens. -/
theorem Outside.backslash {ts : List Token} {a b : List Char} (h : Outside ts a ('\\' :: b)) :
    ∃ us vs start before, ts = us ++ vs ∧ us.flatMap Token.lexeme = a ∧
      Token.Tiles start before ('\\' :: b) vs := by
  obtain ⟨us, vs, r, s, start, before, rfl, hu, hb, ht, hr⟩ := h
  cases r with
  | nil =>
    obtain rfl : s = '\\' :: b := hb.symm
    exact ⟨us, vs, start, before, rfl, by simpa using hu, ht⟩
  | cons d r =>
    obtain ⟨rfl, -⟩ : '\\' = d ∧ b = r ++ s := by simpa using hb
    exact absurd rfl (hr '\\' List.mem_cons_self).1

theorem Outside.escape {ts : List Token} {a b : List Char} {c : Char}
    (h : Outside ts a ('\\' :: c :: b)) (hc : Text.isPunctuation c = true) :
    Outside ts (a ++ ['\\', c]) b := by
  obtain ⟨us, vs, start, before, rfl, hu, ht⟩ := h.backslash
  have hf : Token.scan '\\' (c :: b) = (.escape, 1) := by simp [Token.scan, Token.scanBackslash, hc]
  cases ht with
  | @cons _ _ _ _ vs ht =>
    refine ⟨us ++ [Token.front start before '\\' (c :: b)], vs, [], _, _, _, by simp, ?_, ?_, ht,
      by simp⟩
    · simp [hu, Token.front, hf]
    · simp [Token.front, hf]

theorem Outside.lone {ts : List Token} {a b : List Char} (h : Outside ts a ('\\' :: b))
    (hb : b.head?.any Text.isPunctuation = false) : Outside ts (a ++ ['\\']) b := by
  obtain ⟨us, vs, start, before, rfl, hu, ht⟩ := h.backslash
  refine outside_of_front hu ht fun he => ?_
  simp only [Token.front, Token.scan] at he
  unfold Token.scanBackslash at he
  split at he
  · exact absurd he (by simp)
  · rename_i d b
    have hd : Text.isPunctuation d = false := by simpa using hb
    rw [hd] at he
    split_ifs at he
    all_goals simp_all

/-- A reader stays outside escapes. -/
theorem Outside.passes {ts : List Token} {a x rest : List Char} (hp : Passes x rest)
    (h : Outside ts a (x ++ rest)) : Outside ts (a ++ x) rest := by
  induction hp generalizing a with
  | nil => simpa using h
  | plain hc _ ih => simpa using ih (Outside.plain h hc)
  | escape hc _ ih => simpa using ih (Outside.escape h hc)
  | lone hn _ ih => simpa using ih (Outside.lone h hn)

/-- Outside escapes a `)` is a token. -/
theorem Outside.close {ts : List Token} {a b : List Char} (h : Outside ts a (')' :: b)) :
    ∃ us vs, ts = us ++ vs ∧ us.flatMap Token.lexeme = a ++ [')'] ∧
      us.getLast?.map Token.kind = some .rightParen := by
  obtain ⟨us, vs, r, s, start, before, rfl, hu, hb, ht, hr⟩ := h
  cases r with
  | nil =>
    obtain rfl : s = ')' :: b := hb.symm
    cases ht with
    | @cons _ _ _ _ vs ht =>
      refine ⟨us ++ [Token.front start before ')' b], vs, by simp, ?_, ?_⟩
      · simpa [Token.front, Token.scan] using hu
      · simp [Token.front, Token.scan]
  | cons d r =>
    obtain ⟨rfl, -⟩ : ')' = d ∧ b = r ++ s := by simpa using hb
    exact absurd rfl (hr ')' List.mem_cons_self).2

/-- **A tail ends where a token ends.** Of the tokens behind a `]`, the first ones make
up the tail, whole and without rest, and the last of these is a `)`. -/
theorem exists_tokens_of_read? {ts : List Token} {start : Nat} {before : Option Char}
    {s : List Char} {tail : LinkTail} (ht : Token.Tiles start before s ts)
    (h : read? s = some tail) :
    ∃ us vs, ts = us ++ vs ∧ us.flatMap Token.lexeme = tail.raw ∧
      us.getLast?.map Token.kind = some .rightParen := by
  obtain ⟨body, rest, hraw, rfl, hp⟩ := passes_of_read? h
  have ho : Outside ts body (')' :: rest) := Outside.passes hp (outside_start ht)
  obtain ⟨us, vs, rfl, hu, hl⟩ := ho.close
  exact ⟨us, vs, rfl, by rw [hu, hraw], hl⟩

end LinkTail
end MarkdownHtml
