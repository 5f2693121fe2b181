/-
# Between two runs of backticks

Code starts with a run of backticks and ends with the next run of the same length. What is
between them is raw: whatever else it would mean, it becomes the content of the code and
nothing more. Let `c` be such a text, with no run of `n` backticks in it and no backtick on
either side. This file says when `n` backticks, `c` and `n` backticks are read as code with the
content `c` (`Inline.parse_ticks_iff`).

Runs are looked for among tokens, and an escape is a token before anything asks whether it
stands inside code. So a backslash counts in two places: if `c` ends with one that escapes, the
closing run has lost its first backtick, and if one in `c` escapes the first of `n + 1`
backticks, the others are a run of `n`, which closes the code too early. Everywhere else `c` is
raw: stars, brackets, tails of links, other escapes and other runs of backticks do not matter.

The proof that these are the only exceptions reads the result from its first node. The first
node that is read is the first node of the result (`InlineParser.Move.starts`), so that code
with another content, or no code at all, at the front of the text shows in the result.

Key definitions: `Text.endsEscaping`, `Text.HasRun`, `Text.HasEscapedRun`, `Content.Starts`.
Key theorems: `Token.Tiles.before_ticks`, `Token.Tiles.cut_ticks`, `InlineParser.Move.starts`,
`Inline.head_of_parse_ticks`, `Inline.parse_ticks_iff`.
-/
import MarkdownHtml.Proofs.Escapes
import MarkdownHtml.Proofs.Steps

namespace MarkdownHtml

/-! ### Which backslash escapes -/

namespace Text

/-- Whether `s` ends with a backslash that escapes the punctuation behind it. Of a run of
backslashes every second one is escaped itself, so that the length of the run decides. -/
def endsEscaping (s : List Char) : Bool := (s.reverse.takeWhile (· == '\\')).length % 2 == 1

theorem endsEscaping_concat (s : List Char) (c : Char) :
    endsEscaping (s ++ [c]) = (!endsEscaping s && c == '\\') := by
  unfold endsEscaping
  rw [List.reverse_append, List.reverse_singleton, List.singleton_append, List.takeWhile_cons]
  by_cases hc : c = '\\'
  · rw [hc, if_pos (beq_self_eq_true _), List.length_cons]
    generalize (s.reverse.takeWhile (· == '\\')).length = n
    rcases Nat.mod_two_eq_zero_or_one n with hn | hn
    · have hnext : (n + 1) % 2 = 1 := by omega
      simp [hn, hnext]
    · have hnext : (n + 1) % 2 = 0 := by omega
      simp [hn, hnext]
  · simp [hc]

/-- The same, read from left to right. -/
theorem endsEscaping_eq_foldl (s : List Char) :
    endsEscaping s = s.foldl (fun escaping c => !escaping && c == '\\') false := by
  induction s using List.reverseRecOn with
  | nil => rfl
  | append_singleton s c ih => rw [endsEscaping_concat, List.foldl_append, ih]; rfl

end Text

namespace LinkTail

/-- Plain characters in front of what is passed. -/
theorem passes_append {word x rest : List Char} (h : ∀ c ∈ word, c ≠ '\\') (hx : Passes x rest) :
    Passes (word ++ x) rest := by
  induction word with
  | nil => exact hx
  | cons c word ih =>
    exact .plain (h c List.mem_cons_self) (ih fun d hd => h d (List.mem_cons_of_mem _ hd))

theorem endsEscaping_of_passes {x rest : List Char}
    (hrest : Text.startsWithPunctuation rest = true) (h : Passes x rest) :
    Text.endsEscaping x = false := by
  rw [Text.endsEscaping_eq_foldl]
  induction h with
  | nil => rfl
  | @plain c x rest hc _ ih =>
    have hb : (c == '\\') = false := by simpa using hc
    rw [List.foldl_cons, hb]
    exact ih hrest
  | escape _ _ ih => exact ih hrest
  | @lone x rest hn _ ih =>
    cases x with
    | nil =>
      rw [List.nil_append] at hn
      exact absurd hrest (by simp [Text.startsWithPunctuation, hn])
    | cons d x =>
      have hd : (d == '\\') = false := by
        rw [beq_eq_false_iff_ne]
        rintro rfl
        exact absurd hn (by simp [Text.isPunctuation])
      have hx := ih hrest
      rw [List.foldl_cons, hd] at hx
      exact hx

theorem passes_of_endsEscaping {rest : List Char} : ∀ {x : List Char},
    Text.endsEscaping x = false → Passes x rest
  | [], _ => .nil rest
  | [c], h => by
    rw [Text.endsEscaping_eq_foldl] at h
    have hc : c ≠ '\\' := by
      rintro rfl
      exact absurd h (by decide)
    exact .plain hc (.nil rest)
  | c :: d :: x, h => by
    rw [Text.endsEscaping_eq_foldl, List.foldl_cons] at h
    by_cases hc : c = '\\'
    · have hx : Text.endsEscaping x = false := by
        rw [hc] at h
        rw [Text.endsEscaping_eq_foldl]
        exact h
      by_cases hd : Text.isPunctuation d = true
      · rw [hc]
        exact .escape hd (passes_of_endsEscaping hx)
      · have hplain : d ≠ '\\' := by
          rintro rfl
          exact hd rfl
        rw [hc]
        exact .lone (by simpa using hd) (.plain hplain (passes_of_endsEscaping hx))
    · have hb : (c == '\\') = false := by simpa using hc
      rw [hb] at h
      refine .plain hc (passes_of_endsEscaping ?_)
      rw [Text.endsEscaping_eq_foldl]
      exact h

end LinkTail

/-! ### Backticks among tokens -/

namespace Token

theorem not_mem_take_countWhile {p : Char → Bool} {d : Char} (h : p d = false) (s : List Char) :
    d ∉ s.take (countWhile p s) := by
  intro hd
  rw [take_countWhile] at hd
  have hp : p d = true := List.all_eq_true.mp List.all_takeWhile d hd
  rw [h] at hp
  exact absurd hp (by simp)

theorem isLineEnd_of_mem_take {s : List Char} :
    ∀ c ∈ s.take (lineEndLength s), Text.isLineEnd c = true := by
  intro c hc
  unfold lineEndLength at hc
  split at hc
  · obtain rfl : c = '\n' := by simpa using hc
    rfl
  · have hor : c = '\r' ∨ c = '\n' := by simpa using hc
    rcases hor with rfl | rfl
    · rfl
    · rfl
  · exact absurd hc (by simp)

/-- A token with a backtick is a run of them, or an escape. -/
theorem tick_not_mem_scan {c : Char} {rest : List Char} (hescape : (scan c rest).1 ≠ .escape)
    (hticks : (scan c rest).1 ≠ .backticks) : '\x60' ∉ c :: rest.take (scan c rest).2 := by
  have hlineEnd : ∀ s : List Char, '\x60' ∉ s.take (lineEndLength s) := fun s hs =>
    absurd (isLineEnd_of_mem_take _ hs) (by decide)
  have hcons : ∀ {d : Char} {s : List Char}, d ≠ '\x60' → '\x60' ∉ s → '\x60' ∉ d :: s := by
    intro d s hd hs
    rw [List.mem_cons, not_or]
    exact ⟨hd.symm, hs⟩
  unfold scan at hescape hticks ⊢
  split at hescape
  · exact absurd rfl hticks
  · exact hcons (by decide) (not_mem_take_countWhile rfl rest)
  · exact hcons (by decide) (not_mem_take_countWhile rfl rest)
  · split_ifs with h
    · obtain ⟨s, rfl⟩ := List.head?_eq_some_iff.mp h
      exact hcons (by decide) (by simp)
    · exact hcons (by decide) (by simp)
  · exact hcons (by decide) (by simp)
  · exact hcons (by decide) (by simp)
  · exact hcons (by decide) (by simp)
  · exact hcons (by decide) (by simp)
  · refine hcons (by decide) ?_
    simp only [scanBackslash] at hescape ⊢
    split at hescape
    · simp
    · split_ifs at hescape ⊢
      · exact absurd rfl hescape
      · simp
      · exact hlineEnd _
  · exact hcons (by decide) (by simp)
  · split_ifs with h
    · obtain ⟨s, rfl⟩ := List.head?_eq_some_iff.mp h
      exact hcons (by decide) (by simp)
    · exact hcons (by decide) (by simp)
  · refine hcons (by decide) ?_
    simp only [scanSpace]
    split_ifs with h
    · rw [List.take_add, List.mem_append, not_or]
      exact ⟨not_mem_take_countWhile rfl rest, hlineEnd _⟩
    · exact not_mem_take_countWhile rfl rest
  · exact hcons (by decide) (not_mem_take_countWhile rfl rest)
  · rename_i hc _ _ _ _ _ _ _ _ _ _ _ _
    exact hcons hc (not_mem_take_countWhile rfl rest)

/-- A run of backticks ends where the backticks do. -/
theorem Tiles.head?_after_ticks {start : Nat} {before : Option Char} {s : List Char} {t : Token}
    {ts : List Token} (h : Tiles start before s (t :: ts)) (hk : t.kind = .backticks) :
    (ts.flatMap lexeme).head? ≠ some '\x60' := by
  have hrun : t.kind.run? = some '\x60' := by rw [hk]; rfl
  exact h.first.head_ne hrun

/-- Every place between two tokens is one that a reader of escapes comes to. -/
theorem Tiles.passes {start : Nat} {before : Option Char} {s : List Char} {us vs : List Token}
    (h : Tiles start before s (us ++ vs)) :
    LinkTail.Passes (us.flatMap lexeme) (vs.flatMap lexeme) := by
  induction us generalizing start before s with
  | nil => exact .nil _
  | cons u us ih =>
    rw [List.cons_append] at h
    have hbehind := h.tail.flatMap_lexeme
    have hrest := ih h.tail
    rw [List.flatMap_append] at hbehind
    rw [List.flatMap_cons]
    cases h with
    | @cons _ _ c rest _ _ =>
      have hlexeme := lexeme_append_after_front start before c rest
      rcases front_cases start before c rest with
        ⟨p, hp, hs, -⟩ | ⟨word, hword, hs, hc, -⟩
      · have hparts : (front start before c rest).lexeme = ['\\', p] := by
          rw [hs] at hlexeme
          exact List.append_cancel_right hlexeme
        rw [hparts]
        exact .escape hp hrest
      · have hparts : (front start before c rest).lexeme = c :: word := by
          rw [hs, ← List.cons_append] at hlexeme
          exact List.append_cancel_right hlexeme
        have hpassed := LinkTail.passes_append hword hrest
        rw [hparts]
        by_cases hback : c = '\\'
        · rw [hback, List.cons_append]
          refine .lone ?_ hpassed
          rw [List.append_assoc, hbehind]
          exact hc hback
        · exact .plain hback hpassed

/-- A run of backticks in front of anything else is a token. -/
theorem Tiles.ticks_cons {n start : Nat} {before : Option Char} {rest : List Char}
    {ts : List Token} (hn : 1 ≤ n) (hrest : rest.head? ≠ some '\x60')
    (h : Tiles start before (List.replicate n '\x60' ++ rest) ts) :
    ∃ t vs, ts = t :: vs ∧ t.kind = .backticks ∧ t.lexeme = List.replicate n '\x60' ∧
      vs.flatMap lexeme = rest := by
  obtain ⟨m, rfl⟩ : ∃ m, n = m + 1 := ⟨n - 1, by omega⟩
  rw [List.replicate_succ, List.cons_append] at h
  have htake : (List.replicate m '\x60' ++ rest).takeWhile (· == '\x60') =
      List.replicate m '\x60' := by
    rw [List.takeWhile_append_of_pos (by simp)]
    cases rest with
    | nil => simp
    | cons c rest =>
      have hc : c ≠ '\x60' := fun hc => hrest (by rw [hc]; rfl)
      simp [hc]
  cases h with
  | @cons _ _ _ _ ts htail =>
    have hlexeme : (front start before '\x60' (List.replicate m '\x60' ++ rest)).lexeme =
        List.replicate (m + 1) '\x60' := by
      rw [List.replicate_succ]
      simp only [front, scan, take_countWhile, htake]
    have hparts := lexeme_append_after_front start before '\x60' (List.replicate m '\x60' ++ rest)
    rw [hlexeme, List.replicate_succ, List.cons_append] at hparts
    refine ⟨_, ts, rfl, rfl, hlexeme, ?_⟩
    rw [htail.flatMap_lexeme]
    exact List.append_cancel_left (List.cons.inj hparts).2

/-- Of the tokens of a text, only runs of backticks and escapes have any. -/
theorem Tiles.tick_not_mem {start : Nat} {before : Option Char} {s : List Char} {ts : List Token}
    (h : Tiles start before s ts) {t : Token} (ht : t ∈ ts) (hescape : t.kind ≠ .escape)
    (hticks : t.kind ≠ .backticks) : '\x60' ∉ t.lexeme := by
  induction h with
  | nil => exact absurd ht (by simp)
  | cons _ ih =>
    rcases List.mem_cons.mp ht with rfl | ht
    · exact tick_not_mem_scan hescape hticks
    · exact ih ht

/-- A token behind whose first character a backtick stands, and no backtick before it, is an
escape. -/
theorem Tiles.escape_of_tick {start : Nat} {before : Option Char} {s : List Char} {ts : List Token}
    (h : Tiles start before s ts) {t : Token} (ht : t ∈ ts) {w w' : List Char}
    (hlexeme : t.lexeme = w ++ '\x60' :: w') (hne : w ≠ []) (hlast : w.getLast? ≠ some '\x60') :
    t.kind = .escape ∧ w = ['\\'] ∧ w' = [] := by
  have hspelled := h.spelled t ht
  by_cases hk : t.kind = .escape
  · rw [hk] at hspelled
    obtain ⟨p, -, hp⟩ := hspelled
    rw [hlexeme] at hp
    obtain ⟨c, w, rfl⟩ := List.exists_cons_of_ne_nil hne
    have hparts : c = '\\' ∧ w = [] ∧ '\x60' = p ∧ w' = [] := by
      simpa [List.append_eq_cons_iff] using hp
    exact ⟨hk, by rw [hparts.1, hparts.2.1], hparts.2.2.2⟩
  · exfalso
    have hticks : t.kind = .backticks := by
      by_contra hticks
      refine h.tick_not_mem ht hk hticks ?_
      rw [hlexeme]
      exact List.mem_append_right _ List.mem_cons_self
    rw [hticks] at hspelled
    obtain ⟨n, hn⟩ := hspelled
    obtain ⟨c, hc⟩ : ∃ c, w.getLast? = some c :=
      Option.ne_none_iff_exists'.mp fun hw => hne (List.getLast?_eq_none_iff.mp hw)
    have hmem : c ∈ List.replicate (n + 1) '\x60' := by
      rw [← hn, hlexeme]
      exact List.mem_append_left _ (List.mem_of_getLast? hc)
    rw [List.eq_of_mem_replicate hmem] at hc
    exact hlast hc

theorem lexeme_of_isRun {n : Nat} {t : Token} (hspelled : t.kind.Spelled t.lexeme)
    (h : CodeSpan.isRun n t = true) : t.lexeme = List.replicate n '\x60' := by
  simp only [CodeSpan.isRun, Bool.and_eq_true, beq_iff_eq] at h
  obtain ⟨m, hm⟩ := h.1 ▸ hspelled
  rw [hm, List.length_replicate] at h
  rw [hm, h.2]

theorem startsWithPunctuation_ticks {t : Token} (hspelled : t.kind.Spelled t.lexeme)
    (hk : t.kind = .backticks) (rest : List Char) :
    Text.startsWithPunctuation (t.lexeme ++ rest) = true ∧
      (t.lexeme ++ rest).head? = some '\x60' := by
  rw [hk] at hspelled
  obtain ⟨n, hn⟩ := hspelled
  rw [hn]
  exact ⟨rfl, rfl⟩

/-- What stands in front of a run of backticks: no backtick, or one that is escaped. -/
theorem Tiles.before_ticks {start : Nat} {before : Option Char} {s : List Char} {t : Token}
    {us vs : List Token} (h : Tiles start before s (us ++ t :: vs)) (hk : t.kind = .backticks) :
    (us.flatMap lexeme).getLast? ≠ some '\x60' ∧ Text.endsEscaping (us.flatMap lexeme) = false ∨
      ∃ a, us.flatMap lexeme = a ++ ['\\', '\x60'] ∧ Text.endsEscaping a = false := by
  obtain ⟨hpunct, hhead⟩ := startsWithPunctuation_ticks (h.spelled t (by simp)) hk
    (vs.flatMap lexeme)
  have heven : Text.endsEscaping (us.flatMap lexeme) = false :=
    LinkTail.endsEscaping_of_passes hpunct (by simpa using h.passes)
  by_cases hlast : (us.flatMap lexeme).getLast? = some '\x60'
  · cases us using List.reverseRecOn with
    | nil => exact absurd hlast (by simp)
    | append_singleton us u _ =>
      have hsplit : Tiles start before s (us ++ u :: t :: vs) := by simpa using h
      have hne := lexeme_ne_nil_of_spelled (h.spelled u (by simp))
      have hu : u.lexeme.getLast? = some '\x60' := by
        rw [List.flatMap_append, List.flatMap_singleton, List.getLast?_append_of_ne_nil _ hne]
          at hlast
        exact hlast
      by_cases hescape : u.kind = .escape
      · obtain ⟨p, hp, hlexeme⟩ := hescape ▸ h.spelled u (by simp)
        rw [hlexeme] at hu
        obtain rfl : p = '\x60' := by simpa using hu
        refine .inr ⟨us.flatMap lexeme, ?_, ?_⟩
        · rw [List.flatMap_append, List.flatMap_singleton, hlexeme]
        · refine LinkTail.endsEscaping_of_passes ?_ hsplit.passes
          rw [List.flatMap_cons, hlexeme]
          rfl
      · have hticks : u.kind = .backticks := by
          by_contra hticks
          exact h.tick_not_mem (by simp) hescape hticks (List.mem_of_getLast? hu)
        obtain ⟨b, hrest⟩ := hsplit.split
        have hafter := hrest.head?_after_ticks hticks
        rw [List.flatMap_cons] at hafter
        exact absurd hhead hafter
  · exact .inl ⟨hlast, heven⟩

/-- Where backticks start that follow none and are not escaped, a token starts. -/
theorem Tiles.cut_ticks {start : Nat} {before : Option Char} {c rest : List Char}
    {ts : List Token} (h : Tiles start before (c ++ '\x60' :: rest) ts)
    (hlast : c.getLast? ≠ some '\x60') (heven : Text.endsEscaping c = false) :
    ∃ us vs, ts = us ++ vs ∧ us.flatMap lexeme = c ∧ vs.flatMap lexeme = '\x60' :: rest := by
  have hall : (ts.map lexeme).flatten = c ++ '\x60' :: rest := h.flatMap_lexeme
  rcases List.flatten_eq_append_iff.mp hall with
    ⟨as, bs, hts, hc, hrest⟩ | ⟨as, w, d, w', bs, hts, hc, hrest⟩
  · obtain ⟨us, vs, rfl, rfl, rfl⟩ := List.map_eq_append_iff.mp hts
    exact ⟨us, vs, rfl, hc.symm, hrest.symm⟩
  · obtain ⟨us, vs, rfl, rfl, hvs⟩ := List.map_eq_append_iff.mp hts
    obtain ⟨u, vs, rfl, hu, rfl⟩ := List.map_eq_cons_iff.mp hvs
    obtain ⟨rfl, hrest'⟩ := List.cons.inj hrest
    by_cases hw : w = []
    · refine ⟨us, u :: vs, rfl, ?_, ?_⟩
      · rw [hc, hw, List.append_nil]
        rfl
      · rw [List.flatMap_cons, hu, hw, hrest']
        rfl
    · -- the place is inside a token, which can only be an escape of the backtick
      have hwlast : w.getLast? ≠ some '\x60' := by
        rw [hc, List.getLast?_append_of_ne_nil _ hw] at hlast
        exact hlast
      obtain ⟨-, rfl, rfl⟩ := h.escape_of_tick (t := u) (by simp) hu hw hwlast
      have hbefore : Text.endsEscaping (us.flatMap lexeme) = false := by
        refine LinkTail.endsEscaping_of_passes ?_ h.passes
        rw [List.flatMap_cons, hu]
        rfl
      have hodd : Text.endsEscaping c = true := by
        rw [hc, Text.endsEscaping_concat]
        change (!Text.endsEscaping (us.flatMap lexeme) && _) = true
        rw [hbefore]
        rfl
      rw [heven] at hodd
      exact absurd hodd (by simp)

/-- Behind an escaped backtick, the backticks that follow are a run of their own. -/
theorem Tiles.exists_run_of_escaped {n start : Nat} {before : Option Char} {a b : List Char}
    {ts : List Token} (hn : 1 ≤ n) (heven : Text.endsEscaping a = false)
    (hb : b.head? ≠ some '\x60')
    (h : Tiles start before (a ++ '\\' :: '\x60' :: (List.replicate n '\x60' ++ b)) ts) :
    ∃ us t vs, ts = us ++ t :: vs ∧ us.flatMap lexeme = a ++ ['\\', '\x60'] ∧
      CodeSpan.isRun n t = true := by
  have houtside : LinkTail.Outside ts ([] ++ a)
      ('\\' :: '\x60' :: (List.replicate n '\x60' ++ b)) :=
    LinkTail.Outside.passes (LinkTail.passes_of_endsEscaping heven) (LinkTail.outside_start h)
  obtain ⟨us, vs, start', before', rfl, hus, hvs⟩ := houtside.backslash
  cases hvs with
  | cons htail =>
    obtain ⟨t, vs, rfl, hk, hlexeme, -⟩ := Tiles.ticks_cons hn hb htail
    refine ⟨us ++ [_], t, vs, (List.append_assoc us [_] (t :: vs)).symm, ?_, ?_⟩
    · rw [List.flatMap_append, hus, List.flatMap_singleton]
      rfl
    · simp [CodeSpan.isRun, hk, hlexeme]

end Token

/-! ### The first node stays first -/

/-- A property of nodes that a text node keeps as it grows. -/
def Inline.KeptByGrowth (p : Inline → Prop) : Prop := ∀ s t, p (.text s) → p (.text (s ++ t))

/-- The first of the nodes collected has the property `p`. -/
def Content.Starts (p : Inline → Prop) (c : Content) : Prop :=
  ∃ n ∈ c.nodes.getLast?, p n

namespace Content
namespace Starts

variable {p : Inline → Prop} {c : Content}

theorem cons (h : c.Starts p) (n : Inline) (depth : Nat) : Starts p ⟨n :: c.nodes, depth⟩ := by
  obtain ⟨first, hfirst, hp⟩ := h
  refine ⟨first, ?_, hp⟩
  cases hnodes : c.nodes with
  | nil => exact absurd hfirst (by simp [hnodes])
  | cons m ms =>
    rw [hnodes] at hfirst
    simpa using hfirst

theorem pushText (hp : Inline.KeptByGrowth p) (h : c.Starts p) (s : String) :
    (c.pushText s).Starts p := by
  unfold Content.pushText
  split_ifs
  · exact h
  · split
    · rename_i t rest depth
      obtain ⟨first, hfirst, hfirstp⟩ := h
      cases rest with
      | nil =>
        obtain rfl : Inline.text t = first := by simpa using hfirst
        exact ⟨_, rfl, hp t s hfirstp⟩
      | cons m ms => exact ⟨first, by simpa using hfirst, hfirstp⟩
    · exact h.cons _ _

theorem addNode (hp : Inline.KeptByGrowth p) (h : c.Starts p) (n : Inline) :
    (c.addNode n).Starts p := by
  unfold Content.addNode
  split
  · exact h.pushText hp _
  · exact h.cons _ _

theorem absorb (hp : Inline.KeptByGrowth p) (h : c.Starts p) (literal : String)
    (other : Content) : (Content.absorb literal other c).Starts p := by
  have hall : ∀ (ns : List Inline) (c : Content), c.Starts p →
      (ns.foldl Content.addNode c).Starts p := by
    intro ns
    induction ns with
    | nil => exact fun c h => h
    | cons n ns ih => exact fun c h => ih _ (h.addNode hp n)
  exact hall _ _ (h.pushText hp literal)

end Starts
end Content

namespace InlineParser

/-- What changes the innermost content leaves the first node, if it does so there. -/
theorem State.starts_onTop {p : Inline → Prop} {f : Content → Content} {st : State}
    (hf : st.root.Starts p → (f st.root).Starts p) (h : st.root.Starts p) :
    (st.onTop f).root.Starts p := by
  obtain ⟨root, _ | ⟨⟨o, c⟩, below⟩, unclosed, dropped⟩ := st
  · exact hf h
  · exact h

/-- **No move takes the first node away.** -/
theorem Move.starts {limit : Nat} {p : Inline → Prop} (hp : Inline.KeptByGrowth p)
    {st st' : State} {atoms : List Atom} (h : Move limit st atoms st') (hs : st.root.Starts p) :
    st'.root.Starts p := by
  cases h with
  | text => exact State.starts_onTop (fun hs => hs.pushText hp _) hs
  | leaf => exact State.starts_onTop (fun hs => hs.cons _ _) hs
  | collapse hne =>
    obtain ⟨root, _ | ⟨f, below⟩, unclosed, dropped⟩ := st
    · exact absurd rfl hne
    · exact State.starts_onTop (fun hs => hs.absorb hp _ _) hs
  | dropOldest hne =>
    obtain ⟨above, oldest, ha⟩ := State.exists_oldest hne
    rw [(State.dropOldest_spec ha).1]
    exact hs.absorb hp _ _
  | openRun | openBracket | closePart => exact hs
  | closeAll | link | image => exact State.starts_onTop (fun hs => hs.cons _ _) hs

theorem Moves.starts {limit : Nat} {p : Inline → Prop} (hp : Inline.KeptByGrowth p)
    {st st' : State} {atoms : List Atom} (h : Moves limit st atoms st')
    (hs : st.root.Starts p) : st'.root.Starts p :=
  h.keeps (fun hm => hm.starts hp) hs

theorem State.starts_collapseMany {p : Inline → Prop} (hp : Inline.KeptByGrowth p) (n : Nat)
    {st : State} (h : st.root.Starts p) : (st.collapseMany n).root.Starts p := by
  induction n generalizing st with
  | zero => exact h
  | succ n ih =>
    refine ih ?_
    by_cases hne : st.stack = []
    · obtain ⟨root, stack, unclosed, dropped⟩ := st
      obtain rfl : stack = [] := hne
      exact h
    · exact Move.starts hp (.collapse hne : Move 0 st [] st.collapse) h

/-- The first node that is read is the first node of the result. -/
theorem State.head?_finish_of_starts {p : Inline → Prop} (hp : Inline.KeptByGrowth p) {st : State}
    (h : st.root.Starts p) : ∃ n ∈ st.finish.head?, p n := by
  obtain ⟨n, hn, hpn⟩ := State.starts_collapseMany hp st.stack.length h
  refine ⟨n, ?_, hpn⟩
  rw [State.finish, Content.toList, List.head?_reverse]
  exact hn

/-- What a run does behind its first token is a sequence of moves from the state that this
token leads to. -/
theorem run_cons_moves {limit start index more : Nat} {before : Option Char} {s : List Char}
    {st st₁ st' : State} {t : Token} {ts : List Token}
    (ht : Token.Tiles start before s (t :: ts)) (hr : st.Ready limit (t :: ts))
    (hstep : st.step limit t index ((CodeSpan.closer? t ts).map (index + 1 + ·)) ts =
      .ok (more, st₁))
    (h : run limit index start st (t :: ts) (CodeSpan.closersFrom index (t :: ts)) = .ok st') :
    ∃ atoms, Moves limit st₁ atoms st' := by
  obtain ⟨us, vs, b, -, hvs, -, hr₁, hrest⟩ := run_cons_of_step ht hr le_rfl hstep h
  exact ⟨_, run_moves hvs hr₁ le_rfl hrest⟩

end InlineParser

/-! ### Text that starts with backticks -/

namespace Inline

theorem exists_run_of_parse {limits : Limits} {text : List Char} {nodes : List Inline}
    (h : Inline.parse limits text = .ok nodes) :
    ∃ st, InlineParser.run limits.maxNesting 0 0 {} (Token.ofText text)
        (CodeSpan.closersFrom 0 (Token.ofText text)) = .ok st ∧ nodes = st.finish := by
  simp only [Inline.parse, Inline.read] at h
  rw [CodeSpan.closers_eq_closersFrom] at h
  split at h
  · rename_i st hrun
    exact ⟨st, hrun, (Except.ok.inj h).symm⟩
  · exact absurd h (by simp)

section Ticks

variable {limits : Limits} {text : List Char} {nodes : List Inline} {t : Token} {ts : List Token}

/-- A text that starts with a run of backticks starts with code if something closes the run, and
with text otherwise. -/
theorem head_of_parse_ticks (hts : Token.ofText text = t :: ts) (hk : t.kind = .backticks)
    (h : Inline.parse limits text = .ok nodes) :
    (CodeSpan.closer? t ts = none → ∃ s, nodes.head? = some (.text s)) ∧
      ∀ k, CodeSpan.closer? t ts = some k →
        nodes.head? = some (.code (String.ofList
          (CodeSpan.content ((ts.take k).flatMap Token.lexeme)))) := by
  have htiles := Token.tiles_ofText text
  obtain ⟨st, hrun, rfl⟩ := exists_run_of_parse h
  rw [hts] at htiles hrun
  have hstep : ∀ {more : Nat} {st₁ : InlineParser.State},
      InlineParser.State.backticks t 0 ((CodeSpan.closer? t ts).map (0 + 1 + ·)) ts {} =
        (more, st₁) →
      ∃ atoms, InlineParser.Moves limits.maxNesting st₁ atoms st := by
    intro more st₁ hbackticks
    have hfirst : InlineParser.State.step limits.maxNesting t 0
        ((CodeSpan.closer? t ts).map (0 + 1 + ·)) ts {} = .ok (more, st₁) := by
      rw [InlineParser.State.step, hk, ← hbackticks]
    exact InlineParser.run_cons_moves htiles (InlineParser.ready_start _ _) hfirst hrun
  refine ⟨fun hnone => ?_, fun k hsome => ?_⟩
  · rw [hnone] at hstep
    obtain ⟨atoms, hmoves⟩ := hstep rfl
    have hp : KeptByGrowth fun n => ∃ s, n = .text s := fun s r _ => ⟨s ++ r, rfl⟩
    have hne : t.lexeme ≠ [] :=
      Token.lexeme_ne_nil_of_spelled (htiles.spelled t List.mem_cons_self)
    have hfirst : (InlineParser.State.pushText t.content {}).root.Starts
        fun n => ∃ s, n = .text s := by
      obtain ⟨c, l, hl⟩ := List.exists_cons_of_ne_nil hne
      refine ⟨.text t.content, ?_, t.content, rfl⟩
      simp [InlineParser.State.pushText, InlineParser.State.onTop, Content.pushText, Token.content,
        hl]
    obtain ⟨n, hn, s, rfl⟩ := InlineParser.State.head?_finish_of_starts hp (hmoves.starts hp hfirst)
    exact ⟨s, hn⟩
  · rw [hsome] at hstep
    obtain ⟨atoms, hmoves⟩ := hstep rfl
    have hindex : 0 + 1 + k - 0 - 1 = k := by omega
    have hp : KeptByGrowth fun n => n = .code (String.ofList
        (CodeSpan.content ((ts.take k).flatMap Token.lexeme))) := fun s r hs => absurd hs (by simp)
    have hfirst : (InlineParser.State.push (.code (String.ofList (CodeSpan.content
        ((ts.take (0 + 1 + k - 0 - 1)).flatMap Token.lexeme)))) 0 {}).root.Starts fun n =>
        n = .code (String.ofList (CodeSpan.content ((ts.take k).flatMap Token.lexeme))) := by
      rw [hindex]
      exact ⟨_, rfl, rfl⟩
    obtain ⟨n, hn, rfl⟩ := InlineParser.State.head?_finish_of_starts hp (hmoves.starts hp hfirst)
    exact hn

/-- A run of backticks that the last token closes makes code of all that is between. -/
theorem parse_of_closer {inner : List Token} {close : Token}
    (hts : Token.ofText text = t :: (inner ++ [close])) (hk : t.kind = .backticks)
    (hcloser : CodeSpan.closer? t (inner ++ [close]) = some inner.length) :
    Inline.parse limits text =
      .ok [.code (String.ofList (CodeSpan.content (inner.flatMap Token.lexeme)))] := by
  have htiles := Token.tiles_ofText text
  rw [hts] at htiles
  obtain ⟨-, inner', close', later, heq, hlength, hclose, hsame⟩ :=
    CodeSpan.exists_of_closer? hcloser
  obtain ⟨rfl, hlast⟩ := List.append_inj heq hlength.symm
  obtain ⟨rfl, rfl⟩ := List.cons.inj hlast
  have hsize : Text.byteLength close.lexeme = Text.byteLength t.lexeme := by
    have hrun := Token.lexeme_of_isRun (n := t.lexeme.length) (htiles.spelled t (by simp))
      (by simp [CodeSpan.isRun, hk])
    rw [Token.lexeme_of_isRun (n := t.lexeme.length) (htiles.spelled close (by simp))
      (by simp [CodeSpan.isRun, hclose, hsame]), ← hrun]
  have htail := htiles.tail
  rw [← List.append_nil (inner ++ [close])] at htail
  have hskip : ∀ u ∈ inner ++ [close], u.start < t.stop +
      (Text.byteLength (inner.flatMap Token.lexeme) + Text.byteLength t.lexeme) := by
    have hlt := htail.start_lt
    rw [List.flatMap_append, List.flatMap_singleton, Text.byteLength_append, hsize] at hlt
    exact hlt
  have hstart : ¬ t.start < 0 := Nat.not_lt_zero _
  have htake : (inner ++ [close]).take (0 + 1 + inner.length - 0 - 1) = inner := by
    rw [show 0 + 1 + inner.length - 0 - 1 = inner.length by omega, List.take_left']
    rfl
  have hrun : InlineParser.run limits.maxNesting 0 0 {} (t :: (inner ++ [close]))
      (CodeSpan.closersFrom 0 (t :: (inner ++ [close]))) =
      .ok (InlineParser.State.push (.code (String.ofList
        (CodeSpan.content (inner.flatMap Token.lexeme)))) 0 {}) := by
    rw [CodeSpan.closersFrom, InlineParser.run, if_neg hstart, InlineParser.State.step, hk, hcloser]
    simp only [Option.map_some, InlineParser.State.backticks, htake]
    rw [← List.append_nil (inner ++ [close]), InlineParser.run_append hskip]
    rfl
  simp only [Inline.parse, Inline.read]
  rw [CodeSpan.closers_eq_closersFrom, hts, hrun]
  rfl

end Ticks
end Inline
/-! ### Code between two runs -/

namespace Text

/-- A run of exactly `n` backticks stands in `s`. -/
def HasRun (n : Nat) (s : List Char) : Prop :=
  ∃ a b, s = a ++ List.replicate n '\x60' ++ b ∧ a.getLast? ≠ some '\x60' ∧
    b.head? ≠ some '\x60'

/-- A run of exactly `n` backticks stands in `s` behind a backslash that escapes the first of
them. -/
def HasEscapedRun (n : Nat) (s : List Char) : Prop :=
  ∃ a b, s = a ++ List.replicate n '\x60' ++ b ∧ endsEscaping a = true ∧ b.head? ≠ some '\x60'

/-- What stands around a given word can be found by trying every place. -/
theorem exists_around_iff {p q : List Char → Prop} {word s : List Char} :
    (∃ a b, s = a ++ word ++ b ∧ p a ∧ q b) ↔
      ∃ i ∈ List.range (s.length + 1), word <+: s.drop i ∧ p (s.take i) ∧
        q (s.drop (i + word.length)) := by
  constructor
  · rintro ⟨a, b, rfl, hp, hq⟩
    refine ⟨a.length, by simp, ?_⟩
    rw [← List.drop_drop, List.append_assoc, List.drop_left, List.drop_left, List.take_left]
    exact ⟨List.prefix_append word b, hp, hq⟩
  · rintro ⟨i, -, ⟨b, hb⟩, hp, hq⟩
    refine ⟨s.take i, b, ?_, hp, ?_⟩
    · rw [List.append_assoc, hb, List.take_append_drop]
    · rw [← List.drop_drop, ← hb, List.drop_left] at hq
      exact hq

instance (n : Nat) (s : List Char) : Decidable (HasRun n s) :=
  decidable_of_iff _ exists_around_iff.symm

instance (n : Nat) (s : List Char) : Decidable (HasEscapedRun n s) :=
  decidable_of_iff _ exists_around_iff.symm

/-- Only a backslash can escape. -/
theorem exists_of_endsEscaping {s : List Char} (h : endsEscaping s = true) :
    ∃ a, s = a ++ ['\\'] ∧ endsEscaping a = false := by
  cases s using List.reverseRecOn with
  | nil => exact absurd h (by decide)
  | append_singleton a c _ =>
    rw [endsEscaping_concat, Bool.and_eq_true, Bool.not_eq_true', beq_iff_eq] at h
    obtain ⟨heven, rfl⟩ := h
    exact ⟨a, rfl, heven⟩

/-- A run in front of something else, in a text that ends with a run, is that last run or stands
in front of it. -/
theorem run_cases {n : Nat} {s a rest : List Char}
    (hrest : rest.head? ≠ some '\x60')
    (h : s ++ List.replicate n '\x60' = a ++ List.replicate n '\x60' ++ rest) :
    rest = [] ∧ a = s ∨ ∃ m, s = a ++ List.replicate n '\x60' ++ m := by
  cases rest with
  | nil =>
    rw [List.append_nil] at h
    exact .inl ⟨rfl, (List.append_cancel_right h).symm⟩
  | cons d rest =>
    rcases List.append_eq_append_iff.mp h with ⟨m, -, hm⟩ | ⟨m, hm, -⟩
    · -- the last run would hold `d`
      have hd : d ∈ List.replicate n '\x60' := by
        rw [hm]
        exact List.mem_append_right _ List.mem_cons_self
      rw [List.eq_of_mem_replicate hd] at hrest
      exact absurd rfl hrest
    · exact .inr ⟨m, hm⟩

end Text

namespace CodeSpan

theorem count_spaceLineEnds (done s : List Char) :
    (spaceLineEnds done s).count '\x60' = done.count '\x60' + s.count '\x60' := by
  fun_induction spaceLineEnds done s with
  | case1 done => simp
  | case2 done rest ih => simp [ih]
  | case3 done rest ih => simp [ih]
  | case4 done c rest _ _ ih =>
    rw [ih, List.count_cons, List.count_cons]
    omega

theorem count_stripSpaces (s : List Char) : (stripSpaces s).count '\x60' = s.count '\x60' := by
  unfold stripSpaces
  split_ifs with h
  · simp only [Bool.and_eq_true, beq_iff_eq, decide_eq_true_eq] at h
    obtain ⟨⟨⟨hlength, hhead⟩, hlast⟩, -⟩ := h
    obtain ⟨s, rfl⟩ := List.head?_eq_some_iff.mp hhead
    cases s using List.reverseRecOn with
    | nil => exact absurd hlength (by simp)
    | append_singleton s c _ =>
      rw [← List.cons_append, List.getLast?_concat, Option.some.injEq] at hlast
      rw [hlast]
      simp
  · rfl

/-- The content of code has all the backticks. -/
theorem count_content (raw : List Char) : (content raw).count '\x60' = raw.count '\x60' := by
  rw [content, count_stripSpaces, count_spaceLineEnds, List.count_nil, Nat.zero_add]

/-- A run has its closer at the end if no token in between is a run of its length. -/
theorem closer?_eq_length {t close : Token} {inner : List Token} (hk : t.kind = .backticks)
    (hinner : ∀ u ∈ inner, isRun t.lexeme.length u = false)
    (hclose : isRun t.lexeme.length close = true) :
    closer? t (inner ++ [close]) = some inner.length := by
  rw [closer?, if_pos hk, List.findIdx?_append, List.findIdx?_eq_none_iff.mpr hinner]
  simp [List.findIdx?_cons, hclose]

/-- The closer comes no later than any run of the same length. -/
theorem closer?_le {t u : Token} {us vs : List Token} {k : Nat}
    (hu : isRun t.lexeme.length u = true) (h : closer? t (us ++ u :: vs) = some k) :
    k ≤ us.length := by
  unfold closer? at h
  split_ifs at h
  obtain ⟨_, -, hbefore⟩ := List.findIdx?_eq_some_iff_getElem.mp h
  by_contra hlt
  have hnot := hbefore us.length (by omega)
  simp [hu] at hnot

end CodeSpan

namespace Inline

section Ticks

variable {limits : Limits} {n start : Nat} {before : Option Char} {c : List Char}
  {inner later : List Token} {t close : Token}

/-- Among tokens that make up `c`, a run of `n` backticks is one of `c`, or what an escaped
backtick leaves of a run of `n + 1`. -/
theorem isRun_eq_false_of_tiles
    (h : Token.Tiles start before (c ++ List.replicate n '\x60') (inner ++ [close]))
    (hc : inner.flatMap Token.lexeme = c) (hrun : ¬ Text.HasRun n c)
    (hescaped : ¬ Text.HasEscapedRun (n + 1) c) :
    ∀ u ∈ inner, CodeSpan.isRun n u = false := by
  intro u hu
  obtain ⟨us, vs, rfl⟩ := List.append_of_mem hu
  rw [Bool.eq_false_iff]
  intro hisRun
  have hlexeme := Token.lexeme_of_isRun (h.spelled u (by simp)) hisRun
  have hk : u.kind = .backticks := by
    simp only [CodeSpan.isRun, Bool.and_eq_true, beq_iff_eq] at hisRun
    exact hisRun.1
  have hsplit : Token.Tiles start before (c ++ List.replicate n '\x60')
      (us ++ u :: (vs ++ [close])) := by simpa using h
  have hbehind : (vs.flatMap Token.lexeme).head? ≠ some '\x60' := by
    obtain ⟨b, hrest⟩ := hsplit.split
    have hafter := hrest.head?_after_ticks hk
    rw [List.flatMap_append, List.head?_append] at hafter
    intro hhead
    rw [hhead] at hafter
    exact hafter rfl
  rw [List.flatMap_append, List.flatMap_cons, hlexeme] at hc
  rcases hsplit.before_ticks hk with ⟨hlast, -⟩ | ⟨a, ha, heven⟩
  · exact hrun ⟨us.flatMap Token.lexeme, vs.flatMap Token.lexeme, by simp [← hc], hlast, hbehind⟩
  · refine hescaped ⟨a ++ ['\\'], vs.flatMap Token.lexeme, ?_, ?_, hbehind⟩
    · rw [← hc, ha, List.replicate_succ]
      simp
    · rw [Text.endsEscaping_concat, heven]
      rfl

/-- Text between two runs of `n` backticks, the second of which is no escape, is read as tokens of
its own. -/
theorem exists_tokens_between (hn : 1 ≤ n) {ts : List Token} (hlast : c.getLast? ≠ some '\x60')
    (heven : Text.endsEscaping c = false)
    (h : Token.Tiles start before (c ++ List.replicate n '\x60') ts) :
    ∃ inner close, ts = inner ++ [close] ∧ inner.flatMap Token.lexeme = c ∧
      CodeSpan.isRun n close = true := by
  obtain ⟨m, rfl⟩ : ∃ m, n = m + 1 := ⟨n - 1, by omega⟩
  have hcut := h
  rw [List.replicate_succ] at hcut
  obtain ⟨inner, vs, rfl, hinner, hvs⟩ := hcut.cut_ticks hlast heven
  obtain ⟨b, hbehind⟩ := h.split
  rw [hvs, ← List.replicate_succ, ← List.append_nil (List.replicate _ _)] at hbehind
  obtain ⟨close, ws, rfl, hk, hlexeme, hws⟩ := hbehind.ticks_cons hn (by simp)
  have hnone : ws = [] := by
    cases ws with
    | nil => rfl
    | cons w ws =>
      have hne := Token.lexeme_ne_nil_of_spelled (h.spelled w (by simp))
      rw [List.flatMap_cons] at hws
      exact absurd (List.append_eq_nil_iff.mp hws).1 hne
  refine ⟨inner, close, by rw [hnone], hinner, ?_⟩
  simp [CodeSpan.isRun, hk, hlexeme]

/-- Behind an escaped backtick, a run of `n` backticks would have closed the code before the end of
`c`. -/
theorem not_hasEscapedRun_of_closer (hn : 1 ≤ n) (hlast : c.getLast? ≠ some '\x60')
    (hlength : t.lexeme.length = n)
    (h : Token.Tiles start before (c ++ List.replicate n '\x60') (inner ++ later))
    (hinner : inner.flatMap Token.lexeme = c)
    (hcloser : CodeSpan.closer? t (inner ++ later) = some inner.length) :
    ¬ Text.HasEscapedRun (n + 1) c := by
  rintro ⟨a, b, hc, hodd, hb⟩
  obtain ⟨a, rfl, heven⟩ := Text.exists_of_endsEscaping hodd
  have hbne : b ≠ [] := by
    rintro rfl
    rw [List.append_nil, List.replicate_succ', ← List.append_assoc] at hc
    rw [hc, List.getLast?_concat] at hlast
    exact hlast rfl
  have hbehind : (b ++ List.replicate n '\x60').head? ≠ some '\x60' := by
    obtain ⟨d, s, rfl⟩ := List.exists_cons_of_ne_nil hbne
    exact hb
  have htext : c ++ List.replicate n '\x60' =
      a ++ '\\' :: '\x60' :: (List.replicate n '\x60' ++ (b ++ List.replicate n '\x60')) := by
    rw [hc, List.replicate_succ]
    simp
  have hescaped := h
  rw [htext] at hescaped
  obtain ⟨us, u, vs, hts, hus, hu⟩ := hescaped.exists_run_of_escaped hn heven hbehind
  rw [hts] at hcloser
  have hle : inner.length ≤ us.length := CodeSpan.closer?_le (by rw [hlength]; exact hu) hcloser
  have hfirst : inner <+: us :=
    List.prefix_of_prefix_length_le ⟨later, rfl⟩ ⟨u :: vs, hts.symm⟩ hle
  obtain ⟨ws, rfl⟩ := hfirst
  rw [List.flatMap_append, hinner, hc] at hus
  have hsize := congrArg List.length hus
  have hpos := List.length_pos_iff.mpr hbne
  simp only [List.length_append, List.length_replicate, List.length_cons, List.length_nil] at hsize
  omega

/-- A closer that leaves `c` as the content stands behind `c`. -/
theorem inner_eq_of_content {rest : List Char} (hn : 1 ≤ n) {raw : List Char}
    (hrest : rest.head? ≠ some '\x60')
    (h : c ++ List.replicate n '\x60' = raw ++ List.replicate n '\x60' ++ rest)
    (hcontent : CodeSpan.content raw = CodeSpan.content c) : raw = c := by
  rcases Text.run_cases hrest h with ⟨-, hraw⟩ | ⟨m, hm⟩
  · exact hraw
  · have hcount := congrArg (List.count '\x60') hcontent
    rw [CodeSpan.count_content, CodeSpan.count_content, hm, List.count_append, List.count_append,
      List.count_replicate_self] at hcount
    omega

end Ticks

/-- **Between backticks everything is raw, but for two escapes.** Take a text `c` without a run of
`n` backticks, and with something other than a backtick on each side. Between two runs of `n`
backticks it is the content of code, under any limits, unless its last backslash escapes the
closing run, or another one escapes the first of `n + 1` backticks. In those two cases it is not. -/
theorem parse_ticks_iff (limits : Limits) {n : Nat} {c : List Char} (hn : 1 ≤ n) (hne : c ≠ [])
    (hfirst : c.head? ≠ some '\x60') (hlast : c.getLast? ≠ some '\x60')
    (hrun : ¬ Text.HasRun n c) :
    Inline.parse limits (List.replicate n '\x60' ++ c ++ List.replicate n '\x60') =
        .ok [.code (String.ofList (CodeSpan.content c))] ↔
      Text.endsEscaping c = false ∧ ¬ Text.HasEscapedRun (n + 1) c := by
  have hbehind : (c ++ List.replicate n '\x60').head? ≠ some '\x60' := by
    obtain ⟨d, s, rfl⟩ := List.exists_cons_of_ne_nil hne
    exact hfirst
  rw [List.append_assoc]
  have htiles := Token.tiles_ofText (List.replicate n '\x60' ++ (c ++ List.replicate n '\x60'))
  obtain ⟨t, ts, hts, hk, hlexeme, hlex⟩ := htiles.ticks_cons hn hbehind
  have hlength : t.lexeme.length = n := by rw [hlexeme, List.length_replicate]
  rw [hts] at htiles
  have htail := htiles.tail
  rw [← htail.flatMap_lexeme, hlex] at htail
  constructor
  · intro hparse
    obtain ⟨hopen, hclosed⟩ := head_of_parse_ticks hts hk hparse
    cases hcloser : CodeSpan.closer? t ts with
    | none =>
      obtain ⟨s, hs⟩ := hopen hcloser
      exact absurd hs (by simp)
    | some k =>
      obtain ⟨-, inner, close, later, rfl, rfl, hclose, hsame⟩ := CodeSpan.exists_of_closer? hcloser
      obtain ⟨b, hlater⟩ := htail.split
      have hafter := hlater.head?_after_ticks hclose
      have hcloseLexeme : close.lexeme = List.replicate n '\x60' :=
        Token.lexeme_of_isRun (htail.spelled close (by simp))
          (by simp [CodeSpan.isRun, hclose, hsame, hlength])
      rw [List.flatMap_append, List.flatMap_cons, hcloseLexeme, ← List.append_assoc] at hlex
      have hcontent := hclosed inner.length hcloser
      rw [List.take_left' rfl, List.head?_cons, Option.some.injEq, Inline.code.injEq,
        String.ofList_inj] at hcontent
      have hinner := inner_eq_of_content hn hafter hlex.symm hcontent.symm
      refine ⟨?_, not_hasEscapedRun_of_closer hn hlast hlength htail hinner hcloser⟩
      have hpassed := htail.passes
      rw [hinner, List.flatMap_cons, hcloseLexeme] at hpassed
      refine LinkTail.endsEscaping_of_passes ?_ hpassed
      obtain ⟨m, rfl⟩ : ∃ m, n = m + 1 := ⟨n - 1, by omega⟩
      rfl
  · rintro ⟨heven, hescaped⟩
    obtain ⟨inner, close, rfl, hinner, hclose⟩ := exists_tokens_between hn hlast heven htail
    have hcloser : CodeSpan.closer? t (inner ++ [close]) = some inner.length := by
      rw [← hlength] at hclose
      refine CodeSpan.closer?_eq_length hk ?_ hclose
      rw [hlength]
      exact isRun_eq_false_of_tiles htail hinner hrun hescaped
    rw [parse_of_closer hts hk hcloser, hinner]

/-- Formatting, the tail of a link, a backslash and a lone backtick between two backticks each. -/
theorem parse_ticks_iff_syntax :
    Inline.parse {} "\x60\x60*a* [b](c \x60 \\x\x60\x60".toList =
      .ok [.code "*a* [b](c \x60 \\x"] := by
  exact (parse_ticks_iff {} (n := 2) (c := "*a* [b](c \x60 \\x".toList) (by decide) (by decide)
    (by decide) (by decide) (by decide)).mpr ⟨by decide, by decide⟩

/-- A backslash at the end takes the closing backtick away. -/
theorem parse_ticks_backslash_ne :
    let c := "a\\".toList
    (c ≠ [] ∧ c.head? ≠ some '\x60' ∧ c.getLast? ≠ some '\x60' ∧ ¬ Text.HasRun 1 c) ∧
      Inline.parse {} (List.replicate 1 '\x60' ++ c ++ List.replicate 1 '\x60') ≠
        .ok [.code (String.ofList (CodeSpan.content c))] := by
  have hparse : Inline.parse {} "\x60a\\\x60".toList = .ok [.text "\x60a\x60"] := by cbv
  refine ⟨by decide, fun h => ?_⟩
  have hnodes := Except.ok.inj (hparse.symm.trans h)
  exact absurd hnodes (by simp)

/-- A backslash inside shortens a run that should not have closed the code. -/
example : Inline.parse {} "\x60\x60a\\\x60\x60\x60b\x60\x60".toList =
    .ok [.code "a\\\x60", .text "b\x60\x60"] := by cbv

end Inline
end MarkdownHtml
