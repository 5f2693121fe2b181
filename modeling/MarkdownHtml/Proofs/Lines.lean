/-
# The lines of texts that are put together

How cutting into lines follows the way a text is put together. Whole lines, each with
its line feed, are cut as they were put (`texts_ofLines`). Two texts with two line feeds
between them are cut into the lines of both, with one or two empty lines between them:
one if the first text does not end its last line, or ends it with a carriage return
that the first of the line feeds goes with (`texts_append_feeds`).

A line is read the same wherever it stands. Its number is only reported, and a quote
marker in front of it adds one quote and nothing else (`Line.Deeper`).

Key definitions: `LineReader.texts`, `Text.ofLines`, `Line.Deeper`.
Key theorems: `LineReader.texts_ofLines`, `LineReader.texts_append_feeds`,
`Line.stripAtMost_quoted`, `Line.deeper_quoted`.
-/
import MarkdownHtml.Line.Reader
import Mathlib

namespace MarkdownHtml

/-- A text of whole lines, with a line feed behind each. -/
def Text.ofLines (lines : List String) : String := String.join (lines.map (· ++ "\n"))

theorem Text.toList_ofLines (lines : List String) :
    (ofLines lines).toList = lines.flatMap fun line => line.toList ++ ['\n'] := by
  unfold ofLines
  rw [String.toList_join, List.flatMap_map]
  simp

/-! ### Cutting into lines -/

namespace LineReader

/-- The lines of a text, without their ends. -/
def texts (s : List Char) : List (List Char) := split [] [] s

theorem split_feed (line : List Char) (done : List (List Char)) (rest : List Char) :
    split line done ('\n' :: rest) = split [] (line.reverse :: done) rest := by
  rw [split]
  · rfl
  · simp

theorem split_return_feed (line : List Char) (done : List (List Char)) (rest : List Char) :
    split line done ('\r' :: '\n' :: rest) = split [] (line.reverse :: done) rest := by
  rw [split]

/-- Lines that were done before stand in front of all others. -/
theorem split_append_done (line : List Char) (done before : List (List Char)) (s : List Char) :
    split line (done ++ before) s = before.reverse ++ split line done s := by
  fun_induction split line done s with
  | case1 line done =>
    rw [split]
    split_ifs
    · rw [List.reverse_append]
    · rw [← List.cons_append, List.reverse_append]
  | case2 line done rest ih =>
    rw [split, ← List.cons_append, ih]
  | case3 line done c rest hcr hend ih =>
    rw [split, if_pos hend, ← List.cons_append, ih]
    exact hcr
  | case4 line done c rest hcr hend ih =>
    rw [split, if_neg hend, ih]
    exact hcr

/-- Characters that end no line are collected. -/
theorem split_append_clear {word : List Char} (h : ∀ c ∈ word, Text.isLineEnd c = false)
    (line : List Char) (done : List (List Char)) (rest : List Char) :
    split line done (word ++ rest) = split (word.reverse ++ line) done rest := by
  induction word generalizing line with
  | nil => rfl
  | cons c word ih =>
    have hc : Text.isLineEnd c = false := h c List.mem_cons_self
    have hcr : c ≠ '\r' := by
      rintro rfl
      exact absurd hc (by decide)
    rw [List.cons_append, split, if_neg (by simp [hc]),
      ih fun d hd => h d (List.mem_cons_of_mem _ hd)]
    · simp
    · intro rest' heq
      exact absurd heq hcr

/-- A line with its line feed in front of any text. -/
theorem texts_line {word : List Char} (h : ∀ c ∈ word, Text.isLineEnd c = false)
    (rest : List Char) : texts (word ++ '\n' :: rest) = word :: texts rest := by
  unfold texts
  rw [split_append_clear h, split_feed, List.append_nil, List.reverse_reverse]
  exact split_append_done [] [] [word] rest

/-- Whole lines are cut as they were put together. -/
theorem texts_ofLines {lines : List String}
    (h : ∀ line ∈ lines, ∀ c ∈ line.toList, Text.isLineEnd c = false) :
    texts (Text.ofLines lines).toList = lines.map String.toList := by
  rw [Text.toList_ofLines]
  induction lines with
  | nil => rfl
  | cons line lines ih =>
    have hline := h line List.mem_cons_self
    rw [List.flatMap_cons, List.append_assoc, List.singleton_append, texts_line hline,
      ih fun l hl => h l (List.mem_cons_of_mem _ hl), List.map_cons]

/-- Two line feeds end what is open and leave an empty line or two. -/
theorem split_append_feeds (b : List Char) (line : List Char) (done : List (List Char))
    (a : List Char) :
    ∃ n, split line done (a ++ '\n' :: '\n' :: b) =
      split line done a ++ List.replicate (n + 1) [] ++ texts b := by
  fun_induction split line done a with
  | case1 line done =>
    rw [List.nil_append, split_feed, split_feed]
    have hdone := split_append_done [] [] ([] :: line.reverse :: done) b
    by_cases hline : line.isEmpty = true
    · -- both line feeds end an empty line
      refine ⟨1, ?_⟩
      rw [if_pos hline]
      rw [List.isEmpty_iff] at hline
      simpa [hline, texts] using hdone
    · refine ⟨0, ?_⟩
      rw [if_neg hline]
      simpa [texts] using hdone
  | case2 line done rest ih =>
    obtain ⟨n, hn⟩ := ih
    exact ⟨n, by rw [List.cons_append, List.cons_append, split, hn]⟩
  | case3 line done c rest hcr hend ih =>
    by_cases hlast : c = '\r' ∧ rest = []
    · -- the carriage return and the first line feed are one end
      obtain ⟨rfl, rfl⟩ := hlast
      refine ⟨0, ?_⟩
      have hdone := split_append_done [] [] ([] :: line.reverse :: done) b
      rw [List.cons_append, List.nil_append, split_return_feed, split_feed]
      simpa [split, texts] using hdone
    · obtain ⟨n, hn⟩ := ih
      refine ⟨n, ?_⟩
      rw [List.cons_append, split, if_pos hend, hn]
      intro rest' hc hrest
      cases rest with
      | nil => exact hlast ⟨hc, rfl⟩
      | cons d rest =>
        obtain ⟨rfl, -⟩ := List.cons.inj hrest
        exact hcr rest hc rfl
  | case4 line done c rest hcr hend ih =>
    obtain ⟨n, hn⟩ := ih
    refine ⟨n, ?_⟩
    rw [List.cons_append, split, if_neg hend, hn]
    intro rest' hc
    rw [hc] at hend
    exact absurd rfl hend

/-- Two texts with two line feeds between them: the lines of both, with empty lines
between. -/
theorem texts_append_feeds (a b : List Char) :
    ∃ n, texts (a ++ '\n' :: '\n' :: b) = texts a ++ List.replicate (n + 1) [] ++ texts b :=
  split_append_feeds b [] [] a

end LineReader

/-! ### The same line deeper or further down -/

namespace Line

/-- `Deeper k line line'`: the second line has `k` quote markers more in front, and behind
them the two are read alike. Their numbers do not matter. -/
structure Deeper (k : Nat) (line line' : Line) : Prop where
  quoteDepth : line'.quoteDepth = line.quoteDepth + k
  indent : line'.indent = line.indent
  kind : line'.kind = line.kind
  rest : ∀ d, (stripAtMost (d + k) line'.raw).rest = (stripAtMost d line.raw).rest

theorem dropSpaces_suffix (n : Nat) (s : List Char) : dropSpaces n s <:+ s := by
  fun_induction dropSpaces n s with
  | case1 n rest ih => exact ih.trans (List.suffix_cons _ _)
  | case2 => exact List.suffix_refl _

theorem dropPad_suffix (s : List Char) : dropPad s <:+ s := by
  unfold dropPad
  split
  · exact List.suffix_cons _ _
  · exact List.suffix_cons _ _
  · exact List.suffix_refl _

/-- A quote marker is at least one character in front of the rest. -/
theorem suffix_of_stripMarker? {s rest : List Char} (h : stripMarker? s = some rest) :
    rest <:+ s ∧ rest.length < s.length := by
  have hspaces := dropSpaces_suffix 3 s
  unfold stripMarker? at h
  split at h
  · rename_i tail hs
    have hpad := dropPad_suffix tail
    obtain rfl := Option.some.inj h
    rw [hs] at hspaces
    refine ⟨hpad.trans ((List.suffix_cons _ _).trans hspaces), ?_⟩
    have hlength := hspaces.length_le
    rw [List.length_cons] at hlength
    exact Nat.lt_of_le_of_lt hpad.length_le hlength
  · exact absurd h (by simp)

/-- The markers that are gone already are only counted. -/
theorem stripFrom_eq (depth more : Nat) (s : List Char) :
    stripFrom depth more s =
      ⟨(stripAtMost more s).depth + depth, (stripAtMost more s).rest⟩ := by
  unfold stripAtMost
  induction more generalizing depth s with
  | zero => simp [stripFrom]
  | succ more ih =>
    rw [stripFrom, stripFrom]
    cases stripMarker? s with
    | none => simp
    | some rest =>
      simp only
      rw [ih (depth + 1), ih (0 + 1)]
      simp only [Unquoted.mk.injEq, and_true]
      omega

/-- A line that starts with no quote marker is left as it is. -/
theorem stripAtMost_of_no_marker {s : List Char} (h : stripMarker? s = none) (more : Nat) :
    stripAtMost more s = ⟨0, s⟩ := by
  cases more with
  | zero => rfl
  | succ more => rw [stripAtMost, stripFrom, h]

/-- A quote marker is one of those that go. -/
theorem stripAtMost_of_marker {s rest : List Char} (h : stripMarker? s = some rest) (more : Nat) :
    stripAtMost (more + 1) s =
      ⟨(stripAtMost more rest).depth + 1, (stripAtMost more rest).rest⟩ := by
  rw [stripAtMost, stripFrom, h]
  exact stripFrom_eq 1 more rest

/-- What is left is the end of the line, and no more markers are gone than may go. -/
theorem stripAtMost_bounds (more : Nat) (s : List Char) :
    (stripAtMost more s).rest <:+ s ∧ (stripAtMost more s).depth ≤ more := by
  induction more generalizing s with
  | zero => exact ⟨List.suffix_refl _, Nat.le_refl 0⟩
  | succ more ih =>
    cases hs : stripMarker? s with
    | none =>
      rw [stripAtMost_of_no_marker hs]
      exact ⟨List.suffix_refl _, Nat.zero_le _⟩
    | some rest =>
      obtain ⟨hrest, hdepth⟩ := ih rest
      rw [stripAtMost_of_marker hs]
      exact ⟨hrest.trans (suffix_of_stripMarker? hs).1, Nat.succ_le_succ hdepth⟩

/-- No line has more markers than characters. -/
theorem stripAtMost_of_length_le {more : Nat} {s : List Char} (h : s.length ≤ more) :
    stripAtMost more s = stripAll s := by
  unfold stripAll
  induction more using Nat.strongRecOn generalizing s with
  | ind more ih =>
    cases hs : stripMarker? s with
    | none => rw [stripAtMost_of_no_marker hs, stripAtMost_of_no_marker hs]
    | some rest =>
      have hrest := (suffix_of_stripMarker? hs).2
      obtain ⟨k, hk⟩ : ∃ k, s.length = k + 1 := ⟨s.length - 1, by omega⟩
      obtain ⟨n, rfl⟩ : ∃ n, more = n + 1 := ⟨more - 1, by omega⟩
      rw [hk, stripAtMost_of_marker hs, stripAtMost_of_marker hs, ih n (by omega) (by omega),
        ih k (by omega) (by omega)]

theorem dropWhile_dropSpaces (n : Nat) (s : List Char) :
    (dropSpaces n s).dropWhile Text.isPad = s.dropWhile Text.isPad := by
  fun_induction dropSpaces n s with
  | case1 n rest ih =>
    rw [ih]
    rfl
  | case2 => rfl

/-- A quote marker is the first character of a line that is not blank. -/
theorem stripMarker?_eq_none {s : List Char} (h : (s.dropWhile Text.isPad).head? ≠ some '>') :
    stripMarker? s = none := by
  have hdrop := dropWhile_dropSpaces 3 s
  unfold stripMarker?
  split
  · rename_i rest hs
    rw [hs] at hdrop
    exact absurd (by rw [← hdrop]; rfl) h
  · rfl

/-- A line that starts with no quote marker stands in no quote. -/
theorem stripAll_of_no_marker {s : List Char} (h : stripMarker? s = none) :
    stripAll s = ⟨0, s⟩ := stripAtMost_of_no_marker h s.length

/-- A line without quote markers is left as it is. -/
theorem rest_stripAll_of_depth {s : List Char} (h : (stripAll s).depth = 0) :
    (stripAll s).rest = s := by
  cases hs : stripMarker? s with
  | none => rw [stripAll_of_no_marker hs]
  | some rest =>
    have hrest := (suffix_of_stripMarker? hs).2
    obtain ⟨k, hk⟩ : ∃ k, s.length = k + 1 := ⟨s.length - 1, by omega⟩
    rw [stripAll, hk, stripAtMost_of_marker hs] at h
    exact absurd h (Nat.succ_ne_zero _)

theorem stripAtMost_quoted (n : Nat) (s : List Char) :
    stripAtMost (n + 1) ('>' :: ' ' :: s) =
      ⟨(stripAtMost n s).depth + 1, (stripAtMost n s).rest⟩ :=
  stripAtMost_of_marker rfl n

/-- The quote marker in front of a line is one more, and the rest of the line is the same. -/
theorem stripAll_quoted (s : List Char) :
    stripAll ('>' :: ' ' :: s) = ⟨(stripAll s).depth + 1, (stripAll s).rest⟩ := by
  have hlong : stripAtMost (s.length + 1) s = stripAll s :=
    stripAtMost_of_length_le (Nat.le_succ _)
  rw [stripAll, List.length_cons, List.length_cons, stripAtMost_quoted, hlong]

theorem deeper_zero (m n : Nat) (raw : List Char) : Deeper 0 (classify m raw) (classify n raw) :=
  ⟨rfl, rfl, rfl, fun _ => rfl⟩

/-- A line behind a quote marker stands one quote deeper. -/
theorem deeper_quoted (m n : Nat) (raw : List Char) :
    Deeper 1 (classify m raw) (classify n ('>' :: ' ' :: raw)) := by
  have hall := stripAll_quoted raw
  refine ⟨?_, ?_, ?_, ?_⟩
  · simp only [classify, hall]
  · simp only [classify, hall]
  · simp only [classify, hall]
  · intro d
    simp only [classify, stripAtMost_quoted]

/-- Lines that are read from texts, numbered from any two places. -/
theorem forall₂_classify {k : Nat} {f : List Char → List Char}
    (h : ∀ m n raw, Deeper k (classify m raw) (classify n (f raw))) (raws : List (List Char))
    (m n : Nat) :
    List.Forall₂ (Deeper k) (raws.mapIdx fun i raw => classify (m + i + 1) raw)
      ((raws.map f).mapIdx fun i raw => classify (n + i + 1) raw) := by
  induction raws generalizing m n with
  | nil => exact List.Forall₂.nil
  | cons raw raws ih =>
    rw [List.map_cons, List.mapIdx_cons, List.mapIdx_cons]
    refine List.Forall₂.cons (h _ _ raw) ?_
    have hrest := ih (m + 1) (n + 1)
    simpa only [Nat.add_assoc, Nat.add_comm 1] using hrest

theorem map_raw_classify (raws : List (List Char)) (number : Nat → Nat) :
    (raws.mapIdx fun i raw => classify (number i) raw).map Line.raw = raws := by
  apply List.ext_getElem
  · simp
  · intro i hi hi'
    simp [classify]

theorem ofText_eq (s : List Char) :
    Line.ofText s = (LineReader.texts s).mapIdx fun i raw => classify (0 + i + 1) raw := rfl

/-- The lines of a text are the same lines further down. -/
theorem deeper_ofText (s : List Char) (above : Nat) :
    List.Forall₂ (Deeper 0) (Line.ofText s)
      ((LineReader.texts s).mapIdx fun i raw => classify (0 + (i + above) + 1) raw) := by
  have hmap := forall₂_classify (f := id) deeper_zero (LineReader.texts s) 0 above
  rw [List.map_id] at hmap
  simpa only [ofText_eq, Nat.add_comm, Nat.zero_add, Nat.add_left_comm, Nat.add_assoc] using hmap

/-- An empty line in no quote. -/
def IsBlank (line : Line) : Prop := line.kind = .blank ∧ line.quoteDepth = 0

/-- Two texts with two line feeds between them are read as the lines of both, with blank
lines between. -/
theorem ofText_append_feeds (a b : List Char) :
    ∃ blanks rest, Line.ofText (a ++ '\n' :: '\n' :: b) = Line.ofText a ++ blanks ++ rest ∧
      blanks ≠ [] ∧ (∀ line ∈ blanks, line.IsBlank) ∧
      List.Forall₂ (Deeper 0) (Line.ofText b) rest := by
  obtain ⟨n, hn⟩ := LineReader.texts_append_feeds a b
  simp only [ofText_eq, hn, List.mapIdx_append]
  refine ⟨_, _, rfl, by simp, ?_, ?_⟩
  · intro line hline
    obtain ⟨i, hi, rfl⟩ := List.mem_mapIdx.mp hline
    rw [List.getElem_replicate]
    exact ⟨rfl, rfl⟩
  · exact deeper_ofText b (LineReader.texts a ++ List.replicate (n + 1) []).length

end Line
end MarkdownHtml
