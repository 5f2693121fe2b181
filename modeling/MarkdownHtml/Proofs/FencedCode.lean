/-
# Fenced code is kept as it stands

Between a fence of backticks and the next line that closes it, every line belongs to the
code, whatever it looks like: quote markers, list markers and shorter fences are not read.
The code block is the lines with a line feed behind each, its language is the first word
of the info text, and the text behind the closing fence is read as if it stood alone
(`Document.parse_fenced`).

The opening line is the only one that is classified. From then on a line is only asked
whether it closes the code. A line that does is blanks, a run of backticks that is not
shorter than the opening one, and white space (`Builder.closing_of_closesCode`).

Key definitions: `Text.words`, `Fence.ticks`, `Fence.Closing`, `Text.fenced`.
Key theorems: `Text.firstWord?_eq`, `Fence.read?_ticks`, `Line.classify_ticks`,
`Builder.closing_of_closesCode`, `Builder.push_inside`, `Builder.pushAll_inside`,
`Builder.pushAll_fenced`, `Document.parse_fenced`.
-/
import MarkdownHtml.Proofs.Composition

namespace MarkdownHtml

/-! ### The words of a text -/

namespace Text

/-- The words of a text: what stands between white space, in order. -/
def words (s : List Char) : List (List Char) :=
  (s.splitOnP isWhite).filter fun word => !word.isEmpty

/-- A text up to its first white space is the first of its pieces. -/
theorem splitOnP_eq_takeWhile_cons (s : List Char) :
    ∃ pieces, s.splitOnP isWhite = (s.takeWhile fun c => !isWhite c) :: pieces := by
  induction s with
  | nil => exact ⟨[], List.splitOnP_nil⟩
  | cons c s ih =>
    obtain ⟨pieces, hs⟩ := ih
    rw [List.splitOnP_cons_eq_if_modifyHead, List.takeWhile_cons]
    by_cases hc : isWhite c = true
    · exact ⟨s.splitOnP isWhite, by simp [hc]⟩
    · exact ⟨pieces, by simp [hc, hs]⟩

theorem firstWord?_eq (s : List Char) : firstWord? s = (words s).head? := by
  unfold words firstWord? trimStart
  induction s with
  | nil => simp
  | cons c s ih =>
    rw [List.splitOnP_cons_eq_if_modifyHead]
    by_cases hc : isWhite c = true
    · rw [List.dropWhile_cons_of_pos hc, if_pos hc, List.filter_cons_of_neg (by simp)]
      exact ih
    · obtain ⟨pieces, hs⟩ := splitOnP_eq_takeWhile_cons s
      rw [List.dropWhile_cons_of_neg hc, if_neg hc, hs]
      simp [hc]

theorem firstWord?_append_white (s : List Char) {t : List Char} (ht : ∀ c ∈ t, isWhite c = true) :
    firstWord? (s ++ t) = firstWord? s := by
  have hdrop : t.dropWhile isWhite = [] := List.dropWhile_eq_nil_iff.mpr ht
  have htake : (t.takeWhile fun c => !isWhite c) = [] := by
    cases t with
    | nil => rfl
    | cons c t => simp [ht c List.mem_cons_self]
  have hword : ((s ++ t).dropWhile isWhite).takeWhile (fun c => !isWhite c) =
      (s.dropWhile isWhite).takeWhile fun c => !isWhite c := by
    rw [List.dropWhile_append]
    by_cases hempty : (s.dropWhile isWhite).isEmpty = true
    · rw [if_pos hempty, hdrop, List.isEmpty_iff.mp hempty]
    · rw [if_neg hempty, List.takeWhile_append]
      split_ifs with hall
      · rw [htake, List.append_nil]
        exact (List.takeWhile_prefix _).eq_of_length hall |>.symm
      · rfl
  unfold firstWord? trimStart
  rw [hword]

/-- Trimming takes no word away. -/
theorem firstWord?_trim (s : List Char) : firstWord? (trim s) = firstWord? s := by
  obtain ⟨t, hs, ht⟩ := exists_dropEndWhile_append isWhite (trimStart s)
  have hstart : firstWord? (trimStart s) = firstWord? s := by
    unfold firstWord? trimStart
    rw [List.dropWhile_idempotent]
  calc firstWord? (trim s) = firstWord? (trim s ++ t) := (firstWord?_append_white _ ht).symm
    _ = firstWord? (trimStart s) := by rw [trim, trimEnd, ← hs]
    _ = firstWord? s := hstart

theorem isWhite_of_trim_eq_nil {s : List Char} (h : trim s = []) : ∀ c ∈ s, isWhite c = true := by
  obtain ⟨t, hs, ht⟩ := exists_dropEndWhile_append isWhite (trimStart s)
  have hstart : trimStart s = t := by
    rw [trim, trimEnd] at h
    rw [h] at hs
    exact hs
  intro c hc
  rw [← List.takeWhile_append_dropWhile (p := isWhite) (l := s)] at hc
  rcases List.mem_append.mp hc with hc | hc
  · exact List.all_eq_true.mp List.all_takeWhile c hc
  · rw [trimStart] at hstart
    rw [hstart] at hc
    exact ht c hc

end Text

/-! ### Lines that open and close code -/

namespace Fence

/-- A run of backticks. -/
def ticks (n : Nat) : List Char := List.replicate n FenceKind.backticks.char

/-- A line that closes a fence of `n` backticks: blanks, at least `n` backticks, and white
space. -/
def Closing (n : Nat) (line : List Char) : Prop :=
  ∃ pads k space, line = pads ++ ticks k ++ space ∧ (∀ c ∈ pads, Text.isPad c = true) ∧ n ≤ k ∧
    ∀ c ∈ space, Text.isWhite c = true

theorem mem_ticks {n : Nat} {c : Char} (h : c ∈ ticks n) : c = FenceKind.backticks.char :=
  List.eq_of_mem_replicate h

/-- The lines of fenced code hold no line end. -/
theorem clear_fenced {n : Nat} {info : List Char} {code : List (List Char)}
    (hinfo : ∀ c ∈ info, c ≠ FenceKind.backticks.char ∧ Text.isLineEnd c = false)
    (hcode : ∀ line ∈ code, ∀ c ∈ line, Text.isLineEnd c = false) :
    ∀ word ∈ (ticks n ++ info) :: (code ++ [ticks n]), ∀ c ∈ word, Text.isLineEnd c = false := by
  have hticks : ∀ c ∈ ticks n, Text.isLineEnd c = false := by
    intro c hc
    rw [mem_ticks hc]
    rfl
  intro word hword c hc
  rcases List.mem_cons.mp hword with rfl | hword
  · rcases List.mem_append.mp hc with hc | hc
    · exact hticks c hc
    · exact (hinfo c hc).2
  · rcases List.mem_append.mp hword with hword | hword
    · exact hcode word hword c hc
    · rw [List.mem_singleton.mp hword] at hc
      exact hticks c hc

/-- At least three backticks and an info text without any are a fence. -/
theorem read?_ticks {n : Nat} {info : List Char} (hn : 3 ≤ n)
    (hinfo : ∀ c ∈ info, c ≠ FenceKind.backticks.char ∧ Text.isLineEnd c = false) :
    Fence.read? (ticks n ++ info) = some ⟨.backticks, n, Text.trim info⟩ := by
  have hclear : ∀ c ∈ ticks n ++ info, Text.isLineEnd c = false :=
    clear_fenced hinfo (show ∀ line ∈ [], ∀ c ∈ line, _ by simp) _ List.mem_cons_self
  have hticks : ∀ c ∈ ticks n, (c == FenceKind.backticks.char) = true := by
    intro c hc
    rw [mem_ticks hc]
    rfl
  have htake : (ticks n ++ info).takeWhile (· == FenceKind.backticks.char) = ticks n := by
    rw [List.takeWhile_append_of_pos hticks]
    have hnone : info.takeWhile (· == FenceKind.backticks.char) = [] := by
      cases info with
      | nil => rfl
      | cons c info => simp [(hinfo c List.mem_cons_self).1]
    rw [hnone, List.append_nil]
  have hdrop : (ticks n ++ info).dropWhile (· == FenceKind.backticks.char) = info := by
    rw [List.dropWhile_append_of_pos hticks]
    cases info with
    | nil => rfl
    | cons c info => simp [(hinfo c List.mem_cons_self).1]
  have hno : ¬ (Text.trim info).contains FenceKind.backticks.char = true := by
    intro hmem
    have hin := (Text.trim_sublist info).subset (List.contains_iff_mem.mp hmem)
    exact (hinfo _ hin).1 rfl
  obtain ⟨m, rfl⟩ : ∃ m, n = m + 1 := ⟨n - 1, by omega⟩
  have hcons : ticks (m + 1) ++ info = FenceKind.backticks.char :: (ticks m ++ info) := rfl
  have hlen : (ticks (m + 1)).length = m + 1 := List.length_replicate
  have hkind : kindOf? FenceKind.backticks.char = some .backticks := rfl
  unfold Fence.read?
  rw [Text.dropEndWhile_eq_self hclear]
  rw [hcons] at htake hdrop ⊢
  simp only [hkind, htake, hdrop, hlen]
  rw [if_neg (by omega), if_neg fun hc => hno hc.2]

/-- A fence is its run, and white space only if it has no info text. -/
theorem exists_of_read? {text : List Char} {fence : Fence} (h : Fence.read? text = some fence) :
    ∃ behind, text = List.replicate fence.length fence.kind.char ++ behind ∧
      (fence.info = [] → ∀ c ∈ behind, Text.isWhite c = true) := by
  obtain ⟨ends, htext, hends⟩ := Text.exists_dropEndWhile_append Text.isLineEnd text
  unfold Fence.read? at h
  generalize Text.dropEndWhile Text.isLineEnd text = line at h htext
  simp only at h
  split at h
  · exact absurd h (by simp)
  · rename_i c rest
    split at h
    · exact absurd h (by simp)
    · rename_i kind hkind
      have hc : c = kind.char := by
        unfold kindOf? at hkind
        split_ifs at hkind with hback htilde
        · obtain rfl := Option.some.inj hkind
          exact eq_of_beq hback
        · obtain rfl := Option.some.inj hkind
          exact eq_of_beq htilde
      split_ifs at h
      obtain rfl := Option.some.inj h
      have hrun : (c :: rest).takeWhile (· == c) =
          List.replicate ((c :: rest).takeWhile (· == c)).length c := by
        refine List.eq_replicate_of_mem fun d hd => ?_
        exact eq_of_beq (List.all_eq_true.mp List.all_takeWhile d hd)
      refine ⟨(c :: rest).dropWhile (· == c) ++ ends, ?_, fun hinfo d hd => ?_⟩
      · rw [htext, ← hc, ← List.append_assoc, ← hrun, List.takeWhile_append_dropWhile]
      · rcases List.mem_append.mp hd with hd | hd
        · exact Text.isWhite_of_trim_eq_nil hinfo d hd
        · have hend := hends d hd
          simp only [Text.isLineEnd, Bool.or_eq_true, beq_iff_eq] at hend
          rcases hend with rfl | rfl
          · rfl
          · rfl

end Fence

/-- A line that starts with the backticks of a fence is one, in no quote and not indented. -/
theorem Line.classify_ticks (number : Nat) {n : Nat} {info : List Char} (hn : 3 ≤ n)
    (hinfo : ∀ c ∈ info, c ≠ FenceKind.backticks.char ∧ Text.isLineEnd c = false) :
    Line.classify number (Fence.ticks n ++ info) =
      ⟨number, Fence.ticks n ++ info, 0, 0, .fence ⟨.backticks, n, Text.trim info⟩⟩ := by
  have hread := Fence.read?_ticks hn hinfo
  obtain ⟨m, rfl⟩ : ∃ m, n = m + 1 := ⟨n - 1, by omega⟩
  have hcons : Fence.ticks (m + 1) ++ info =
      FenceKind.backticks.char :: (Fence.ticks m ++ info) := rfl
  have hstrip : Line.stripAll (Fence.ticks (m + 1) ++ info) =
      ⟨0, Fence.ticks (m + 1) ++ info⟩ := by
    rw [hcons]
    rfl
  have hdrop : (Fence.ticks (m + 1) ++ info).dropWhile Text.isPad =
      Fence.ticks (m + 1) ++ info := rfl
  have hkind : Line.kindOf 0 (Fence.ticks (m + 1) ++ info) =
      .fence ⟨.backticks, m + 1, Text.trim info⟩ := by
    have hblack : ¬ (Fence.ticks (m + 1) ++ info).all Text.isWhite = true := by
      rw [hcons]
      simp [Text.isWhite, FenceKind.char]
    unfold Line.kindOf Line.kindOfText
    rw [if_neg hblack, if_pos (Nat.zero_le _), hread]
  unfold Line.classify
  rw [hstrip]
  simp only [hdrop]
  exact congrArg _ hkind

namespace Builder

/-- Only a closing line ends code that backticks opened. -/
theorem closing_of_closesCode {n : Nat} {content : List Char}
    (h : closesCode .backticks n content = true) : Fence.Closing n content := by
  unfold closesCode at h
  obtain ⟨-, hcloses⟩ := Bool.and_eq_true_iff.mp h
  unfold Fence.closes at hcloses
  split at hcloses
  · rename_i fence hread
    obtain ⟨behind, htext, hwhite⟩ := Fence.exists_of_read? hread
    obtain ⟨hkind, hlength, hinfo⟩ : fence.kind = .backticks ∧ n ≤ fence.length ∧
        fence.info = [] := by
      simpa [and_assoc] using hcloses
    rw [hkind] at htext
    refine ⟨content.takeWhile Text.isPad, fence.length, behind, ?_, ?_, hlength, hwhite hinfo⟩
    · calc content = content.takeWhile Text.isPad ++ content.dropWhile Text.isPad :=
          List.takeWhile_append_dropWhile.symm
        _ = content.takeWhile Text.isPad ++ Fence.ticks fence.length ++ behind := by
          rw [htext, ← List.append_assoc]
          rfl
    · exact fun c hc => List.all_eq_true.mp List.all_takeWhile c hc
  · exact absurd hcloses (by simp)

/-- The closing fence itself. -/
theorem closesCode_ticks {n : Nat} (hn : 3 ≤ n) :
    closesCode .backticks n (Fence.ticks n) = true := by
  obtain ⟨m, rfl⟩ : ∃ m, n = m + 1 := ⟨n - 1, by omega⟩
  have hread : Fence.read? (Fence.ticks (m + 1)) = some ⟨.backticks, m + 1, []⟩ := by
    rw [← List.append_nil (Fence.ticks (m + 1))]
    exact Fence.read?_ticks hn (by simp)
  have hpads : (Fence.ticks (m + 1)).takeWhile Text.isPad = [] := rfl
  have hrest : (Fence.ticks (m + 1)).dropWhile Text.isPad = Fence.ticks (m + 1) := rfl
  unfold closesCode
  rw [hpads, hrest, hread]
  simp [Fence.closes]

/-- The line that opens code. -/
theorem push_opening {limits : Limits} {n number : Nat} {info : List Char} (hn : 3 ≤ n)
    (hinfo : ∀ c ∈ info, c ≠ FenceKind.backticks.char ∧ Text.isLineEnd c = false) :
    push (Line.classify number (Fence.ticks n ++ info)) { limits } =
      .done { limits, leaf := .code .backticks n 0 (Fence.language? (Text.trim info)) [] } := by
  rw [Line.classify_ticks number hn hinfo]
  unfold push takeLine enterQuotes
  simp only
  rw [if_neg (Nat.not_lt_zero _)]
  rfl

section Inside

variable {b : Builder} {kind : FenceKind} {length : Nat} {language : Option String}
variable {code : List (List Char)}

theorem unquote_of_depth (hdepth : b.path.depth = 0) (line : Line) : b.unquote line = line.raw := by
  unfold unquote
  rw [hdepth]
  rfl

/-- **One line of code.** In code that stands in no quote, a line that does not close it is
kept as it stands. -/
theorem push_inside {line : Line} (hleaf : b.leaf = .code kind length 0 language code)
    (hdepth : b.path.depth = 0) (hopen : closesCode kind length line.raw = false) :
    b.push line = .done { b with leaf := .code kind length 0 language (line.raw :: code) } := by
  have hindent : ∀ s : List Char, Line.stripIndent s 0 = s := by
    intro s
    cases s with
    | nil => rfl
    | cons c s => rfl
  have hdeep : b.path.depth ≤ line.quoteDepth := by omega
  unfold push
  rw [hleaf]
  simp only
  rw [if_pos hdeep, unquote_of_depth hdepth, hopen, hindent]
  rfl

/-- **Any lines of code.** -/
theorem pushAll_inside {lines : List Line} (hleaf : b.leaf = .code kind length 0 language code)
    (hdepth : b.path.depth = 0)
    (hopen : ∀ line ∈ lines, closesCode kind length line.raw = false) :
    b.pushAll lines =
      .done { b with
        leaf := .code kind length 0 language ((lines.map Line.raw).reverse ++ code) } := by
  induction lines generalizing b code with
  | nil =>
    rw [pushAll, List.map_nil, List.reverse_nil, List.nil_append, ← hleaf]
  | cons line lines ih =>
    have hfirst := push_inside hleaf hdepth (hopen line List.mem_cons_self)
    have hrest : pushAll lines { b with leaf := .code kind length 0 language (line.raw :: code) } =
        .done { b with
          leaf := .code kind length 0 language
            ((lines.map Line.raw).reverse ++ line.raw :: code) } :=
      ih rfl hdepth fun l hl => hopen l (List.mem_cons_of_mem _ hl)
    rw [pushAll_cons, hfirst, Attempt.andThen_done, hrest, List.map_cons, List.reverse_cons,
      List.append_assoc, List.singleton_append]

theorem push_closing {line : Line} (hleaf : b.leaf = .code kind length 0 language code)
    (hdepth : b.path.depth = 0) (hcloses : closesCode kind length line.raw = true) :
    b.push line = b.flush := by
  have hdeep : b.path.depth ≤ line.quoteDepth := by omega
  unfold push
  rw [hleaf]
  simp only
  rw [if_pos hdeep, unquote_of_depth hdepth, if_pos hcloses]

end Inside

/-- Behind fenced code a builder is as at the start, above the code block. -/
theorem pushAll_fenced (limits : Limits) {n : Nat} {info : List Char} {code : List (List Char)}
    (hn : 3 ≤ n)
    (hinfo : ∀ c ∈ info, c ≠ FenceKind.backticks.char ∧ Text.isLineEnd c = false)
    (hcode : ∀ line ∈ code, ¬ Fence.Closing n line) :
    ∃ b, pushAll (((Fence.ticks n ++ info) :: (code ++ [Fence.ticks n])).mapIdx fun i raw =>
        Line.classify (0 + i + 1) raw) { limits } = .done b ∧
      Over ⟨[.code (Fence.language? (Text.trim info)) (String.ofList (codeText code))], []⟩
        { limits } b := by
  rw [List.mapIdx_cons, List.mapIdx_append]
  have hraws := Line.map_raw_classify code fun i => 0 + (i + 1) + 1
  generalize (code.mapIdx fun i raw => Line.classify (0 + (i + 1) + 1) raw) = inside at hraws ⊢
  have hopen : ∀ line ∈ inside, closesCode .backticks n line.raw = false := by
    intro line hline
    have hmem : line.raw ∈ code := hraws ▸ List.mem_map_of_mem hline
    by_contra hcloses
    exact hcode _ hmem (closing_of_closesCode (Bool.of_not_eq_false hcloses))
  have hinside : pushAll inside
        { limits, leaf := .code .backticks n 0 (Fence.language? (Text.trim info)) [] } =
      .done { limits
              leaf := .code .backticks n 0 (Fence.language? (Text.trim info))
                ((inside.map Line.raw).reverse ++ []) } :=
    pushAll_inside rfl rfl hopen
  rw [hraws, List.append_nil] at hinside
  rw [pushAll_cons, push_opening hn hinfo, Attempt.andThen_done, pushAll_append, hinside,
    Attempt.andThen_done, List.mapIdx_singleton, pushAll_cons,
    push_closing rfl rfl (closesCode_ticks hn)]
  refine ⟨_, rfl, rfl, ?_, rfl, rfl⟩
  show QuotePath.mk [.code _ (String.ofList (codeText code.reverse.reverse))] [] = _
  rw [List.reverse_reverse]
  rfl

end Builder

/-! ### Whole texts -/

/-- Whole lines in front of a text. -/
theorem LineReader.texts_codeText {words : List (List Char)}
    (h : ∀ word ∈ words, ∀ c ∈ word, Text.isLineEnd c = false) (rest : List Char) :
    texts (codeText words ++ rest) = words ++ texts rest := by
  induction words with
  | nil => rfl
  | cons word words ih =>
    have hword := h word List.mem_cons_self
    have hcode : codeText (word :: words) ++ rest = word ++ '\n' :: (codeText words ++ rest) := by
      simp [codeText]
    rw [hcode, texts_line hword, ih fun w hw => h w (List.mem_cons_of_mem _ hw), List.cons_append]

/-- The lines of a text that starts with whole lines: these, and behind them the lines of the
rest, further down. -/
theorem Line.ofText_codeText {words : List (List Char)}
    (h : ∀ word ∈ words, ∀ c ∈ word, Text.isLineEnd c = false) (rest : List Char) :
    ∃ behind, Line.ofText (codeText words ++ rest) =
        (words.mapIdx fun i raw => Line.classify (0 + i + 1) raw) ++ behind ∧
      List.Forall₂ (Line.Deeper 0) (Line.ofText rest) behind := by
  rw [Line.ofText_eq, LineReader.texts_codeText h, List.mapIdx_append]
  exact ⟨_, rfl, Line.deeper_ofText rest words.length⟩

/-- A text of fenced code: `n` backticks and an info text, the lines, and the backticks
again, with a line feed behind each. -/
def Text.fenced (n : Nat) (info : String) (lines : List String) : String :=
  String.ofList (Fence.ticks n) ++ info ++ "\n" ++ ofLines lines ++ String.ofList (Fence.ticks n) ++
    "\n"

theorem Text.toList_fenced (n : Nat) (info : String) (lines : List String) :
    (fenced n info lines).toList = codeText
      ((Fence.ticks n ++ info.toList) :: (lines.map String.toList ++ [Fence.ticks n])) := by
  simp [fenced, codeText, toList_ofLines, List.flatMap_map]

theorem Fence.language?_trim (info : List Char) :
    Fence.language? (Text.trim info) = (Text.words info).head?.map String.ofList := by
  unfold Fence.language?
  rw [Text.firstWord?_trim, Text.firstWord?_eq]

/-- **Fenced code is kept as it stands.** Fenced code of which no line closes it is one code
block in front of the blocks of the rest: its language is the first word of the info text,
and its content is the lines. -/
theorem Document.parse_fenced {limits : Limits} {n : Nat} {info rest : String}
    {lines : List String} (hn : 3 ≤ n)
    (hinfo : ∀ c ∈ info.toList, c ≠ '\x60' ∧ c ≠ '\n' ∧ c ≠ '\r')
    (hends : ∀ line ∈ lines, ∀ c ∈ line.toList, c ≠ '\n' ∧ c ≠ '\r')
    (hinside : ∀ line ∈ lines, ¬ Fence.Closing n line.toList)
    (hsize : (Text.fenced n info lines ++ rest).utf8ByteSize ≤ limits.maxInputBytes) :
    Document.parse limits (Text.fenced n info lines ++ rest) = do
      let blocks ← Document.parse limits rest
      return .code ((Text.words info.toList).head?.map String.ofList) (Text.ofLines lines) ::
        blocks := by
  have hinfo' : ∀ c ∈ info.toList, c ≠ FenceKind.backticks.char ∧ Text.isLineEnd c = false := by
    intro c hc
    obtain ⟨htick, hend⟩ := hinfo c hc
    exact ⟨htick, by simpa [Text.isLineEnd] using hend⟩
  have hends' : ∀ line ∈ lines.map String.toList, ∀ c ∈ line, Text.isLineEnd c = false := by
    intro line hline c hc
    obtain ⟨inner, hinner, rfl⟩ := List.mem_map.mp hline
    simpa [Text.isLineEnd] using hends inner hinner c hc
  have hinside' : ∀ line ∈ lines.map String.toList, ¬ Fence.Closing n line := by
    intro line hline
    obtain ⟨inner, hinner, rfl⟩ := List.mem_map.mp hline
    exact hinside inner hinner
  have hcode : codeText (lines.map String.toList) = (Text.ofLines lines).toList := by
    rw [codeText, List.flatMap_map, Text.toList_ofLines]
  have hrest : rest.utf8ByteSize ≤ limits.maxInputBytes := by
    rw [String.utf8ByteSize_append] at hsize
    omega
  -- the code leaves its block behind, and above it the rest is read as if it stood alone
  obtain ⟨behind, hlines, hbehind⟩ :=
    Line.ofText_codeText (Fence.clear_fenced (n := n) hinfo' hends') rest.toList
  obtain ⟨b, hpush, hover⟩ := Builder.pushAll_fenced limits hn hinfo' hinside'
  rw [Fence.language?_trim, hcode, String.ofList_toList] at hover
  have hrun := Builder.pushAll_over hover hbehind (.inl rfl)
  have hend : ((Builder.pushAll (Line.ofText rest.toList) { limits }).andThen Builder.finish).Over
      ⟨[Block.code ((Text.words info.toList).head?.map String.ofList)
        (Text.ofLines lines)].reverse, []⟩ ((b.pushAll behind).andThen Builder.finish) :=
    hrun.andThen fun _ => hrun.builder.flush
  rw [Document.parse_eq hsize, Document.parse_eq hrest, String.toList_append, Text.toList_fenced,
    hlines, Builder.pushAll_append, hpush, Attempt.andThen_done, Builder.Over.result hend]
  rfl

/-- Code that looks like a quote, a shorter fence and a list, in front of a quote. -/
theorem Document.parse_fenced_mixed :
    Text.fenced 4 "  rust ignore" ["> a", "```", "\t- b"] =
        "````  rust ignore\n> a\n```\n\t- b\n````\n" ∧
      Document.parse {} (Text.fenced 4 "  rust ignore" ["> a", "```", "\t- b"] ++ "> c") =
        .ok [.code (some "rust") "> a\n```\n\t- b\n", .quote [.paragraph [.text "c"]]] := by
  have hcount : ∀ line, Fence.Closing 4 line → 4 ≤ line.count FenceKind.backticks.char := by
    rintro line ⟨pads, k, space, rfl, -, hk, -⟩
    simp only [Fence.ticks, List.count_append, List.count_replicate_self]
    omega
  have hinside : ∀ line ∈ ["> a", "```", "\t- b"], ¬ Fence.Closing 4 line.toList := by
    intro line hline hclosing
    have hfew : ∀ line ∈ ["> a", "```", "\t- b"],
        line.toList.count FenceKind.backticks.char < 4 := by decide
    exact absurd (hcount _ hclosing) (Nat.not_le.mpr (hfew line hline))
  have hrest : Document.parse {} "> c" = .ok [.quote [.paragraph [.text "c"]]] := by cbv
  refine ⟨by decide, ?_⟩
  rw [Document.parse_fenced (by decide) (by simp) (by simp) hinside (by decide), hrest]
  rfl

end MarkdownHtml
