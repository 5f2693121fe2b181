/-
# Which lines close fenced code

A line opens fenced code if its classification is a fence, which takes an indentation of at
most three columns. Inside the code a line is not classified. It closes the code if at most
three blanks, counted one by one, stand before a fence that fits. This file compares the two
(`Builder.push_code`).

Columns and characters agree as long as blanks are spaces. A tab reaches to the fourth
column at least, so that a fence behind one is text on a line of its own, and yet closes code
if no more than two other blanks stand around the tab (`Line.TabbedFence`). This is the only
difference: every line whose classification is a fitting fence closes the code, and every
line that is neither of the two belongs to it.

Key definitions: `Line.FittingFence`, `Line.TabbedFence`.
Key theorems: `Line.kind_classify_eq_fence_iff`, `Builder.closesCode_iff`,
`Builder.push_code`.
-/
import MarkdownHtml.Proofs.FencedCode
import MarkdownHtml.Proofs.Indents

namespace MarkdownHtml

/-! ### What a fence starts with -/

namespace Fence

theorem three_le_of_read? {text : List Char} {fence : Fence} (h : Fence.read? text = some fence) :
    3 ≤ fence.length := by
  unfold Fence.read? at h
  simp only at h
  split at h
  · exact absurd h (by simp)
  · split at h
    · exact absurd h (by simp)
    · split_ifs at h with hshort hinline
      obtain rfl := Option.some.inj h
      exact Nat.le_of_not_lt hshort

/-- The first character of a fence is that of its run. -/
theorem head?_of_read? {text : List Char} {fence : Fence} (h : Fence.read? text = some fence) :
    text.head? = some fence.kind.char := by
  have hlength := three_le_of_read? h
  obtain ⟨behind, htext, -⟩ := exists_of_read? h
  obtain ⟨n, hn⟩ : ∃ n, fence.length = n + 1 := ⟨fence.length - 1, by omega⟩
  rw [htext, hn]
  rfl

theorem isWhite_kindChar (kind : FenceKind) : Text.isWhite kind.char = false := by
  cases kind with
  | backticks => rfl
  | tildes => rfl

theorem kindChar_ne_quote (kind : FenceKind) : kind.char ≠ '>' := by
  cases kind with
  | backticks => decide
  | tildes => decide

end Fence

namespace Line

/-! ### Fences among classified lines -/

/-- A text is a fence if it is indented by at most three columns and reads as one. -/
theorem kindOf_eq_fence_iff {indent : Nat} {text : List Char} {fence : Fence} :
    kindOf indent text = .fence fence ↔
      indent ≤ maxMarkerIndent ∧ Fence.read? text = some fence := by
  unfold kindOf
  by_cases hblank : text.all Text.isWhite = true
  · rw [if_pos hblank]
    refine ⟨fun h => absurd h (by simp), ?_⟩
    rintro ⟨-, hread⟩
    obtain ⟨rest, rfl⟩ := List.head?_eq_some_iff.mp (Fence.head?_of_read? hread)
    have hwhite := List.all_eq_true.mp hblank _ List.mem_cons_self
    rw [Fence.isWhite_kindChar] at hwhite
    exact absurd hwhite (by simp)
  · rw [if_neg hblank]
    by_cases hindent : indent ≤ maxMarkerIndent
    · rw [if_pos hindent]
      unfold kindOfText
      cases hread : Fence.read? text with
      | some other => simp [hindent]
      | none =>
        simp only [reduceCtorEq, and_false, iff_false]
        cases Heading.read? text with
        | some heading => simp
        | none =>
          simp only
          split_ifs
          · simp
          · cases Marker.read? text <;> simp
    · rw [if_neg hindent]
      cases Marker.read? text <;> simp [hindent]

/-- A line in no quote is classified as a fence if it reads as one behind at most three
columns of blanks. -/
theorem kind_classify_eq_fence_iff {number : Nat} {raw : List Char} {fence : Fence} :
    (classify number raw).quoteDepth = 0 ∧ (classify number raw).kind = .fence fence ↔
      columns (raw.takeWhile Text.isPad) ≤ maxMarkerIndent ∧
        Fence.read? (raw.dropWhile Text.isPad) = some fence := by
  rw [← kindOf_eq_fence_iff]
  simp only [classify]
  constructor
  · rintro ⟨hdepth, hkind⟩
    rw [rest_stripAll_of_depth hdepth] at hkind
    exact hkind
  · intro hkind
    have hread := (kindOf_eq_fence_iff.mp hkind).2
    have hquote : (raw.dropWhile Text.isPad).head? ≠ some '>' := by
      rw [Fence.head?_of_read? hread]
      exact fun h => Fence.kindChar_ne_quote _ (Option.some.inj h)
    rw [stripAll_of_no_marker (stripMarker?_eq_none hquote)]
    exact ⟨rfl, hkind⟩

/-- The line is classified as a fence, in no quote, that closes one of `kind` and `length`. -/
def FittingFence (number : Nat) (kind : FenceKind) (length : Nat) (raw : List Char) : Prop :=
  ∃ fence, (classify number raw).quoteDepth = 0 ∧ (classify number raw).kind = .fence fence ∧
    Fence.closes kind length (some fence) = true

/-- A fence that closes one of `kind` and `length` stands behind a tab and at most two further
blanks. -/
def TabbedFence (kind : FenceKind) (length : Nat) (raw : List Char) : Prop :=
  '\t' ∈ raw.takeWhile Text.isPad ∧ (raw.takeWhile Text.isPad).length ≤ maxMarkerIndent ∧
    Fence.closes kind length (Fence.read? (raw.dropWhile Text.isPad)) = true

theorem fittingFence_iff {number : Nat} {kind : FenceKind} {length : Nat} {raw : List Char} :
    FittingFence number kind length raw ↔
      columns (raw.takeWhile Text.isPad) ≤ maxMarkerIndent ∧
        Fence.closes kind length (Fence.read? (raw.dropWhile Text.isPad)) = true := by
  unfold FittingFence
  constructor
  · rintro ⟨fence, hdepth, hkind, hcloses⟩
    obtain ⟨hcolumns, hread⟩ := kind_classify_eq_fence_iff.mp ⟨hdepth, hkind⟩
    rw [hread]
    exact ⟨hcolumns, hcloses⟩
  · rintro ⟨hcolumns, hcloses⟩
    cases hread : Fence.read? (raw.dropWhile Text.isPad) with
    | none =>
      rw [hread] at hcloses
      exact absurd hcloses (by simp [Fence.closes])
    | some fence =>
      rw [hread] at hcloses
      obtain ⟨hdepth, hkind⟩ := kind_classify_eq_fence_iff.mpr ⟨hcolumns, hread⟩
      exact ⟨fence, hdepth, hkind, hcloses⟩

/-- A fence behind a tab is none where lines are classified. -/
theorem TabbedFence.not_fittingFence {kind : FenceKind} {length : Nat} {raw : List Char}
    (h : TabbedFence kind length raw) (number : Nat) :
    ¬ FittingFence number kind length raw := by
  intro hfits
  have hcolumns := (fittingFence_iff.mp hfits).1
  exact ((columns_le_iff _).mp hcolumns).2 h.1

end Line

/-! ### Lines inside code -/

namespace Builder

/-- A line closes code if its classification is a fitting fence, or if only a tab keeps it from
being one. -/
theorem closesCode_iff {kind : FenceKind} {length : Nat} {raw : List Char} (number : Nat) :
    closesCode kind length raw = true ↔
      Line.FittingFence number kind length raw ∨ Line.TabbedFence kind length raw := by
  rw [Line.fittingFence_iff, Line.columns_le_iff, Line.TabbedFence, closesCode, Bool.and_eq_true,
    decide_eq_true_iff]
  by_cases htab : '\t' ∈ raw.takeWhile Text.isPad
  · simp [htab]
  · simp [htab]

/-- The builder behind the line that closes its code: the code is a block. -/
def withCodeClosed (language : Option String) (lines : List (List Char)) (b : Builder) : Builder :=
  { b with leaf := .none }.emitLeaf .code (.code language (String.ofList (codeText lines.reverse)))

section Code

variable {b : Builder} {kind : FenceKind} {length indent : Nat} {language : Option String}
variable {lines : List (List Char)} {line : Line}

theorem push_of_closesCode (hleaf : b.leaf = .code kind length indent language lines)
    (hdepth : b.path.depth ≤ line.quoteDepth)
    (hcloses : closesCode kind length (b.unquote line) = true) :
    b.push line = .done (b.withCodeClosed language lines) := by
  unfold push
  rw [hleaf]
  simp only
  rw [if_pos hdepth, if_pos hcloses, flush, hleaf]
  rfl

theorem push_of_not_closesCode (hleaf : b.leaf = .code kind length indent language lines)
    (hdepth : b.path.depth ≤ line.quoteDepth)
    (hcloses : ¬ closesCode kind length (b.unquote line) = true) :
    b.push line = .done { b with
      leaf := .code kind length indent language
        (Line.stripIndent (b.unquote line) indent :: lines) } := by
  unfold push
  rw [hleaf]
  simp only
  rw [if_pos hdepth, if_neg hcloses]

theorem withCodeClosed_ne_append :
    Attempt.done (b.withCodeClosed language lines) ≠ .done { b with
      leaf := .code kind length indent language
        (Line.stripIndent (b.unquote line) indent :: lines) } := by
  intro heq
  have hleaf := congrArg (fun a : Attempt => a.builder.leaf) heq
  exact absurd hleaf (by simp [Attempt.done, withCodeClosed, emitLeaf, emit, note])

/-- **Which lines close code.** In code that stands in as many quotes as the line has markers,
or fewer, the line closes the code if what it holds behind the markers of these quotes is
classified as a fitting fence or is one behind a tab, and otherwise belongs to the code. So the
classification alone decides just if the line is no fence behind a tab. -/
theorem push_code (b : Builder) (line : Line) (number : Nat)
    (hleaf : b.leaf = .code kind length indent language lines)
    (hdepth : b.path.depth ≤ line.quoteDepth) :
    (b.push line = .done (b.withCodeClosed language lines) ↔
        Line.FittingFence number kind length (b.unquote line) ∨
          Line.TabbedFence kind length (b.unquote line)) ∧
      (b.push line = .done { b with
          leaf := .code kind length indent language
            (Line.stripIndent (b.unquote line) indent :: lines) } ↔
        ¬ (Line.FittingFence number kind length (b.unquote line) ∨
          Line.TabbedFence kind length (b.unquote line))) ∧
      ((b.push line = .done (b.withCodeClosed language lines) ↔
          Line.FittingFence number kind length (b.unquote line)) ↔
        ¬ Line.TabbedFence kind length (b.unquote line)) := by
  have hclosed : b.push line = .done (b.withCodeClosed language lines) ↔
      closesCode kind length (b.unquote line) = true := by
    refine ⟨fun hpush => ?_, push_of_closesCode hleaf hdepth⟩
    by_contra hopen
    exact withCodeClosed_ne_append (hpush.symm.trans (push_of_not_closesCode hleaf hdepth hopen))
  have happended : b.push line = .done { b with
        leaf := .code kind length indent language
          (Line.stripIndent (b.unquote line) indent :: lines) } ↔
      ¬ closesCode kind length (b.unquote line) = true := by
    refine ⟨fun hpush hcloses => ?_, push_of_not_closesCode hleaf hdepth⟩
    exact withCodeClosed_ne_append ((push_of_closesCode hleaf hdepth hcloses).symm.trans hpush)
  rw [hclosed, happended, closesCode_iff number]
  refine ⟨Iff.rfl, Iff.rfl, fun hrule htab => ?_, fun hno => or_iff_left hno⟩
  exact htab.not_fittingFence number (hrule.mp (.inr htab))

end Code

/-- Code in a quote: two spaces and a longer fence close it, and a fence with an info text
belongs to it. -/
theorem push_code_quoted :
    let b : Builder := { limits := {}, path := ⟨[], [[]]⟩, leaf := .code .backticks 3 0 none [] }
    b.push (Line.classify 2 ">   ````".toList) = .done (b.withCodeClosed none []) ∧
      b.push (Line.classify 2 "> ```a".toList) =
        .done { b with leaf := .code .backticks 3 0 none ["```a".toList] } := by
  intro b
  have hcloses := (push_code b (Line.classify 2 ">   ````".toList) 0 rfl (by decide)).1
  have hbelongs := (push_code b (Line.classify 2 "> ```a".toList) 0 rfl (by decide)).2.1
  refine ⟨hcloses.mpr (.inl ⟨⟨.backticks, 4, []⟩, by decide, by decide, by decide⟩), ?_⟩
  refine hbelongs.mpr ?_
  rw [← closesCode_iff 0]
  decide

/-- A fence behind a tab closes code, though the same line is classified as text. -/
theorem push_code_tab_ne :
    let b : Builder := { limits := {}, leaf := .code .backticks 3 0 none ["a".toList] }
    let line := Line.classify 3 "\t```".toList
    b.push line = .done (b.withCodeClosed none ["a".toList]) ∧
      ¬ Line.FittingFence 3 .backticks 3 (b.unquote line) := by
  intro b line
  have htext : (Line.classify 3 (b.unquote line)).kind = .text "```".toList := by decide
  refine ⟨rfl, ?_⟩
  rintro ⟨fence, -, hkind, -⟩
  rw [htext] at hkind
  exact absurd hkind (by simp)

end Builder
end MarkdownHtml
