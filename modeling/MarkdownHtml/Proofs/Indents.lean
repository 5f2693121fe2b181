/-
# Indentation that is taken off

The blanks in front of a line are measured in columns, and fenced code loses as many columns as
its fence was indented. The two go over the blanks on their own, each with its own account of
where a tab ends. They agree (`Line.stripIndent_spec`): what a line loses is the shortest run of
its leading blanks, from the front, that is as wide as asked for, or all of them where they are
narrower.

The loop that takes blanks off knows of those that are gone only the column they end in, so the
induction is over a line behind some text that has been passed already (`Line.exists_stripTo`).

Key definitions: `Line.Reaches`.
Key theorems: `Line.columns_le_iff`, `Line.columns_mono`, `Line.exists_stripTo`,
`Line.stripIndent_spec`.
-/
import MarkdownHtml.Line.Basic
import Mathlib

namespace MarkdownHtml
namespace Line

/-! ### Blanks in columns -/

theorem columns_concat (blanks : List Char) (c : Char) :
    columns (blanks ++ [c]) =
      if c = '\t' then tabStop (columns blanks) else columns blanks + 1 := by
  simp [columns, List.foldl_append]

/-- Every blank is at least one column wide. -/
theorem length_le_columns (blanks : List Char) : blanks.length ≤ columns blanks := by
  induction blanks using List.reverseRecOn with
  | nil => exact Nat.le_refl 0
  | append_singleton blanks c ih =>
    have htab := lt_tabStop (columns blanks)
    rw [columns_concat, List.length_append, List.length_singleton]
    split_ifs
    · omega
    · omega

/-- Without tabs there are as many columns as blanks. -/
theorem columns_of_no_tab {blanks : List Char} (h : '\t' ∉ blanks) :
    columns blanks = blanks.length := by
  induction blanks using List.reverseRecOn with
  | nil => rfl
  | append_singleton blanks c ih =>
    rw [List.mem_append, not_or] at h
    have hc : c ≠ '\t' := fun hc => h.2 (by simp [hc])
    rw [columns_concat, if_neg hc, ih h.1, List.length_append, List.length_singleton]

/-- A tab reaches to the fourth column at least. -/
theorem four_le_columns {blanks : List Char} (h : '\t' ∈ blanks) : 4 ≤ columns blanks := by
  induction blanks using List.reverseRecOn with
  | nil => exact absurd h (by simp)
  | append_singleton blanks c ih =>
    rw [columns_concat]
    by_cases hc : c = '\t'
    · rw [if_pos hc, tabStop]
      omega
    · have hin : '\t' ∈ blanks := by
        rcases List.mem_append.mp h with h | h
        · exact h
        · exact absurd (List.mem_singleton.mp h).symm hc
      have hwide := ih hin
      rw [if_neg hc]
      omega

/-- An indentation that a fence may have is at most three spaces. -/
theorem columns_le_iff (blanks : List Char) :
    columns blanks ≤ maxMarkerIndent ↔ blanks.length ≤ maxMarkerIndent ∧ '\t' ∉ blanks := by
  have hlength := length_le_columns blanks
  have hthree : maxMarkerIndent = 3 := rfl
  constructor
  · intro hcolumns
    refine ⟨by omega, fun htab => ?_⟩
    have hwide := four_le_columns htab
    omega
  · rintro ⟨hshort, htab⟩
    rw [columns_of_no_tab htab]
    exact hshort

/-- Blanks that go on are wider. -/
theorem columns_mono {front blanks : List Char} (h : front <+: blanks) :
    columns front ≤ columns blanks := by
  obtain ⟨behind, rfl⟩ := h
  induction behind using List.reverseRecOn with
  | nil => rw [List.append_nil]
  | append_singleton behind c ih =>
    have htab := lt_tabStop (columns (front ++ behind))
    rw [← List.append_assoc, columns_concat]
    split_ifs
    · omega
    · omega

/-! ### Taking columns off -/

/-- A blank in front of the column that is asked for goes. -/
theorem stripTo_of_isPad {width : Nat} {front : List Char} {c : Char}
    (hwidth : columns front < width) (hc : Text.isPad c = true) (rest : List Char) :
    stripTo width (columns front) (c :: rest) = stripTo width (columns (front ++ [c])) rest := by
  have hnot : ¬ width ≤ columns front := Nat.not_le.mpr hwidth
  rw [columns_concat, stripTo, if_neg hnot]
  rcases Text.isPad_iff.mp hc with rfl | rfl
  · rfl
  · rfl

/-- Any other character stays. -/
theorem stripTo_of_not_isPad {c : Char} (hc : Text.isPad c = false) (width column : Nat)
    (rest : List Char) : stripTo width column (c :: rest) = c :: rest := by
  have hblank : ¬ c = ' ' ∧ ¬ c = '\t' := by
    rw [← not_or, ← Text.isPad_iff, hc]
    exact Bool.false_ne_true
  rw [stripTo]
  simp [hblank.1, hblank.2]

/-- **What the loop takes off** a line behind some text `front`: leading blanks, as long as the
column that is asked for is not reached. It is reached with the last of them, unless they are all
the blanks there are. -/
theorem exists_stripTo (width : Nat) (front line : List Char) :
    ∃ indent, line = indent ++ stripTo width (columns front) line ∧
      indent <+: line.takeWhile Text.isPad ∧
      (∀ shorter, shorter <+: indent → shorter ≠ indent → columns (front ++ shorter) < width) ∧
      (width ≤ columns (front ++ indent) ∨ indent = line.takeWhile Text.isPad) := by
  have hnone : ∀ front shorter : List Char, shorter <+: [] → shorter ≠ [] →
      columns (front ++ shorter) < width :=
    fun _ _ hshorter hne => absurd (List.prefix_nil.mp hshorter) hne
  induction line generalizing front with
  | nil => exact ⟨[], rfl, List.nil_prefix, hnone front, .inr rfl⟩
  | cons c rest ih =>
    by_cases hwidth : width ≤ columns front
    · refine ⟨[], ?_, List.nil_prefix, hnone front, .inl ?_⟩
      · rw [stripTo, if_pos hwidth, List.nil_append]
      · rwa [List.append_nil]
    · cases hc : Text.isPad c with
      | false =>
        refine ⟨[], ?_, List.nil_prefix, hnone front, .inr ?_⟩
        · rw [stripTo_of_not_isPad hc, List.nil_append]
        · rw [List.takeWhile_cons_of_neg (by simp [hc])]
      | true =>
        have hlt : columns front < width := Nat.lt_of_not_le hwidth
        obtain ⟨indent, hrest, hpart, hshort, hlast⟩ := ih (front ++ [c])
        rw [stripTo_of_isPad hlt hc, List.takeWhile_cons_of_pos hc]
        refine ⟨c :: indent, by rw [List.cons_append, ← hrest],
          List.cons_prefix_cons.mpr ⟨rfl, hpart⟩, ?_, ?_⟩
        · intro shorter hshorter hne
          cases shorter with
          | nil => rwa [List.append_nil]
          | cons d shorter =>
            obtain ⟨rfl, htail⟩ := List.cons_prefix_cons.mp hshorter
            have hless := hshort shorter htail fun h => hne (by rw [h])
            rwa [List.append_assoc] at hless
        · rw [List.append_assoc] at hlast
          rcases hlast with hwide | hall
          · exact .inl hwide
          · exact .inr (by rw [← hall])

/-- `indent` is the shortest part of `blanks`, from the front, that is at least `width` columns
wide. -/
structure Reaches (width : Nat) (blanks indent : List Char) : Prop where
  part : indent <+: blanks
  wide : width ≤ columns indent
  shortest : ∀ front, front <+: blanks → width ≤ columns front → indent <+: front

/-- **Indentation is taken off as it is measured.** A line loses the shortest run of its leading
blanks that is as wide as asked for, or all its leading blanks where they are narrower. It loses
nothing but spaces and tabs. -/
theorem stripIndent_spec (line : List Char) (width : Nat) :
    ∃ indent, line = indent ++ stripIndent line width ∧ (∀ c ∈ indent, c = ' ' ∨ c = '\t') ∧
      if width ≤ columns (line.takeWhile Text.isPad) then
        Reaches width (line.takeWhile Text.isPad) indent
      else indent = line.takeWhile Text.isPad := by
  obtain ⟨indent, hline, hpart, hshort, hlast⟩ := exists_stripTo width [] line
  have hblank : ∀ c ∈ indent, c = ' ' ∨ c = '\t' := by
    intro c hc
    have hpad : Text.isPad c = true :=
      List.all_eq_true.mp List.all_takeWhile c (hpart.subset hc)
    exact Text.isPad_iff.mp hpad
  refine ⟨indent, hline, hblank, ?_⟩
  split_ifs with hwide
  · refine ⟨hpart, ?_, ?_⟩
    · rcases hlast with hreached | rfl
      · exact hreached
      · exact hwide
    · intro front hfront hreached
      rcases List.prefix_or_prefix_of_prefix hpart hfront with hle | hle
      · exact hle
      · by_contra hnot
        have hne : front ≠ indent := fun h => hnot (h ▸ List.prefix_refl indent)
        have hless : columns front < width := hshort front hle hne
        omega
  · rcases hlast with hreached | hall
    · have hmono := columns_mono hpart
      exact absurd (Nat.le_trans hreached hmono) hwide
    · exact hall

/-- A tab goes as a whole once its first column has to go, and the blank behind it stays. -/
example : stripIndent " \t  x".toList 2 = "  x".toList := by decide

end Line
end MarkdownHtml
