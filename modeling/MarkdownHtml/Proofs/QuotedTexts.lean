/-
# Quoted texts say what they quote

A way of writing is self-delimiting if what is written can be cut off any text in front of which
it stands, and says what was written (`Text.SelfDelimiting`). A list of such pieces up to a
character that no piece starts with is self-delimiting again, and so is a text up to a character
that it does not hold.

Quoted texts are self-delimiting (`Text.selfDelimiting_quotedBy`), whatever characters are shown
by their number: an escape starts with a backslash, its next character tells which it is, and the
digits of a number end with a brace.

Key definition: `Text.SelfDelimiting`.
Key theorems: `Text.SelfDelimiting.flatMap`, `Text.selfDelimiting_ended`,
`Text.hexDigits_injective`, `Text.quotedChar_cases`, `Text.selfDelimiting_quotedBy`.
-/
import MarkdownHtml.Text.Quoted

namespace MarkdownHtml
namespace Text

/-- What `f` writes can be cut off the front of a text, and tells what it was written for. -/
def SelfDelimiting {α : Type} (f : α → List Char) : Prop :=
  ∀ (a b : α) (x y : List Char), f a ++ x = f b ++ y → a = b ∧ x = y

namespace SelfDelimiting

variable {α : Type} {f : α → List Char}

theorem injective (hf : SelfDelimiting f) : Function.Injective f := by
  intro a b h
  exact (hf a b [] [] (by rw [h])).1

/-- Pieces in a row up to a character with which no piece starts. -/
theorem flatMap (hf : SelfDelimiting f) {stop : Char}
    (hstart : ∀ a, ∃ c rest, f a = c :: rest ∧ c ≠ stop) :
    SelfDelimiting fun as : List α => as.flatMap f ++ [stop] := by
  -- behind a piece on one side only, the other side would start with the end
  have hend : ∀ a x y, f a ++ x ≠ stop :: y := by
    intro a x y h
    obtain ⟨c, rest, ha, hc⟩ := hstart a
    rw [ha] at h
    exact hc (List.cons.inj h).1
  intro as
  induction as with
  | nil =>
    intro bs x y h
    cases bs with
    | nil => exact ⟨rfl, List.append_cancel_left h⟩
    | cons b bs =>
      simp only [List.flatMap_cons, List.append_assoc] at h
      exact absurd h.symm (hend b _ _)
  | cons a as ih =>
    intro bs x y h
    cases bs with
    | nil =>
      simp only [List.flatMap_cons, List.append_assoc] at h
      exact absurd h (hend a _ _)
    | cons b bs =>
      simp only [List.flatMap_cons, List.append_assoc] at h
      obtain ⟨rfl, hrest⟩ := hf a b _ _ h
      obtain ⟨rfl, hxy⟩ := ih bs x y (by simpa only [List.append_assoc] using hrest)
      exact ⟨rfl, hxy⟩

end SelfDelimiting

/-- Two texts up to the first `stop` that are followed by it are the same. -/
theorem append_stop_inj {stop : Char} {s t x y : List Char} (hs : stop ∉ s) (ht : stop ∉ t)
    (h : s ++ stop :: x = t ++ stop :: y) : s = t ∧ x = y := by
  have htake : ∀ {u : List Char} (z : List Char), stop ∉ u →
      (u ++ stop :: z).takeWhile (· != stop) = u := by
    intro u z hu
    rw [List.takeWhile_append_of_pos, List.takeWhile_cons_of_neg (by simp), List.append_nil]
    intro c hc
    simpa using ne_of_mem_of_not_mem hc hu
  have hst : s = t := by
    rw [← htake x hs, h, htake y ht]
  subst hst
  exact ⟨rfl, (List.cons.inj (List.append_cancel_left h)).2⟩

/-- A text without `stop` that is ended by it. -/
theorem selfDelimiting_ended {α : Type} {f : α → List Char} {stop : Char}
    (hf : Function.Injective f) (hclear : ∀ a, stop ∉ f a) :
    SelfDelimiting fun a => f a ++ [stop] := by
  intro a b x y h
  simp only [List.append_assoc, List.singleton_append] at h
  obtain ⟨hab, hxy⟩ := append_stop_inj (hclear a) (hclear b) h
  exact ⟨hf hab, hxy⟩

/-! ### Numbers in hexadecimal -/

theorem digitChar_inj : ∀ m < 16, ∀ n < 16, Nat.digitChar m = Nat.digitChar n → m = n := by
  decide

theorem hexDigits_eq (n : Nat) :
    hexDigits n = if n < 16 then [n.digitChar] else hexDigits (n / 16) ++ [(n % 16).digitChar] :=
  Nat.toDigits_eq_if (by decide)

theorem hexDigits_injective : Function.Injective hexDigits := by
  intro m
  induction m using Nat.strongRecOn with
  | ind m ih =>
    intro n h
    have hlong : ∀ (k : Nat) (c d : Char), [c] ≠ hexDigits k ++ [d] := by
      intro k c d heq
      have hlength := congrArg List.length heq
      have hpos : 0 < (hexDigits k).length := Nat.length_toDigits_pos
      simp only [List.length_append, List.length_singleton] at hlength
      omega
    rw [hexDigits_eq m, hexDigits_eq n] at h
    by_cases hm : m < 16
    · by_cases hn : n < 16
      · rw [if_pos hm, if_pos hn] at h
        exact digitChar_inj m hm n hn (List.cons.inj h).1
      · rw [if_pos hm, if_neg hn] at h
        exact absurd h (hlong _ _ _)
    · by_cases hn : n < 16
      · rw [if_neg hm, if_pos hn] at h
        exact absurd h.symm (hlong _ _ _)
      · rw [if_neg hm, if_neg hn] at h
        obtain ⟨hdigits, hlast⟩ := List.append_inj' h rfl
        have hquot := ih (m / 16) (by omega) hdigits
        have hrem := digitChar_inj (m % 16) (by omega) (n % 16) (by omega) (List.cons.inj hlast).1
        omega

theorem exists_of_mem_hexDigits {c : Char} : ∀ n : Nat, c ∈ hexDigits n →
    ∃ d, c = Nat.digitChar d := by
  intro n
  induction n using Nat.strongRecOn with
  | ind n ih =>
    intro h
    rw [hexDigits_eq] at h
    by_cases hn : n < 16
    · rw [if_pos hn] at h
      exact ⟨n, List.mem_singleton.mp h⟩
    · rw [if_neg hn] at h
      rcases List.mem_append.mp h with h | h
      · exact ih (n / 16) (by omega) h
      · exact ⟨n % 16, List.mem_singleton.mp h⟩

theorem not_mem_hexDigits {c : Char} (hc : ∀ d, Nat.digitChar d ≠ c) (n : Nat) :
    c ∉ hexDigits n := by
  intro h
  obtain ⟨d, rfl⟩ := exists_of_mem_hexDigits n h
  exact hc d rfl

/-! ### Characters -/

/-- The characters with an escape of their own, and the letters of their escapes. -/
def letters : List (Char × Char) :=
  [('\x00', '0'), ('\t', 't'), ('\r', 'r'), ('\n', 'n'), ('"', '"'), ('\\', '\\')]

/-- A character is escaped by a letter, shown by its number, or written as it is. -/
theorem quotedChar_cases (hidden : Char → Bool) (c : Char) :
    (∃ l, (c, l) ∈ letters ∧ quotedChar hidden c = ['\\', l]) ∨
      quotedChar hidden c = ['\\', 'u', '\x7b'] ++ (hexDigits c.toNat ++ ['\x7d']) ∨
      quotedChar hidden c = [c] ∧ c ≠ '\\' ∧ c ≠ '"' ∧ c ≠ '\n' := by
  by_cases hletter : ∃ l, (c, l) ∈ letters
  · left
    obtain ⟨l, hl⟩ := hletter
    refine ⟨l, hl, ?_⟩
    simp only [letters, List.mem_cons, List.not_mem_nil, or_false, Prod.mk.injEq] at hl
    rcases hl with ⟨rfl, rfl⟩ | ⟨rfl, rfl⟩ | ⟨rfl, rfl⟩ | ⟨rfl, rfl⟩ | ⟨rfl, rfl⟩ | ⟨rfl, rfl⟩
    all_goals rfl
  · right
    simp only [letters, List.mem_cons, List.not_mem_nil, or_false, Prod.mk.injEq] at hletter
    have hne : c ≠ '\x00' ∧ c ≠ '\t' ∧ c ≠ '\r' ∧ c ≠ '\n' ∧ c ≠ '"' ∧ c ≠ '\\' := by
      refine ⟨?_, ?_, ?_, ?_, ?_, ?_⟩
      all_goals
        rintro rfl
        exact hletter (by simp)
    obtain ⟨h₀, h₁, h₂, h₃, h₄, h₅⟩ := hne
    unfold quotedChar
    simp only [beq_iff_eq, h₀, h₁, h₂, h₃, h₄, h₅, if_false]
    by_cases hc : hidden c = true
    · left
      rw [if_pos hc, List.append_assoc]
    · right
      rw [if_neg hc]
      exact ⟨rfl, h₅, h₄, h₃⟩

theorem letters_inj : ∀ p ∈ letters, ∀ q ∈ letters, p.2 = q.2 → p.1 = q.1 := by decide

theorem letters_ne_number : ∀ p ∈ letters, p.2 ≠ 'u' := by decide

theorem letters_ne_feed : ∀ p ∈ letters, p.2 ≠ '\n' := by decide

theorem selfDelimiting_number :
    SelfDelimiting fun c : Char => hexDigits c.toNat ++ ['\x7d'] := by
  refine selfDelimiting_ended (f := fun c : Char => hexDigits c.toNat) ?_ fun c =>
    not_mem_hexDigits (fun d => Nat.digitChar_ne _ (by decide)) _
  intro c d h
  exact Char.toNat_inj.mp (hexDigits_injective h)

theorem selfDelimiting_quotedChar (hidden : Char → Bool) :
    SelfDelimiting (quotedChar hidden) := by
  intro c d x y h
  rcases quotedChar_cases hidden c with ⟨l, hl, hc⟩ | hc | ⟨hc, hback, -⟩
  · rcases quotedChar_cases hidden d with ⟨l', hl', hd⟩ | hd | ⟨hd, hback', -⟩
    · rw [hc, hd] at h
      obtain ⟨hletter, hxy⟩ := List.cons.inj (List.cons.inj h).2
      exact ⟨letters_inj _ hl _ hl' hletter, hxy⟩
    · rw [hc, hd] at h
      exact absurd (List.cons.inj (List.cons.inj h).2).1 (letters_ne_number _ hl)
    · rw [hc, hd] at h
      exact absurd (List.cons.inj h).1.symm hback'
  · rcases quotedChar_cases hidden d with ⟨l', hl', hd⟩ | hd | ⟨hd, hback', -⟩
    · rw [hc, hd] at h
      exact absurd (List.cons.inj (List.cons.inj h).2).1.symm (letters_ne_number _ hl')
    · rw [hc, hd] at h
      simp only [List.cons_append, List.nil_append, List.cons.injEq, true_and] at h
      exact selfDelimiting_number c d x y h
    · rw [hc, hd] at h
      exact absurd (List.cons.inj h).1.symm hback'
  · rcases quotedChar_cases hidden d with ⟨l', hl', hd⟩ | hd | ⟨hd, -⟩
    · rw [hc, hd] at h
      exact absurd (List.cons.inj h).1 hback
    · rw [hc, hd] at h
      exact absurd (List.cons.inj h).1 hback
    · rw [hc, hd] at h
      exact List.cons.inj h

/-- No quoted character looks like the closing quote. -/
theorem quotedChar_start (hidden : Char → Bool) (c : Char) :
    ∃ d rest, quotedChar hidden c = d :: rest ∧ d ≠ '"' := by
  rcases quotedChar_cases hidden c with ⟨l, -, hc⟩ | hc | ⟨hc, -, hquote, -⟩
  · exact ⟨_, _, hc, by decide⟩
  · exact ⟨_, _, hc, by decide⟩
  · exact ⟨_, _, hc, hquote⟩

theorem feed_not_mem_quotedChar (hidden : Char → Bool) (c : Char) :
    '\n' ∉ quotedChar hidden c := by
  rcases quotedChar_cases hidden c with ⟨l, hl, hc⟩ | hc | ⟨hc, -, -, hfeed⟩
  · rw [hc]
    have hl' := letters_ne_feed _ hl
    simpa using Ne.symm hl'
  · have hdigits := not_mem_hexDigits (c := '\n') (fun d => Nat.digitChar_ne _ (by decide)) c.toNat
    rw [hc]
    simpa using hdigits
  · rw [hc]
    simpa using Ne.symm hfeed

/-! ### Texts -/

theorem toList_quotedBy (hidden : Char → Bool) (s : String) :
    (quotedBy hidden s).toList = '"' :: (s.toList.flatMap (quotedChar hidden) ++ ['"']) := by
  simp [quotedBy]

/-- **Quoted texts are self-delimiting**, whichever characters are shown by their number. -/
theorem selfDelimiting_quotedBy (hidden : Char → Bool) :
    SelfDelimiting fun s : String => (quotedBy hidden s).toList := by
  have hlist := (selfDelimiting_quotedChar hidden).flatMap (quotedChar_start hidden)
  intro s t x y h
  simp only [toList_quotedBy] at h
  obtain ⟨hst, hxy⟩ := hlist s.toList t.toList x y (List.cons.inj h).2
  exact ⟨String.toList_inj.mp hst, hxy⟩

theorem feed_not_mem_quotedBy (hidden : Char → Bool) (s : String) :
    '\n' ∉ (quotedBy hidden s).toList := by
  rw [toList_quotedBy]
  simp only [List.mem_cons, List.mem_append, List.mem_flatMap, not_or, not_exists, not_and]
  refine ⟨by decide, fun c _ => feed_not_mem_quotedChar hidden c, by simp⟩

/-- A quoted text that may be missing tells the text and that it is there. -/
theorem selfDelimiting_quotedOptionBy (hidden : Char → Bool) :
    SelfDelimiting fun title : Option String => (quotedOptionBy hidden title).toList := by
  intro title title' x y h
  cases title with
  | none =>
    cases title' with
    | none => exact ⟨rfl, by simpa [quotedOptionBy] using h⟩
    | some t => exact absurd h (by simp [quotedOptionBy])
  | some s =>
    cases title' with
    | none => exact absurd h (by simp [quotedOptionBy])
    | some t =>
      simp only [quotedOptionBy, String.toList_append, List.append_assoc] at h
      obtain ⟨rfl, hxy⟩ := selfDelimiting_quotedBy hidden s t _ _ (List.append_cancel_left h)
      exact ⟨rfl, List.append_cancel_left hxy⟩

theorem feed_not_mem_quotedOptionBy (hidden : Char → Bool) (title : Option String) :
    '\n' ∉ (quotedOptionBy hidden title).toList := by
  cases title with
  | none => simp [quotedOptionBy]
  | some s => simpa [quotedOptionBy] using feed_not_mem_quotedBy hidden s

end Text
end MarkdownHtml
