/-
# The filter of addresses sees through disguises

A browser does not see tabs and line ends in an address, nor blanks and controls in front of it,
and does not tell upper from lower case in a scheme. `Browser.Disguise` lists the edits that this
leaves free. The filter looks at one form of an address only, in lower case and without what a
browser does not see (`Browser.essence`): the scheme is found there as it is in the address
(`Url.scheme?_lower`), and what is asked of the text behind it is asked in lower case. Every edit
keeps that form, so no sequence of edits changes what the filter says
(`Url.isSafe_disguised`).

Key definitions: `Browser.Disguise`, `Browser.essence`.
Key theorems: `Browser.Disguise.essence_eq`, `Url.scheme?_lower`, `Url.isSafe_eq_verdict`,
`Url.isSafe_disguised`.
-/
import MarkdownHtml.Proofs.Addresses
import Mathlib.Logic.Relation

namespace MarkdownHtml
namespace Browser

/-- One edit of an address that a browser does not notice when it looks for the scheme. -/
inductive Disguise : List Char → List Char → Prop
  /-- A tab or line end is inserted anywhere. -/
  | insert (before after : List Char) {c : Char} (hc : isDropped c = true) :
    Disguise (before ++ after) (before ++ c :: after)
  /-- A tab or line end is deleted. -/
  | delete (before after : List Char) {c : Char} (hc : isDropped c = true) :
    Disguise (before ++ c :: after) (before ++ after)
  /-- A blank or control is put in front. -/
  | pad (url : List Char) {c : Char} (hc : isLeading c = true) : Disguise url (c :: url)
  /-- An ASCII letter changes its case. -/
  | recase (before after : List Char) {c d : Char} (hd : d = c.toLower ∨ d = c.toUpper) :
    Disguise (before ++ c :: after) (before ++ d :: after)

/-- The address in lower case and as a browser sees it. -/
def essence (url : List Char) : List Char := view (Url.lower url)

/-! ### Case -/

theorem toLower_of_wide {c : Char} (h : 0x80 ≤ c.toNat) : c.toLower = c := by
  rw [Char.toLower, dif_neg]
  intro hletter
  have hhigh : c.toNat ≤ 0x5A := UInt32.le_iff_toNat_le.mp hletter.2
  omega

/-- What the case of ASCII letters does not change, it changes for no character. -/
theorem toLower_congr {α : Type} {f : Char → α}
    (h : ∀ n < 0x80, f (Char.ofNat n).toLower = f (Char.ofNat n)) (c : Char) :
    f c.toLower = f c := by
  by_cases hc : c.toNat < 0x80
  · have hascii := h c.toNat hc
    rwa [Char.ofNat_toNat] at hascii
  · rw [toLower_of_wide (Nat.le_of_not_lt hc)]

theorem isLeading_toLower (c : Char) : isLeading c.toLower = isLeading c :=
  toLower_congr (by decide) c

theorem isDropped_toLower (c : Char) : isDropped c.toLower = isDropped c :=
  toLower_congr (by decide) c

theorem isSchemeChar_toLower (c : Char) : Url.isSchemeChar c.toLower = Url.isSchemeChar c :=
  toLower_congr (by decide) c

theorem ne_colon_toLower (c : Char) : (c.toLower != ':') = (c != ':') :=
  toLower_congr (f := (· != ':')) (by decide) c

theorem lower_lower (s : List Char) : Url.lower (Url.lower s) = Url.lower s := by
  simp [Url.lower]

/-- A browser sees the same of an address in lower case, in lower case. -/
theorem view_lower (url : List Char) : view (Url.lower url) = Url.lower (view url) := by
  have hleading : isLeading ∘ Char.toLower = isLeading := funext isLeading_toLower
  have hdropped : (fun c => !isDropped c) ∘ Char.toLower = fun c => !isDropped c :=
    funext fun c => congrArg (! ·) (isDropped_toLower c)
  simp only [view, joined, Url.lower, List.dropWhile_map, List.filter_map, hleading, hdropped]

/-! ### Edits -/

theorem view_cons_of_leading {c : Char} (hc : isLeading c = true) (url : List Char) :
    view (c :: url) = view url := by
  unfold view
  rw [List.dropWhile_cons_of_pos hc]

theorem isLeading_of_isDropped {c : Char} (hc : isDropped c = true) : isLeading c = true := by
  simp only [isDropped, Bool.or_eq_true, beq_iff_eq] at hc
  rcases hc with (rfl | rfl) | rfl <;> decide

/-- A tab or line end is not seen, wherever it stands. -/
theorem view_insert {c : Char} (hc : isDropped c = true) (after : List Char) :
    ∀ before : List Char, view (before ++ c :: after) = view (before ++ after)
  | [] => view_cons_of_leading (isLeading_of_isDropped hc) after
  | b :: before => by
    by_cases hb : isLeading b = true
    · rw [List.cons_append, List.cons_append, view_cons_of_leading hb, view_cons_of_leading hb]
      exact view_insert hc after before
    · -- nothing is dropped in front any more, and the character is filtered out
      unfold view joined
      rw [List.cons_append, List.cons_append, List.dropWhile_cons_of_neg hb,
        List.dropWhile_cons_of_neg hb, ← List.cons_append, ← List.cons_append,
        List.filter_append, List.filter_append, List.filter_cons_of_neg (a := c) (by simp [hc])]

/-- **One edit** keeps the essence of an address. -/
theorem Disguise.essence_eq {url url' : List Char} (h : Disguise url url') :
    essence url' = essence url := by
  cases h with
  | insert before after hc =>
    rw [essence, essence, view_lower, view_lower, view_insert hc]
  | delete before after hc =>
    rw [essence, essence, view_lower, view_lower, view_insert hc]
  | pad url hc =>
    rw [essence, essence, view_lower, view_lower, view_cons_of_leading hc]
  | @recase before after c d hd =>
    have hsame : d.toLower = c.toLower := by
      rcases hd with rfl | rfl
      · exact c.toLower_toLower_eq_toLower
      · exact c.toLower_toUpper_eq_toLower
    have hlower : Url.lower (before ++ d :: after) = Url.lower (before ++ c :: after) := by
      simp [Url.lower, hsame]
    rw [essence, essence, hlower]

/-- **Any edits** keep it. -/
theorem essence_of_disguised {url url' : List Char}
    (h : Relation.ReflTransGen Disguise url url') : essence url' = essence url := by
  induction h with
  | refl => rfl
  | tail _ hstep ih => exact hstep.essence_eq.trans ih

end Browser

/-! ### The filter -/

namespace Url

open Browser

/-- The scheme of an address in lower case is that of the address, and the text behind it is in
lower case. -/
theorem scheme?_lower (s : List Char) :
    scheme? (lower s) = (scheme? s).map fun found => (found.1, lower found.2) := by
  have hcolon : (fun c => c != ':') ∘ Char.toLower = fun c => c != ':' := funext ne_colon_toLower
  have hchars : ∀ more : List Char, (more.map Char.toLower).all isSchemeChar =
      more.all isSchemeChar := by
    intro more
    rw [List.all_map, show isSchemeChar ∘ Char.toLower = isSchemeChar from
      funext isSchemeChar_toLower]
  unfold scheme?
  dsimp only [lower]
  rw [List.takeWhile_map, List.dropWhile_map, hcolon]
  cases hrest : s.dropWhile (· != ':') with
  | nil => simp
  | cons colon rest =>
    cases hname : s.takeWhile (· != ':') with
    | nil => simp
    | cons first more =>
      have htwice : (more.map Char.toLower).map Char.toLower = more.map Char.toLower :=
        lower_lower more
      simp only [List.map_cons, Char.isAlpha_toLower_eq_isAlpha, hchars,
        Char.toLower_toLower_eq_toLower, htwice]
      split_ifs with hscheme
      · rfl
      · rfl

/-- What the filter says once the scheme is found, the text behind it being in lower case. -/
def verdict (use : Use) : Option (List Char × List Char) → Bool
  | none => true
  | some (scheme, rest) =>
    !blockedSchemes.contains scheme ||
      (use = .image && scheme == "data".toList && pictureFormats.any (·.isPrefixOf rest))

/-- The filter looks at nothing but the essence of an address. -/
theorem isSafe_eq_verdict (use : Use) (url : List Char) :
    isSafe use url = verdict use (scheme? (essence url)) := by
  rw [essence, view_lower, scheme?_lower, isSafe, cleaned_eq_view]
  cases scheme? (view url) with
  | none => rfl
  | some found =>
    obtain ⟨scheme, rest⟩ := found
    simp only [Option.map_some, verdict]
    cases blockedSchemes.contains scheme with
    | false => rfl
    | true =>
      simp only [Bool.not_true, Bool.false_eq_true, if_false, Bool.false_or]
      split_ifs with hdata
      · rw [hdata, Bool.true_and]
      · rw [Bool.not_eq_true] at hdata
        rw [hdata, Bool.false_and]

/-- **Noise does not change what the filter says**, be the address for a link or an image:
tabs and line ends that are inserted or deleted anywhere, blanks and controls in front, and other
case of letters. And an address that is safe for a link is safe for an image. -/
theorem isSafe_disguised :
    (∀ (use : Use) (url url' : List Char), Relation.ReflTransGen Disguise url url' →
      isSafe use url' = isSafe use url) ∧
    ∀ url : List Char, isSafe .link url = true → isSafe .image url = true := by
  constructor
  · intro use url url' h
    rw [isSafe_eq_verdict, isSafe_eq_verdict, essence_of_disguised h]
  · intro url h
    rw [isSafe_eq_verdict] at h ⊢
    cases hfound : scheme? (essence url) with
    | none => rfl
    | some found =>
      rw [hfound] at h
      simp only [verdict, Bool.or_eq_true] at h ⊢
      rcases h with hfree | hpicture
      · exact .inl hfree
      · exact absurd hpicture (by simp)

/-- A local file, disguised by an edit of each kind, and a relative address. -/
theorem isSafe_disguised_file :
    Relation.ReflTransGen Disguise "file:\nx".toList "\x01fI\tle:x".toList ∧
      (∀ use, isSafe use "\x01fI\tle:x".toList = isSafe use "file:\nx".toList) ∧
      isSafe .link "a b".toList = true ∧ isSafe .image "a b".toList = true := by
  have hedits : Relation.ReflTransGen Disguise "file:\nx".toList "\x01fI\tle:x".toList :=
    .trans (.single (.delete "file:".toList "x".toList (c := '\n') (by decide)))
      (.trans (.single (.recase "f".toList "le:x".toList (c := 'i') (d := 'I') (by decide)))
        (.trans (.single (.insert "fI".toList "le:x".toList (c := '\t') (by decide)))
          (.single (.pad "fI\tle:x".toList (c := '\x01') (by decide)))))
  have hsafe : isSafe .link "a b".toList = true := by decide
  exact ⟨hedits, fun use => isSafe_disguised.1 use _ _ hedits, hsafe, isSafe_disguised.2 _ hsafe⟩

end Url
end MarkdownHtml
