/-
# What the readers of link tails accept

A link tail is read by four loops: one for the blanks between its parts, one for a destination in
angle brackets, one for a bare destination and one for a title. Each goes over the text character
by character, passes over an escape as a whole, and carries what it has to remember: how many
parentheses are open, or whether the line is blank so far. This file says what each of them
accepts in terms of the text alone, without the loop.

The three readers of content have one form (`Took`): they pass over a text that has some property
and stop in front of a text that has another. Which characters matter is decided by
`Text.unescaped`, the text without its escapes. That parentheses match and nest no deeper than a
limit is a property of counts (`Text.Balanced`), and that no line is blank is a property of
infixes (`Text.HasBlankLine`).

Key definitions: `Text.unescaped`, `Text.Balanced`, `Text.HasBlankLine`, `LinkTail.Took`,
`LinkTail.Angled`, `LinkTail.Bare`, `LinkTail.Quoted`, `LinkTail.Gap`.
Key theorems: `LinkTail.angle_eq_some_iff`, `LinkTail.bare_eq_some_iff`,
`LinkTail.titleTo_eq_some_iff`, `LinkTail.blanks_eq_iff`.
-/
import MarkdownHtml.Proofs.Escapes
import MarkdownHtml.Proofs.LinkTails

namespace MarkdownHtml

/-! ### What is not escaped -/

namespace Text

/-- The characters of `s` that are not part of an escape. -/
def unescaped : List Char → List Char
  | [] => []
  | '\\' :: c :: rest =>
    if isPunctuation c then unescaped rest else '\\' :: unescaped (c :: rest)
  | c :: rest => c :: unescaped rest

theorem unescaped_cons {c : Char} {s : List Char}
    (h : c = '\\' → startsWithPunctuation s = false) : unescaped (c :: s) = c :: unescaped s := by
  by_cases hc : c = '\\'
  · subst hc
    cases s with
    | nil => rfl
    | cons d s =>
      have hd : isPunctuation d = false := h rfl
      rw [unescaped, hd]
      rfl
  · rw [unescaped]
    intro d r heq
    exact absurd heq hc

theorem unescaped_escape {c : Char} (hc : isPunctuation c = true) (s : List Char) :
    unescaped ('\\' :: c :: s) = unescaped s := by
  rw [unescaped, if_pos hc]

theorem forall_unescaped_cons {P : Char → Prop} {c : Char} {s : List Char}
    (h : c = '\\' → startsWithPunctuation s = false) :
    (∀ d ∈ unescaped (c :: s), P d) ↔ P c ∧ ∀ d ∈ unescaped s, P d := by
  rw [unescaped_cons h, List.forall_mem_cons]

theorem startsWithPunctuation_of_append {s rest : List Char}
    (h : startsWithPunctuation (s ++ rest) = false) : startsWithPunctuation s = false := by
  cases s with
  | nil => rfl
  | cons c s => exact h

/-! ### Parentheses -/

/-- Every parenthesis in `s` has its partner there, but for `opened` that are open in front of
`s` and closed in it. No more than `limit` are open at any place. -/
structure Balanced (limit opened : Nat) (s : List Char) : Prop where
  fits : ∀ front, front <+: s → front.count ')' ≤ opened + front.count '(' ∧
    opened + front.count '(' ≤ limit + front.count ')'
  closed : opened + s.count '(' = s.count ')'

section Balanced

variable {limit opened opened' k : Nat} {c : Char} {s : List Char}

theorem balanced_nil : Balanced limit opened [] ↔ opened = 0 := by
  constructor
  · exact fun hs => hs.closed
  · rintro rfl
    refine ⟨fun front hf => ?_, rfl⟩
    rw [List.prefix_nil.mp hf]
    simp

theorem Balanced.le (h : Balanced limit opened s) : opened ≤ limit :=
  (h.fits [] List.nil_prefix).2

theorem not_balanced_close : ¬ Balanced limit 0 (')' :: s) := by
  intro h
  have hfirst := (h.fits [')'] (List.prefix_append [')'] s)).1
  simp at hfirst

/-- Behind the character `c`, which counts as `k` closing parentheses, `opened'` are open. -/
theorem balanced_cons (h : opened ≤ limit)
    (hopen : ∀ s : List Char, opened + (c :: s).count '(' = opened' + s.count '(' + k)
    (hclose : ∀ s : List Char, (c :: s).count ')' = s.count ')' + k) :
    Balanced limit opened (c :: s) ↔ Balanced limit opened' s := by
  constructor
  · rintro ⟨hfits, hclosed⟩
    rw [hopen, hclose] at hclosed
    refine ⟨fun front hf => ?_, by omega⟩
    have hfront := hfits (c :: front) (List.cons_prefix_cons.mpr ⟨rfl, hf⟩)
    rw [hopen, hclose] at hfront
    omega
  · rintro ⟨hfits, hclosed⟩
    refine ⟨fun front hf => ?_, by rw [hopen, hclose]; omega⟩
    rcases List.prefix_cons_iff.mp hf with rfl | ⟨front, rfl, hs⟩
    · simpa using h
    · have hfront := hfits front hs
      rw [hopen, hclose]
      omega

end Balanced

/-! ### Blank lines -/

/-- Blanks and then a line feed stand at the front of `s`. -/
def LeadsToFeed (s : List Char) : Prop :=
  ∃ blanks, (∀ c ∈ blanks, isPad c = true) ∧ blanks ++ ['\n'] <+: s

/-- Two line feeds with only blanks between them stand in `s`. -/
def HasBlankLine (s : List Char) : Prop :=
  ∃ blanks, (∀ c ∈ blanks, isPad c = true) ∧ '\n' :: blanks ++ ['\n'] <:+: s

theorem not_leadsToFeed_nil : ¬ LeadsToFeed [] := by
  rintro ⟨blanks, -, h⟩
  exact absurd (List.prefix_nil.mp h) (by simp)

theorem not_hasBlankLine_nil : ¬ HasBlankLine [] := by
  rintro ⟨blanks, -, h⟩
  exact absurd (List.infix_nil.mp h) (by simp)

theorem leadsToFeed_cons {c : Char} {s : List Char} :
    LeadsToFeed (c :: s) ↔ c = '\n' ∨ isPad c = true ∧ LeadsToFeed s := by
  constructor
  · rintro ⟨_ | ⟨d, blanks⟩, hblanks, h⟩
    · exact .inl (List.cons_prefix_cons.mp h).1.symm
    · obtain ⟨rfl, hs⟩ := List.cons_prefix_cons.mp h
      exact .inr ⟨hblanks d List.mem_cons_self, blanks,
        fun c hc => hblanks c (List.mem_cons_of_mem _ hc), hs⟩
  · rintro (rfl | ⟨hc, blanks, hblanks, h⟩)
    · exact ⟨[], by simp, by simp⟩
    · refine ⟨c :: blanks, ?_, List.cons_prefix_cons.mpr ⟨rfl, h⟩⟩
      simpa [hc] using hblanks

theorem hasBlankLine_cons {c : Char} {s : List Char} :
    HasBlankLine (c :: s) ↔ c = '\n' ∧ LeadsToFeed s ∨ HasBlankLine s := by
  constructor
  · rintro ⟨blanks, hblanks, h⟩
    rcases List.infix_cons_iff.mp h with h | h
    · obtain ⟨rfl, hs⟩ := List.cons_prefix_cons.mp h
      exact .inl ⟨rfl, blanks, hblanks, hs⟩
    · exact .inr ⟨blanks, hblanks, h⟩
  · rintro (⟨rfl, blanks, hblanks, h⟩ | ⟨blanks, hblanks, h⟩)
    · exact ⟨blanks, hblanks, List.infix_cons_iff.mpr (.inl (List.cons_prefix_cons.mpr ⟨rfl, h⟩))⟩
    · exact ⟨blanks, hblanks, List.infix_cons_iff.mpr (.inr h)⟩

/-- No blank line is in `s`, nor would one be if a line feed and blanks stood in front of `s`
(`feed`). -/
def Clear (feed : Bool) (s : List Char) : Prop :=
  ¬ HasBlankLine s ∧ (feed = true → ¬ LeadsToFeed s)

theorem clear_false {s : List Char} : Clear false s ↔ ¬ HasBlankLine s := by simp [Clear]

theorem clear_nil (feed : Bool) : Clear feed [] :=
  ⟨not_hasBlankLine_nil, fun _ => not_leadsToFeed_nil⟩

theorem not_clear_feed {s : List Char} : ¬ Clear true ('\n' :: s) :=
  fun h => h.2 rfl (leadsToFeed_cons.mpr (.inl rfl))

theorem clear_cons {feed : Bool} {c : Char} {s : List Char} (h : ¬ (c = '\n' ∧ feed = true)) :
    Clear feed (c :: s) ↔ Clear (if isPad c then feed else c == '\n') s := by
  rw [Clear, Clear, hasBlankLine_cons, leadsToFeed_cons]
  by_cases hfeed : c = '\n'
  · subst hfeed
    have hno : feed = false := by simpa using h
    have hpad : isPad '\n' = false := rfl
    simp [hno, hpad, and_comm]
  · by_cases hpad : isPad c = true
    · simp [hfeed, hpad]
    · simp [hfeed, hpad]

end Text

namespace LinkTail

/-! ### Readers of content -/

/-- What a reader that has read `done` returns from `s`: it goes on over some text with the
property `content` and stops in front of a text with the property `stop`. -/
def Took (content stop : List Char → Prop) (done s w rest : List Char) : Prop :=
  ∃ x, w = done.reverse ++ x ∧ s = x ++ rest ∧ Passes x rest ∧ content x ∧ stop rest

section Took

variable {content content' stop : List Char → Prop} {done s w rest : List Char} {c : Char}

theorem passes_cons_iff {x : List Char}
    (h : c = '\\' → Text.startsWithPunctuation (x ++ rest) = false) :
    Passes (c :: x) rest ↔ Passes x rest := by
  constructor
  · intro hp
    cases hp with
    | plain _ hp => exact hp
    | escape hd _ =>
      have hnot : Text.isPunctuation _ = false := h rfl
      rw [hd] at hnot
      exact absurd hnot (by simp)
    | lone _ hp => exact hp
  · intro hp
    by_cases hc : c = '\\'
    · subst hc
      exact .lone (h rfl) hp
    · exact .plain hc hp

theorem passes_escape_iff {x : List Char} (hc : Text.isPunctuation c = true) :
    Passes ('\\' :: c :: x) rest ↔ Passes x rest := by
  constructor
  · intro hp
    cases hp with
    | plain hne => exact absurd rfl hne
    | escape _ hp => exact hp
    | lone hnot =>
      have hnot : Text.isPunctuation c = false := hnot
      rw [hc] at hnot
      exact absurd hnot (by simp)
  · exact .escape hc

/-- What is read behind `c`, if `c` has to be part of it. -/
theorem exists_read_cons {P : List Char → Prop} (hnil : c :: s = rest → ¬ P []) :
    (∃ x, w = done.reverse ++ x ∧ c :: s = x ++ rest ∧ P x) ↔
      ∃ x, w = (c :: done).reverse ++ x ∧ s = x ++ rest ∧ P (c :: x) := by
  constructor
  · rintro ⟨_ | ⟨d, x⟩, rfl, hs, hx⟩
    · exact absurd hx (hnil hs)
    · obtain ⟨rfl, rfl⟩ := List.cons.inj hs
      exact ⟨x, by simp, rfl, hx⟩
  · rintro ⟨x, rfl, rfl, hx⟩
    exact ⟨c :: x, by simp, rfl, hx⟩

/-- What a reader returns that has read nothing yet. -/
theorem took_start : Took content stop [] s w rest ↔
    s = w ++ rest ∧ Passes w rest ∧ content w ∧ stop rest := by
  constructor
  · rintro ⟨x, rfl, h⟩
    exact h
  · exact fun h => ⟨w, rfl, h⟩

theorem took_nil : Took content stop done [] w rest ↔
    (done.reverse, []) = (w, rest) ∧ content [] ∧ stop [] := by
  constructor
  · rintro ⟨x, rfl, hs, -, hcontent, hstop⟩
    obtain ⟨rfl, rfl⟩ := List.append_eq_nil_iff.mp hs.symm
    exact ⟨by rw [List.append_nil], hcontent, hstop⟩
  · rintro ⟨heq, hcontent, hstop⟩
    obtain ⟨rfl, rfl⟩ := Prod.mk.inj heq
    exact ⟨[], (List.append_nil _).symm, rfl, .nil _, hcontent, hstop⟩

/-- The reader stops if nothing with `c` in front is content. -/
theorem took_stop (h : ∀ x, ¬ content (c :: x)) : Took content stop done (c :: s) w rest ↔
    (done.reverse, c :: s) = (w, rest) ∧ content [] ∧ stop (c :: s) := by
  constructor
  · rintro ⟨_ | ⟨d, x⟩, rfl, hs, -, hcontent, hstop⟩
    · obtain rfl : c :: s = rest := hs
      exact ⟨by rw [List.append_nil], hcontent, hstop⟩
    · obtain ⟨rfl, -⟩ := List.cons.inj hs
      exact absurd hcontent (h x)
  · rintro ⟨heq, hcontent, hstop⟩
    obtain ⟨rfl, rfl⟩ := Prod.mk.inj heq
    exact ⟨[], (List.append_nil _).symm, rfl, .nil _, hcontent, hstop⟩

/-- The reader goes on over a character that is no escape. -/
theorem took_single (h : c = '\\' → Text.startsWithPunctuation s = false)
    (hstop : content [] → ¬ stop (c :: s))
    (hcontent : ∀ x, (c = '\\' → Text.startsWithPunctuation x = false) →
      (content (c :: x) ↔ content' x)) :
    Took content stop done (c :: s) w rest ↔ Took content' stop (c :: done) s w rest := by
  have hmore : c :: s = rest → ¬ (Passes [] rest ∧ content [] ∧ stop rest) := by
    rintro rfl ⟨-, hnil, hs⟩
    exact hstop hnil hs
  rw [Took, exists_read_cons hmore, Took]
  refine exists_congr fun x => and_congr_right fun _ => and_congr_right fun hs => ?_
  subst hs
  rw [passes_cons_iff h, hcontent x fun hc => Text.startsWithPunctuation_of_append (h hc)]

/-- The reader goes on over an escape. -/
theorem took_escape (hc : Text.isPunctuation c = true)
    (hstop : content [] → ¬ stop ('\\' :: c :: s))
    (hcontent : ∀ x, content ('\\' :: c :: x) ↔ content' x) :
    Took content stop done ('\\' :: c :: s) w rest ↔
      Took content' stop (c :: '\\' :: done) s w rest := by
  have hmore : '\\' :: c :: s = rest → ¬ (Passes [] rest ∧ content [] ∧ stop rest) := by
    rintro rfl ⟨-, hnil, hs⟩
    exact hstop hnil hs
  have hwhole : c :: s = rest → ¬ (Passes ['\\'] rest ∧ content ['\\'] ∧ stop rest) := by
    rintro rfl ⟨hp, -⟩
    cases hp with
    | plain hne => exact absurd rfl hne
    | lone hnot =>
      have hnot : Text.isPunctuation c = false := hnot
      rw [hc] at hnot
      exact absurd hnot (by simp)
  rw [Took, exists_read_cons hmore, exists_read_cons hwhole, Took]
  refine exists_congr fun x => and_congr_right fun _ => and_congr_right fun _ => ?_
  rw [passes_escape_iff hc, hcontent x]

end Took

/-- The readers take a backslash in front of punctuation first, and everything else in a later
case. -/
theorem single_of_other {c : Char} {s : List Char}
    (h : ∀ d r, c = '\\' → s = d :: r → False) :
    c = '\\' → Text.startsWithPunctuation s = false := by
  intro hc
  cases s with
  | nil => rfl
  | cons d r => exact absurd rfl (h d r hc)

theorem not_startsWithPunctuation {c : Char} {s : List Char} (h : ¬ Text.isPunctuation c = true) :
    Text.startsWithPunctuation (c :: s) = false := Bool.eq_false_iff.mpr h

/-! ### Destinations -/

section Destination

variable {done s w rest : List Char}

/-- What stands inside angle brackets: neither of them but for escapes, and no line feed, which
cannot be escaped. -/
def Angled (x : List Char) : Prop := ∀ c ∈ Text.unescaped x, c ≠ '<' ∧ c ≠ '>' ∧ c ≠ '\n'

/-- A destination in angle brackets ends with the first `>` that is not escaped. -/
theorem angle_eq_some_iff :
    angle done s = some (w, rest) ↔ Took Angled (·.head? = some '>') done s w ('>' :: rest) := by
  have hstop : ∀ {c : Char} {done s : List Char}, c = '<' ∨ c = '>' ∨ c = '\n' →
      (Took Angled (·.head? = some '>') done (c :: s) w ('>' :: rest) ↔
        (done.reverse, c :: s) = (w, '>' :: rest) ∧ Angled [] ∧ (c :: s).head? = some '>') := by
    intro c done s hc
    refine took_stop fun x hx => ?_
    have hsingle : c = '\\' → Text.startsWithPunctuation x = false := by
      rintro rfl
      exact absurd hc (by decide)
    have hfirst := ((Text.forall_unescaped_cons hsingle).mp hx).1
    rcases hc with rfl | rfl | rfl
    · exact hfirst.1 rfl
    · exact hfirst.2.1 rfl
    · exact hfirst.2.2 rfl
  fun_induction angle done s with
  | case1 done => simp [took_nil]
  | case2 done s =>
    rw [hstop (by simp)]
    simp [Angled, Text.unescaped]
  | case3 done s =>
    rw [hstop (by simp)]
    simp
  | case4 done s =>
    rw [hstop (by simp)]
    simp
  | case5 done c s hc ih =>
    refine ih.trans (took_escape hc (by simp) fun x => ?_).symm
    rw [Angled, Angled, Text.unescaped_escape hc]
  | case6 done c s hc ih =>
    refine ih.trans (took_single (fun _ => not_startsWithPunctuation hc) (by simp) ?_).symm
    intro x hx
    exact (Text.forall_unescaped_cons hx).trans (and_iff_right (by decide))
  | case7 done c s hgt hlt hfeed hother ih =>
    refine ih.trans (took_single (single_of_other hother) (by simpa using fun _ => hgt) ?_).symm
    intro x hx
    exact (Text.forall_unescaped_cons hx).trans (and_iff_right ⟨hlt, hgt, hfeed⟩)

/-- What stands in a bare destination with `opened` parentheses open. -/
def Bare (opened : Nat) (x : List Char) : Prop :=
  (∀ c ∈ Text.unescaped x, endsBare c = false) ∧ Text.Balanced maxParens opened (Text.unescaped x)

/-- What stops a bare destination: the end of the text, a blank, a control character or a
parenthesis that closes none in the destination. -/
def StopsBare (rest : List Char) : Prop := ∀ c ∈ rest.head?, c = ')' ∨ endsBare c = true

theorem stopsBare_cons {c : Char} : StopsBare (c :: s) ↔ c = ')' ∨ endsBare c = true := by
  simp [StopsBare]

section Bare

variable {opened opened' : Nat} {c : Char} {x : List Char}

theorem bare_nil : Bare opened [] ↔ opened = 0 := by
  rw [Bare, Text.unescaped, Text.balanced_nil]
  simp

theorem bare_escape (hc : Text.isPunctuation c = true) :
    Bare opened ('\\' :: c :: x) ↔ Bare opened x := by
  rw [Bare, Bare, Text.unescaped_escape hc]

theorem bare_cons (hx : c = '\\' → Text.startsWithPunctuation x = false)
    (hends : endsBare c = false) (hbalanced : ∀ s, Text.Balanced maxParens opened (c :: s) ↔
      Text.Balanced maxParens opened' s) : Bare opened (c :: x) ↔ Bare opened' x := by
  rw [Bare, Bare, Text.forall_unescaped_cons hx, Text.unescaped_cons hx, hbalanced,
    and_iff_right hends]

/-- A character that is no parenthesis leaves as many of them open. -/
theorem balanced_other (h : opened ≤ maxParens) (hopen : c ≠ '(') (hclose : c ≠ ')')
    (s : List Char) :
    Text.Balanced maxParens opened (c :: s) ↔ Text.Balanced maxParens opened s :=
  Text.balanced_cons (k := 0) h (fun s => by rw [List.count_cons_of_ne hopen, Nat.add_zero])
    (fun s => by rw [List.count_cons_of_ne hclose, Nat.add_zero])

theorem balanced_open (h : opened ≤ maxParens) (s : List Char) :
    Text.Balanced maxParens opened ('(' :: s) ↔ Text.Balanced maxParens (opened + 1) s :=
  Text.balanced_cons (k := 0) h (fun s => by rw [List.count_cons_self]; omega)
    (fun s => List.count_cons_of_ne (by decide))

theorem balanced_close (h : opened ≤ maxParens) (hne : opened ≠ 0) (s : List Char) :
    Text.Balanced maxParens opened (')' :: s) ↔ Text.Balanced maxParens (opened - 1) s :=
  Text.balanced_cons (k := 1) h
    (fun s => by rw [List.count_cons_of_ne (by decide)]; omega) (fun s => List.count_cons_self)

theorem not_bare_of_ends (hc : endsBare c = true) : ¬ Bare opened (c :: x) := by
  rintro ⟨hplain, -⟩
  have hsingle : c = '\\' → Text.startsWithPunctuation x = false := by
    rintro rfl
    exact absurd hc (by decide)
  have hfirst := ((Text.forall_unescaped_cons hsingle).mp hplain).1
  rw [hc] at hfirst
  exact absurd hfirst (by simp)

end Bare

/-- **A bare destination is as long as it can be.** -/
theorem bare_eq_some_iff {opened : Nat} (h : opened ≤ maxParens) :
    bare opened done s = some (w, rest) ↔ Took (Bare opened) StopsBare done s w rest := by
  fun_induction bare opened done s with
  | case1 done =>
    rw [took_nil, bare_nil]
    simp [StopsBare]
  | case2 opened done hne =>
    rw [took_nil, bare_nil]
    simp [hne]
  | case3 opened done c s hc ih =>
    refine (ih h).trans (took_escape hc (fun _ => ?_) fun x => bare_escape hc).symm
    rw [stopsBare_cons]
    decide
  | case4 opened done c s hc ih =>
    refine (ih h).trans (took_single (fun _ => not_startsWithPunctuation hc) (fun _ => ?_) ?_).symm
    · rw [stopsBare_cons]
      decide
    · intro x hx
      exact bare_cons hx (by decide) (balanced_other h (by decide) (by decide))
  | case5 opened done s hlt ih =>
    refine (ih hlt).trans (took_single (by simp) (fun _ => ?_) ?_).symm
    · rw [stopsBare_cons]
      decide
    · intro x hx
      exact bare_cons hx (by decide) (balanced_open h)
  | case6 opened done s hnlt =>
    have hfull : ∀ x, ¬ Bare opened ('(' :: x) := by
      rintro x ⟨-, hbalanced⟩
      rw [Text.unescaped_cons (by simp), balanced_open h] at hbalanced
      exact hnlt hbalanced.le
    have hgoes : ¬ ('(' = ')' ∨ endsBare '(' = true) := by decide
    rw [took_stop hfull, stopsBare_cons]
    exact iff_of_false (by simp) fun hs => hgoes hs.2.2
  | case7 done s =>
    have hclosed : ∀ x, ¬ Bare 0 (')' :: x) := by
      rintro x ⟨-, hbalanced⟩
      rw [Text.unescaped_cons (by simp)] at hbalanced
      exact Text.not_balanced_close hbalanced
    rw [took_stop hclosed, bare_nil, stopsBare_cons]
    simp
  | case8 opened done s hne ih =>
    refine (ih (by omega)).trans (took_single (by simp) (fun hnil => ?_) ?_).symm
    · exact absurd (bare_nil.mp hnil) hne
    · intro x hx
      exact bare_cons hx (by decide) (balanced_close h hne)
  | case9 done c s _ _ _ hends =>
    rw [took_stop fun x => not_bare_of_ends hends, bare_nil, stopsBare_cons]
    simp [hends]
  | case10 opened done c s _ _ _ hends hne =>
    rw [took_stop fun x => not_bare_of_ends hends, bare_nil]
    simp [hne]
  | case11 opened done c s hother hopen hclose hends ih =>
    refine (ih h).trans (took_single (single_of_other hother) (fun _ => ?_) ?_).symm
    · rw [stopsBare_cons]
      exact not_or.mpr ⟨hclose, hends⟩
    · intro x hx
      exact bare_cons hx (by simpa using hends) (balanced_other h hopen hclose)

end Destination

/-! ### Titles -/

/-- What stands in a title that ends with `close`. -/
def Quoted (close : Char) (x : List Char) : Prop :=
  (∀ c ∈ Text.unescaped x, c ≠ close ∧ (close = ')' → c ≠ '(')) ∧ ¬ Text.HasBlankLine x

section Title

variable {close c : Char} {feed : Bool} {x done s w rest : List Char}

/-- What may still come in a title, if only blanks stand between here and the last line feed
(`feed`). -/
def QuotedFrom (close : Char) (feed : Bool) (x : List Char) : Prop :=
  (∀ c ∈ Text.unescaped x, c ≠ close ∧ (close = ')' → c ≠ '(')) ∧ Text.Clear feed x

theorem quotedFrom_false : QuotedFrom close false x ↔ Quoted close x := by
  rw [QuotedFrom, Quoted, Text.clear_false]

theorem quotedFrom_nil : QuotedFrom close feed [] :=
  ⟨by simp [Text.unescaped], Text.clear_nil feed⟩

theorem quotedFrom_cons (hx : c = '\\' → Text.startsWithPunctuation x = false)
    (hclose : c ≠ close ∧ (close = ')' → c ≠ '(')) (hfeed : ¬ (c = '\n' ∧ feed = true)) :
    QuotedFrom close feed (c :: x) ↔
      QuotedFrom close (if Text.isPad c then feed else c == '\n') x := by
  rw [QuotedFrom, QuotedFrom, Text.forall_unescaped_cons hx, and_iff_right hclose,
    Text.clear_cons hfeed]

theorem quotedFrom_escape (hc : Text.isPunctuation c = true) :
    QuotedFrom close feed ('\\' :: c :: x) ↔ QuotedFrom close false x := by
  have hpad : Text.isPad c = false := by
    rw [Bool.eq_false_iff]
    intro hpad
    have hblank : c = ' ' ∨ c = '\t' := Text.isPad_iff.mp hpad
    rcases hblank with rfl | rfl
    · exact absurd hc (by decide)
    · exact absurd hc (by decide)
  have hfeed : c ≠ '\n' := by
    rintro rfl
    exact absurd hc (by decide)
  have hnext : (c == '\n') = false := by simpa using hfeed
  rw [QuotedFrom, QuotedFrom, Text.unescaped_escape hc, Text.clear_cons (by simp),
    Text.clear_cons (by simp [hfeed]), hpad, hnext]
  rfl

/-- A title ends with the first `close` that is not escaped. -/
theorem titleTo_eq_some_iff (hback : close ≠ '\\') :
    titleTo close feed done s = some (w, rest) ↔
      Took (QuotedFrom close feed) (·.head? = some close) done s w (close :: rest) := by
  fun_induction titleTo close feed done s with
  | case1 feed done => simp [took_nil]
  | case2 feed done c s hc ih =>
    refine ih.trans (took_escape hc (fun _ => ?_) fun x => quotedFrom_escape hc).symm
    simpa using hback.symm
  | case3 feed done c s hc ih =>
    refine ih.trans (took_single (fun _ => not_startsWithPunctuation hc) (fun _ => ?_) ?_).symm
    · simpa using hback.symm
    · intro x hx
      exact quotedFrom_cons hx ⟨hback.symm, by simp⟩ (by simp)
  | case4 feed done c s _ hc =>
    obtain rfl : c = close := by simpa using hc
    have hends : ∀ x, ¬ QuotedFrom c feed (c :: x) := by
      rintro x ⟨hplain, -⟩
      exact ((Text.forall_unescaped_cons fun h => absurd h hback).mp hplain).1.1 rfl
    rw [took_stop hends]
    simp [quotedFrom_nil]
  | case5 feed done c s _ hc hopen =>
    obtain ⟨rfl, rfl⟩ : c = '(' ∧ close = ')' := by simpa using hopen
    have hnested : ∀ x, ¬ QuotedFrom ')' feed ('(' :: x) := by
      rintro x ⟨hplain, -⟩
      exact ((Text.forall_unescaped_cons (by simp)).mp hplain).1.2 rfl rfl
    rw [took_stop hnested]
    simp
  | case6 feed done c s _ hc _ hfeed =>
    obtain ⟨rfl, rfl⟩ : c = '\n' ∧ feed = true := by simpa using hfeed
    have hblank : ∀ x, ¬ QuotedFrom close true ('\n' :: x) := fun x h => Text.not_clear_feed h.2
    rw [took_stop hblank]
    exact iff_of_false (by simp) fun hs => hc (by simpa using hs.2.2)
  | case7 feed done c s hother hc hopen hfeed ih =>
    have hne : c ≠ close := by simpa using hc
    refine ih.trans (took_single (single_of_other hother) (fun _ => by simpa using hne) ?_).symm
    intro x hx
    refine quotedFrom_cons hx ⟨hne, ?_⟩ (by simpa using hfeed)
    rintro rfl rfl
    exact hopen rfl

end Title

/-! ### Gaps -/

/-- Blanks between the parts of a tail, of which one may be a line feed unless one stands before
them (`feedSeen`). -/
def Gap (feedSeen : Bool) (x : List Char) : Prop :=
  (∀ c ∈ x, Text.isPad c = true ∨ c = '\n') ∧ x.count '\n' + feedSeen.toNat ≤ 1

section Gap

variable {feedSeen : Bool} {c : Char} {x done s w rest : List Char}

theorem gap_nil (feedSeen : Bool) : Gap feedSeen [] := by
  cases feedSeen
  · exact ⟨by simp, by simp⟩
  · exact ⟨by simp, by simp⟩

theorem gap_pad (hc : Text.isPad c = true) : Gap feedSeen (c :: x) ↔ Gap feedSeen x := by
  have hfeed : c ≠ '\n' := by
    rintro rfl
    exact absurd hc (by decide)
  have hblank : Text.isPad c = true ∨ c = '\n' := .inl hc
  rw [Gap, Gap, List.forall_mem_cons, and_iff_right hblank, List.count_cons_of_ne hfeed]

theorem gap_feed : Gap false ('\n' :: x) ↔ Gap true x := by
  have hblank : Text.isPad '\n' = true ∨ '\n' = '\n' := .inr rfl
  rw [Gap, Gap, List.forall_mem_cons, and_iff_right hblank, List.count_cons_self]
  rfl

theorem not_gap_cons (hpad : ¬ Text.isPad c = true) (hfeed : ¬ (c = '\n' ∧ feedSeen = false)) :
    ¬ Gap feedSeen (c :: x) := by
  rintro ⟨hblank, hcount⟩
  obtain rfl : c = '\n' := (hblank c List.mem_cons_self).resolve_left hpad
  have hseen : feedSeen = true := by simpa using hfeed
  rw [List.count_cons_self, hseen] at hcount
  simp at hcount

/-- Gaps are read as far as they go. -/
theorem blanks_eq_iff : blanks feedSeen done s = (w, rest) ↔
    ∃ x, w = done.reverse ++ x ∧ s = x ++ rest ∧ Gap feedSeen x ∧
      ∀ c ∈ rest.head?, ¬ Gap feedSeen (x ++ [c]) := by
  fun_induction blanks feedSeen done s with
  | case1 feedSeen done =>
    constructor
    · intro h
      obtain ⟨rfl, rfl⟩ := Prod.mk.inj h
      exact ⟨[], by simp, rfl, gap_nil _, by simp⟩
    · rintro ⟨x, rfl, hs, -, -⟩
      obtain ⟨rfl, rfl⟩ := List.append_eq_nil_iff.mp hs.symm
      simp
  | case2 feedSeen done c s hc ih =>
    rw [exists_read_cons]
    · refine ih.trans (exists_congr fun x => ?_)
      simp only [List.cons_append, gap_pad hc]
    · rintro rfl ⟨-, hmax⟩
      exact hmax c rfl ((gap_pad hc).mpr (gap_nil _))
  | case3 feedSeen done c s _ hc ih =>
    obtain ⟨rfl, rfl⟩ : c = '\n' ∧ feedSeen = false := by simpa using hc
    rw [exists_read_cons]
    · refine ih.trans (exists_congr fun x => ?_)
      simp only [List.cons_append, gap_feed]
    · rintro rfl ⟨-, hmax⟩
      exact hmax '\n' rfl (gap_feed.mpr (gap_nil _))
  | case4 feedSeen done c s hpad hfeed =>
    have hnot : ∀ x, ¬ Gap feedSeen (c :: x) := fun x => not_gap_cons hpad (by simpa using hfeed)
    constructor
    · intro h
      obtain ⟨rfl, rfl⟩ := Prod.mk.inj h
      exact ⟨[], by simp, rfl, gap_nil _, by simpa using hnot []⟩
    · rintro ⟨_ | ⟨d, x⟩, rfl, hs, hgap, -⟩
      · rw [List.append_nil, hs]
        rfl
      · obtain ⟨rfl, -⟩ := List.cons.inj hs
        exact absurd hgap (hnot x)

theorem blanks_start_iff : blanks feedSeen [] s = (x, rest) ↔
    s = x ++ rest ∧ Gap feedSeen x ∧ ∀ c ∈ rest.head?, ¬ Gap feedSeen (x ++ [c]) := by
  rw [blanks_eq_iff]
  constructor
  · rintro ⟨x, rfl, h⟩
    exact h
  · exact fun h => ⟨x, rfl, h⟩

/-- A gap ends in front of a character that belongs to none. -/
theorem blanks_append_cons (hx : Gap feedSeen x) (hpad : ¬ Text.isPad c = true) (hfeed : c ≠ '\n') :
    blanks feedSeen [] (x ++ c :: rest) = (x, c :: rest) := by
  refine blanks_start_iff.mpr ⟨rfl, hx, ?_⟩
  rintro d hd ⟨hblank, -⟩
  obtain rfl : c = d := by simpa using hd
  rcases hblank c (by simp) with h | h
  · exact hpad h
  · exact hfeed h

end Gap

end LinkTail
end MarkdownHtml
