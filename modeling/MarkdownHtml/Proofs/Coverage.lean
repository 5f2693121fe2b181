/-
# Reading running text loses nothing

What the inline parser has read so far is spread over its stack: the root, and for
every open frame its opener and what has collected behind it. Put end to end, these
account for every atom read, each once and in its place (`Covers`). Every move keeps
this so. In particular the oldest frame may become text outside all frames although
frames above it stay open, because it stands right behind the root; and a run that is
used up piecemeal is used from its inner end when it opens and from its outer end
when it closes, so that what is left of it still stands where the opener stands.

At the end no frame is open, and the nodes are a reading of the whole text
(`reads_of_parse`).

Key definitions: `Opener.Spells`, `Covers`.
Key theorems: `Move.covers`, `Moves.covers`, `Inline.reads_of_parse`.
-/
import MarkdownHtml.Proofs.Steps

namespace MarkdownHtml

/-! ### What a stack accounts for -/

/-- The atoms that an opener is written with: what is left of a run that may open, or a
bracket. -/
def Opener.Spells : Opener → List Atom → Prop
  | .emphasis m count, p => ∃ t : Token, t.delimiter? = some m ∧
      (t.flanking m).canOpen = true ∧ p = List.replicate count (.mark m t)
  | .bracket image _ _, p => ∃ t : Token, t.lexeme = (if image then ['!', '['] else ['[']) ∧
      t.kind = (if image then .imageOpen else .leftBracket) ∧ p = [.token t]

theorem Opener.Spells.literal {o : Opener} {p : List Atom} (h : o.Spells p) :
    Literal p o.literal := by
  rcases o with ⟨m, n⟩ | ⟨image, active, enclosed⟩
  · obtain ⟨t, -, -, rfl⟩ := h
    exact InlineParser.State.literal_replicate_mark m t n
  · obtain ⟨t, hl, hk, rfl⟩ := h
    have hne : ¬ (Opener.bracket image active enclosed).literal = "" :=
      InlineParser.State.literal_bracket_ne image active enclosed
    refine ⟨?_, ?_, fun he => absurd he hne⟩
    · intro a ha
      obtain rfl := List.mem_singleton.mp ha
      cases image <;> simp [Atom.isHardBreak, hk]
    · cases image <;> simp [Atom.literal, Opener.literal, hk, hl]

theorem Opener.spells_uncounted {o : Opener} {p : List Atom} :
    o.uncounted.Spells p ↔ o.Spells p := by
  cases o <;> exact Iff.rfl

namespace InlineParser

/-- `Covers root stack p`: the root and the frames of `stack` (innermost first), put end
to end, account for the atoms `p`. -/
def Covers (root : Content) : List Frame → List Atom → Prop
  | [], p => Reads p root.toList
  | f :: below, p => ∃ q o r, p = q ++ (o ++ r) ∧ Covers root below q ∧ f.opener.Spells o ∧
      Reads r f.content.toList

/-- Frames that are spelled alike and hold the same account for the same. -/
theorem Covers.map {root : Content} {stack : List Frame} {p : List Atom} {g : Frame → Frame}
    (hc : ∀ f, (g f).content = f.content)
    (ho : ∀ f q, f.opener.Spells q → (g f).opener.Spells q) (h : Covers root stack p) :
    Covers root (stack.map g) p := by
  induction stack generalizing p with
  | nil => exact h
  | cons f below ih =>
    obtain ⟨q, o, r, rfl, hq, hs, hr⟩ := h
    refine ⟨q, o, r, rfl, ih hq, ho f o hs, ?_⟩
    rwa [hc]

theorem covers_map_uncounted {root : Content} {stack : List Frame} {p : List Atom} :
    Covers root (stack.map Frame.uncounted) p ↔ Covers root stack p := by
  refine ⟨fun h => ?_, fun h => h.map (fun _ => rfl) fun _ _ => Opener.spells_uncounted.mpr⟩
  induction stack generalizing p with
  | nil => exact h
  | cons f below ih =>
    obtain ⟨q, o, r, rfl, hq, hs, hr⟩ := h
    exact ⟨q, o, r, rfl, ih hq, Opener.spells_uncounted.mp hs, hr⟩

theorem spells_deactivate (f : Frame) (p : List Atom) (h : f.opener.Spells p) :
    (State.deactivate f).opener.Spells p := by
  obtain ⟨o, c⟩ := f
  rcases o with ⟨m, n⟩ | ⟨_ | _, active, enclosed⟩ <;> exact h

theorem content_deactivate (f : Frame) : (State.deactivate f).content = f.content := by
  obtain ⟨o, c⟩ := f
  rcases o with ⟨m, n⟩ | ⟨_ | _, active, enclosed⟩ <;> rfl

/-- A frame that is given up is read behind what it is added to. -/
theorem reads_flatten {f : Frame} {c : Content} {p o r : List Atom} (hp : Reads p c.toList)
    (ho : f.opener.Spells o) (hr : Reads r f.content.toList) :
    Reads (p ++ (o ++ r)) (f.flatten c).toList := by
  rw [← List.append_assoc]
  exact hp.absorb ho.literal hr

/-- The oldest frame stands right behind the root. -/
theorem Covers.oldest {root : Content} {above : List Frame} {oldest : Frame} {p : List Atom}
    (h : Covers root (above ++ [oldest]) p) : Covers (oldest.flatten root) above p := by
  induction above generalizing p with
  | nil =>
    obtain ⟨q, o, r, rfl, hq, hs, hr⟩ := h
    exact reads_flatten hq hs hr
  | cons f above ih =>
    obtain ⟨q, o, r, rfl, hq, hs, hr⟩ := h
    exact ⟨q, o, r, rfl, ih hq, hs, hr⟩

namespace State

/-- The state accounts for the atoms `p`. -/
def Covers (st : State) (p : List Atom) : Prop := InlineParser.Covers st.root st.stack p

theorem Covers.onTop {st : State} {p q : List Atom} {f : Content → Content} (h : st.Covers p)
    (hf : ∀ c r, Reads r c.toList → Reads (r ++ q) (f c).toList) :
    (st.onTop f).Covers (p ++ q) := by
  obtain ⟨root, _ | ⟨⟨o, c⟩, below⟩, unclosed, dropped⟩ := st
  · exact hf root p h
  · obtain ⟨p₁, s, r, rfl, hp, hs, hr⟩ := h
    exact ⟨p₁, s, r ++ q, by simp, hp, hs, hf c r hr⟩

theorem Covers.push {st : State} {p q : List Atom} {n : Inline} {depth : Nat} (h : st.Covers p)
    (hn : Piece q n) : (st.push n depth).Covers (p ++ q) :=
  h.onTop fun _ _ hr => hr.push hn

theorem Covers.collapse {st : State} {p : List Atom} (h : st.Covers p) :
    st.collapse.Covers p := by
  obtain ⟨root, _ | ⟨f, below⟩, unclosed, dropped⟩ := st
  · exact h
  · obtain ⟨q, o, r, rfl, hq, hs, hr⟩ := h
    have hbelow : Covers ⟨root, below, countsWithout unclosed f.opener, dropped⟩ q := hq
    exact hbelow.onTop fun c x hx => reads_flatten hx hs hr

theorem Covers.dropOldest {st : State} {p : List Atom} (h : st.Covers p) (hn : st.stack ≠ []) :
    st.dropOldest.Covers p := by
  obtain ⟨above, oldest, ha⟩ := exists_oldest hn
  obtain ⟨hroot, hstack⟩ := dropOldest_spec ha
  unfold Covers at h ⊢
  rw [ha] at h
  rw [← covers_map_uncounted, hroot, hstack, covers_map_uncounted]
  exact h.oldest

end State

/-! ### Moves -/

/-- Equally many delimiters on both sides of a reading make emphasis, or strong emphasis
if they are two. -/
theorem piece_emphasisNode {m : Delimiter} {used : Nat} {first last : Token} {p : List Atom}
    {children : List Inline} (hu : used = 1 ∨ used = 2) (hf : first.delimiter? = some m)
    (ho : (first.flanking m).canOpen = true) (hl : last.delimiter? = some m)
    (hc : (last.flanking m).canClose = true) (hp : Reads p children) :
    Piece (List.replicate used (.mark m first) ++ p ++ List.replicate used (.mark m last))
      (State.emphasisNode used children) := by
  rcases hu with rfl | rfl
  · exact .emphasis hf ho hl hc hp
  · exact .strong hf ho hl hc hp

/-- **Every move accounts for what it reads.** -/
theorem Move.covers {limit : Nat} {st st' : State} {p q : List Atom} (hm : Move limit st q st')
    (h : st.Covers p) : st'.Covers (p ++ q) := by
  cases hm with
  | text hs _ => exact h.onTop fun _ _ hr => hr.pushText hs
  | leaf hn _ => exact h.push hn
  | collapse _ =>
    rw [List.append_nil]
    exact h.collapse
  | dropOldest hn =>
    rw [List.append_nil]
    exact h.dropOldest hn
  | @openRun m t count _ ht ho _ =>
    exact ⟨p, List.replicate count (.mark m t), [], by simp, h, ⟨t, ht, ho, rfl⟩, .nil⟩
  | @openBracket t image hk hs _ =>
    refine ⟨p, [.token t], [], by simp, h, ⟨t, ?_, hk, rfl⟩, .nil⟩
    rw [hk] at hs
    cases image <;> exact hs
  | @closeAll m t used content below hst hc =>
    simp only [State.Covers, hst] at h
    obtain ⟨p₁, o, r, rfl, hp, ⟨first, hf, ho, rfl⟩, hr⟩ := h
    have hpiece := piece_emphasisNode hc.used hf ho hc.run hc.closes hr
    have hbelow : State.Covers { st with stack := below, unclosed := st.unclosed.decrement m } p₁ :=
      hp
    simpa using hbelow.push hpiece
  | @closePart m t used left content below hst _ hc =>
    simp only [State.Covers, hst] at h
    obtain ⟨p₁, o, r, rfl, hp, ⟨first, hf, ho, rfl⟩, hr⟩ := h
    have hpiece := piece_emphasisNode hc.used hf ho hc.run hc.closes hr
    refine ⟨p₁, List.replicate left (.mark m first), _, ?_, hp, ⟨first, hf, ho, rfl⟩, hpiece.reads⟩
    -- the run opens with its inner end: the delimiters that are left come first
    rw [Nat.add_comm used left, ← List.replicate_append_replicate]
    simp only [List.append_assoc]
  | @link t tail q enclosed content below hst ht _ =>
    simp only [State.Covers, hst] at h
    obtain ⟨p₁, o, r, rfl, hp, ⟨first, hf, -, rfl⟩, hr⟩ := h
    have hpiece := Piece.link hf ht.close hr ht.read ht.written
    have hbelow : State.Covers
        { st with stack := below.map State.deactivate, unclosed := enclosed } p₁ :=
      hp.map content_deactivate spells_deactivate
    simpa using hbelow.push hpiece
  | @image t tail q enclosed content below hst ht =>
    simp only [State.Covers, hst] at h
    obtain ⟨p₁, o, r, rfl, hp, ⟨first, hf, -, rfl⟩, hr⟩ := h
    have hpiece := Piece.image hf ht.close hr ht.read ht.written
    have hbelow : State.Covers { st with stack := below, unclosed := enclosed } p₁ := hp
    simpa [State.closeImage] using hbelow.push hpiece

theorem Moves.covers {limit : Nat} {st st' : State} {p q : List Atom} (hm : Moves limit st q st')
    (h : st.Covers p) : st'.Covers (p ++ q) := by
  induction hm generalizing p with
  | refl =>
    rw [List.append_nil]
    exact h
  | cons hm _ ih =>
    rw [← List.append_assoc]
    exact ih (hm.covers h)

/-! ### The end of the text -/

theorem State.Covers.collapseMany {st : State} {p : List Atom} (h : st.Covers p) (n : Nat) :
    (st.collapseMany n).Covers p := by
  induction n generalizing st with
  | zero => exact h
  | succ n ih => exact ih h.collapse

theorem State.Covers.finish {st : State} {p : List Atom} (h : st.Covers p) :
    Reads p st.finish := by
  have hc := h.collapseMany st.stack.length
  unfold State.Covers at hc
  rw [State.stack_collapseMany_length] at hc
  exact hc

/-- The nodes that a run ends with are a reading of what it has read. -/
theorem Moves.reads {limit : Nat} {st : State} {p : List Atom} (hm : Moves limit {} p st) :
    Reads p st.finish := by
  have hstart : ({} : State).Covers [] := Reads.nil
  exact (hm.covers hstart).finish

end InlineParser

/-- **Reading loses, doubles and moves nothing.** The atoms of a text are all of it, and the
nodes it is read as are a reading of them: the text can be cut into consecutive pieces,
one for each node, each written the way its node is. -/
theorem Inline.reads_of_parse {limits : Limits} {text : List Char} {nodes : List Inline}
    (h : Inline.parse limits text = .ok nodes) :
    (Atom.ofText text).flatMap Atom.written = text ∧ Reads (Atom.ofText text) nodes := by
  obtain ⟨st, hm, rfl⟩ := Inline.moves_of_parse h
  exact ⟨Atom.flatMap_written_ofText text, hm.reads⟩

/-- Two frames may be open here, so that the first opener is given up for the third. -/
theorem Inline.reads_of_parse_dropped :
    Inline.parse ⟨100, 2⟩ "*a [**b***](u)".toList =
        .ok [.text "*a ", .link "u" none [.strong [.text "b"], .text "*"]] ∧
      Reads (Atom.ofText "*a [**b***](u)".toList)
        [.text "*a ", .link "u" none [.strong [.text "b"], .text "*"]] := by
  have h : Inline.parse ⟨100, 2⟩ "*a [**b***](u)".toList =
      .ok [.text "*a ", .link "u" none [.strong [.text "b"], .text "*"]] := by cbv
  exact ⟨h, (Inline.reads_of_parse h).2⟩

end MarkdownHtml
