/-
# The moves of the inline parser

Whatever token the parser reads, what it does to its stack is a sequence of a few
elementary moves: text or a finished node is put on top, a frame is opened, the
innermost frame or the oldest one is given up, delimiters of the innermost frame are
closed, and a bracket becomes a link or an image (`Move`). Each move accounts for
the atoms it reads. A property of the parser's states is proved once for each move
(`Moves.keeps`); that a whole run is a sequence of moves is shown in `Steps`.

Two such properties are here. Every open frame has an opener to fall back on as text
(`State.Opened`), and there are never more than `max 1 limit` frames
(`State.Bounded`).

Key definitions: `Move`, `Moves`, `State.Opened`, `State.Bounded`.
Key theorems: `Moves.keeps`, `State.dropOldest_spec`, `Moves.opened`, `Moves.bounded`.
-/
import MarkdownHtml.Proofs.Readings

namespace MarkdownHtml

/-- Code and line breaks, which hold no further nodes. -/
def Inline.isLeaf : Inline → Bool
  | .code _ | .lineBreak => true
  | _ => false

namespace InlineParser

/-- What closing `used` delimiters of a run of `m` by those of the token `t` takes, when
`content` stands between them. -/
structure Closing (limit : Nat) (m : Delimiter) (used : Nat) (t : Token) (content : Content) :
    Prop where
  used : used = 1 ∨ used = 2
  run : t.delimiter? = some m
  closes : (t.flanking m).canClose = true
  filled : content.nodes ≠ []
  depth : content.depth + 1 ≤ limit

/-- What a `]` with its tail takes: the token `t` is a `]`, and the atoms `p` behind it
are the tail. -/
structure Tailed (t : Token) (tail : LinkTail) (p : List Atom) : Prop where
  close : t.lexeme = [']']
  read : LinkTail.read? t.after = some tail
  written : p.flatMap Atom.written = tail.raw

/-- `Move limit st p st'`: one elementary move takes the parser from `st` to `st'` and
reads the atoms `p`. -/
inductive Move (limit : Nat) : State → List Atom → State → Prop
  | text {st : State} {p : List Atom} {s : String} :
      Literal p s → s ≠ "" → Move limit st p (st.pushText s)
  | leaf {st : State} {p : List Atom} {n : Inline} :
      Piece p n → n.isLeaf = true → Move limit st p (st.push n 0)
  | collapse {st : State} : st.stack ≠ [] → Move limit st [] st.collapse
  | dropOldest {st : State} : st.stack ≠ [] → Move limit st [] st.dropOldest
  | openRun {st : State} {m : Delimiter} {t : Token} {count : Nat} :
      1 ≤ count → t.delimiter? = some m → (t.flanking m).canOpen = true →
      st.stack.length < max 1 limit →
      Move limit st (List.replicate count (.mark m t))
        { st with
          stack := ⟨.emphasis m count, {}⟩ :: st.stack
          unclosed := st.unclosed.increment m }
  | openBracket {st : State} {t : Token} {image : Bool} :
      t.kind = (if image then .imageOpen else .leftBracket) → t.kind.Spelled t.lexeme →
      st.stack.length < max 1 limit →
      Move limit st [.token t]
        { st with
          stack := ⟨.bracket image true st.unclosed, {}⟩ :: st.stack
          unclosed := {} }
  /-- The delimiters of the frame are used up, and the frame is done. -/
  | closeAll {st : State} {m : Delimiter} {t : Token} {used : Nat} {content : Content}
      {below : List Frame} :
      st.stack = ⟨.emphasis m used, content⟩ :: below → Closing limit m used t content →
      Move limit st (List.replicate used (.mark m t))
        (State.push (State.emphasisNode used content.toList) (content.depth + 1)
          { st with stack := below, unclosed := st.unclosed.decrement m })
  /-- Delimiters are left, and the frame starts anew behind them. -/
  | closePart {st : State} {m : Delimiter} {t : Token} {used left : Nat} {content : Content}
      {below : List Frame} :
      st.stack = ⟨.emphasis m (used + left), content⟩ :: below → 1 ≤ left →
      Closing limit m used t content →
      Move limit st (List.replicate used (.mark m t))
        { st with
          stack := ⟨.emphasis m left,
            ⟨[State.emphasisNode used content.toList], content.depth + 1⟩⟩ :: below }
  | link {st : State} {t : Token} {tail : LinkTail} {p : List Atom} {enclosed : Counts}
      {content : Content} {below : List Frame} :
      st.stack = ⟨.bracket false true enclosed, content⟩ :: below → Tailed t tail p →
      content.depth + 1 ≤ limit →
      Move limit st (.token t :: p)
        (State.push (.link (String.ofList tail.destination) (tail.title.map String.ofList)
            content.toList) (content.depth + 1)
          { st with stack := below.map State.deactivate, unclosed := enclosed })
  | image {st : State} {t : Token} {tail : LinkTail} {p : List Atom} {enclosed : Counts}
      {content : Content} {below : List Frame} :
      st.stack = ⟨.bracket true true enclosed, content⟩ :: below → Tailed t tail p →
      Move limit st (.token t :: p)
        (State.closeImage tail content { st with stack := below, unclosed := enclosed })

/-- Moves one after the other. -/
inductive Moves (limit : Nat) : State → List Atom → State → Prop
  | refl (st : State) : Moves limit st [] st
  | cons {st₁ st₂ st₃ : State} {p q : List Atom} :
      Move limit st₁ p st₂ → Moves limit st₂ q st₃ → Moves limit st₁ (p ++ q) st₃

theorem Move.moves {limit : Nat} {st st' : State} {p : List Atom} (h : Move limit st p st') :
    Moves limit st p st' := by
  have := Moves.cons h (.refl st')
  simpa using this

theorem Moves.trans {limit : Nat} {st₁ st₂ st₃ : State} {p q : List Atom}
    (h₁ : Moves limit st₁ p st₂) (h₂ : Moves limit st₂ q st₃) :
    Moves limit st₁ (p ++ q) st₃ := by
  induction h₁ with
  | refl => exact h₂
  | cons hm _ ih =>
    rw [List.append_assoc]
    exact .cons hm (ih h₂)

/-- What every move keeps, a run of moves keeps. -/
theorem Moves.keeps {limit : Nat} {P : State → Prop}
    (hP : ∀ {st st' : State} {p : List Atom}, Move limit st p st' → P st → P st')
    {st st' : State} {p : List Atom} (h : Moves limit st p st') (hst : P st) : P st' := by
  induction h with
  | refl => exact hst
  | cons hm _ ih => exact ih (hP hm hst)

end InlineParser

/-! ### Frames, the counts of brackets left aside -/

/-- An opener without the counts that a bracket keeps. -/
def Opener.uncounted : Opener → Opener
  | .bracket image active _ => .bracket image active {}
  | o => o

/-- A frame without the counts of its opener. -/
def Frame.uncounted (f : Frame) : Frame := ⟨f.opener.uncounted, f.content⟩

@[simp] theorem Opener.literal_uncounted (o : Opener) : o.uncounted.literal = o.literal := by
  rcases o with ⟨m, n⟩ | ⟨_ | _, active, enclosed⟩ <;> rfl

namespace InlineParser
namespace State

theorem uncounted_changeLowest? {change : Counts → Counts} {fs fs' : List Frame}
    (h : changeLowest? change fs = some fs') :
    fs'.map Frame.uncounted = fs.map Frame.uncounted := by
  induction fs generalizing fs' with
  | nil => exact absurd h (by simp [changeLowest?])
  | cons f fs ih =>
    obtain ⟨o, c⟩ := f
    cases o with
    | bracket image active enclosed =>
      simp only [changeLowest?, Option.some.injEq] at h
      subst h
      rfl
    | emphasis m n =>
      simp only [changeLowest?, Option.map_eq_some_iff] at h
      obtain ⟨gs, hg, rfl⟩ := h
      rw [List.map_cons, List.map_cons, ih hg]

theorem exists_oldest {st : State} (h : st.stack ≠ []) :
    ∃ above oldest, st.stack = above ++ [oldest] :=
  ⟨_, _, (List.dropLast_concat_getLast h).symm⟩

/-- Giving up the oldest frame makes it text outside all frames, and changes no other
frame but for its counts. -/
theorem dropOldest_spec {st : State} {above : List Frame} {oldest : Frame}
    (h : st.stack = above ++ [oldest]) :
    st.dropOldest.root = oldest.flatten st.root ∧
      st.dropOldest.stack.map Frame.uncounted = above.map Frame.uncounted := by
  obtain ⟨root, stack, unclosed, dropped⟩ := st
  obtain rfl : stack = above ++ [oldest] := h
  simp only [dropOldest, List.reverse_append, List.reverse_singleton, List.singleton_append]
  split
  · rename_i fs hfs
    refine ⟨rfl, ?_⟩
    rw [List.map_reverse, uncounted_changeLowest? hfs, ← List.map_reverse, List.reverse_reverse]
  · exact ⟨rfl, by rw [List.reverse_reverse]⟩

theorem length_stack_dropOldest {st : State} (h : st.stack ≠ []) :
    st.dropOldest.stack.length + 1 = st.stack.length := by
  obtain ⟨above, oldest, ha⟩ := exists_oldest h
  have hs := congrArg List.length (dropOldest_spec ha).2
  rw [List.length_map, List.length_map] at hs
  rw [ha, List.length_append, hs]
  rfl

/-! ### Openers to fall back on -/

/-- Every open frame has an opener that is some text. -/
def Opened (st : State) : Prop := ∀ f ∈ st.stack, f.opener.literal ≠ ""

theorem literal_emphasis_ne {m : Delimiter} {count : Nat} (h : 1 ≤ count) :
    (Opener.emphasis m count).literal ≠ "" := by
  obtain ⟨n, rfl⟩ := Nat.exists_eq_add_of_le' h
  intro he
  have := congrArg String.toList he
  simp [Opener.literal, List.replicate_succ] at this

theorem literal_bracket_ne (image active : Bool) (enclosed : Counts) :
    (Opener.bracket image active enclosed).literal ≠ "" := by
  cases image <;> simp [Opener.literal]

theorem openers_onTop (f : Content → Content) (st : State) :
    (st.onTop f).stack.map Frame.opener = st.stack.map Frame.opener := by
  obtain ⟨root, _ | ⟨⟨o, c⟩, below⟩, unclosed, dropped⟩ := st <;> rfl

theorem opened_iff {st : State} :
    st.Opened ↔ ∀ o ∈ st.stack.map Frame.opener, o.literal ≠ "" := by
  simp [Opened]

theorem opened_onTop {f : Content → Content} {st : State} : (st.onTop f).Opened ↔ st.Opened := by
  rw [opened_iff, opened_iff, openers_onTop]

theorem Opened.collapse {st : State} (h : st.Opened) : st.collapse.Opened := by
  obtain ⟨root, _ | ⟨f, below⟩, unclosed, dropped⟩ := st
  · exact h
  · exact opened_onTop.mpr fun g hg => h g (List.mem_cons_of_mem _ hg)

theorem Opened.dropOldest {st : State} (h : st.Opened) (hn : st.stack ≠ []) :
    st.dropOldest.Opened := by
  obtain ⟨above, oldest, ha⟩ := exists_oldest hn
  intro f hf
  have hm : f.uncounted ∈ above.map Frame.uncounted :=
    (dropOldest_spec ha).2 ▸ List.mem_map_of_mem hf
  obtain ⟨g, hg, he⟩ := List.mem_map.mp hm
  have hl : f.opener.literal = g.opener.literal := by
    rw [← f.opener.literal_uncounted, ← g.opener.literal_uncounted]
    exact congrArg (fun x : Frame => x.opener.literal) he.symm
  rw [hl]
  exact h g (ha ▸ List.mem_append_left _ hg)

theorem literal_deactivate (f : Frame) :
    (deactivate f).opener.literal = f.opener.literal := by
  obtain ⟨o, c⟩ := f
  rcases o with ⟨m, n⟩ | ⟨_ | _, active, enclosed⟩ <;> rfl

/-! ### How many frames are open -/

/-- No more than `max 1 limit` frames are open. -/
def Bounded (limit : Nat) (st : State) : Prop := st.stack.length ≤ max 1 limit

theorem length_stack_onTop (f : Content → Content) (st : State) :
    (st.onTop f).stack.length = st.stack.length := by
  have := congrArg List.length (openers_onTop f st)
  simpa using this

theorem length_stack_collapse (st : State) : st.collapse.stack.length = st.stack.length - 1 := by
  obtain ⟨root, _ | ⟨f, below⟩, unclosed, dropped⟩ := st
  · rfl
  · have := congrArg List.length
      (openers_onTop f.flatten ⟨root, below, countsWithout unclosed f.opener, dropped⟩)
    simpa [State.collapse] using this

theorem length_stack_collapseMany (n : Nat) (st : State) :
    (st.collapseMany n).stack.length = st.stack.length - n := by
  induction n generalizing st with
  | zero => rfl
  | succ n ih =>
    rw [collapseMany, ih, length_stack_collapse]
    omega

/-- At the end no frame is open. -/
theorem stack_collapseMany_length (st : State) :
    (st.collapseMany st.stack.length).stack = [] := by
  rw [← List.length_eq_zero_iff, length_stack_collapseMany, Nat.sub_self]

theorem openers_collapse (st : State) :
    st.collapse.stack.map Frame.opener = (st.stack.map Frame.opener).tail := by
  obtain ⟨root, _ | ⟨f, below⟩, unclosed, dropped⟩ := st
  · rfl
  · exact openers_onTop f.flatten ⟨root, below, countsWithout unclosed f.opener, dropped⟩

end State

/-- Every move leaves openers to fall back on. -/
theorem Move.opened {limit : Nat} {st st' : State} {p : List Atom} (h : Move limit st p st')
    (ho : st.Opened) : st'.Opened := by
  cases h with
  | text => exact State.opened_onTop.mpr ho
  | leaf => exact State.opened_onTop.mpr ho
  | collapse => exact ho.collapse
  | dropOldest hn => exact ho.dropOldest hn
  | openRun hc =>
    intro f hf
    rcases List.mem_cons.mp hf with rfl | hf
    · exact State.literal_emphasis_ne hc
    · exact ho f hf
  | openBracket =>
    intro f hf
    rcases List.mem_cons.mp hf with rfl | hf
    · exact State.literal_bracket_ne _ _ _
    · exact ho f hf
  | closeAll hs =>
    exact State.opened_onTop.mpr fun f hf => ho f (hs ▸ List.mem_cons_of_mem _ hf)
  | closePart hs hl =>
    intro f hf
    rcases List.mem_cons.mp hf with rfl | hf
    · exact State.literal_emphasis_ne hl
    · exact ho f (hs ▸ List.mem_cons_of_mem _ hf)
  | link hs =>
    refine State.opened_onTop.mpr fun f hf => ?_
    obtain ⟨g, hg, rfl⟩ := List.mem_map.mp hf
    rw [State.literal_deactivate]
    exact ho g (hs ▸ List.mem_cons_of_mem _ hg)
  | image hs =>
    exact State.opened_onTop.mpr fun f hf => ho f (hs ▸ List.mem_cons_of_mem _ hf)

theorem Moves.opened {limit : Nat} {st st' : State} {p : List Atom} (h : Moves limit st p st')
    (ho : st.Opened) : st'.Opened :=
  h.keeps (fun hm => hm.opened) ho

theorem Move.bounded {limit : Nat} {st st' : State} {p : List Atom} (h : Move limit st p st')
    (hb : st.Bounded limit) : st'.Bounded limit := by
  unfold State.Bounded at *
  cases h with
  | text | leaf =>
    change (State.onTop _ _).stack.length ≤ _
    rw [State.length_stack_onTop]
    exact hb
  | collapse =>
    rw [State.length_stack_collapse]
    omega
  | dropOldest hn =>
    have := State.length_stack_dropOldest hn
    omega
  | openRun _ _ _ hl => exact hl
  | openBracket _ _ hl => exact hl
  | closeAll hs | image hs =>
    change (State.onTop _ _).stack.length ≤ _
    rw [State.length_stack_onTop]
    rw [hs, List.length_cons] at hb
    simp only
    omega
  | closePart hs =>
    rw [hs] at hb
    exact hb
  | link hs =>
    change (State.onTop _ _).stack.length ≤ _
    rw [State.length_stack_onTop]
    rw [hs, List.length_cons] at hb
    simp only [List.length_map]
    omega

theorem Moves.bounded {limit : Nat} {st st' : State} {p : List Atom} (h : Moves limit st p st')
    (hb : st.Bounded limit) : st'.Bounded limit :=
  h.keeps (fun hm => hm.bounded) hb

end InlineParser
end MarkdownHtml
