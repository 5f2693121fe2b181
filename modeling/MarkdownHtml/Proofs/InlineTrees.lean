/-
# The trees that running text is read as

What running text is read as is sound at every level: text is never empty and never
next to text, emphasis is never empty, no link stands inside a link, and formatting
nests no deeper than the limit (`Inline.SoundText`).

Each move of the parser keeps what it has collected sound. That no link gets into a
link needs more than the contents: a frame that has collected a link must have no
bracket at or below it that could still become a link (`LinksClear`). This is what
taking such brackets out of action is for.

Key definitions: `Inline.preorder`, `Inline.Sound`, `Inline.SoundText`, `Content.Sound`,
`LinksClear`, `State.Sound`.
Key theorems: `Move.sound`, `Inline.soundText_of_parse`, `Inline.ne_nil_of_parse`,
`WellFormed.inText?_eq_none`.
-/
import MarkdownHtml.WellFormed
import MarkdownHtml.Proofs.Coverage
import MarkdownHtml.Proofs.JoinedText

namespace MarkdownHtml

/-! ### All nodes of a tree -/

namespace Inline

mutual

/-- The node and all nodes below it. -/
def preorder : Inline → List Inline
  | .emphasis children => .emphasis children :: preorderAll children
  | .strong children => .strong children :: preorderAll children
  | .link href title children => .link href title children :: preorderAll children
  | n => [n]

/-- The nodes and all nodes below them. -/
def preorderAll : List Inline → List Inline
  | [] => []
  | n :: ns => preorder n ++ preorderAll ns

end

/-- Whether the node is a link. -/
def isLink : Inline → Bool
  | .link .. => true
  | _ => false

/-- What a node of a sound tree has to be by itself. -/
def Sound : Inline → Prop
  | .text s => s ≠ ""
  | .emphasis children => children ≠ [] ∧ Joined children
  | .strong children => children ≠ [] ∧ Joined children
  | .link _ _ children => Joined children ∧ ∀ n ∈ preorderAll children, n.isLink = false
  | _ => True

/-- Running text that is sound at every level and nests at most `limit` deep. -/
structure SoundText (limit : Nat) (ns : List Inline) : Prop where
  joined : Joined ns
  nesting : nesting ns ≤ limit
  sound : ∀ n ∈ preorderAll ns, n.Sound

theorem mem_preorderAll {m : Inline} {ns : List Inline} :
    m ∈ preorderAll ns ↔ ∃ n ∈ ns, m ∈ preorder n := by
  induction ns with
  | nil => simp [preorderAll]
  | cons n ns ih => simp [preorderAll, ih]

theorem mem_preorderAll_append {m : Inline} {ms ns : List Inline} :
    m ∈ preorderAll (ms ++ ns) ↔ m ∈ preorderAll ms ∨ m ∈ preorderAll ns := by
  simp [mem_preorderAll, or_and_right, exists_or]

theorem mem_preorderAll_prependText {m : Inline} {s : String} {ns : List Inline}
    (h : m ∈ preorderAll (prependText s ns)) : (∃ t, m = .text (s ++ t)) ∨ m ∈ preorderAll ns := by
  unfold prependText at h
  split at h
  · rename_i t rest
    rcases List.mem_append.mp h with hm | hm
    · exact .inl ⟨t, List.mem_singleton.mp hm⟩
    · exact .inr (List.mem_append_right _ hm)
  · rcases List.mem_append.mp h with hm | hm
    · exact .inl ⟨"", by simpa [preorder] using hm⟩
    · exact .inr hm

/-- Joining makes no nodes but text that is not empty. -/
theorem mem_preorderAll_joinText {m : Inline} {ns : List Inline}
    (h : m ∈ preorderAll (joinText ns)) :
    (∃ s, s ≠ "" ∧ m = .text s) ∨ ∃ n ∈ ns, n.isText = false ∧ m ∈ preorder n := by
  induction ns with
  | nil => exact absurd h (by simp [joinText, preorderAll])
  | cons n ns ih =>
    have hrest : m ∈ preorderAll (joinText ns) →
        (∃ s, s ≠ "" ∧ m = .text s) ∨ ∃ k ∈ n :: ns, k.isText = false ∧ m ∈ preorder k := by
      intro hm
      rcases ih hm with ht | ⟨k, hk, hm⟩
      · exact .inl ht
      · exact .inr ⟨k, List.mem_cons_of_mem _ hk, hm⟩
    by_cases ht : n.isText = true
    · obtain ⟨s, rfl⟩ : ∃ s, n = .text s := by
        cases n with
        | text s => exact ⟨s, rfl⟩
        | _ => exact absurd ht (by simp [isText])
      by_cases hs : s = ""
      · subst hs
        exact hrest (by rwa [joinText_cons_empty] at h)
      · rw [joinText_cons_text hs] at h
        rcases mem_preorderAll_prependText h with ⟨t, rfl⟩ | hm
        · exact .inl ⟨s ++ t, by simp [hs], rfl⟩
        · exact hrest hm
    · have ht : n.isText = false := by simpa using ht
      rw [joinText_cons_of_not_text ht] at h
      rcases List.mem_append.mp h with hm | hm
      · exact .inr ⟨n, List.mem_cons_self, ht, hm⟩
      · exact hrest hm

end Inline

/-! ### Contents -/

namespace Content

/-- What has been collected is sound, and its depth is known. -/
structure Sound (limit : Nat) (c : Content) : Prop where
  holds : c.Holds c.toList
  depth : c.depth ≤ limit
  sound : ∀ n ∈ Inline.preorderAll c.toList, n.Sound

/-- Content that holds nodes holds its own list. -/
theorem Holds.self {c : Content} {ns : List Inline} (h : c.Holds ns) : c.Holds c.toList where
  toList := (Inline.joinText_of_joined h.joined).symm
  depth := by rw [h.depth, h.toList, Inline.nesting_joinText]

theorem sound_empty (limit : Nat) : Sound limit {} where
  holds := holds_empty
  depth := Nat.zero_le _
  sound n hn := absurd hn (by simp [toList, Inline.preorderAll])

theorem Sound.soundText {limit : Nat} {c : Content} (h : c.Sound limit) :
    Inline.SoundText limit c.toList :=
  ⟨h.holds.joined, h.holds.depth ▸ h.depth, h.sound⟩

/-- Nodes that are text or sound make sound content. -/
theorem Sound.of_holds {limit : Nat} {c : Content} {ns : List Inline} (h : c.Holds ns)
    (hd : Inline.nesting ns ≤ limit)
    (hs : ∀ n ∈ ns, n.isText = false → ∀ m ∈ Inline.preorder n, m.Sound) : c.Sound limit where
  holds := h.self
  depth := h.depth ▸ hd
  sound n hn := by
    rw [h.toList] at hn
    rcases Inline.mem_preorderAll_joinText hn with ⟨s, hs, rfl⟩ | ⟨k, hk, ht, hm⟩
    · exact hs
    · exact hs k hk ht n hm

namespace Sound

variable {limit : Nat} {c other : Content}

theorem nesting_le (h : c.Sound limit) : Inline.nesting c.toList ≤ limit :=
  h.holds.depth ▸ h.depth

theorem of_mem (h : c.Sound limit) {n m : Inline} (hn : n ∈ c.toList) (hm : m ∈ Inline.preorder n) :
    m.Sound :=
  h.sound m (Inline.mem_preorderAll.mpr ⟨n, hn, hm⟩)

theorem pushText (h : c.Sound limit) (s : String) : (c.pushText s).Sound limit := by
  refine of_holds (h.holds.pushText s) ?_ fun n hn ht m hm => ?_
  · rw [Inline.nesting_append]
    simpa using h.nesting_le
  · rcases List.mem_append.mp hn with hn | hn
    · exact h.of_mem hn hm
    · obtain rfl := List.mem_singleton.mp hn
      exact absurd ht (by simp [Inline.isText])

theorem push (h : c.Sound limit) {n : Inline} (ht : n.isText = false)
    (hd : Inline.depth n ≤ limit) (hn : ∀ m ∈ Inline.preorder n, m.Sound) :
    (c.push n (Inline.depth n)).Sound limit := by
  refine of_holds (h.holds.push ht) ?_ fun k hk _ m hm => ?_
  · rw [Inline.nesting_append]
    have := h.nesting_le
    simp only [Inline.nesting_cons, Inline.nesting_nil]
    omega
  · rcases List.mem_append.mp hk with hk | hk
    · exact h.of_mem hk hm
    · obtain rfl := List.mem_singleton.mp hk
      exact hn m hm

theorem absorb (h : c.Sound limit) (ho : other.Sound limit) (s : String) :
    (Content.absorb s other c).Sound limit := by
  refine of_holds (h.holds.absorb ho.holds s) ?_ fun n hn ht m hm => ?_
  · rw [Inline.nesting_append]
    have := h.nesting_le
    have := ho.nesting_le
    simp only [Inline.nesting_cons, Inline.depth_text]
    omega
  · rcases List.mem_append.mp hn with hn | hn
    · exact h.of_mem hn hm
    · rcases List.mem_cons.mp hn with rfl | hn
      · exact absurd ht (by simp [Inline.isText])
      · exact ho.of_mem hn hm

end Sound

/-! ### Links in contents -/

/-- Whether a link has been collected, at whatever depth. -/
def HasLink (c : Content) : Prop := ∃ n ∈ Inline.preorderAll c.toList, n.isLink = true

theorem not_hasLink_empty : ¬ HasLink {} := by
  rintro ⟨n, hn, -⟩
  exact absurd hn (by simp [toList, Inline.preorderAll])

/-- Links of joined nodes are links of the nodes. -/
theorem HasLink.of_holds {c : Content} {ns : List Inline} (h : c.HasLink) (hc : c.Holds ns) :
    ∃ n ∈ Inline.preorderAll ns, n.isLink = true := by
  obtain ⟨m, hm, hl⟩ := h
  rw [hc.toList] at hm
  rcases Inline.mem_preorderAll_joinText hm with ⟨s, -, rfl⟩ | ⟨n, hn, -, hm⟩
  · exact absurd hl (by simp [Inline.isLink])
  · exact ⟨m, Inline.mem_preorderAll.mpr ⟨n, hn, hm⟩, hl⟩

theorem HasLink.of_pushText {limit : Nat} {c : Content} {s : String}
    (h : (c.pushText s).HasLink) (hc : c.Sound limit) : c.HasLink := by
  obtain ⟨n, hn, hl⟩ := h.of_holds (hc.holds.pushText s)
  rcases Inline.mem_preorderAll_append.mp hn with hn | hn
  · exact ⟨n, hn, hl⟩
  · obtain rfl : n = .text s := by simpa [Inline.preorderAll, Inline.preorder] using hn
    exact absurd hl (by simp [Inline.isLink])

theorem HasLink.of_push {c : Content} {n : Inline} {depth : Nat}
    (h : (c.push n depth).HasLink) :
    c.HasLink ∨ ∃ m ∈ Inline.preorder n, m.isLink = true := by
  obtain ⟨m, hm, hl⟩ := h
  simp only [push, toList, List.reverse_cons] at hm
  rcases Inline.mem_preorderAll_append.mp hm with hm | hm
  · exact .inl ⟨m, hm, hl⟩
  · exact .inr ⟨m, by simpa [Inline.preorderAll] using hm, hl⟩

theorem HasLink.of_absorb {limit : Nat} {c other : Content} {s : String}
    (h : (Content.absorb s other c).HasLink) (hc : c.Sound limit) (ho : other.Sound limit) :
    c.HasLink ∨ other.HasLink := by
  obtain ⟨n, hn, hl⟩ := h.of_holds (hc.holds.absorb ho.holds s)
  rcases Inline.mem_preorderAll_append.mp hn with hn | hn
  · exact .inl ⟨n, hn, hl⟩
  · rcases List.mem_append.mp hn with hn | hn
    · obtain rfl : n = .text s := by simpa [Inline.preorder] using hn
      exact absurd hl (by simp [Inline.isLink])
    · exact .inr ⟨n, hn, hl⟩

end Content

/-! ### States -/

/-- Whether the opener can still become a link. -/
def Opener.startsLink : Opener → Bool
  | .bracket false true _ => true
  | _ => false

namespace InlineParser

/-- A frame that has collected a link stands on no bracket, itself included, that can still
become one. -/
def LinksClear : List Frame → Prop
  | [] => True
  | f :: below =>
    (f.content.HasLink → ∀ g ∈ f :: below, g.opener.startsLink = false) ∧ LinksClear below

theorem linksClear_of_inactive {stack : List Frame}
    (h : ∀ f ∈ stack, f.opener.startsLink = false) : LinksClear stack := by
  induction stack with
  | nil => trivial
  | cons f below ih => exact ⟨fun _ => h, ih fun g hg => h g (List.mem_cons_of_mem _ hg)⟩

theorem LinksClear.of_append {above below : List Frame} (h : LinksClear (above ++ below)) :
    LinksClear above := by
  induction above with
  | nil => trivial
  | cons f above ih =>
    refine ⟨fun hl g hg => h.1 hl g ?_, ih h.2⟩
    rcases List.mem_cons.mp hg with rfl | hg
    · exact List.mem_cons_self
    · exact List.mem_cons_of_mem _ (List.mem_append_left _ hg)

theorem startsLink_uncounted (f : Frame) :
    f.uncounted.opener.startsLink = f.opener.startsLink := by
  obtain ⟨o, c⟩ := f
  rcases o with ⟨m, n⟩ | ⟨_ | _, _ | _, enclosed⟩ <;> rfl

theorem linksClear_map_uncounted {stack : List Frame} :
    LinksClear (stack.map Frame.uncounted) ↔ LinksClear stack := by
  induction stack with
  | nil => exact Iff.rfl
  | cons f below ih =>
    have hall : (∀ g ∈ (f :: below).map Frame.uncounted, g.opener.startsLink = false) ↔
        ∀ g ∈ f :: below, g.opener.startsLink = false := by
      simp only [List.forall_mem_map, startsLink_uncounted]
    rw [List.map_cons, LinksClear, ← List.map_cons, hall, ih]
    exact Iff.rfl

theorem startsLink_deactivate (f : Frame) : (State.deactivate f).opener.startsLink = false := by
  obtain ⟨o, c⟩ := f
  rcases o with ⟨m, n⟩ | ⟨_ | _, _ | _, enclosed⟩ <;> rfl

namespace State

/-- Everything collected so far is sound, and no link can get into a link. -/
structure Sound (limit : Nat) (st : State) : Prop where
  root : st.root.Sound limit
  frames : ∀ f ∈ st.stack, f.content.Sound limit
  links : LinksClear st.stack

namespace Sound

variable {limit : Nat} {st : State}

theorem start (limit : Nat) : Sound limit {} :=
  ⟨Content.sound_empty limit, by simp, trivial⟩

/-- Without the innermost frame. -/
theorem below {f : Frame} {stack : List Frame} (h : st.Sound limit) (hs : st.stack = f :: stack)
    (unclosed : Counts) : Sound limit { st with stack, unclosed } := by
  refine ⟨h.root, fun g hg => h.frames g (hs ▸ List.mem_cons_of_mem _ hg), ?_⟩
  have hl := h.links
  rw [hs] at hl
  exact hl.2

/-- If the innermost frame holds a link, no bracket can become one. -/
theorem clear {f : Frame} {stack : List Frame} (h : st.Sound limit) (hs : st.stack = f :: stack)
    (hl : f.content.HasLink) : ∀ g ∈ f :: stack, g.opener.startsLink = false := by
  have hlinks := h.links
  rw [hs] at hlinks
  exact hlinks.1 hl

/-- Without the innermost frame, and with no bracket that can become a link. -/
theorem deactivate {f : Frame} {stack : List Frame} (h : st.Sound limit)
    (hs : st.stack = f :: stack) (unclosed : Counts) :
    Sound limit { st with stack := stack.map State.deactivate, unclosed } := by
  refine ⟨h.root, fun g hg => ?_, linksClear_of_inactive fun g hg => ?_⟩
  · obtain ⟨k, hk, rfl⟩ := List.mem_map.mp hg
    rw [content_deactivate]
    exact h.frames k (hs ▸ List.mem_cons_of_mem _ hk)
  · obtain ⟨k, -, rfl⟩ := List.mem_map.mp hg
    exact startsLink_deactivate k

/-- A new frame in front. -/
theorem cons {o : Opener} {c : Content} (h : st.Sound limit) (hc : c.Sound limit)
    (hl : c.HasLink → ∀ g ∈ ⟨o, c⟩ :: st.stack, g.opener.startsLink = false) (unclosed : Counts) :
    Sound limit { st with stack := ⟨o, c⟩ :: st.stack, unclosed } := by
  refine ⟨h.root, fun g hg => ?_, hl, h.links⟩
  rcases List.mem_cons.mp hg with rfl | hg
  · exact hc
  · exact h.frames g hg

theorem onTop {f : Content → Content} (h : st.Sound limit)
    (hs : ∀ c, c.Sound limit → (f c).Sound limit)
    (hl : ∀ c, c.Sound limit → (f c).HasLink →
      c.HasLink ∨ ∀ g ∈ st.stack, g.opener.startsLink = false) :
    (st.onTop f).Sound limit := by
  obtain ⟨root, _ | ⟨⟨o, c⟩, below⟩, unclosed, dropped⟩ := st
  · exact ⟨hs root h.root, by simp [State.onTop], trivial⟩
  · have hc : c.Sound limit := h.frames ⟨o, c⟩ List.mem_cons_self
    refine ⟨h.root, fun g hg => ?_, fun hlink g hg => ?_, h.links.2⟩
    · rcases List.mem_cons.mp hg with rfl | hg
      · exact hs c hc
      · exact h.frames g (List.mem_cons_of_mem _ hg)
    · -- the openers are the same as before
      have hall : ∀ g ∈ ⟨o, c⟩ :: below, g.opener.startsLink = false := by
        rcases hl c hc hlink with hlink | hall
        · exact h.links.1 hlink
        · exact hall
      rcases List.mem_cons.mp hg with rfl | hg
      · exact hall ⟨o, c⟩ List.mem_cons_self
      · exact hall g (List.mem_cons_of_mem _ hg)

theorem push (h : st.Sound limit) {n : Inline} {depth : Nat} (ht : n.isText = false)
    (hd : depth = Inline.depth n) (hle : depth ≤ limit) (hn : ∀ m ∈ Inline.preorder n, m.Sound)
    (hl : (∃ m ∈ Inline.preorder n, m.isLink = true) →
      ∀ g ∈ st.stack, g.opener.startsLink = false) :
    (st.push n depth).Sound limit := by
  subst hd
  exact h.onTop (fun _ hc => hc.push ht hle hn) fun _ _ hlink => hlink.of_push.imp_right hl

theorem collapse (h : st.Sound limit) : st.collapse.Sound limit := by
  obtain ⟨root, _ | ⟨f, below⟩, unclosed, dropped⟩ := st
  · exact h
  · have hf : f.content.Sound limit := h.frames f List.mem_cons_self
    have hbelow : Sound limit ⟨root, below, countsWithout unclosed f.opener, dropped⟩ :=
      h.below rfl _
    refine hbelow.onTop (fun c hc => hc.absorb hf _) fun c hc hlink => ?_
    refine (Content.HasLink.of_absorb hlink hc hf).imp_right fun hl g hg => ?_
    exact h.links.1 hl g (List.mem_cons_of_mem _ hg)

theorem dropOldest (h : st.Sound limit) (hn : st.stack ≠ []) : st.dropOldest.Sound limit := by
  obtain ⟨above, oldest, ha⟩ := exists_oldest hn
  obtain ⟨hroot, hstack⟩ := dropOldest_spec ha
  have hframe : ∀ f ∈ above ++ [oldest], f.content.Sound limit := ha ▸ h.frames
  refine ⟨?_, fun f hf => ?_, ?_⟩
  · rw [hroot]
    exact h.root.absorb (hframe oldest (by simp)) _
  · have hm : f.uncounted ∈ above.map Frame.uncounted := hstack ▸ List.mem_map_of_mem hf
    obtain ⟨g, hg, he⟩ := List.mem_map.mp hm
    have hc : g.uncounted.content = f.uncounted.content := congrArg Frame.content he
    change g.content = f.content at hc
    exact hc ▸ hframe g (List.mem_append_left _ hg)
  · have hl := h.links
    rw [ha] at hl
    rw [← linksClear_map_uncounted, hstack, linksClear_map_uncounted]
    exact hl.of_append

end Sound

/-- Emphasis around sound content that is not empty. -/
theorem sound_emphasisNode {limit : Nat} {c : Content} (used : Nat) (hc : c.Sound limit)
    (hf : c.nodes ≠ []) :
    (emphasisNode used c.toList).isText = false ∧
      Inline.depth (emphasisNode used c.toList) = c.depth + 1 ∧
      (∀ m ∈ Inline.preorder (emphasisNode used c.toList), m.Sound) ∧
      ((∃ m ∈ Inline.preorder (emphasisNode used c.toList), m.isLink = true) → c.HasLink) := by
  have hne : c.toList ≠ [] := by simpa [Content.toList] using hf
  have hd : Inline.nestingFrom 0 c.toList = c.depth := hc.holds.depth.symm
  unfold emphasisNode
  split_ifs
  all_goals
    refine ⟨rfl, by rw [Inline.depth, hd], ?_, ?_⟩
    · intro m hm
      rcases List.mem_cons.mp hm with rfl | hm
      · exact ⟨hne, hc.holds.joined⟩
      · exact hc.sound m hm
    · rintro ⟨m, hm, hl⟩
      rcases List.mem_cons.mp hm with rfl | hm
      · exact absurd hl (by simp [Inline.isLink])
      · exact ⟨m, hm, hl⟩

end State

/-- **Every move keeps trees sound.** -/
theorem Move.sound {limit : Nat} {st st' : State} {p : List Atom} (hm : Move limit st p st')
    (h : st.Sound limit) : st'.Sound limit := by
  cases hm with
  | text =>
    exact h.onTop (fun _ hc => hc.pushText _) fun _ hc hl => .inl (hl.of_pushText hc)
  | leaf _ hleaf =>
    rename_i n
    cases n with
    | code | lineBreak =>
      exact h.push rfl rfl (Nat.zero_le _) (by simp [Inline.preorder, Inline.Sound])
        (by simp [Inline.preorder, Inline.isLink])
    | _ => exact absurd hleaf (by simp [Inline.isLeaf])
  | collapse => exact h.collapse
  | dropOldest hn => exact h.dropOldest hn
  | openRun | openBracket =>
    exact h.cons (Content.sound_empty limit) (fun hl => absurd hl Content.not_hasLink_empty) _
  | @closeAll m t used content below hst hc =>
    have hcontent : content.Sound limit := h.frames _ (hst ▸ List.mem_cons_self)
    obtain ⟨ht, hd, hs, hl⟩ := State.sound_emphasisNode used hcontent hc.filled
    refine (h.below hst _).push ht hd.symm hc.depth hs fun hlink g hg => ?_
    exact h.clear hst (hl hlink) g (List.mem_cons_of_mem _ hg)
  | @closePart m t used left content below hst _ hc =>
    have hcontent : content.Sound limit := h.frames _ (hst ▸ List.mem_cons_self)
    obtain ⟨ht, hd, hs, hl⟩ := State.sound_emphasisNode used hcontent hc.filled
    have hnode := (Content.sound_empty limit).push ht (hd ▸ hc.depth) hs
    rw [hd] at hnode
    simp only [Content.push, Nat.zero_max] at hnode
    refine (h.below hst st.unclosed).cons hnode (fun hlink g hg => ?_) _
    have hin : content.HasLink := by
      obtain ⟨m, hm, hml⟩ := hlink
      refine hl ⟨m, ?_, hml⟩
      simpa [Content.toList, Inline.preorderAll] using hm
    rcases List.mem_cons.mp hg with rfl | hg
    · rfl
    · exact h.clear hst hin g (List.mem_cons_of_mem _ hg)
  | @link t tail q enclosed content below hst _ hd =>
    have hcontent : content.Sound limit := h.frames _ (hst ▸ List.mem_cons_self)
    -- the bracket could still become a link, so there is none behind it
    have hclear : ¬ content.HasLink := fun hl =>
      absurd (h.clear hst hl _ List.mem_cons_self) (by simp [Opener.startsLink])
    refine (h.deactivate hst enclosed).push rfl ?_ hd (fun m hm => ?_) fun _ g hg => ?_
    · rw [Inline.depth, hcontent.holds.depth]
      rfl
    · rcases List.mem_cons.mp hm with rfl | hm
      · refine ⟨hcontent.holds.joined, fun n hn => ?_⟩
        rw [Bool.eq_false_iff]
        exact fun hl => hclear ⟨n, hn, hl⟩
      · exact hcontent.sound m hm
    · obtain ⟨f, -, rfl⟩ := List.mem_map.mp hg
      exact startsLink_deactivate f
  | image hst =>
    exact (h.below hst _).push rfl rfl (Nat.zero_le _) (by simp [Inline.preorder, Inline.Sound])
      (by simp [Inline.preorder, Inline.isLink])

theorem State.Sound.finish {limit : Nat} {st : State} (h : st.Sound limit) :
    Inline.SoundText limit st.finish := by
  have hall : ∀ (n : Nat) (st : State), st.Sound limit → (st.collapseMany n).Sound limit := by
    intro n
    induction n with
    | zero => exact fun _ h => h
    | succ n ih => exact fun _ h => ih _ h.collapse
  exact (hall st.stack.length st h).root.soundText

end InlineParser

/-- What running text is read as is sound. -/
theorem Inline.soundText_of_parse {limits : Limits} {text : List Char} {nodes : List Inline}
    (h : Inline.parse limits text = .ok nodes) : SoundText limits.maxNesting nodes := by
  obtain ⟨st, hm, rfl⟩ := Inline.moves_of_parse h
  exact (hm.keeps (fun hm => hm.sound) (.start limits.maxNesting)).finish

/-- Some text is read as some nodes. -/
theorem Inline.ne_nil_of_parse {limits : Limits} {text : List Char} {nodes : List Inline}
    (h : Inline.parse limits text = .ok nodes) (ht : text ≠ []) : nodes ≠ [] := by
  obtain ⟨st, hm, rfl⟩ := Inline.moves_of_parse h
  intro hn
  have hr := hm.reads
  rw [hn] at hr
  generalize ha : Atom.ofText text = atoms at hr
  cases hr
  have hw := Atom.flatMap_written_ofText text
  rw [ha] at hw
  exact ht hw.symm

/-! ### The rules for running text -/

namespace WellFormed

theorem adjacent?_eq_none {ns : List Inline} (h : Inline.Joined ns) : adjacent? ns = none := by
  induction ns with
  | nil => rfl
  | cons n ns ih =>
    have htail := ih h.tail
    cases n with
    | text s =>
      cases ns with
      | nil => rfl
      | cons m ns =>
        cases m with
        | text t =>
          have hapart := (List.isChain_cons.mp h.apart).1 (.text t) rfl
          exact absurd ⟨rfl, rfl⟩ hapart
        | _ => simpa [adjacent?] using htail
    | _ => simpa [adjacent?] using htail

mutual

theorem inNode?_eq_none : ∀ n : Inline, (∀ m ∈ Inline.preorder n, m.Sound) → inNode? n = none
  | .text s, h => by
    have hs : s ≠ "" := h (.text s) List.mem_cons_self
    simp [inNode?, hs]
  | .emphasis children, h => by
    have hj := h (.emphasis children) List.mem_cons_self
    rw [inNode?, adjacent?_eq_none hj.2,
      inNodes?_eq_none children fun m hm => h m (List.mem_cons_of_mem _ hm)]
    rfl
  | .strong children, h => by
    have hj := h (.strong children) List.mem_cons_self
    rw [inNode?, adjacent?_eq_none hj.2,
      inNodes?_eq_none children fun m hm => h m (List.mem_cons_of_mem _ hm)]
    rfl
  | .link href title children, h => by
    have hj := h (.link href title children) List.mem_cons_self
    rw [inNode?, adjacent?_eq_none hj.1,
      inNodes?_eq_none children fun m hm => h m (List.mem_cons_of_mem _ hm)]
    rfl
  | .code _, _ => rfl
  | .image .., _ => rfl
  | .lineBreak, _ => rfl

theorem inNodes?_eq_none :
    ∀ ns : List Inline, (∀ m ∈ Inline.preorderAll ns, m.Sound) → inNodes? ns = none
  | [], _ => rfl
  | n :: ns, h => by
    rw [inNodes?, inNode?_eq_none n fun m hm => h m (List.mem_append_left _ hm)]
    exact inNodes?_eq_none ns fun m hm => h m (List.mem_append_right _ hm)

end

/-- Sound text breaks no rule. -/
theorem inText?_eq_none {limits : Limits} {ns : List Inline}
    (h : Inline.SoundText limits.maxNesting ns) : inText? limits ns = none := by
  rw [inText?]
  simp only [Nat.not_lt.mpr h.nesting, if_false]
  rw [adjacent?_eq_none h.joined, inNodes?_eq_none ns h.sound]
  rfl

end WellFormed
end MarkdownHtml
