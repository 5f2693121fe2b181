/-
# What the nesting limit can do

Malformed Markdown is never an error: a text that is not too large is read, or nests too
deep (`Document.parse_total`). The limit on nesting refuses, and it does nothing else: under
a higher limit a text that is not refused is read alike, if the openers in it are no more
than the lower limit (`Document.parse_deeper`). More openers than that can make the inline
parser give one up, so that the limit shows in the result.

Why a step of the builder fails is found by counting characters. The leaf that is open
holds no more openers than were read, and no more lists are open than characters were
read, since every marker has one (`Builder.Holds`). A step that fails has met a limit below
one of these counts. So a limit that is not below the size of the text is never met.

Key definitions: `Line.Measured`, `Leaf.openers`, `Builder.Holds`, `Builder.under`,
`Document.run`.
Key theorems: `LineReader.flatten_texts_sublist`, `Builder.push_holds`,
`Builder.pushAll_holds`, `Builder.push_under`, `Builder.pushAll_under`,
`Document.parse_total`, `Document.parse_deeper`.
-/
import MarkdownHtml.Proofs.Composition
import MarkdownHtml.Proofs.Nesting

namespace MarkdownHtml

/-! ### Parts of a text -/

theorem Text.length_le_utf8ByteSize (s : String) : s.toList.length ≤ s.utf8ByteSize := by
  have hlen : ∀ cs : List Char, cs.length ≤ String.utf8Len cs := by
    intro cs
    induction cs with
    | nil => exact Nat.le_refl 0
    | cons c cs ih =>
      have hc := c.utf8Size_pos
      rw [List.length_cons, String.utf8Len_cons]
      omega
  have hbytes : String.utf8Len s.toList = s.utf8ByteSize := by
    rw [← String.utf8ByteSize_ofList, String.ofList_toList]
  rw [← hbytes]
  exact hlen s.toList

/-- The lines hold characters of the text, each once and in order. -/
theorem LineReader.flatten_split_sublist (line : List Char) (done : List (List Char))
    (s : List Char) :
    (split line done s).flatten.Sublist (done.reverse.flatten ++ line.reverse ++ s) := by
  fun_induction split line done s with
  | case1 line done =>
    by_cases hline : line.isEmpty = true
    · rw [if_pos hline, List.append_nil]
      exact List.sublist_append_left _ _
    · rw [if_neg hline, List.append_nil, List.reverse_cons, List.flatten_concat]
  | case2 line done rest ih =>
    refine ih.trans ?_
    simp only [List.reverse_cons, List.flatten_concat, List.reverse_nil, List.append_nil]
    refine List.Sublist.append_left ?_ _
    exact ((List.sublist_cons_self _ _).trans (List.sublist_cons_self _ _))
  | case3 line done c rest hcr hend ih =>
    refine ih.trans ?_
    simp only [List.reverse_cons, List.flatten_concat, List.reverse_nil, List.append_nil]
    exact List.Sublist.append_left (List.sublist_cons_self _ _) _
  | case4 line done c rest hcr hend ih =>
    simpa using ih

theorem LineReader.flatten_texts_sublist (s : List Char) : (texts s).flatten.Sublist s := by
  have hsplit := flatten_split_sublist [] [] s
  unfold texts
  simpa only [List.reverse_nil, List.flatten_nil, List.nil_append] using hsplit

/-! ### What a line holds -/

/-- The part of a line that its block is made of. -/
def LineKind.content : LineKind → List Char
  | .heading h => h.text
  | .marker m => m.content
  | .text t => t
  | _ => []

/-- What a line has, it has in its characters: its content, its quote markers, and a list
marker beside its content. -/
structure Line.Measured (line : Line) : Prop where
  quotes : line.quoteDepth ≤ line.raw.length
  content : line.kind.content.Sublist line.raw
  marker : ∀ marker, line.kind = .marker marker → marker.content.length < line.raw.length

theorem Heading.text_sublist {text : List Char} {heading : Heading}
    (h : Heading.read? text = some heading) : heading.text.Sublist text := by
  have hclosing : ∀ content : List Char, (stripClosing content).Sublist content := by
    intro content
    simp only [stripClosing]
    split_ifs
    · exact List.nil_sublist _
    · exact (Text.dropEndWhile_sublist _ _).trans (Text.dropEndWhile_sublist _ _)
    · exact List.Sublist.refl _
  simp only [read?] at h
  split_ifs at h
  obtain rfl := Option.some.inj h
  exact (hclosing _).trans ((Text.trim_sublist _).trans (List.dropWhile_sublist _))

namespace Line

theorem content_kindOfText_sublist (text : List Char) : (kindOfText text).content.Sublist text := by
  unfold kindOfText
  split
  · exact List.nil_sublist _
  · split
    · rename_i heading hread
      exact Heading.text_sublist hread
    · split_ifs
      · exact List.nil_sublist _
      · split
        · rename_i marker hread
          exact (Marker.content_suffix hread).sublist
        · exact List.Sublist.refl _

theorem content_kindOf_sublist (indent : Nat) (text : List Char) :
    (kindOf indent text).content.Sublist text := by
  unfold kindOf
  split_ifs
  · exact List.nil_sublist _
  · exact content_kindOfText_sublist text
  · split
    · rename_i marker hread
      exact (Marker.content_suffix hread).sublist
    · exact List.Sublist.refl _

/-- A marker is read off the start of the text. -/
theorem read?_of_kindOf {indent : Nat} {text : List Char} {marker : Marker}
    (h : kindOf indent text = .marker marker) : Marker.read? text = some marker := by
  have hfound : ∀ found, Marker.read? text = some found →
      LineKind.marker found = .marker marker → Marker.read? text = some marker := by
    intro found hread hmarker
    rw [hread, LineKind.marker.inj hmarker]
  unfold kindOf at h
  split_ifs at h
  · unfold kindOfText at h
    split at h
    · exact absurd h (by simp)
    · split at h
      · exact absurd h (by simp)
      · split_ifs at h
        split at h
        · rename_i found hread
          exact hfound found hread h
        · exact absurd h (by simp)
  · split at h
    · rename_i found hread
      exact hfound found hread h
    · exact absurd h (by simp)

theorem measured_classify (number : Nat) (raw : List Char) : (classify number raw).Measured := by
  obtain ⟨hrest, hdepth⟩ := stripAtMost_bounds raw.length raw
  have htext : (stripAll raw).rest.dropWhile Text.isPad <:+ raw :=
    (List.dropWhile_suffix _).trans hrest
  refine ⟨hdepth, (content_kindOf_sublist _ _).trans htext.sublist, fun marker hkind => ?_⟩
  have hshort := Marker.length_content_lt (read?_of_kindOf hkind)
  exact Nat.lt_of_lt_of_le hshort htext.length_le

theorem measured_ofText (s : List Char) : ∀ line ∈ Line.ofText s, line.Measured := by
  intro line hline
  obtain ⟨i, -, rfl⟩ := List.mem_mapIdx.mp hline
  exact measured_classify _ _

theorem flatMap_raw_sublist (s : List Char) : ((Line.ofText s).flatMap Line.raw).Sublist s := by
  rw [List.flatMap_def, ofText_eq, map_raw_classify]
  exact LineReader.flatten_texts_sublist s

end Line

/-! ### Why a step fails -/

/-- The openers in the lines of an open leaf. -/
def Leaf.openers : Leaf → Nat
  | .paragraph lines => (lines.map Text.openers).sum
  | .item _ _ lines => (lines.map Text.openers).sum
  | _ => 0

/-- Joining lines adds no opener. -/
theorem openers_joinLines_le (lines : List (List Char)) :
    Text.openers (joinLines lines) ≤ (lines.map Text.openers).sum := by
  have hjoin : ∀ ls : List (List Char),
      Text.openers (List.intercalate ['\n'] (ls.map Text.trimStart)) ≤
        (ls.map Text.openers).sum := by
    intro ls
    induction ls with
    | nil => exact Nat.le_refl 0
    | cons l ls ih =>
      have hl : Text.openers (Text.trimStart l) ≤ Text.openers l :=
        Text.openers_le_of_sublist (List.dropWhile_sublist _)
      have hfeed : Text.openers ['\n'] = 0 := rfl
      cases ls with
      | nil => simpa [List.intercalate] using hl
      | cons m ls =>
        simp only [List.map_cons, List.intercalate, List.intersperse_cons_cons, List.flatten_cons,
          Text.openers_append, List.sum_cons] at ih ⊢
        omega
  exact (Text.openers_le_of_sublist (Text.dropEndWhile_sublist _ _)).trans (hjoin lines)

theorem openers_joinLines_reverse_le {lines : List (List Char)} {n : Nat}
    (h : (lines.map Text.openers).sum ≤ n) : Text.openers (joinLines lines.reverse) ≤ n := by
  have hle := openers_joinLines_le lines.reverse
  rw [List.map_reverse, List.sum_reverse] at hle
  omega

namespace Builder

/-- The open leaf holds at most `openers` openers, and at most `levels` lists are open. -/
structure Holds (limits : Limits) (openers levels : Nat) (b : Builder) : Prop where
  limits : b.limits = limits
  leaf : b.leaf.openers ≤ openers
  lists : b.lists.length ≤ levels

theorem Holds.mono {limits : Limits} {n n' k k' : Nat} {b : Builder} (h : b.Holds limits n k)
    (hn : n ≤ n') (hk : k ≤ k') : b.Holds limits n' k' :=
  ⟨h.limits, Nat.le_trans h.leaf hn, Nat.le_trans h.lists hk⟩

end Builder

/-- A step leaves no more open than `openers` and `levels` say, and if it fails, the nesting
limit is below one of them. -/
structure Attempt.Holds (limits : Limits) (openers levels : Nat) (a : Attempt) : Prop where
  builder : a.builder.Holds limits openers levels
  failure : ∀ e, a.failure = some e → e = limits.nestingError ∧
    (limits.maxNesting < openers ∨ limits.maxNesting < levels)

theorem Attempt.Holds.mono {limits : Limits} {n n' k k' : Nat} {a : Attempt}
    (h : a.Holds limits n k) (hn : n ≤ n') (hk : k ≤ k') : a.Holds limits n' k' := by
  refine ⟨h.builder.mono hn hk, fun e he => ?_⟩
  obtain ⟨hkind, hcause⟩ := h.failure e he
  exact ⟨hkind, by omega⟩

theorem Attempt.Holds.andThen {limits : Limits} {n n' k k' : Nat} {a : Attempt}
    {next : Builder → Attempt} (h : a.Holds limits n k) (hn : n ≤ n') (hk : k ≤ k')
    (hnext : ∀ b, Builder.Holds limits n k b → (next b).Holds limits n' k') :
    (a.andThen next).Holds limits n' k' := by
  unfold Attempt.andThen
  cases hf : a.failure with
  | none => exact hnext a.builder h.builder
  | some e => exact h.mono hn hk

namespace Builder

variable {limits : Limits} {n k : Nat} {b : Builder}

theorem Holds.done (h : b.Holds limits n k) : (Attempt.done b).Holds limits n k :=
  ⟨h, fun _ he => absurd he (by simp [Attempt.done])⟩

theorem Holds.refuse (h : b.Holds limits n k) (event : Event)
    (hcause : limits.maxNesting < n ∨ limits.maxNesting < k) :
    (b.refuse event).Holds limits n k := by
  refine ⟨⟨h.limits, h.leaf, h.lists⟩, fun e he => ⟨?_, hcause⟩⟩
  rw [← h.limits]
  exact (Option.some.inj he).symm

/-- Reading running text fails only if there are more openers in it than the limit. -/
theorem Holds.readInline (h : b.Holds limits n k) {text : List Char}
    {next : List Inline → Builder → Builder} (htext : Text.openers text ≤ n)
    (hnext : ∀ nodes c, Holds limits n k c → Holds limits n k (next nodes c)) :
    (b.readInline text next).Holds limits n k := by
  have hnoted : Holds limits n k (b.noteDropped (Inline.read b.limits text)) :=
    ⟨h.limits, h.leaf, h.lists⟩
  obtain ⟨dropped, nodes, hread⟩ := Inline.read_eq text
  unfold Builder.readInline
  simp only
  by_cases hroom : Text.openers text ≤ limits.maxNesting
  · rw [h.limits, hread limits hroom] at hnoted ⊢
    exact (hnext nodes _ hnoted).done
  · split
    · exact (hnext _ _ hnoted).done
    · rename_i e he
      refine ⟨hnoted, fun e' he' => ⟨?_, .inl (by omega)⟩⟩
      obtain rfl := Option.some.inj he'
      -- reading has no other error
      rw [h.limits] at he
      simp only [Inline.read] at he
      split at he
      · exact absurd he (by simp)
      · exact (Except.error.inj he).symm

theorem flush_holds (h : b.Holds limits n k) : b.flush.Holds limits n k := by
  have hrest : Holds limits n k { b with leaf := .none } := ⟨h.limits, Nat.zero_le _, h.lists⟩
  have hemit : ∀ (kind : LeafKind) (block : Block) (c : Builder), Holds limits n k c →
      Holds limits n k (c.emitLeaf kind block) := fun _ _ _ hc => ⟨hc.limits, hc.leaf, hc.lists⟩
  have hleaf := h.leaf
  unfold flush
  simp only
  split
  · exact hrest.done
  · rename_i lines heq
    rw [heq] at hleaf
    exact hrest.readInline (openers_joinLines_reverse_le hleaf) fun nodes c hc => hemit _ _ c hc
  · rename_i list depth lines heq
    rw [heq] at hleaf
    exact hrest.readInline (openers_joinLines_reverse_le hleaf) fun nodes c hc => hemit _ _ c hc
  · exact (hemit _ _ _ hrest).done

theorem flushAll_holds (h : b.Holds limits n k) : b.flushAll.Holds limits n k :=
  (flush_holds h).andThen (Nat.le_refl _) (Nat.le_refl _) fun _ hc =>
    Holds.done ⟨hc.limits, hc.leaf, Nat.zero_le _⟩

/-- Every marker of a line opens one list at most, and has a character for it. -/
theorem openItem_holds {marker : Marker} (h : b.Holds limits n k)
    (htext : Text.openers marker.content ≤ n) (fuel indent : Nat) :
    (b.openItem fuel indent marker).Holds limits n (k + marker.content.length + 1) := by
  induction fuel generalizing indent marker k b with
  | zero => exact (h.mono (Nat.le_refl _) (by omega)).done
  | succ fuel ih =>
    have hlists := h.lists
    have hunwind := ListStack.length_unwind_le indent b.lists
    have hplaced : Holds limits n (k + 1)
        { b with lists := b.lists.place indent marker.width } := by
      refine ⟨h.limits, h.leaf, ?_⟩
      simp only [ListStack.place, List.length_cons]
      omega
    have hmore := hplaced.mono (Nat.le_refl n)
      (show k + 1 ≤ k + marker.content.length + 1 by omega)
    rw [openItem_succ rfl]
    by_cases hmax : b.limits.maxNesting ≤ (b.lists.unwind indent).length
    · rw [if_pos hmax]
      rw [h.limits] at hmax
      exact hmore.refuse _ (.inr (by omega))
    · rw [if_neg hmax]
      cases hinner : innerMarker? marker.content with
      | none => exact Holds.done ⟨hmore.limits, by simpa [Leaf.openers] using htext, hmore.lists⟩
      | some inner =>
        have hread : Marker.read? marker.content = some inner := by
          unfold innerMarker? at hinner
          split_ifs at hinner
          exact hinner
        have hshort := Marker.length_content_lt hread
        have hsub := Text.openers_le_of_sublist (Marker.content_suffix hread).sublist
        have hemit : Holds limits n (k + 1) (emit (.item marker.list (b.lists.unwind indent).length
            []) { b with lists := b.lists.place indent marker.width }) :=
          ⟨hplaced.limits, hplaced.leaf, hplaced.lists⟩
        have hrest := ih hemit (Nat.le_trans hsub htext) (indent + marker.width)
        exact hrest.mono (Nat.le_refl _) (by omega)

theorem extendText_holds {text : List Char} (h : b.Holds limits n k) :
    (b.extendText text).Holds limits (n + Text.openers text) k := by
  have hleaf := h.leaf
  unfold extendText
  split
  · rename_i lines heq
    rw [heq] at hleaf
    refine ⟨h.limits, ?_, h.lists⟩
    simp only [Leaf.openers, List.map_cons, List.sum_cons] at hleaf ⊢
    omega
  · rename_i list depth lines heq
    rw [heq] at hleaf
    refine ⟨h.limits, ?_, h.lists⟩
    simp only [Leaf.openers, List.map_cons, List.sum_cons] at hleaf ⊢
    omega
  · refine ⟨h.limits, ?_, h.lists⟩
    simp only [Leaf.openers, List.map_cons, List.map_nil, List.sum_cons, List.sum_nil]
    omega

variable {line : Line}

/-- Quotes are bounded by the markers of the line, and no list is opened with them. -/
theorem enterQuotes_holds (hline : line.Measured) (h : b.Holds limits n k) :
    (b.enterQuotes line).Holds limits n (k + line.raw.length) ∧
      (b.enterQuotes line).builder.Holds limits n k := by
  have hquotes := hline.quotes
  have hmore := h.mono (Nat.le_refl n) (show k ≤ k + line.raw.length by omega)
  unfold enterQuotes
  by_cases hmax : b.limits.maxNesting < line.quoteDepth
  · rw [if_pos hmax]
    rw [h.limits] at hmax
    exact ⟨hmore.refuse _ (.inr (by omega)), ⟨h.limits, h.leaf, h.lists⟩⟩
  · rw [if_neg hmax]
    by_cases hsame : line.quoteDepth = b.path.depth
    · rw [if_pos hsame]
      exact ⟨hmore.done, h⟩
    · rw [if_neg hsame]
      have hset : ∀ c : Builder, c.Holds limits n k →
          (Attempt.done { c with path := c.path.setDepth line.quoteDepth }).Holds limits n k :=
        fun _ hc => Holds.done ⟨hc.limits, hc.leaf, hc.lists⟩
      have hentered := (flushAll_holds h).andThen (Nat.le_refl n) (Nat.le_refl k) hset
      exact ⟨hentered.mono (Nat.le_refl n) (by omega), hentered.builder⟩

theorem takeKind_holds (hline : line.Measured) (h : b.Holds limits n k) :
    (b.takeKind line).Holds limits (n + Text.openers line.raw) (k + line.raw.length) := by
  have hmore := h.mono (show n ≤ n + Text.openers line.raw by omega)
    (show k ≤ k + line.raw.length by omega)
  have hcontent := Text.openers_le_of_sublist hline.content
  unfold takeKind
  split
  · exact flushAll_holds hmore
  · exact (flushAll_holds hmore).andThen (Nat.le_refl _) (Nat.le_refl _) fun _ hc =>
      Holds.done ⟨hc.limits, Nat.zero_le _, hc.lists⟩
  · rename_i heading hkind
    simp only [hkind, LineKind.content] at hcontent
    refine (flushAll_holds hmore).andThen (Nat.le_refl _) (Nat.le_refl _) fun _ hc => ?_
    exact hc.readInline (by omega) fun _ _ hd => ⟨hd.limits, hd.leaf, hd.lists⟩
  · exact (flushAll_holds hmore).andThen (Nat.le_refl _) (Nat.le_refl _) fun _ hc =>
      Holds.done ⟨hc.limits, hc.leaf, hc.lists⟩
  · rename_i marker hkind
    have hmarker := hline.marker marker hkind
    simp only [hkind, LineKind.content] at hcontent
    refine (flush_holds h).andThen (by omega) (by omega) fun c hc => ?_
    have hitem := openItem_holds (hc.mono (show n ≤ n + Text.openers line.raw by omega)
      (Nat.le_refl k)) (show Text.openers marker.content ≤ _ by omega)
      (marker.content.length + 1) line.indent
    exact hitem.mono (Nat.le_refl _) (by omega)
  · rename_i text hkind
    simp only [hkind, LineKind.content] at hcontent
    exact ((extendText_holds h).mono (by omega) (by omega)).done

theorem takeLine_holds (hline : line.Measured) (h : b.Holds limits n k) :
    (b.takeLine line).Holds limits (n + Text.openers line.raw) (k + line.raw.length) := by
  obtain ⟨hquotes, hbuilder⟩ := enterQuotes_holds hline h
  unfold takeLine
  cases hf : (b.enterQuotes line).failure with
  | none =>
    rw [Attempt.andThen_of_ok hf]
    exact takeKind_holds hline hbuilder
  | some e =>
    rw [Attempt.andThen_of_error hf]
    exact hquotes.mono (by omega) (Nat.le_refl _)

/-- **One line.** A line adds no more than its characters, and fails only by a limit below
what was read. -/
theorem push_holds (hline : line.Measured) (h : b.Holds limits n k) :
    (b.push line).Holds limits (n + Text.openers line.raw) (k + line.raw.length) := by
  have hmore := h.mono (show n ≤ n + Text.openers line.raw by omega)
    (show k ≤ k + line.raw.length by omega)
  unfold push
  split
  · simp only
    split_ifs
    · exact flush_holds hmore
    · exact Holds.done ⟨hmore.limits, Nat.zero_le _, hmore.lists⟩
    · exact (flush_holds h).andThen (by omega) (by omega) fun _ hc => takeLine_holds hline hc
  · exact takeLine_holds hline h

/-- **Any lines.** What is open at the end, and why a run fails. -/
theorem pushAll_holds {lines : List Line} (hlines : ∀ line ∈ lines, line.Measured)
    (h : b.Holds limits n k) :
    (b.pushAll lines).Holds limits (n + Text.openers (lines.flatMap Line.raw))
      (k + (lines.flatMap Line.raw).length) := by
  induction lines generalizing n k b with
  | nil => exact h.done
  | cons line lines ih =>
    have hrest : ∀ l ∈ lines, l.Measured := fun l hl => hlines l (List.mem_cons_of_mem _ hl)
    rw [pushAll_cons, List.flatMap_cons, Text.openers_append, List.length_append]
    refine (push_holds (hlines line List.mem_cons_self) h).andThen (by omega) (by omega)
      fun c hc => ?_
    exact (ih hrest hc).mono (by omega) (by omega)

end Builder

/-! ### Other limits -/

/-- The same state under other limits. -/
def Builder.under (limits : Limits) (b : Builder) : Builder := { b with limits }

/-- The same outcome under other limits. -/
def Attempt.under (limits : Limits) (a : Attempt) : Attempt :=
  { a with builder := a.builder.under limits }

theorem Attempt.andThen_under {limits : Limits} {a : Attempt} {next : Builder → Attempt}
    (hnext : a.failure = none →
      next (a.builder.under limits) = (next a.builder).under limits) :
    (a.under limits).andThen next = (a.andThen next).under limits := by
  cases hf : a.failure with
  | none =>
    have hf' : (a.under limits).failure = none := hf
    rw [andThen_of_ok hf, andThen_of_ok hf']
    exact hnext hf
  | some e =>
    have hf' : (a.under limits).failure = some e := hf
    rw [andThen_of_error hf, andThen_of_error hf']

namespace Builder

section Under

variable {limits deeper : Limits} {n k : Nat} {b : Builder}

/-- Running text with no more openers than the lower limit is read alike. -/
theorem readInline_under (h : b.Holds limits n k) (hroom : n ≤ limits.maxNesting)
    (hle : limits.maxNesting ≤ deeper.maxNesting) {text : List Char}
    {next : List Inline → Builder → Builder} (htext : Text.openers text ≤ n)
    (hnext : ∀ nodes c, next nodes (c.under deeper) = (next nodes c).under deeper) :
    (b.under deeper).readInline text next = (b.readInline text next).under deeper := by
  obtain ⟨dropped, nodes, hread⟩ := Inline.read_eq text
  have hlow : Inline.read b.limits text = ⟨dropped, .ok nodes⟩ := by
    rw [h.limits]
    exact hread limits (by omega)
  have hhigh : Inline.read (b.under deeper).limits text = ⟨dropped, .ok nodes⟩ :=
    hread deeper (by omega)
  unfold Builder.readInline
  simp only [hlow, hhigh]
  exact congrArg Attempt.done (hnext nodes (b.noteDropped ⟨dropped, .ok nodes⟩))

theorem flush_under (h : b.Holds limits n k) (hroom : n ≤ limits.maxNesting)
    (hle : limits.maxNesting ≤ deeper.maxNesting) :
    (b.under deeper).flush = b.flush.under deeper := by
  have hrest : Holds limits n k { b with leaf := .none } := ⟨h.limits, Nat.zero_le _, h.lists⟩
  have hleaf := h.leaf
  obtain ⟨limits₀, path, lists, leaf, events⟩ := b
  cases leaf with
  | none => rfl
  | paragraph lines =>
    exact readInline_under hrest hroom hle (openers_joinLines_reverse_le hleaf) fun _ _ => rfl
  | item list depth lines =>
    exact readInline_under hrest hroom hle (openers_joinLines_reverse_le hleaf) fun _ _ => rfl
  | code fence length indent language lines => rfl

theorem flushAll_under (h : b.Holds limits n k) (hroom : n ≤ limits.maxNesting)
    (hle : limits.maxNesting ≤ deeper.maxNesting) :
    (b.under deeper).flushAll = b.flushAll.under deeper := by
  unfold flushAll
  rw [flush_under h hroom hle]
  exact Attempt.andThen_under fun _ => rfl

/-- A marker that is not refused opens the same item under a higher limit. -/
theorem openItem_under (hle : b.limits.maxNesting ≤ deeper.maxNesting) {fuel indent : Nat}
    {marker : Marker} (hf : (b.openItem fuel indent marker).failure = none) :
    (b.under deeper).openItem fuel indent marker =
      (b.openItem fuel indent marker).under deeper := by
  induction fuel generalizing indent marker b with
  | zero => rfl
  | succ fuel ih =>
    rw [openItem_succ rfl] at hf ⊢
    rw [openItem_succ rfl]
    by_cases hmax : b.limits.maxNesting ≤ (b.lists.unwind indent).length
    · rw [if_pos hmax] at hf
      exact absurd hf (by simp [refuse])
    · have hmax' : ¬ (b.under deeper).limits.maxNesting ≤
          ((b.under deeper).lists.unwind indent).length := by
        simp only [under]
        omega
      rw [if_neg hmax] at hf ⊢
      rw [if_neg hmax']
      cases hinner : innerMarker? marker.content with
      | none => rfl
      | some inner =>
        simp only [hinner] at hf
        exact ih (b := emit _ { b with lists := b.lists.place indent marker.width }) hle hf

variable {line : Line}

theorem enterQuotes_under (h : b.Holds limits n k) (hroom : n ≤ limits.maxNesting)
    (hle : limits.maxNesting ≤ deeper.maxNesting) (hf : (b.enterQuotes line).failure = none) :
    (b.under deeper).enterQuotes line = (b.enterQuotes line).under deeper := by
  unfold enterQuotes at hf ⊢
  by_cases hmax : b.limits.maxNesting < line.quoteDepth
  · rw [if_pos hmax] at hf
    exact absurd hf (by simp [refuse])
  · have hmax' : ¬ (b.under deeper).limits.maxNesting < line.quoteDepth := by
      rw [h.limits] at hmax
      simp only [under]
      omega
    rw [if_neg hmax, if_neg hmax']
    by_cases hsame : line.quoteDepth = b.path.depth
    · rw [if_pos hsame]
      exact if_pos hsame
    · have hsame' : ¬ line.quoteDepth = (b.under deeper).path.depth := hsame
      rw [if_neg hsame, if_neg hsame', flushAll_under h hroom hle]
      exact Attempt.andThen_under fun _ => rfl

theorem extendText_under (b : Builder) (text : List Char) :
    (b.under deeper).extendText text = (b.extendText text).under deeper := by
  obtain ⟨limits₀, path, lists, leaf, events⟩ := b
  cases leaf <;> rfl

theorem takeKind_under (hline : line.Measured) (h : b.Holds limits n k)
    (hroom : n + Text.openers line.raw ≤ limits.maxNesting)
    (hle : limits.maxNesting ≤ deeper.maxNesting) (hf : (b.takeKind line).failure = none) :
    (b.under deeper).takeKind line = (b.takeKind line).under deeper := by
  have hcontent := Text.openers_le_of_sublist hline.content
  have hclosed : (b.under deeper).flushAll = b.flushAll.under deeper :=
    flushAll_under h (by omega) hle
  unfold takeKind at hf ⊢
  cases hkind : line.kind with
  | blank => exact hclosed
  | fence fence =>
    simp only
    rw [hclosed]
    exact Attempt.andThen_under fun _ => rfl
  | heading heading =>
    simp only [hkind, LineKind.content] at hcontent
    have hholds := ((flushAll_holds h).mono (show n ≤ n + Text.openers line.raw by omega)
      (Nat.le_refl k)).builder
    simp only
    rw [hclosed]
    exact Attempt.andThen_under fun _ => readInline_under hholds hroom hle (by omega) fun _ _ => rfl
  | rule =>
    simp only
    rw [hclosed]
    exact Attempt.andThen_under fun _ => rfl
  | marker marker =>
    have hlimits := (flush_holds h).builder.limits
    simp only [hkind] at hf ⊢
    rw [flush_under h (by omega) hle]
    refine Attempt.andThen_under fun hflush => ?_
    rw [Attempt.andThen_of_ok hflush] at hf
    exact openItem_under (by rw [hlimits]; exact hle) hf
  | text text => exact congrArg Attempt.done (extendText_under b text)

theorem takeLine_under (hline : line.Measured) (h : b.Holds limits n k)
    (hroom : n + Text.openers line.raw ≤ limits.maxNesting)
    (hle : limits.maxNesting ≤ deeper.maxNesting) (hf : (b.takeLine line).failure = none) :
    (b.under deeper).takeLine line = (b.takeLine line).under deeper := by
  obtain ⟨hquotes, -, htake⟩ := Attempt.of_andThen hf
  have hbuilder := (enterQuotes_holds hline h).2
  unfold takeLine
  rw [enterQuotes_under h (by omega) hle hquotes]
  exact Attempt.andThen_under fun _ => takeKind_under hline hbuilder hroom hle htake

/-- **One line.** A line that is taken under the lower limit is taken alike under the
higher. -/
theorem push_under (hline : line.Measured) (h : b.Holds limits n k)
    (hroom : n + Text.openers line.raw ≤ limits.maxNesting)
    (hle : limits.maxNesting ≤ deeper.maxNesting) (hf : (b.push line).failure = none) :
    (b.under deeper).push line = (b.push line).under deeper := by
  have hflush : (b.under deeper).flush = b.flush.under deeper := flush_under h (by omega) hle
  have hholds := (flush_holds h).builder
  have hleaf : (b.under deeper).leaf = b.leaf := rfl
  unfold push at hf ⊢
  rw [hleaf]
  split at hf
  · rename_i kind length indent language lines hcode
    simp only at hf ⊢
    by_cases hdeep : b.path.depth ≤ line.quoteDepth
    · have hdeep' : (b.under deeper).path.depth ≤ line.quoteDepth := hdeep
      rw [if_pos hdeep, if_pos hdeep']
      by_cases hcloses : closesCode kind length (b.unquote line) = true
      · have hcloses' : closesCode kind length ((b.under deeper).unquote line) = true := hcloses
        rw [if_pos hcloses, if_pos hcloses']
        exact hflush
      · have hcloses' : ¬ closesCode kind length ((b.under deeper).unquote line) = true := hcloses
        rw [if_neg hcloses, if_neg hcloses']
        rfl
    · have hdeep' : ¬ (b.under deeper).path.depth ≤ line.quoteDepth := hdeep
      rw [if_neg hdeep] at hf ⊢
      rw [if_neg hdeep', hflush]
      exact Attempt.andThen_under fun _ =>
        takeLine_under hline hholds hroom hle (Attempt.of_andThen hf).2.2
  · exact takeLine_under hline h hroom hle hf

/-- **Any lines.** A run that succeeds under the lower limit is the run under the higher. -/
theorem pushAll_under {lines : List Line} (hlines : ∀ line ∈ lines, line.Measured)
    (h : b.Holds limits n k)
    (hroom : n + Text.openers (lines.flatMap Line.raw) ≤ limits.maxNesting)
    (hle : limits.maxNesting ≤ deeper.maxNesting) (hf : (b.pushAll lines).failure = none) :
    (b.under deeper).pushAll lines = (b.pushAll lines).under deeper := by
  induction lines generalizing n k b with
  | nil => rfl
  | cons line lines ih =>
    have hline := hlines line List.mem_cons_self
    have hrest : ∀ l ∈ lines, l.Measured := fun l hl => hlines l (List.mem_cons_of_mem _ hl)
    rw [List.flatMap_cons, Text.openers_append] at hroom
    rw [pushAll_cons] at hf ⊢
    obtain ⟨hfirst, -, hnext⟩ := Attempt.of_andThen hf
    have hholds := (push_holds hline h).builder
    rw [pushAll_cons, push_under hline h (by omega) hle hfirst]
    exact Attempt.andThen_under fun _ => ih hrest hholds (by omega) hnext

end Under
end Builder

/-! ### Whole texts -/

namespace Document

/-- All that is done with the lines of a text. -/
def run (limits : Limits) (input : String) : Attempt :=
  (Builder.pushAll (Line.ofText input.toList) { limits }).andThen Builder.finish

/-- What a text holds is bounded by its characters, and so is what a run on it can meet. -/
theorem run_holds (limits : Limits) (input : String) :
    (run limits input).Holds limits (Text.openers input.toList) input.toList.length := by
  have hsub := Line.flatMap_raw_sublist input.toList
  have hstart : Builder.Holds limits 0 0 { limits } := ⟨rfl, Nat.le_refl 0, Nat.le_refl 0⟩
  have hrun := Builder.pushAll_holds (Line.measured_ofText input.toList) hstart
  have hopeners := Text.openers_le_of_sublist hsub
  have hlength := hsub.length_le
  unfold run
  refine hrun.andThen (by omega) (by omega) fun c hc => ?_
  exact (Builder.flush_holds hc).mono (by omega) (by omega)

/-- A run that succeeds under the lower limit is the run under the higher, if there are no
more openers than the lower limit. -/
theorem run_under {limits deeper : Limits} {input : String}
    (hroom : Text.openers input.toList ≤ limits.maxNesting)
    (hle : limits.maxNesting ≤ deeper.maxNesting) (hf : (run limits input).failure = none) :
    run deeper input = (run limits input).under deeper := by
  have hstart : Builder.Holds limits 0 0 { limits } := ⟨rfl, Nat.le_refl 0, Nat.le_refl 0⟩
  have hmeasured := Line.measured_ofText input.toList
  have hopeners := Text.openers_le_of_sublist (Line.flatMap_raw_sublist input.toList)
  have hholds := (Builder.pushAll_holds hmeasured hstart).builder
  obtain ⟨hpush, -, -⟩ := Attempt.of_andThen hf
  unfold run
  have hlines : Builder.pushAll (Line.ofText input.toList) { limits := deeper } =
      (Builder.pushAll (Line.ofText input.toList) { limits }).under deeper :=
    Builder.pushAll_under hmeasured hstart (by omega) hle hpush
  rw [hlines]
  exact Attempt.andThen_under fun _ => Builder.flush_under hholds (by omega) hle

theorem parse_tooLarge {limits : Limits} {input : String}
    (h : limits.maxInputBytes < input.utf8ByteSize) :
    Document.parse limits input = .error (.tooLarge input.utf8ByteSize limits.maxInputBytes) := by
  unfold Document.parse Document.read
  simp only [Limits.refusal?, if_pos h]

/-- **Malformed Markdown is never an error.** A text is refused for its size just if it is
larger than the limits say. Any other text is read, or nests too deep; and it is read if the
nesting limit is not below its size either. -/
theorem parse_total (limits : Limits) (input : String) :
    (Document.parse limits input =
        .error (.tooLarge input.utf8ByteSize limits.maxInputBytes) ↔
      limits.maxInputBytes < input.utf8ByteSize) ∧
    (input.utf8ByteSize ≤ limits.maxInputBytes →
      (∃ doc, Document.parse limits input = .ok doc) ∨
        Document.parse limits input = .error (.tooDeep limits.maxNesting)) ∧
    (input.utf8ByteSize ≤ limits.maxInputBytes → input.utf8ByteSize ≤ limits.maxNesting →
      ∃ doc, Document.parse limits input = .ok doc) := by
  have hholds := run_holds limits input
  -- a run fails by the nesting limit, and then the limit is below the size
  have hrun : input.utf8ByteSize ≤ limits.maxInputBytes →
      (∃ doc, Document.parse limits input = .ok doc) ∨
        Document.parse limits input = .error (.tooDeep limits.maxNesting) ∧
          limits.maxNesting < input.utf8ByteSize := by
    intro hsize
    rw [Document.parse_eq hsize]
    cases hf : (run limits input).failure with
    | none => exact .inl ⟨_, Attempt.result_of_ok hf⟩
    | some e =>
      obtain ⟨rfl, hcause⟩ := hholds.failure e hf
      have hopeners := Text.openers_le_length input.toList
      have hlength := Text.length_le_utf8ByteSize input
      exact .inr ⟨Attempt.result_of_error hf, by omega⟩
  refine ⟨⟨fun herror => ?_, Document.parse_tooLarge⟩, fun hsize => ?_, fun hsize hdeep => ?_⟩
  · by_contra hsize
    rcases hrun (by omega) with ⟨doc, hok⟩ | ⟨hdeep, -⟩
    · rw [hok] at herror
      exact absurd herror (by simp)
    · rw [hdeep] at herror
      exact absurd herror (by simp)
  · rcases hrun hsize with hok | ⟨herror, -⟩
    · exact .inl hok
    · exact .inr herror
  · rcases hrun hsize with hok | ⟨-, hlt⟩
    · exact hok
    · omega

/-- A text that is too large, one that nests too deep, and one that has to be read whatever
it says. -/
theorem parse_total_limits :
    Document.parse ⟨3, 9⟩ "****" = .error (.tooLarge 4 3) ∧
      Document.parse ⟨9, 1⟩ ">>" = .error (.tooDeep 1) ∧
      ∃ doc, Document.parse ⟨9, 9⟩ "> [*](`_" = .ok doc := by
  refine ⟨(parse_total ⟨3, 9⟩ "****").1.mpr (by decide), by cbv, ?_⟩
  exact (parse_total ⟨9, 9⟩ "> [*](`_").2.2 (by decide) (by decide)

/-- **The nesting limit only refuses.** A text with no more openers than the limit is refused,
or is read as under any higher limit. -/
theorem parse_deeper {limits : Limits} {input : String} {deeper : Nat}
    (hopeners : input.toList.countP (fun c => c == '*' || c == '_' || c == '[') ≤
      limits.maxNesting)
    (hle : limits.maxNesting ≤ deeper) :
    Document.parse limits input = .error (.tooDeep limits.maxNesting) ∨
      Document.parse limits input = Document.parse { limits with maxNesting := deeper } input := by
  obtain ⟨higher, hhigher⟩ : ∃ higher : Limits, higher = { limits with maxNesting := deeper } :=
    ⟨_, rfl⟩
  have hbytes : higher.maxInputBytes = limits.maxInputBytes := by rw [hhigher]
  have hdepth : limits.maxNesting ≤ higher.maxNesting := by rw [hhigher]; exact hle
  have hholds := run_holds limits input
  rw [← hhigher]
  by_cases hsize : input.utf8ByteSize ≤ limits.maxInputBytes
  · have hsize' : input.utf8ByteSize ≤ higher.maxInputBytes := by rw [hbytes]; exact hsize
    rw [Document.parse_eq hsize, Document.parse_eq hsize']
    cases hf : (run limits input).failure with
    | some e =>
      obtain ⟨rfl, -⟩ := hholds.failure e hf
      exact .inl (Attempt.result_of_error hf)
    | none =>
      have hsame : run higher input = (run limits input).under higher :=
        run_under hopeners hdepth hf
      refine .inr ?_
      show (run limits input).conclude.result = (run higher input).conclude.result
      rw [hsame]
      rfl
  · have hlarge : higher.maxInputBytes < input.utf8ByteSize := by omega
    rw [parse_tooLarge (by omega), parse_tooLarge hlarge, hbytes]
    exact .inr rfl

/-- A list in a list fits two levels, and is read alike with more room; a third quote does
not fit. -/
theorem parse_deeper_nested :
    Document.parse ⟨99, 7⟩ "- - *a*\n> 1. b" =
        .ok [.item (.bullet '-') 0 [], .item (.bullet '-') 1 [.emphasis [.text "a"]],
          .quote [.item (.ordered 1 '.') 0 [.text "b"]]] ∧
      Document.parse ⟨99, 2⟩ "> > > *a*" = .error (.tooDeep 2) := by
  have hparse : Document.parse ⟨99, 2⟩ "- - *a*\n> 1. b" =
      .ok [.item (.bullet '-') 0 [], .item (.bullet '-') 1 [.emphasis [.text "a"]],
        .quote [.item (.ordered 1 '.') 0 [.text "b"]]] := by cbv
  have hdeeper : Document.parse ⟨99, 2⟩ "- - *a*\n> 1. b" = .error (.tooDeep 2) ∨
      Document.parse ⟨99, 2⟩ "- - *a*\n> 1. b" = Document.parse ⟨99, 7⟩ "- - *a*\n> 1. b" :=
    parse_deeper (by decide) (by decide)
  refine ⟨?_, by cbv⟩
  rcases hdeeper with herror | hsame
  · rw [hparse] at herror
    exact absurd herror (by simp)
  · rw [← hsame, hparse]

end Document
end MarkdownHtml
