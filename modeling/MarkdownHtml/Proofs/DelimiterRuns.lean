/-
# Two runs around a word

A run of `k` delimiters, a word and a run of `m` of the same delimiters. The first run opens a
frame and the word collects in it. The second run closes: while both runs have delimiters left
it takes two of each for strong emphasis, or one of each for emphasis if one of them has no
second (`State.closeMany_holding`). So the shorter run decides, with `n = min k m`: the word
stands in `n / 2` strong nodes and, if `n` is odd, in emphasis around them
(`Inline.wrapped`), and what is left of the longer run is text on its side
(`Inline.parse_runs`). Every node counts against the limit, and the first that is too deep is
the error.

Key definitions: `Inline.wrapped`, `Inline.leftOver`, `State.holding`, `State.holds`.
Key theorems: `State.closeMany_holding`, `Token.Tiles.run_cons`, `InlineParser.run_words`,
`Inline.parse_runs`.
-/
import MarkdownHtml.Proofs.Counters
import MarkdownHtml.Proofs.PlainText
import MarkdownHtml.Proofs.Steps

namespace MarkdownHtml

/-! ### Nodes around a node -/

namespace Inline

/-- The node that `n` delimiters on each side make of a node: strong emphasis from the inside
out for each two of them, and emphasis outermost for an odd one. -/
def wrapped (n : Nat) (node : Inline) : Inline :=
  let inner := (fun node => Inline.strong [node])^[n / 2] node
  if n % 2 = 1 then .emphasis [inner] else inner

/-- The text of `n` delimiters that found no partner: no node if there are none. -/
def leftOver (mark : Delimiter) (n : Nat) : List Inline :=
  if n = 0 then [] else [.text (String.ofList (List.replicate n mark.char))]

theorem wrapped_one (node : Inline) : wrapped 1 node = .emphasis [node] := rfl

/-- Two delimiters are used up first, next to the node. -/
theorem wrapped_add_two (n : Nat) (node : Inline) :
    wrapped (n + 2) node = wrapped n (.strong [node]) := by
  have hhalf : (n + 2) / 2 = n / 2 + 1 := by omega
  have hodd : (n + 2) % 2 = n % 2 := by omega
  simp only [wrapped, hhalf, hodd, Function.iterate_succ_apply]

/-- Delimiters make a node that is no text. -/
theorem isText_wrapped {n : Nat} (h : 1 ≤ n) (node : Inline) : (wrapped n node).isText = false := by
  unfold wrapped
  by_cases hodd : n % 2 = 1
  · simp only [hodd, if_true]
    rfl
  · obtain ⟨half, hhalf⟩ : ∃ half, n / 2 = half + 1 := ⟨n / 2 - 1, by omega⟩
    simp only [hodd, if_false, hhalf, Function.iterate_succ_apply']
    rfl

end Inline

/-! ### The closing loop -/

namespace InlineParser
namespace State

/-- A run of `available` delimiters is open, and nothing is read behind it. -/
def opening (mark : Delimiter) (available : Nat) : State :=
  { stack := [⟨.emphasis mark available, {}⟩], unclosed := ({} : Counts).increment mark }

/-- One run of `mark` is open, with `available` delimiters to match, and has collected just
one node. -/
def holding (mark : Delimiter) (available : Nat) (node : Inline) (depth : Nat) : State :=
  { stack := [⟨.emphasis mark available, ⟨[node], depth⟩⟩]
    unclosed := ({} : Counts).increment mark }

/-- No run is open, and one node is read. -/
def holds (node : Inline) (depth : Nat) : State := { root := ⟨[node], depth⟩ }

/-- What is behind `n` matches on each side. -/
def afterRuns (mark : Delimiter) (available n : Nat) (node : Inline) (depth : Nat) : State :=
  if available = n then holds (Inline.wrapped n node) (depth + (n + 1) / 2)
  else holding mark (available - n) (Inline.wrapped n node) (depth + (n + 1) / 2)

theorem afterRuns_zero (mark : Delimiter) {available : Nat} (h : 1 ≤ available) (node : Inline)
    (depth : Nat) : afterRuns mark available 0 node depth = holding mark available node depth := by
  rw [afterRuns, if_neg (by omega)]
  rfl

theorem closeMany_zero (limit : Nat) (mark : Delimiter) (fuel : Nat) (st : State) :
    closeMany limit mark fuel 0 st = .ok (0, st) := by
  cases fuel with
  | zero => rfl
  | succ fuel =>
    rw [closeMany, closeNext, if_pos (.inl rfl)]
    rfl

/-- No run is open to match. -/
theorem closeMany_holds (limit : Nat) (mark : Delimiter) (fuel count : Nat) (node : Inline)
    (depth : Nat) :
    closeMany limit mark fuel count (holds node depth) = .ok (count, holds node depth) := by
  have hnone : (holds node depth).unclosed.get mark = 0 := by cases mark <;> rfl
  cases fuel with
  | zero => rfl
  | succ fuel =>
    rw [closeMany, closeNext, if_pos (.inr hnone)]
    rfl

/-- **One match.** One or two of the delimiters on each side are used, unless the node they make
is too deep. -/
theorem closeNext_holding (limit : Nat) (mark : Delimiter) {count available : Nat}
    (hcount : 1 ≤ count) (node : Inline) (depth : Nat) {used : Nat}
    (hused : used = if 2 ≤ count ∧ 2 ≤ available then 2 else 1) :
    (holding mark available node depth).closeNext limit mark count =
      if limit < depth + 1 then .error ⟨0⟩
      else if available = used then .ok (used, holds (emphasisNode used [node]) (depth + 1))
      else .ok (used, holding mark (available - used) (emphasisNode used [node]) (depth + 1)) := by
  have hopen : ¬ (count = 0 ∨ (holding mark available node depth).unclosed.get mark = 0) := by
    rintro (hzero | hzero)
    · omega
    · rw [holding, Counts.get_increment_self] at hzero
      omega
  have htop : (holding mark available node depth).unwindTo mark =
      holding mark available node depth := by
    simp [unwindTo, holding, unwind]
  rw [closeNext, if_neg hopen, htop]
  simp only [holding, ← hused, closeOnce]
  by_cases hdeep : limit < depth + 1
  · simp only [hdeep, if_true]
  · simp only [hdeep, if_false]
    by_cases hdone : available = used
    · simp only [hdone, if_true, Counts.decrement_increment]
      rfl
    · simp only [hdone, if_false]
      rfl

/-- What one match leaves to be matched, and what its node adds. -/
theorem wrapped_of_match {count available used : Nat} (hcount : 1 ≤ count)
    (havailable : 1 ≤ available)
    (hused : used = if 2 ≤ count ∧ 2 ≤ available then 2 else 1) (node : Inline) :
    1 ≤ used ∧ used ≤ min available count ∧
      Inline.wrapped (min available count) node =
        Inline.wrapped (min available count - used) (emphasisNode used [node]) ∧
      (min available count + 1) / 2 = (min available count - used + 1) / 2 + 1 := by
  by_cases htwo : 2 ≤ count ∧ 2 ≤ available
  · rw [if_pos htwo] at hused
    subst hused
    obtain ⟨n, hn⟩ : ∃ n, min available count = n + 2 := ⟨min available count - 2, by omega⟩
    refine ⟨by omega, by omega, ?_, by omega⟩
    rw [hn, Inline.wrapped_add_two]
    rfl
  · -- one of the runs is down to one delimiter
    rw [if_neg htwo] at hused
    subst hused
    have hn : min available count = 1 := by omega
    refine ⟨by omega, by omega, ?_, by omega⟩
    rw [hn, Inline.wrapped_one]
    rfl

/-- **The loop.** What is matched is the shorter of the two runs. -/
theorem closeMany_holding (limit : Nat) (mark : Delimiter) {fuel count available : Nat}
    (hfuel : count ≤ fuel) (havailable : 1 ≤ available) (node : Inline) {depth : Nat}
    (hdepth : depth ≤ limit) :
    closeMany limit mark fuel count (holding mark available node depth) =
      if limit < depth + (min available count + 1) / 2 then .error ⟨0⟩
      else .ok (count - min available count,
        afterRuns mark available (min available count) node depth) := by
  induction fuel generalizing count available node depth with
  | zero =>
    obtain rfl : count = 0 := by omega
    rw [Nat.min_zero, if_neg (by omega), afterRuns_zero mark havailable]
    rfl
  | succ fuel ih =>
    by_cases hcount : count = 0
    · subst hcount
      rw [Nat.min_zero, if_neg (by omega), afterRuns_zero mark havailable, closeMany_zero]
    · obtain ⟨used, hused⟩ : ∃ used, used = if 2 ≤ count ∧ 2 ≤ available then 2 else 1 := ⟨_, rfl⟩
      obtain ⟨hone, hle, hwrapped, hhalf⟩ :=
        wrapped_of_match (by omega) havailable hused node
      rw [closeMany, closeNext_holding limit mark (by omega) node depth hused]
      by_cases hdeep : limit < depth + 1
      · rw [if_pos hdeep, if_pos (by omega)]
      · rw [if_neg hdeep]
        obtain ⟨more, hmore⟩ : ∃ more, used = more + 1 := ⟨used - 1, by omega⟩
        by_cases hdone : available = used
        · -- the frame is done, and what is left of the closing run has no partner
          have hmin : min available count = used := by omega
          have hnode : Inline.wrapped used node = emphasisNode used [node] := by
            rw [hmin, Nat.sub_self] at hwrapped
            exact hwrapped
          have hlevel : (used + 1) / 2 = 1 := by
            rw [hmin, Nat.sub_self] at hhalf
            exact hhalf
          rw [if_pos hdone, hmin, hlevel, if_neg (by omega), afterRuns, if_pos hdone, hnode,
            hlevel]
          subst hmore
          exact closeMany_holds limit mark fuel _ _ _
        · have hmin : min (available - used) (count - used) = min available count - used := by
            omega
          have hfuel' : count - used ≤ fuel := by omega
          have havailable' : 1 ≤ available - used := by omega
          have hdepth' : depth + 1 ≤ limit := by omega
          have hrest := ih hfuel' havailable' (emphasisNode used [node]) hdepth'
          have hstate : afterRuns mark (available - used) (min available count - used)
              (emphasisNode used [node]) (depth + 1) =
                afterRuns mark available (min available count) node depth := by
            have hsame : available - used = min available count - used ↔
                available = min available count := by omega
            have hleft : available - used - (min available count - used) =
                available - min available count := by omega
            simp only [afterRuns, hsame, hleft, ← hwrapped, hhalf, Nat.add_assoc, Nat.add_comm 1]
          have hcounts : count - used - (min available count - used) =
              count - min available count := by omega
          rw [hmin, hstate, hcounts, Nat.add_assoc, Nat.add_comm 1, ← hhalf] at hrest
          rw [if_neg hdone, ← hrest]
          subst hmore
          rfl

end State
end InlineParser

/-! ### The tokens of runs and words -/

/-- A run in front of another character is one token. -/
theorem Token.Tiles.run_cons {start : Nat} {before : Option Char} {mark : Delimiter} {n : Nat}
    {rest : List Char} {ts : List Token} (hn : 1 ≤ n) (hrest : rest.head? ≠ some mark.char)
    (h : Tiles start before (List.replicate n mark.char ++ rest) ts) :
    ∃ t us, ts = t :: us ∧ t.delimiter? = some mark ∧
      t.lexeme = List.replicate n mark.char ∧ t.start = start ∧ t.before = before ∧
      t.after = rest ∧ Tiles t.stop (some mark.char) rest us := by
  obtain ⟨j, rfl⟩ : ∃ j, n = j + 1 := ⟨n - 1, by omega⟩
  have hcount : countWhile (· == mark.char) (List.replicate j mark.char ++ rest) = j := by
    have hstop : ∀ c ∈ rest.head?, (c == mark.char) = false := by
      intro c hc
      by_contra heq
      apply hrest
      rw [← eq_of_beq (Bool.of_not_eq_false heq)]
      exact hc
    rw [countWhile_append hstop, countWhile, List.takeWhile_replicate]
    simp
  have hscan : ∃ kind, scan mark.char (List.replicate j mark.char ++ rest) = (kind, j) ∧
      ∀ lexeme start before after, (⟨kind, lexeme, start, before, after⟩ : Token).delimiter? =
        some mark := by
    cases mark with
    | star => exact ⟨.stars, congrArg _ hcount, fun _ _ _ _ => rfl⟩
    | underscore => exact ⟨.underscores, congrArg _ hcount, fun _ _ _ _ => rfl⟩
  obtain ⟨kind, hscan, hkind⟩ := hscan
  have hfront : front start before mark.char (List.replicate j mark.char ++ rest) =
      ⟨kind, List.replicate (j + 1) mark.char, start, before, rest⟩ := by
    rw [front, hscan]
    simp [List.replicate_succ]
  rw [List.replicate_succ, List.cons_append] at h
  cases h with
  | cons h =>
    rw [hfront] at h ⊢
    have hlast : (List.replicate (j + 1) mark.char).getLast? = some mark.char := by
      rw [List.getLast?_replicate, if_neg (by omega)]
    rw [hlast] at h
    exact ⟨_, _, rfl, hkind _ _ _ _, rfl, rfl, rfl, rfl, h⟩

/-- Text behind text is one text. -/
theorem Content.pushText_pushText (s t : String) (c : Content) :
    (c.pushText s).pushText t = c.pushText (s ++ t) := by
  by_cases hs : s = ""
  · subst hs
    rw [String.empty_append]
    rfl
  · by_cases ht : t = ""
    · subst ht
      rw [String.append_empty]
      rfl
    · have hs' : s.isEmpty = false := by simpa using hs
      have ht' : t.isEmpty = false := by simpa using ht
      have hst : (s ++ t).isEmpty = false := by simp [hs]
      obtain ⟨_ | ⟨n, ns⟩, depth⟩ := c
      · simp [pushText, hs', ht', hst]
      · cases n with
        | text u => simp [pushText, hs', ht', hst, String.append_assoc]
        | _ => simp [pushText, hs', ht', hst]

namespace InlineParser
namespace State

theorem pushText_pushText (s t : String) (st : State) :
    (st.pushText s).pushText t = st.pushText (s ++ t) := by
  obtain ⟨root, _ | ⟨⟨opener, content⟩, below⟩, unclosed, dropped⟩ := st <;>
    simp only [pushText, onTop, Content.pushText_pushText]

/-- A literal token that is no bracket is text in whatever is open. -/
theorem step_word {t : Token} (h : t.isLiteral = true) (hbracket : t.kind ≠ .rightBracket)
    (limit index : Nat) (closer : Option Nat) (rest : List Token) (st : State) :
    st.step limit t index closer rest =
      .ok (0, st.pushText (String.ofList (Atom.token t).literal)) := by
  unfold Token.isLiteral at h
  unfold step
  cases hk : t.kind with
  | backticks | stars | underscores | imageOpen | leftBracket | hardBreak =>
    rw [hk] at h
    exact absurd h (by simp)
  | rightBracket => exact absurd hk hbracket
  | leftParen | rightParen | blank | text =>
    simp only [Atom.literal, hk]
    rfl
  | escape => simp only [Atom.literal, hk]
  | softBreak => simp only [Atom.literal, hk]

/-- A run of delimiters is all its token is. -/
theorem step_run {t : Token} {mark : Delimiter} (h : t.delimiter? = some mark)
    (limit index : Nat) (closer : Option Nat) (rest : List Token) (st : State) :
    st.step limit t index closer rest =
      (st.delimiterRun limit mark (t.flanking mark) t.lexeme.length).map fun st => (0, st) := by
  unfold Token.delimiter? at h
  unfold step
  split at h
  · rename_i hk
    obtain rfl : Delimiter.star = mark := by simpa using h
    simp only [hk]
    rfl
  · rename_i hk
    obtain rfl : Delimiter.underscore = mark := by simpa using h
    simp only [hk]
    rfl
  · exact absurd h (by simp)

end State

/-- **Words.** Literal tokens that are no brackets lengthen the text of whatever is open. -/
theorem run_words (limit index : Nat) {start : Nat} {before : Option Char} {text : List Char}
    {us vs : List Token} (ht : Token.Tiles start before text (us ++ vs))
    (h : ∀ t ∈ us, t.isLiteral = true ∧ t.kind ≠ .rightBracket) (st : State) :
    run limit index start st (us ++ vs) (CodeSpan.closersFrom index (us ++ vs)) =
      run limit (index + us.length) (start + Text.byteLength (us.flatMap Token.lexeme))
        (st.pushText (String.ofList (Token.literalText us))) vs
        (CodeSpan.closersFrom (index + us.length) vs) := by
  induction us generalizing index start before text st with
  | nil =>
    have hsame : st.pushText (String.ofList (Token.literalText [])) = st := by
      obtain ⟨root, _ | ⟨⟨opener, content⟩, below⟩, unclosed, dropped⟩ := st <;> rfl
    rw [hsame]
    rfl
  | cons t us ih =>
    obtain ⟨hliteral, hbracket⟩ := h t List.mem_cons_self
    have hstart : ¬ t.start < start := by
      rw [ht.start_head]
      exact Nat.lt_irrefl start
    have hrest := ih (index + 1) ht.tail (fun u hu => h u (List.mem_cons_of_mem _ hu))
      (st.pushText (String.ofList (Atom.token t).literal))
    have hsaid : String.ofList (Token.literalText (t :: us)) =
        String.ofList (Atom.token t).literal ++ String.ofList (Token.literalText us) := by
      rw [← String.ofList_append]
      rfl
    have hstop : t.stop + Text.byteLength (us.flatMap Token.lexeme) =
        start + Text.byteLength ((t :: us).flatMap Token.lexeme) := by
      rw [List.flatMap_cons, Text.byteLength_append, Token.stop, ht.start_head, Nat.add_assoc]
    have hindex : index + 1 + us.length = index + (t :: us).length := by
      rw [List.length_cons]
      omega
    rw [State.pushText_pushText, ← hsaid, hstop, hindex] at hrest
    rw [List.cons_append, CodeSpan.closersFrom, run, if_neg hstart,
      State.step_word hliteral hbracket]
    exact hrest

/-! ### Both runs -/

namespace State

theorem ofList_replicate_ne {n : Nat} (h : 1 ≤ n) (c : Char) :
    (String.ofList (List.replicate n c)).isEmpty = false := by
  obtain ⟨j, rfl⟩ : ∃ j, n = j + 1 := ⟨n - 1, by omega⟩
  rw [List.replicate_succ]
  exact ofList_cons_ne _ _

/-- The run in front of the word opens a frame. -/
theorem delimiterRun_first (limit : Nat) (mark : Delimiter) {n : Nat} (hn : 1 ≤ n) :
    ({} : State).delimiterRun limit mark ⟨true, false⟩ n = .ok (opening mark n) := by
  have hroom : ({} : State).reserve limit = {} := by
    rw [reserve, if_pos]
    exact Nat.lt_of_lt_of_le Nat.zero_lt_one (Nat.le_max_left 1 limit)
  rw [delimiterRun_eq]
  simp only [Bool.false_eq_true, if_false, if_true]
  rw [if_neg (by omega), openEmphasis, hroom]
  rfl

/-- The run behind the word closes what it can, and is text from there on. -/
theorem delimiterRun_last (limit : Nat) (mark : Delimiter) {available n : Nat}
    (havailable : 1 ≤ available) (node : Inline) :
    (holding mark available node 0).delimiterRun limit mark ⟨false, true⟩ n =
      if limit < (min available n + 1) / 2 then .error ⟨0⟩
      else .ok ((afterRuns mark available (min available n) node 0).pushText
        (String.ofList (List.replicate (n - min available n) mark.char))) := by
  have hclosed := closeMany_holding limit mark (Nat.le_refl n) havailable node (Nat.zero_le limit)
  rw [Nat.zero_add] at hclosed
  rw [delimiterRun_eq]
  simp only [if_true, closeEmphasis, hclosed]
  by_cases hdeep : limit < (min available n + 1) / 2
  · simp only [hdeep, if_true]
  · simp only [hdeep, if_false]
    by_cases hleft : n - min available n = 0
    · have hsame : ∀ st : State, st.pushText (String.ofList (List.replicate 0 mark.char)) = st := by
        rintro ⟨root, _ | ⟨⟨opener, content⟩, below⟩, unclosed, dropped⟩ <;> rfl
      simp only [hleft, if_true, hsame]
    · simp only [hleft, if_false, Bool.false_eq_true]

/-- One node, and text behind it. -/
theorem finish_holds {node : Inline} (hnode : node.isText = false) (depth : Nat)
    (mark : Delimiter) (n : Nat) :
    ((holds node depth).pushText (String.ofList (List.replicate n mark.char))).finish =
      node :: Inline.leftOver mark n := by
  by_cases hn : n = 0
  · subst hn
    rfl
  · have htext := ofList_replicate_ne (show 1 ≤ n by omega) mark.char
    rw [Inline.leftOver, if_neg hn]
    cases node with
    | text s => exact absurd hnode (by simp [Inline.isText])
    | _ => simp [finish, holds, pushText, onTop, Content.pushText, htext, collapseMany,
        Content.toList]

/-- An open run that is given up is text in front of what it has collected. -/
theorem finish_holding {node : Inline} (hnode : node.isText = false) (depth : Nat)
    (mark : Delimiter) {n : Nat} (hn : 1 ≤ n) :
    (holding mark n node depth).finish = Inline.leftOver mark n ++ [node] := by
  have htext := ofList_replicate_ne hn mark.char
  rw [Inline.leftOver, if_neg (by omega)]
  cases node with
  | text s => exact absurd hnode (by simp [Inline.isText])
  | _ => simp [finish, holding, onTop, Content.pushText, htext, collapseMany, collapse,
      Content.toList, Frame.flatten, Content.absorb, Content.addNode, Opener.literal]

/-- What the two runs leave. -/
theorem finish_afterRuns (mark : Delimiter) {k m : Nat} (hk : 1 ≤ k) (hm : 1 ≤ m)
    (node : Inline) :
    ((afterRuns mark k (min k m) node 0).pushText
      (String.ofList (List.replicate (m - min k m) mark.char))).finish =
      Inline.leftOver mark (k - min k m) ++ [Inline.wrapped (min k m) node] ++
        Inline.leftOver mark (m - min k m) := by
  have hnode := Inline.isText_wrapped (show 1 ≤ min k m by omega) node
  unfold afterRuns
  by_cases hshort : k = min k m
  · rw [if_pos hshort, finish_holds hnode, show k - min k m = 0 by omega]
    rfl
  · -- the first run is the longer one, so that nothing is left of the second
    have hnone : m - min k m = 0 := by omega
    have hfinish := finish_holding hnode (0 + (min k m + 1) / 2) mark
      (show 1 ≤ k - min k m by omega)
    rw [if_neg hshort, hnone]
    exact hfinish.trans (List.append_nil _).symm

end State
end InlineParser

/-- What a run may do in front of the word, and behind it. -/
theorem Flanking.between_word (mark : Delimiter) {c : Char} (h : Text.isWhite c = false) :
    between mark none (some c) = ⟨true, false⟩ ∧ between mark (some c) none = ⟨false, true⟩ := by
  cases mark with
  | star => simp [between, h]
  | underscore => simp [between, h]

/-- The word and the run behind it, with the frame of the first run open. -/
theorem InlineParser.run_word_run (limit index : Nat) {mark : Delimiter} {k m : Nat}
    (hk : 1 ≤ k) (hm : 1 ≤ m) {word : List Char} (hne : word ≠ [])
    (hlast : ∀ c ∈ word.getLast?, Text.isWhite c = false)
    (hclear : ∀ c ∈ word, c ∉ Text.markers ∧ c ≠ ']' ∧ c ≠ '\n') {start : Nat}
    {before : Option Char} {ts : List Token}
    (ht : Token.Tiles start before (word ++ List.replicate m mark.char) ts) :
    run limit index start (State.opening mark k) ts (CodeSpan.closersFrom index ts) =
      if limit < (min k m + 1) / 2 then .error ⟨0⟩
      else .ok ((State.afterRuns mark k (min k m) (.text (String.ofList word)) 0).pushText
        (String.ofList (List.replicate (m - min k m) mark.char))) := by
  have hunmarked : Text.Unmarked word :=
    Text.unmarked_of_clear fun c hc => ⟨(hclear c hc).1, (hclear c hc).2.2⟩
  have htail : ∀ d ∈ (List.replicate m mark.char).head?, d = '*' ∨ d = '_' := by
    intro d hd
    obtain rfl := List.eq_of_mem_replicate (List.mem_of_mem_head? hd)
    cases mark with
    | star => exact .inl rfl
    | underscore => exact .inr rfl
  obtain ⟨us, vs, rfl, hliteral, hlexemes, hsaid, hvs⟩ := ht.unmarked_append hunmarked htail
  have hwords : ∀ t ∈ us, t.isLiteral = true ∧ t.kind ≠ .rightBracket := by
    intro t htmem
    refine ⟨hliteral t htmem, fun hbracket => ?_⟩
    have hspelled := ht.spelled t (List.mem_append_left vs htmem)
    rw [hbracket] at hspelled
    have hmem : ']' ∈ us.flatMap Token.lexeme :=
      List.mem_flatMap.mpr ⟨t, htmem, by rw [show t.lexeme = [']'] from hspelled]; simp⟩
    rw [hlexemes] at hmem
    exact (hclear ']' hmem).2.1 rfl
  -- the second run is the last token
  rw [← List.append_nil (List.replicate m mark.char)] at hvs
  obtain ⟨last, rest, rfl, hmark, hlexeme, hstart, hbefore, hafter, hrest⟩ :=
    hvs.run_cons hm (by simp)
  obtain rfl : rest = [] := by
    cases hrest
    rfl
  obtain ⟨c, hc⟩ : ∃ c, word.getLast? = some c :=
    Option.ne_none_iff_exists'.mp (mt List.getLast?_eq_none_iff.mp hne)
  have hflanking : last.flanking mark = ⟨false, true⟩ := by
    rw [Token.flanking, hbefore, hafter, hc]
    exact (Flanking.between_word mark (hlast c hc)).2
  have hholding : (State.opening mark k).pushText (String.ofList word) =
      State.holding mark k (.text (String.ofList word)) 0 := by
    obtain ⟨d, rest, rfl⟩ := List.exists_cons_of_ne_nil hne
    simp only [State.pushText, State.opening, State.onTop, Content.pushText, State.ofList_cons_ne]
    rfl
  rw [run_words limit index ht hwords, hsaid, hlexemes, hholding, CodeSpan.closersFrom, run,
    if_neg (by omega), State.step_run hmark, hflanking, hlexeme, List.length_replicate,
    State.delimiterRun_last limit mark hk]
  by_cases hdeep : limit < (min k m + 1) / 2
  · rw [if_pos hdeep]
    rfl
  · rw [if_neg hdeep]
    rfl

/-- **Two runs around a word.** A word that is not empty, has no white space at its ends and
holds nothing that marks something, between `k` and `m` of one delimiter: the `min k m`
delimiters next to it make strong emphasis of it, two by two, and emphasis around that if one is
left; the others are text. It is an error if that nests too deep. -/
theorem Inline.parse_runs (limits : Limits) (mark : Delimiter) {k m : Nat} (hk : 1 ≤ k)
    (hm : 1 ≤ m) {word : List Char} (hne : word ≠ [])
    (hfirst : ∀ c ∈ word.head?, Text.isWhite c = false)
    (hlast : ∀ c ∈ word.getLast?, Text.isWhite c = false)
    (hclear : ∀ c ∈ word, c ∉ Text.markers ∧ c ≠ ']' ∧ c ≠ '\n') :
    Inline.parse limits (List.replicate k mark.char ++ word ++ List.replicate m mark.char) =
      if limits.maxNesting < (min k m + 1) / 2 then .error (.tooDeep limits.maxNesting)
      else .ok (leftOver mark (k - min k m) ++
        [wrapped (min k m) (.text (String.ofList word))] ++ leftOver mark (m - min k m)) := by
  obtain ⟨c, rest, rfl⟩ := List.exists_cons_of_ne_nil hne
  have hhead : c ≠ mark.char := by
    rintro rfl
    have hmark := (hclear mark.char List.mem_cons_self).1
    cases mark <;> exact hmark (by decide)
  have htiles := Token.tiles_ofText
    (List.replicate k mark.char ++ (c :: rest) ++ List.replicate m mark.char)
  rw [List.append_assoc] at htiles ⊢
  obtain ⟨first, ts, htokens, hmark, hlexeme, hstart, hbefore, hafter, hts⟩ :=
    htiles.run_cons hk (by simpa using hhead)
  have hflanking : first.flanking mark = ⟨true, false⟩ := by
    rw [Token.flanking, hbefore, hafter]
    exact (Flanking.between_word mark (hfirst c rfl)).1
  have hrun := InlineParser.run_word_run limits.maxNesting 1 hk hm hne hlast hclear hts
  have hwhole : InlineParser.run limits.maxNesting 0 0 {} (first :: ts)
      (CodeSpan.closersFrom 0 (first :: ts)) =
        InlineParser.run limits.maxNesting 1 first.stop (InlineParser.State.opening mark k) ts
          (CodeSpan.closersFrom 1 ts) := by
    rw [CodeSpan.closersFrom, InlineParser.run, if_neg (by omega),
      InlineParser.State.step_run hmark, hflanking, hlexeme, List.length_replicate,
      InlineParser.State.delimiterRun_first limits.maxNesting mark hk]
    rfl
  unfold Inline.parse Inline.read
  simp only [CodeSpan.closers_eq_closersFrom, htokens]
  rw [hwhole, hrun]
  by_cases hdeep : limits.maxNesting < (min k m + 1) / 2
  · rw [if_pos hdeep, if_pos hdeep]
    rfl
  · rw [if_neg hdeep, if_neg hdeep]
    exact congrArg Except.ok (InlineParser.State.finish_afterRuns mark hk hm _)

/-- Five delimiters and seven: two strong nodes inside emphasis, and two delimiters left behind
them, under a limit that just admits it; one less is an error. -/
theorem Inline.parse_runs_uneven :
    Inline.parse { maxNesting := 3 } "_____a (b) !_______".toList =
        .ok [.emphasis [.strong [.strong [.text "a (b) !"]]], .text "__"] ∧
      Inline.parse { maxNesting := 2 } "_____a (b) !_______".toList = .error (.tooDeep 2) := by
  have hclear : ∀ c ∈ "a (b) !".toList, c ∉ Text.markers ∧ c ≠ ']' ∧ c ≠ '\n' := by
    simp [Text.markers]
  have hne : "a (b) !".toList ≠ [] := by decide
  have hruns := fun limits => Inline.parse_runs limits .underscore (k := 5) (m := 7)
    (by decide) (by decide) hne (by rintro c ⟨⟩; rfl) (by rintro c ⟨⟩; rfl) hclear
  exact ⟨hruns { maxNesting := 3 }, hruns { maxNesting := 2 }⟩

end MarkdownHtml
