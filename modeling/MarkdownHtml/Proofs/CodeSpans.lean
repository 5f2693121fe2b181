/-
# The closers of code spans

`CodeSpan.closers` goes once over the tokens from right to left and remembers the
runs of backticks it has met. What it finds is what a search would find: the closer
of a run is the first run of the same length behind it (`closer?`), and tokens of
other kinds have none. Said without any search, the table of closers holds for each run
the least of the places behind it where a run of its length stands (`closers_spec`).

Key definitions: `CodeSpan.closer?`, `CodeSpan.closersFrom`, `CodeSpan.lookahead`,
`CodeSpan.runsBehind`.
Key theorems: `CodeSpan.closers_eq_closersFrom`, `CodeSpan.exists_of_closer?`,
`CodeSpan.closers_spec`.
-/
import MarkdownHtml.Inline.CodeSpan
import MarkdownHtml.Proofs.Tokens

namespace MarkdownHtml
namespace CodeSpan

/-- Whether a token is a run of `length` backticks. -/
def isRun (length : Nat) (t : Token) : Bool :=
  t.kind == .backticks && t.lexeme.length == length

/-- How many of the tokens `rest` stand between the run `t` of backticks and the run
that closes it; `none` if `t` is no such run or nothing closes it. -/
def closer? (t : Token) (rest : List Token) : Option Nat :=
  if t.kind = .backticks then rest.findIdx? (isRun t.lexeme.length) else none

/-- The closers of tokens that stand from `index` on, each found by a search. -/
def closersFrom (index : Nat) : List Token → List (Option Nat)
  | [] => []
  | t :: rest => (closer? t rest).map (index + 1 + ·) :: closersFrom (index + 1) rest

/-- What is known in front of tokens that stand from `index` on. -/
def lookahead (index : Nat) (tokens : List Token) : Lookahead :=
  (tokens.zipIdx index).foldr (fun (t, i) (la : Lookahead) => la.step t i) {}

theorem lookahead_cons (index : Nat) (t : Token) (rest : List Token) :
    lookahead index (t :: rest) = (lookahead (index + 1) rest).step t index := rfl

theorem Lookahead.step_of_backticks {t : Token} (h : t.kind = .backticks) (la : Lookahead)
    (index : Nat) :
    la.step t index = ⟨(t.lexeme.length, index) :: la.runs,
      la.runs.lookup t.lexeme.length :: la.closers⟩ := by
  simp [Lookahead.step, h]

theorem Lookahead.step_of_other {t : Token} (h : t.kind ≠ .backticks) (la : Lookahead)
    (index : Nat) : la.step t index = ⟨la.runs, none :: la.closers⟩ := by
  unfold Lookahead.step
  split
  · rename_i hb
    exact absurd hb h
  · rfl

/-- Looking up a length in the runs met so far finds the nearest run of it. -/
theorem lookup_runs_lookahead (length index : Nat) (tokens : List Token) :
    (lookahead index tokens).runs.lookup length =
      (tokens.findIdx? (isRun length)).map (index + ·) := by
  induction tokens generalizing index with
  | nil => rfl
  | cons t rest ih =>
    have hshift : ((rest.findIdx? (isRun length)).map (· + 1)).map (index + ·) =
        (rest.findIdx? (isRun length)).map (index + 1 + ·) := by
      rw [Option.map_map]
      congr 1
      funext i
      simp only [Function.comp_apply]
      omega
    rw [lookahead_cons, List.findIdx?_cons]
    by_cases hk : t.kind = .backticks
    · rw [Lookahead.step_of_backticks hk]
      by_cases hl : t.lexeme.length = length
      · simp [List.lookup, isRun, hk, hl]
      · have hr : isRun length t = false := by simp [isRun, hl]
        have hne : (length == t.lexeme.length) = false := by
          simpa using fun h => hl h.symm
        simp only [List.lookup, hne, hr, Bool.false_eq_true, if_false]
        rw [ih, hshift]
    · have hr : isRun length t = false := by simp [isRun, hk]
      rw [Lookahead.step_of_other hk, hr]
      simp only [Bool.false_eq_true, if_false]
      rw [ih, hshift]

/-- One pass from the right finds the closers that searching finds. -/
theorem closers_lookahead (index : Nat) (tokens : List Token) :
    (lookahead index tokens).closers = closersFrom index tokens := by
  induction tokens generalizing index with
  | nil => rfl
  | cons t rest ih =>
    rw [lookahead_cons, closersFrom, closer?]
    by_cases hk : t.kind = .backticks
    · rw [Lookahead.step_of_backticks hk, lookup_runs_lookahead, ih, if_pos hk]
    · rw [Lookahead.step_of_other hk, ih, if_neg hk]
      rfl

theorem closers_eq_closersFrom (tokens : List Token) :
    closers tokens = closersFrom 0 tokens := closers_lookahead 0 tokens

/-- A closer that is found is a run of backticks as long as the run it closes. -/
theorem exists_of_closer? {t : Token} {rest : List Token} {n : Nat}
    (h : closer? t rest = some n) :
    t.kind = .backticks ∧ ∃ inner close later, rest = inner ++ close :: later ∧
      inner.length = n ∧ close.kind = .backticks ∧ close.lexeme.length = t.lexeme.length := by
  unfold closer? at h
  split_ifs at h with hk
  obtain ⟨hn, hp, -⟩ := List.findIdx?_eq_some_iff_getElem.mp h
  simp only [isRun, Bool.and_eq_true, beq_iff_eq] at hp
  refine ⟨hk, rest.take n, rest[n], rest.drop (n + 1), ?_, ?_, hp.1, hp.2⟩
  · rw [List.getElem_cons_drop hn, List.take_append_drop]
  · rw [List.length_take]
    omega

/-! ### The table, entry by entry -/

theorem length_closersFrom (index : Nat) (tokens : List Token) :
    (closersFrom index tokens).length = tokens.length := by
  induction tokens generalizing index with
  | nil => rfl
  | cons t rest ih => rw [closersFrom, List.length_cons, List.length_cons, ih]

theorem drop_closersFrom (index : Nat) (us vs : List Token) :
    (closersFrom index (us ++ vs)).drop us.length = closersFrom (index + us.length) vs := by
  induction us generalizing index with
  | nil => rfl
  | cons u us ih =>
    rw [List.cons_append, closersFrom, List.length_cons, List.drop_succ_cons, ih,
      Nat.add_right_comm, Nat.add_assoc]

/-- The entry for a token is found among the tokens behind it. -/
theorem getElem?_closersFrom (index : Nat) (tokens : List Token) (i : Nat) :
    (closersFrom index tokens)[i]? =
      tokens[i]?.map fun t => (closer? t (tokens.drop (i + 1))).map (index + i + 1 + ·) := by
  induction tokens generalizing index i with
  | nil => rfl
  | cons t rest ih =>
    cases i with
    | zero => rfl
    | succ i =>
      rw [closersFrom, List.getElem?_cons_succ, List.getElem?_cons_succ, ih, List.drop_succ_cons,
        show index + 1 + i = index + (i + 1) by omega]

/-- The places behind `i` at which a run of `length` backticks stands. A backtick is one
byte, so that the length of a run is that of its span. -/
def runsBehind (tokens : List Token) (i length : Nat) : Set Nat :=
  {j | i < j ∧ ∃ u, tokens[j]? = some u ∧ u.kind = .backticks ∧ u.lexeme.length = length}

theorem mem_runsBehind_iff {tokens : List Token} {i length j : Nat} :
    j ∈ runsBehind tokens i length ↔
      ∃ n, j = i + 1 + n ∧ ∃ u, (tokens.drop (i + 1))[n]? = some u ∧ isRun length u = true := by
  simp only [runsBehind, Set.mem_ofPred_eq, List.getElem?_drop, isRun, Bool.and_eq_true, beq_iff_eq]
  constructor
  · rintro ⟨hlt, hrun⟩
    obtain ⟨n, rfl⟩ := Nat.exists_eq_add_of_lt hlt
    exact ⟨n, by omega, by rwa [show i + 1 + n = i + n + 1 by omega]⟩
  · rintro ⟨n, rfl, hrun⟩
    exact ⟨by omega, hrun⟩

/-- Searching finds the first of these places. -/
theorem isLeast_runsBehind_iff {tokens : List Token} {i length n : Nat} :
    IsLeast (runsBehind tokens i length) (i + 1 + n) ↔
      (tokens.drop (i + 1)).findIdx? (isRun length) = some n := by
  rw [List.findIdx?_eq_some_iff_getElem]
  constructor
  · rintro ⟨hmem, hleast⟩
    obtain ⟨m, hm, u, hu, hrun⟩ := mem_runsBehind_iff.mp hmem
    obtain rfl : n = m := by omega
    obtain ⟨hlt, rfl⟩ := List.getElem?_eq_some_iff.mp hu
    refine ⟨hlt, hrun, fun k hk hrunk => ?_⟩
    have hle : i + 1 + n ≤ i + 1 + k :=
      hleast (mem_runsBehind_iff.mpr ⟨k, rfl, _, List.getElem?_eq_getElem (by omega), hrunk⟩)
    omega
  · rintro ⟨hlt, hrun, hfirst⟩
    refine ⟨mem_runsBehind_iff.mpr ⟨n, rfl, _, List.getElem?_eq_getElem hlt, hrun⟩, ?_⟩
    intro j hj
    obtain ⟨k, rfl, u, hu, hrunk⟩ := mem_runsBehind_iff.mp hj
    obtain ⟨hk, rfl⟩ := List.getElem?_eq_some_iff.mp hu
    by_contra hless
    exact hfirst k (by omega) hrunk

theorem runsBehind_eq_empty_iff {tokens : List Token} {i length : Nat} :
    runsBehind tokens i length = ∅ ↔
      (tokens.drop (i + 1)).findIdx? (isRun length) = none := by
  rw [List.findIdx?_eq_none_iff, Set.eq_empty_iff_forall_notMem]
  constructor
  · intro hnone u hu
    obtain ⟨n, hn⟩ := List.mem_iff_getElem?.mp hu
    rw [Bool.eq_false_iff]
    exact fun hrun => hnone _ (mem_runsBehind_iff.mpr ⟨n, rfl, u, hn, hrun⟩)
  · intro hnone j hj
    obtain ⟨n, -, u, hu, hrun⟩ := mem_runsBehind_iff.mp hj
    rw [hnone u (List.mem_of_getElem? hu)] at hrun
    exact absurd hrun (by simp)

/-- **The closers are those of a search.** Whatever the tokens, there is one entry for each. The
entry for a token that is no run of backticks is empty; that for a run is the first place
behind it at which a run of the same length stands, and is empty if there is no such place. -/
theorem closers_spec (tokens : List Token) :
    (closers tokens).length = tokens.length ∧
      ∀ i t, tokens[i]? = some t → ∃ entry, (closers tokens)[i]? = some entry ∧
        (t.kind ≠ .backticks → entry = none) ∧
        (t.kind = .backticks →
          (∀ j, entry = some j ↔ IsLeast (runsBehind tokens i t.lexeme.length) j) ∧
            (entry = none ↔ runsBehind tokens i t.lexeme.length = ∅)) := by
  rw [closers_eq_closersFrom]
  refine ⟨length_closersFrom 0 tokens, fun i t ht => ?_⟩
  refine ⟨(closer? t (tokens.drop (i + 1))).map (0 + i + 1 + ·), ?_, ?_, ?_⟩
  · rw [getElem?_closersFrom, ht, Option.map_some]
  · intro hk
    rw [closer?, if_neg hk, Option.map_none]
  · intro hk
    rw [closer?, if_pos hk, Nat.zero_add]
    refine ⟨fun j => ?_, ?_⟩
    · rw [Option.map_eq_some_iff]
      constructor
      · rintro ⟨n, hn, rfl⟩
        exact isLeast_runsBehind_iff.mpr hn
      · intro hleast
        obtain ⟨n, rfl, -⟩ := mem_runsBehind_iff.mp hleast.1
        exact ⟨n, isLeast_runsBehind_iff.mp hleast, rfl⟩
    · rw [Option.map_eq_none_iff, runsBehind_eq_empty_iff]

/-- The runs of one backtick close each other across the runs of two. -/
example : closers (Token.ofText "`a`` ``b`".toList) =
    [some 6, none, some 4, none, none, none, none] := by decide

end CodeSpan
end MarkdownHtml
