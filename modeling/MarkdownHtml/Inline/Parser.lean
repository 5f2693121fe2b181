/-
# Reading running text

Tokens are read once, from left to right, over a stack of open frames. Code spans
come first and keep everything else out. A closing run of delimiters matches the
innermost open run of its character, two at a time where both sides have two, and
never across a bracket. A `]` matches the innermost bracket if a link tail
follows. What finds no partner is literal text.

At most `max 1 limit` frames are open: before one more opens, the oldest is given
up. A node that would nest deeper than `limit` is an error, the only one there is.

The number of emphasis frames above the innermost bracket is counted for each
delimiter (`State.unclosed`), and a bracket keeps the counts of the part below it,
so that a closing run knows at once whether it has a partner.

Key definitions: `State`, `State.closeEmphasis`, `State.delimiterRun`,
`State.closeBracket`, `State.step`, `run`, `Inline.read`, `Inline.parse`.
-/
import MarkdownHtml.Error
import MarkdownHtml.Inline.CodeSpan
import MarkdownHtml.Inline.Frame
import MarkdownHtml.Inline.LinkTail

namespace MarkdownHtml
namespace InlineParser

/-- What is read so far. -/
structure State where
  /-- What stands outside every open frame. -/
  root : Content := {}
  /-- The open frames, innermost first. -/
  stack : List Frame := []
  /-- How many emphasis frames are open above the innermost bracket. -/
  unclosed : Counts := {}
  /-- How many openers were given up for want of room. -/
  dropped : Nat := 0
deriving Repr, Inhabited

/-- Formatting nested past the limit; `dropped` openers had been given up by
then. -/
structure TooDeep where
  dropped : Nat
deriving Repr, DecidableEq

namespace State

/-- Changes the innermost content. -/
def onTop (f : Content → Content) : State → State
  | ⟨root, [], unclosed, dropped⟩ => ⟨f root, [], unclosed, dropped⟩
  | ⟨root, ⟨opener, content⟩ :: below, unclosed, dropped⟩ =>
    ⟨root, ⟨opener, f content⟩ :: below, unclosed, dropped⟩

/-- Appends text to the innermost content. -/
def pushText (s : String) (st : State) : State := st.onTop (Content.pushText s)

/-- Appends a node to the innermost content. -/
def push (node : Inline) (depth : Nat) (st : State) : State := st.onTop (Content.push node depth)

/-- The counts once a frame with this opener is off the stack. -/
def countsWithout (unclosed : Counts) : Opener → Counts
  | .emphasis mark _ => unclosed.decrement mark
  | .bracket _ _ enclosed => enclosed

/-- Gives up the innermost frame: it becomes text in the one below. -/
def collapse : State → State
  | ⟨root, [], unclosed, dropped⟩ => ⟨root, [], unclosed, dropped⟩
  | ⟨root, frame :: below, unclosed, dropped⟩ =>
    onTop frame.flatten ⟨root, below, countsWithout unclosed frame.opener, dropped⟩

/-- Gives up the `n` innermost frames. -/
def collapseMany : Nat → State → State
  | 0, st => st
  | n + 1, st => collapseMany n st.collapse

/-- Gives up the innermost frames, at most `n`, until one is reached whose opener
satisfies `p`. -/
def unwind (p : Opener → Bool) : Nat → State → State
  | 0, st => st
  | n + 1, st =>
    match st.stack with
    | [] => st
    | frame :: _ => if p frame.opener then st else unwind p n st.collapse

/-- Gives up the innermost frames until a bracket or an opener of `mark`. -/
def unwindTo (mark : Delimiter) (st : State) : State :=
  st.unwind (fun o => match o with
    | .emphasis m _ => m = mark
    | .bracket .. => true) st.stack.length

/-- Gives up the innermost frames until a bracket. -/
def unwindToBracket (st : State) : State := st.unwind Opener.isBracket st.stack.length

/-- Changes the counts of the lowest bracket of some frames, outermost first; `none`
if there is no bracket. -/
def changeLowest? (change : Counts → Counts) : List Frame → Option (List Frame)
  | [] => none
  | ⟨.bracket image active enclosed, content⟩ :: above =>
    some (⟨.bracket image active (change enclosed), content⟩ :: above)
  | frame :: above => (changeLowest? change above).map (frame :: ·)

/-- The change in the counts of the part around an opener that is given up: one
opener less, or the counts of two parts in one. -/
def mergeCounts : Opener → Counts → Counts
  | .emphasis mark _, counts => counts.decrement mark
  | .bracket _ _ enclosed, counts => counts.add enclosed

/-- Gives up the oldest frame: it becomes text outside all frames. -/
def dropOldest : State → State
  | ⟨root, stack, unclosed, dropped⟩ =>
    match stack.reverse with
    | [] => ⟨root, [], unclosed, dropped⟩
    | oldest :: above =>
      let change := mergeCounts oldest.opener
      match changeLowest? change above with
      | some above => ⟨oldest.flatten root, above.reverse, unclosed, dropped + 1⟩
      | none => ⟨oldest.flatten root, above.reverse, change unclosed, dropped + 1⟩

/-- Makes room for one more frame. -/
def reserve (limit : Nat) (st : State) : State :=
  if st.stack.length < max 1 limit then st else st.dropOldest

/-- Opens a frame for `count` delimiters. -/
def openEmphasis (limit : Nat) (mark : Delimiter) (count : Nat) (st : State) : State :=
  let st := st.reserve limit
  { st with
    stack := ⟨.emphasis mark count, {}⟩ :: st.stack
    unclosed := st.unclosed.increment mark }

/-- Opens a frame for a bracket. -/
def openBracket (limit : Nat) (image : Bool) (st : State) : State :=
  let st := st.reserve limit
  { st with
    stack := ⟨.bracket image true st.unclosed, {}⟩ :: st.stack
    unclosed := {} }

/-- The node that `used` delimiters make of what they enclose. -/
def emphasisNode (used : Nat) (children : List Inline) : Inline :=
  if used = 2 then .strong children else .emphasis children

/-- Closes `used` of the `available` delimiters of the innermost frame, which has
collected `content`; a frame without delimiters left is done. -/
def closeOnce (limit : Nat) (mark : Delimiter) (available used : Nat) (content : Content)
    (below : List Frame) (st : State) : Except TooDeep State :=
  let depth := content.depth + 1
  let node := emphasisNode used content.toList
  if limit < depth then .error ⟨st.dropped⟩
  else if available = used then
    .ok (push node depth { st with stack := below, unclosed := st.unclosed.decrement mark })
  else
    .ok { st with
      stack := ⟨.emphasis mark (available - used), ⟨[node], depth⟩⟩ :: below }

/-- Matches one or two of `count` closing delimiters against the innermost open run of
`mark`, what is open above it being given up. Returns how many it used, none if no run
is open. -/
def closeNext (limit : Nat) (mark : Delimiter) (count : Nat) (st : State) :
    Except TooDeep (Nat × State) :=
  if count = 0 ∨ st.unclosed.get mark = 0 then .ok (0, st)
  else
    let st := st.unwindTo mark
    match st.stack with
    | ⟨.emphasis _ available, content⟩ :: below =>
      let used := if 2 ≤ count ∧ 2 ≤ available then 2 else 1
      match st.closeOnce limit mark available used content below with
      | .ok st => .ok (used, st)
      | .error e => .error e
    | _ => .ok (0, st)

/-- Matches closing delimiters as long as there are some and a run is open for them,
which is at most `fuel` times. Returns how many are left over. -/
def closeMany (limit : Nat) (mark : Delimiter) :
    (fuel : Nat) → (count : Nat) → State → Except TooDeep (Nat × State)
  | 0, count, st => .ok (count, st)
  | fuel + 1, count, st =>
    match st.closeNext limit mark count with
    | .error e => .error e
    | .ok (0, st) => .ok (count, st)
    | .ok (used, st) => closeMany limit mark fuel (count - used) st

/-- Matches `count` closing delimiters and returns how many are left over. -/
def closeEmphasis (limit : Nat) (mark : Delimiter) (count : Nat) (st : State) :
    Except TooDeep (Nat × State) :=
  closeMany limit mark count count st

/-- Reads a run of `count` delimiters: it closes what it can, and what is left
opens a frame or is text. -/
def delimiterRun (limit : Nat) (mark : Delimiter) (flanking : Flanking) (count : Nat)
    (st : State) : Except TooDeep State := do
  let (count, st) ← if flanking.canClose then st.closeEmphasis limit mark count else .ok (count, st)
  if count = 0 then .ok st
  else if flanking.canOpen then .ok (st.openEmphasis limit mark count)
  else .ok (st.pushText (String.ofList (List.replicate count mark.char)))

/-- Forbids the brackets of enclosing links to become links themselves. -/
def deactivate (frame : Frame) : Frame :=
  match frame.opener with
  | .bracket false _ enclosed => { frame with opener := .bracket false false enclosed }
  | _ => frame

/-- Makes a link of what a bracket has collected. -/
def closeLink (limit : Nat) (tail : LinkTail) (content : Content) (st : State) :
    Except TooDeep State :=
  let depth := content.depth + 1
  if limit < depth then .error ⟨st.dropped⟩
  else
    let node := Inline.link (String.ofList tail.destination) (tail.title.map String.ofList)
      content.toList
    .ok (push node depth { st with stack := st.stack.map deactivate })

/-- Makes an image of what a bracket has collected. -/
def closeImage (tail : LinkTail) (content : Content) (st : State) : State :=
  st.push (.image (String.ofList tail.destination) (Inline.plainText content.toList)
    (tail.title.map String.ofList)) 0

/-- Reads a `]` with the text `after` behind it. Returns how many bytes of that
text belong to the link or image that ends here. -/
def closeBracket (limit : Nat) (after : List Char) (st : State) : Except TooDeep (Nat × State) :=
  if st.stack.any (·.opener.isBracket) then
    let st := st.unwindToBracket
    match st.stack with
    | ⟨.bracket image active enclosed, content⟩ :: below =>
      match if active then LinkTail.read? after else none with
      | none => .ok (0, st.collapse.pushText "]")
      | some tail =>
        let st := { st with stack := below, unclosed := enclosed }
        if image then .ok (tail.size, st.closeImage tail content)
        else
          match st.closeLink limit tail content with
          | .ok st => .ok (tail.size, st)
          | .error e => .error e
    | _ => .ok (0, st)
  else .ok (0, st.pushText "]")

/-- Reads a run of backticks at `index`: a code span if `closer` is the index of
the run that closes it, and text otherwise. Returns how many bytes behind the run
belong to the span. -/
def backticks (token : Token) (index : Nat) (closer : Option Nat) (rest : List Token)
    (st : State) : Nat × State :=
  match closer with
  | none => (0, st.pushText token.content)
  | some close =>
    let raw := (rest.take (close - index - 1)).flatMap Token.lexeme
    (Text.byteLength raw + Text.byteLength token.lexeme,
      st.push (.code (String.ofList (CodeSpan.content raw))) 0)

/-- Reads one token, with the tokens `rest` behind it. Returns how many bytes
behind the token are read with it. -/
def step (limit : Nat) (token : Token) (index : Nat) (closer : Option Nat) (rest : List Token)
    (st : State) : Except TooDeep (Nat × State) :=
  let run (mark : Delimiter) := do
    let flanking := Flanking.between mark token.before token.after.head?
    let st ← st.delimiterRun limit mark flanking token.lexeme.length
    .ok (0, st)
  match token.kind with
  | .backticks => .ok (st.backticks token index closer rest)
  | .stars => run .star
  | .underscores => run .underscore
  | .imageOpen => .ok (0, st.openBracket limit true)
  | .leftBracket => .ok (0, st.openBracket limit false)
  | .rightBracket => st.closeBracket limit token.after
  | .escape => .ok (0, st.pushText (String.ofList (token.lexeme.drop 1)))
  | .hardBreak => .ok (0, st.push .lineBreak 0)
  | .softBreak => .ok (0, st.pushText "\n")
  | .leftParen | .rightParen | .blank | .text => .ok (0, st.pushText token.content)

/-- Gives up all open frames and returns the nodes. -/
def finish (st : State) : List Inline := (st.collapseMany st.stack.length).root.toList

end State

/-- Reads the tokens from `index` on. Tokens that start before offset `resume`
are read already, as part of a code span or a link tail. -/
def run (limit : Nat) (index resume : Nat) (st : State) :
    List Token → List (Option Nat) → Except TooDeep State
  | token :: rest, closer :: closers =>
    if token.start < resume then run limit (index + 1) resume st rest closers
    else
      match st.step limit token index closer rest with
      | .ok (more, st) => run limit (index + 1) (token.stop + more) st rest closers
      | .error e => .error e
  | _, _ => .ok st

end InlineParser

/-- What reading running text gives. -/
structure InlineReading where
  /-- How many openers were given up for want of room. -/
  dropped : Nat
  nodes : Except ConversionError (List Inline)

/-- Reads running text under the nesting limit. -/
def Inline.read (limits : Limits) (text : List Char) : InlineReading :=
  let tokens := Token.ofText text
  match InlineParser.run limits.maxNesting 0 0 {} tokens (CodeSpan.closers tokens) with
  | .ok st => ⟨st.dropped, .ok st.finish⟩
  | .error e => ⟨e.dropped, .error limits.nestingError⟩

/-- The nodes of running text, or the error that they nest too deep. -/
def Inline.parse (limits : Limits) (text : List Char) : Except ConversionError (List Inline) :=
  (Inline.read limits text).nodes

end MarkdownHtml
