/-
# Quote markers taken off in two goes

A line is classified without any of its quote markers, and read as code without those of the
quotes that the code stands in. Both go by the same markers: to take off some of them and then
some more is to take off as many in one go (`Line.stripAtMost_add`), so what code sees of a line
is the line without the first of the markers that its classification counted
(`Line.depth_stripAtMost`).

Lines are held as characters here, and how much of a line is gone is a number of bytes. Said with
bytes from the start, markers are looked for at offsets (`Line.scanMarkers`), and nothing in this
asks where a character ends. All bytes that are looked for are characters of their own, though,
and no other character has such a byte at its start, so the offset that is found is a place
between two characters (`Line.scanMarkers_eq`, `Line.exists_front`).

Key definitions: `Line.spacesAhead`, `Line.scanFrom`, `Line.scanMarkers`.
Key theorems: `Text.getElem?_encode_iff`, `Line.scanMarkers_eq`, `Line.stripAtMost_add`,
`Line.depth_stripAtMost`, `Line.stripAtMost_twice`.
-/
import MarkdownHtml.Proofs.ByteInput
import MarkdownHtml.Proofs.Lines
import MarkdownHtml.Proofs.LongestMatch

namespace MarkdownHtml

/-! ### Looking for ASCII characters among bytes -/

namespace Text

theorem encode_cons (c : Char) (s : List Char) :
    encode (String.ofList (c :: s)) = String.utf8EncodeChar c ++ encode (String.ofList s) := by
  rw [encode_ofList, encode_ofList, List.flatMap_cons]

/-- An ASCII character is one byte. -/
theorem encode_cons_of_ascii {b : UInt8} (hb : b.toNat < 128) (s : List Char) :
    encode (String.ofList (Char.ofNat b.toNat :: s)) = b :: encode (String.ofList s) := by
  have hc : (Char.ofNat b.toNat).toNat = b.toNat := by
    rw [Char.toNat_ofNat, if_pos (.inl (by omega))]
  rw [encode_cons, encodeChar_one hb hc rfl, List.singleton_append]

/-- A byte below 128 at the start of a text is its first character. -/
theorem head?_encode_iff {b : UInt8} (hb : b.toNat < 128) (s : List Char) :
    (encode (String.ofList s)).head? = some b ↔ s.head? = some (Char.ofNat b.toNat) := by
  cases s with
  | nil =>
    constructor
    · exact fun h => nomatch h
    · exact fun h => nomatch h
  | cons c s =>
    constructor
    · intro h
      obtain ⟨more, hmore⟩ := List.head?_eq_some_iff.mp h
      have hread : decodeHead? (b :: more) = some (c, c.utf8Size) := by
        rw [← hmore, encode_cons]
        exact decodeHead?_encodeChar c _
      have hone : decodeHead? (b :: more) = some (Char.ofNat b.toNat, 1) := by
        unfold decodeHead?
        exact if_pos hb
      rw [hone] at hread
      rw [List.head?_cons, (Prod.mk.inj (Option.some.inj hread)).1]
    · intro h
      obtain rfl : c = Char.ofNat b.toNat := Option.some.inj h
      rw [encode_cons_of_ascii hb, List.head?_cons]

/-- Behind the bytes of the first part of a text stand those of the second. -/
theorem drop_encode (s t : List Char) :
    (encode (String.ofList (s ++ t))).drop (byteLength s) = encode (String.ofList t) := by
  rw [encode_append, ← length_encode, List.drop_left]

/-- **Looking for an ASCII character at an offset** that stands between two parts of a text finds
it where the second part starts with it. -/
theorem getElem?_encode_iff {b : UInt8} (hb : b.toNat < 128) (s t : List Char) :
    (encode (String.ofList (s ++ t)))[byteLength s]? = some b ↔
      t.head? = some (Char.ofNat b.toNat) := by
  rw [← head?_encode_iff hb, ← drop_encode s t, List.head?_drop]

end Text

namespace Line

open Text (encode byteLength)

/-! ### Markers among bytes -/

/-- The number of spaces at the start of some bytes, `limit` at most. -/
def spacesAhead : (limit : Nat) → List UInt8 → Nat
  | limit + 1, b :: bytes => if b = 0x20 then spacesAhead limit bytes + 1 else 0
  | _, _ => 0

/-- Space and tab. -/
def isPadByte (b : UInt8) : Bool := b == 0x20 || b == 0x09

/-- Looks for up to `more` markers from an offset on, `depth` being behind it already: up to three
spaces, a `>` and, if there is one, a space or tab. -/
def scanFrom (bytes : List UInt8) : (more depth offset : Nat) → Nat × Nat
  | 0, depth, offset => (depth, offset)
  | more + 1, depth, offset =>
    let sign := offset + spacesAhead 3 (bytes.drop offset)
    if bytes[sign]? = some 0x3E then
      let pad := sign + 1
      scanFrom bytes more (depth + 1) (if bytes[pad]?.any isPadByte then pad + 1 else pad)
    else (depth, offset)

/-- The number of quote markers in the bytes of a line, `limit` at most, and the offset behind
them. -/
def scanMarkers (limit : Nat) (line : List Char) : Nat × Nat :=
  scanFrom (encode (String.ofList line)) limit 0 0

/-- The spaces that are counted are those that are dropped. -/
theorem replicate_append_dropSpaces (limit : Nat) (s : List Char) :
    List.replicate (spacesAhead limit (encode (String.ofList s))) ' ' ++ dropSpaces limit s = s := by
  induction limit generalizing s with
  | zero => simp [spacesAhead, dropSpaces]
  | succ limit ih =>
    by_cases hspace : s.head? = some ' '
    · obtain ⟨rest, rfl⟩ := List.head?_eq_some_iff.mp hspace
      have hbytes : encode (String.ofList (' ' :: rest)) = 0x20 :: encode (String.ofList rest) :=
        Text.encode_cons_of_ascii (b := 0x20) (by decide) rest
      rw [hbytes, spacesAhead, if_pos rfl, List.replicate_succ, dropSpaces, List.cons_append, ih]
    · have hnone : spacesAhead (limit + 1) (encode (String.ofList s)) = 0 := by
        have hhead := mt (Text.head?_encode_iff (b := 0x20) (by decide) s).mp hspace
        cases hbytes : encode (String.ofList s) with
        | nil => rfl
        | cons b bytes =>
          rw [hbytes, List.head?_cons] at hhead
          rw [spacesAhead, if_neg fun hb => hhead (by rw [hb])]
      have hstays : dropSpaces (limit + 1) s = s := by
        unfold dropSpaces
        split
        · exact absurd rfl hspace
        · rfl
      rw [hnone, hstays]
      rfl

/-- The spaces in front of a marker are passed over where they are dropped. -/
theorem exists_spaces (limit : Nat) (front rest : List Char) :
    ∃ spaces, rest = spaces ++ dropSpaces limit rest ∧
      byteLength front +
          spacesAhead limit ((encode (String.ofList (front ++ rest))).drop (byteLength front)) =
        byteLength (front ++ spaces) := by
  have hsize : ∀ n, byteLength (List.replicate n ' ') = n := by
    intro n
    induction n with
    | zero => rfl
    | succ n ih =>
      rw [List.replicate_succ, Text.byteLength_cons, ih]
      exact Nat.add_comm 1 n
  refine ⟨_, (replicate_append_dropSpaces limit rest).symm, ?_⟩
  rw [Text.drop_encode, Text.byteLength_append, hsize]

/-- Looking for a space or tab at an offset that stands between two parts of a line. -/
theorem any_isPadByte (front rest : List Char) :
    (encode (String.ofList (front ++ rest)))[byteLength front]?.any isPadByte =
      rest.head?.any Text.isPad := by
  have hspace := Text.getElem?_encode_iff (b := 0x20) (by decide) front rest
  have htab := Text.getElem?_encode_iff (b := 0x09) (by decide) front rest
  rw [Bool.eq_iff_iff, Option.any_eq_true, Option.any_eq_true]
  simp only [isPadByte, Text.isPad_iff, Bool.or_eq_true, beq_iff_eq]
  constructor
  · rintro ⟨b, hb, rfl | rfl⟩
    · exact ⟨' ', hspace.mp hb, .inl rfl⟩
    · exact ⟨'\t', htab.mp hb, .inr rfl⟩
  · rintro ⟨c, hc, rfl | rfl⟩
    · exact ⟨0x20, hspace.mpr hc, .inl rfl⟩
    · exact ⟨0x09, htab.mpr hc, .inr rfl⟩

theorem dropPad_cons (c : Char) (rest : List Char) :
    dropPad (c :: rest) = if Text.isPad c then rest else c :: rest := by
  unfold dropPad
  split
  · rename_i hcut
    obtain ⟨rfl, rfl⟩ := List.cons.inj hcut
    rfl
  · rename_i hcut
    obtain ⟨rfl, rfl⟩ := List.cons.inj hcut
    rfl
  · rename_i hspace htab
    have hc : ¬ Text.isPad c = true := by
      rw [Text.isPad_iff]
      rintro (rfl | rfl)
      · exact hspace rest rfl
      · exact htab rest rfl
    rw [if_neg hc]

/-- The blank behind a marker is passed over where it is dropped. -/
theorem exists_pad (front rest : List Char) :
    ∃ pad, rest = pad ++ dropPad rest ∧
      (if (encode (String.ofList (front ++ rest)))[byteLength front]?.any isPadByte then
        byteLength front + 1 else byteLength front) = byteLength (front ++ pad) := by
  rw [any_isPadByte]
  cases rest with
  | nil => exact ⟨[], rfl, by rw [List.append_nil]; rfl⟩
  | cons c rest =>
    rw [dropPad_cons, List.head?_cons, Option.any_some]
    cases hc : Text.isPad c with
    | true =>
      have hsize : c.utf8Size = 1 := by
        rcases Text.isPad_iff.mp hc with rfl | rfl
        · rfl
        · rfl
      refine ⟨[c], rfl, ?_⟩
      rw [if_pos rfl, Text.byteLength_append, Text.byteLength_cons, hsize]
      rfl
    | false => exact ⟨[], rfl, by rw [List.append_nil]; rfl⟩

/-- Whether there is a marker is told by what stands behind the spaces. -/
theorem stripMarker?_of_head? {s : List Char} (h : (dropSpaces 3 s).head? = some '>') :
    ∃ tail, dropSpaces 3 s = '>' :: tail ∧ stripMarker? s = some (dropPad tail) := by
  obtain ⟨tail, htail⟩ := List.head?_eq_some_iff.mp h
  refine ⟨tail, htail, ?_⟩
  unfold stripMarker?
  rw [htail]
  rfl

theorem stripMarker?_of_head?_ne {s : List Char} (h : (dropSpaces 3 s).head? ≠ some '>') :
    stripMarker? s = none := by
  unfold stripMarker?
  split
  · rename_i tail htail
    exact absurd (by rw [htail]; rfl) h
  · rfl

/-- **Markers are found in the bytes of a line where they are in its characters**, and the offset
behind them is the size of what is gone. -/
theorem scanFrom_eq (more depth : Nat) (front rest : List Char) :
    scanFrom (encode (String.ofList (front ++ rest))) more depth (byteLength front) =
      ((stripFrom depth more rest).depth, (stripFrom depth more rest).offset (front ++ rest)) := by
  induction more generalizing depth front rest with
  | zero => rw [scanFrom, stripFrom, Unquoted.offset, Text.byteLength_append, Nat.add_sub_cancel]
  | succ more ih =>
    obtain ⟨spaces, hspaces, hsign⟩ := exists_spaces 3 front rest
    have hline : front ++ rest = front ++ spaces ++ dropSpaces 3 rest := by
      rw [List.append_assoc, ← hspaces]
    have hfound := Text.getElem?_encode_iff (b := 0x3E) (by decide) (front ++ spaces)
      (dropSpaces 3 rest)
    rw [← hline] at hfound
    rw [scanFrom, stripFrom, hsign]
    by_cases hhead : (dropSpaces 3 rest).head? = some '>'
    · obtain ⟨tail, htail, hstrip⟩ := stripMarker?_of_head? hhead
      obtain ⟨pad, hpad, hbehind⟩ := exists_pad (front ++ spaces ++ ['>']) tail
      have hcut : front ++ rest = front ++ spaces ++ ['>'] ++ tail := by
        rw [hline, htail, List.append_assoc _ ['>'], List.singleton_append]
      have hnext : byteLength (front ++ spaces) + 1 = byteLength (front ++ spaces ++ ['>']) := by
        rw [Text.byteLength_append _ ['>']]
        rfl
      have hrest : front ++ rest = front ++ spaces ++ ['>'] ++ pad ++ dropPad tail := by
        rw [hcut, List.append_assoc _ pad, ← hpad]
      rw [← hcut] at hbehind
      rw [if_pos (hfound.mpr hhead), hstrip]
      simp only
      rw [hnext, hbehind, hrest]
      exact ih (depth + 1) _ _
    · rw [if_neg fun h => hhead (hfound.mp h), stripMarker?_of_head?_ne hhead]
      simp only [Unquoted.offset, Text.byteLength_append, Nat.add_sub_cancel]

/-- The bytes of a line have its markers. -/
theorem scanMarkers_eq (limit : Nat) (line : List Char) :
    scanMarkers limit line =
      ((stripAtMost limit line).depth, (stripAtMost limit line).offset line) :=
  scanFrom_eq limit 0 [] line

/-! ### Two goes -/

/-- What is gone is a part of the line, from the front, as long as the offset says. -/
theorem exists_front (limit : Nat) (line : List Char) :
    ∃ front, line = front ++ (stripAtMost limit line).rest ∧
      byteLength front = (stripAtMost limit line).offset line := by
  obtain ⟨front, hfront⟩ := (stripAtMost_bounds limit line).1
  refine ⟨front, hfront.symm, ?_⟩
  have hsize := congrArg byteLength hfront
  rw [Text.byteLength_append] at hsize
  rw [Unquoted.offset]
  omega

/-- **Some markers and then some more** are as many in one go. -/
theorem stripAtMost_add (m n : Nat) (line : List Char) :
    stripAtMost (m + n) line =
      ⟨(stripAtMost m line).depth + (stripAtMost n (stripAtMost m line).rest).depth,
        (stripAtMost n (stripAtMost m line).rest).rest⟩ := by
  induction m generalizing line with
  | zero =>
    rw [Nat.zero_add]
    simp [stripAtMost, stripFrom]
  | succ m ih =>
    rw [Nat.add_right_comm]
    cases hstrip : stripMarker? line with
    | none =>
      have hnone := stripAtMost_of_no_marker hstrip
      rw [hnone, hnone]
      simp only [hnone, Nat.add_zero]
    | some rest =>
      rw [stripAtMost_of_marker hstrip, stripAtMost_of_marker hstrip, ih rest]
      simp only [Unquoted.mk.injEq, and_true]
      omega

/-- **Of all markers** as many go as may go, or all if there are fewer. -/
theorem depth_stripAtMost (limit : Nat) (line : List Char) :
    (stripAtMost limit line).depth = min limit (stripAll line).depth := by
  induction limit generalizing line with
  | zero => rw [Nat.zero_min]; rfl
  | succ limit ih =>
    cases hstrip : stripMarker? line with
    | none => rw [stripAtMost_of_no_marker hstrip, stripAll_of_no_marker hstrip, Nat.min_zero]
    | some rest =>
      have hall : (stripAll line).depth = (stripAll rest).depth + 1 := by
        have hlong : line.length ≤ line.length + 1 := Nat.le_succ _
        have hshort : rest.length ≤ line.length := Nat.le_of_lt (suffix_of_stripMarker? hstrip).2
        rw [← stripAtMost_of_length_le hlong, stripAtMost_of_marker hstrip,
          stripAtMost_of_length_le hshort]
      rw [stripAtMost_of_marker hstrip, hall, ih rest]
      exact (Nat.succ_min_succ _ _).symm

/-- **Two goes see the same markers as one.** However many markers may go first and then, what is
gone first ends between two characters and counts as many of all markers as may go; what is gone
in both goes, markers and bytes, is what goes at once; and the bytes of the line say the same. As
many markers as the line has characters, or more, is as good as no limit. -/
theorem stripAtMost_twice (m n : Nat) (line : List Char) :
    let first := stripAtMost m line
    let second := stripAtMost n first.rest
    let whole := stripAtMost (m + n) line
    Text.IsBoundary line (first.offset line) ∧
      (Text.splitAtBytes (first.offset line) line).2 = first.rest ∧
      first.depth = min m (stripAll line).depth ∧
      whole = ⟨first.depth + second.depth, second.rest⟩ ∧
      whole.offset line = first.offset line + second.offset first.rest ∧
      scanMarkers m line = (first.depth, first.offset line) ∧
      scanMarkers n first.rest = (second.depth, second.offset first.rest) ∧
      scanMarkers (m + n) line = (whole.depth, whole.offset line) ∧
      ∀ k, scanMarkers (line.length + k) line =
        ((stripAll line).depth, (stripAll line).offset line) := by
  intro first second whole
  obtain ⟨front, hfront, hsize⟩ := exists_front m line
  obtain ⟨inner, hinner, hmore⟩ := exists_front n first.rest
  have hwhole : whole = ⟨first.depth + second.depth, second.rest⟩ := stripAtMost_add m n line
  refine ⟨⟨front, _, hfront, hsize⟩, ?_, depth_stripAtMost m line, hwhole, ?_,
    scanMarkers_eq m line, scanMarkers_eq n first.rest, scanMarkers_eq (m + n) line, ?_⟩
  · calc (Text.splitAtBytes (first.offset line) line).2
        = (Text.splitAtBytes (byteLength front) (front ++ first.rest)).2 := by rw [hsize, ← hfront]
      _ = first.rest := by rw [Text.splitAtBytes_append]
  · have hcut : byteLength line = byteLength front + byteLength first.rest := by
      rw [← Text.byteLength_append, ← hfront]
    have hinside : byteLength first.rest = byteLength inner + byteLength second.rest := by
      rw [← Text.byteLength_append, ← hinner]
    have hrest : whole.rest = second.rest := by rw [hwhole]
    rw [← hsize, ← hmore, Unquoted.offset, hrest]
    omega
  · intro k
    rw [scanMarkers_eq, stripAtMost_of_length_le (Nat.le_add_right _ _)]

end Line
end MarkdownHtml
