/-
# Saved options are loaded again

Saving makes directories, writes the options as text and then the file. Making directories leaves
every file as it is (`Store.sameFiles_makeAlong`), so options that cannot be written as text leave
all files with their content. Writing a file changes no directory, and the steps of a text only
ask for directories: the text leads to the same place before and after (`Store.place?_write`), and
there loading finds what was written.

Of the format it is only known that it keeps to TOML (`Toml.Format.Conforms`). Then it reads what it
has written as entries that show the tables (`Toml.Format.Conforms.read_of_write`), and the options
are read from these in whatever order they stand (`Settings.ofEntries?_of_shows`).

Key definition: `Store.SameFiles`.
Key theorems: `Store.sameFiles_makeAlong`, `Store.follow?_mono`, `Store.place?_write`,
`Settings.ofEntries?_of_shows`, `Settings.load_saveBy`.
-/
import MarkdownHtml.Proofs.Encoding
import MarkdownHtml.Proofs.TomlWriting
import MarkdownHtml.Settings.File

namespace MarkdownHtml
namespace Store

variable {store other : Store} {path place : Path} {entry : Entry}

theorem find?_put_self (path : Path) (entry : Entry) (store : Store) :
    (store.put path entry).find? path = some entry := by
  simp [put, find?]

theorem find?_put_of_ne (h : place ≠ path) (entry : Entry) (store : Store) :
    (store.put path entry).find? place = store.find? place := by
  have hne : (place == path) = false := by simpa using h
  simp [put, find?, List.lookup_cons, hne]

/-! ### Directories are made, files stay -/

/-- Two stores with the same files, whatever their directories. -/
def SameFiles (store other : Store) : Prop :=
  ∀ place content, other.find? place = some (.file content) ↔
    store.find? place = some (.file content)

/-- A new directory changes no file. -/
theorem sameFiles_put (h : store.find? path = none) :
    SameFiles store (store.put path .directory) := by
  intro place content
  by_cases hplace : place = path
  · subst hplace
    simp [find?_put_self, h]
  · rw [find?_put_of_ne hplace]

theorem sameFiles_makeFrom : ∀ (steps : List String) (path : Path) (store : Store),
    SameFiles store (makeFrom path steps store).2
  | [], _, _ => fun _ _ => Iff.rfl
  | name :: rest, path, store => by
    rw [makeFrom]
    cases hfound : store.find? (path.step name) with
    | none =>
      intro place content
      have hrest := sameFiles_makeFrom rest (path.step name) (store.put (path.step name) .directory)
      exact (hrest place content).trans (sameFiles_put hfound place content)
    | some entry =>
      cases entry with
      | directory => exact sameFiles_makeFrom rest (path.step name) store
      | file _ => exact fun _ _ => Iff.rfl

/-- Making directories leaves every file as it is. -/
theorem sameFiles_makeAlong (steps : List String) (store : Store) :
    SameFiles store (store.makeAlong steps).2 := sameFiles_makeFrom steps [] store

/-! ### A file is found where it was written -/

/-- Steps lead to the same place where all their directories are still there. -/
theorem follow?_mono
    (h : ∀ path, store.find? path = some .directory → other.find? path = some .directory) :
    ∀ (steps : List String) {path place : Path}, store.follow? path steps = some place →
    other.follow? path steps = some place
  | [], _, _, hsteps => hsteps
  | name :: rest, path, place, hsteps => by
    rw [follow?] at hsteps ⊢
    split at hsteps
    · rename_i hdir
      rw [if_pos (h path hdir)]
      exact follow?_mono h rest hsteps
    · cases hsteps

/-- A text leads to the file that was written there. -/
theorem place?_write {text : String} {content : List UInt8}
    (h : store.write text content = some other) :
    ∃ place, other.place? text = some place ∧ other.find? place = some (.file content) := by
  unfold write at h
  split at h
  · cases h
  rename_i place hplace
  split at h
  · cases h
  rename_i hfree
  obtain rfl := Option.some.inj h
  refine ⟨place, ?_, find?_put_self place _ store⟩
  -- the directories on the way are not where the file is written
  have hkept : ∀ path, store.find? path = some .directory →
      (store.put place (.file content)).find? path = some .directory := by
    intro path hdir
    have hne : path ≠ place := by
      rintro rfl
      exact hfree hdir
    rw [find?_put_of_ne hne, hdir]
  unfold place? at hplace ⊢
  split at hplace
  · cases hplace
  · rename_i htext
    rw [if_neg htext]
    exact follow?_mono hkept _ hplace

end Store

namespace Settings

open Toml

/-! ### Options are read from the entries that show them -/

/-- What stands under two keys where there are no others. -/
theorem fields?_of_get? {first second : String} {v w : Value} {origin : Origin} {entries : Entries}
    (hfirst : entries.get? first = some v) (hsecond : entries.get? second = some w)
    (hother : ∀ key, key ≠ first → key ≠ second → entries.get? key = none) :
    fields? first second (.table origin entries) = some (some v, some w) := by
  have hknown : (entries.filter fun e => e.1 != first && e.1 != second) = [] := by
    rw [List.filter_eq_nil_iff]
    intro e he hnew
    obtain ⟨hne, hne'⟩ : e.1 ≠ first ∧ e.1 ≠ second := by simpa using hnew
    exact lookup_eq_none_iff_not_mem.mp (hother e.1 hne hne') (List.mem_map_of_mem he)
  rw [fields?, hknown, hfirst, hsecond]
  rfl

/-- The two keys of a table that is shown with two rows. -/
theorem fields?_of_shows (name : String) {entries : Entries} {tables : Tables}
    {first second : String} {v w : Plain} (h : entries.Shows tables) (hne : first ≠ second)
    (hrows : tables.lookup name = some [(first, v), (second, w)]) :
    ∃ table, entries.get? name = some table ∧
      fields? first second table = some (some v.value, some w.value) := by
  obtain ⟨origin, inner, hfound, hinner⟩ := h.table (mem_of_lookup_eq_some hrows)
  simp only [Tables.value?, hrows, Option.bind_some] at hinner
  refine ⟨_, hfound, fields?_of_get? ?_ ?_ fun key hfirst hsecond => ?_⟩
  · simp [hinner]
  · simp [hinner, List.lookup_cons, beq_eq_false_iff_ne.mpr hne.symm]
  · simp [hinner, List.lookup_cons, beq_eq_false_iff_ne.mpr hfirst,
      beq_eq_false_iff_ne.mpr hsecond]

theorem count?_nat {n : Nat} (h : n < Nat.pow 2 64) : count? (.integer (some n)) = some n := by
  have hn : (0 : Int) ≤ n ∧ (n : Int) < (Nat.pow 2 64 : Nat) := by
    constructor
    · exact Int.natCast_nonneg n
    · exact Int.ofNat_lt.mpr h
  simp only [count?]
  rw [if_pos hn, Int.toNat_natCast]

theorem limits?_of_fields {table v w : Value} {bytes nesting : Nat}
    (h : fields? "max_input_bytes" "max_nesting_depth" table = some (some v, some w))
    (hv : count? v = some bytes) (hw : count? w = some nesting) :
    limits? table = some ⟨bytes, nesting⟩ := by
  rw [limits?, h]
  simp [orDefault, hv, hw]

theorem render?_of_fields {table : Value} {stem : String} {filtered : Bool}
    (h : fields? "language_class_prefix" "sanitize_urls" table =
      some (some (.string stem), some (.boolean filtered))) :
    render? table = some ⟨stem, filtered⟩ := by
  rw [render?, h]
  rfl

/-- **Options are read from the entries that show them**, in whatever order these stand. -/
theorem ofEntries?_of_shows {o : Options} {entries : Entries} (h : entries.Shows o.tables)
    (hbytes : o.limits.maxInputBytes < Nat.pow 2 64)
    (hnesting : o.limits.maxNesting < Nat.pow 2 64) : Options.ofEntries? entries = some o := by
  obtain ⟨limits, hlimits, hcounts⟩ := fields?_of_shows "limits" h (by decide) rfl
  obtain ⟨render, hrender, hshape⟩ := fields?_of_shows "render" h (by decide) rfl
  have htables : fields? "limits" "render" (.table .header entries) =
      some (some limits, some render) := by
    refine fields?_of_get? hlimits hrender fun key hkey hkey' => h.none ?_
    simp [Options.tables, hkey, hkey']
  have hread := limits?_of_fields hcounts (count?_nat hbytes) (count?_nat hnesting)
  have hshown := render?_of_fields hshape
  rw [Options.ofEntries?, htables]
  simp [orDefault, hread, hshown]

/-! ### Saving and loading -/

/-- What is loaded from a file that was written with options. -/
theorem loadBy_write {format : Format} {store other : Store} {path : String} {options : Options}
    {text : List Char} (hread : (format.read text).bind Options.ofEntries? = some options)
    (h : store.write path (Text.encode (String.ofList text)) = some other) :
    (loadBy format other path).result = .ok (some options) := by
  obtain ⟨place, hplace, hfile⟩ := Store.place?_write h
  simp only [loadBy, hplace, Option.bind_some, hfile, Text.decode_encode, hread]

/-- How saving can end: with the directories made and every file left alone, or with the file
written. -/
theorem saveBy_cases (format : Format) (options : Options) (path : String) (store : Store) :
    let made := (store.makeAlong (Path.around (Path.steps path))).2
    (∃ e, saveBy format options path store = ⟨.error e, made⟩) ∨
    (∃ text other, format.write options.tables = some text ∧
      made.write path (Text.encode (String.ofList text)) = some other ∧
      saveBy format options path store = ⟨.ok (), other⟩) := by
  intro made
  obtain ⟨done, made', hmade⟩ : ∃ done made', store.makeAlong (Path.around (Path.steps path)) =
      (done, made') := ⟨_, _, rfl⟩
  have hmade' : made = made' := congrArg Prod.snd hmade
  simp only [saveBy, hmade, hmade']
  cases done with
  | false => exact .inl ⟨.noDirectory, rfl⟩
  | true =>
    cases htext : format.write options.tables with
    | none => exact .inl ⟨.noText, rfl⟩
    | some text =>
      cases hwrite : made'.write path (Text.encode (String.ofList text)) with
      | none => exact .inl ⟨.notWritten, by simp [hwrite]⟩
      | some other => exact .inr ⟨text, other, rfl, hwrite, by simp [hwrite]⟩

/-- **Saved options are loaded again**, in every format that keeps to TOML, **and options that
cannot be saved, as those that the format does not write, leave every file with its content.** The
limits are numbers of 64 bits. -/
theorem load_saveBy {format : Format} {carried : Int → Prop} {keeps : List Char → Prop}
    (hformat : format.Conforms carried keeps) (options : Options)
    (hbytes : options.limits.maxInputBytes < Nat.pow 2 64)
    (hnesting : options.limits.maxNesting < Nat.pow 2 64) (path : String) (store : Store) :
    let saved := saveBy format options path store
    (saved.result = .ok () → (loadBy format saved.store path).result = .ok (some options)) ∧
    (∀ e, saved.result = .error e → store.SameFiles saved.store) := by
  intro saved
  obtain ⟨e, hsaved⟩ | ⟨text, other, htext, hwrite, hsaved⟩ := saveBy_cases format options path store
  · simp only [saved, hsaved]
    refine ⟨nofun, fun _ _ => ?_⟩
    exact Store.sameFiles_makeAlong (Path.around (Path.steps path)) store
  · obtain ⟨entries, hread, hshows⟩ := hformat.read_of_write htext
    have hoptions : (format.read text).bind Options.ofEntries? = some options := by
      rw [hread, Option.bind_some, ofEntries?_of_shows hshows hbytes hnesting]
    simp only [saved, hsaved]
    exact ⟨fun _ => loadBy_write hoptions hwrite, nofun⟩

/-- Limits of 64 bits and a text of quotes, a backslash and control characters come back from a
document written line by line. -/
theorem load_saveBy_extreme :
    let options : Options :=
      ⟨⟨18446744073709551615, 0⟩, ⟨"\"\"\"\x27\x27\x27\\\r\n\x00", false⟩⟩
    let store := (({} : Store).put ["etc"] .directory).put ["etc", "c.toml"] (.file [35])
    let saved := save options "etc/../new/c.toml" store
    Format.lines.Conforms (fun _ => True) (fun _ => True) ∧
    options.limits.maxInputBytes < Nat.pow 2 64 ∧ options.limits.maxNesting < Nat.pow 2 64 ∧
    saved.result = .ok () ∧
    (load saved.store "etc/../new/c.toml").result = .ok (some options) := by
  dsimp only
  have hformat : Format.lines.Conforms (fun _ => True) (fun _ => True) :=
    Format.conforms_lines trivial
  refine ⟨hformat, by decide, by decide, ?_⟩
  refine (and_iff_left_of_imp (load_saveBy hformat _ ?_ ?_ _ _).1).mpr ?_
  · decide
  · decide
  · decide +kernel

/-- A format that does not write limits of more than 63 bits leaves the file that is there. -/
example :
    let narrow : Format :=
      ⟨parse?, fun tables =>
        match tables.value? "limits" "max_input_bytes" with
        | some (.integer n) => if n < 2 ^ 63 then Format.lines.write tables else none
        | _ => none⟩
    let store := (({} : Store).put ["etc"] .directory).put ["etc", "c.toml"] (.file [35])
    let saved := saveBy narrow ⟨⟨2 ^ 63, 0⟩, {}⟩ "etc/c.toml" store
    saved.result = .error .noText ∧ saved.store.find? ["etc", "c.toml"] = some (.file [35]) :=
  ⟨rfl, rfl⟩

end Settings
end MarkdownHtml
