import ZondEngine.Lib.Buffered
import ZondEngine.Lib.Utf8
import Mathlib.Algebra.BigOperators.Group.List.Basic

/-!
# CSV written and read back

A row's cells are quoted by what they hold, and hidden behind an apostrophe where a spreadsheet would compute them. The
reader takes a record byte by byte, with a quote or a carriage return held back across buffers.
-/

namespace Zond.Csv

open List Utf8

/-! ## Writing -/

/-- The characters a spreadsheet reads as a formula's start. -/
def FORMULA_LEADERS : List Char := ['=', '+', '-', '@', '\t', '\r']

def startsWithLeader (field : Text) : Bool := field.head?.any (· ∈ FORMULA_LEADERS)

structure Row where
  text : Text
  fields : ℕ

namespace Row

def new : Row := ⟨[], 0⟩

def needsQuotes (field : Text) : Bool :=
  startsWithLeader field || field.any (· ∈ [',', ';', '"', '\n', '\r']) || field.head? == some ' ' ||
    field.getLast? == some ' '

def doubled (c : Char) : Text := if c = '"' then ['"', c] else [c]

/-- Adds a field, guarded and quoted where needed. -/
def push (row : Row) (field : Text) : Row :=
  let text := if row.fields > 0 then row.text ++ [','] else row.text
  ⟨if needsQuotes field then
      text ++ '"' :: (if startsWithLeader field then ['\''] else []) ++ field.flatMap doubled ++ ['"']
    else text ++ field, row.fields + 1⟩

def finish (row : Row) : Bytes := encode (row.text ++ ['\n'])

def write (fields : List Text) : Bytes := (fields.foldl push new).finish

end Row

/-! ## Reading -/

/-- A record half read: the fields before the current one, the current one, and what is held back. -/
structure Reading where
  line : ℕ
  fields : List Bytes := []
  field : Bytes := []
  inQuotes : Bool := false
  quotePending : Bool := false
  atFieldStart : Bool := true
  pendingCr : Bool := false
  finished : Bool := false

namespace Reading

variable (r : Reading) (byte : UInt8)

def push : Reading := { r with field := r.field ++ [byte] }

def plain : Reading :=
  if byte = 13 then { if r.pendingCr then r.push 13 else r with pendingCr := true }
  else
    let r := if r.pendingCr then
        { if byte ≠ 10 then { r.push 13 with atFieldStart := false } else r with pendingCr := false }
      else r
    if byte = 34 ∧ r.atFieldStart then { r with inQuotes := true, atFieldStart := false }
    else if byte = 44 then { r with fields := r.fields ++ [r.field], field := [], atFieldStart := true }
    else if byte = 10 then
      { r with line := r.line + 1, fields := r.fields ++ [r.field], field := [], finished := true }
    else { r.push byte with atFieldStart := false }

def quoted : Reading :=
  let r := if byte = 10 then { r with line := r.line + 1 } else r
  if byte = 34 then { r with quotePending := true } else r.push byte

/-- One byte. -/
def feed : Reading :=
  if r.quotePending then
    if byte = 34 then { r with quotePending := false }.push 34
    else { r with quotePending := false, inQuotes := false }.plain byte
  else if r.inQuotes then r.quoted byte
  else r.plain byte

end Reading

/-- A record half read, with its length so far, against the bound on it. -/
structure Bounded where
  reading : Reading
  total : ℕ := 0
  tooLong : Bool := false

namespace Bounded

def feed (maxBytes : ℕ) (s : Bounded) (byte : UInt8) : Bounded :=
  if s.total + 1 > maxBytes then { s with total := s.total + 1, tooLong := true }
  else { s with total := s.total + 1, reading := s.reading.feed byte }

def stopped (s : Bounded) : Bool := s.tooLong || s.reading.finished

end Bounded

/-- `UTF8_BOM_CHAR`; its encoding is `UTF8_BOM`. -/
def bom : Char := '\uFEFF'

def stripBom (fields : List Bytes) : List Bytes :=
  fields.modifyHead fun field => if encode [bom] <+: field then field.drop (encode [bom]).length else field

inductive Outcome
  | ended
  | record (fields : List Bytes)
  | tooLong (origin limit : ℕ)
  deriving DecidableEq

variable (started : Bool) (maxBytes line : ℕ)

def Bounded.outcome (s : Bounded) : Outcome :=
  if s.tooLong then .tooLong line maxBytes
  else if !s.reading.finished && s.total = 0 then .ended
  else
    let r := s.reading
    let fields := if r.finished then r.fields else r.fields ++ [if r.pendingCr then r.field ++ [13] else r.field]
    .record (if started then fields else stripBom fields)

/-- `Record::read`: the record, the line counter after it, and the source. -/
def read (source : Input UInt8) : Outcome × ℕ × Input UInt8 :=
  let s := source.drive (Bounded.feed maxBytes) Bounded.stopped source.rest.length { reading := { line } }
  (s.1.outcome started maxBytes line, s.1.reading.line, s.2)

/-- The records up to the end of the input or one that is too long, the line counter, and that one. -/
def readAll (maxBytes : ℕ) : (fuel : ℕ) → (started : Bool) → (line : ℕ) → Input UInt8 →
    List (List Bytes) × ℕ × Option Outcome
  | 0, _, line, _ => ([], line, none)
  | fuel + 1, started, line, source =>
    match read started maxBytes line source with
    | (.ended, line, _) => ([], line, none)
    | (.record fields, line, source) =>
      let rest := readAll maxBytes fuel true line source
      (fields :: rest.1, rest.2)
    | (failed, line, _) => ([], line, some failed)

def records (source : Input UInt8) : List (List Bytes) × ℕ × Option Outcome :=
  readAll maxBytes (source.rest.length + 1) false line source

/-- Takes the guard off a field. -/
def unescape (field : Text) : Text :=
  if field.head? = some '\'' ∧ startsWithLeader field.tail then field.tail else field

/-- `Record::field`; `none` where the bytes are no text. -/
def field (fields : List Bytes) (column : ℕ) : Option (Option Text) :=
  match fields[column]? with
  | none => some none
  | some bytes => (decode bytes).map fun text => some (unescape text.trim)

/-! ## A cell -/

/-- What a cell holds: the field, behind the apostrophe where one was put. -/
def guarded (field : Text) : Text := if startsWithLeader field then '\'' :: field else field

def cell (field : Text) : Text :=
  if Row.needsQuotes field then '"' :: (guarded field).flatMap Row.doubled ++ ['"'] else field

theorem Row.push_text (row : Row) (field : Text) :
    (row.push field).text = (if row.fields > 0 then row.text ++ [','] else row.text) ++ cell field := by
  unfold push cell guarded
  by_cases hleader : startsWithLeader field = true <;> by_cases hquotes : needsQuotes field = true <;>
    simp [hleader, hquotes, doubled]

theorem Row.foldl_push (fields : List Text) (row : Row) (h : row.fields > 0) :
    (fields.foldl push row).text = row.text ++ fields.flatMap fun field => ',' :: cell field := by
  induction fields generalizing row with
  | nil => simp
  | cons field fields ih =>
    rw [foldl_cons, ih _ (Nat.succ_pos _), push_text, if_pos h]
    simp

theorem Row.write_cons (field : Text) (fields : List Text) :
    write (field :: fields) = encode (cell field ++ (fields.flatMap fun field => ',' :: cell field) ++ ['\n']) := by
  rw [write, finish, foldl_cons, foldl_push _ _ (Nat.succ_pos _), push_text]
  rfl

def doubledByte (b : UInt8) : Bytes := if b = 34 then [34, b] else [b]

theorem encode_doubled (text : Text) : encode (text.flatMap Row.doubled) = (encode text).flatMap doubledByte := by
  induction text with
  | nil => rfl
  | cons c text ih =>
    rw [flatMap_cons, encode_append, ih, encode_cons, flatMap_append]
    congr 1
    by_cases hc : c = '"'
    · subst hc; rfl
    · have hbytes : ∀ b ∈ encode [c], doubledByte b = [b] := by
        intro b hb
        refine if_neg fun h => hc ?_
        subst h
        exact (mem_singleton.mp (mem_encode_ascii (a := '"') (by decide) hb)).symm
      have hc' : encode [c] = String.utf8EncodeChar c := append_nil _
      rw [Row.doubled, if_neg hc, hc', ← hc', flatMap_congr hbytes]
      simp

/-! ## A cell read back -/

namespace Reading

/-- The state inside a field, quoted or not, that holds `body` so far. -/
def At (inQuotes : Bool) (fields : List Bytes) (body : Bytes) (r : Reading) : Prop :=
  r.fields = fields ∧ r.field = body ∧ r.inQuotes = inQuotes ∧ r.quotePending = false ∧ r.pendingCr = false ∧
    r.finished = false

/-- The state at the end of a field that holds `body`. -/
def Filled (fields : List Bytes) (body : Bytes) (r : Reading) : Prop :=
  r.fields = fields ∧ r.field = body ∧ r.inQuotes = r.quotePending ∧ r.pendingCr = false ∧ r.finished = false

/-- The state at the start of a field. -/
def Fresh (fields : List Bytes) (r : Reading) : Prop := r.At false fields [] ∧ r.atFieldStart = true

abbrev after (r : Reading) (bytes : Bytes) : Reading := (Input.scan feed finished r bytes).1

variable {r : Reading} {fields : List Bytes} {body : Bytes}

theorem after_single (r : Reading) (b : UInt8) : r.after [b] = r.feed b := by
  by_cases h : (r.feed b).finished = true <;> simp [after, Input.scan, h]

theorem after_append {xs : Bytes} (h : r.finished = false) (hxs : (r.after xs).finished = false) (ys : Bytes) :
    r.after (xs ++ ys) = (r.after xs).after ys := by
  rw [after, Input.scan_append h, if_neg (by simp [hxs])]

theorem after_plain (h : r.At false fields body) (bytes : Bytes)
    (hbytes : ∀ b ∈ bytes, b ≠ 44 ∧ b ≠ 34 ∧ b ≠ 10 ∧ b ≠ 13) : (r.after bytes).At false fields (body ++ bytes) := by
  have hstep : ∀ done b r, b ∈ bytes → At false fields (body ++ done) r →
      At false fields (body ++ (done ++ [b])) (r.after [b]) := by
    rintro done b r hb ⟨rfl, hfield, hquotes, hpending, hcr, hfinished⟩
    obtain ⟨h44, h34, h10, h13⟩ := hbytes b hb
    simp [after_single, At, feed, plain, push, *]
  have := Input.scan_flatMap (fun _ _ h => h.2.2.2.2.2) hstep [] (by simpa using h)
  simpa using this

theorem after_quoted (h : r.At true fields body) (bytes : Bytes) :
    (r.after (bytes.flatMap doubledByte)).At true fields (body ++ bytes) := by
  refine Input.scan_flatMap (P := fun done r => At true fields (body ++ done) r) (fun _ _ h => h.2.2.2.2.2)
    (fun done b r hb h => ?_) [] (by simpa using h)
  obtain ⟨rfl, hfield, hquotes, hpending, hcr, hfinished⟩ := h
  by_cases h34 : b = 34
  · simp [doubledByte, Input.scan, At, feed, quoted, push, *]
  · have : (r.after [b]).At true r.fields (body ++ (done ++ [b])) := by
      by_cases h10 : b = 10 <;> simp [after_single, At, feed, quoted, push, *]
    simpa [doubledByte, h34] using this

theorem At.close (h : r.At true fields body) : (r.feed 34).Filled fields body := by
  obtain ⟨rfl, hfield, hquotes, hpending, hcr, hfinished⟩ := h
  simp [Filled, feed, quoted, *]

theorem Filled.comma (h : r.Filled fields body) : (r.feed 44).Fresh (fields ++ [body]) := by
  obtain ⟨rfl, rfl, hquotes, hcr, hfinished⟩ := h
  cases hpending : r.quotePending <;> simp [Fresh, At, feed, plain, *]

theorem Filled.newline (h : r.Filled fields body) :
    (r.feed 10).finished = true ∧ (r.feed 10).fields = fields ++ [body] := by
  obtain ⟨rfl, rfl, hquotes, hcr, hfinished⟩ := h
  cases hpending : r.quotePending <;> simp [feed, plain, *]

theorem after_cell (h : r.Fresh fields) (field : Text) :
    (r.after (encode (cell field))).Filled fields (encode (guarded field)) := by
  obtain ⟨hat, hstart⟩ := h
  unfold cell
  split
  · have hcell : encode ('"' :: (guarded field).flatMap Row.doubled ++ ['"']) =
        34 :: ((encode (guarded field)).flatMap doubledByte ++ [34]) := by
      rw [cons_append, encode_cons, encode_append, encode_doubled]
      rfl
    have hopen : (r.feed 34).At true fields [] := by
      obtain ⟨rfl, hfield, hquotes, hpending, hcr, hfinished⟩ := hat
      simp [At, feed, plain, *]
    have hbody := after_quoted hopen (encode (guarded field))
    rw [hcell, after, Input.scan_cons hopen.2.2.2.2.2]
    change Filled _ _ (Reading.after _ _)
    rw [after_append hopen.2.2.2.2.2 hbody.2.2.2.2.2, after_single]
    exact hbody.close
  · next hquotes =>
    have hleader : guarded field = field := by
      refine if_neg fun hleader => hquotes ?_
      simp [Row.needsQuotes, hleader]
    have hspecial : ∀ c ∈ [',', '"', '\n', '\r'], c ∉ field := by
      intro c hc hmem
      refine hquotes ?_
      simp only [Row.needsQuotes, Bool.or_eq_true, any_eq_true]
      exact .inl (.inl (.inr ⟨c, hmem, by simp at hc; grind⟩))
    have hplain := after_plain hat (encode field) fun b hb => by
      refine ⟨?_, ?_, ?_, ?_⟩ <;> rintro rfl
      · exact hspecial ',' (by simp) (mem_encode_ascii (by decide) hb)
      · exact hspecial '"' (by simp) (mem_encode_ascii (by decide) hb)
      · exact hspecial '\n' (by simp) (mem_encode_ascii (by decide) hb)
      · exact hspecial '\r' (by simp) (mem_encode_ascii (by decide) hb)
    obtain ⟨h1, h2, h3, h4, h5, h6⟩ := hplain
    rw [hleader]
    exact ⟨h1, h2, h3.trans h4.symm, h5, h6⟩

/-- **A row is read as its fields**, to its last byte. -/
theorem after_row (h : r.Fresh []) {fields : List Text} (hne : fields ≠ []) :
    (Input.scan feed finished r (Row.write fields)).2 = (Row.write fields).length ∧
      (r.after (Row.write fields)).finished = true ∧
      (r.after (Row.write fields)).fields = fields.map (encode ∘ guarded) := by
  obtain ⟨first, fields, rfl⟩ := exists_cons_of_ne_nil hne
  -- after each cell, the fields up to it
  let P (done : List Text) (r : Reading) : Prop :=
    ∃ read body, r.Filled read body ∧ read ++ [body] = (first :: done).map (encode ∘ guarded)
  have hgo : ∀ done r, P done r → r.finished = false := fun done r ⟨_, _, h, _⟩ => h.2.2.2.2
  have hfirst : P [] (r.after (encode (cell first))) := ⟨[], _, after_cell h first, rfl⟩
  have hstep : ∀ done field r, field ∈ fields → P done r →
    P (done ++ [field]) (r.after (encode (',' :: cell field))) := by
    rintro done field r - ⟨read, body, hfilled, hread⟩
    have hcomma := hfilled.comma
    refine ⟨read ++ [body], encode (guarded field), ?_, by rw [hread]; simp⟩
    rw [encode_cons, show String.utf8EncodeChar ',' = [44] from rfl, singleton_append, after,
      Input.scan_cons hcomma.1.2.2.2.2.2]
    exact after_cell hcomma field
  have hwrite : Row.write (first :: fields) =
      encode (cell first) ++ (fields.flatMap fun field => encode (',' :: cell field)) ++ [10] := by
    rw [Row.write_cons, encode_append, encode_append]
    simp [encode, flatMap_assoc]
    rfl
  set cells := encode (cell first) ++ fields.flatMap fun field => encode (',' :: cell field)
  have hcells : P fields (r.after cells) := by
    rw [after_append h.1.2.2.2.2.2 (hgo _ _ hfirst)]
    exact Input.scan_flatMap hgo hstep [] hfirst
  have hopen := hgo _ _ hcells
  obtain ⟨read, body, hfilled, hread⟩ := hcells
  obtain ⟨hfinished, hfields⟩ := hfilled.newline
  rw [hwrite, after_append h.1.2.2.2.2.2 hopen, after_single, ← hread]
  refine ⟨?_, hfinished, hfields⟩
  rw [Input.scan_append h.1.2.2.2.2.2, if_neg (by simp [hopen]), Input.scan_taken _ _ hopen]
  simp [Input.scan, hfinished]

end Reading

/-- Below the bound, the bound changes nothing. -/
theorem Bounded.scan_feed {maxBytes : ℕ} (bytes : Bytes) (r : Reading) (total : ℕ)
    (h : total + bytes.length ≤ maxBytes) :
    Input.scan (feed maxBytes) stopped ⟨r, total, false⟩ bytes =
      (⟨r.after bytes, total + (Input.scan Reading.feed Reading.finished r bytes).2, false⟩,
        (Input.scan Reading.feed Reading.finished r bytes).2) := by
  induction bytes generalizing r total with
  | nil => rfl
  | cons b bytes ih =>
    rw [length_cons] at h
    have hfeed : feed maxBytes ⟨r, total, false⟩ b = ⟨r.feed b, total + 1, false⟩ := if_neg (by dsimp only; omega)
    rw [Input.scan, hfeed, ih _ _ (by omega)]
    by_cases hstop : (r.feed b).finished = true
    · simp [Input.scan, stopped, hstop, Reading.after]
    · simp [Input.scan, stopped, hstop, Reading.after, Nat.add_assoc, Nat.add_comm 1]

/-- A row read as a record; a byte-order mark at the start of the input would go. -/
theorem read_row {maxBytes : ℕ} (line : ℕ) {fields : List Text} (hne : fields ≠ [])
    (hmax : (Row.write fields).length ≤ maxBytes) (rest : Bytes) (sizes : ℕ → ℕ) :
    (read started maxBytes line ⟨Row.write fields ++ rest, sizes⟩).1 = .record
        (if started then fields.map (encode ∘ guarded) else stripBom (fields.map (encode ∘ guarded))) ∧
      (read started maxBytes line ⟨Row.write fields ++ rest, sizes⟩).2.2.rest = rest := by
  have hfresh : Reading.Fresh [] { line } := ⟨⟨rfl, rfl, rfl, rfl, rfl, rfl⟩, rfl⟩
  obtain ⟨htaken, hfinished, hfields⟩ := Reading.after_row hfresh hne
  have hscan := Bounded.scan_feed (Row.write fields) { line } 0 (by simpa using hmax)
  obtain ⟨hstate, hrest⟩ := Input.drive_eq_scan (Bounded.feed maxBytes) Bounded.stopped _
    { reading := { line } } ⟨Row.write fields ++ rest, sizes⟩ rfl le_rfl
  rw [Input.scan_append rfl, hscan, if_pos (by simp [Bounded.stopped, hfinished])] at hstate hrest
  refine ⟨?_, hrest.trans (by simp [htaken])⟩
  simp only [read, hstate, Bounded.outcome, hfinished, hfields]
  simp

theorem bom_not_prefix {field : Text} (h : field.head? ≠ some bom) : ¬ encode [bom] <+: encode (guarded field) := by
  intro hprefix
  obtain ⟨rest, hrest⟩ := isPrefix_of_encode hprefix
  unfold guarded at hrest
  split at hrest
  · cases hrest
  · exact h (by rw [← hrest]; rfl)

/-- What is read depends on the bytes of the source, not on its buffers. -/
theorem readAll_congr (maxBytes : ℕ) : ∀ (fuel : ℕ) (started : Bool) (line : ℕ) {source source' : Input UInt8},
    source.rest = source'.rest → readAll maxBytes fuel started line source = readAll maxBytes fuel started line source'
  | 0, _, _, _, _, _ => rfl
  | fuel + 1, started, line, source, source', h => by
    obtain ⟨hstate, hrest⟩ := Input.drive_eq_scan (Bounded.feed maxBytes) Bounded.stopped _
      { reading := { line } } source rfl le_rfl
    obtain ⟨hstate', hrest'⟩ := Input.drive_eq_scan (Bounded.feed maxBytes) Bounded.stopped _
      { reading := { line } } source' rfl le_rfl
    rw [← h, ← hstate] at hstate'
    rw [← h, ← hrest] at hrest'
    have hnext := fun line => readAll_congr maxBytes fuel true line hrest'.symm
    simp only [readAll, read, ← hstate']
    split <;> simp_all

theorem readAll_rows {maxBytes : ℕ} {rows : List (List Text)} (hne : ∀ row ∈ rows, row ≠ [])
    (hmax : ∀ row ∈ rows, (Row.write row).length ≤ maxBytes) : ∀ {fuel : ℕ} (started : Bool) (line : ℕ) (sizes : ℕ → ℕ),
    rows.length < fuel → (started = false → ∀ row ∈ rows.head?, ∀ field ∈ row.head?, field.head? ≠ some bom) →
    ∃ line', readAll maxBytes fuel started line ⟨rows.flatMap Row.write, sizes⟩ =
      (rows.map (·.map (encode ∘ guarded)), line', none) := by
  induction rows with
  | nil =>
    intro fuel started line sizes hfuel _
    obtain ⟨fuel, rfl⟩ := Nat.exists_eq_succ_of_ne_zero (Nat.ne_of_gt hfuel)
    exact ⟨line, rfl⟩
  | cons row rows ih =>
    intro fuel started line sizes hfuel hbom
    obtain ⟨fuel, rfl⟩ := Nat.exists_eq_succ_of_ne_zero (Nat.ne_of_gt (Nat.zero_lt_of_lt hfuel))
    obtain ⟨first, fields, rfl⟩ := exists_cons_of_ne_nil (hne row mem_cons_self)
    obtain ⟨houtcome, hrest⟩ := read_row started line (hne _ mem_cons_self) (hmax _ mem_cons_self)
      (rows.flatMap Row.write) sizes
    rcases hread : read started maxBytes line _ with ⟨outcome, line₁, rest, sizes₁⟩
    rw [hread] at houtcome hrest
    obtain rfl : rest = _ := hrest
    obtain rfl : outcome = .record ((first :: fields).map (encode ∘ guarded)) := by
      refine houtcome.trans (congrArg _ ?_)
      cases started
      · simp [stripBom, bom_not_prefix (hbom rfl _ rfl first rfl)]
      · rfl
    obtain ⟨line', hline⟩ :=
      ih (fun row h => hne row (mem_cons_of_mem _ h)) (fun row h => hmax row (mem_cons_of_mem _ h))
      true line₁ sizes₁ (Nat.lt_of_succ_lt_succ hfuel) (by simp)
    exact ⟨line', by simp only [flatMap_cons, readAll, hread, hline, map_cons]⟩

/-- **Rows are read back as they were written**, whatever buffers the source gives. -/
theorem rows_read_back (maxBytes : ℕ) :
    (∀ rows : List (List Text), (∀ row ∈ rows, row ≠ []) → (∀ row ∈ rows, (Row.write row).length ≤ maxBytes) →
      (∀ row ∈ rows.head?, ∀ field ∈ row.head?, field.head? ≠ some bom) → ∀ line sizes, ∃ line',
        records maxBytes line ⟨rows.flatMap Row.write, sizes⟩ = (rows.map (·.map (encode ∘ guarded)), line', none)) ∧
      ∀ bytes line sizes sizes', records maxBytes line ⟨bytes, sizes⟩ = records maxBytes line ⟨bytes, sizes'⟩ := by
  refine ⟨fun rows hne hmax hbom line sizes => readAll_rows hne hmax _ _ _ ?_ fun _ => hbom,
    fun bytes line sizes sizes' =>
    readAll_congr maxBytes _ _ _ rfl⟩
  -- every row has its line break at least
  have hpos : ∀ n ∈ rows.map (length ∘ Row.write), 1 ≤ n := by
    simp only [mem_map, Function.comp_apply]
    rintro _ ⟨row, -, rfl⟩
    rw [Row.write, Row.finish, encode_append, length_append]
    exact Nat.le_add_left 1 _
  have := length_le_sum_of_one_le _ hpos
  rw [length_map] at this
  simpa [length_flatMap, Function.comp_def, Nat.lt_succ_iff] using this

theorem trimEnd_of_trim {text : Text} (h : text.trim = text) : text.trimEnd = text := by
  have hle := (Text.trimEnd_isPrefix (text.dropWhile Text.isWhitespace)).length_le
  rw [← Text.trim, h] at hle
  have hdrop := (dropWhile_suffix (l := text) Text.isWhitespace).eq_of_length_le hle
  rwa [Text.trim, hdrop] at h

theorem unescape_guarded {text : Text} (h : text.trim = text) : unescape (guarded text).trim = text ↔
    ¬ (text.head? = some '\'' ∧ startsWithLeader text.tail) := by
  unfold guarded
  by_cases hleader : startsWithLeader text = true
  · have htrim : Text.trim ('\'' :: text) = '\'' :: text := by
      have := Text.trimEnd_append_cons (c := '\'') (by decide) [] text
      rw [trimEnd_of_trim h] at this
      exact this
    have hnot : text.head? ≠ some '\'' := by
      intro hhead
      simp [startsWithLeader, hhead, FORMULA_LEADERS] at hleader
    simp [hleader, htrim, unescape, hnot]
  · simp only [hleader, Bool.false_eq_true, if_false, h, unescape]
    split
    · next hboth =>
      refine iff_of_false (fun heq => ?_) fun hnot => hnot hboth
      obtain ⟨rest, rfl⟩ := head?_eq_some_iff.mp hboth.1
      exact absurd (congrArg length heq) (by simp)
    · next hboth => simpa using hboth

theorem rows_read_back_quoted :
    ∃ line', records 4096 1 ⟨[[['=', '1'], []], [['"', '\n']]].flatMap Row.write, fun _ => 0⟩ =
    ([[[39, 61, 49], []], [[34, 10]]], line', none) :=
  (rows_read_back 4096).1 [[['=', '1'], []], [['"', '\n']]] (by decide) (by decide) (by decide) 1 fun _ => 0

/-- **A guard is undone exactly**, but for a text that begins with an apostrophe and a formula character of its own, and
for one at the start of the input that begins with a byte-order mark. -/
theorem field_read_back_iff (before after : List Text) (text : Text) (rest : Bytes)
    (sizes : ℕ → ℕ) (htrim : text.trim = text) (hmax : (Row.write (before ++ text :: after)).length ≤ maxBytes) :
    (∃ fields, (read started maxBytes line ⟨Row.write (before ++ text :: after) ++ rest, sizes⟩).1 = .record fields ∧
      field fields before.length = some (some text)) ↔ ¬ (text.head? = some '\'' ∧ startsWithLeader text.tail) ∧
        ¬ (started = false ∧ before = [] ∧ text.head? = some bom) := by
  obtain ⟨houtcome, -⟩ := read_row started line (by simp) hmax rest sizes
  simp only [houtcome, Outcome.record.injEq, exists_eq_left', ← unescape_guarded htrim]
  by_cases hfirst : started = false ∧ before = []
  · obtain ⟨rfl, rfl⟩ := hfirst
    by_cases hbom : text.head? = some bom
    · obtain ⟨rest, rfl⟩ := head?_eq_some_iff.mp hbom
      have hguarded : guarded (bom :: rest) = bom :: rest := if_neg (by simp [startsWithLeader, bom, FORMULA_LEADERS])
      have hlength : (unescape (Text.trim rest)).length < (bom :: rest).length := by
        have h1 := (Text.trimEnd_isPrefix (rest.dropWhile Text.isWhitespace)).length_le
        have h2 := (dropWhile_suffix (l := rest) Text.isWhitespace).length_le
        unfold unescape Text.trim
        split <;> simp <;> omega
      have hne : unescape (Text.trim rest) ≠ bom :: rest := fun h => by simp [h] at hlength
      simp [field, stripBom, hguarded, encode_cons bom rest, show encode [bom] = String.utf8EncodeChar bom from rfl,
        decode_encode, hne]
    · simp [field, stripBom, bom_not_prefix hbom, decode_encode, hbom]
  · have hcolumn : (if started = true then (before ++ text :: after).map (encode ∘ guarded) else
        stripBom ((before ++ text :: after).map (encode ∘ guarded)))[before.length]? =
          some (encode (guarded text)) := by
      cases before <;> cases started <;> simp_all [stripBom]
    rw [field, hcolumn]
    simp only [decode_encode]
    simp
    tauto

/-- A guarded text comes back without its guard. -/
theorem field_read_back_guarded : ∃ fields,
    (read true 4096 1 ⟨Row.write [['=', '1']] ++ [], fun _ => 0⟩).1 = .record fields ∧
      field fields 0 = some (some ['=', '1']) :=
  (field_read_back_iff true 4096 1 [] [] ['=', '1'] [] (fun _ => 0) (by decide) (by decide)).mpr (by decide)

/-- `'=1` is written as it is, and read back without its apostrophe. -/
theorem field_read_back_apostrophe : Text.trim ['\'', '=', '1'] = ['\'', '=', '1'] ∧
    (read true 4096 1 ⟨Row.write [['\'', '=', '1']], fun _ => 4095⟩).1 = .record [[39, 61, 49]] ∧
      field [[39, 61, 49]] 0 = some (some ['=', '1']) := by
  decide

end Zond.Csv
