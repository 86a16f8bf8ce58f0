import ZondEngine.Lib.Lines
import ZondEngine.Lib.Utf8

/-!
# The journal's framing

`journal/format.rs`: one record per line behind a header, and a reader that tolerates a last line left unfinished.
What is assumed of serialisation is `Serde.Lawful`. `torn_tail_iff`: what is read of a file cut short.
-/

namespace Zond.Journal

open Zond.Utf8 List

/-! ## Definitions -/

def JOURNAL_VERSION : Nat := 1

def ENGINE_NAME : Text := "zond-engine"

def MAX_READ_BYTES : Nat := 256 * 1024 * 1024

/-- Why a journal cannot be read or written. -/
inductive JournalError where
  | notAJournal
  | versionTooNew (found understood : Nat)
  | malformed (line : Nat) (message : Text)
  | io (message : Text)
  deriving DecidableEq

structure Header where
  journalVersion : Nat
  (engine engineVersion : Text)
  deriving DecidableEq

def Header.current : Header := ⟨JOURNAL_VERSION, ENGINE_NAME, "0.19.0"⟩

structure Serde (α : Type) where
  toString : α → Except Text Text
  fromStr : Text → Except Text α

/-- A value is written as an object on one line, which reads back as the value, and no part that stops short reads back.
-/
structure Serde.Lawful {α : Type} (serde : Serde α) : Prop where
  one_line : ∀ {record text}, serde.toString record = .ok text → '\n' ∉ text
  object : ∀ {record text}, serde.toString record = .ok text → ∃ body, text = '\x7b' :: body ++ ['\x7d']
  parses_back : ∀ {record text}, serde.toString record = .ok text → serde.fromStr text = .ok record
  rejects_part : ∀ {record text}, serde.toString record = .ok text → ∀ part, part <+: text → part ≠ text →
    ∃ message, serde.fromStr part = .error message

/-- Serialisation of the values of a table, which gives the fields each is written with. -/
def Serde.ofTable {α : Type} [DecidableEq α] (table : List (α × Text)) : Serde α where
  toString record := (table.lookup record).elim (.error "unknown value") fun body =>
    .ok ('\x7b' :: body ++ ['\x7d'])
  fromStr text := (table.find? fun entry => '\x7b' :: entry.2 ++ ['\x7d'] = text).elim
    (.error "expected value") fun entry => .ok entry.1

theorem Serde.lawful_ofTable {α : Type} [DecidableEq α] {table : List (α × Text)}
    (hline : ∀ entry ∈ table, '\n' ∉ entry.2)
    (hfree : ∀ entry ∈ table, ∀ other ∈ table, entry.2 ++ ['\x7d'] <+: other.2 ++ ['\x7d'] → entry = other) :
    (Serde.ofTable table).Lawful := by
  have hmem : ∀ {record text}, (Serde.ofTable table).toString record = .ok text →
      ∃ body, (record, body) ∈ table ∧ text = '\x7b' :: body ++ ['\x7d'] := by
    intro record text htext
    cases hlookup : table.lookup record with
    | none => simp [Serde.ofTable, hlookup] at htext
    | some body =>
      obtain ⟨before, after, rfl, -⟩ := lookup_eq_some_iff.mp hlookup
      exact ⟨body, by simp, by simpa [Serde.ofTable, hlookup] using htext.symm⟩
  -- whatever is read of the start of a text is the value of that text, so the text is whole
  have hread : ∀ {record body part}, (record, body) ∈ table → part <+: '\x7b' :: body ++ ['\x7d'] →
      ∀ entry, table.find? (fun entry => '\x7b' :: entry.2 ++ ['\x7d'] = part) = some entry →
        entry = (record, body) := by
    intro record body part hentry hpart entry hfound
    obtain rfl : '\x7b' :: entry.2 ++ ['\x7d'] = part := by simpa using find?_some hfound
    exact hfree _ (mem_of_find?_eq_some hfound) _ hentry (cons_prefix_cons.mp hpart).2
  constructor
  · intro record text htext
    obtain ⟨body, hentry, rfl⟩ := hmem htext
    simpa using hline _ hentry
  · intro record text htext
    obtain ⟨body, -, rfl⟩ := hmem htext
    exact ⟨body, rfl⟩
  · intro record text htext
    obtain ⟨body, hentry, rfl⟩ := hmem htext
    cases hfind : table.find? fun entry => '\x7b' :: entry.2 ++ ['\x7d'] = '\x7b' :: body ++ ['\x7d'] with
    | none => simpa using find?_eq_none.mp hfind _ hentry
    | some entry =>
      obtain rfl := hread hentry ⟨[], append_nil _⟩ entry hfind
      simp only [Serde.ofTable, hfind, Option.elim_some]
  · intro record text htext part hpart hne
    obtain ⟨body, hentry, rfl⟩ := hmem htext
    cases hfind : table.find? fun entry => '\x7b' :: entry.2 ++ ['\x7d'] = part with
    | none =>
      refine ⟨"expected value", ?_⟩
      simp only [Serde.ofTable, hfind, Option.elim_none]
    | some entry =>
      obtain rfl := hread hentry hpart entry hfind
      have hwhole : '\x7b' :: body ++ ['\x7d'] = part := by simpa using find?_some hfind
      exact absurd hwhole.symm hne

def newline : UInt8 := 10

namespace Writer

variable {α : Type}

/-- Appends one record. -/
def write (serde : Serde α) (inner : Bytes) (record : α) : Except JournalError Bytes :=
  match serde.toString record with
  | .ok text => .ok (inner ++ encode text ++ [newline])
  | .error message => .error (.malformed 0 message)

def create (headers : Serde Header) (inner : Bytes) : Except JournalError Bytes := write headers inner Header.current

def writeAll (headers : Serde Header) (serde : Serde α) (records : List α) : Except JournalError Bytes := do
  records.foldlM (write serde) (← create headers [])

end Writer

def tooLarge (what : Text) : JournalError :=
  .malformed 0 (what ++ " is larger than the " ++ Text.decimal MAX_READ_BYTES ++
    " bytes a journal is read in; this is not a file this engine wrote")

/-- One line, of a bounded length. -/
def boundedLine (inner : Bytes) (what : Text) : Except JournalError (Nat × Text × Bytes) :=
  let line := (Lines.cut newline (inner.take (MAX_READ_BYTES + 1))).1
  match decode line with
  | none => .error (.io "stream did not contain valid UTF-8")
  | some buffer =>
    if line.length > MAX_READ_BYTES then .error (tooLarge what)
    else .ok (line.length, buffer, inner.drop line.length)

structure Reader where
  inner : Bytes
  line : Nat
  truncated : Bool

namespace Reader

/-- Reads the header, and refuses a foreign file or a newer format. -/
def openAt (headers : Serde Header) (inner : Bytes) : Except JournalError Reader := do
  let (read, first, rest) ← boundedLine inner "a journal header"
  if read = 0 then .error .notAJournal
  else match headers.fromStr (Text.trimEnd first) with
    | .error _ => .error .notAJournal
    | .ok header =>
      if header.engine ≠ ENGINE_NAME then .error .notAJournal
      else if header.journalVersion > JOURNAL_VERSION then
        .error (.versionTooNew header.journalVersion JOURNAL_VERSION)
      else return ⟨rest, 1, false⟩

variable {α : Type} (serde : Serde α)

/-- The loop of `read` over empty lines, `none` where the rounds given to it run out. -/
def readFuel : Nat → Reader → Option (Reader × Except JournalError (Option α))
  | 0, _ => none
  | fuel + 1, r =>
    if r.truncated then some (r, .ok none)
    else match boundedLine r.inner "a journal record" with
      | .error error => some (r, .error error)
      | .ok (read, buffer, rest) =>
        if read = 0 then some (r, .ok none)
        else
          let complete := buffer.getLast? == some '\n'
          let r : Reader := ⟨rest, r.line + 1, !complete⟩
          let text := Text.trimEnd buffer
          if text.isEmpty then readFuel fuel r
          else match serde.fromStr text with
            | .ok record => some (r, .ok (some record))
            | .error message => some (r, if complete then .error (.malformed r.line message) else .ok none)

end Reader

section Scan

variable {α : Type} (serde : Serde α)

def lineText (what : Text) (line : Bytes) : Except JournalError Text :=
  match decode (line.take (MAX_READ_BYTES + 1)) with
  | none => .error (.io "stream did not contain valid UTF-8")
  | some buffer =>
    if (line.take (MAX_READ_BYTES + 1)).length > MAX_READ_BYTES then .error (tooLarge what) else .ok buffer

theorem lineText_eq_ok_iff {what : Text} {line : Bytes} {buffer : Text} :
    lineText what line = .ok buffer ↔ line.length ≤ MAX_READ_BYTES ∧ decode line = some buffer := by
  unfold lineText
  by_cases hlen : line.length ≤ MAX_READ_BYTES
  · rw [take_of_length_le (by omega)]
    cases hdecode : decode line with
    | none => simp
    | some text => simp [hlen, Nat.not_lt.mpr hlen]
  · have htake : (line.take (MAX_READ_BYTES + 1)).length > MAX_READ_BYTES := by
      rw [length_take]
      omega
    cases decode (line.take (MAX_READ_BYTES + 1)) with
    | none => simp [hlen]
    | some text =>
      dsimp only
      rw [if_pos htake]
      simp [hlen]

theorem boundedLine_eq (inner : Bytes) (what : Text) : boundedLine inner what =
    (lineText what (Lines.cut newline inner).1).map fun buffer =>
      ((Lines.cut newline inner).1.length, buffer, (Lines.cut newline inner).2) := by
  have hrest : inner.drop (Lines.cut newline inner).1.length = (Lines.cut newline inner).2 := by
    have happend := Lines.cut_append newline inner
    generalize Lines.cut newline inner = parts at happend ⊢
    rw [← happend, drop_left]
  unfold boundedLine lineText
  dsimp only
  rw [Lines.cut_take]
  cases decode ((Lines.cut newline inner).1.take (MAX_READ_BYTES + 1)) with
  | none => rfl
  | some buffer =>
    dsimp only
    split
    · rfl
    · rename_i hlen
      have hshort : (Lines.cut newline inner).1.take (MAX_READ_BYTES + 1) = (Lines.cut newline inner).1 := by
        rw [length_take] at hlen
        exact take_of_length_le (by omega)
      rw [hshort, hrest]
      rfl

def lineRecord (n : Nat) (line : Bytes) : Except JournalError (Option α) := do
  let buffer ← lineText "a journal record" line
  if (Text.trimEnd buffer).isEmpty then return none
  else match serde.fromStr (Text.trimEnd buffer) with
    | .ok record => return some record
    | .error message => if buffer.getLast? == some '\n' then .error (.malformed n message) else return none

def scan : Nat → List Bytes → List α × Except JournalError Unit
  | _, [] => ([], .ok ())
  | n, line :: rest =>
    match lineRecord serde (n + 1) line with
    | .error error => ([], .error error)
    | .ok none => scan (n + 1) rest
    | .ok (some record) => (record :: (scan (n + 1) rest).1, (scan (n + 1) rest).2)

def pending (r : Reader) : List α × Except JournalError Unit :=
  if r.truncated then ([], .ok ()) else scan serde r.line (Lines.lines newline r.inner)

variable {serde}

theorem complete_iff {line : Bytes} {buffer : Text} (h : decode line = some buffer) :
    (buffer.getLast? == some '\n') = true ↔ line.getLast? = some newline := by
  rw [beq_iff_eq, ← encode_of_decode h]
  exact (getLast?_encode (a := '\n') (by decide) buffer).symm

theorem pending_next {inner : Bytes} {buffer : Text} {what : Text} (n : Nat)
    (h : lineText what (Lines.cut newline inner).1 = .ok buffer) :
    pending serde ⟨(Lines.cut newline inner).2, n, !(buffer.getLast? == some '\n')⟩ =
      scan serde n (Lines.lines newline (Lines.cut newline inner).2) := by
  have hcomplete := complete_iff (lineText_eq_ok_iff.mp h).2
  unfold pending
  cases hlast : buffer.getLast? == some '\n' with
  | true => rfl
  | false =>
    rcases Lines.cut_cases newline inner with ⟨line, hline, -⟩ | ⟨-, hcut⟩
    · rw [hline, getLast?_concat, hlast] at hcomplete
      exact absurd (hcomplete.mpr rfl) (by decide)
    · rw [hcut]
      rfl

def resumed (serde : Serde α) : Reader × Except JournalError (Option α) → List α × Except JournalError Unit
  | (r, .ok (some record)) => (record :: (pending serde r).1, (pending serde r).2)
  | (_, .ok none) => ([], .ok ())
  | (_, .error error) => ([], .error error)

/-- A round takes a line off the input, so one round more than it has bytes is enough. -/
theorem readFuel_spec : ∀ {fuel : Nat} {r : Reader}, r.inner.length < fuel →
    ∃ answer, Reader.readFuel serde fuel r = some answer ∧ pending serde r = resumed serde answer ∧
      ∀ record, answer.2 = .ok (some record) → answer.1.inner.length < r.inner.length
  | fuel + 1, ⟨inner, n, truncated⟩, hfuel => by
    cases truncated with
    | true => exact ⟨_, rfl, rfl, nofun⟩
    | false =>
      have hpending : pending serde ⟨inner, n, false⟩ = scan serde n (Lines.lines newline inner) := rfl
      rw [hpending, Reader.readFuel, boundedLine_eq]
      by_cases hne : inner = []
      · subst hne
        exact ⟨_, rfl, rfl, nofun⟩
      · have hpos : (Lines.cut newline inner).1.length ≠ 0 := by
          rw [ne_eq, length_eq_zero_iff]
          exact Lines.cut_ne_nil hne
        have hlen := congrArg List.length (Lines.cut_append newline inner)
        rw [length_append] at hlen
        rw [Lines.lines_eq_cut hne, scan, lineRecord]
        dsimp only at hfuel
        cases hline : lineText "a journal record" (Lines.cut newline inner).1 with
        | error error => exact ⟨_, rfl, rfl, nofun⟩
        | ok buffer =>
          have hnext := @pending_next α serde inner buffer _ (n + 1) hline
          simp only [Except.map, bind, Except.bind, if_neg hpos, Bool.false_eq_true, if_false]
          cases hblank : (Text.trimEnd buffer).isEmpty with
          | true =>
            obtain ⟨answer, hread, hrest, hshrink⟩ := @readFuel_spec fuel
              ⟨(Lines.cut newline inner).2, n + 1, !(buffer.getLast? == some '\n')⟩ (by dsimp only; omega)
            refine ⟨answer, hread, hnext.symm.trans hrest, fun record h => ?_⟩
            exact (hshrink record h).trans (by dsimp only; omega)
          | false =>
            cases hparse : serde.fromStr (Text.trimEnd buffer) with
            | ok record =>
              refine ⟨_, rfl, (congrArg (fun rest => (record :: rest.1, rest.2)) hnext).symm, fun record' _ => ?_⟩
              dsimp only
              omega
            | error message =>
              cases hlast : buffer.getLast? == some '\n' with
              | true => exact ⟨_, rfl, rfl, nofun⟩
              | false =>
                rw [hlast] at hnext
                exact ⟨_, rfl, hnext.symm, nofun⟩

variable (serde)

theorem Reader.isSome_readFuel (r : Reader) : (r.readFuel serde (r.inner.length + 1)).isSome = true := by
  obtain ⟨answer, hread, -⟩ := @readFuel_spec α serde _ r (Nat.lt_succ_self _)
  rw [hread]
  rfl

/-- The next record, at the end of the file or at a torn line none. -/
def Reader.read (r : Reader) : Reader × Except JournalError (Option α) :=
  (r.readFuel serde (r.inner.length + 1)).get (r.isSome_readFuel serde)

/-- The loop over `read`, `none` where the rounds given to it run out. -/
def Reader.readAllFuel : Nat → Reader → Option (List α × Except JournalError Unit)
  | 0, _ => none
  | fuel + 1, r =>
    match r.read serde with
    | (r, .ok (some record)) => (readAllFuel fuel r).map fun rest => (record :: rest.1, rest.2)
    | (_, .ok none) => some ([], .ok ())
    | (_, .error error) => some ([], .error error)

variable {serde}

theorem readAllFuel_eq : ∀ {fuel : Nat} {r : Reader}, r.inner.length < fuel →
    Reader.readAllFuel serde fuel r = some (pending serde r)
  | fuel + 1, r, hfuel => by
    obtain ⟨⟨r', answer⟩, hread, hpending, hshrink⟩ := @readFuel_spec α serde _ r (Nat.lt_succ_self _)
    rw [hpending, Reader.readAllFuel]
    simp only [Reader.read, hread, Option.get_some]
    match answer with
    | .error error => rfl
    | .ok none => rfl
    | .ok (some record) =>
      have hlt := hshrink record rfl
      dsimp only at hlt ⊢
      rw [readAllFuel_eq (show r'.inner.length < fuel by omega)]
      rfl

/-- Every record up to the end of the file, or to the first that cannot be read. -/
def Reader.readAll (serde : Serde α) (r : Reader) : List α × Except JournalError Unit :=
  (r.readAllFuel serde (r.inner.length + 1)).get (by rw [readAllFuel_eq (Nat.lt_succ_self _)]; rfl)

/-- **Reading to the end is a scan over the lines.** -/
theorem readAll_eq (r : Reader) : r.readAll serde = pending serde r := by
  simp only [Reader.readAll, readAllFuel_eq (Nat.lt_succ_self _), Option.get_some]

def readFile {α : Type} (headers : Serde Header) (serde : Serde α) (file : Bytes) :
    Except JournalError (List α × Except JournalError Unit) := do
  return (← Reader.openAt headers file).readAll serde

theorem openAt_eq_ok_iff {headers : Serde Header} {file : Bytes} {r : Reader} :
    Reader.openAt headers file = .ok r ↔ file ≠ [] ∧ (∃ buffer header,
      lineText "a journal header" (Lines.cut newline file).1 = .ok buffer ∧
      headers.fromStr (Text.trimEnd buffer) = .ok header ∧ header.engine = ENGINE_NAME ∧
      header.journalVersion ≤ JOURNAL_VERSION) ∧ r = ⟨(Lines.cut newline file).2, 1, false⟩ := by
  rw [Reader.openAt, boundedLine_eq]
  cases hline : lineText "a journal header" (Lines.cut newline file).1 with
  | error error =>
    refine ⟨nofun, ?_⟩
    rintro ⟨-, ⟨buffer, header, h, -⟩, -⟩
    cases h
  | ok buffer =>
    have hempty : (Lines.cut newline file).1.length = 0 ↔ file = [] := by
      rw [length_eq_zero_iff]
      refine ⟨fun h => by_contra fun hne => Lines.cut_ne_nil hne h, fun h => by rw [h]; rfl⟩
    simp only [Except.map, bind, Except.bind, hempty]
    by_cases hne : file = []
    · simp [hne]
    simp only [hne, if_false]
    cases hheader : headers.fromStr (Text.trimEnd buffer) with
    | error message =>
      refine ⟨nofun, ?_⟩
      rintro ⟨-, ⟨buffer', header, hbuffer, h, -⟩, -⟩
      cases hbuffer
      rw [hheader] at h
      cases h
    | ok header =>
      constructor
      · intro h
        dsimp only at h
        split_ifs at h with hengine hversion
        cases h
        exact ⟨hne, ⟨buffer, header, rfl, hheader, not_not.mp hengine, Nat.not_lt.mp hversion⟩, rfl⟩
      · rintro ⟨-, ⟨buffer', header', hbuffer, h, hengine, hversion⟩, rfl⟩
        cases hbuffer
        rw [hheader] at h
        cases h
        dsimp only
        rw [if_neg (not_not.mpr hengine), if_neg (Nat.not_lt.mpr hversion)]
        rfl

theorem readFile_eq {headers : Serde Header} {file : Bytes} {r : Reader} (h : Reader.openAt headers file = .ok r) :
    readFile headers serde file = .ok (scan serde 1 (Lines.lines newline (Lines.cut newline file).2)) := by
  obtain ⟨-, -, rfl⟩ := openAt_eq_ok_iff.mp h
  rw [readFile, h]
  exact congrArg Except.ok (readAll_eq _)

theorem scan_cons_ok {n : Nat} {line : Bytes} {found : Option α} (h : lineRecord serde (n + 1) line = .ok found)
    (rest : List Bytes) : scan serde n (line :: rest) =
      (found.toList ++ (scan serde (n + 1) rest).1, (scan serde (n + 1) rest).2) := by
  rw [scan, h]
  cases found <;> rfl

theorem scan_cons_error {n : Nat} {line : Bytes} {error : JournalError}
    (h : lineRecord serde (n + 1) line = .error error) (rest : List Bytes) :
    scan serde n (line :: rest) = ([], .error error) := by
  rw [scan, h]

theorem lineText_of_scan : ∀ {n : Nat} {lines : List Bytes}, (scan serde n lines).2 = .ok () →
    ∀ line ∈ lines, ∃ buffer, lineText "a journal record" line = .ok buffer
  | _, [], _, line, hline => by cases hline
  | n, first :: lines, h, line, hline => by
    cases hfirst : lineRecord serde (n + 1) first with
    | error error =>
      rw [scan_cons_error hfirst] at h
      cases h
    | ok found =>
      rw [scan_cons_ok hfirst] at h
      rcases mem_cons.mp hline with rfl | hline
      · obtain ⟨buffer, hbuffer, -⟩ := Text.bind_eq_ok hfirst
        exact ⟨buffer, hbuffer⟩
      · exact lineText_of_scan h line hline

end Scan

section Torn

variable {α : Type} {serde : Serde α} {record : α} {text : Text}

section Written

variable (h : serde.Lawful) (hwritten : serde.toString record = .ok text)

include h hwritten

theorem Serde.Lawful.newline_not_mem : newline ∉ encode text := fun hmem =>
  h.one_line hwritten (mem_encode_ascii (a := '\n') (by decide) hmem)

theorem Serde.Lawful.trimEnd_eq : Text.trimEnd text = text ∧ Text.trimEnd (text ++ ['\n']) = text := by
  obtain ⟨body, rfl⟩ := h.object hwritten
  have htrim := Text.trimEnd_of_last (c := '\x7d') (by decide) ('\x7b' :: body)
  exact ⟨htrim, by rw [Text.trimEnd_concat (by decide), htrim]⟩

theorem Serde.Lawful.ne_nil : text ≠ [] := by
  obtain ⟨body, rfl⟩ := h.object hwritten
  exact cons_ne_nil _ _

theorem lineRecord_of_trimEnd {line : Bytes} {buffer : Text} (n : Nat)
    (hline : lineText "a journal record" line = .ok buffer) (htrim : Text.trimEnd buffer = text) :
    lineRecord serde n line = .ok (some record) := by
  have hempty : text.isEmpty = false := isEmpty_eq_false_iff.mpr (h.ne_nil hwritten)
  rw [lineRecord, hline]
  simp only [bind, Except.bind, htrim, hempty, h.parses_back hwritten]
  rfl

theorem lineRecord_of_part {line : Bytes} {buffer : Text} (n : Nat)
    (hline : lineText "a journal record" line = .ok buffer) (hpart : buffer <+: text) (hne : buffer ≠ text) :
    lineRecord serde n line = .ok none := by
  have htrim := Text.trimEnd_isPrefix buffer
  have hshort : Text.trimEnd buffer ≠ text := by
    intro heq
    rw [heq] at htrim
    exact hne (hpart.eq_of_length_le htrim.length_le)
  obtain ⟨message, hmessage⟩ := h.rejects_part hwritten _ (htrim.trans hpart) hshort
  have hopen : (buffer.getLast? == some '\n') = false := by
    rw [beq_eq_false_iff_ne]
    intro hlast
    exact h.one_line hwritten (hpart.subset (mem_of_getLast? hlast))
  rw [lineRecord, hline]
  simp only [bind, Except.bind, hmessage, hopen]
  split <;> rfl

theorem length_encode_ne_zero : (encode text).length ≠ 0 := by
  rw [ne_eq, length_eq_zero_iff]
  intro hempty
  have hdecode := decode_encode text
  rw [hempty] at hdecode
  exact h.ne_nil hwritten (Option.some.inj hdecode).symm

theorem scan_within {part : Bytes} (n : Nat) (hpart : part <+: encode text)
    (hlines : ∀ line ∈ Lines.lines newline part, ∃ buffer, lineText "a journal record" line = .ok buffer) :
    scan serde n (Lines.lines newline part) =
      (if (encode text).length ≤ part.length then [record] else [], .ok ()) := by
  by_cases hnil : part = []
  · have hpos := length_encode_ne_zero h hwritten
    subst hnil
    rw [if_neg (by rw [length_nil]; omega)]
    rfl
  · have hle := hpart.length_le
    have hsingle := Lines.lines_of_not_mem hnil fun hmem => h.newline_not_mem hwritten (hpart.subset hmem)
    obtain ⟨buffer, hbuffer⟩ := hlines part (by rw [hsingle]; exact mem_singleton_self part)
    have hencode := encode_of_decode (lineText_eq_ok_iff.mp hbuffer).2
    have hpre : buffer <+: text := isPrefix_of_encode (by rwa [hencode])
    rw [hsingle]
    by_cases hwhole : buffer = text
    · subst hwhole
      have hfound := lineRecord_of_trimEnd h hwritten (n + 1) hbuffer (h.trimEnd_eq hwritten).1
      rw [scan_cons_ok hfound, if_pos (by rw [hencode])]
      rfl
    · have hfound := lineRecord_of_part h hwritten (n + 1) hbuffer hpre hwhole
      have hlt : part.length < (encode text).length := by
        refine Nat.lt_of_le_of_ne hle fun heq => hwhole ?_
        have hdecode := decode_encode text
        rw [← hpart.eq_of_length heq, (lineText_eq_ok_iff.mp hbuffer).2] at hdecode
        exact Option.some.inj hdecode
      rw [scan_cons_ok hfound, if_neg (by omega)]
      rfl

theorem lineRecord_of_line (n : Nat) {buffer : Text}
    (hbuffer : lineText "a journal record" (encode text ++ [newline]) = .ok buffer) :
    lineRecord serde n (encode text ++ [newline]) = .ok (some record) := by
  have hdecode := decode_encode (text ++ ['\n'])
  rw [encode_append] at hdecode
  have hbuf : buffer = text ++ ['\n'] := Option.some.inj ((lineText_eq_ok_iff.mp hbuffer).2.symm.trans hdecode)
  exact lineRecord_of_trimEnd h hwritten n hbuffer (hbuf ▸ (h.trimEnd_eq hwritten).2)

end Written

def wholeWithin (serde : Serde α) (limit : Nat) : Nat → List α → List α
  | _, [] => []
  | start, record :: records =>
    match serde.toString record with
    | .error _ => wholeWithin serde limit start records
    | .ok text =>
      (if start + (encode text).length ≤ limit then [record] else []) ++
        wholeWithin serde limit (start + (encode text).length + 1) records

def body (texts : List Text) : Bytes := texts.flatMap fun text => encode text ++ [newline]

theorem wholeWithin_of_lt {limit : Nat} (records : List α) : ∀ {start : Nat}, limit < start →
    wholeWithin serde limit start records = [] := by
  induction records with
  | nil => exact fun _ => rfl
  | cons record records ih =>
    intro start hstart
    rw [wholeWithin]
    cases serde.toString record with
    | error message => exact ih hstart
    | ok text =>
      dsimp only
      rw [if_neg (by omega), ih (by omega)]
      rfl

theorem part_cases {texts : List Text} {part : Bytes} (h : part <+: body (text :: texts)) :
    part <+: encode text ∨ ∃ rest, part = encode text ++ newline :: rest ∧ rest <+: body texts := by
  have hbody : body (text :: texts) = encode text ++ [newline] ++ body texts := rfl
  rw [hbody] at h
  rcases Nat.lt_or_ge (encode text).length part.length with hlen | hlen
  · have hfirst : encode text ++ [newline] <+: part :=
      prefix_of_prefix_length_le (prefix_append _ _) h (by rw [length_append]; exact hlen)
    obtain ⟨rest, rfl⟩ := hfirst
    refine .inr ⟨rest, by simp, ?_⟩
    exact (prefix_append_right_inj _).mp h
  · rw [append_assoc] at h
    exact .inl (prefix_of_prefix_length_le h (prefix_append _ _) hlen)

/-- **What is read of a part of the file** are the records that lie in it whole, where its lines can be read. -/
theorem scan_part (h : serde.Lawful) {records : List α} {texts : List Text}
    (hwritten : List.Forall₂ (fun record text => serde.toString record = .ok text) records texts) :
    ∀ {part : Bytes} (n start : Nat), part <+: body texts →
      (∀ line ∈ Lines.lines newline part, ∃ buffer, lineText "a journal record" line = .ok buffer) →
      scan serde n (Lines.lines newline part) = (wholeWithin serde (start + part.length) start records, .ok ()) := by
  induction hwritten with
  | nil =>
    intro part n start hpart _
    rw [prefix_nil.mp hpart]
    rfl
  | @cons record text records texts hrecord _ ih =>
    intro part n start hpart hlines
    rw [wholeWithin, hrecord]
    dsimp only
    rcases part_cases hpart with hpart | ⟨rest, rfl, hrest⟩
    · -- the part stops within the first record, so the others are past it
      have hle := hpart.length_le
      rw [wholeWithin_of_lt records (by omega), append_nil, scan_within h hrecord n hpart hlines]
      simp only [Nat.add_le_add_iff_left]
    · -- the first record is there with the end of its line
      have hsplit := Lines.lines_terminated (h.newline_not_mem hrecord) rest
      obtain ⟨buffer, hbuffer⟩ := hlines (encode text ++ [newline]) (by rw [hsplit]; exact mem_cons_self)
      have hfound := lineRecord_of_line h hrecord (n + 1) hbuffer
      have hmore := ih (n + 1) (start + (encode text).length + 1) hrest fun line hline =>
        hlines line (by rw [hsplit]; exact mem_cons_of_mem _ hline)
      have hlimit : start + (encode text ++ newline :: rest).length =
          start + (encode text).length + 1 + rest.length := by
        rw [length_append, length_cons]
        omega
      rw [hsplit, scan_cons_ok hfound, hmore, if_pos (by omega), hlimit]
      rfl

theorem write_ok {inner file : Bytes} (h : Writer.write serde inner record = .ok file) :
    ∃ text, serde.toString record = .ok text ∧ file = inner ++ encode text ++ [newline] := by
  unfold Writer.write at h
  cases hwritten : serde.toString record with
  | error message =>
    rw [hwritten] at h
    cases h
  | ok text =>
    rw [hwritten] at h
    cases h
    exact ⟨text, rfl, rfl⟩

theorem foldlM_write_ok (records : List α) : ∀ {inner file : Bytes},
    records.foldlM (Writer.write serde) inner = .ok file →
    ∃ texts, List.Forall₂ (fun record text => serde.toString record = .ok text) records texts ∧
      file = inner ++ body texts := by
  induction records with
  | nil =>
    intro inner file h
    cases h
    exact ⟨[], .nil, (append_nil inner).symm⟩
  | cons record records ih =>
    intro inner file h
    obtain ⟨next, hnext, h⟩ := Text.bind_eq_ok h
    obtain ⟨text, hwritten, rfl⟩ := write_ok hnext
    obtain ⟨texts, htexts, rfl⟩ := ih h
    refine ⟨text :: texts, .cons hwritten htexts, ?_⟩
    simp [body]

variable {headers : Serde Header} {headerLine : Bytes}

theorem cut_headerLine (hheaders : headers.Lawful) (hheader : Writer.create headers [] = .ok headerLine)
    (rest : Bytes) : Lines.cut newline (headerLine ++ rest) = (headerLine, rest) := by
  obtain ⟨text, hwritten, rfl⟩ := write_ok hheader
  rw [nil_append, append_assoc]
  exact Lines.cut_terminated (hheaders.newline_not_mem hwritten) rest

theorem headerLine_ne_nil (hheader : Writer.create headers [] = .ok headerLine) (rest : Bytes) :
    headerLine ++ rest ≠ [] := by
  obtain ⟨text, -, rfl⟩ := write_ok hheader
  simp

theorem openAt_headerLine (hheaders : headers.Lawful) (hheader : Writer.create headers [] = .ok headerLine)
    (hshort : headerLine.length ≤ MAX_READ_BYTES) (rest : Bytes) :
    Reader.openAt headers (headerLine ++ rest) = .ok ⟨rest, 1, false⟩ := by
  refine openAt_eq_ok_iff.mpr ⟨headerLine_ne_nil hheader rest, ?_, by rw [cut_headerLine hheaders hheader]⟩
  rw [cut_headerLine hheaders hheader]
  obtain ⟨text, hwritten, rfl⟩ := write_ok hheader
  refine ⟨text ++ ['\n'], Header.current, lineText_eq_ok_iff.mpr ⟨hshort, ?_⟩, ?_, rfl, le_rfl⟩
  · have := decode_encode (text ++ ['\n'])
    rwa [encode_append] at this
  · rw [(hheaders.trimEnd_eq hwritten).2, hheaders.parses_back hwritten]

/-- **Of a file cut short behind its header the records that lie in the part whole are read,
exactly when every line of the part is UTF-8 and not past the limit.** -/
theorem torn_tail_iff (hheaders : headers.Lawful) (hserde : serde.Lawful) {records : List α} {file part : Bytes}
    (hheader : Writer.create headers [] = .ok headerLine) (hfile : Writer.writeAll headers serde records = .ok file)
    (hpart : part <+: file) (hwhole : headerLine <+: part) :
    readFile headers serde part = .ok (wholeWithin serde part.length headerLine.length records, .ok ()) ↔
      ∀ line ∈ Lines.lines newline part, line.length ≤ MAX_READ_BYTES ∧ (decode line).isSome = true := by
  obtain ⟨rest, rfl⟩ := hwhole
  have htexts : ∃ texts, List.Forall₂ (fun record text => serde.toString record = .ok text) records texts ∧
      file = headerLine ++ body texts := by
    rw [Writer.writeAll, hheader] at hfile
    exact foldlM_write_ok records hfile
  obtain ⟨texts, hwritten, rfl⟩ := htexts
  have hrest : rest <+: body texts := (prefix_append_right_inj headerLine).mp hpart
  have hcut := cut_headerLine hheaders hheader rest
  rw [Lines.lines_eq_cut (headerLine_ne_nil hheader rest), hcut]
  constructor
  · intro hread
    obtain ⟨r, hopen, -⟩ := Text.bind_eq_ok hread
    obtain ⟨-, ⟨first, -, hfirst, -⟩, -⟩ := openAt_eq_ok_iff.mp hopen
    rw [readFile_eq hopen, hcut] at hread
    have hend : (scan serde 1 (Lines.lines newline rest)).2 = .ok () := congrArg Prod.snd (Except.ok.inj hread)
    rw [hcut] at hfirst
    intro line hline
    obtain ⟨buffer, what, hbuffer⟩ : ∃ buffer what, lineText what line = .ok buffer := by
      rcases mem_cons.mp hline with rfl | hline
      · exact ⟨first, _, hfirst⟩
      · obtain ⟨buffer, hbuffer⟩ := lineText_of_scan hend line hline
        exact ⟨buffer, _, hbuffer⟩
    obtain ⟨hlen, hdecode⟩ := lineText_eq_ok_iff.mp hbuffer
    exact ⟨hlen, Option.isSome_iff_exists.mpr ⟨buffer, hdecode⟩⟩
  · intro hall
    obtain ⟨hshort, -⟩ := hall headerLine mem_cons_self
    rw [readFile_eq (openAt_headerLine hheaders hheader hshort rest), hcut, length_append]
    refine congrArg Except.ok (scan_part hserde hwritten 1 headerLine.length hrest fun line hline => ?_)
    obtain ⟨hlen, hsome⟩ := hall line (mem_cons_of_mem _ hline)
    obtain ⟨buffer, hbuffer⟩ := Option.isSome_iff_exists.mp hsome
    exact ⟨buffer, lineText_eq_ok_iff.mpr ⟨hlen, hbuffer⟩⟩

def headerText : Text := "\x7b\"journal_version\":1,\"engine\":\"zond-engine\",\"engine_version\":\"0.19.0\"\x7d"

def headerSerde : Serde Header := .ofTable [(.current, headerText.tail.dropLast)]

/-- Two records, the second with a character of two bytes. -/
def nameSerde : Serde Text :=
  .ofTable [("nas", "\"name\":\"nas\""), ("café", "\"name\":\"café\"")]

theorem lawful_headerSerde : headerSerde.Lawful := Serde.lawful_ofTable (by decide +kernel) (by decide +kernel)

theorem lawful_nameSerde : nameSerde.Lawful := Serde.lawful_ofTable (by decide +kernel) (by decide +kernel)

def nameLines : Bytes :=
  encode headerText ++ [newline] ++ encode "\x7b\"name\":\"nas\"\x7d\n\x7b\"name\":\"café\"\x7d"

/-- A record cut between two characters is left out, and the one before it is read. -/
theorem torn_tail_iff_ascii : readFile headerSerde nameSerde (nameLines.take (nameLines.length - 4)) =
    .ok (["nas"], .ok ()) := by
  have hheader : Writer.create headerSerde [] = .ok (encode headerText ++ [newline]) := by decide +kernel
  have hfile : Writer.writeAll headerSerde nameSerde ["nas", "café"] = .ok (nameLines ++ [newline]) := by
    decide +kernel
  have hpart : nameLines.take (nameLines.length - 4) <+: nameLines ++ [newline] := by decide +kernel
  rw [(torn_tail_iff lawful_headerSerde lawful_nameSerde hheader hfile hpart (by decide +kernel)).mpr
    (by decide +kernel)]
  decide +kernel

/-- **A record cut inside a character** makes the journal unreadable. -/
theorem torn_inside_character : headerSerde.Lawful ∧ nameSerde.Lawful ∧
    ∃ headerLine file part, Writer.create headerSerde [] = .ok headerLine ∧
      Writer.writeAll headerSerde nameSerde ["nas", "café"] = .ok file ∧
      part <+: file ∧ headerLine <+: part ∧
      readFile headerSerde nameSerde part =
        .ok (["nas"], .error (.io "stream did not contain valid UTF-8")) := by
  refine ⟨lawful_headerSerde, lawful_nameSerde, encode headerText ++ [newline], nameLines ++ [newline],
    nameLines.take (nameLines.length - 3), ?_⟩
  decide +kernel

end Torn

end Zond.Journal
