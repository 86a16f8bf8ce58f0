import ZondEngine.Journal.Format

/-!
# Making a findings file whole

`mend` of `journal/store.rs` cuts a file back to its last newline (`lastWholeLine`), while the reader parses the last
line to see whether it is torn. `mend_keeps_iff`: they agree unless the last record only lacks its newline.
-/

namespace Zond.Journal

open Zond.Utf8 List

/-! ## The last newline -/

def WINDOW : Nat := 8 * 1024

def rposition : Bytes → Option Nat
  | [] => none
  | b :: bytes =>
    match rposition bytes with
    | some index => some (index + 1)
    | none => if b = newline then some 0 else none

/-- The loop of `last_whole_line` over the bytes before `stop`, `none` where the rounds given to it run out. -/
def lastWholeLineFuel (file : Bytes) : Nat → Nat → Option Nat
  | 0, _ => none
  | fuel + 1, stop =>
    if stop = 0 then some 0
    else
      let size := min WINDOW stop
      let start := stop - size
      match rposition ((file.drop start).take size) with
      | some index => some (start + index + 1)
      | none => lastWholeLineFuel file fuel start

theorem rposition_append (a b : Bytes) :
    rposition (a ++ b) = (rposition b).elim (rposition a) fun index => some (a.length + index) := by
  induction a with
  | nil => cases h : rposition b <;> simp [rposition, h]
  | cons x a ih =>
    rw [cons_append, rposition, ih]
    cases h : rposition b <;> simp [rposition]
    omega

theorem rposition_add_length (file : Bytes) :
    (rposition file).elim 0 (· + 1) + (file.rtakeWhile (· != newline)).length = file.length := by
  induction file using List.reverseRecOn with
  | nil => rfl
  | append_singleton file b ih =>
    rw [rposition_append, rtakeWhile_concat]
    by_cases hb : b = newline
    · simp [rposition, hb]
    · simp [rposition, hb]
      omega

theorem lastWholeLineFuel_eq (file : Bytes) : ∀ {fuel stop : Nat}, stop < fuel → stop ≤ file.length →
    lastWholeLineFuel file fuel stop = some ((rposition (file.take stop)).elim 0 (· + 1))
  | fuel + 1, stop, hfuel, hlen => by
    rw [lastWholeLineFuel]
    split
    next hzero =>
      subst hzero
      rfl
    next hpos =>
      have hwindow : 0 < WINDOW := by decide
      have hstart : stop - min WINDOW stop + min WINDOW stop = stop := by omega
      have hless : stop - min WINDOW stop < stop := by omega
      dsimp only
      generalize stop - min WINDOW stop = start at hstart hless ⊢
      -- what is still to be looked through, and behind it the window
      have hsplit : file.take stop = file.take start ++ (file.drop start).take (min WINDOW stop) := by
        rw [← take_add, hstart]
      have htake : (file.take start).length = start := by
        rw [length_take]
        omega
      rw [hsplit, rposition_append, htake]
      cases rposition ((file.drop start).take (min WINDOW stop)) with
      | some index => rfl
      | none => exact lastWholeLineFuel_eq file (by omega) (by omega)

/-- A round looks through a byte at least, so one round more than there are bytes is enough. -/
theorem isSome_lastWholeLineFuel (file : Bytes) :
    (lastWholeLineFuel file (file.length + 1) file.length).isSome = true := by
  rw [lastWholeLineFuel_eq file (Nat.lt_succ_self _) le_rfl]
  rfl

/-- `last_whole_line` -/
def lastWholeLine (file : Bytes) : Nat :=
  (lastWholeLineFuel file (file.length + 1) file.length).get (isSome_lastWholeLineFuel file)

theorem lastWholeLine_add_length (file : Bytes) :
    lastWholeLine file + (file.rtakeWhile (· != newline)).length = file.length := by
  simp only [lastWholeLine, lastWholeLineFuel_eq file (Nat.lt_succ_self _) le_rfl, Option.get_some, take_length]
  exact rposition_add_length file

/-- **The search ends just behind the last newline**, at the start if there is none: only the bytes without a newline at
the end of the file are left behind it, however many rounds more it is given. -/
theorem lastWholeLine_exact (file : Bytes) (extra : Nat) :
    lastWholeLineFuel file (file.length + 1 + extra) file.length = some (lastWholeLine file) ∧
      lastWholeLine file = file.length - (file.rtakeWhile (· != newline)).length := by
  have hsum := lastWholeLine_add_length file
  have hposition := rposition_add_length file
  rw [lastWholeLineFuel_eq file (by omega) le_rfl, take_length, Option.some.injEq]
  omega

/-- Cuts a file back to its last whole line. -/
def mend (headers : Serde Header) (file : Bytes) : Except JournalError Bytes :=
  if file.length = 0 then Writer.create headers []
  else do
    let _ ← Reader.openAt headers file
    if file.getLast? = some newline then return file
    else if lastWholeLine file = 0 then Writer.create headers []
    else return file.take (lastWholeLine file)

structure LastLine (file : Bytes) (keep : Nat) : Prop where
  whole : Lines.Whole newline (file.take keep)
  behind : newline ∉ file.drop keep

theorem lastLine_lastWholeLine (file : Bytes) : LastLine file (lastWholeLine file) := by
  have hsum := lastWholeLine_add_length file
  have hfile : file.rdropWhile (· != newline) ++ file.rtakeWhile (· != newline) = file := rdropWhile_append_rtakeWhile
  have hkeep : lastWholeLine file = (file.rdropWhile (· != newline)).length := by
    have hlen := congrArg length hfile
    rw [length_append] at hlen
    omega
  constructor
  · intro b hb
    rw [hkeep, ← congrArg (take _) hfile, take_left] at hb
    obtain ⟨hne, rfl⟩ := mem_getLast?_eq_getLast hb
    simpa using rdropWhile_last_not _ file hne
  · rw [hkeep, ← congrArg (drop _) hfile, drop_left]
    intro hmem
    simpa using mem_rtakeWhile_imp hmem

section Records

variable {α : Type} {serde : Serde α} {headers : Serde Header} {headerLine file : Bytes}

theorem scan_append : ∀ {n : Nat} {lines : List Bytes} (more : List Bytes), (scan serde n lines).2 = .ok () →
    scan serde n (lines ++ more) = ((scan serde n lines).1 ++ (scan serde (n + lines.length) more).1,
      (scan serde (n + lines.length) more).2)
  | _, [], _, _ => rfl
  | n, line :: lines, more, h => by
    cases hline : lineRecord serde (n + 1) line with
    | error error =>
      rw [scan_cons_error hline] at h
      cases h
    | ok found =>
      rw [scan_cons_ok hline] at h ⊢
      rw [cons_append, scan_cons_ok hline, scan_append more h, length_cons, append_assoc,
        Nat.add_assoc n 1, Nat.add_comm 1]

theorem scan_ok_of_append : ∀ {n : Nat} {lines more : List Bytes}, (scan serde n (lines ++ more)).2 = .ok () →
    (scan serde n lines).2 = .ok ()
  | _, [], _, _ => rfl
  | n, line :: lines, more, h => by
    rw [cons_append] at h
    cases hline : lineRecord serde (n + 1) line with
    | error error =>
      rw [scan_cons_error hline] at h
      cases h
    | ok found =>
      rw [scan_cons_ok hline] at h ⊢
      exact scan_ok_of_append h

theorem lineRecord_unfinished {line : Bytes} (h : newline ∉ line) (m n : Nat) :
    lineRecord serde m line = lineRecord serde n line := by
  unfold lineRecord
  cases hline : lineText "a journal record" line with
  | error error => rfl
  | ok buffer =>
    have hopen : (buffer.getLast? == some '\n') = false := by
      rw [← Bool.not_eq_true, complete_iff (lineText_eq_ok_iff.mp hline).2]
      exact fun hlast => h (mem_of_getLast? hlast)
    simp only [bind, Except.bind, hopen, Bool.false_eq_true, if_false]

def EndsInRecord (serde : Serde α) (file : Bytes) : Prop :=
  newline ∈ file ∧ ∃ record, lineRecord serde 0 (file.drop (lastWholeLine file)) = .ok (some record)

theorem read_behind {whole rest : Bytes} {records : List α} (hwhole : Lines.Whole newline whole) (hne : whole ≠ [])
    (hrest : newline ∉ rest) (hrest' : rest ≠ [])
    (hread : readFile headers serde (whole ++ rest) = .ok (records, .ok ())) :
    ∃ kept found, readFile headers serde whole = .ok (kept, .ok ()) ∧ lineRecord serde 0 rest = .ok found ∧
      records = kept ++ found.toList := by
  obtain ⟨line, lines, rfl, hline⟩ := eq_append_cons_of_mem (hwhole.mem hne)
  obtain ⟨r, hopen, -⟩ := Text.bind_eq_ok hread
  rw [readFile_eq hopen] at hread
  obtain ⟨-, hfirst, -⟩ := openAt_eq_ok_iff.mp hopen
  rw [append_assoc, cons_append, Lines.cut_terminated hline] at hread hfirst
  have hcut := Lines.cut_terminated hline lines
  have hopen' : Reader.openAt headers (line ++ newline :: lines) = .ok ⟨lines, 1, false⟩ :=
    openAt_eq_ok_iff.mpr ⟨hne, by rw [hcut]; exact hfirst, by rw [hcut]⟩
  have hwhole' : Lines.Whole newline lines := by
    intro b hb
    refine hwhole b ?_
    have hcons : lines ≠ [] := by
      rintro rfl
      cases hb
    rw [getLast?_append_of_ne_nil _ (cons_ne_nil _ _)]
    obtain ⟨c, more, rfl⟩ := exists_cons_of_ne_nil hcons
    rwa [getLast?_cons_cons]
  rw [Lines.lines_append hwhole', Lines.lines_of_not_mem hrest' hrest] at hread
  have hend := congrArg Prod.snd (Except.ok.inj hread)
  have hok := scan_ok_of_append hend
  rw [scan_append _ hok] at hread
  cases hfound : lineRecord serde (1 + (Lines.lines newline lines).length + 1) rest with
  | error error =>
    rw [scan_cons_error hfound] at hread
    cases hread
  | ok found =>
    rw [scan_cons_ok hfound] at hread
    refine ⟨(scan serde 1 (Lines.lines newline lines)).1, found, ?_, (lineRecord_unfinished hrest _ _).trans hfound, ?_⟩
    · rw [readFile_eq hopen', hcut]
      exact congrArg Except.ok (Prod.ext rfl hok)
    · have := congrArg Prod.fst (Except.ok.inj hread)
      simpa [scan] using this.symm

theorem drop_lastWholeLine_eq_nil (hlast : file.getLast? = some newline) : file.drop (lastWholeLine file) = [] := by
  by_contra hdrop
  refine (lastLine_lastWholeLine file).behind (mem_of_getLast? ?_)
  rw [← hlast, getLast?_drop, if_neg]
  rwa [drop_eq_nil_iff] at hdrop

theorem drop_lastWholeLine_ne_nil (hne : file ≠ []) (hlast : file.getLast? ≠ some newline) :
    file.drop (lastWholeLine file) ≠ [] := by
  intro hnil
  have hfile := take_append_drop (lastWholeLine file) file
  have hwhole := (lastLine_lastWholeLine file).whole
  rw [hnil, append_nil] at hfile
  rw [hfile] at hwhole
  exact hlast (hwhole.getLast? hne)

theorem mend_eq (hheader : Writer.create headers [] = .ok headerLine) (hne : file ≠ []) {r : Reader}
    (hopen : Reader.openAt headers file = .ok r) : mend headers file = if file.getLast? = some newline then .ok file
      else if lastWholeLine file = 0 then .ok headerLine else .ok (file.take (lastWholeLine file)) := by
  rw [mend, if_neg (by rwa [length_eq_zero_iff]), hopen, hheader]
  rfl

/-- **Mending keeps the records that are read, exactly when no record stands behind the last
newline.** -/
theorem mend_keeps_iff (hheaders : headers.Lawful) (hheader : Writer.create headers [] = .ok headerLine)
    (hshort : headerLine.length ≤ MAX_READ_BYTES) {records : List α}
    (hread : readFile headers serde file = .ok (records, .ok ())) :
    ∃ mended kept, mend headers file = .ok mended ∧ readFile headers serde mended = .ok (kept, .ok ()) ∧
      (kept = records ↔ ¬ EndsInRecord serde file) := by
  obtain ⟨r, hopen, -⟩ := Text.bind_eq_ok hread
  obtain ⟨hne, hfirst, -⟩ := openAt_eq_ok_iff.mp hopen
  obtain ⟨hwhole, hbehind⟩ := lastLine_lastWholeLine file
  have hmend := mend_eq hheader hne hopen
  by_cases hlast : file.getLast? = some newline
  · -- nothing is cut, and nothing stands behind the last newline
    refine ⟨file, records, by rw [hmend, if_pos hlast], hread, ?_⟩
    refine iff_of_true rfl ?_
    rintro ⟨-, record, hrecord⟩
    rw [drop_lastWholeLine_eq_nil hlast] at hrecord
    cases hrecord
  · rw [if_neg hlast] at hmend
    by_cases hzero : lastWholeLine file = 0
    · -- the only line is the header, which is written anew
      rw [hzero, drop_zero] at hbehind
      rw [readFile_eq hopen, Lines.cut_of_not_mem hbehind] at hread
      have hopen' := openAt_headerLine hheaders hheader hshort []
      have hcut := cut_headerLine hheaders hheader []
      rw [append_nil] at hopen' hcut
      refine ⟨headerLine, [], by rw [hmend, if_pos hzero], by rw [readFile_eq hopen', hcut]; rfl, ?_⟩
      refine iff_of_true (congrArg Prod.fst (Except.ok.inj hread)) ?_
      exact fun hends => hbehind hends.1
    · rw [if_neg hzero] at hmend
      have htake : file.take (lastWholeLine file) ≠ [] := by
        rw [ne_eq, take_eq_nil_iff]
        exact not_or.mpr ⟨hzero, hne⟩
      rw [← take_append_drop (lastWholeLine file) file] at hread
      obtain ⟨kept, found, hkept, hfound, rfl⟩ :=
        read_behind hwhole htake hbehind (drop_lastWholeLine_ne_nil hne hlast) hread
      refine ⟨_, kept, hmend, hkept, ?_⟩
      rw [EndsInRecord, hfound]
      cases found with
      | none => exact iff_of_true (append_nil kept).symm fun ⟨_, record, h⟩ => nomatch h
      | some record =>
        have hmem : newline ∈ file := mem_of_mem_take (hwhole.mem htake)
        exact iff_of_false (fun h => by simp at h) fun h => h ⟨hmem, record, rfl⟩

theorem mend_keeps_iff_torn : ∃ mended kept, mend headerSerde (nameLines.take (nameLines.length - 4)) = .ok mended ∧
    readFile headerSerde nameSerde mended = .ok (kept, .ok ()) ∧
    (kept = ["nas"] ↔ ¬ EndsInRecord nameSerde (nameLines.take (nameLines.length - 4))) :=
  mend_keeps_iff lawful_headerSerde
    (by decide +kernel : Writer.create headerSerde [] = .ok (encode headerText ++ [newline]))
    (by decide +kernel) (by decide +kernel)

/-- **A record without its newline** is read before mending and lost by it. -/
theorem mend_loses_record : readFile headerSerde nameSerde nameLines = .ok (["nas", "café"], .ok ()) ∧
    ∃ mended, mend headerSerde nameLines = .ok mended ∧
      readFile headerSerde nameSerde mended = .ok (["nas"], .ok ()) := by
  refine ⟨by decide +kernel, nameLines.take (nameLines.length - 16), ?_⟩
  decide +kernel

end Records

end Zond.Journal
