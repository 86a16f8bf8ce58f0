import ZondEngine.Lib.Text
import ZondEngine.Model.Port

/-!
# Port sets as texts

The specification a `PortSet` is written as (`toText`) and read from (`tryFrom`). `portSet_laws`: a port set is
canonical, it is a set, and its text reads back as the set.
-/

namespace Zond.Port

open List

def Protocol.specPrefix : Protocol → Text
  | .tcp => []
  | .udp => ['u', ':']
  | .sctp => ['s', ':']

def Protocol.qualifier : Protocol → Text
  | .tcp => ['t', ':']
  | .udp => Protocol.specPrefix .udp
  | .sctp => Protocol.specPrefix .sctp

def rangeText (protocol : Protocol) (range : PortRange) : Text :=
  protocol.specPrefix ++
    if range.start = range.stop then Text.decimal range.start.toNat
    else Text.decimal range.start.toNat ++ '-' :: Text.decimal range.stop.toNat

namespace PortSet

def tokens (s : PortSet) : List Text :=
  Protocol.ALL.flatMap fun protocol => (s.ranges protocol).map (rangeText protocol)

def toText (s : PortSet) : Text := [','].intercalate s.tokens

end PortSet

/-! ## Reading a specification -/

inductive PortSetParseError where
  | invalidPort (input : Text) (source : Text.IntErrorKind)
  | invalidRange (start stop : UInt16)
  | malformedSpec (word : Text)
  | spacedRange (words : Text)
  | serviceName (word : Text)
  | noPorts
  deriving DecidableEq

def FIRST_PORT : UInt16 := 1

def splitQualifier (word : Text) : Option Protocol × Text :=
  match Protocol.ALL.find? fun protocol =>
      Text.eqIgnoreAsciiCase (word.take protocol.qualifier.length) protocol.qualifier with
  | some protocol => (some protocol, word.drop protocol.qualifier.length)
  | none => (none, word)

def opensBack (word : Text) (index : Nat) : Bool := word.head? == some '-' && index > 0

def opensOn (word : Text) (index count : Nat) : Bool := word.getLast? == some '-' && index + 1 < count

/-- Refuses a range written with blanks. -/
def refuseSpacedRange (words : List Text) : Except PortSetParseError Unit :=
  match words.zipIdx.find? fun (word, index) => opensBack word index || opensOn word index words.length with
  | none => .ok ()
  | some (word, index) =>
    let first := if opensBack word index then index - 1 else index
    let last := if opensOn word index words.length then index + 1 else index
    .error (.spacedRange ([' '].intercalate ((words.drop first).take (last + 1 - first))))

def portNumber (text whole : Text) : Except PortSetParseError UInt16 :=
  match Text.parseUnsigned (2 ^ 16) text with
  | .ok n => .ok (UInt16.ofNat n)
  | .error source =>
    let named := (text.head?.any fun c => c.isAlpha) && text.all fun c => c.isAlphanum || c == '-' || c == '_'
    if named then .error (.serviceName whole) else .error (.invalidPort whole source)

def parseRange (rawRange word : Text) : Except PortSetParseError PortRange :=
  match rawRange.splitOn '-' with
  | [single] => return .single (← portNumber single word)
  | [first, last] => do
    let start ← if first.isEmpty then pure FIRST_PORT else portNumber first first
    let stop ← if last.isEmpty then pure 65535 else portNumber last last
    if h : start ≤ stop then return ⟨start, stop, h⟩ else .error (.invalidRange start stop)
  | _ => .error (.malformedSpec word)

def parseWord (state : Lanes × Protocol) (word : Text) : Except PortSetParseError (Lanes × Protocol) := do
  let protocol := (splitQualifier word).1.getD state.2
  let range ← parseRange (splitQualifier word).2 word
  return (state.1.push protocol range, protocol)

def parsePart (state : Lanes × Protocol) (part : Text) : Except PortSetParseError (Lanes × Protocol) := do
  refuseSpacedRange (Text.splitWhitespace part)
  (Text.splitWhitespace part).foldlM parseWord state

namespace PortSet

/-- Reads a port expression. -/
def tryFrom (value : Text) : Except PortSetParseError PortSet := do
  let state ← (value.splitOn ',').foldlM parsePart (Lanes.empty, .tcp)
  return state.1.merged

def parseScan (spec : Text) : Except PortSetParseError PortSet := do
  let set ← tryFrom spec
  if set.isEmpty then .error .noPorts else return set

end PortSet

section RoundTrip

variable {protocol : Protocol} {range : PortRange}

def TokenChar (c : Char) : Prop := c.isDigit = true ∨ c = '-' ∨ c = ':' ∨ c = 'u' ∨ c = 's'

instance (c : Char) : Decidable (TokenChar c) := inferInstanceAs (Decidable (_ ∨ _))

theorem tokenChar_of_mem_rangeText {c : Char} (h : c ∈ rangeText protocol range) : TokenChar c := by
  rcases mem_append.mp h with h | h
  · cases protocol with
    | tcp => cases h
    | udp =>
      rcases mem_pair.mp h with rfl | rfl
      · exact .inr (.inr (.inr (.inl rfl)))
      · exact .inr (.inr (.inl rfl))
    | sctp =>
      rcases mem_pair.mp h with rfl | rfl
      · exact .inr (.inr (.inr (.inr rfl)))
      · exact .inr (.inr (.inl rfl))
  · split at h
    · exact .inl (Text.isDigit_of_mem_decimal h)
    · rcases mem_append.mp h with h | h
      · exact .inl (Text.isDigit_of_mem_decimal h)
      · rcases mem_cons.mp h with rfl | h
        · exact .inr (.inl rfl)
        · exact .inl (Text.isDigit_of_mem_decimal h)

theorem TokenChar.not_comma {c : Char} (h : TokenChar c) : c ≠ ',' := by
  rintro rfl
  exact absurd h (by decide)

theorem TokenChar.not_whitespace {c : Char} (h : TokenChar c) : Text.isWhitespace c = false := by
  rcases h with h | rfl | rfl | rfl | rfl
  · exact Text.isWhitespace_of_isDigit h
  all_goals decide

theorem rangeText_ne_nil : rangeText protocol range ≠ [] := by
  intro h
  have hbody := (append_eq_nil_iff.mp h).2
  split at hbody
  · exact Text.decimal_ne_nil _ hbody
  · exact Text.decimal_ne_nil _ (append_eq_nil_iff.mp hbody).1

theorem portNumber_decimal (port : UInt16) (whole : Text) : portNumber (Text.decimal port.toNat) whole = .ok port := by
  rw [portNumber, Text.parseUnsigned_decimal port.toNat_lt]
  simp

theorem parseRange_body (word : Text) : parseRange (if range.start = range.stop then Text.decimal range.start.toNat
      else Text.decimal range.start.toNat ++ '-' :: Text.decimal range.stop.toNat) word = .ok range := by
  have hdash : ∀ port : UInt16, '-' ∉ Text.decimal port.toNat := fun port h =>
    absurd (Text.isDigit_of_mem_decimal h) (by decide)
  have hfull : ∀ port : UInt16, (Text.decimal port.toNat).isEmpty = false := fun port => by
    rw [isEmpty_eq_false_iff]
    exact Text.decimal_ne_nil _
  obtain ⟨start, stop, hle⟩ := range
  dsimp only
  split
  · rename_i heq
    subst heq
    rw [parseRange, splitOn_eq_singleton (hdash start)]
    simp only [portNumber_decimal]
    rfl
  · have hsplit : (Text.decimal start.toNat ++ '-' :: Text.decimal stop.toNat).splitOn '-' =
        [Text.decimal start.toNat, Text.decimal stop.toNat] := by
      rw [show Text.decimal start.toNat ++ '-' :: Text.decimal stop.toNat =
        ['-'].intercalate [Text.decimal start.toNat, Text.decimal stop.toNat] by simp [List.intercalate]]
      refine splitOn_intercalate '-' (fun l hl => ?_) (cons_ne_nil _ _)
      rcases mem_pair.mp hl with rfl | rfl
      · exact hdash start
      · exact hdash stop
    rw [parseRange, hsplit]
    simp only [hfull, portNumber_decimal, Bool.false_eq_true, if_false]
    exact dif_pos hle

theorem splitQualifier_of_digit {word : Text} (hne : word ≠ []) (h : ∀ c ∈ word.head?, c.isDigit = true) :
    splitQualifier word = (none, word) := by
  cases word with
  | nil => exact absurd rfl hne
  | cons c word =>
    have hc : c.isDigit = true := h c rfl
    have hnone : ∀ protocol ∈ Protocol.ALL, ¬ Text.eqIgnoreAsciiCase ((c :: word).take protocol.qualifier.length)
        protocol.qualifier = true := by
      intro protocol _ heq
      -- the letter of a qualifier is no digit
      have hletter : some c.toLower = (protocol.qualifier.map Char.toLower).head? := by
        rw [Text.eqIgnoreAsciiCase, beq_iff_eq] at heq
        rw [← heq]
        cases protocol <;> rfl
      rw [Text.toLower_of_isDigit hc] at hletter
      cases protocol
      · cases hletter
        exact absurd hc (by decide)
      · cases hletter
        exact absurd hc (by decide)
      · cases hletter
        exact absurd hc (by decide)
    rw [splitQualifier, find?_eq_none.mpr hnone]

theorem splitQualifier_rangeText : splitQualifier (rangeText protocol range) =
    (if protocol = .tcp then none else some protocol, if range.start = range.stop then Text.decimal range.start.toNat
      else Text.decimal range.start.toNat ++ '-' :: Text.decimal range.stop.toNat) := by
  cases protocol with
  | tcp =>
    refine splitQualifier_of_digit rangeText_ne_nil fun c hc => ?_
    have hstart : ∀ rest, (Text.decimal range.start.toNat ++ rest).head? = (Text.decimal range.start.toNat).head? :=
      fun rest => head?_append_of_ne_nil _ (Text.decimal_ne_nil _)
    have hhead : (rangeText .tcp range).head? = (Text.decimal range.start.toNat).head? := by
      rw [rangeText, Protocol.specPrefix, nil_append]
      split
      · rfl
      · exact hstart _
    rw [hhead] at hc
    exact Text.isDigit_of_mem_decimal (mem_of_mem_head? hc)
  | udp => rfl
  | sctp => rfl

/-- **A token is read as its range.** One without a qualifier is read as TCP, so TCP has to be the protocol then. -/
theorem parsePart_rangeText {lanes : Lanes} {current : Protocol} (h : protocol = .tcp → current = .tcp) :
    parsePart (lanes, current) (rangeText protocol range) = .ok (lanes.push protocol range, protocol) := by
  have hwords : Text.splitWhitespace (rangeText protocol range) = [rangeText protocol range] :=
    Text.splitWhitespace_eq_singleton rangeText_ne_nil fun c hc => (tokenChar_of_mem_rangeText hc).not_whitespace
  have hspaced : refuseSpacedRange [rangeText protocol range] = .ok () := by
    simp [refuseSpacedRange, opensBack, opensOn]
  have hprotocol : (if protocol = .tcp then none else some protocol).getD current = protocol := by
    split
    · rename_i htcp
      rw [Option.getD_none, h htcp, htcp]
    · rfl
  rw [parsePart, hwords, hspaced]
  simp only [foldlM_cons, foldlM_nil, parseWord, splitQualifier_rangeText, parseRange_body, hprotocol]
  rfl

theorem foldlM_tokens (protocol : Protocol) (rs : List PortRange) : ∀ {lanes : Lanes} {current : Protocol},
    (protocol = .tcp → current = .tcp) → ((rs.map (rangeText protocol)).foldlM parsePart (lanes, current) =
      .ok (rs.foldl (fun lanes range => lanes.push protocol range) lanes, if rs = [] then current else protocol)) := by
  induction rs with
  | nil => exact fun _ => rfl
  | cons range rs ih =>
    intro lanes current h
    rw [map_cons, foldlM_cons, parsePart_rangeText h]
    refine (@ih (lanes.push protocol range) protocol id).trans ?_
    rw [ite_self]
    rfl

theorem lane_foldl_push (rs : List PortRange) (other : Protocol) : ∀ lanes : Lanes,
    (rs.foldl (fun lanes range => lanes.push protocol range) lanes).lane other =
      if other = protocol then lanes.lane other ++ rs else lanes.lane other := by
  induction rs with
  | nil =>
    simp
  | cons range rs ih =>
    intro lanes
    rw [foldl_cons, ih, Lanes.lane_push]
    split <;> simp

end RoundTrip

namespace PortSet

variable (s : PortSet)

def lanes : Lanes := ⟨s.tcp, s.udp, s.sctp⟩

theorem merged_lanes : s.lanes.merged = s := by
  refine ext_ranges fun protocol => ?_
  rw [Lanes.ranges_merged]
  have hlane : s.lanes.lane protocol = s.ranges protocol := by cases protocol <;> rfl
  rw [hlane, (s.ranges_canonical protocol).merge_eq]

theorem foldlM_tokens_eq : ∃ current, s.tokens.foldlM parsePart (Lanes.empty, .tcp) = .ok (s.lanes, current) := by
  have htokens : s.tokens = s.tcp.map (rangeText .tcp) ++ (s.udp.map (rangeText .udp) ++
      s.sctp.map (rangeText .sctp)) := by
    simp [tokens, Protocol.ALL, ranges]
  -- TCP comes first, so no token of it follows a qualifier
  rw [htokens, foldlM_append, foldlM_tokens .tcp s.tcp fun _ => rfl]
  simp only [bind, Except.bind, foldlM_append]
  rw [foldlM_tokens .udp s.udp fun h => nomatch h]
  dsimp only
  rw [foldlM_tokens .sctp s.sctp fun h => nomatch h]
  refine ⟨_, congrArg Except.ok (Prod.ext (Lanes.ext_lane fun protocol => ?_) rfl)⟩
  rw [lane_foldl_push, lane_foldl_push, lane_foldl_push]
  cases protocol <;> rfl

/-- **The text of a set reads back as the set.** -/
theorem tryFrom_toText : tryFrom s.toText = .ok s := by
  obtain ⟨current, hread⟩ := s.foldlM_tokens_eq
  have hfold : (s.toText.splitOn ',').foldlM parsePart (Lanes.empty, .tcp) = .ok (s.lanes, current) := by
    by_cases hnil : s.tokens = []
    · -- the empty text is one empty part
      rw [hnil] at hread
      rw [toText, hnil, ← hread]
      rfl
    · rw [toText, splitOn_intercalate ',' (fun token htoken hcomma => ?_) hnil, hread]
      obtain ⟨protocol, -, hmem⟩ := mem_flatMap.mp htoken
      obtain ⟨range, -, rfl⟩ := mem_map.mp hmem
      exact (tokenChar_of_mem_rangeText hcomma).not_comma rfl
  rw [tryFrom, hfold]
  exact congrArg Except.ok s.merged_lanes

/-- **A port set is canonical and a set**, whose union, difference and length are those of its
ports, and whose text reads back as the set. -/
theorem portSet_laws (s t : PortSet) :
    (∀ protocol, (s.ranges protocol).Pairwise fun a b => a.stop.toNat + 1 < b.start.toNat) ∧
      (s = t ↔ ∀ port protocol, s.contains port protocol = t.contains port protocol) ∧
      (∀ port protocol, (s.union t).contains port protocol = (s.contains port protocol || t.contains port protocol)) ∧
      (∀ port protocol,
        (s.difference t).contains port protocol = (s.contains port protocol && !t.contains port protocol)) ∧
      s.len = s.iter.length ∧ tryFrom s.toText = .ok s := by
  refine ⟨fun protocol => ?_, eq_iff_contains, fun _ _ => contains_union, fun _ _ => contains_difference,
    s.length_toVec.symm, s.tryFrom_toText⟩
  refine (s.ranges_canonical protocol).imp fun {a b} hab => ?_
  rcases hab with hg | ⟨-, hapart⟩
  · exact absurd hg (lt_irrefl 0)
  · exact hapart

end PortSet

end Zond.Port
