import Mathlib.Data.Prod.Lex
import ZondEngine.Model.Service

/-!
# Findings

A claim that something is wrong with a host or a port, as `model/finding.rs` has it. `Finding.claimId` is what makes two
findings one claim, and `Finding.corroborate` folds a second account of a claim into the first, move by move.
-/

namespace Zond

inductive Severity where
  | info | low | medium | high | critical
  deriving DecidableEq

inductive Confidence where
  | heuristic | weak | probable | strong | certain
  deriving DecidableEq

inductive DetectionClass where
  | passive | activeBenign | activeMutating | exploit | dos
  deriving DecidableEq

structure Version where
  (major minor patch : UInt16)
  deriving DecidableEq

namespace Version

def key (v : Version) : ℕ ×ₗ ℕ ×ₗ ℕ := toLex (v.major.toNat, toLex (v.minor.toNat, v.patch.toNat))

theorem key_injective : Function.Injective key := by
  rintro ⟨a, b, c⟩ ⟨a', b', c'⟩ h
  simp only [key, EmbeddingLike.apply_eq_iff_eq, Prod.mk.injEq, UInt16.toNat_inj] at h
  obtain ⟨rfl, rfl, rfl⟩ := h
  rfl

instance : LinearOrder Version := LinearOrder.lift' key key_injective

end Version

inductive FindingError where
  | emptyId | emptyTitle | emptyGroup | noExploitedCve
  deriving DecidableEq

inductive Reference where
  | cve (id : Text)
  | cwe (number : UInt32)
  | url (url : Text)
  deriving DecidableEq

/-- Whether a text has the form of a CVE identifier. -/
def isCveShaped (id : Text) : Bool :=
  if ['C', 'V', 'E', '-'].isPrefixOf id then
    match Text.splitOnce '-' (id.drop 4) with
    | some (year, seq) => year.length == 4 && year.all Char.isDigit && !seq.isEmpty && seq.all Char.isDigit
    | none => false
  else false

def Reference.ofCve (id : Text) : Option Reference := if isCveShaped id then some (.cve id) else none

/-- What a finding is one of, where several detections cover one weakness between them. -/
structure FindingGroup where
  (id summary : Text)
  deriving DecidableEq

/-! ## Excerpts -/

def MAX_EXCERPT_BYTES : Nat := 2048

def Text.byteLen (text : Text) : Nat := (text.map Char.utf8Size).sum

def Text.truncate : Nat → Text → Text
  | _, [] => []
  | room, c :: rest => if c.utf8Size ≤ room then c :: truncate (room - c.utf8Size) rest else []

theorem Text.byteLen_truncate_le : ∀ (room : Nat) (text : Text), (truncate room text).byteLen ≤ room
  | _, [] => Nat.zero_le _
  | room, c :: rest => by
    unfold truncate
    split
    next h =>
      have ih := byteLen_truncate_le (room - c.utf8Size) rest
      unfold byteLen at ih ⊢
      rw [List.map_cons, List.sum_cons]
      omega
    · exact Nat.zero_le _

structure Excerpt where
  text : Text
  bounded : text.byteLen ≤ MAX_EXCERPT_BYTES
  deriving DecidableEq

namespace Excerpt

def new (text : Text) : Excerpt := ⟨text.truncate MAX_EXCERPT_BYTES, text.byteLen_truncate_le _⟩

def empty : Excerpt := ⟨[], Nat.zero_le _⟩

def isEmpty (e : Excerpt) : Bool := e.text.isEmpty

theorem eq_of_isEmpty : ∀ {e e' : Excerpt}, e.isEmpty = true → e'.isEmpty = true → e = e'
  | ⟨[], _⟩, ⟨[], _⟩, _, _ => rfl

end Excerpt

/-! ## Who says so -/

/-- Which detection made a claim, and in which version. -/
structure DetectionId where
  id : Text
  version : Version
  contentHash : Text
  id_ne : id.trim ≠ []
  deriving DecidableEq

def DetectionId.new (id : Text) (version : Version) (contentHash : Text) : Except FindingError DetectionId :=
  if h : id.trim = [] then .error .emptyId else .ok ⟨id, version, contentHash, h⟩

/-- Which of the vulnerabilities a finding cites are known to be exploited, and whose list says so. -/
structure Exploitation where
  by_ : DetectionId
  cves : List Text
  deriving DecidableEq

structure ClaimId where
  (detection subject : Text)
  deriving DecidableEq

namespace ClaimId

def key (claim : ClaimId) : Text ×ₗ Text := toLex (claim.detection, claim.subject)

theorem key_injective : Function.Injective key := by
  rintro ⟨a, b⟩ ⟨a', b'⟩ h
  obtain ⟨rfl, rfl⟩ := Prod.mk.inj (toLex.injective h)
  rfl

instance : LinearOrder ClaimId := LinearOrder.lift' key key_injective

end ClaimId

/-! ## The finding -/

def MAX_FINDINGS_PER_SUBJECT : Nat := 256

/-- One claim a detection makes. -/
@[ext]
structure Finding where
  detection : DetectionId
  title : Text
  severity : Severity
  confidence : Confidence
  class_ : DetectionClass
  excerpt : Excerpt
  references : List Reference
  remediation : Option Text
  cpes : SortedSet Text
  subject : Option Text
  build : Option Build
  group : Option FindingGroup
  advisedBy : Option DetectionId
  exploitation : Option Exploitation
  title_ne : title.trim ≠ []
  deriving DecidableEq

inductive Standing where
  | upheld | overturned | unsettled
  deriving DecidableEq

namespace Finding

def new (detection : DetectionId) (title : Text) (severity : Severity) (confidence : Confidence)
    (class_ : DetectionClass) : Except FindingError Finding :=
  if h : title.trim = [] then .error .emptyTitle
  else .ok ⟨detection, title, severity, confidence, class_, .empty, [], none, SortedMap.empty, none, none, none, none,
    none, h⟩

variable (f : Finding)

def withExcerpt (excerpt : Excerpt) : Finding := { f with excerpt }

def withReference (reference : Reference) : Finding :=
  if reference ∈ f.references then f else { f with references := f.references ++ [reference] }

def withRemediation (remediation : Text) : Finding := { f with remediation := some remediation }

def withCpe (cpe : Text) : Finding := { f with cpes := f.cpes.add cpe }

def withSubject (subject : Text) : Finding := { f with subject := some subject }

def withBuild (build : Build) : Finding := { f with build := some build }

def withAdvisedBy (advisedBy : DetectionId) : Finding := { f with advisedBy := some advisedBy }

def withExploitation (exploitation : Exploitation) : Finding :=
  { f with exploitation := some exploitation }

def withGroup (group : FindingGroup) : Finding := { f with group := some group }

def isCorrelation : Bool := f.cpes.len != 0

def cves : List Text :=
  f.references.filterMap fun reference =>
    match reference with
    | .cve id => some id
    | _ => none

/-- What a finding claims, whoever found it. -/
def claimId : ClaimId := ⟨f.detection.id, f.subject.getD (f.cves.min?.getD f.title)⟩

/-! ## A second account -/

structure Move where
  guard : Finding → Bool
  update : Finding → Finding

def Move.make (s : Finding × Bool) (move : Move) : Finding × Bool :=
  if move.guard s.1 then (move.update s.1, true) else s

variable (other : Finding)

def correlated : List Move :=
  [⟨fun f => other.confidence != f.confidence, fun f => { f with confidence := other.confidence }⟩,
    ⟨fun f => other.references != f.references, fun f => { f with references := other.references }⟩,
    ⟨fun f => other.build != f.build, fun f => { f with build := other.build }⟩,
    ⟨fun f => other.advisedBy != f.advisedBy, fun f => { f with advisedBy := other.advisedBy }⟩,
    ⟨fun f => other.exploitation != f.exploitation, fun f => { f with exploitation := other.exploitation }⟩]

def surer (a b : Confidence) : Confidence := if a.ctorIdx < b.ctorIdx then b else a

def observed : List Move :=
  ⟨fun f => surer f.confidence other.confidence != f.confidence,
    fun f => { f with confidence := surer f.confidence other.confidence }⟩ ::
  (other.references.map fun reference =>
    ⟨fun f => decide (reference ∉ f.references), fun f => { f with references := f.references ++ [reference] }⟩) ++
  [⟨fun f => f.build.isNone && other.build.isSome, fun f => { f with build := other.build }⟩,
    ⟨fun f => f.advisedBy.isNone && other.advisedBy.isSome, fun f => { f with advisedBy := other.advisedBy }⟩,
    ⟨fun f => f.exploitation.isNone && other.exploitation.isSome,
      fun f => { f with exploitation := other.exploitation }⟩]

def verdict : List Move :=
  [⟨fun f => other.group.isSome && other.group != f.group, fun f => { f with group := other.group }⟩,
    ⟨fun f => f.detection.version < other.detection.version, fun f => { f with detection := other.detection }⟩,
    ⟨fun f => other.severity != f.severity, fun f => { f with severity := other.severity }⟩,
    ⟨fun f => other.title != f.title, fun f => { f with title := other.title, title_ne := other.title_ne }⟩,
    ⟨fun f => other.class_ != f.class_, fun f => { f with class_ := other.class_ }⟩,
    ⟨fun f => !other.excerpt.isEmpty && other.excerpt != f.excerpt, fun f => { f with excerpt := other.excerpt }⟩,
    ⟨fun f => other.remediation.isSome && other.remediation != f.remediation,
      fun f => { f with remediation := other.remediation }⟩]

def superseded : List Move :=
  [⟨fun f => f.excerpt.isEmpty && !other.excerpt.isEmpty, fun f => { f with excerpt := other.excerpt }⟩,
    ⟨fun f => f.remediation.isNone && other.remediation.isSome, fun f => { f with remediation := other.remediation }⟩]

def moves (f other : Finding) : List Move :=
  let atLeastAsNew := f.detection.version ≤ other.detection.version
  (if f.isCorrelation && other.isCorrelation then if atLeastAsNew then correlated other else [] else observed other) ++
  ⟨fun f => f.subject.isNone && other.subject.isSome, fun f => { f with subject := other.subject }⟩ ::
  (if atLeastAsNew then verdict other else superseded other) ++
  other.cpes.keys.map fun cpe => ⟨fun f => !f.cpes.contains cpe, fun f => { f with cpes := f.cpes.add cpe }⟩

/-- Folds another finding of the claim in, and whether it was news. -/
def corroborate (f other : Finding) : Finding × Bool := (moves f other).foldl Move.make (f, false)

end Finding

/-- Records a finding, and whether it was news: a known claim is corroborated, and the ceiling turns away only new ones.
-/
def addFinding (findings : SortedMap ClaimId Finding) (finding : Finding) : SortedMap ClaimId Finding × Bool :=
  let claim := finding.claimId
  match findings.get? claim with
  | some existing =>
    let (folded, changed) := existing.corroborate finding
    (findings.insert claim folded, changed)
  | none =>
    if MAX_FINDINGS_PER_SUBJECT ≤ findings.len then (findings, false) else (findings.insert claim finding, true)

end Zond
