import Mathlib.Data.Finset.Card
import ZondEngine.Model.Time
import ZondEngine.Model.Finding

/-!
# What an endpoint accepts

The TLS versions and suites of `model/tls.rs`, listed oldest first and once each, which are fields. `merge` folds two
enumerations, each version whole from one of them, and `findings` draws what is wrong with the configuration.
-/

namespace Zond

open List

/-! ## Versions -/

inductive TlsVersion where
  | ssl30 | tls10 | tls11 | tls12 | tls13
  deriving DecidableEq

namespace TlsVersion

theorem ctorIdx_injective : Function.Injective TlsVersion.ctorIdx :=
  Function.LeftInverse.injective TlsVersion.ofNat_ctorIdx

instance : LinearOrder TlsVersion := LinearOrder.lift' TlsVersion.ctorIdx ctorIdx_injective

def name : TlsVersion → Text
  | ssl30 => "SSLv3"
  | tls10 => "TLSv1.0"
  | tls11 => "TLSv1.1"
  | tls12 => "TLSv1.2"
  | tls13 => "TLSv1.3"

def isDeprecated : TlsVersion → Bool
  | ssl30 | tls10 | tls11 => true
  | tls12 | tls13 => false

def severity : TlsVersion → Option Severity
  | ssl30 => some .high
  | tls10 | tls11 => some .medium
  | tls12 | tls13 => none

def deprecatedBy : TlsVersion → Option Text
  | ssl30 => some "RFC 7568"
  | tls10 | tls11 => some "RFC 8996"
  | tls12 | tls13 => none

end TlsVersion

/-! ## Suites -/

inductive KeyExchange where
  | ecdhe | dhe | rsa | ecdh | anonymous | negotiated
  deriving DecidableEq

def KeyExchange.isForwardSecret : KeyExchange → Bool
  | ecdhe | dhe | anonymous | negotiated => true
  | rsa | ecdh => false

inductive Authentication where
  | rsa | ecdsa | dss | anonymous | negotiated
  deriving DecidableEq

inductive BulkCipher where
  | aesGcm (bits : UInt16)
  | aesCcm (bits : UInt16) (shortTag : Bool)
  | chaCha20Poly1305
  | aesCbc (bits : UInt16)
  | camelliaCbc (bits : UInt16)
  | tripleDes
  | des
  | rc4
  | seedCbc
  | ideaCbc
  | null
  deriving DecidableEq

namespace BulkCipher

def isCbc : BulkCipher → Bool
  | aesCbc _ | camelliaCbc _ | tripleDes | des | seedCbc | ideaCbc => true
  | _ => false

def has64BitBlock : BulkCipher → Bool
  | tripleDes | des | ideaCbc => true
  | _ => false

end BulkCipher

inductive Mac where
  | aead | md5 | sha1 | sha256 | sha384 | null
  deriving DecidableEq

inductive SuiteFault where
  | noForwardSecrecy | sha1Mac | cbcMode | smallBlock | rc4 | md5Mac | «export» | anonymous | nullCipher
  deriving DecidableEq

namespace SuiteFault

def all : List SuiteFault :=
  [noForwardSecrecy, sha1Mac, cbcMode, smallBlock, rc4, md5Mac, «export», anonymous, nullCipher]

def summary : SuiteFault → Text
  | noForwardSecrecy => "the server's long-term key decrypts every session recorded under it"
  | sha1Mac => "records are authenticated with HMAC-SHA-1"
  | cbcMode => "CBC with a separate MAC, the construction behind Lucky13 and BEAST"
  | smallBlock => "a 64-bit block, which Sweet32 recovers plaintext from"
  | rc4 => "RC4, prohibited by RFC 7465"
  | md5Mac => "records are authenticated with HMAC-MD5"
  | «export» => "a deliberately shortened key, from the export era"
  | anonymous => "nothing authenticates the server"
  | nullCipher => "records are not encrypted"

def severity : SuiteFault → Severity
  | nullCipher | anonymous | «export» => .high
  | rc4 | smallBlock | md5Mac => .medium
  | cbcMode | sha1Mac | noForwardSecrecy => .low

end SuiteFault

structure CipherSuite where
  code : UInt16
  name : Text
  kex : KeyExchange
  auth : Authentication
  cipher : BulkCipher
  mac : Mac
  «export» : Bool
  deriving DecidableEq

def CipherSuite.hasFault (suite : CipherSuite) : SuiteFault → Bool
  | .noForwardSecrecy => !suite.kex.isForwardSecret
  | .sha1Mac => suite.mac == .sha1
  | .cbcMode => suite.cipher.isCbc
  | .smallBlock => suite.cipher.has64BitBlock
  | .rc4 => suite.cipher == .rc4
  | .md5Mac => suite.mac == .md5
  | .export => suite.export
  | .anonymous => suite.auth == .anonymous
  | .nullCipher => suite.cipher == .null

/-! ## What was accepted -/

structure VersionSupport where
  version : TlsVersion
  suites : List CipherSuite
  unrecognised : List UInt16
  deriving DecidableEq

inductive Interruption where
  | unanswered | stopped | fileLimit
  deriving DecidableEq

structure UnfinishedVersion where
  version : TlsVersion
  interruption : Interruption
  deriving DecidableEq

def placeVersion {α : Type} (version : α → TlsVersion) (entry : α) : List α → List α
  | [] => [entry]
  | held :: rest =>
    if version held < version entry then held :: placeVersion version entry rest
    else if version held = version entry then entry :: rest
    else entry :: held :: rest

theorem placeVersion_eq_put {α : Type} (version : α → TlsVersion) (entry : α) : ∀ held : List α,
    placeVersion version entry held = Ranked.put version (fun _ new => new) entry held
  | [] => rfl
  | first :: rest => by
    rw [placeVersion, Ranked.put, placeVersion_eq_put version entry rest]
    exact if_congr Iff.rfl rfl (if_congr Iff.rfl rfl rfl)

theorem mem_placeVersion {α : Type} {version : α → TlsVersion} {entry other : α} {held : List α}
    (h : other ∈ placeVersion version entry held) : other = entry ∨ other ∈ held :=
  Ranked.mem_put (fun _ => .inl rfl) (placeVersion_eq_put version entry held ▸ h)

theorem pairwise_placeVersion {α : Type} {version : α → TlsVersion} (entry : α) {held : List α}
    (h : held.Pairwise fun a b => version a < version b) :
    (placeVersion version entry held).Pairwise fun a b => version a < version b :=
  placeVersion_eq_put version entry held ▸ Ranked.pairwise_put (fun _ => .inl rfl) h

/-- The versions and suites a server accepts. -/
structure TlsSupport where
  versions : List VersionSupport
  unfinished : List UnfinishedVersion
  versions_ascending : versions.Pairwise fun a b => a.version < b.version
  unfinished_ascending : unfinished.Pairwise fun a b => a.version < b.version
  deriving DecidableEq

/-- What one record says of one version: whether its walk finished, and every suite it found, by number. -/
structure Account where
  finished : Bool
  found : Finset UInt16

/-- Whether an account of a version got further than the one held. -/
def Account.supersedes (a standing : Account) : Bool :=
  let further :=
    match a.finished, standing.finished with
    | _, true => false
    | true, false => true
    | false, false => decide (standing.found.card < a.found.card)
  further && decide (standing.found ⊆ a.found)

namespace TlsSupport

def new : TlsSupport := ⟨[], [], List.Pairwise.nil, List.Pairwise.nil⟩

variable (t : TlsSupport)

def record (support : VersionSupport) : TlsSupport :=
  { t with
    versions := placeVersion VersionSupport.version support t.versions
    versions_ascending := pairwise_placeVersion support t.versions_ascending }

def recordUnfinished (unfinished : UnfinishedVersion) : TlsSupport :=
  { t with
    unfinished := placeVersion UnfinishedVersion.version unfinished t.unfinished
    unfinished_ascending := pairwise_placeVersion unfinished t.unfinished_ascending }

theorem fields_foldl_record : ∀ (entries : List VersionSupport) (t : TlsSupport),
    (entries.foldl record t).versions =
      entries.foldl (fun held entry => placeVersion VersionSupport.version entry held) t.versions ∧
    (entries.foldl record t).unfinished = t.unfinished
  | [], _ => ⟨rfl, rfl⟩
  | entry :: rest, t => fields_foldl_record rest (t.record entry)

theorem fields_foldl_recordUnfinished : ∀ (entries : List UnfinishedVersion) (t : TlsSupport),
    (entries.foldl recordUnfinished t).unfinished =
      entries.foldl (fun held entry => placeVersion UnfinishedVersion.version entry held) t.unfinished ∧
    (entries.foldl recordUnfinished t).versions = t.versions
  | [], _ => ⟨rfl, rfl⟩
  | entry :: rest, t => fields_foldl_recordUnfinished rest (t.recordUnfinished entry)

def isEmpty : Bool := t.versions.isEmpty && t.unfinished.isEmpty

def account (version : TlsVersion) : Account :=
  ⟨!t.unfinished.any fun held => held.version == version,
    match t.versions.find? fun held => held.version == version with
    | some held => (held.suites.map CipherSuite.code ++ held.unrecognised).toFinset
    | none => ∅⟩

def named : List TlsVersion :=
  t.versions.map VersionSupport.version ++ t.unfinished.map UnfinishedVersion.version

def without (taken : List TlsVersion) : TlsSupport where
  versions := t.versions.filter fun held => held.version ∉ taken
  unfinished := t.unfinished.filter fun held => held.version ∉ taken
  versions_ascending := t.versions_ascending.sublist filter_sublist
  unfinished_ascending := t.unfinished_ascending.sublist filter_sublist

/-- Folds another enumeration in, version by version. -/
def merge (t other : TlsSupport) : TlsSupport :=
  if other.isEmpty then t
  else if t.isEmpty then other
  else
    let taken := (t.named ++ other.named).filter fun version => (other.account version).supersedes (t.account version)
    let accepted := (other.versions.filter fun held => held.version ∈ taken).foldl record (t.without taken)
    (other.unfinished.filter fun held => held.version ∈ taken).foldl recordUnfinished accepted

/-! ## What to report about it -/

def DETECTION : Text := "zond:tls"

def pkgVersion : Version := ⟨0, 19, 0⟩

variable (p : Process)

def detectionId : DetectionId := ⟨DETECTION, pkgVersion, p.suiteHash, by decide +kernel⟩

def faults : List SuiteFault :=
  SuiteFault.all.filter fun fault => t.versions.any fun held => held.suites.any (·.hasFault fault)

def rfcReference (document : Text) : Option Reference :=
  if "RFC ".toList.isPrefixOf document then
    some (.url ("https://www.rfc-editor.org/rfc/rfc" ++ document.drop 4))
  else none

def faultReference : SuiteFault → Option Reference
  | .rc4 => some (.url "https://www.rfc-editor.org/rfc/rfc7465")
  | .smallBlock => Reference.ofCve "CVE-2016-2183"
  | _ => none

def citing (finding : Finding) : Option Reference → Finding
  | some reference => finding.withReference reference
  | none => finding

def versionFinding (version : TlsVersion) : Option Finding :=
  version.severity.bind fun severity =>
    let withdrawnBy := version.deprecatedBy.getD "a published standard"
    match Finding.new (detectionId p) (version.name ++ " is still accepted") severity .certain .activeBenign with
    | .error _ => none
    | .ok finding =>
      let excerpt := "the endpoint answered a " ++ version.name ++
        " hello by selecting a suite under it; " ++ withdrawnBy ++ " withdrew it"
      some (citing (finding.withExcerpt (.new excerpt)) (rfcReference withdrawnBy))

variable (t : TlsSupport)

def carriers (fault : SuiteFault) : List Text :=
  (t.versions.flatMap VersionSupport.suites).foldl
    (fun names suite => if suite.hasFault fault && !names.contains suite.name then names ++ [suite.name] else names) []

def faultFinding (fault : SuiteFault) : Option Finding :=
  match Finding.new (detectionId p) ("cipher suites accepted with " ++ fault.summary) fault.severity .certain
    .activeBenign with
  | .error _ => none
  | .ok finding =>
    let names := t.carriers fault
    let excerpt := Text.decimal names.length ++ " of the accepted suites carry this: " ++
      List.intercalate ", " names
    some (citing (finding.withExcerpt (.new excerpt)) (faultReference fault))

def findings : List Finding :=
  ((t.versions.map VersionSupport.version).filter TlsVersion.isDeprecated).filterMap (versionFinding p) ++
  t.faults.filterMap (faultFinding p t)

def claims : List ClaimId := (t.findings p).map Finding.claimId

def resting (claim : ClaimId) : List TlsVersion :=
  (t.versions.filter fun held => (new.record held).claims p |>.contains claim).map VersionSupport.version

def leavesOpen (version : TlsVersion) : Bool :=
  t.isEmpty || t.unfinished.any fun held => held.version == version

/-- Whether what is offered now bears out a claim. -/
def standing (finding : Finding) (basis : TlsSupport) : Option Standing :=
  if finding.detection.id ≠ DETECTION then none
  else
    let claim := finding.claimId
    let restsOn := basis.resting p claim
    if restsOn.isEmpty then none
    else if (t.claims p).contains claim then some .upheld
    else if restsOn.any t.leavesOpen then some .unsettled
    else some .overturned

def excerptOf (claim : ClaimId) : Option Excerpt :=
  ((t.findings p).find? fun drawn => drawn.claimId == claim).map Finding.excerpt

def leftOpenBy (basis t : TlsSupport) : TlsSupport where
  versions := basis.versions.filter fun held => t.leavesOpen held.version
  unfinished := []
  versions_ascending := basis.versions_ascending.sublist filter_sublist
  unfinished_ascending := List.Pairwise.nil

def restate (finding : Finding) (basis : TlsSupport) : Option Excerpt :=
  let claim := finding.claimId
  let restated :=
    match t.standing p finding basis with
    | some .upheld => t.excerptOf p claim
    | some .unsettled => (basis.leftOpenBy t).excerptOf p claim
    | some .overturned | none => none
  restated.filter fun excerpt => basis.excerptOf p claim != some excerpt

end TlsSupport

end Zond
