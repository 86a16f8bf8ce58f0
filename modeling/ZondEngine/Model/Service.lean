import Mathlib.Data.List.Lex
import Mathlib.Data.Char
import ZondEngine.Lib.Sorted
import ZondEngine.Lib.Text

/-!
# Services and their builds

`model/port/service.rs` and `model/port/build.rs`: what listens on a port and how sure that is, and whose package of the
software it is. `Service.merge` folds two identifications of one endpoint made by one scan.
-/

namespace Zond

/-! ## Builds -/

inductive Distributor where
  | debian | ubuntu | raspbian | redHat | centOs | fedora | amazon | rocky | alma | oracle | suse | alpine | freeBsd
  deriving DecidableEq

inductive ReleaseBasis where
  | banner | revision
  deriving DecidableEq

structure Release where
  name : Text
  basis : ReleaseBasis
  deriving DecidableEq

structure Build where
  distributor : Distributor
  revision : Option Text
  release : Option Release
  deriving DecidableEq

def Distributor.label : Distributor → Text
  | debian => "Debian"
  | ubuntu => "Ubuntu"
  | raspbian => "Raspbian"
  | redHat => "Red Hat"
  | centOs => "CentOS"
  | fedora => "Fedora"
  | amazon => "Amazon Linux"
  | rocky => "Rocky Linux"
  | alma => "AlmaLinux"
  | oracle => "Oracle Linux"
  | suse => "SUSE"
  | alpine => "Alpine"
  | freeBsd => "FreeBSD"

namespace Build

def new (distributor : Distributor) : Build := ⟨distributor, none, none⟩

def describe (b : Build) : Text :=
  b.distributor.label ++ b.release.elim [] (fun release => ' ' :: release.name) ++ b.revision.elim [] (' ' :: ·)

def matchIndices (marker : Text) : Text → Text → List (Text × Text)
  | _, [] => []
  | before, c :: rest =>
    let later := matchIndices marker (before ++ [c]) rest
    if marker.isPrefixOf (c :: rest) then (before, (c :: rest).drop marker.length) :: later else later

def withoutZeros (digits : Text) : Option Text :=
  Option.guard (fun text => !text.isEmpty) (digits.dropWhile (· == '0'))

def debianReleaseAfter (revision marker : Text) : Option Text :=
  let found := (matchIndices marker [] revision).filterMap fun (before, after) =>
    let digits := after.takeWhile Char.isDigit
    if (before.getLast? == some '+' || before.getLast? == some '~') && !digits.isEmpty then some digits else none
  found.getLast?.bind withoutZeros

def ubuntuReleaseAfter (revision marker : Text) : Option Text :=
  (matchIndices marker [] revision).findSome? fun (_, after) =>
    match after with
    | a :: b :: dot :: c :: d :: next =>
      let shaped := a.isDigit && b.isDigit && dot == '.' && c.isDigit && d.isDigit && !(next.head?.any Char.isDigit)
      if shaped && (decide ([c, d] = ['0', '4']) || decide ([c, d] = ['1', '0'])) then some [a, b, dot, c, d] else none
    | _ => none

def releaseInRevision (distributor : Distributor) (revision : Text) : Option Text :=
  match distributor with
  | .debian | .raspbian =>
    (debianReleaseAfter revision ['d', 'e', 'b']).or (debianReleaseAfter revision ['b', 'p', 'o'])
  | .ubuntu =>
    (ubuntuReleaseAfter revision ['u', 'b', 'u', 'n', 't', 'u', '0', '.']).or (ubuntuReleaseAfter revision ['~'])
  | _ => none

def withRelease (b : Build) (release : Release) : Build :=
  { b with
    release :=
      match b.release with
      | none => some release
      | some held =>
        if held.name = release.name then
          some (if held.basis = .banner ∧ release.basis = .revision then release else held)
        else none }

/-- Notes the revision and the release it tells. -/
def withRevision (b : Build) (revision : Text) : Build :=
  let stated := releaseInRevision b.distributor revision
  let b := { b with revision := some revision }
  match stated with
  | some name => b.withRelease ⟨name, .revision⟩
  | none => b

/-- Fills in the revision, and takes the release, of one distributor. -/
def merge (b other : Build) : Build :=
  if other.distributor ≠ b.distributor then b
  else
    let b :=
      match b.revision, other.revision with
      | none, some revision => b.withRevision revision
      | _, _ => b
    match other.release with
    | some release => b.withRelease release
    | none => b

/-- A security update names its release, the release a banner gave before it. -/
example : (withRevision (new .debian) "2+deb12u3").release = some ⟨['1', '2'], .revision⟩ := by decide

end Build

/-! ## Services -/

def MAX_CPES_PER_SERVICE : Nat := 50

/-- What answers at a port. -/
structure Service where
  name : Text
  confidence : Nat
  (product vendor version extrainfo : Option Text)
  cpe : SortedSet Text
  build : Option Build
  confidence_le : confidence ≤ 100
  deriving DecidableEq

/-- Adds identifiers while there is room. -/
def addCpes (bound : Nat) (held : SortedSet Text) (cpes : List Text) : SortedSet Text :=
  cpes.foldl (fun held cpe => if held.len < bound then held.add cpe else held) held

theorem percent_le (percent : Nat) : min percent 100 ≤ 100 := Nat.min_le_right _ _

namespace Service

def new (name : Text) (confidence : Nat) : Service :=
  ⟨name, min confidence 100, none, none, none, none, SortedMap.empty, none, percent_le confidence⟩

def isInferred (s : Service) : Bool := s.confidence == 0

/-- Folds another identification of this endpoint into this one: a surer one supplies the identity, another only
fills gaps. -/
def merge (s other : Service) : Service :=
  let surer := s.confidence < other.confidence
  let build :=
    match s.build, other.build with
    | some held, some offered =>
      if held.distributor = offered.distributor then some (held.merge offered)
      else if surer then some offered
      else some held
    | held, offered => held.or offered
  let cpe := addCpes MAX_CPES_PER_SERVICE s.cpe other.cpe.keys
  if surer then
    { other with
      product := other.product.or s.product, vendor := other.vendor.or s.vendor,
      version := other.version.or s.version, extrainfo := other.extrainfo.or s.extrainfo, cpe, build }
  else
    { s with
      product := s.product.or other.product, vendor := s.vendor.or other.vendor,
      version := s.version.or other.version, extrainfo := s.extrainfo.or other.extrainfo, cpe, build }

end Service

end Zond
