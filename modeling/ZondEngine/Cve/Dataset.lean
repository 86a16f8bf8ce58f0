import ZondEngine.Cve.Backport
import ZondEngine.Model.Finding

/-!
# A distributor's dataset

The whole of `Advisories` in `cve/advisories.rs`: beside the verdicts, who published them, the version and digest of the
data, and the priorities a distributor gives.
-/

namespace Zond.Cve

open Zond.VersionOrder

inductive Distributor where
  | ubuntu | debian
  deriving DecidableEq

def Distributor.id : Distributor → Text
  | ubuntu => "ubuntu:security-notices"
  | debian => "debian:security-tracker"

/-- What the data says about a vulnerability beyond its verdicts: its priority everywhere, and release by release. -/
structure Facts where
  priority : Option Text
  byRelease : SortedMap Text Text

structure Dataset extends Advisories where
  distributor : Distributor
  version : Version
  contentHash : Text
  cves : SortedMap Text Facts

def Advisories.lineage (a : Advisories) (release sourcePackage : Text) : Option (List Text) :=
  (a.package release sourcePackage).map Package.lineage

def Advisories.buildsWithRevision (a : Advisories) (sourcePackage revision : Text) : List (Text × Text) :=
  (a.releases.entries.filterMap fun entry => (entry.2.get? sourcePackage).map (entry.1, ·)).flatMap fun held =>
    (held.2.lineage.filter fun version => dpkgRevision version == revision).map (held.1, ·)

namespace Dataset

def id (a : Dataset) : Text := a.distributor.id

def priority (a : Dataset) (release : Option Text) (cve : Text) : Option Text :=
  (a.cves.get? cve).bind fun facts => (release.bind facts.byRelease.get?).or facts.priority

end Dataset

end Zond.Cve
