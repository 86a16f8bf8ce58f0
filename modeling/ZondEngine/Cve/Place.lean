import ZondEngine.Cve.Dataset

/-!
# Placing a build

`Placement::of` of `cve/backport.rs` and the map of source packages in `cve/packages.rs`. The version installed is the
one of the release's lineage that has the banner's revision, or the latest one with its revision exchanged:
`installed_iff` says when that is right, `installed_cuts_upstream` is where it is not.
-/

namespace Zond.Cve

open Zond.VersionOrder List

/-! ## Source packages -/

namespace Packages

structure Rule where
  (release series : Option Text)
  package : Text

def inSeries (upstream series : Text) : Bool :=
  series.isPrefixOf upstream && !((upstream.drop series.length).head?.any Char.isDigit)

def Rule.holds (rule : Rule) (release upstream : Text) : Bool :=
  rule.release.all (· == release) && rule.series.all (inSeries upstream)

/-- How a distributor names a product's source package: one name always, or the first rule that holds. -/
inductive Spec where
  | always (package : Text)
  | rules (rules : List Rule)

def Spec.package (release upstream : Text) : Spec → Option Text
  | .always package => some package
  | .rules tried => (tried.find? (·.holds release upstream)).map Rule.package

structure Product where
  (ubuntu debian : Option Spec)

def Product.at (product : Product) : Distributor → Option Spec
  | .ubuntu => product.ubuntu
  | .debian => product.debian

structure Document where
  product : SortedMap Text Product

def sourcePackage (document : Document) (vendorProduct : Text) (distributor : Distributor) (release upstream : Text) :
    Option Text :=
  ((document.product.get? vendorProduct).bind (·.at distributor)).bind (·.package release upstream)

end Packages

/-! ## Placements -/

inductive Unplaced where
  | noData
  | notPackaged
  | releaseUnknown
  | notCovered (package release : Text)
  deriving DecidableEq

def Unplaced.describe (distributor : Text) : Unplaced → Text
  | noData => "no " ++ distributor ++ " advisory data was loaded"
  | notPackaged => distributor ++ "'s advisory data does not cover this software"
  | releaseUnknown => "the banner does not say which " ++ distributor ++ " release this is"
  | notCovered package release =>
    distributor ++ "'s advisory data does not cover " ++ package ++ " in release " ++ release

def publisherOf : Zond.Distributor → Option Distributor
  | .ubuntu => some .ubuntu
  | .debian | .raspbian => some .debian
  | _ => none

def releasesWithRevision (packageIn : Text → Option Text) (a : Advisories) (revision : Text) : List Text :=
  a.releases.keys.foldl
    (fun found release =>
      match packageIn release with
      | none => found
      | some package =>
        (a.buildsWithRevision package revision).foldl
          (fun found held => if held.1 == release && !found.contains held.1 then found ++ [held.1] else found) found)
    []

def releaseOf (packageIn : Text → Option Text) (a : Advisories) (build : Build) (hostRelease : Option Text) :
    Except Unplaced (Text × ReleaseFrom) :=
  match build.release, build.revision with
  | some release, _ => .ok (release.name, .banner)
  | none, none => hostRelease.elim (.error .releaseUnknown) fun release => .ok (release, .host)
  | none, some revision =>
    match releasesWithRevision packageIn a revision with
    | [only] => .ok (only, .revision)
    | _ => .error .releaseUnknown

variable (versions : List Text) (revision : Text)

def installedOf : Option Text :=
  (versions.find? fun version => dpkgRevision version == revision).or
    (versions.getLast?.bind fun latest =>
      (Text.stripSuffix (dpkgRevision latest) latest).map fun stem => stem ++ revision)

/-- Places a build among the advisories of its release. -/
def Placement.of (document : Packages.Document) (build : Build) (vendorProduct upstream : Text) (set : List Dataset)
    (hostRelease : Option Text) : Except Unplaced Placement :=
  match publisherOf build.distributor with
  | none => .error .noData
  | some distributor =>
    match set.find? fun dataset => dataset.distributor == distributor with
    | none => .error .noData
    | some dataset =>
      let packageIn := fun release => Packages.sourcePackage document vendorProduct distributor release upstream
      match releaseOf packageIn dataset.toAdvisories build hostRelease with
      | .error why => .error why
      | .ok placed =>
        match packageIn placed.1 with
        | none => .error .notPackaged
        | some package =>
          match dataset.lineage placed.1 package with
          | none => .error (.notCovered package placed.1)
          | some versions =>
            .ok ⟨dataset.toAdvisories, placed.1, placed.2, package, build.revision.bind (installedOf versions)⟩

theorem Placement.of_eq_ok {document : Packages.Document} {build : Build} {vendorProduct upstream : Text}
    {set : List Dataset} {hostRelease : Option Text} {p : Placement}
    (h : Placement.of document build vendorProduct upstream set hostRelease = .ok p) :
    ∃ versions, p.advisories.lineage p.release p.package = some versions ∧
      p.installed = build.revision.bind (installedOf versions) := by
  unfold Placement.of at h
  dsimp only at h
  split at h
  · cases h
  · split at h
    · cases h
    · split at h
      · cases h
      · split at h
        · cases h
        · split at h
          · cases h
          next versions hlineage =>
            cases h
            exact ⟨versions, hlineage, rfl⟩

/-! ## The revision of the version installed -/

theorem hyphen_notMem_dpkgRevision (version : Text) : '-' ∉ dpkgRevision version := by
  rw [dpkgRevision, dpkgParts_eq]
  split
  next hsplit => exact Text.notMem_of_rsplitOnce hsplit
  next => exact fun h => absurd (mem_singleton.mp h) (by decide)

theorem dpkgRevision_of_notMem {version : Text} (h : '-' ∉ version) : dpkgRevision version = ['0'] := by
  rw [dpkgRevision, dpkgParts_eq, Text.rsplitOnce_eq_none_iff.mpr fun hmem => h ((mem_epochAndRest version).mp hmem)]

theorem dpkgParts_append (stem : Text) {revision : Text} (h : '-' ∉ revision) :
    dpkgParts (stem ++ '-' :: revision) = ((epochAndRest stem).1, (epochAndRest stem).2, revision) := by
  have hsplit : Text.rsplitOnce '-' ((epochAndRest stem).2 ++ '-' :: revision) =
      some ((epochAndRest stem).2, revision) := by
    rw [show '-' :: revision = ['-'] ++ revision from rfl, ← append_assoc, Text.rsplitOnce_append_of_notMem h]
    simp [Text.rsplitOnce, Text.splitOnce]
  rw [dpkgParts_eq, epochAndRest_append rfl (by decide), hsplit]

theorem exists_stem {latest : Text} (h : '-' ∈ latest) : ∃ stem, latest = stem ++ '-' :: dpkgRevision latest := by
  obtain ⟨parts, hparts⟩ : ∃ parts, Text.rsplitOnce '-' latest = some parts := by
    cases hsplit : Text.rsplitOnce '-' latest with
    | none => exact absurd h (Text.rsplitOnce_eq_none_iff.mp hsplit)
    | some parts => exact ⟨parts, rfl⟩
  have hlatest := Text.eq_of_rsplitOnce (x := parts.1) (y := parts.2) hparts
  have hrevision := dpkgParts_append parts.1 (Text.notMem_of_rsplitOnce (x := parts.1) hparts)
  rw [← hlatest] at hrevision
  refine ⟨parts.1, ?_⟩
  rw [dpkgRevision, hrevision]
  exact hlatest

def dpkgSeries (version : Text) : Text × Text := ((dpkgParts version).1, (dpkgParts version).2.1)

def IsBuildOf (revision version : Text) : Prop :=
  dpkgRevision version = revision ∧ ∃ held ∈ versions, dpkgSeries version = dpkgSeries held

def Buildable : Prop :=
  (∃ held ∈ versions, dpkgRevision held = revision) ∨
    '-' ∉ revision ∧ ∃ latest, versions.getLast? = some latest ∧ '-' ∈ latest

theorem installedOf_iff {versions : List Text} {revision version : Text}
    (h : installedOf versions revision = some version) :
    IsBuildOf versions revision version ↔ Buildable versions revision := by
  rcases Option.or_eq_some_iff.mp h with hfound | ⟨hnone, hmade⟩
  · have hmem := mem_of_find?_eq_some hfound
    have hrevision : dpkgRevision version = revision := by simpa using find?_some hfound
    exact iff_of_true ⟨hrevision, version, hmem, rfl⟩ (.inl ⟨version, hmem, hrevision⟩)
  · obtain ⟨latest, hlatest, hstrip⟩ := Option.bind_eq_some_iff.mp hmade
    obtain ⟨stem, hstem, rfl⟩ := Option.map_eq_some_iff.mp hstrip
    rw [Text.stripSuffix_eq_some_iff] at hstem
    have hmem : latest ∈ versions := mem_of_getLast? hlatest
    have hnot : ∀ held ∈ versions, dpkgRevision held ≠ revision := by simpa using hnone
    by_cases hhyphen : '-' ∈ revision
    · -- no revision has a hyphen
      refine iff_of_false (fun hbuild => hyphen_notMem_dpkgRevision _ (hbuild.1 ▸ hhyphen)) ?_
      rintro (⟨held, hheld, heq⟩ | ⟨hno, -⟩)
      · exact hnot held hheld heq
      · exact hno hhyphen
    · by_cases hcut : '-' ∈ latest
      · obtain ⟨front, hfront⟩ := exists_stem hcut
        obtain rfl : stem = front ++ ['-'] := by
          have hsame : stem ++ dpkgRevision latest = (front ++ ['-']) ++ dpkgRevision latest := by
            rw [← hstem, append_assoc]
            exact hfront
          exact append_cancel_right hsame
        have hmade := dpkgParts_append front hhyphen
        have hheld := dpkgParts_append front (hyphen_notMem_dpkgRevision latest)
        rw [← hfront] at hheld
        rw [append_assoc, singleton_append]
        refine iff_of_true ⟨?_, latest, hmem, ?_⟩ (.inr ⟨hhyphen, latest, hlatest, hcut⟩)
        · rw [dpkgRevision, hmade]
        · rw [dpkgSeries, dpkgSeries, hmade, hheld]
      · -- the zero cut off the latest version was no revision, and nothing marks off the one put there
        have hzero := dpkgRevision_of_notMem hcut
        refine iff_of_false (fun hbuild => hnot latest hmem ?_) ?_
        · have hno : '-' ∉ stem ++ revision := by
            rw [mem_append, not_or]
            exact ⟨fun hin => hcut (hstem ▸ mem_append_left _ hin), hhyphen⟩
          rw [hzero, ← hbuild.1, dpkgRevision_of_notMem hno]
        · rintro (⟨held, hheld, heq⟩ | ⟨-, other, hother, hin⟩)
          · exact hnot held hheld heq
          · rw [hlatest] at hother
            exact hcut (Option.some.inj hother ▸ hin)

/-- **The version a build is placed with has the banner's revision exactly when the lineage has it,
or its latest version has one and the banner's has no hyphen.** -/
theorem installed_iff (document : Packages.Document) (build : Build) (vendorProduct upstream : Text)
    (set : List Dataset) (hostRelease : Option Text) {p : Placement} {revision version : Text} {versions : List Text}
    (hrevision : build.revision = some revision)
    (hplaced : Placement.of document build vendorProduct upstream set hostRelease = .ok p)
    (hinstalled : p.installed = some version) (hversions : p.advisories.lineage p.release p.package = some versions) :
    IsBuildOf versions revision version ↔ Buildable versions revision := by
  obtain ⟨lineage, hlineage, heq⟩ := Placement.of_eq_ok hplaced
  obtain rfl : lineage = versions := Option.some.inj (hlineage.symm.trans hversions)
  rw [hinstalled, hrevision] at heq
  exact installedOf_iff heq.symm

def filed : Packages.Document := ⟨SortedMap.empty.insert ['v'] ⟨some (.always ['p']), none⟩⟩

def known : Dataset :=
  { oneCve versions [] with
    distributor := .ubuntu
    version := ⟨0, 0, 0⟩
    contentHash := []
    cves := SortedMap.empty }

def released : Build := ⟨.ubuntu, some revision, some ⟨['r'], .banner⟩⟩

/-- A revision the data never listed, in the place of the latest one. -/
theorem installed_of_openssh :
    ((Placement.of filed (released "2ubuntu9") ['v'] [] [known ["1:6.6p1-2ubuntu2"]] none).toOption.bind
        Placement.installed) = some "1:6.6p1-2ubuntu9" ∧
      IsBuildOf ["1:6.6p1-2ubuntu2"] "2ubuntu9" "1:6.6p1-2ubuntu9" := by
  refine ⟨by decide +kernel, ?_⟩
  refine (installed_iff filed (released "2ubuntu9") ['v'] [] [known ["1:6.6p1-2ubuntu2"]] none
    rfl rfl (by decide +kernel) (by decide +kernel)).mpr (.inr ⟨by decide, _, rfl, by decide⟩)

/-- The release has version 10 of the package and nothing else, and the build is placed at version 15. -/
theorem installed_cuts_upstream :
    ((Placement.of filed (released ['5']) ['v'] [] [known [['1', '0']]] none).toOption.bind Placement.installed) =
        some ['1', '5'] ∧ dpkgRevision ['1', '5'] = ['0'] ∧ dpkgSeries ['1', '5'] = (['0'], ['1', '5']) ∧
      dpkgSeries ['1', '0'] = (['0'], ['1', '0']) ∧ ¬ IsBuildOf [['1', '0']] ['5'] ['1', '5'] := by
  refine ⟨by decide +kernel, by decide +kernel, by decide +kernel, by decide +kernel, fun h => ?_⟩
  exact absurd h.1 (by decide +kernel)

end Zond.Cve
