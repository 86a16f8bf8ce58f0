import ZondEngine.Cve.Catalogue
import ZondEngine.Cve.Place
import ZondEngine.Model.Host.Valid

/-!
# Judging an identification

`Catalogue::judge` of `cve.rs`. The entries that match a service are sorted, the worst first, neighbours with one
identifier are dropped, and each entry is classified (`Verdict.of`): withdrawn and counted, or grouped into a finding.
-/

namespace Zond.Cve

open Zond.VersionOrder

local instance : Coe String Text := ⟨String.toList⟩

def say (parts : List Text) : Text := parts.flatten

/-- What is compiled in beside the catalogue: the map of source packages and the overlay. -/
structure Assets where
  packages : Packages.Document
  overlay : Overlay

/-! ## What is judged -/

/-- One platform identifier of one service, and what the service said about whose build it is. -/
structure Judged where
  cpe : Text
  parsed : Cpe
  product : Option Text
  build : Option Build
  hostRelease : Option Text

namespace Judged

/-- An identifier that can be judged. -/
def of (service : Service) (cpe : Text) : Option Judged :=
  (Cpe.parse cpe).map fun parsed => ⟨cpe, parsed, service.product, service.build, none⟩

def onHost (j : Judged) (releases : Zond.Distributor → SortedSet Text) : Judged :=
  { j with
    hostRelease := j.build.bind fun build =>
      if (releases build.distributor).len = 1 then (releases build.distributor).keys.head? else none }

def vendorProduct (j : Judged) : Text := say [j.parsed.vendor, ":", j.parsed.product]

end Judged

/-! ## Verdicts -/

inductive Verdict where
  | affected | fixAvailable | esmOnly | noFix | needsSetting | buildUnchecked | patchLevelHidden | untriaged
  | anyVersion
  deriving DecidableEq

namespace Verdict

theorem ctorIdx_injective : Function.Injective Verdict.ctorIdx := Function.LeftInverse.injective Verdict.ofNat_ctorIdx

instance : LinearOrder Verdict := LinearOrder.lift' Verdict.ctorIdx ctorIdx_injective

/-- The name a claim's subject has for a verdict. -/
def key : Verdict → Text
  | affected => "affected"
  | fixAvailable => "fix-available"
  | esmOnly => "esm-only"
  | noFix => "no-fix"
  | needsSetting => "needs-setting"
  | buildUnchecked => "build-unchecked"
  | patchLevelHidden => "patch-level-hidden"
  | untriaged => "untriaged"
  | anyVersion => "any-version"

def confidence : Verdict → Confidence
  | affected | fixAvailable | esmOnly | noFix => .probable
  | _ => .weak

end Verdict

inductive Why where
  | fixed | notAffected | elsewhere
  deriving DecidableEq

inductive Classified where
  | withdrawn (why : Why)
  | grouped (verdict : Verdict) (ruling : Option Ruling)

def Ruling.classified : Ruling → Classified
  | .withdrawn (.fixed _) => .withdrawn .fixed
  | .withdrawn (.notAffected _) => .withdrawn .notAffected
  | .vulnerable (.fixAvailable fix) => .grouped .fixAvailable (some (.vulnerable (.fixAvailable fix)))
  | .vulnerable (.esmOnly fix) => .grouped .esmOnly (some (.vulnerable (.esmOnly fix)))
  | .vulnerable (.noFix kind note) => .grouped .noFix (some (.vulnerable (.noFix kind note)))
  | .unsettled (.patchLevelHidden fix) => .grouped .patchLevelHidden (some (.unsettled (.patchLevelHidden fix)))
  | .unsettled why => .grouped .untriaged (some (.unsettled why))

/-- What one vulnerability is ruled for a service. -/
def Verdict.of (overlay : Overlay) (v : Vulnerability) (judged : Judged)
    (placement : Option (Except Unplaced Placement)) : Classified :=
  let found :=
    match placement with
    | some (.ok placed) => (placed.rule v.cve).classified
    | _ =>
      match v.constrainsTheVersion, judged.build with
      | false, _ => .grouped .anyVersion none
      | true, none => .grouped .affected none
      | true, some _ => .grouped .buildUnchecked none
  match v.applies overlay, found with
  | some .client, _ | some .local, _ => .withdrawn .elsewhere
  | some (.configuration _), .grouped _ ruling => .grouped .needsSetting ruling
  | _, found => found

structure Ruled where
  vulnerability : Vulnerability
  ruling : Option Ruling

namespace Ruled

def cve (r : Ruled) : Text := r.vulnerability.cve

def severity (r : Ruled) : Option Severity := Wire.severity.parse r.vulnerability.severity

def fix (r : Ruled) : Option Fix :=
  match r.ruling with
  | some (.vulnerable (.fixAvailable fix)) | some (.vulnerable (.esmOnly fix))
  | some (.unsettled (.patchLevelHidden fix)) => some fix
  | _ => none

end Ruled

/-! ## The loop -/

structure Withdrawn where
  (fixed notAffected elsewhere : Nat)
  deriving DecidableEq

namespace Withdrawn

def none : Withdrawn := ⟨0, 0, 0⟩

variable (w : Withdrawn)

def count : Why → Withdrawn
  | .fixed => { w with fixed := w.fixed + 1 }
  | .notAffected => { w with notAffected := w.notAffected + 1 }
  | .elsewhere => { w with elsewhere := w.elsewhere + 1 }

def of : Why → Nat
  | .fixed => w.fixed
  | .notAffected => w.notAffected
  | .elsewhere => w.elsewhere

def total : Nat := w.fixed + w.notAffected + w.elsewhere

theorem of_count (why other : Why) : (w.count why).of other = w.of other + if why = other then 1 else 0 := by
  cases why <;> cases other <;> rfl

end Withdrawn

structure Tally where
  groups : SortedMap Verdict (List Ruled)
  withdrawn : Withdrawn

def Tally.add (t : Tally) (v : Vulnerability) : Classified → Tally
  | .withdrawn why => { t with withdrawn := t.withdrawn.count why }
  | .grouped verdict ruling =>
    { t with groups := t.groups.insert verdict ((t.groups.get? verdict).getD [] ++ [⟨v, ruling⟩]) }

/-! ## What a finding says -/

def MAX_NAMED_IN_EXCERPT : Nat := 3

def MAX_SUMMARY_BYTES : Nat := 80

def firstFew (separator : Text) (texts : List Text) : Text := separator.intercalate (texts.take MAX_NAMED_IN_EXCERPT)

def andMore (texts : List Text) : Text :=
  match texts.length - MAX_NAMED_IN_EXCERPT with
  | 0 => []
  | n => say [" and ", Text.decimal n, " more"]

/-- What every finding of one identification shares: the build placed, in whose data, or why it was not. -/
structure Context where
  judged : Judged
  placement : Option (Dataset × Placement)
  unplaced : Option Unplaced

namespace Context

variable (c : Context)

def distributorLabel : Text := c.judged.build.elim "the distributor" fun build => build.distributor.label

def bannerRelease : Option Text := c.judged.build.bind fun build => build.release.map Release.name

def release : Text := ((c.placement.map fun placed => placed.2.release).or c.bannerRelease).getD "unknown"

def package : Text := c.placement.elim "the package" fun placed => placed.2.package

def inferred : ReleaseFrom → Text
  | .banner => []
  | .revision => ", the only release that shipped this build"
  | .host => ", the release the host's other services name"

def placedAs : Text :=
  match c.placement with
  | some (_, placed) =>
    say [placed.package, placed.installed.elim [] fun version => ' ' :: version, " on ", c.distributorLabel, " ",
      placed.release, inferred placed.releaseFrom]
  | none => say ["This ", c.distributorLabel, " build"]

/-- What the claim of a verdict is keyed by. -/
def subject (verdict : Verdict) : Text :=
  let scope :=
    match c.judged.build with
    | none => "upstream"
    | some build =>
      let release := ((c.placement.map fun placed => placed.2.release).or c.bannerRelease).or c.judged.hostRelease
      say [Wire.distributorName build.distributor, release.elim [] fun release => '-' :: release]
  say [c.judged.parsed.vendor, ":", c.judged.parsed.product, ":", c.judged.parsed.version, "@", scope, "/", verdict.key]

end Context

def Withdrawn.describe (w : Withdrawn) (context : Context) : Option Text :=
  let distributor := context.distributorLabel
  let parts :=
    (if 0 < w.fixed then [say [Text.decimal w.fixed, if w.fixed = 1 then " is" else " are", " fixed in this build"]]
      else []) ++
    (if 0 < w.notAffected then
      [say [Text.decimal w.notAffected, " never affected ", distributor, " ", context.release]] else [])
  let byData := if parts.isEmpty then [] else
    [say ["Of this release's other known vulnerabilities, ", (" and " : Text).intercalate parts, ", by ", distributor,
      "'s own data"]]
  let elsewhere := if 0 < w.elsewhere then
    [say [Text.decimal w.elsewhere, " more ", if w.elsewhere = 1 then "lives" else "live",
      " in its client programs or ",
      if w.elsewhere = 1 then "needs" else "need", " an account on the host"]] else []
  if w.total = 0 then Option.none
  else some (say [("; " : Text).intercalate (byData ++ elsewhere), ". None of these is reported"])

/-- How many open defects will not be fixed, in words. -/
def openKinds (entries : List Ruled) : Text :=
  let kinds := entries.filterMap fun entry =>
    match entry.ruling with
    | some (.vulnerable (.noFix kind _)) => some kind
    | _ => none
  match kinds.count .ignored, kinds.countP (· ≠ .ignored) with
  | 0, _ => []
  | _, 0 => ": it has said it will not fix them in this release"
  | ignored, other =>
    say [": it has said it will not fix ", Text.decimal ignored, " of them in this release, and ", Text.decimal other,
      " await a fix"]

def countText (counts : List (Text × Nat)) (text : Text) : List (Text × Nat) :=
  if counts.any fun seen => seen.1 == text then
    counts.map fun seen => if seen.1 == text then (seen.1, seen.2 + 1) else seen
  else counts ++ [(text, 1)]

/-- The distributor's own priorities, in words. -/
def priorities (context : Context) (entries : List Ruled) : Option Text :=
  context.placement.bind fun placed =>
    let rated := entries.filterMap fun entry => placed.1.priority (some placed.2.release) entry.cve
    let counts := rated.foldl countText []
    if counts.isEmpty then none
    else some (say [context.distributorLabel, "'s own priority for them: ",
      (", " : Text).intercalate (counts.map fun rated => say [Text.decimal rated.2, " ", rated.1])])

def newest (versions : List Text) : Option Text :=
  versions.foldl (fun best version => best.elim (some version) fun best =>
    some (if dpkgCmp best version = .gt then best else version)) none

/-- What to do about a verdict, in words. -/
def remediation (context : Context) (verdict : Verdict) (entries : List Ruled) : Option Text :=
  let fixes := entries.filterMap Ruled.fix
  let notices := (fixes.filterMap Fix.advisory).foldl
    (fun notices notice =>
      if notice ∉ notices ∧ notices.length < MAX_NAMED_IN_EXCERPT then notices ++ [notice] else notices) []
  let citing := if notices.isEmpty then [] else say [" (", (", " : Text).intercalate notices, ")"]
  let newest := newest (fixes.map Fix.version)
  match verdict with
  | .fixAvailable => newest.map fun fix => say ["Upgrade ", context.package, " to ", fix, " or later", citing, "."]
  | .esmOnly =>
    newest.map fun fix =>
      say ["Enable Ubuntu Pro and upgrade ", context.package, " to ", fix, " or later", citing,
        ", or move to a supported Ubuntu release."]
  | .noFix =>
    some (say [context.distributorLabel, " has published no fix for release ", context.release,
      "; moving to a supported release is the remedy."])
  | .patchLevelHidden =>
    newest.map fun fix => say ["Check that ", context.package, " is at ", fix, " or later", citing, "."]
  | .buildUnchecked =>
    some (say ["Compare the installed package with ", context.distributorLabel,
      "'s security advisories for this release."])
  | .affected | .needsSetting | .anyVersion | .untriaged => none

def Context.wording (c : Context) (overlay : Overlay) (verdict : Verdict) (entries : List Ruled)
    (worst : Vulnerability) : Option (Text × Text) :=
  let cpe := c.judged.cpe
  let product := c.judged.product.getD worst.product
  let software := if c.judged.parsed.version.isEmpty then product else say [product, " ", c.judged.parsed.version]
  let count := entries.length
  let counted := fun wanted => Text.decimal (entries.countP fun entry => entry.severity == some wanted)
  let named := firstFew ", " (entries.map Ruled.cve)
  let cves := fun one many : Text => if count = 1 then say ["1 ", one] else say [Text.decimal count, " ", many]
  let tally := say [counted .critical, " critical and ", counted .high, " high"]
  let known := cves "known vulnerability" "known vulnerabilities"
  let distributor := c.distributorLabel
  let unchecked : Text := "the version found was not checked against anything"
  let matched := fun excerpt : Text =>
    if count = 1 then
      if worst.title.byteLen ≤ MAX_SUMMARY_BYTES then some (worst.title, excerpt)
      else some (say [software, " has 1 known vulnerability"], say [excerpt, ". ", worst.title])
    else some (say [software, " has ", Text.decimal count, " known vulnerabilities"], excerpt)
  match verdict with
  | .affected =>
    matched (if count = 1 then say [cpe, " matches ", worst.vendor, " ", worst.product, " ", worst.affected]
      else say [cpe, " matches ", known, ", ", tally, ". The worst are ", named])
  | .anyVersion =>
    matched (if count = 1 then
        say [cpe, " is ", worst.vendor, " ", worst.product, ", which this entry names at any version: ", unchecked]
      else say [cpe, " matches ", Text.decimal count, " entries naming this software at any version: ", unchecked,
        ". They include ", named])
  | .buildUnchecked =>
    c.judged.build.map fun build =>
      let why := c.unplaced.elim (say ["no ", distributor, " advisory data was loaded"]) (·.describe distributor)
      (say [software, ": ", cves "upstream CVE" "upstream CVEs", ", build unchecked"],
        say [cpe, " matches ", known, " in the upstream release, ", tally, ". ", distributor,
          " backports fixes without changing the upstream version, and whether this build (", build.describe,
          ") still carries them was not checked: ", why, ". The worst are ", named])
  | .fixAvailable =>
    some (say [software, ": ", cves "CVE fixed" "CVEs fixed", " in a newer ", distributor, " build"],
      say [c.placedAs, " predates the builds that fixed ", known, ", ", tally, ", by ", distributor,
        "'s own data. The worst are ", named])
  | .esmOnly =>
    some (say [software, ": ", cves "CVE fixed" "CVEs fixed", " only in Ubuntu Pro"],
      say [c.placedAs, " carries ", known, ", ", tally, ", fixed by Ubuntu only in its Expanded Security Maintenance ",
        "pockets, which a machine receives with an Ubuntu Pro subscription. The build this host runs is not one of ",
        "those. The worst are ", named])
  | .noFix =>
    some (say [software, ": ", cves "CVE with no fix" "CVEs with no fix", " for ", distributor, " ", c.release],
      say [c.placedAs, " carries ", known, ", ", tally, ", not fixed by ", distributor, " in this release",
        openKinds entries, ". The worst are ", named])
  | .needsSetting =>
    let settings := (entries.filterMap fun entry => entry.vulnerability.requires overlay).foldl
      (fun settings setting => if setting ∈ settings then settings else settings ++ [setting]) []
    some (say [software, ": ", cves "CVE needs" "CVEs need", " a non-default setting"],
      say [cpe, " matches ", known, ", ", tally,
        ", reaching the service only where it is set up in a way it is not by ",
        "default: ", firstFew "; " settings, andMore settings, ". The worst are ", named])
  | .patchLevelHidden =>
    some (say [software, ": ", cves "CVE" "CVEs", ", patch level not visible"],
      say [c.placedAs, ": the banner does not say which build, and ", distributor, " has fixed ", known, ", ", tally,
        ", in builds of it, which this one may predate or carry. The worst are ", named])
  | .untriaged =>
    some (say [software, ": ", cves "CVE" "CVEs", " not triaged by ", distributor],
      say [c.placedAs, " matches ", known, " in the upstream release, ", tally, ", not yet judged for this release in ",
        distributor, "'s data, or not recorded there. The worst are ", named])

/-! ## Known to be exploited -/

structure KnownExploited where
  id : Text
  version : Version
  contentHash : Text
  cves : SortedSet Text

def KnownExploited.mark (list : KnownExploited) (cves : List Text) : Option Exploitation :=
  (DetectionId.new list.id list.version list.contentHash).toOption.bind fun by_ =>
    (Exploitation.new by_ (cves.filter list.cves.contains)).toOption

def exploitedInTheWild (exploitation : Exploitation) : Text :=
  say ["Known exploited in the wild, by ", exploitation.by_.id, ": ", firstFew ", " exploitation.cves,
    andMore exploitation.cves]

/-! ## The finding of a group -/

def citeCve (f : Finding) (cve : Text) : Finding := (Reference.ofCve cve).elim f f.withReference

def citing (exploitation : Option Exploitation) (cves : List Text) : List Text :=
  let listed := fun cve => exploitation.any fun marked => marked.cves.contains cve
  cves.filter listed ++ cves.filter fun cve => !listed cve

def advise (f : Finding) (only : Option Vulnerability) (remediation : Option Text) : Finding :=
  let f := (only.bind Vulnerability.cwe).elim f fun cwe => f.withReference (.cwe cwe)
  (remediation.or (only.bind Vulnerability.remediation)).elim f f.withRemediation

namespace Catalogue

/-- One finding for a group of vulnerabilities. -/
def finding (c : Catalogue) (overlay : Overlay) (exploited : Option KnownExploited) (context : Context)
    (verdict : Verdict) (entries : List Ruled) (note : Option Text) : Option Finding := do
  let worst ← entries.head?
  let severity ← worst.severity
  let detection ← (DetectionId.new c.id c.version c.contentHash).toOption
  let (title, excerpt) ← context.wording overlay verdict entries worst.vulnerability
  let exploitation := exploited.bind fun list => list.mark (entries.map Ruled.cve)
  let sentences := excerpt :: (exploitation.map exploitedInTheWild).toList ++ (priorities context entries).toList ++
    note.toList
  let f ← (Finding.new detection title severity verdict.confidence .passive).toOption
  let f := ((f.withExcerpt (.new ((". " : Text).intercalate sentences))).withCpe context.judged.cpe).withSubject
    (context.subject verdict)
  let f := context.judged.build.elim f f.withBuild
  let stamp := context.placement.bind fun placed =>
    (DetectionId.new placed.1.id placed.1.version placed.1.contentHash).toOption
  let f := stamp.elim f f.withAdvisedBy
  let f := (citing exploitation (entries.map Ruled.cve)).foldl citeCve f
  let f := exploitation.elim f f.withExploitation
  return advise f (if entries.length = 1 then some worst.vulnerability else none) (remediation context verdict entries)

end Catalogue

/-! ## Judging -/

def Vulnerability.rank (v : Vulnerability) : Nat :=
  (Wire.severity.parse v.severity).elim 0 fun severity => severity.ctorIdx + 1

def Vulnerability.WorseFirst (a b : Vulnerability) : Prop := b.rank < a.rank ∨ b.rank = a.rank ∧ a.cve ≤ b.cve

instance : DecidableRel Vulnerability.WorseFirst := fun a b =>
  inferInstanceAs (Decidable (b.rank < a.rank ∨ b.rank = a.rank ∧ a.cve ≤ b.cve))

structure Judgement where
  findings : List Finding
  withdrawn : Withdrawn

def noted {α : Type} (note : Option Text) : List α → List (α × Option Text)
  | [] => []
  | first :: rest => (first, note) :: rest.map fun later => (later, none)

namespace Catalogue

def matching (c : Catalogue) (judged : Judged) : List Vulnerability := c.views.filter (·.matches judged.parsed)

def matched (c : Catalogue) (judged : Judged) : List Vulnerability :=
  ((c.matching judged).insertionSort Vulnerability.WorseFirst).destutter fun a b => a.cve ≠ b.cve

variable (assets : Assets) (c : Catalogue) (judged : Judged) (advisories : List Dataset)
  (exploited : Option KnownExploited)

def placement : Option (Except Unplaced Placement) :=
  judged.build.bind fun build =>
    if (c.matched judged).isEmpty then none
    else some (Placement.of assets.packages build judged.vendorProduct judged.parsed.version advisories
      judged.hostRelease)

def classify (v : Vulnerability) : Classified :=
  Verdict.of assets.overlay v judged (c.placement assets judged advisories)

def tally : Tally :=
  (c.matched judged).foldl (fun t v => t.add v (c.classify assets judged advisories v)) ⟨SortedMap.empty, .none⟩

def context : Context where
  judged
  placement := do
    let placed ← (← c.placement assets judged advisories).toOption
    let publisher ← publisherOf (← judged.build).distributor
    return (← advisories.find? fun dataset => dataset.distributor == publisher, placed)
  unplaced :=
    match c.placement assets judged advisories with
    | some (.error why) => some why
    | _ => none

def drawn : List (List Ruled × Finding) :=
  let tally := c.tally assets judged advisories
  let context := c.context assets judged advisories
  (noted (tally.withdrawn.describe context) tally.groups.entries).filterMap fun (group, note) =>
    (c.finding assets.overlay exploited context group.1 group.2 note).map (group.2, ·)

/-- The findings of one service, and what was withdrawn. -/
def judge : Judgement :=
  ⟨(c.drawn assets judged advisories exploited).map Prod.snd, (c.tally assets judged advisories).withdrawn⟩

end Catalogue

end Zond.Cve
