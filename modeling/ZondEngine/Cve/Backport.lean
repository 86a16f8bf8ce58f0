import Mathlib.Data.Char
import Mathlib.Data.List.Lex
import Mathlib.Data.List.MinMax
import ZondEngine.Lib.Sorted
import ZondEngine.Version

/-!
# What a distributor says about its own build

The verdicts of `cve/advisories.rs` and what `cve/backport.rs` concludes from them (`Placement.rule`). A fix in the
archive is looked at before one in ESM and settles the ruling by itself (`rule_shadows_esm_fix`); `rule_withdrawn_iff`
says where the ruling follows the recorded fixes.
-/

namespace Zond.Cve

open Std Zond.VersionOrder

/-! ## Advisories -/

inductive Channel where
  | archive | esm
  deriving DecidableEq

def Channel.rank : Channel → Nat
  | archive => 0
  | esm => 1

inductive OpenKind where
  | needed | deferred | ignored | needsTriage
  deriving DecidableEq

inductive Standing where
  | notAffected (reason : Option Text)
  | fixed (version : Text)
  | «open» (kind : OpenKind) (note : Option Text)
  deriving DecidableEq

structure Status where
  channel : Channel
  standing : Standing
  advisory : Option Text
  deriving DecidableEq

/-- One release's source package: the versions it is known to have had, and its verdicts by vulnerability. -/
structure Package where
  lineage : List Text
  verdicts : SortedMap Text (List Status)

structure Advisories where
  releases : SortedMap Text (SortedMap Text Package)

namespace Advisories

def package (a : Advisories) (release sourcePackage : Text) : Option Package :=
  (a.releases.get? release).bind (·.get? sourcePackage)

def statuses (a : Advisories) (release sourcePackage cve : Text) : List Status :=
  (((a.package release sourcePackage).bind (·.verdicts.get? cve))).getD []

end Advisories

/-! ## Rulings -/

inductive ReleaseFrom where
  | banner | revision | host
  deriving DecidableEq

structure Placement where
  advisories : Advisories
  release : Text
  releaseFrom : ReleaseFrom
  package : Text
  installed : Option Text

structure Fix where
  version : Text
  advisory : Option Text
  deriving DecidableEq

inductive Withdrawal where
  | fixed (version : Text)
  | notAffected (reason : Option Text)
  deriving DecidableEq

inductive Vulnerable where
  | fixAvailable (fix : Fix)
  | esmOnly (fix : Fix)
  | noFix (kind : OpenKind) (note : Option Text)
  deriving DecidableEq

inductive Unsettled where
  | patchLevelHidden (fix : Fix)
  | untriaged
  | notTracked
  deriving DecidableEq

inductive Ruling where
  | withdrawn (why : Withdrawal)
  | vulnerable (what : Vulnerable)
  | unsettled (why : Unsettled)
  deriving DecidableEq

namespace Status

def notAffectedReason (s : Status) : Option (Option Text) :=
  match s.standing with
  | .notAffected reason => some reason
  | _ => none

def fix (s : Status) : Option Fix :=
  match s.standing with
  | .fixed version => some ⟨version, s.advisory⟩
  | _ => none

def openVerdict (s : Status) : Option (Channel × OpenKind × Option Text) :=
  match s.standing with
  | .open kind note => some (s.channel, kind, note)
  | _ => none

end Status

variable (statuses : List Status)

def fixedIn (channel : Channel) : Option Fix :=
  statuses.findSome? fun s => if s.channel = channel then s.fix else none

def judged (installed : Option Text) (fix : Fix) (esm : Bool) : Ruling :=
  match installed with
  | some installed =>
    if dpkgCmp installed fix.version ≠ .lt then .withdrawn (.fixed fix.version)
    else if esm then .vulnerable (.esmOnly fix) else .vulnerable (.fixAvailable fix)
  | none => .unsettled (.patchLevelHidden fix)

def openRuling : Ruling :=
  match (statuses.filterMap Status.openVerdict).argmin (fun verdict => verdict.1.rank) with
  | some (_, .needsTriage, _) => .unsettled .untriaged
  | some (_, kind, note) => .vulnerable (.noFix kind note)
  | none => .unsettled .notTracked

/-- Rules on one vulnerability of a placed build. -/
def Placement.rule (p : Placement) (cve : Text) : Ruling :=
  let statuses := p.advisories.statuses p.release p.package cve
  if statuses.isEmpty then .unsettled .notTracked
  else
    match statuses.findSome? Status.notAffectedReason with
    | some reason => .withdrawn (.notAffected reason)
    | none =>
      match fixedIn statuses .archive with
      | some fix => judged p.installed fix false
      | none =>
        match fixedIn statuses .esm with
        | some fix => judged p.installed fix true
        | none => openRuling statuses

/-! ## What a withdrawal rests on -/

def Ruling.IsWithdrawn : Ruling → Prop
  | .withdrawn _ => True
  | _ => False

def SaysNotAffected : Prop := ∃ s ∈ statuses, ∃ reason, s.standing = .notAffected reason

def RecordsFix (version : Text) : Prop := ∃ s ∈ statuses, s.standing = .fixed version

def LooksAt (version : Text) : Prop :=
  ∃ fix, ((fixedIn statuses .archive).or (fixedIn statuses .esm)) = some fix ∧ fix.version = version

section Rule

variable {statuses}

theorem findSome?_notAffectedReason :
    (statuses.findSome? Status.notAffectedReason).isSome = true ↔ SaysNotAffected statuses := by
  rw [List.findSome?_isSome_iff]
  refine exists_congr fun s => and_congr_right fun _ => ?_
  unfold Status.notAffectedReason
  cases s.standing <;> simp

theorem fixedIn_mem {channel : Channel} {fix : Fix} (h : fixedIn statuses channel = some fix) :
    RecordsFix statuses fix.version := by
  obtain ⟨s, hs, hfix⟩ := List.exists_of_findSome?_eq_some h
  split at hfix
  · refine ⟨s, hs, ?_⟩
    unfold Status.fix at hfix
    split at hfix
    · rename_i version hstanding
      rw [hstanding, ← Option.some.inj hfix]
    · cases hfix
  · cases hfix

theorem recordsFix_of_looksAt {version : Text} (h : LooksAt statuses version) : RecordsFix statuses version := by
  obtain ⟨fix, hfix, rfl⟩ := h
  rcases Option.or_eq_some_iff.mp hfix with h | ⟨-, h⟩
  · exact fixedIn_mem h
  · exact fixedIn_mem h

theorem fixedIn_isSome {s : Status} (hs : s ∈ statuses) {version : Text} (h : s.standing = .fixed version) :
    (fixedIn statuses s.channel).isSome = true := by
  rw [fixedIn, List.findSome?_isSome_iff]
  exact ⟨s, hs, by simp [Status.fix, h]⟩

theorem exists_looksAt {version : Text} (h : RecordsFix statuses version) : ∃ v, LooksAt statuses v := by
  obtain ⟨s, hs, hstanding⟩ := h
  have hsome := fixedIn_isSome hs hstanding
  cases harchive : fixedIn statuses .archive with
  | some fix => exact ⟨fix.version, fix, by rw [harchive]; rfl, rfl⟩
  | none =>
    cases hchannel : s.channel with
    | archive =>
      rw [hchannel, harchive] at hsome
      cases hsome
    | esm =>
      rw [hchannel] at hsome
      obtain ⟨fix, hfix⟩ := Option.isSome_iff_exists.mp hsome
      exact ⟨fix.version, fix, by rw [harchive, hfix]; rfl, rfl⟩

theorem looksAt_unique {v w : Text} (hv : LooksAt statuses v) (hw : LooksAt statuses w) : v = w := by
  obtain ⟨fix, hfix, rfl⟩ := hv
  obtain ⟨fix', hfix', rfl⟩ := hw
  rw [hfix] at hfix'
  rw [Option.some.inj hfix']

theorem judged_isWithdrawn {installed : Text} {fix : Fix} {esm : Bool} :
    (judged (some installed) fix esm).IsWithdrawn ↔ dpkgCmp installed fix.version ≠ .lt := by
  unfold judged
  by_cases h : dpkgCmp installed fix.version = .lt
  · cases esm <;> simp [h, Ruling.IsWithdrawn]
  · simp [h, Ruling.IsWithdrawn]

theorem openRuling_not_isWithdrawn (statuses : List Status) : ¬ (openRuling statuses).IsWithdrawn := by
  unfold openRuling
  split <;> exact fun h => h

/-- **What a withdrawal rests on**: a verdict of not affected, or the fix looked at being installed. -/
theorem rule_isWithdrawn {p : Placement} {installed : Text} (hin : p.installed = some installed) (cve : Text) :
    (p.rule cve).IsWithdrawn ↔ SaysNotAffected (p.advisories.statuses p.release p.package cve) ∨
        ∃ v, LooksAt (p.advisories.statuses p.release p.package cve) v ∧ dpkgCmp installed v ≠ .lt := by
  rw [Placement.rule, hin]
  generalize p.advisories.statuses p.release p.package cve = statuses
  rw [← findSome?_notAffectedReason]
  unfold LooksAt
  split
  · rename_i hempty
    rw [List.isEmpty_iff.mp hempty]
    simp [Ruling.IsWithdrawn, fixedIn]
  · cases hreason : statuses.findSome? Status.notAffectedReason with
    | some reason => simp [Ruling.IsWithdrawn]
    | none =>
      cases harchive : fixedIn statuses .archive with
      | some fix => simp [judged_isWithdrawn]
      | none =>
        cases hesm : fixedIn statuses .esm with
        | some fix => simp [judged_isWithdrawn]
        | none => simp [openRuling_not_isWithdrawn]

end Rule

/-- **Where a build is ruled by its fixes**: exactly where a channel says not affected, or no
recorded fix is installed while the one looked at is not. -/
theorem rule_withdrawn_iff (p : Placement) (installed : Text) (hin : p.installed = some installed) (cve : Text) :
    let statuses := p.advisories.statuses p.release p.package cve
    (((p.rule cve).IsWithdrawn ↔ SaysNotAffected statuses ∨ ∃ v, RecordsFix statuses v ∧ dpkgCmp installed v ≠ .lt) ∧
        ∀ higher, dpkgCmp installed higher ≠ .gt → (p.rule cve).IsWithdrawn →
          (Placement.rule { p with installed := some higher } cve).IsWithdrawn) ↔
      SaysNotAffected statuses ∨
        ∀ v w, LooksAt statuses v → dpkgCmp installed v = .lt → RecordsFix statuses w → dpkgCmp installed w = .lt := by
  intro statuses
  have hhigher : ∀ higher, dpkgCmp installed higher ≠ .gt → (p.rule cve).IsWithdrawn →
      (Placement.rule { p with installed := some higher } cve).IsWithdrawn := by
    intro higher hle hw
    rw [rule_isWithdrawn hin] at hw
    rw [rule_isWithdrawn (p := { p with installed := some higher }) rfl]
    refine hw.imp_right fun ⟨v, hv, hge⟩ => ⟨v, hv, fun hlt => hge ?_⟩
    exact TransCmp.lt_of_isLE_of_lt (Ordering.isLE_iff_ne_gt.mpr hle) hlt
  rw [and_iff_left hhigher, rule_isWithdrawn hin]
  change (SaysNotAffected statuses ∨ (∃ v, LooksAt statuses v ∧ dpkgCmp installed v ≠ .lt) ↔ _) ↔ _
  by_cases hna : SaysNotAffected statuses
  · simp [hna]
  · simp only [hna, false_or]
    constructor
    · intro hiff v w hv hlt hw
      by_contra hge
      obtain ⟨v', hv', hge'⟩ := hiff.mpr ⟨w, hw, hge⟩
      exact hge' (looksAt_unique hv hv' ▸ hlt)
    · intro hcond
      constructor
      · rintro ⟨v, hv, hge⟩
        exact ⟨v, recordsFix_of_looksAt hv, hge⟩
      · rintro ⟨w, hw, hge⟩
        obtain ⟨v, hv⟩ := exists_looksAt hw
        exact ⟨v, hv, fun hlt => hge (hcond v w hv hlt hw)⟩

def oneCve (lineage : List Text) (statuses : List Status) : Advisories :=
  ⟨SortedMap.empty.insert ['r'] (SortedMap.empty.insert ['p'] ⟨lineage, SortedMap.empty.insert ['c'] statuses⟩)⟩

def esmBuild : Placement where
  advisories := oneCve [['1', '~', 'e'], ['1']] [⟨.archive, .fixed ['1'], none⟩, ⟨.esm, .fixed ['1', '~', 'e'], none⟩]
  release := ['r']
  releaseFrom := .banner
  package := ['p']
  installed := some ['1', '~', 'e']

def xenialFix : Text := "1:7.2p2-4ubuntu2.10+esm3"

/-- A build of an old release whose archive left the vulnerability open, and whose paid channel fixed it twice. -/
def esmOnlyBuild : Placement where
  advisories := ⟨SortedMap.empty.insert "16.04" (SortedMap.empty.insert "openssh"
    ⟨[xenialFix], (SortedMap.empty.insert "CVE-2024-6387".toList
        [⟨.archive, .notAffected none, none⟩, ⟨.esm, .notAffected none, none⟩]).insert "CVE-2023-38408".toList
      [⟨.archive, .open .needed (some "end of life"), none⟩, ⟨.esm, .fixed xenialFix, some "USN-6242-2"⟩,
        ⟨.esm, .fixed "1:7.2p2-4ubuntu2.10+esm5", none⟩]⟩)⟩
  release := "16.04"
  releaseFrom := .banner
  package := "openssh"
  installed := some "1:7.2p2-4ubuntu2.10+esm4"

theorem rule_withdrawn_iff_esmOnlyBuild : (esmOnlyBuild.rule "CVE-2024-6387").IsWithdrawn ∧
      esmOnlyBuild.rule "CVE-2023-38408" = .withdrawn (.fixed xenialFix) ∧
      ((esmOnlyBuild.rule "CVE-2023-38408").IsWithdrawn ↔
        SaysNotAffected (esmOnlyBuild.advisories.statuses "16.04" "openssh" "CVE-2023-38408") ∨
          ∃ v, RecordsFix (esmOnlyBuild.advisories.statuses "16.04" "openssh" "CVE-2023-38408") v ∧
            dpkgCmp "1:7.2p2-4ubuntu2.10+esm4" v ≠ .lt) := by
  have hnot : esmOnlyBuild.rule "CVE-2024-6387".toList = .withdrawn (.notAffected none) := by decide +kernel
  refine ⟨hnot ▸ trivial, by decide +kernel,
    ((rule_withdrawn_iff esmOnlyBuild "1:7.2p2-4ubuntu2.10+esm4" rfl "CVE-2023-38408").mpr (.inr ?_)).1⟩
  -- the fix looked at is installed
  rintro v w ⟨fix, hfix, rfl⟩ hlt _
  have hfirst : (((fixedIn (esmOnlyBuild.advisories.statuses esmOnlyBuild.release esmOnlyBuild.package
      "CVE-2023-38408") .archive).or (fixedIn (esmOnlyBuild.advisories.statuses esmOnlyBuild.release
      esmOnlyBuild.package "CVE-2023-38408") .esm)).map Fix.version) = some xenialFix := by decide +kernel
  rw [hfix] at hfirst
  rw [Option.some.inj hfirst] at hlt
  exact absurd hlt (by decide +kernel)

theorem rule_shadows_esm_fix : esmBuild.rule ['c'] = .vulnerable (.fixAvailable ⟨['1'], none⟩) ∧
      RecordsFix (esmBuild.advisories.statuses ['r'] ['p'] ['c']) ['1', '~', 'e'] ∧
      dpkgCmp ['1', '~', 'e'] ['1', '~', 'e'] ≠ .lt := by
  refine ⟨by decide +kernel, ⟨⟨.esm, .fixed ['1', '~', 'e'], none⟩, by decide +kernel, rfl⟩, by decide +kernel⟩

end Zond.Cve
