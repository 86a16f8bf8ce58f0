import ZondEngine.Model.Host.Valid
import ZondEngine.Record.Wire

/-!
# What a finding is in a file

The records `record.rs` writes a finding as, and what reads each of them back.

* `Findings.of_again_iff`: the findings of a subject read back as they were written exactly where each is `Settled`.
-/

namespace Zond

open List SortedMap

/-! ## Builds -/

structure ReleaseRecord where
  (name basis : Text)
  deriving DecidableEq

structure BuildRecord where
  distributor : Text
  revision : Option Text
  release : Option ReleaseRecord
  deriving DecidableEq

namespace BuildRecord

def of (build : Build) : BuildRecord where
  distributor := Wire.distributor.name build.distributor
  revision := build.revision
  release := build.release.map fun release => ⟨release.name, Wire.releaseBasis.name release.basis⟩

def rebuild (record : BuildRecord) : Option Build :=
  (Wire.distributor.parse record.distributor).map fun distributor =>
    let build := record.revision.elim (Build.new distributor) (Build.new distributor).withRevision
    record.release.elim build fun release =>
      build.withRelease ⟨release.name, (Wire.releaseBasis.parse release.basis).getD .banner⟩

end BuildRecord

namespace Build

def again (b : Build) : Build :=
  let stated := b.revision.elim (new b.distributor) (new b.distributor).withRevision
  b.release.elim stated stated.withRelease

def Settled (b : Build) : Prop :=
  ∀ revision ∈ b.revision, ∀ name ∈ releaseInRevision b.distributor revision, b.release = some ⟨name, .revision⟩

/-- **A build is read back as it was exactly where it is settled.** -/
theorem again_eq_self_iff (b : Build) : b.again = b ↔ b.Settled := by
  obtain ⟨distributor, revision, release⟩ := b
  cases revision with
  | none =>
    refine ⟨fun _ revision h => absurd h (Option.not_mem_none revision), fun _ => ?_⟩
    cases release <;> rfl
  | some revision =>
    unfold Settled again withRevision new
    cases hstated : releaseInRevision distributor revision with
    | none => cases release <;> simp [withRelease, hstated]
    | some name =>
      cases release with
      | none => simp [withRelease, hstated]
      | some release =>
        obtain ⟨stated, basis⟩ := release
        -- The release the revision names stands, unless another one is on record: then none is left.
        by_cases hname : name = stated
        · simp [withRelease, hstated, hname, eq_comm]
        · simp [withRelease, hstated, hname, Ne.symm hname]

end Build

theorem BuildRecord.rebuild_of (b : Build) : (of b).rebuild = some b.again := by
  obtain ⟨distributor, revision, release⟩ := b
  unfold rebuild of Build.again
  cases release <;> simp [Wire.Spelling.parse_name]

theorem BuildRecord.bind_rebuild (build : Option Build) : (build.map of).bind rebuild = build.map Build.again := by
  cases build with
  | none => rfl
  | some build => exact rebuild_of build

theorem BuildRecord.of_injective : Function.Injective of := by
  rintro ⟨distributor, revision, release⟩ ⟨distributor', revision', release'⟩ h
  obtain ⟨hdistributor, hrevision, hrelease⟩ := BuildRecord.mk.inj h
  obtain rfl : distributor = distributor' := Wire.distributor.name_injective hdistributor
  obtain rfl : revision = revision' := hrevision
  obtain rfl : release = release' := by
    refine Option.map_injective (fun a b hab => ?_) hrelease
    obtain ⟨hname, hbasis⟩ := ReleaseRecord.mk.inj hab
    exact congrArg₂ Release.mk hname (Wire.releaseBasis.name_injective hbasis)
  rfl

theorem BuildRecord.map_of_again_iff (build : Option Build) :
    (build.map Build.again).map of = build.map of ↔ ∀ b ∈ build, b.Settled := by
  cases build with
  | none => simp
  | some b =>
    simp only [Option.map_some, Option.some.injEq, Option.mem_some_iff, forall_eq']
    exact of_injective.eq_iff.trans b.again_eq_self_iff

/-! ## Detections -/

namespace Version

def display (v : Version) : Text :=
  ['.'].intercalate [Text.decimal v.major.toNat, Text.decimal v.minor.toNat, Text.decimal v.patch.toNat]

def parseNumber (text : Text) : Option UInt16 := (Text.parseUnsigned (2 ^ 16) text).toOption.map UInt16.ofNat

def parse (text : Text) : Option Version :=
  match text.splitOn '.' with
  | [major, minor, patch] => do return ⟨← parseNumber major, ← parseNumber minor, ← parseNumber patch⟩
  | _ => none

theorem parseNumber_decimal (number : UInt16) : parseNumber (Text.decimal number.toNat) = some number := by
  unfold parseNumber
  rw [Text.parseUnsigned_decimal number.toNat_lt]
  simp [Except.toOption]

theorem parse_display (v : Version) : parse v.display = some v := by
  have hdot : ∀ number : UInt16, '.' ∉ Text.decimal number.toNat := fun number h =>
    absurd (Text.isDigit_of_mem_decimal h) (by decide)
  have hsplit : v.display.splitOn '.' =
      [Text.decimal v.major.toNat, Text.decimal v.minor.toNat, Text.decimal v.patch.toNat] := by
    refine splitOn_intercalate '.' (fun part hpart => ?_) (cons_ne_nil _ _)
    simp only [mem_cons, not_mem_nil, or_false] at hpart
    rcases hpart with rfl | rfl | rfl
    · exact hdot v.major
    · exact hdot v.minor
    · exact hdot v.patch
  unfold parse
  rw [hsplit]
  simp [parseNumber_decimal]

end Version

structure DetectionIdRecord where
  (id version contentHash : Text)
  deriving DecidableEq

namespace DetectionIdRecord

def of (detection : DetectionId) : DetectionIdRecord := ⟨detection.id, detection.version.display, detection.contentHash⟩

def rebuild (record : DetectionIdRecord) : Option DetectionId :=
  (DetectionId.new record.id ((Version.parse record.version).getD ⟨0, 0, 0⟩) record.contentHash).toOption

@[simp]
theorem rebuild_of (detection : DetectionId) : (of detection).rebuild = some detection := by
  unfold rebuild of DetectionId.new
  rw [Version.parse_display, dif_neg detection.id_ne]
  rfl

end DetectionIdRecord

structure ExploitationRecord where
  by_ : DetectionIdRecord
  cves : List Text
  deriving DecidableEq

namespace ExploitationRecord

def of (exploitation : Exploitation) : ExploitationRecord := ⟨.of exploitation.by_, exploitation.cves⟩

def rebuild (record : ExploitationRecord) : Option Exploitation :=
  record.by_.rebuild.bind fun by_ => (Exploitation.new by_ record.cves).toOption

theorem rebuild_of {exploitation : Exploitation} (h : exploitation.WellFormed) :
    (of exploitation).rebuild = some exploitation := by
  unfold rebuild of
  rw [DetectionIdRecord.rebuild_of, Option.bind_some, h]
  rfl

end ExploitationRecord

structure FindingGroupRecord where
  (id summary : Text)
  deriving DecidableEq

namespace FindingGroupRecord

def of (group : FindingGroup) : FindingGroupRecord := ⟨group.id, group.summary⟩

def rebuild (record : FindingGroupRecord) : Option FindingGroup := (FindingGroup.new record.id record.summary).toOption

theorem rebuild_of {group : FindingGroup} (h : group.WellFormed) : (of group).rebuild = some group := by
  unfold rebuild of
  rw [h]
  rfl

end FindingGroupRecord

/-! ## References -/

def Reference.isShaped : Reference → Bool
  | .cve id => isCveShaped id
  | _ => true

structure ReferenceRecord where
  (kind value : Text)
  deriving DecidableEq

namespace ReferenceRecord

def of (reference : Reference) : ReferenceRecord where
  kind := Wire.referenceKindName reference
  value :=
    match reference with
    | .cve id | .url id => id
    | .cwe number => Text.decimal number.toNat

def rebuild (record : ReferenceRecord) : Option Reference := Wire.reference record.kind record.value

theorem rebuild_of (reference : Reference) :
    (of reference).rebuild = if reference.isShaped then some reference else none := by
  cases reference with
  | cve id => rfl
  | cwe number =>
    show (Text.parseUnsigned (2 ^ 32) (Text.decimal number.toNat)).toOption.map _ = _
    rw [Text.parseUnsigned_decimal number.toNat_lt]
    simp [Except.toOption, Reference.isShaped]
  | url url => rfl

end ReferenceRecord

/-! ## Findings -/

theorem Text.truncate_of_le : ∀ {room : Nat} {text : Text}, text.byteLen ≤ room → truncate room text = text
  | _, [], _ => rfl
  | room, c :: rest, h => by
    have hsum : c.utf8Size + Text.byteLen rest ≤ room := by
      unfold byteLen at h ⊢
      rwa [map_cons, sum_cons] at h
    unfold truncate
    rw [if_pos (by omega), truncate_of_le (by omega)]

theorem Excerpt.new_text (excerpt : Excerpt) : Excerpt.new excerpt.text = excerpt := by
  obtain ⟨text, hbounded⟩ := excerpt
  unfold Excerpt.new
  congr
  exact Text.truncate_of_le hbounded

theorem Excerpt.elim_text (excerpt : Excerpt) :
    (if excerpt.isEmpty then none else some excerpt.text).elim Excerpt.empty Excerpt.new = excerpt := by
  obtain ⟨text, hbounded⟩ := excerpt
  cases text with
  | nil => rfl
  | cons c rest => exact Excerpt.new_text ⟨c :: rest, hbounded⟩

/-- A finding as it is written. -/
structure FindingRecord where
  detection : DetectionIdRecord
  (title severity confidence class_ : Text)
  excerpt : Option Text
  references : List ReferenceRecord
  (remediation cpe : Option Text)
  cpes : List Text
  subject : Option Text
  build : Option BuildRecord
  advisedBy : Option DetectionIdRecord
  exploited : Option ExploitationRecord
  group : Option FindingGroupRecord
  deriving DecidableEq

namespace FindingRecord

def of (finding : Finding) : FindingRecord where
  detection := .of finding.detection
  title := finding.title
  severity := Wire.severity.name finding.severity
  confidence := Wire.confidence.name finding.confidence
  class_ := Wire.detectionClass.name finding.class_
  excerpt := if finding.excerpt.isEmpty then none else some finding.excerpt.text
  references := finding.references.map .of
  remediation := finding.remediation
  cpe := finding.cpes.keys.head?
  cpes := finding.cpes.keys
  subject := finding.subject
  build := finding.build.map .of
  advisedBy := finding.advisedBy.map .of
  exploited := finding.exploitation.map .of
  group := finding.group.map .of

def cite (record : FindingRecord) (finding : Finding) : Finding :=
  (record.references.filterMap ReferenceRecord.rebuild).foldl Finding.withReference
    { finding with
      excerpt := record.excerpt.elim finding.excerpt Excerpt.new
      remediation := record.remediation
      cpes := SortedSet.collect (record.cpe.toList ++ record.cpes)
      subject := record.subject
      build := record.build.bind BuildRecord.rebuild
      advisedBy := record.advisedBy.bind DetectionIdRecord.rebuild
      exploitation := record.exploited.bind ExploitationRecord.rebuild
      group := record.group.bind FindingGroupRecord.rebuild }

/-- Reads a finding back, if it still is one. -/
def rebuild (record : FindingRecord) : Option Finding := do
  let severity := (Wire.severity.parse record.severity).getD .info
  let confidence := (Wire.confidence.parse record.confidence).getD .heuristic
  let class_ := (Wire.detectionClass.parse record.class_).getD .passive
  let finding ← (Finding.new (← record.detection.rebuild) record.title severity confidence class_).toOption
  return record.cite finding

end FindingRecord

namespace Finding

def again (f : Finding) : Finding :=
  { f with references := f.references.filter Reference.isShaped, build := f.build.map Build.again }

def Shaped (f : Finding) : Prop := ∀ reference ∈ f.references, reference.isShaped = true

theorem foldl_withReference {references : List Reference} (h : references.Nodup) {f : Finding}
    (hf : f.references = []) : references.foldl withReference f = { f with references } := by
  have hrun := view_foldl_concat (R := (· ≠ ·)) Finding.references withReference
    (fun s reference _ hnew => by rw [withReference, if_neg fun hmem => hnew reference hmem rfl])
    (show (f.references ++ references).Pairwise (· ≠ ·) by rwa [hf])
  have hrest : ∀ (rest : List Reference) (g : Finding),
      rest.foldl withReference g = { g with references := (rest.foldl withReference g).references } := by
    intro rest
    induction rest with
    | nil => exact fun g => rfl
    | cons reference rest ih =>
      intro g
      rw [foldl_cons, ih]
      unfold withReference
      split <;> rfl
  rw [hrest, hrun, hf, nil_append]

end Finding

theorem map_of_bind_rebuild {α β : Type} {of : α → β} {rebuild : β → Option α} {part : Option α}
    (h : ∀ a ∈ part, rebuild (of a) = some a) : (part.map of).bind rebuild = part := by
  cases part with
  | none => rfl
  | some a => exact h a rfl

theorem FindingRecord.rebuild_of {f : Finding} (h : f.WellFormed) : (of f).rebuild = some f.again := by
  have hreferences : (f.references.map ReferenceRecord.of).filterMap ReferenceRecord.rebuild =
      f.references.filter Reference.isShaped := by
    rw [filterMap_map, ← filterMap_eq_filter]
    exact filterMap_congr fun reference _ => ReferenceRecord.rebuild_of reference
  have hcpes : SortedSet.collect (f.cpes.keys.head?.toList ++ f.cpes.keys) = f.cpes := by
    refine SortedSet.eq_of_contains fun cpe => Bool.eq_iff_iff.mpr ?_
    rw [SortedSet.contains_collect, SortedMap.contains_iff, mem_append]
    exact ⟨fun hmem => hmem.elim (fun hhead => mem_of_mem_head? (Option.mem_toList.mp hhead)) id, .inr⟩
  have hbare : (of f).rebuild = some ((of f).cite
      { f with
        excerpt := .empty, references := [], remediation := none, cpes := SortedMap.empty, subject := none,
        build := none, group := none, advisedBy := none, exploitation := none }) := by
    unfold rebuild
    simp only [of, DetectionIdRecord.rebuild_of, Wire.Spelling.parse_name, Option.getD_some, Finding.new,
      dif_neg f.title_ne, Option.bind_eq_bind, Option.bind_some]
    rfl
  rw [hbare]
  unfold cite of
  rw [hreferences, Finding.foldl_withReference (h.references_nodup.filter _) rfl]
  dsimp only
  rw [hcpes, Excerpt.elim_text, map_of_bind_rebuild fun detection _ => DetectionIdRecord.rebuild_of detection,
    map_of_bind_rebuild fun exploitation hmem => ExploitationRecord.rebuild_of (h.exploitation_ok exploitation hmem),
    map_of_bind_rebuild fun group hmem => FindingGroupRecord.rebuild_of (h.group_ok group hmem)]
  rw [BuildRecord.bind_rebuild]
  rfl

namespace Finding

structure Settled (f : Finding) : Prop where
  shaped : f.Shaped
  build_ok : ∀ build ∈ f.build, build.Settled

theorem references_again {f : Finding} (h : f.Shaped) : f.again.references = f.references := filter_eq_self.mpr h

theorem claimId_again {f : Finding} (h : f.Shaped) : f.again.claimId = f.claimId := by
  unfold claimId cves
  rw [references_again h]
  rfl

end Finding

theorem FindingRecord.of_again_iff {f : Finding} (h : f.Shaped) :
    of f.again = of f ↔ ∀ build ∈ f.build, build.Settled := by
  have hagain : of f.again = { of f with build := (f.build.map Build.again).map .of } := by
    unfold of
    rw [Finding.references_again h]
    rfl
  rw [← BuildRecord.map_of_again_iff, hagain]
  refine ⟨congrArg FindingRecord.build, fun hbuild => ?_⟩
  rw [hbuild]
  rfl

namespace Findings

def again (findings : SortedMap ClaimId Finding) : SortedMap ClaimId Finding :=
  (findings.values.map Finding.again).foldl (fun held finding => (addFinding held finding).1) SortedMap.empty

variable {findings : SortedMap ClaimId Finding}

theorem again_eq (h : Filed findings) (hshaped : ∀ finding ∈ findings.values, finding.Shaped) :
    again findings = findings.mapValues Finding.again := by
  have hfiled : Filed (findings.mapValues Finding.again) := by
    refine ⟨fun claim finding hget => ?_, ?_⟩
    · rw [get?_mapValues] at hget
      obtain ⟨held, hheld, rfl⟩ := Option.map_eq_some_iff.mp hget
      rw [Finding.claimId_again (hshaped held (mem_values.mpr ⟨claim, hheld⟩)), h.claim_eq claim held hheld]
    · have hlen : (findings.mapValues Finding.again).len = findings.len := length_map _
      rw [hlen]
      exact h.len_le
  have hagain := foldl_addFinding_values hfiled
  rwa [values_mapValues] at hagain

theorem shaped_foldl {added : List Finding} (hadded : ∀ finding ∈ added, finding.Shaped) :
    ∀ finding ∈ (added.foldl (fun held finding => (addFinding held finding).1) SortedMap.empty).values,
      finding.Shaped := by
  refine List.foldlRecOn (motive := fun held : SortedMap ClaimId Finding => ∀ finding ∈ held.values, finding.Shaped)
    added _ (fun finding hmem => absurd hmem not_mem_nil) fun held hheld added' hmem' finding hmem => ?_
  obtain ⟨claim, hget⟩ := mem_values.mp hmem
  have hshaped : ∀ claim finding, held.get? claim = some finding → finding.Shaped :=
    fun claim finding hget => hheld finding (mem_values.mpr ⟨claim, hget⟩)
  refine forall_addFinding hshaped (hadded added' hmem') (fun existing hexisting reference hreference => ?_) claim
    finding hget
  rcases Finding.mem_references_corroborate hreference with hreference | hreference
  · exact hshaped _ existing hexisting reference hreference
  · exact hadded added' hmem' reference hreference

/-- **The findings of a subject read back as they were written exactly where each is settled.** -/
theorem of_again_iff (h : Filed findings) :
    (again findings).values.map FindingRecord.of = findings.values.map FindingRecord.of ↔
      ∀ finding ∈ findings.values, finding.Settled := by
  by_cases hshaped : ∀ finding ∈ findings.values, finding.Shaped
  · rw [again_eq h hshaped, values_mapValues, map_map, map_inj_left]
    refine forall₂_congr fun finding hmem => ?_
    exact (FindingRecord.of_again_iff (hshaped finding hmem)).trans
      ⟨fun hbuild => ⟨hshaped finding hmem, hbuild⟩, Finding.Settled.build_ok⟩
  · refine iff_of_false (fun heq => hshaped fun finding hmem reference hreference => ?_)
      fun hsettled => hshaped fun finding hmem => (hsettled finding hmem).shaped
    -- What is read back is shaped, so a record of it is no record of an unshaped reference.
    have hrecord : FindingRecord.of finding ∈ (again findings).values.map FindingRecord.of :=
      heq ▸ mem_map_of_mem hmem
    obtain ⟨read, hread, hsame⟩ := mem_map.mp hrecord
    have hreads : read.Shaped := shaped_foldl (fun other hother => by
      obtain ⟨written, _, rfl⟩ := mem_map.mp hother
      exact fun reference hreference => (mem_filter.mp hreference).2) read hread
    have hreferences : read.references.map ReferenceRecord.of = finding.references.map ReferenceRecord.of :=
      congrArg FindingRecord.references hsame
    obtain ⟨cited, hcited, hcitedof⟩ := mem_map.mp (hreferences ▸ mem_map_of_mem hreference)
    have hback := ReferenceRecord.rebuild_of cited
    rw [hcitedof, ReferenceRecord.rebuild_of, if_pos (hreads cited hcited)] at hback
    by_contra hunshaped
    rw [if_neg hunshaped] at hback
    exact Option.some_ne_none cited hback.symm

end Findings

end Zond
