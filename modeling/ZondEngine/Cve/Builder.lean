import Mathlib.Data.List.Sort
import ZondEngine.Cve.DatasetFile

/-!
# Assembling a dataset

`Builder` of `cve/advisories.rs` takes a feed's records one at a time; a verdict replaces the one held in its channel
where it says more (`outranks`). `finish_round_trip`: the finished dataset is read back from its bytes.
-/

namespace Zond.Cve

open Zond.Utf8 Zond.VersionOrder

/-- Whether a verdict replaces the one held. -/
def outranks (new held : Status) : Bool :=
  match new.standing, held.standing with
  | .fixed new, .fixed held => dpkgCmp new held == .gt
  | .fixed _, _ => true
  | .notAffected _, .open _ _ => true
  | _, _ => false

def settle (status : Status) : List Status → List Status
  | [] => [status]
  | held :: rest =>
    if held.channel = status.channel then (if outranks status held then status :: rest else held :: rest)
    else held :: settle status rest

/-! ## The builder -/

/-- One release's source package while a dataset is assembled: its lineage is a set until the end. -/
structure Draft where
  lineage : SortedSet Text
  verdicts : SortedMap Text (List Status)

def Draft.default : Draft := ⟨SortedMap.empty, SortedMap.empty⟩

def Draft.record (draft : Draft) (cve : Text) (status : Status) : Draft :=
  { lineage :=
      match status.standing with
      | .fixed version => draft.lineage.add version
      | _ => draft.lineage
    verdicts := draft.verdicts.insert cve (settle status ((draft.verdicts.get? cve).getD [])) }

def goesBefore (a b : Text) : Prop := dpkgCmp a b = .lt ∨ dpkgCmp a b = .eq ∧ a ≤ b

instance : DecidableRel goesBefore := fun _ _ => inferInstanceAs (Decidable (_ ∨ _ ∧ _))

def Draft.finish (draft : Draft) : Package :=
  ⟨draft.lineage.keys.insertionSort goesBefore, draft.verdicts⟩

structure Builder where
  distributor : Distributor
  newest : Option Version
  releases : SortedMap Text (SortedMap Text Draft)
  cves : SortedMap Text Facts

namespace Builder

def new (distributor : Distributor) : Builder := ⟨distributor, none, SortedMap.empty, SortedMap.empty⟩

variable (b : Builder)

def entry (release package : Text) : Draft := (b.releases.get?₂ release package).getD Draft.default

/-- Records one verdict. -/
def record (release package cve : Text) (status : Status) : Builder :=
  { b with releases := b.releases.insert₂ release package ((b.entry release package).record cve status) }

def versions (release package : Text) (versions : List Text) : Builder :=
  let draft := b.entry release package
  { b with releases := b.releases.insert₂ release package { draft with
      lineage := versions.foldl SortedSet.add draft.lineage } }

def priority (release : Option Text) (cve priority : Text) : Builder :=
  let facts := (b.cves.get? cve).getD ⟨none, SortedMap.empty⟩
  { b with cves := b.cves.insert cve (
      match release with
      | none => { facts with priority := facts.priority.or (some priority) }
      | some release => { facts with
          byRelease := if facts.byRelease.contains release then facts.byRelease
            else facts.byRelease.insert release priority }) }

def dateOf (timestamp : Text) : Option Version :=
  match ((timestamp.takeWhile (· ≠ 'T')).splitOn '-').map (Text.parseUnsigned (2 ^ 16)) with
  | [.ok year, .ok month, .ok day] => some ⟨.ofNat year, .ofNat month, .ofNat day⟩
  | _ => none

def dated (timestamp : Text) : Builder :=
  match dateOf timestamp with
  | none => b
  | some version => { b with newest := some (b.newest.elim version (max version)) }

inductive Call where
  | record (release package cve : Text) (status : Status)
  | versions (release package : Text) (versions : List Text)
  | priority (release : Option Text) (cve priority : Text)
  | dated (timestamp : Text)

def call : Call → Builder
  | .record release package cve status => b.record release package cve status
  | .versions release package versions => b.versions release package versions
  | .priority release cve priority => b.priority release cve priority
  | .dated timestamp => b.dated timestamp

def run (calls : List Call) : Builder := calls.foldl call b

/-! ## Finishing -/

def assembled : Dataset :=
  { distributor := b.distributor
    version := b.newest.getD ⟨0, 0, 0⟩
    contentHash := []
    releases := b.releases.map (SortedMap.map Draft.finish)
    cves := b.cves }

def finish (codec : Bincode) (contentHash : Bytes → Text) (b : Builder) : Option Dataset :=
  (b.assembled.toBytes codec).map fun bytes => { b.assembled with contentHash := contentHash bytes }

theorem finish_of_isSome {codec : Bincode} {b : Builder} (digest : Text)
    (h : (codec.serialize b.assembled.toWire).isSome = true) :
    b.finish codec (fun _ => digest) = some { b.assembled with contentHash := digest } := by
  obtain ⟨body, hbody⟩ := Option.isSome_iff_exists.mp h
  rw [finish, Dataset.toBytes, hbody]
  rfl

/-! ## No release is empty -/

theorem inhabited₂_call {b : Builder} (h : b.releases.Inhabited₂) (c : Call) : (b.call c).releases.Inhabited₂ := by
  cases c with
  | record release package cve status => exact SortedMap.inhabited₂_insert₂ h _ _ _
  | versions release package versions => exact SortedMap.inhabited₂_insert₂ h _ _ _
  | priority release cve priority => exact h
  | dated timestamp =>
    change (b.dated timestamp).releases.Inhabited₂
    unfold dated
    split
    · exact h
    · exact h

theorem inhabited₂_run : ∀ (calls : List Call) {b : Builder}, b.releases.Inhabited₂ →
    (b.run calls).releases.Inhabited₂
  | [], _, h => h
  | c :: calls, b, h => inhabited₂_run calls (b := b.call c) (inhabited₂_call h c)

theorem inhabited₂_assembled {b : Builder} (h : b.releases.Inhabited₂) : b.assembled.releases.Inhabited₂ := by
  intro held hheld
  obtain ⟨entry, hentry, rfl⟩ := List.mem_map.mp hheld
  exact fun hnil => h entry hentry (List.map_eq_nil_iff.mp hnil)

end Builder

/-! ## Round trip -/

variable (first second : Wire)

def Bincode.ofTwo : Bincode where
  serialize wire :=
    if wire = first then some (0 :: List.replicate first.pool.length 0)
    else if wire = second then some (1 :: List.replicate second.pool.length 0) else none
  deserialize body := .ok (if body.head? = some 0 then first else second)
  deserialize_serialize wire body h := by
    split at h
    next heq =>
      rw [← Option.some.inj h, heq]
      rfl
    next =>
      split at h
      next heq =>
        rw [← Option.some.inj h, heq]
        rfl
      next => cases h
  pool_le wire body h := by
    split at h
    next heq =>
      rw [← Option.some.inj h, heq]
      simp
    next =>
      split at h
      next heq =>
        rw [← Option.some.inj h, heq]
        simp
      next => cases h

theorem Bincode.ofTwo_left : ((ofTwo first second).serialize first).isSome = true := by
  unfold ofTwo
  dsimp only
  rw [if_pos rfl]
  rfl

theorem Bincode.ofTwo_right : ((ofTwo first second).serialize second).isSome = true := by
  unfold ofTwo
  dsimp only
  rw [if_pos rfl]
  split
  · rfl
  · rfl

/-- **A finished dataset within the bound is read back from its bytes as it is, and in whatever is
accepted every index was of a text of the pool.** -/
theorem finish_round_trip (codec : Bincode) (contentHash : Bytes → Text) :
    (∀ (distributor : Distributor) (calls : List Builder.Call) (a : Dataset) (bytes : Bytes),
      ((Builder.new distributor).run calls).finish codec contentHash = some a → a.toBytes codec = some bytes →
        bytes.length ≤ maxBytes → fromBytes codec contentHash bytes = .ok a) ∧
      ∀ (bytes : Bytes) (a : Dataset), fromBytes codec contentHash bytes = .ok a →
        ∃ wire, codec.deserialize (bytes.drop (magic.length + 2)) = .ok wire ∧
          ∀ index ∈ wire.indices, index.toNat < wire.pool.length := by
  refine ⟨fun distributor calls a bytes hfinish hbytes hlen => ?_, fun bytes a h => inPool_of_fromBytes h⟩
  obtain ⟨written, hwritten, rfl⟩ := Option.map_eq_some_iff.mp hfinish
  -- the digest is not part of what is written
  obtain rfl : written = bytes := Option.some.inj (hwritten.symm.trans hbytes)
  have hempty : (Builder.new distributor).releases.Inhabited₂ := fun _ h => absurd h List.not_mem_nil
  exact fromBytes_toBytes (Builder.inhabited₂_assembled (Builder.inhabited₂_run calls hempty)) hbytes hlen rfl

def feed : List Builder.Call :=
  [.record "noble" "openssh" "CVE-2024-6387" ⟨.archive, .fixed "1:9.6p1-3ubuntu13.3", some "USN-6859-1"⟩,
    .priority none "CVE-2024-6387" "high", .dated "2026-10-02T11:00:00Z"]

def fed : Dataset := ((Builder.new .ubuntu).run feed).assembled

/-- What `bincode` writes for this feed, every number in one byte. -/
def fedBody : Bytes :=
  [0, 251, 0xEA, 0x07, 10, 2, 6] ++ (fed.toWire.pool.flatMap fun text => .ofNat text.length :: encode text) ++
    [1, 0, 1, 1, 2, 1, 3, 1, 0, 1, 2, 1, 4] ++ [1, 3, 1, 5, 0]

/-- `bincode`, on one body. -/
def Bincode.ofFed : Bincode where
  serialize wire := if wire = fed.toWire then some fedBody else none
  deserialize body := if body = fedBody then .ok fed.toWire else .error "unexpected end of file"
  deserialize_serialize wire body h := by
    obtain ⟨rfl, h⟩ := Option.ite_none_right_eq_some.mp h
    rw [← Option.some.inj h, if_pos rfl]
  pool_le wire body h := by
    obtain ⟨rfl, h⟩ := Option.ite_none_right_eq_some.mp h
    rw [← Option.some.inj h]
    decide +kernel

theorem finish_round_trip_of_feed :
    fed.version = ⟨2026, 10, 2⟩ ∧ fed.toWire.pool =
        ["noble", "openssh", "1:9.6p1-3ubuntu13.3", "CVE-2024-6387", "USN-6859-1", "high"] ∧
      fed.toWire.indices = [0, 1, 2, 3, 2, 4, 3, 5] ∧
      fromBytes Bincode.ofFed (fun _ => []) (magic ++ (toLeBytes format ++ fedBody)) = .ok fed := by
  refine ⟨by decide +kernel, by decide +kernel, by decide +kernel, ?_⟩
  have hbytes : fed.toBytes Bincode.ofFed = some (magic ++ (toLeBytes format ++ fedBody)) := by decide +kernel
  refine (finish_round_trip Bincode.ofFed fun _ => []).1 .ubuntu feed fed _ ?_ hbytes (by decide +kernel)
  exact Option.map_eq_some_iff.mpr ⟨_, hbytes, rfl⟩

end Zond.Cve
