import ZondEngine.Cve.Place
import ZondEngine.Cve.Standing

/-!
# The order of a feed

* `settled_feed`: after any feed, the verdict held in each channel stands among those recorded for it.
* `feed_order_iff`: every order of some records rules alike on every build exactly when no vulnerability `Wavers`;
  `feed_order_wavers` is one that does.
-/

namespace Zond.Cve

open Zond.VersionOrder Zond.Utf8 List SortedMap Builder

/-! ## Records -/

def Placement.kinds (p : Placement) : Text × ReleaseFrom × Text × Option Text × (Text → RulingKind) :=
  (p.release, p.releaseFrom, p.package, p.installed, fun cve => (p.rule cve).kind)

def SameRulings (a b : Dataset) : Prop :=
  ∀ document build vendorProduct upstream hostRelease,
    (Placement.of document build vendorProduct upstream [a] hostRelease).map Placement.kinds =
      (Placement.of document build vendorProduct upstream [b] hostRelease).map Placement.kinds

structure Record where
  (release package cve : Text)
  status : Status
  deriving DecidableEq

def Builder.feed (b : Builder) (records : List Record) : Builder :=
  records.foldl (fun b r => b.record r.release r.package r.cve r.status) b

def recorded (records : List Record) (release package cve : Text) : List Status :=
  (records.filter fun r => r.release = release ∧ r.package = package ∧ r.cve = cve).map Record.status

section Feed

variable {b : Builder} {records : List Record}

def Builder.statuses (b : Builder) (release package cve : Text) : List Status :=
  ((b.entry release package).verdicts.get? cve).getD []

theorem Builder.entry_record (b : Builder) (r : Record) (release package : Text) :
    (b.record r.release r.package r.cve r.status).entry release package =
      if r.release = release ∧ r.package = package then (b.entry release package).record r.cve r.status
      else b.entry release package := by
  unfold Builder.record Builder.entry
  rw [get?₂_insert₂]
  by_cases h : r.release = release ∧ r.package = package
  · obtain ⟨rfl, rfl⟩ := h
    rw [if_pos ⟨rfl, rfl⟩, if_pos ⟨rfl, rfl⟩]
    rfl
  · rw [if_neg h, if_neg fun hsame => h ⟨hsame.1.symm, hsame.2.symm⟩]

theorem Builder.statuses_record (b : Builder) (r : Record) (release package cve : Text) :
    (b.record r.release r.package r.cve r.status).statuses release package cve =
      if r.release = release ∧ r.package = package ∧ r.cve = cve then settle r.status (b.statuses release package cve)
      else b.statuses release package cve := by
  unfold Builder.statuses
  rw [entry_record]
  by_cases hdraft : r.release = release ∧ r.package = package
  · rw [if_pos hdraft, Draft.record, get?_insert]
    by_cases hcve : r.cve = cve
    · rw [if_pos hcve.symm, if_pos ⟨hdraft.1, hdraft.2, hcve⟩, hcve]
      rfl
    · rw [if_neg (Ne.symm hcve), if_neg fun h => hcve h.2.2]
  · rw [if_neg hdraft, if_neg fun h => hdraft ⟨h.1, h.2.1⟩]

theorem Builder.statuses_feed (release package cve : Text) : ∀ (records : List Record) (b : Builder),
    (b.feed records).statuses release package cve =
      (recorded records release package cve).foldl (fun held s => settle s held) (b.statuses release package cve)
  | [], _ => rfl
  | r :: rest, b => by
    have hrest := statuses_feed release package cve rest (b.record r.release r.package r.cve r.status)
    rw [statuses_record] at hrest
    refine hrest.trans ?_
    unfold recorded
    rw [filter_cons]
    by_cases hkey : r.release = release ∧ r.package = package ∧ r.cve = cve
    · rw [if_pos hkey, if_pos (decide_eq_true hkey)]
      rfl
    · rw [if_neg hkey, if_neg fun h => hkey (of_decide_eq_true h)]

variable (distributor : Distributor) (records : List Record)

/-- **After any feed, what is held stands among what was recorded.** -/
theorem settled_feed (release package cve : Text) : Settled (recorded records release package cve)
      (((Builder.new distributor).feed records).statuses release package cve) := by
  rw [statuses_feed]
  exact settled_foldl _ settled_nil

theorem Builder.feed_iff {P : Builder → Prop} {Q : Record → Prop}
    (hstep : ∀ b r, P (Builder.record b r.release r.package r.cve r.status) ↔ Q r ∨ P b) :
    ∀ (records : List Record) (b : Builder), P (b.feed records) ↔ (∃ r ∈ records, Q r) ∨ P b
  | [], b => by simp [Builder.feed]
  | r :: rest, b => by
    refine (feed_iff hstep rest (b.record r.release r.package r.cve r.status)).trans ?_
    rw [hstep, exists_mem_cons_iff, or_left_comm, or_assoc]

theorem Draft.contains_record {draft : Draft} {cve version : Text} {status : Status} :
    (draft.record cve status).lineage.contains version = true ↔
      status.standing = .fixed version ∨ draft.lineage.contains version = true := by
  unfold Draft.record
  cases hstanding : status.standing with
  | fixed fix =>
    rw [SortedSet.contains_add]
    exact or_congr_left ⟨fun h => h ▸ rfl, fun h => (Standing.fixed.inj h).symm⟩
  | notAffected reason => simp
  | «open» kind note => simp

theorem contains_lineage_feed (release package version : Text) :
    (((Builder.new distributor).feed records).entry release package).lineage.contains version = true ↔
      ∃ r ∈ records, (r.release = release ∧ r.package = package) ∧ r.status.standing = .fixed version := by
  rw [feed_iff (P := fun b => (b.entry release package).lineage.contains version = true)]
  · exact or_iff_left Bool.false_ne_true
  · intro b r
    rw [entry_record]
    split
    next hkey => rw [Draft.contains_record, and_iff_right hkey]
    next hkey => simp [hkey]

theorem isSome_get?₂_feed (release package : Text) :
    (((Builder.new distributor).feed records).releases.get?₂ release package).isSome = true ↔
      ∃ r ∈ records, r.release = release ∧ r.package = package := by
  rw [feed_iff (P := fun b => (b.releases.get?₂ release package).isSome = true)]
  · exact or_iff_left Bool.false_ne_true
  · intro b r
    rw [Builder.record, get?₂_insert₂]
    split
    next hkey => simp [hkey.1, hkey.2]
    next hkey => exact (or_iff_right fun h => hkey ⟨h.1.symm, h.2.symm⟩).symm

theorem mem_keys_feed (release : Text) :
    release ∈ ((Builder.new distributor).feed records).releases.keys ↔ ∃ r ∈ records, r.release = release := by
  rw [feed_iff (P := fun b => release ∈ b.releases.keys)]
  · exact or_iff_left not_mem_nil
  · intro b r
    rw [Builder.record, SortedMap.insert₂, mem_keys_insert, eq_comm]

theorem distributor_feed : ∀ (records : List Record) (b : Builder), (b.feed records).distributor = b.distributor
  | [], _ => rfl
  | r :: rest, b => distributor_feed rest (b.record r.release r.package r.cve r.status)

end Feed

section Assembled

theorem Builder.package_assembled (b : Builder) (release package : Text) :
    b.assembled.package release package = (b.releases.get?₂ release package).map Draft.finish := by
  unfold Advisories.package Builder.assembled SortedMap.get?₂
  rw [get?_map, Option.bind_map, Option.map_bind]
  refine Option.bind_congr fun held _ => ?_
  exact get?_map _ _ _

theorem Builder.statuses_assembled (b : Builder) (release package cve : Text) :
    b.assembled.statuses release package cve = b.statuses release package cve := by
  unfold Advisories.statuses Builder.statuses Builder.entry
  rw [package_assembled]
  cases b.releases.get?₂ release package with
  | none => rfl
  | some draft => rfl

variable {distributor : Distributor} {first second : List Record}

theorem lineage_of_perm (h : first.Perm second) (release package : Text) :
    ((Builder.new distributor).feed first).assembled.lineage release package =
      ((Builder.new distributor).feed second).assembled.lineage release package := by
  unfold Advisories.lineage
  rw [package_assembled, package_assembled]
  have hset := SortedSet.eq_of_contains
    (s := (((Builder.new distributor).feed first).entry release package).lineage)
    (t := (((Builder.new distributor).feed second).entry release package).lineage) fun version => by
      rw [Bool.eq_iff_iff, contains_lineage_feed, contains_lineage_feed]
      exact exists_congr fun r => and_congr_left fun _ => h.mem_iff
  have hsome : (((Builder.new distributor).feed first).releases.get?₂ release package).isSome =
      (((Builder.new distributor).feed second).releases.get?₂ release package).isSome := by
    rw [Bool.eq_iff_iff, isSome_get?₂_feed, isSome_get?₂_feed]
    exact exists_congr fun r => and_congr_left fun _ => h.mem_iff
  unfold Builder.entry at hset
  revert hset hsome
  cases ((Builder.new distributor).feed first).releases.get?₂ release package with
  | none =>
    cases ((Builder.new distributor).feed second).releases.get?₂ release package with
    | none => exact fun _ _ => rfl
    | some draft => exact fun _ hsome => absurd hsome Bool.false_ne_true
  | some draft =>
    cases ((Builder.new distributor).feed second).releases.get?₂ release package with
    | none => exact fun _ hsome => absurd hsome.symm Bool.false_ne_true
    | some draft' =>
      intro hset _
      have hlineage : draft.lineage = draft'.lineage := hset
      simp only [Option.map_some, Draft.finish, hlineage]

theorem keys_of_perm (h : first.Perm second) : ((Builder.new distributor).feed first).assembled.releases.keys =
      ((Builder.new distributor).feed second).assembled.releases.keys := by
  unfold Builder.assembled
  rw [keys_map, keys_map]
  refine keys_eq_of_mem fun release => ?_
  rw [mem_keys_feed, mem_keys_feed]
  exact exists_congr fun r => and_congr_left fun _ => h.mem_iff

end Assembled

section Placing

variable {a b : Dataset}

theorem buildsWithRevision_eq (a : Advisories) (sourcePackage revision : Text) :
    a.buildsWithRevision sourcePackage revision =
      (a.releases.keys.filterMap fun release => (a.lineage release sourcePackage).map (release, ·)).flatMap fun held =>
        (held.2.filter fun version => dpkgRevision version == revision).map (held.1, ·) := by
  have hheld : (a.releases.keys.filterMap fun release => (a.lineage release sourcePackage).map (release, ·)) =
      (a.releases.entries.filterMap fun entry => (entry.2.get? sourcePackage).map (entry.1, ·)).map
        fun held => (held.1, held.2.lineage) := by
    unfold SortedMap.keys
    rw [filterMap_map, map_filterMap]
    refine filterMap_congr fun entry hentry => ?_
    have hget : a.releases.get? entry.1 = some entry.2 := get?_eq_some_iff.mpr hentry
    simp only [Function.comp, Advisories.lineage, Advisories.package, hget, Option.bind_some, Option.map_map]
    rfl
  rw [hheld, flatMap_map]
  rfl

theorem sameRulings_of (hdistributor : a.distributor = b.distributor) (hkeys : a.releases.keys = b.releases.keys)
    (hlineage : ∀ release package, a.lineage release package = b.lineage release package)
    (hkind : ∀ release from_ package installed cve,
      (Placement.rule ⟨a.toAdvisories, release, from_, package, installed⟩ cve).kind =
        (Placement.rule ⟨b.toAdvisories, release, from_, package, installed⟩ cve).kind) : SameRulings a b := by
  have hbuilds : ∀ package revision, a.buildsWithRevision package revision = b.buildsWithRevision package revision := by
    intro package revision
    rw [buildsWithRevision_eq, buildsWithRevision_eq, hkeys]
    simp only [hlineage]
  have hreleases : ∀ packageIn revision, releasesWithRevision packageIn a.toAdvisories revision =
      releasesWithRevision packageIn b.toAdvisories revision := by
    intro packageIn revision
    unfold releasesWithRevision
    rw [hkeys]
    simp only [hbuilds]
  have hrelease : ∀ packageIn build hostRelease, releaseOf packageIn a.toAdvisories build hostRelease =
      releaseOf packageIn b.toAdvisories build hostRelease := by
    intro packageIn build hostRelease
    unfold releaseOf
    simp only [hreleases]
  intro document build vendorProduct upstream hostRelease
  unfold Placement.of
  cases hpublisher : publisherOf build.distributor with
  | none => rfl
  | some distributor =>
    simp only [find?_singleton, hdistributor]
    by_cases hfound : (b.distributor == distributor) = true
    · simp only [if_pos hfound, hrelease, hlineage]
      cases releaseOf _ b.toAdvisories build hostRelease with
      | error why => rfl
      | ok placed =>
        dsimp only
        cases Packages.sourcePackage document vendorProduct distributor placed.1 upstream with
        | none => rfl
        | some package =>
          dsimp only
          cases b.lineage placed.1 package with
          | none => rfl
          | some versions =>
            refine congrArg Except.ok ?_
            unfold Placement.kinds
            simp only [hkind]
    · simp only [if_neg hfound]

end Placing

section Every

variable {distributor : Distributor} {records first second : List Record}

theorem recorded_perm (h : first.Perm second) (release package cve : Text) :
    (recorded first release package cve).Perm (recorded second release package cve) := (h.filter _).map _

theorem kind_of_perm (hperm : first.Perm second)
    (hsteady : ∀ release package cve, ¬ Wavers (recorded first release package cve)) (release : Text)
    (source : ReleaseFrom) (package : Text) (installed : Option Text) (cve : Text) :
    (Placement.rule ⟨((Builder.new distributor).feed first).assembled.toAdvisories, release, source, package,
      installed⟩ cve).kind =
      (Placement.rule ⟨((Builder.new distributor).feed second).assembled.toAdvisories, release, source, package,
        installed⟩ cve).kind := by
  have h := settled_feed distributor first release package cve
  have h' := settled_feed distributor second release package cve
  have hrecorded := recorded_perm hperm release package cve
  refine kind_rule_congr rfl (statuses_assembled _ release package cve)
    (statuses_assembled _ release package cve) ?_ ?_ (fixedIn_of_perm h h' hrecorded) ?_
  · rw [h.eq_nil_iff, h'.eq_nil_iff]
    exact ⟨fun hnil => (hnil ▸ hrecorded).nil_eq.symm, fun hnil => (hnil ▸ hrecorded).eq_nil⟩
  · rw [h.saysNotAffected_iff, h'.saysNotAffected_iff]
    simp only [hrecorded.mem_iff]
  · intro hna hfix hne
    exact kind_openRuling_of_perm h h' hrecorded (fun hnil => hne (h.eq_nil_iff.mpr hnil)) (h.isOpen hna hfix)
      (hsteady release package cve)

theorem kind_of_first {r : Record} {rest : List Record} {kind : OpenKind} {note : Option Text}
    (hstanding : r.status.standing = .open kind note)
    (hopen : ∀ s ∈ recorded (r :: rest) r.release r.package r.cve, s.IsOpen)
    (hfirst : IsFirst (recorded (r :: rest) r.release r.package r.cve) r.status.channel) (source : ReleaseFrom)
    (installed : Option Text) :
    (Placement.rule ⟨((Builder.new distributor).feed (r :: rest)).assembled.toAdvisories, r.release, source, r.package,
      installed⟩ r.cve).kind = kind.rulingKind := by
  have h := settled_feed distributor (r :: rest) r.release r.package r.cve
  have hcons : recorded (r :: rest) r.release r.package r.cve =
    r.status :: recorded rest r.release r.package r.cve := by
    simp [recorded]
  have hne : recorded (r :: rest) r.release r.package r.cve ≠ [] := by
    rw [hcons]
    exact cons_ne_nil _ _
  obtain ⟨s, kind', note', hstanding', hhead, hfirst', hkind⟩ := h.kind_openRuling hne hopen
  have hchannel : s.channel = r.status.channel :=
    hfirst'.unique hfirst ⟨s, (mem_inChannel.mp (mem_of_head? hhead)).1, rfl⟩ ⟨r.status, hcons ▸ mem_cons_self, rfl⟩
  obtain rfl : r.status = s := by
    rw [hchannel, hcons, inChannel, filter_cons_of_pos (by simp)] at hhead
    exact Option.some.inj hhead
  rw [hstanding] at hstanding'
  rw [rule_of_isOpen (statuses_assembled _ r.release r.package r.cve) (fun hnil => hne (h.eq_nil_iff.mp hnil))
    fun t ht => hopen t (mem_inChannel.mp (h.stands t ht).mem).1, hkind, (Standing.open.inj hstanding').1]

variable (distributor)

def named (release : Text) : Build :=
  ⟨match distributor with
    | .ubuntu => .ubuntu
    | .debian => .debian, none, some ⟨release, .banner⟩⟩

def everywhere (package : Text) : Packages.Document :=
  ⟨SortedMap.empty.insert [] ⟨some (.always package), some (.always package)⟩⟩

theorem of_named {a : Dataset} {release package : Text} (h : (a.lineage release package).isSome = true) :
    Placement.of (everywhere package) (named a.distributor release) [] [] [a] none =
      .ok ⟨a.toAdvisories, release, .banner, package, none⟩ := by
  obtain ⟨versions, hversions⟩ := Option.isSome_iff_exists.mp h
  have hpublisher : publisherOf (named a.distributor release).distributor = some a.distributor := by
    cases a.distributor <;> rfl
  have hpackage : Packages.sourcePackage (everywhere package) [] a.distributor release [] = some package := by
    unfold Packages.sourcePackage everywhere
    cases a.distributor <;> rfl
  have hrelease : ∀ packageIn, releaseOf packageIn a.toAdvisories (named a.distributor release) none =
      .ok (release, .banner) := fun _ => rfl
  unfold Placement.of
  simp only [hpublisher, find?_singleton, beq_self_eq_true, if_true, hrelease, hpackage, hversions]
  rfl

theorem isSome_lineage_feed {r : Record} {records : List Record} (hr : r ∈ records) :
    (((Builder.new distributor).feed records).assembled.lineage r.release r.package).isSome = true := by
  unfold Advisories.lineage
  rw [package_assembled, Option.map_map, Option.isSome_map]
  exact (isSome_get?₂_feed distributor records r.release r.package).mpr ⟨r, hr, rfl, rfl⟩

theorem mem_recorded {records : List Record} {release package cve : Text} {s : Status} :
    s ∈ recorded records release package cve ↔
      ∃ r ∈ records, (r.release = release ∧ r.package = package ∧ r.cve = cve) ∧ r.status = s := by
  simp [recorded, and_assoc]

theorem kind_of_named {r : Record} {rest : List Record} {kind : OpenKind} {note : Option Text}
    (hperm : (r :: rest).Perm records) (hstanding : r.status.standing = .open kind note)
    (hopen : ∀ s ∈ recorded records r.release r.package r.cve, s.IsOpen)
    (hfirst : IsFirst (recorded records r.release r.package r.cve) r.status.channel) (contentHash : Text) :
    ((Placement.of (everywhere r.package) (named distributor r.release) [] []
      [{ ((Builder.new distributor).feed (r :: rest)).assembled with contentHash }] none).map
        fun p => (p.rule r.cve).kind) = .ok kind.rulingKind := by
  have hrecorded := recorded_perm hperm r.release r.package r.cve
  have hplaced := of_named (a := { ((Builder.new distributor).feed (r :: rest)).assembled with contentHash })
    (isSome_lineage_feed distributor (r := r) (mem_cons_self (l := rest)))
  have hdistributor : ((Builder.new distributor).feed (r :: rest)).assembled.distributor = distributor :=
    distributor_feed (r :: rest) (Builder.new distributor)
  rw [hdistributor] at hplaced
  rw [hplaced]
  refine congrArg Except.ok (kind_of_first hstanding (fun s hs => hopen s (hrecorded.mem_iff.mp hs)) ?_ _ _)
  exact isFirst_of_perm hrecorded.symm hfirst

end Every

/-- **Every two orders of a feed's records finish to datasets that rule alike, exactly when no
vulnerability of a release's package wavers**: none whose verdicts are all open, some in the
channel looked at still to be triaged and some not. -/
theorem feed_order_iff (distributor : Distributor) (records : List Record) :
    (∀ (codec : Bincode) (contentHash : Bytes → Text) (first second : List Record) (a b : Dataset),
        first.Perm records → second.Perm records →
        ((Builder.new distributor).feed first).finish codec contentHash = some a →
        ((Builder.new distributor).feed second).finish codec contentHash = some b → SameRulings a b) ↔
      ∀ release package cve, ¬ Wavers (recorded records release package cve) := by
  constructor
  · intro hsame release package cve hwavers
    obtain ⟨hopen, s, hs, t, ht, hchannel, hfirst, ⟨note, hstanding⟩, hnot⟩ := hwavers
    obtain ⟨r, hr, ⟨rfl, rfl, rfl⟩, rfl⟩ := mem_recorded.mp hs
    obtain ⟨r', hr', ⟨hrelease, hpackage, hcve⟩, rfl⟩ := mem_recorded.mp ht
    obtain ⟨kind, note', hstanding'⟩ := hopen r'.status ht
    rw [needsTriage_iff hstanding'] at hnot
    -- one order has the one record first, another the other, and both datasets can be written
    have hperm := (perm_cons_erase hr).symm
    have hperm' := (perm_cons_erase hr').symm
    have hkind := kind_of_named distributor hperm hstanding hopen hfirst []
    have hkind' := kind_of_named distributor hperm' hstanding' (by rwa [hrelease, hpackage, hcve])
      (by rwa [hrelease, hpackage, hcve, ← hchannel]) []
    rw [hrelease, hpackage, hcve] at hkind'
    have hrulings := hsame
      (Bincode.ofTwo ((Builder.new distributor).feed (r :: records.erase r)).assembled.toWire
        ((Builder.new distributor).feed (r' :: records.erase r')).assembled.toWire)
      (fun _ => []) _ _ _ _ hperm hperm' (finish_of_isSome [] (Bincode.ofTwo_left _ _))
      (finish_of_isSome [] (Bincode.ofTwo_right _ _)) (everywhere r.package) (named distributor r.release)
      [] [] none
    have hmap : ∀ placed : Except Unplaced Placement,
        (placed.map Placement.kinds).map (fun kinds => kinds.2.2.2.2 r.cve) =
          placed.map fun p => (p.rule r.cve).kind := by
      intro placed
      cases placed <;> rfl
    have hsameKind := congrArg (Except.map fun kinds => kinds.2.2.2.2 r.cve) hrulings
    rw [hmap, hmap] at hsameKind
    cases kind <;> simp_all [OpenKind.rulingKind]
  · intro hsteady codec contentHash first second a b hfirst hsecond ha hb
    obtain ⟨bytes, -, rfl⟩ := Option.map_eq_some_iff.mp ha
    obtain ⟨bytes', -, rfl⟩ := Option.map_eq_some_iff.mp hb
    have hperm := hfirst.trans hsecond.symm
    have hsteady' : ∀ release package cve, ¬ Wavers (recorded first release package cve) :=
      fun release package cve h => hsteady release package cve (wavers_of_perm (recorded_perm hfirst _ _ _) h)
    refine sameRulings_of ?_ (keys_of_perm hperm) (lineage_of_perm hperm) (kind_of_perm hperm hsteady')
    exact (distributor_feed first _).trans (distributor_feed second _).symm

def openRecord (kind : OpenKind) : Record := ⟨['r'], ['p'], ['c'], ⟨.archive, .open kind none, none⟩⟩

def rulingOf (records : List Record) : Option RulingKind :=
  (((Builder.new .ubuntu).feed records).finish
      (Bincode.ofTwo ((Builder.new .ubuntu).feed records).assembled.toWire
        ((Builder.new .ubuntu).feed records).assembled.toWire)
      fun _ => []).bind fun a =>
    (Placement.of (everywhere ['p']) (named .ubuntu ['r']) [] [] [a] none).toOption.map fun p => (p.rule ['c']).kind

theorem feed_order_wavers :
    [openRecord .needed, openRecord .needsTriage].Perm [openRecord .needsTriage, openRecord .needed] ∧
      rulingOf [openRecord .needsTriage, openRecord .needed] = some .untriaged ∧
      rulingOf [openRecord .needed, openRecord .needsTriage] = some .noFix :=
  ⟨List.Perm.swap _ _ _, by decide +kernel, by decide +kernel⟩

end Zond.Cve
