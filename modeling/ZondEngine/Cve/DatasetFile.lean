import ZondEngine.Cve.Dataset
import ZondEngine.Lib.Nested
import ZondEngine.Lib.Pool

/-!
# A dataset as bytes

`Advisories::to_bytes` and `from_bytes` of `cve/advisories.rs`: a body in which every text is an index into a pool
(`Wire`), behind a header. How a body becomes bytes is `bincode`'s, taken by the laws of `Bincode`.
-/

namespace Zond.Cve

open Zond.Pool Zond.Utf8 List Text

inductive AdvisoriesError where
  | notAdvisories
  | unsupportedFormat (found supported : UInt16)
  | tooLarge (limit : Nat)
  | malformed (why : Text)
  deriving DecidableEq

/-! ## The body -/

inductive WireStanding where
  | notAffected (reason : Option UInt32)
  | fixed (version : UInt32)
  | «open» (kind : OpenKind) (note : Option UInt32)
  deriving DecidableEq

structure WireStatus where
  channel : Channel
  standing : WireStanding
  advisory : Option UInt32
  deriving DecidableEq

structure WirePackage where
  (release package : UInt32)
  lineage : List UInt32
  verdicts : List (UInt32 × List WireStatus)
  deriving DecidableEq

structure WireCve where
  cve : UInt32
  priority : Option UInt32
  byRelease : List (UInt32 × UInt32)
  deriving DecidableEq

/-- A dataset as its file has it. -/
structure Wire where
  distributor : Distributor
  version : UInt16 × UInt16 × UInt16
  pool : List Text
  packages : List WirePackage
  cves : List WireCve
  deriving DecidableEq

/-! ## Writing -/

def WireStanding.of : Standing → Pool.Writer Text WireStanding
  | .notAffected reason => do return .notAffected (← internOption reason)
  | .fixed version => do return .fixed (← intern version)
  | .open kind note => do return .open kind (← internOption note)

def WireStatus.of (status : Status) : Pool.Writer Text WireStatus := do
  let standing ← WireStanding.of status.standing
  let advisory ← internOption status.advisory
  return ⟨status.channel, standing, advisory⟩

def WirePackage.verdictOf (entry : Text × List Status) : Pool.Writer Text (UInt32 × List WireStatus) := do
  let cve ← intern entry.1
  let statuses ← entry.2.mapM WireStatus.of
  return (cve, statuses)

def WirePackage.of (filed : Text × Text × Package) : Pool.Writer Text WirePackage := do
  let release ← intern filed.1
  let package ← intern filed.2.1
  let lineage ← filed.2.2.lineage.mapM intern
  let verdicts ← filed.2.2.verdicts.entries.mapM WirePackage.verdictOf
  return ⟨release, package, lineage, verdicts⟩

def WireCve.byReleaseOf (entry : Text × Text) : Pool.Writer Text (UInt32 × UInt32) := do
  let release ← intern entry.1
  let priority ← intern entry.2
  return (release, priority)

def WireCve.of (entry : Text × Facts) : Pool.Writer Text WireCve := do
  let cve ← intern entry.1
  let priority ← internOption entry.2.priority
  let byRelease ← entry.2.byRelease.entries.mapM WireCve.byReleaseOf
  return ⟨cve, priority, byRelease⟩

def Dataset.records (a : Dataset) : Pool.Writer Text (List WirePackage × List WireCve) := do
  let packages ← a.releases.flat.mapM WirePackage.of
  let cves ← a.cves.entries.mapM WireCve.of
  return (packages, cves)

def Dataset.toWire (a : Dataset) : Wire :=
  { distributor := a.distributor
    version := (a.version.major, a.version.minor, a.version.patch)
    pool := (a.records []).2
    packages := (a.records []).1.1
    cves := (a.records []).1.2 }

section Read

variable (pool : List Text)

def Wire.at (index : UInt32) : Except AdvisoriesError Text :=
  match pool[index.toNat]? with
  | some text => .ok text
  | none => .error (.malformed ("string " ++ Text.decimal index.toNat ++ " is past the pool's end"))

def Wire.maybe : Option UInt32 → Except AdvisoriesError (Option Text)
  | none => .ok none
  | some index => do return some (← Wire.at pool index)

def WireStanding.read : WireStanding → Except AdvisoriesError Standing
  | .notAffected reason => do return .notAffected (← Wire.maybe pool reason)
  | .fixed version => do return .fixed (← Wire.at pool version)
  | .open kind note => do return .open kind (← Wire.maybe pool note)

def WireStatus.read (status : WireStatus) : Except AdvisoriesError Status := do
  let standing ← status.standing.read pool
  let advisory ← Wire.maybe pool status.advisory
  return ⟨status.channel, standing, advisory⟩

def WirePackage.readVerdict (entry : UInt32 × List WireStatus) : Except AdvisoriesError (Text × List Status) := do
  let statuses ← entry.2.mapM (WireStatus.read pool)
  let cve ← Wire.at pool entry.1
  return (cve, statuses)

def WirePackage.read (package : WirePackage) : Except AdvisoriesError (Text × Text × Package) := do
  let verdicts ← package.verdicts.mapM (WirePackage.readVerdict pool)
  let versions ← package.lineage.mapM (Wire.at pool)
  let release ← Wire.at pool package.release
  let name ← Wire.at pool package.package
  return (release, name, ⟨versions, SortedMap.ofList verdicts⟩)

def WireCve.readByRelease (entry : UInt32 × UInt32) : Except AdvisoriesError (Text × Text) := do
  let release ← Wire.at pool entry.1
  let priority ← Wire.at pool entry.2
  return (release, priority)

def WireCve.read (cve : WireCve) : Except AdvisoriesError (Text × Facts) := do
  let byRelease ← cve.byRelease.mapM (WireCve.readByRelease pool)
  let name ← Wire.at pool cve.cve
  let priority ← Wire.maybe pool cve.priority
  return (name, ⟨priority, SortedMap.ofList byRelease⟩)

end Read

/-- A data set, every index looked up in the pool. -/
def Wire.read (wire : Wire) : Except AdvisoriesError Dataset := do
  let packages ← wire.packages.mapM (WirePackage.read wire.pool)
  let cves ← wire.cves.mapM (WireCve.read wire.pool)
  return {
    distributor := wire.distributor
    version := ⟨wire.version.1, wire.version.2.1, wire.version.2.2⟩
    contentHash := []
    releases := packages.foldl (fun m filed => m.insert₂ filed.1 filed.2.1 filed.2.2) SortedMap.empty
    cves := SortedMap.ofList cves }

/-! ## The body is read back -/

theorem grows_at (value : Text) : Grows (intern value) fun whole index => Wire.at whole index = .ok value := by
  refine (grows_intern value).imp fun whole index h => ?_
  rw [Wire.at, h]

theorem grows_maybe (value : Option Text) :
    Grows (internOption value) fun whole index => Wire.maybe whole index = .ok value := by
  cases value with
  | none =>
    refine (Grows.pure none).imp ?_
    rintro whole _ rfl
    rfl
  | some text =>
    refine (grows_at text).map.imp ?_
    rintro whole _ ⟨index, hindex, rfl⟩
    simp only [Wire.maybe, hindex]
    rfl

theorem grows_mapM {α β : Type} {write : α → Pool.Writer Text β} {read : List Text → β → Except AdvisoriesError α}
    (h : ∀ a, Grows (write a) fun whole b => read whole b = .ok a) (l : List α) :
    Grows (l.mapM write) fun whole bs => bs.mapM (read whole) = .ok l :=
  (Grows.mapM fun a _ => h a).imp fun _ _ hread => mapM_of_forall₂ hread

theorem grows_standing (standing : Standing) :
    Grows (WireStanding.of standing) fun whole wire => wire.read whole = .ok standing := by
  cases standing with
  | notAffected reason =>
    refine ((grows_maybe reason).bind fun index => Grows.pure _).imp ?_
    rintro whole _ ⟨index, hindex, rfl⟩
    simp only [WireStanding.read, hindex]
    rfl
  | fixed version =>
    refine ((grows_at version).bind fun index => Grows.pure _).imp ?_
    rintro whole _ ⟨index, hindex, rfl⟩
    simp only [WireStanding.read, hindex]
    rfl
  | «open» kind note =>
    refine ((grows_maybe note).bind fun index => Grows.pure _).imp ?_
    rintro whole _ ⟨index, hindex, rfl⟩
    simp only [WireStanding.read, hindex]
    rfl

theorem grows_status (status : Status) :
    Grows (WireStatus.of status) fun whole wire => wire.read whole = .ok status := by
  refine ((grows_standing status.standing).bind fun standing =>
    (grows_maybe status.advisory).bind fun advisory => Grows.pure _).imp ?_
  rintro whole _ ⟨standing, hstanding, advisory, hadvisory, rfl⟩
  simp only [WireStatus.read, hstanding, hadvisory]
  rfl

theorem grows_verdict (entry : Text × List Status) :
    Grows (WirePackage.verdictOf entry) fun whole wire => WirePackage.readVerdict whole wire = .ok entry := by
  refine ((grows_at entry.1).bind fun cve =>
    (grows_mapM grows_status entry.2).bind fun statuses => Grows.pure _).imp ?_
  rintro whole _ ⟨cve, hcve, statuses, hstatuses, rfl⟩
  simp only [WirePackage.readVerdict, hcve, hstatuses]
  rfl

theorem ofList_entries {K V : Type} [LinearOrder K] (m : SortedMap K V) : SortedMap.ofList m.entries = m :=
  SortedMap.ofList_of_perm (List.Perm.refl _)

theorem grows_package (filed : Text × Text × Package) :
    Grows (WirePackage.of filed) fun whole wire => wire.read whole = .ok filed := by
  refine ((grows_at filed.1).bind fun release => (grows_at filed.2.1).bind fun package =>
    (grows_mapM grows_at filed.2.2.lineage).bind fun lineage =>
    (grows_mapM grows_verdict filed.2.2.verdicts.entries).bind fun verdicts => Grows.pure _).imp ?_
  rintro whole _ ⟨release, hrelease, package, hpackage, lineage, hlineage, verdicts, hverdicts, rfl⟩
  have hmade := ofList_entries filed.2.2.verdicts
  simp only [WirePackage.read, hrelease, hpackage, hlineage, hverdicts]
  change Except.ok (filed.1, filed.2.1, Package.mk filed.2.2.lineage (SortedMap.ofList filed.2.2.verdicts.entries)) = _
  rw [hmade]

theorem grows_byRelease (entry : Text × Text) :
    Grows (WireCve.byReleaseOf entry) fun whole wire => WireCve.readByRelease whole wire = .ok entry := by
  refine ((grows_at entry.1).bind fun release => (grows_at entry.2).bind fun priority => Grows.pure _).imp ?_
  rintro whole _ ⟨release, hrelease, priority, hpriority, rfl⟩
  simp only [WireCve.readByRelease, hrelease, hpriority]
  rfl

theorem grows_cve (entry : Text × Facts) : Grows (WireCve.of entry) fun whole wire => wire.read whole = .ok entry := by
  refine ((grows_at entry.1).bind fun cve => (grows_maybe entry.2.priority).bind fun priority =>
    (grows_mapM grows_byRelease entry.2.byRelease.entries).bind fun byRelease => Grows.pure _).imp ?_
  rintro whole _ ⟨cve, hcve, priority, hpriority, byRelease, hbyRelease, rfl⟩
  have hmade := ofList_entries entry.2.byRelease
  simp only [WireCve.read, hcve, hpriority, hbyRelease]
  change Except.ok (entry.1, Facts.mk entry.2.priority (SortedMap.ofList entry.2.byRelease.entries)) = _
  rw [hmade]

theorem grows_records (a : Dataset) :
    Grows a.records fun whole records => records.1.mapM (WirePackage.read whole) = .ok a.releases.flat ∧
      records.2.mapM (WireCve.read whole) = .ok a.cves.entries := by
  refine ((grows_mapM grows_package a.releases.flat).bind fun packages =>
    (grows_mapM grows_cve a.cves.entries).bind fun cves => Grows.pure _).imp ?_
  rintro whole _ ⟨packages, hpackages, cves, hcves, rfl⟩
  exact ⟨hpackages, hcves⟩

/-- **A dataset is read back from its body**, but for its digest, where every release has a package and the pool no more
texts than indices count. -/
theorem Dataset.read_toWire {a : Dataset} (hfiled : a.releases.Inhabited₂) (hpool : a.toWire.pool.length ≤ 2 ^ 32) :
    a.toWire.read = .ok { a with contentHash := [] } := by
  obtain ⟨hpackages, hcves⟩ := (grows_records a []).2 a.toWire.pool (prefix_refl _) hpool
  have hreleases := SortedMap.foldl_insert₂_flat hfiled
  have hmade := ofList_entries a.cves
  have hreadPackages : a.toWire.packages.mapM (WirePackage.read a.toWire.pool) = .ok a.releases.flat := hpackages
  have hreadCves : a.toWire.cves.mapM (WireCve.read a.toWire.pool) = .ok a.cves.entries := hcves
  simp only [Wire.read, hreadPackages, hreadCves]
  change Except.ok (Dataset.mk ⟨a.releases.flat.foldl (fun m filed => m.insert₂ filed.1 filed.2.1 filed.2.2) _⟩
    a.distributor a.version [] (SortedMap.ofList a.cves.entries)) = _
  rw [hreleases, hmade]

/-! ## Every index is in the pool -/

def WireStanding.indices : WireStanding → List UInt32
  | .notAffected reason => reason.toList
  | .fixed version => [version]
  | .open _ note => note.toList

def WireStatus.indices (status : WireStatus) : List UInt32 := status.standing.indices ++ status.advisory.toList

def WirePackage.indices (package : WirePackage) : List UInt32 :=
  package.release :: package.package :: (package.lineage ++
    package.verdicts.flatMap fun entry => entry.1 :: entry.2.flatMap WireStatus.indices)

def WireCve.indices (cve : WireCve) : List UInt32 :=
  cve.cve :: (cve.priority.toList ++ cve.byRelease.flatMap fun entry => [entry.1, entry.2])

def Wire.indices (wire : Wire) : List UInt32 :=
  wire.packages.flatMap WirePackage.indices ++ wire.cves.flatMap WireCve.indices

def InPool (pool : List Text) (indices : List UInt32) : Prop := ∀ index ∈ indices, index.toNat < pool.length

section InPool

variable {pool : List Text}

theorem inPool_cons {index : UInt32} {rest : List UInt32} :
    InPool pool (index :: rest) ↔ index.toNat < pool.length ∧ InPool pool rest := forall_mem_cons

theorem inPool_append {a b : List UInt32} : InPool pool (a ++ b) ↔ InPool pool a ∧ InPool pool b :=
  forall_mem_append

theorem inPool_flatMap {α : Type} {f : α → List UInt32} {l : List α} :
    InPool pool (l.flatMap f) ↔ ∀ x ∈ l, InPool pool (f x) := by
  unfold InPool
  simp only [mem_flatMap, forall_exists_index, and_imp]
  exact ⟨fun h x hx index hindex => h index x hx hindex, fun h index x hx hindex => h x hx index hindex⟩

theorem inPool_nil : InPool pool [] := fun _ h => absurd h not_mem_nil

theorem lt_of_at {index : UInt32} {text : Text} (h : Wire.at pool index = .ok text) : index.toNat < pool.length := by
  unfold Wire.at at h
  split at h
  next hget => exact (List.getElem?_eq_some_iff.mp hget).1
  next => cases h

theorem inPool_of_maybe {index : Option UInt32} {text : Option Text} (h : Wire.maybe pool index = .ok text) :
    InPool pool index.toList := by
  cases index with
  | none => exact inPool_nil
  | some index =>
    obtain ⟨text, htext, -⟩ := bind_eq_ok h
    exact inPool_cons.mpr ⟨lt_of_at htext, inPool_nil⟩

theorem inPool_of_mapM {α β : Type} {read : β → Except AdvisoriesError α} {indices : β → List UInt32}
    (hread : ∀ b a, read b = .ok a → InPool pool (indices b)) {bs : List β} {l : List α} (h : bs.mapM read = .ok l) :
    InPool pool (bs.flatMap indices) := by
  refine inPool_flatMap.mpr fun b hb => ?_
  obtain ⟨a, ha⟩ := mem_of_mapM h b hb
  exact hread b a ha

theorem inPool_of_standing {wire : WireStanding} {standing : Standing} (h : wire.read pool = .ok standing) :
    InPool pool wire.indices := by
  cases wire with
  | notAffected reason =>
    obtain ⟨text, htext, -⟩ := bind_eq_ok h
    exact inPool_of_maybe htext
  | fixed version =>
    obtain ⟨text, htext, -⟩ := bind_eq_ok h
    exact inPool_cons.mpr ⟨lt_of_at htext, inPool_nil⟩
  | «open» kind note =>
    obtain ⟨text, htext, -⟩ := bind_eq_ok h
    exact inPool_of_maybe htext

theorem inPool_of_status (wire : WireStatus) (status : Status) (h : wire.read pool = .ok status) :
    InPool pool wire.indices := by
  obtain ⟨standing, hstanding, h⟩ := bind_eq_ok h
  obtain ⟨advisory, hadvisory, -⟩ := bind_eq_ok h
  exact inPool_append.mpr ⟨inPool_of_standing hstanding, inPool_of_maybe hadvisory⟩

theorem inPool_of_package (wire : WirePackage) (filed : Text × Text × Package) (h : wire.read pool = .ok filed) :
    InPool pool wire.indices := by
  obtain ⟨verdicts, hverdicts, h⟩ := bind_eq_ok h
  obtain ⟨versions, hversions, h⟩ := bind_eq_ok h
  obtain ⟨release, hrelease, h⟩ := bind_eq_ok h
  obtain ⟨name, hname, -⟩ := bind_eq_ok h
  have hlineage : InPool pool wire.lineage := by
    intro index hindex
    obtain ⟨text, htext⟩ := mem_of_mapM hversions index hindex
    exact lt_of_at htext
  refine inPool_cons.mpr ⟨lt_of_at hrelease, inPool_cons.mpr ⟨lt_of_at hname, inPool_append.mpr ⟨hlineage, ?_⟩⟩⟩
  refine inPool_of_mapM (fun entry read hread => ?_) hverdicts
  obtain ⟨statuses, hstatuses, hread⟩ := bind_eq_ok hread
  obtain ⟨cve, hcve, -⟩ := bind_eq_ok hread
  exact inPool_cons.mpr ⟨lt_of_at hcve, inPool_of_mapM inPool_of_status hstatuses⟩

theorem inPool_of_cve (wire : WireCve) (facts : Text × Facts) (h : wire.read pool = .ok facts) :
    InPool pool wire.indices := by
  obtain ⟨byRelease, hbyRelease, h⟩ := bind_eq_ok h
  obtain ⟨name, hname, h⟩ := bind_eq_ok h
  obtain ⟨priority, hpriority, -⟩ := bind_eq_ok h
  refine inPool_cons.mpr ⟨lt_of_at hname, inPool_append.mpr ⟨inPool_of_maybe hpriority, ?_⟩⟩
  refine inPool_of_mapM (fun entry read hread => ?_) hbyRelease
  obtain ⟨release, hrelease, hread⟩ := bind_eq_ok hread
  obtain ⟨text, htext, -⟩ := bind_eq_ok hread
  exact inPool_cons.mpr ⟨lt_of_at hrelease, inPool_cons.mpr ⟨lt_of_at htext, inPool_nil⟩⟩

end InPool

/-- **A body that is read has every index in its pool.** -/
theorem Wire.inPool_of_read {wire : Wire} {a : Dataset} (h : wire.read = .ok a) : InPool wire.pool wire.indices := by
  obtain ⟨packages, hpackages, h⟩ := bind_eq_ok h
  obtain ⟨cves, hcves, -⟩ := bind_eq_ok h
  exact inPool_append.mpr ⟨inPool_of_mapM inPool_of_package hpackages, inPool_of_mapM inPool_of_cve hcves⟩

/-! ## Bytes -/

def magic : Bytes := [90, 79, 78, 68, 65, 68, 86, 0]

def format : UInt16 := 1

def maxBytes : Nat := 64 * 1024 * 1024

def toLeBytes (number : UInt16) : Bytes := [number.toUInt8, (number >>> 8).toUInt8]

def fromLeBytes (low high : UInt8) : UInt16 := low.toUInt16 ||| (high.toUInt16 <<< 8)

/-- `bincode`: a body past the limit is not written, what is written is read back, and a text takes a byte at least. -/
structure Bincode where
  serialize : Wire → Option Bytes
  deserialize : Bytes → Except Text Wire
  deserialize_serialize : ∀ wire body, serialize wire = some body → deserialize body = .ok wire
  pool_le : ∀ wire body, serialize wire = some body → wire.pool.length ≤ body.length

section Bytes

variable (codec : Bincode) (contentHash : Bytes → Text)

/-- The file of a dataset. -/
def Dataset.toBytes (a : Dataset) : Option Bytes :=
  (codec.serialize a.toWire).map fun body => magic ++ (toLeBytes format ++ body)

def readBody (bytes body : Bytes) : Except AdvisoriesError Dataset :=
  match codec.deserialize body with
  | .error why => .error (.malformed why)
  | .ok wire => do
    let dataset ← wire.read
    return { dataset with contentHash := contentHash bytes }

/-- Reads a data set back from its file. -/
def fromBytes (bytes : Bytes) : Except AdvisoriesError Dataset :=
  if maxBytes < bytes.length then .error (.tooLarge maxBytes)
  else if magic.isPrefixOf bytes then
    match bytes.drop magic.length with
    | low :: high :: body =>
      if fromLeBytes low high ≠ format then .error (.unsupportedFormat (fromLeBytes low high) format)
      else readBody codec contentHash bytes body
    | _ => .error (.malformed "the format number is cut off")
  else .error .notAdvisories

variable {codec contentHash}

theorem fromBytes_header {bytes body : Bytes} (hbytes : bytes = magic ++ (toLeBytes format ++ body))
    (hlen : bytes.length ≤ maxBytes) : fromBytes codec contentHash bytes = readBody codec contentHash bytes body := by
  have hmagic : magic.isPrefixOf bytes = true := by
    rw [hbytes]
    exact isPrefixOf_iff_prefix.mpr (prefix_append _ _)
  have hdrop : bytes.drop magic.length = 1 :: 0 :: body := by rw [hbytes, drop_left]; rfl
  rw [fromBytes, if_neg (by omega), if_pos hmagic, hdrop]
  exact if_neg fun hne => hne (by decide)

/-- **A dataset is read back from its bytes**, with its digest. -/
theorem fromBytes_toBytes {a : Dataset} {bytes : Bytes} (hfiled : a.releases.Inhabited₂)
    (hbytes : a.toBytes codec = some bytes) (hlen : bytes.length ≤ maxBytes)
    (hhash : a.contentHash = contentHash bytes) :
    fromBytes codec contentHash bytes = .ok a := by
  obtain ⟨body, hbody, rfl⟩ := Option.map_eq_some_iff.mp hbytes
  have hpool : a.toWire.pool.length ≤ 2 ^ 32 := by
    have hle := codec.pool_le _ _ hbody
    simp only [length_append, maxBytes] at hlen
    omega
  rw [fromBytes_header rfl hlen, readBody, codec.deserialize_serialize _ _ hbody]
  simp only [Dataset.read_toWire hfiled hpool, ← hhash]
  rfl

/-- **What is accepted has every index in its pool.** -/
theorem inPool_of_fromBytes {bytes : Bytes} {a : Dataset} (h : fromBytes codec contentHash bytes = .ok a) :
    ∃ wire, codec.deserialize (bytes.drop (magic.length + 2)) = .ok wire ∧ InPool wire.pool wire.indices := by
  unfold fromBytes at h
  split at h
  · cases h
  · split at h
    · split at h
      next low high body hdrop =>
        have hbody : bytes.drop (magic.length + 2) = body := by rw [← drop_drop, hdrop]; rfl
        split at h
        · cases h
        · unfold readBody at h
          split at h
          · cases h
          next wire hwire =>
            obtain ⟨read, hread, -⟩ := bind_eq_ok h
            exact ⟨wire, hbody ▸ hwire, Wire.inPool_of_read hread⟩
      next => cases h
    · cases h

end Bytes

end Zond.Cve
