import ZondEngine.Model.Corroborate
import ZondEngine.Model.Host.Run
import ZondEngine.Model.TlsSuites

/-!
# Well-formed records

A part is well formed where its constructor would build it again from what it holds; the folds of the parts keep that,
and so do all calls (`Host.Built.valid`).
-/

namespace Zond

open List Option SortedMap

theorem forall_mem_or {α : Type} {P : α → Prop} {held offered : Option α} (hheld : ∀ a ∈ held, P a)
    (hoffered : ∀ a ∈ offered, P a) : ∀ a ∈ held.or offered, P a := by
  cases held with
  | none => exact hoffered
  | some x => exact hheld

theorem forall_mem_merge {α : Type} {P : α → Prop} {fold : α → α → α} (hfold : ∀ a b, P a → P b → P (fold a b))
    {held offered : Option α} (hheld : ∀ a ∈ held, P a) (hoffered : ∀ a ∈ offered, P a) :
    ∀ a ∈ Option.merge fold held offered, P a := by
  intro a ha
  cases held with
  | none =>
    rw [merge_none_left] at ha
    exact hoffered a ha
  | some x =>
    cases offered with
    | none => exact hheld a ha
    | some y => exact Option.some.inj ha ▸ hfold x y (hheld x rfl) (hoffered y rfl)

/-! ## Names -/

def Text.isControl (c : Char) : Bool := decide (c.toNat < 0x20) || (decide (0x7f ≤ c.toNat) && decide (c.toNat < 0xa0))

def MAX_NAME_CHARS : Nat := 255

namespace HostName

def new (kind : NameKind) (source : NameSource) (name : Text) : Option HostName :=
  let name := name.trim
  if !name.isEmpty && decide (name.length ≤ MAX_NAME_CHARS) && !name.any Text.isControl then some ⟨kind, source, name⟩
  else none

def WellFormed (name : HostName) : Prop := new name.kind name.source name.name = some name

theorem wellFormed_of_new {kind : NameKind} {source : NameSource} {text : Text} {name : HostName}
    (h : new kind source text = some name) : name.WellFormed := by
  unfold new at h
  dsimp only at h
  split at h
  next hkept =>
    obtain rfl := Option.some.inj h
    unfold WellFormed new
    dsimp only
    rw [Text.trim_trim, if_pos hkept]
  · cases h

end HostName

section Cpes

variable {bound : Nat}

theorem len_addCpes_le {held : SortedSet Text} (h : held.len ≤ bound) (cpes : List Text) :
    (addCpes bound held cpes).len ≤ bound := by
  refine List.foldlRecOn (motive := fun s : SortedSet Text => s.len ≤ bound) cpes _ h fun s hs cpe _ => ?_
  split
  next hroom =>
    unfold SortedSet.add
    rw [len_insert]
    split
    · exact hs
    · exact hroom
  · exact hs

theorem addCpes_keys {cpes : SortedSet Text} (h : cpes.len ≤ bound) : addCpes bound SortedMap.empty cpes.keys = cpes :=
  SortedSet.foldl_keys cpes fun _ _ _ _ hroom => if_pos (hroom.trans_le h)

end Cpes

def Service.WellFormed (service : Service) : Prop := service.cpe.len ≤ MAX_CPES_PER_SERVICE

theorem Service.WellFormed.merge {service other : Service} (h : service.WellFormed) :
    (service.merge other).WellFormed := by
  have hcpe := len_addCpes_le h other.cpe.keys
  unfold Service.merge
  dsimp only
  split
  · exact hcpe
  · exact hcpe

structure OsFingerprint.WellFormed (os : OsFingerprint) : Prop where
  cpe_le : os.cpe.len ≤ MAX_CPES_PER_OS
  detail_le : ∀ accuracy ∈ os.detailAccuracy, accuracy ≤ 100

theorem OsFingerprint.WellFormed.merge {os other : OsFingerprint} (h : os.WellFormed) (hother : other.WellFormed) :
    (os.merge other).WellFormed := by
  have hcpe := len_addCpes_le h.cpe_le other.cpe.keys
  unfold OsFingerprint.merge
  split
  · exact ⟨hcpe, forall_mem_or hother.detail_le h.detail_le⟩
  · split
    · exact ⟨hcpe, forall_mem_or h.detail_le hother.detail_le⟩
    · exact ⟨hcpe, h.detail_le⟩

/-! ## Transport security -/

def MAX_SANS_PER_CERTIFICATE : Nat := 100

/-- A handshake's protocols are listed once each, a certificate keeps to its ceiling, and the suites are the
registry's. -/
structure Security.WellFormed (security : Security) : Prop where
  alpn_nodup : security.alpn.Nodup
  sans_le : ∀ certificate ∈ security.certificate, certificate.sans.length ≤ MAX_SANS_PER_CERTIFICATE
  suites_known : ∀ held ∈ security.support.versions, ∀ suite ∈ held.suites, suite ∈ CipherSuite.ALL

theorem TlsSupport.mem_versions_merge {t other : TlsSupport} {held : VersionSupport}
    (h : held ∈ (t.merge other).versions) : held ∈ t.versions ∨ held ∈ other.versions := by
  have hrecord : ∀ (records : List VersionSupport) (t : TlsSupport),
      held ∈ (records.foldl record t).versions → held ∈ t.versions ∨ held ∈ records := by
    intro records
    induction records with
    | nil => exact fun t h => .inl h
    | cons first rest ih =>
      intro t h
      rcases ih _ h with h | h
      · exact (mem_placeVersion h).elim (fun heq => .inr (heq ▸ mem_cons_self)) .inl
      · exact .inr (mem_cons_of_mem _ h)
  unfold merge at h
  split at h
  · exact .inl h
  · split at h
    · exact .inr h
    · rw [(fields_foldl_recordUnfinished _ _).2] at h
      rcases hrecord _ _ h with h | h
      · exact .inl (mem_filter.mp h).1
      · exact .inr (mem_filter.mp h).1

theorem Security.WellFormed.merge {security other : Security} (h : security.WellFormed) (hother : other.WellFormed) :
    (security.merge other).WellFormed where
  alpn_nodup := by
    refine List.foldlRecOn (motive := List.Nodup) other.alpn _ h.alpn_nodup fun held hheld protocol _ => ?_
    unfold addAlpn
    split
    · exact hheld
    next hnew => exact nodup_append.mpr ⟨hheld, nodup_singleton _, fun a ha b hb =>
        fun heq => hnew (mem_singleton.mp hb ▸ heq ▸ ha)⟩
  sans_le := forall_mem_or h.sans_le hother.sans_le
  suites_known := by
    intro held hmem
    exact (TlsSupport.mem_versions_merge hmem).elim (h.suites_known held) (hother.suites_known held)

/-! ## Findings -/

def FindingGroup.new (id summary : Text) : Except FindingError FindingGroup :=
  if id.trim = [] ∨ summary.trim = [] then .error .emptyGroup else .ok ⟨id, summary⟩

def FindingGroup.WellFormed (group : FindingGroup) : Prop := new group.id group.summary = .ok group

theorem FindingGroup.wellFormed_of_new {id summary : Text} {group : FindingGroup} (h : new id summary = .ok group) :
    group.WellFormed := by
  have hsame : (⟨id, summary⟩ : FindingGroup) = group := by
    unfold new at h
    split at h
    · cases h
    · exact Except.ok.inj h
  subst hsame
  exact h

def Exploitation.new (by_ : DetectionId) (cves : List Text) : Except FindingError Exploitation :=
  let kept := cves.foldl (fun kept cve => if isCveShaped cve ∧ cve ∉ kept then kept ++ [cve] else kept) []
  if kept.isEmpty then .error .noExploitedCve else .ok ⟨by_, kept⟩

def Exploitation.WellFormed (exploitation : Exploitation) : Prop :=
  new exploitation.by_ exploitation.cves = .ok exploitation

theorem Exploitation.wellFormed_of_new {by_ : DetectionId} {cves : List Text} {exploitation : Exploitation}
    (h : new by_ cves = .ok exploitation) : exploitation.WellFormed := by
  let keep : List Text → Text → List Text :=
    fun kept cve => if isCveShaped cve ∧ cve ∉ kept then kept ++ [cve] else kept
  have hkept : (∀ cve ∈ cves.foldl keep [], isCveShaped cve = true) ∧ (cves.foldl keep []).Nodup := by
    refine List.foldlRecOn (motive := fun kept => (∀ cve ∈ kept, isCveShaped cve = true) ∧ kept.Nodup) cves keep
      ⟨by simp, nodup_nil⟩ fun kept hkept cve _ => ?_
    by_cases hnew : isCveShaped cve ∧ cve ∉ kept
    · rw [show keep kept cve = kept ++ [cve] from if_pos hnew, forall_mem_append, forall_mem_singleton]
      exact ⟨⟨hkept.1, hnew.1⟩, hkept.2.append (nodup_singleton _) (by simpa using hnew.2)⟩
    · rwa [show keep kept cve = kept from if_neg hnew]
  -- what was kept is kept again, in its order
  have hagain : (cves.foldl keep []).foldl keep [] = cves.foldl keep [] :=
    view_foldl_concat (R := (· ≠ ·)) id keep
      (fun kept cve hcve hnew => if_pos ⟨hkept.1 cve hcve, fun hmem => hnew cve hmem rfl⟩) hkept.2
  have hnew : ∀ cves, new by_ cves =
      if (cves.foldl keep []).isEmpty then .error .noExploitedCve else .ok ⟨by_, cves.foldl keep []⟩ := fun _ => rfl
  rw [hnew] at h
  split at h
  · cases h
  next hsome =>
    obtain rfl := Except.ok.inj h
    rw [WellFormed, hnew, hagain, if_neg hsome]

structure Finding.WellFormed (finding : Finding) : Prop where
  references_nodup : finding.references.Nodup
  exploitation_ok : ∀ exploitation ∈ finding.exploitation, exploitation.WellFormed
  group_ok : ∀ group ∈ finding.group, group.WellFormed

theorem Finding.wellFormed_of_new {detection : DetectionId} {title : Text} {severity : Severity}
    {confidence : Confidence} {class_ : DetectionClass} {finding : Finding}
    (h : Finding.new detection title severity confidence class_ = .ok finding) : finding.WellFormed := by
  unfold Finding.new at h
  split at h
  · cases h
  · obtain rfl := Except.ok.inj h
    exact ⟨nodup_nil, by simp, by simp⟩

namespace Finding.WellFormed

variable {finding : Finding} (h : finding.WellFormed)

include h

theorem withReference (reference : Reference) : (finding.withReference reference).WellFormed := by
  unfold Finding.withReference
  split
  · exact h
  next hnew => exact { h with references_nodup := h.references_nodup.append (nodup_singleton _) (by simpa using hnew) }

theorem withExploitation {exploitation : Exploitation} (hok : exploitation.WellFormed) :
    (finding.withExploitation exploitation).WellFormed :=
  { h with exploitation_ok := fun _ hmem => Option.some.inj hmem ▸ hok }

theorem withGroup {group : FindingGroup} (hok : group.WellFormed) : (finding.withGroup group).WellFormed :=
  { h with group_ok := fun _ hmem => Option.some.inj hmem ▸ hok }

end Finding.WellFormed

theorem Finding.nodup_foldl_cite {references added : List Reference} (h : references.Nodup) :
    (added.foldl cite references).Nodup := by
  obtain ⟨more, heq, hnodup, hapart⟩ := exists_foldl_cite added references
  rw [heq]
  exact h.append hnodup fun reference hheld hmore => hapart reference hmore hheld

theorem Finding.WellFormed.corroborate {finding other : Finding} (h : finding.WellFormed) (hother : other.WellFormed) :
    (finding.corroborate other).1.WellFormed := by
  have hweigh : (weigh finding other finding.grounds).references.Nodup ∧
      ∀ exploitation ∈ (weigh finding other finding.grounds).exploitation, exploitation.WellFormed := by
    unfold weigh
    split
    · split
      · exact ⟨hother.references_nodup, hother.exploitation_ok⟩
      · exact ⟨h.references_nodup, h.exploitation_ok⟩
    · exact ⟨nodup_foldl_cite h.references_nodup, forall_mem_or h.exploitation_ok hother.exploitation_ok⟩
  rw [corroborate_eq]
  refine ⟨hweigh.1, hweigh.2, ?_⟩
  show ∀ group ∈ (if finding.detection.version ≤ other.detection.version then other.group.or finding.group
    else finding.group), group.WellFormed
  split
  · exact forall_mem_or hother.group_ok h.group_ok
  · exact h.group_ok

structure Findings.WellFormed (findings : SortedMap ClaimId Finding) : Prop extends Filed findings where
  each : ∀ claim finding, findings.get? claim = some finding → finding.WellFormed

theorem Findings.WellFormed.empty : Findings.WellFormed SortedMap.empty where
  toFiled := Filed.empty
  each claim finding h := by
    exact absurd h (some_ne_none finding).symm

variable {findings : SortedMap ClaimId Finding}

theorem Findings.WellFormed.retain (h : WellFormed findings)
    (p : ClaimId → Finding → Bool) : WellFormed (findings.retain p) where
  toFiled := h.toFiled.retain p
  each claim finding hget := h.each claim finding (get?_of_get?_retain hget)

theorem Findings.WellFormed.addFinding (h : WellFormed findings)
    {finding : Finding} (hfinding : finding.WellFormed) : WellFormed (Zond.addFinding findings finding).1 where
  toFiled := h.toFiled.addFinding finding
  each := forall_addFinding h.each hfinding fun _ hget => (h.each _ _ hget).corroborate hfinding

theorem Findings.WellFormed.foldl (h : WellFormed findings)
    {added : List Finding} (hadded : ∀ finding ∈ added, finding.WellFormed) :
    WellFormed (added.foldl (fun held finding => (Zond.addFinding held finding).1) findings) :=
  List.foldlRecOn (motive := WellFormed) added _ h fun _ hs finding hmem => hs.addFinding (hadded finding hmem)

theorem Findings.WellFormed.mem (h : WellFormed findings) : ∀ finding ∈ findings.values, finding.WellFormed := by
  intro finding hmem
  obtain ⟨entry, hentry, rfl⟩ := mem_map.mp hmem
  exact h.each entry.1 entry.2 (get?_eq_some_iff.mpr hentry)

/-! ## Ports -/

structure Port.WellFormed (port : Port) : Prop where
  service_ok : ∀ service ∈ port.service, service.WellFormed
  security_ok : ∀ security ∈ port.security, security.WellFormed
  findings_ok : Findings.WellFormed port.findings

theorem Port.wellFormed_new (number : UInt16) (protocol : Port.Protocol) (state : PortState) :
    (Port.new number protocol state).WellFormed :=
  ⟨nofun, nofun, .empty⟩

theorem Port.WellFormed.addFindings {port : Port} (h : port.WellFormed) {added : List Finding}
    (hadded : ∀ finding ∈ added, finding.WellFormed) : (added.foldl Port.addFinding port).WellFormed := by
  rw [Port.foldl_addFinding]
  exact ⟨h.service_ok, h.security_ok, h.findings_ok.foldl hadded⟩

theorem Port.WellFormed.merge {port other : Port} (h : port.WellFormed) (hother : other.WellFormed) :
    (port.merge other).WellFormed := by
  unfold Port.merge
  refine Port.WellFormed.addFindings ⟨?_, ?_, ?_⟩ hother.findings_ok.mem
  · exact forall_mem_merge (fun _ _ ha _ => ha.merge) h.service_ok hother.service_ok
  · exact forall_mem_merge (fun _ _ ha hb => ha.merge hb) h.security_ok hother.security_ok
  · exact h.findings_ok

/-! ## Hops -/

def Hop.WellFormed (hop : Hop) : Prop := hop.rtt.isSome → hop.inferred = false ∧ ∃ address, hop.answer = .router address

theorem Hop.WellFormed.withhold {hop : Hop} (h : hop.WellFormed) (keep : Ip.IpAddr → Bool) :
    (hop.withhold keep).WellFormed := by
  unfold Hop.withhold
  split
  · split
    · exact h
    · exact fun hsome => absurd hsome Bool.false_ne_true
  · exact h

theorem NetworkPath.forall_mem_foldl_record {P : Hop → Prop} {path : NetworkPath} (hpath : ∀ hop ∈ path.hops, P hop)
    {hops : List Hop} (hhops : ∀ hop ∈ hops, P hop) : ∀ hop ∈ (hops.foldl record path).hops, P hop :=
  List.foldlRecOn (motive := fun s : NetworkPath => ∀ hop ∈ s.hops, P hop) hops record hpath
    fun _ hs added hadded hop hmem =>
    (mem_place hmem).elim (fun heq => heq ▸ hhops added hadded) (hs hop)

/-! ## Round trips -/

structure HostTelemetry.Windowed (t : HostTelemetry) : Prop where
  window_eq : t.maxSamples = DEFAULT_RTT_SAMPLES
  len_le : t.rttHistory.length ≤ DEFAULT_RTT_SAMPLES

namespace HostTelemetry

theorem length_lastOf_le (bound : Nat) (samples : List RttSample) : (lastOf bound samples).length ≤ bound := by
  unfold lastOf
  rw [length_drop]
  omega

theorem Windowed.push {t : HostTelemetry} (h : t.Windowed) (sample : RttSample) : (t.push sample).Windowed := by
  unfold HostTelemetry.push
  split
  · exact h
  · exact ⟨h.window_eq, h.window_eq ▸ length_lastOf_le _ _⟩

theorem Windowed.merge {t other : HostTelemetry} (h : t.Windowed) (hother : other.Windowed) :
    (t.merge other).Windowed := by
  have hwindow : max t.maxSamples other.maxSamples = DEFAULT_RTT_SAMPLES := by
    rw [h.window_eq, hother.window_eq, max_self]
  unfold HostTelemetry.merge
  rw [hwindow]
  exact ⟨rfl, length_lastOf_le _ _⟩

theorem Windowed.takeWindow {t later : HostTelemetry} (h : t.Windowed) (hlater : later.Windowed) :
    (t.takeWindow later).Windowed := by
  have hwindow : max t.maxSamples later.maxSamples = DEFAULT_RTT_SAMPLES := by
    rw [h.window_eq, hlater.window_eq, max_self]
  unfold HostTelemetry.takeWindow
  split
  · exact h
  · rw [hwindow]
    exact ⟨rfl, length_lastOf_le _ _⟩

end HostTelemetry

namespace Host

/-! ## Runs of admissions and readings -/

variable {names : SortedSet HostName}

theorem len_admitted_le (h : names.len ≤ MAX_NAMES) (name : HostName) : (admitted names name).len ≤ MAX_NAMES := by
  unfold admitted
  split
  · exact h
  next hroom =>
    unfold SortedSet.add
    rw [len_insert]
    split
    · exact h
    next hnew =>
      by_contra hfull
      exact hroom ⟨by omega, by simpa [SortedMap.contains] using hnew⟩

theorem mem_admitted {name other : HostName} (h : other ∈ (admitted names name).keys) :
    other = name ∨ other ∈ names.keys := by
  unfold admitted at h
  split at h
  · exact .inr h
  · exact (SortedSet.contains_add.mp (SortedMap.contains_iff.mpr h)).imp_right SortedMap.contains_iff.mp

def NamesValid (names : SortedSet HostName) : Prop :=
  names.len ≤ MAX_NAMES ∧ ∀ name ∈ names.keys, name.WellFormed

theorem NamesValid.foldl_admitted (h : NamesValid names) {added : List HostName}
    (hadded : ∀ name ∈ added, name.WellFormed) : NamesValid (added.foldl admitted names) :=
  List.foldlRecOn (motive := NamesValid) added admitted h fun _ hs name hname =>
    ⟨len_admitted_le hs.1 name, fun other hother =>
      (mem_admitted hother).elim (fun heq => heq ▸ hadded name hname) (hs.2 other)⟩

theorem NamesValid.foldl_keys (h : NamesValid names) : names.keys.foldl admitted SortedMap.empty = names :=
  SortedSet.foldl_keys names fun _ _ _ _ hroom => if_neg fun hfull => absurd hfull.1 (not_le.mpr (hroom.trans_le h.1))

def ReadingsValid (readings : SortedMap OsClaim OsEvidence) : Prop :=
  readings.len ≤ MAX_OS_EVIDENCE ∧ ∀ claim evidence, readings.get? claim = some evidence → evidence.claim = claim

variable {readings : SortedMap OsClaim OsEvidence}

theorem ReadingsValid.recordReading (h : ReadingsValid readings)
    (evidence : OsEvidence) : ReadingsValid (Host.recordReading readings evidence) := by
  unfold Host.recordReading
  cases hget : readings.get? evidence.claim with
  | some existing =>
    refine ⟨?_, forall_get?_insert h.2 (h.2 evidence.claim existing hget)⟩
    rw [len_insert, hget]
    exact h.1
  | none =>
    dsimp only
    split
    · exact h
    next hroom =>
      refine ⟨?_, forall_get?_insert h.2 rfl⟩
      rw [len_insert, hget]
      exact not_le.mp hroom

theorem ReadingsValid.foldl (h : ReadingsValid readings)
    (added : List OsEvidence) : ReadingsValid (added.foldl Host.recordReading readings) :=
  List.foldlRecOn (motive := ReadingsValid) added Host.recordReading h fun _ hs evidence _ => hs.recordReading evidence

theorem ReadingsValid.foldl_values (h : ReadingsValid readings) :
    readings.values.foldl Host.recordReading SortedMap.empty = readings := by
  refine SortedMap.foldl_values readings h.2 fun held evidence _ hnew hroom => ?_
  unfold Host.recordReading
  rw [hnew]
  exact if_neg (not_le.mpr (hroom.trans_le h.1))

def PortsValid (s : PortsState) : Prop :=
  (∀ endpoint port, s.1.get? endpoint = some port → port.WellFormed) ∧ (TARPIT_OPEN_PORTS ≤ s.2.1 → .tarpit ∈ s.2.2)

variable {s : PortsState}

theorem PortsValid.filePort (h : PortsValid s) {port : Port} (hport : port.WellFormed) :
    PortsValid (Host.filePort s port) := by
  have hrecorded : ((s.1.get? port.endpoint).elim port fun held => held.merge port).WellFormed := by
    cases hget : s.1.get? port.endpoint with
    | none => exact hport
    | some existing => exact (h.1 _ _ hget).merge hport
  constructor
  · exact forall_get?_insert h.1 hrecorded
  · unfold Host.filePort
    dsimp only
    generalize (!((s.1.get? port.endpoint).any fun held => held.state == .open) &&
      ((s.1.get? port.endpoint).elim port fun held => held.merge port).state == .open) = opened
    cases opened with
    | false => exact h.2
    | true =>
      intro henough
      have henough : TARPIT_OPEN_PORTS ≤ s.2.1 + 1 := henough
      simp [henough]

theorem PortsValid.foldl_filePort (h : PortsValid s) {ports : List Port}
    (hports : ∀ port ∈ ports, port.WellFormed) : PortsValid (ports.foldl Host.filePort s) :=
  List.foldlRecOn (motive := PortsValid) ports Host.filePort h fun _ hs port hport => hs.filePort (hports port hport)

theorem roles_foldl_filePort (ports : List Port) (s : PortsState) : s.2.1 ≤ (ports.foldl Host.filePort s).2.1 ∧
    ((ports.foldl Host.filePort s).2.2 = s.2.2 ∨ TARPIT_OPEN_PORTS ≤ (ports.foldl Host.filePort s).2.1 ∧
        (ports.foldl Host.filePort s).2.2 = insert .tarpit s.2.2) := by
  refine List.foldlRecOn (motive := fun t : PortsState => s.2.1 ≤ t.2.1 ∧
    (t.2.2 = s.2.2 ∨ TARPIT_OPEN_PORTS ≤ t.2.1 ∧ t.2.2 = insert .tarpit s.2.2)) ports _ ⟨le_rfl, .inl rfl⟩ ?_
  rintro t ⟨hcount, hroles⟩ port _
  unfold Host.filePort
  dsimp only
  generalize (!((t.1.get? port.endpoint).any fun held => held.state == .open) &&
    ((t.1.get? port.endpoint).elim port fun held => held.merge port).state == .open) = opened
  cases opened with
  | false => exact ⟨hcount, hroles⟩
  | true =>
    refine ⟨hcount.trans (Nat.le_succ _), ?_⟩
    by_cases henough : TARPIT_OPEN_PORTS ≤ t.2.1 + 1
    · rcases hroles with hroles | ⟨_, hroles⟩ <;> simp [henough, hroles]
    · have hfew : ¬TARPIT_OPEN_PORTS ≤ t.2.1 := fun hle => henough (hle.trans (Nat.le_succ _))
      simpa [henough] using hroles.resolve_right fun h => hfew h.1

theorem fst_foldl_filePort {ports : SortedMap Endpoint Port}
    (hfiled : ∀ endpoint port, ports.get? endpoint = some port → port.endpoint = endpoint)
    (roles : Finset NetworkRole) :
    (ports.values.foldl Host.filePort (SortedMap.empty, 0, roles)).1 = ports := by
  have hfst : ∀ (added : List Port) (s : PortsState), (added.foldl Host.filePort s).1 =
      added.foldl (fun held port =>
        held.insert port.endpoint ((held.get? port.endpoint).elim port fun known => known.merge port)) s.1 := by
    intro added
    induction added with
    | nil => exact fun s => rfl
    | cons port rest ih => exact fun s => ih (Host.filePort s port)
  rw [hfst]
  refine ports.foldl_values hfiled fun held port _ hnew _ => ?_
  rw [hnew]
  rfl

theorem foldl_filePort_of_sameStates {h : Host} (hb : Bounded h) (hv : PortsValid h.portsState) {added : List Port}
    {f : Port → Port} (hstate : ∀ port ∈ h.ports.values, (f port).state = port.state)
    (hports : (added.foldl Host.filePort (SortedMap.empty, 0, h.networkRoles)).1 = h.ports.mapValues f) :
    added.foldl Host.filePort (SortedMap.empty, 0, h.networkRoles) =
      (h.ports.mapValues f, h.openPorts, h.networkRoles) := by
  have hcounted : Counted (added.foldl Host.filePort (SortedMap.empty, 0, h.networkRoles)) := by
    refine Counted.foldl_filePort ⟨Nat.zero_le _, fun endpoint port hget => ?_, rfl⟩ _
    exact absurd hget (some_ne_none port).symm
  have hroles := (roles_foldl_filePort added (SortedMap.empty, 0, h.networkRoles)).2
  generalize added.foldl Host.filePort (SortedMap.empty, 0, h.networkRoles) = s at hports hcounted hroles ⊢
  have hopen : s.2.1 = h.openPorts := by
    rw [hcounted.open_eq, hports, show h.openPorts = countOpen h.ports from hb.open_eq]
    unfold countOpen
    rw [values_mapValues, countP_map]
    exact countP_congr fun port hport => by simp only [Function.comp_apply, hstate port hport]
  refine Prod.ext hports (Prod.ext hopen ?_)
  rcases hroles with hroles | ⟨henough, hroles⟩
  · exact hroles
  · -- With so many open ports the record is marked a tarpit already.
    exact hroles.trans (Finset.insert_eq_self.mpr (hv.2 (henough.trans_eq hopen)))

theorem PortsValid.retain (h : PortsValid s) (hs : Counted s) (keep : Endpoint → Port → Bool) :
    PortsValid (s.1.retain keep, countOpen (s.1.retain keep), s.2.2) := by
  have hfewer : countOpen (s.1.retain keep) ≤ s.2.1 := by
    rw [hs.open_eq]
    exact (filter_sublist.map Prod.snd).countP_le
  exact ⟨fun _ _ hget => h.1 _ _ (get?_of_get?_retain hget), fun henough => h.2 (henough.trans hfewer)⟩

theorem PortsValid.replace (h : PortsValid s) (endpoint : Endpoint) {replaced : Port}
    (hreplaced : replaced.WellFormed) : PortsValid (s.1.insert endpoint replaced, s.2) :=
  ⟨forall_get?_insert h.1 hreplaced, h.2⟩

/-! ## The record -/

/-- Everything a record holds is well formed, filed under its claim and within its ceiling. -/
structure Valid (h : Host) : Prop where
  names_ok : NamesValid h.names
  os_ok : ∀ os ∈ h.os, os.WellFormed
  readings_ok : ReadingsValid h.osEvidence
  findings_ok : Findings.WellFormed h.findings
  ports_ok : PortsValid h.portsState
  path_ok : ∀ hop ∈ h.path.hops, hop.WellFormed
  telemetry_ok : h.telemetry.Windowed

def Op.WellFormed : Op → Prop
  | .recordName name => name.WellFormed
  | .addFinding finding | .addPortFinding _ finding => finding.WellFormed
  | .replacePortCorrelations _ _ findings => ∀ finding ∈ findings, finding.WellFormed
  | .setOs os => os.WellFormed
  | .recordHop hop => hop.WellFormed
  | .addPort port => port.WellFormed
  | _ => True

section Calls

variable {h : Host}

theorem Valid.withholdPorts (hv : Valid h) (hb : Bounded h) (ports : Port.PortSet) : Valid (h.withholdPorts ports) := by
  have hleft := hv.ports_ok.retain hb.toCounted fun endpoint _ => !ports.contains endpoint.number endpoint.protocol
  unfold Host.withholdPorts
  split
  · exact hv
  · exact { hv with ports_ok := hleft }

theorem Valid.withOnlyPorts (hv : Valid h) (hb : Bounded h) (keys : SortedSet Endpoint) :
    Valid (h.withOnlyPorts keys) := by
  have hnamed := hv.ports_ok.retain hb.toCounted fun endpoint _ => keys.contains endpoint
  unfold Host.withOnlyPorts
  split
  · exact { hv with }
  · exact { hv with ports_ok := hnamed }

theorem Valid.addPortFinding (hv : Valid h) (endpoint : Endpoint) {finding : Finding} (hfinding : finding.WellFormed) :
    Valid (h.addPortFinding endpoint finding) := by
  unfold Host.addPortFinding
  split
  next port hget =>
    have hport := (hv.ports_ok.1 _ _ hget).addFindings fun other hother => mem_singleton.mp hother ▸ hfinding
    exact { hv with ports_ok := hv.ports_ok.replace endpoint hport }
  · exact hv

theorem Valid.replacePortCorrelations (hv : Valid h) (endpoint : Endpoint) (detection : Text) {findings : List Finding}
    (hfindings : ∀ finding ∈ findings, finding.WellFormed) :
    Valid (h.replacePortCorrelations endpoint detection findings) := by
  unfold Host.replacePortCorrelations
  split
  next port hget =>
    have hport := hv.ports_ok.1 _ _ hget
    have hleft : ({ port with findings := port.findings.retain fun _ finding => !(Port.drawnBy detection finding) } :
        Port).WellFormed := ⟨hport.service_ok, hport.security_ok, hport.findings_ok.retain fun _ finding =>
          !(Port.drawnBy detection finding)⟩
    have hreplaced := hv.ports_ok.replace endpoint (hleft.addFindings hfindings)
    dsimp only
    split
    · exact { hv with ports_ok := hreplaced }
    · exact { hv with ports_ok := hreplaced }
  · exact hv

theorem Valid.retainIps (hv : Valid h) (keep : Ip.IpAddr → Bool) : Valid (h.retainIps keep).1 := by
  unfold Host.retainIps
  split
  · exact hv
  · dsimp only
    split
    · exact hv
    · split
      · exact { hv with }
      · exact { hv with }

theorem Valid.addressed (hv : Valid h) {h' : Host} (heq : ∃ (primary : Ip.IpAddr) (held : SortedSet Ip.IpAddr)
    (seen : SystemTime) (hmem : held.contains primary = true),
    h' = { h with primaryIp := primary, ips := held, lastSeen := seen, primary_mem := hmem }) : Valid h' := by
  obtain ⟨_, _, _, _, rfl⟩ := heq
  exact { hv with }

theorem Valid.foldl_admitIp (hv : Valid h) (ips : List Ip.IpAddr) : Valid (ips.foldl Host.admitIp h) := by
  obtain ⟨held, hmem, heq⟩ := foldl_admitIp_eq ips h
  rw [heq]
  exact { hv with }

theorem Valid.foldl_addRtt (hv : Valid h) (p : Process) (rtts : List Duration) :
    (rtts.foldl (HostTelemetry.addRtt p) h.telemetry).Windowed :=
  List.foldlRecOn (motive := HostTelemetry.Windowed) rtts _ hv.telemetry_ok fun _ hs _ _ => hs.push _

/-- **One call with well-formed parts keeps a record well formed.** -/
theorem Valid.apply (hv : Valid h) (hb : Bounded h) (p : Process) {op : Op} (hop : op.WellFormed) :
    Valid (h.apply p op) := by
  cases op with
  | extendIps ips => exact { hv.foldl_admitIp ips with }
  | adoptIps ips => exact hv.foldl_admitIp ips.keys
  | considerPrimaryIp candidate => exact hv.addressed (considerPrimaryIp_eq p h candidate)
  | retainIps keep => exact hv.retainIps keep
  | withholdIntermediaries keep =>
    refine { hv with path_ok := fun hop hmem => ?_ }
    obtain ⟨known, hknown, rfl⟩ := mem_map.mp hmem
    exact (hv.path_ok known hknown).withhold keep
  | withholdPorts ports => exact hv.withholdPorts hb ports
  | recordName name =>
    show Valid (h.recordName p name)
    rw [recordName_eq]
    exact { hv with
      names_ok := hv.names_ok.foldl_admitted fun other hother => mem_singleton.mp hother ▸ hop }
  | setAsideNamesOf account =>
    obtain ⟨aside, heq⟩ := setAsideNamesOf_eq h account
    show Valid (h.setAsideNamesOf account)
    rw [heq]
    exact { hv with }
  | recordOsEvidence evidence =>
    show Valid (h.recordOsEvidence evidence)
    rw [recordOsEvidence_eq]
    exact { hv with readings_ok := hv.readings_ok.recordReading evidence }
  | addFinding finding => exact { hv with findings_ok := hv.findings_ok.addFinding hop }
  | addPortFinding endpoint finding => exact hv.addPortFinding endpoint hop
  | replacePortCorrelations endpoint detection findings => exact hv.replacePortCorrelations endpoint detection hop
  | setOs os => exact { hv with os_ok := fun other hother => Option.some.inj hother ▸ hop }
  | clearOs => exact { hv with os_ok := fun other hother => absurd hother (not_mem_none other) }
  | addRtt rtt => exact { hv with telemetry_ok := hv.telemetry_ok.push _ }
  | addRttFrom rtt protocol => exact { hv with telemetry_ok := hv.telemetry_ok.push _ }
  | addSegmentWideRtt rtt => exact { hv with telemetry_ok := hv.telemetry_ok.push _ }
  | addSegmentWideRttFrom rtt protocol => exact { hv with telemetry_ok := hv.telemetry_ok.push _ }
  | addFirstToNeighbourRttFrom rtt protocol => exact { hv with telemetry_ok := hv.telemetry_ok.push _ }
  | restoreRtt rtt source protocol => exact { hv with telemetry_ok := hv.telemetry_ok.push _ }
  | addRtts rtts => exact { hv with telemetry_ok := hv.foldl_addRtt p rtts }
  | recordHopCounter arrived => exact { hv with telemetry_ok := ⟨hv.telemetry_ok.window_eq, hv.telemetry_ok.len_le⟩ }
  | recordHop hop' =>
    exact { hv with
      path_ok := NetworkPath.forall_mem_foldl_record hv.path_ok fun other hother => mem_singleton.mp hother ▸ hop }
  | addNetworkRole role =>
    exact { hv with ports_ok := ⟨hv.ports_ok.1, fun henough => Finset.mem_insert_of_mem (hv.ports_ok.2 henough)⟩ }
  | addPort port =>
    show Valid (h.addPort p port)
    rw [addPort_eq]
    exact { hv with ports_ok := hv.ports_ok.filePort hop }
  | withOnlyPorts keys => exact hv.withOnlyPorts hb keys
  -- Every other call writes none of these fields.
  | _ => exact { hv with }

/-- **Folding two well-formed records makes one.** -/
theorem Valid.merge (hv : Valid h) {other : Host} (hother : Valid other) (p : Process) : Valid (h.merge p other) := by
  have hports : PortsValid (h.ports, h.openPorts, h.networkRoles ∪ other.networkRoles) :=
    ⟨hv.ports_ok.1, fun henough => Finset.mem_union_left _ (hv.ports_ok.2 henough)⟩
  have hvalues : ∀ port ∈ other.ports.values, port.WellFormed := by
    intro port hport
    obtain ⟨entry, hentry, rfl⟩ := mem_map.mp hport
    exact hother.ports_ok.1 entry.1 entry.2 (get?_eq_some_iff.mpr hentry)
  obtain ⟨aside, touched, heq⟩ := merge_eq p h other
  rw [heq]
  exact {
    names_ok := hv.names_ok.foldl_admitted hother.names_ok.2
    os_ok := forall_mem_merge (fun _ _ ha hb => ha.merge hb) hv.os_ok hother.os_ok
    readings_ok := hv.readings_ok.foldl other.osEvidence.values
    findings_ok := hv.findings_ok.foldl hother.findings_ok.mem
    ports_ok := hports.foldl_filePort hvalues
    path_ok := NetworkPath.forall_mem_foldl_record hv.path_ok hother.path_ok
    telemetry_ok := hv.telemetry_ok.merge hother.telemetry_ok }

theorem valid_new (p : Process) (ip : Ip.IpAddr) : Valid (Host.new p ip) where
  names_ok := ⟨Nat.zero_le _, fun _ hname => absurd hname not_mem_nil⟩
  os_ok := fun os hos => absurd hos (not_mem_none os)
  readings_ok := ⟨Nat.zero_le _, fun claim evidence hget => by
    rw [show (Host.new p ip).osEvidence = SortedMap.empty from rfl, get?_empty] at hget
    exact absurd hget (some_ne_none evidence).symm⟩
  findings_ok := Findings.WellFormed.empty
  ports_ok := ⟨fun endpoint port hget => by
    rw [show (Host.new p ip).portsState.1 = SortedMap.empty from rfl, get?_empty] at hget
    exact absurd hget (some_ne_none port).symm, fun henough => absurd henough (show ¬TARPIT_OPEN_PORTS ≤ 0 by decide)⟩
  path_ok := fun _ hhop => absurd hhop not_mem_nil
  telemetry_ok := ⟨rfl, Nat.zero_le _⟩

/-- **A record built from well-formed parts is well formed.** -/
theorem Built.valid (hb : Built Op.WellFormed h) : Valid h := by
  induction hb with
  | new p ip => exact valid_new p ip
  | call p op hbuilt hop ih => exact ih.apply hbuilt.bounded p hop
  | merge p _ _ ih ih' => exact ih.merge ih' p
  | mergeLaterAccount p _ _ ih ih' =>
    have hmerged := ih.merge ih' p
    exact { hmerged with telemetry_ok := hmerged.telemetry_ok.takeWindow ih'.telemetry_ok }

end Calls

end Host

end Zond
