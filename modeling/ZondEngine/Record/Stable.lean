import ZondEngine.Record.Host

/-!
# Writing a host down and reading it back

A record read as a host and written down again is the record it was, but for four things (`HostRecord.of_rebuild_of`),
so a host is written the same however often it is read back exactly where it is `Settled` (`HostRecord.sittings_iff`).
-/

namespace Zond

open List SortedMap

open Ip (IpAddr)

/-! ## Round trips -/

namespace HostTelemetry

theorem foldl_push : ∀ {samples : List RttSample} {t : HostTelemetry},
    t.rttHistory.length + samples.length ≤ t.maxSamples →
    samples.foldl push t = { t with rttHistory := t.rttHistory ++ samples }
  | [], t, _ => by rw [append_nil]; rfl
  | sample :: rest, t, hroom => by
    rw [length_cons] at hroom
    have hone : t.push sample = { t with rttHistory := t.rttHistory ++ [sample] } := by
      unfold push lastOf
      rw [if_neg (by omega), length_append, length_singleton,
        show t.rttHistory.length + 1 - t.maxSamples = 0 by omega, drop_zero]
    rw [foldl_cons, hone, foldl_push]
    · rw [append_assoc]
      rfl
    · rw [length_append, length_singleton]
      show t.rttHistory.length + 1 + rest.length ≤ t.maxSamples
      omega

theorem rttProtocol_of_map {t t' : HostTelemetry} {restamp : RttSample → RttSample}
    (hhistory : t'.rttHistory = t.rttHistory.map restamp)
    (hrestamp : ∀ sample, (restamp sample).protocol = t.rttProtocol) : t'.rttProtocol = t.rttProtocol := by
  have hnamed : t'.rttHistory.filterMap RttSample.protocol = t.rttHistory.filterMap fun _ => t.rttProtocol := by
    rw [hhistory, filterMap_map]
    exact filterMap_congr fun sample _ => hrestamp sample
  have hagreed : ∀ named : Option StatusProtocol, t.rttProtocol = named → t'.rttProtocol = named := by
    intro named hprotocol
    rw [hprotocol] at hnamed
    unfold rttProtocol
    cases named with
    | none =>
      rw [hnamed, filterMap_none]
    | some protocol =>
      rw [hnamed]
      cases hheld : t.rttHistory with
      | nil =>
        unfold rttProtocol at hprotocol
        rw [hheld] at hprotocol
        exact absurd hprotocol nofun
      | cons sample rest => simp
  exact hagreed _ rfl

end HostTelemetry

theorem TelemetryRecord.of_replayed (p : Process) {t : HostTelemetry} (h : t.Windowed)
    (hnamed : ∀ sample ∈ t.rttHistory, sample.protocol ≠ some (.custom [])) :
    of ((of t).replayed p (.new DEFAULT_RTT_SAMPLES)) = of t := by
  have hprotocol : (of t).rttProtocol.bind Wire.statusProtocol = t.rttProtocol := by
    cases hagreed : t.rttProtocol with
    | none => simp [of, hagreed]
    | some protocol =>
      have hsaid : protocol ∈ t.rttHistory.filterMap RttSample.protocol := by
        unfold HostTelemetry.rttProtocol at hagreed
        split at hagreed
        · exact absurd hagreed nofun
        next first rest heq =>
          split at hagreed
          · rw [heq, ← Option.some.inj hagreed]
            exact mem_cons_self
          · exact absurd hagreed nofun
      obtain ⟨sample, hsample, hstates⟩ := mem_filterMap.mp hsaid
      have hname : protocol ≠ .custom [] := fun heq => hnamed sample hsample (heq ▸ hstates)
      simp [of, hagreed, Wire.statusProtocol_name hname]
  have hsource : ∀ (index : Nat) (sample : RttSample), t.rttHistory[index]? = some sample →
      (of t).sourceAt index = sample.source := by
    intro index sample hget
    unfold sourceAt of
    dsimp only
    split
    next hdirect =>
      have hsame := all_eq_true.mp hdirect sample (mem_of_getElem? hget)
      exact (beq_iff_eq.mp hsame).symm
    · rw [getElem?_map, hget, Option.map_some, Option.elim_some, Wire.rttSource.parse_name]
      rfl
  have hsamples : (of t).samples p =
      t.rttHistory.map fun sample => ⟨p.instant, sample.rtt, sample.source, t.rttProtocol⟩ := by
    refine ext_getElem? fun index => ?_
    unfold samples
    rw [hprotocol, getElem?_map, getElem?_zipIdx, getElem?_map,
      show (of t).rtts = t.rttHistory.map RttSample.rtt from rfl, getElem?_map]
    cases hget : t.rttHistory[index]? with
    | none => rfl
    | some sample => simp [hsource index sample hget]
  have hroom : (HostTelemetry.new DEFAULT_RTT_SAMPLES).rttHistory.length + ((of t).samples p).length ≤
      (HostTelemetry.new DEFAULT_RTT_SAMPLES).maxSamples := by
    rw [hsamples, length_map]
    exact (Nat.zero_add _).trans_le h.len_le
  have hreplayed : (of t).replayed p (.new DEFAULT_RTT_SAMPLES) =
      { HostTelemetry.new DEFAULT_RTT_SAMPLES with
        rttHistory := t.rttHistory.map fun sample => ⟨p.instant, sample.rtt, sample.source, t.rttProtocol⟩
        hopCounter := t.hopCounter } := by
    unfold replayed
    rw [HostTelemetry.foldl_push hroom, hsamples]
    show t.hopCounter.elim _ _ = _
    cases t.hopCounter <;> rfl
  have hagreed : ((of t).replayed p (.new DEFAULT_RTT_SAMPLES)).rttProtocol = t.rttProtocol :=
    HostTelemetry.rttProtocol_of_map (congrArg HostTelemetry.rttHistory hreplayed) fun _ => rfl
  rw [hreplayed] at hagreed ⊢
  unfold of
  rw [hagreed]
  simp [Function.comp_def]

/-! ## The record -/

namespace Host

structure ProtocolsNamed (h : Host) : Prop where
  reasons_ok : ∀ reason ∈ h.reasons, reason.protocol ≠ .custom []
  rtts_ok : ∀ sample ∈ h.telemetry.rttHistory, sample.protocol ≠ some (.custom [])

structure Settled (h : Host) : Prop where
  seen_le : h.firstSeen ≤ h.lastSeen
  ports_ok : ∀ port ∈ h.ports.values, port.Settled
  findings_ok : ∀ finding ∈ h.findings.values, finding.Settled

end Host

theorem filterMap_rebuild_map {α β : Type} {of : α → β} {rebuild : β → Option α} {written : List α}
    (h : ∀ a ∈ written, rebuild (of a) = some a) : (written.map of).filterMap rebuild = written := by
  rw [filterMap_map]
  exact (filterMap_congr h).trans filterMap_some

theorem toFinset_filterMap_sort {α β : Type} [DecidableEq α] [LinearOrder β] {of : α → β} {rebuild : β → Option α}
    {written : Finset α} (h : ∀ a ∈ written, rebuild (of a) = some a) :
    ((written.val.map of).sort.filterMap rebuild).toFinset = written := by
  ext a
  simp only [mem_toFinset, mem_filterMap, Multiset.mem_sort, Multiset.mem_map, Finset.mem_val]
  constructor
  · rintro ⟨_, ⟨held, hheld, rfl⟩, hread⟩
    rw [h held hheld] at hread
    exact Option.some.inj hread ▸ hheld
  · exact fun ha => ⟨of a, ⟨a, ha, rfl⟩, h a ha⟩

namespace HostRecord

variable (t : Oui) (p : Process) {h : Host}

theorem ips_foldl_admitIp (hb : Host.Bounded h) :
    (h.ips.keys.foldl Host.admitIp (Host.new p h.primaryIp)).ips = h.ips := by
  have hall : (Host.new p h.primaryIp).addresses ∪ h.ips.keys.toFinset = h.addresses := by
    exact Finset.union_eq_right.mpr (Finset.singleton_subset_iff.mpr h.primaryIp_mem_addresses)
  have hroom : ((Host.new p h.primaryIp).addresses ∪ h.ips.keys.toFinset).card ≤ MAX_IPS := by
    rw [hall, Host.card_addresses]
    exact hb.ips_le
  exact Host.ips_eq_of_addresses ((Host.addresses_foldl_admitIp hroom).trans hall)

theorem filedPorts_of (hb : Host.Bounded h) (hv : Host.Valid h) :
    (of t h).filedPorts ((of t h).ports.filterMap PortRecord.rebuild) =
      (h.ports.mapValues Port.again, h.openPorts, h.networkRoles) := by
  have hread : (of t h).ports.filterMap PortRecord.rebuild = (h.ports.mapValues Port.again).values := by
    show (h.ports.values.map PortRecord.of).filterMap PortRecord.rebuild = _
    rw [values_mapValues, filterMap_map, ← filterMap_eq_map]
    refine filterMap_congr fun port hport => ?_
    obtain ⟨endpoint, hget⟩ := mem_values.mp hport
    exact PortRecord.rebuild_of (hv.ports_ok.1 endpoint port hget)
  have hroles : ((of t h).roles.filterMap Wire.networkRole.parse).toFinset = h.networkRoles :=
    toFinset_filterMap_sort fun role _ => Wire.networkRole.parse_name role
  have hfiled : ∀ endpoint port, (h.ports.mapValues Port.again).get? endpoint = some port →
      port.endpoint = endpoint := by
    intro endpoint port hget
    rw [get?_mapValues] at hget
    obtain ⟨held, hheld, rfl⟩ := Option.map_eq_some_iff.mp hget
    exact hb.filed endpoint held hheld
  unfold filedPorts
  rw [hread, hroles]
  exact Host.foldl_filePort_of_sameStates hb hv.ports_ok (fun port _ => rfl)
    (Host.fst_foldl_filePort hfiled h.networkRoles)

/-- **What writing, reading and writing again makes of a host.** -/
theorem of_rebuild_of (hb : Host.Bounded h) (hv : Host.Valid h) (hhardware : h.hardware = none)
    (hnamed : h.ProtocolsNamed) : of t ((of t h).rebuild t p) =
      { of t h with
        firstSeen := min h.firstSeen h.lastSeen
        lastSeen := max h.firstSeen h.lastSeen
        ports := h.ports.values.map fun port => PortRecord.of port.again
        findings := (Findings.again h.findings).values.map FindingRecord.of } := by
  have hnames : ((of t h).names.filterMap NameRecord.rebuild).foldl Host.admitted SortedMap.empty = h.names := by
    rw [show (of t h).names = h.names.keys.map NameRecord.of from rfl,
      filterMap_rebuild_map fun name hname => NameRecord.rebuild_of (hv.names_ok.2 name hname)]
    exact hv.names_ok.foldl_keys
  have hreasons : ((of t h).reasons.map StatusReasonRecord.rebuild).toFinset = h.reasons := by
    rw [← filterMap_eq_map]
    exact toFinset_filterMap_sort fun reason hreason =>
      congrArg some (StatusReasonRecord.rebuild_of (hnamed.reasons_ok reason hreason))
  have hos : (of t h).os.map OsRecord.rebuild = h.os := by
    show (h.os.map OsRecord.of).map OsRecord.rebuild = h.os
    cases hheld : h.os with
    | none => rfl
    | some os => exact congrArg some (OsRecord.rebuild_of (hv.os_ok os hheld))
  have hevidence : ((of t h).osEvidence.map OsEvidenceRecord.rebuild).foldl Host.recordReading SortedMap.empty =
      h.osEvidence := by
    show ((h.osEvidence.values.map OsEvidenceRecord.of).map OsEvidenceRecord.rebuild).foldl _ _ = _
    simp only [map_map, Function.comp_def, OsEvidenceRecord.rebuild_of, map_id']
    exact hv.readings_ok.foldl_values
  have hzone : (of t h).zone.map ZoneRecord.rebuild = h.zone := by
    show (h.zone.map ZoneRecord.of).map ZoneRecord.rebuild = h.zone
    cases h.zone with
    | none => rfl
    | some zone => exact congrArg some (ZoneRecord.rebuild_of zone)
  have hpath : ((of t h).path.map HopRecord.rebuild).foldl NetworkPath.record .new = h.path := by
    have hhops : (h.path.hops.map HopRecord.of).map HopRecord.rebuild = h.path.hops := by
      rw [map_map]
      exact (map_congr_left fun hop hhop => HopRecord.rebuild_of (hv.path_ok hop hhop)).trans (map_id _)
    rw [show (of t h).path = h.path.hops.map HopRecord.of from rfl, hhops]
    exact h.path.foldl_record_hops
  have hfiltering : ((of t h).filtering.filterMap Wire.filtering.parse).toFinset = h.filtering :=
    toFinset_filterMap_sort fun kind _ => Wire.filtering.parse_name kind
  have hasked : ((of t h).ipProtocols.map fun entry =>
      (entry.protocol, (Wire.ipProtocolState.parse entry.state).getD .unasked)).foldl Host.raised SortedMap.empty =
        h.ipProtocols := by
    show ((h.ipProtocols.entries.map fun entry => IpProtocolRecord.mk entry.1 _).map _).foldl _ _ = _
    simp only [map_map, Function.comp_def, Wire.Spelling.parse_name, Option.getD_some, Prod.mk.eta, map_id']
    refine h.ipProtocols.foldl_entries fun held entry _ hnew _ => ?_
    unfold Host.raised
    rw [hnew]
  have hfindings : ((of t h).findings.filterMap FindingRecord.rebuild).foldl
      (fun held finding => (addFinding held finding).1) SortedMap.empty = Findings.again h.findings := by
    rw [show (of t h).findings = h.findings.values.map FindingRecord.of from rfl, hv.findings_ok.filterMap_rebuild]
    rfl
  unfold rebuild
  rw [rebuildWith_eq, filedPorts_of t hb hv]
  simp only [hnames, hreasons, hos, hevidence, hzone, hpath, hfiltering, hasked, hfindings]
  unfold of
  simp only [Wire.Spelling.parse_name, Option.getD_some, values_mapValues, map_map, Function.comp_def]
  rw [hhardware, ips_foldl_admitIp p hb, Host.primaryIp_foldl_admitIp,
    TelemetryRecord.of_replayed p hv.telemetry_ok hnamed.rtts_ok]
  rfl

def sitting (record : HostRecord) (p : Process) : HostRecord := of t (record.rebuild t p)

/-- **A host is written the same however often it is read back exactly where it is settled.** -/
theorem sittings_iff (hbuilt : Host.Built Host.Op.WellFormed h) (hhardware : h.hardware = none)
    (hnamed : h.ProtocolsNamed) :
    (∀ clocks : List Process, clocks.foldl (sitting t) (of t h) = of t h) ↔ h.Settled := by
  have hb := hbuilt.bounded
  have hv := hbuilt.valid
  have hagain := fun p => of_rebuild_of t p hb hv hhardware hnamed
  have hports : h.ports.values.map (fun port => PortRecord.of port.again) = h.ports.values.map PortRecord.of ↔
      ∀ port ∈ h.ports.values, port.Settled := by
    rw [map_inj_left]
    refine forall₂_congr fun port hport => ?_
    obtain ⟨endpoint, hget⟩ := mem_values.mp hport
    exact PortRecord.of_again_iff (hv.ports_ok.1 endpoint port hget)
  have hfindings := Findings.of_again_iff hv.findings_ok.toFiled
  constructor
  · intro hstable
    have hone : sitting t (of t h) ⟨0, 0, []⟩ = of t h := hstable [⟨0, 0, []⟩]
    unfold sitting at hone
    rw [hagain] at hone
    exact ⟨min_eq_left_iff.mp (congrArg HostRecord.firstSeen hone), hports.mp (congrArg HostRecord.ports hone),
      hfindings.mp (congrArg HostRecord.findings hone)⟩
  · intro hsettled clocks
    refine List.foldlRecOn (motive := fun record => record = of t h) clocks _ rfl fun record hrecord p _ => ?_
    rw [hrecord]
    unfold sitting
    rw [hagain, min_eq_left hsettled.seen_le, max_eq_right hsettled.seen_le, hports.mpr hsettled.ports_ok,
      hfindings.mpr hsettled.findings_ok]
    rfl

end HostRecord

/-! ## A build that is settled, and one that is not -/

def noMacs : Oui := ⟨fun _ => none⟩

def serving (build : Build) : Host :=
  (Host.new ⟨1, 0, []⟩ (.v4 0x0A000001)).addPort ⟨1, 0, []⟩
    { Port.new 22 .tcp .open with service := some { Service.new "ssh" 90 with build := some build } }

theorem built_serving (build : Build) : Host.Built Host.Op.WellFormed (serving build) := by
  refine Host.Built.call ⟨1, 0, []⟩ (.addPort _) (Host.Built.new ⟨1, 0, []⟩ (.v4 0x0A000001)) ⟨?_, ?_, ?_⟩
  · intro service hservice
    rw [← Option.some.inj hservice]
    exact Nat.zero_le _
  · exact fun security hsecurity => absurd hsecurity (Option.not_mem_none security)
  · exact Findings.WellFormed.empty

theorem protocolsNamed_serving (build : Build) : (serving build).ProtocolsNamed :=
  ⟨fun reason hreason => absurd hreason (Finset.notMem_empty reason), fun _ hsample => absurd hsample not_mem_nil⟩

def updated : Build := (Build.new .debian).withRevision "2+deb12u3"

theorem sittings_serving_updated : (serving updated).Settled ∧
    ∀ clocks : List Process, clocks.foldl (HostRecord.sitting noMacs) (HostRecord.of noMacs (serving updated)) =
      HostRecord.of noMacs (serving updated) := by
  have hsettled : (serving updated).Settled := by
    refine ⟨le_rfl, fun port hport => ?_, fun finding hfinding => absurd hfinding not_mem_nil⟩
    obtain rfl := mem_singleton.mp hport
    refine ⟨fun service hservice build hbuild => ?_, fun discovery hmem => absurd hmem (Option.not_mem_none discovery),
      fun finding hfinding => absurd hfinding not_mem_nil⟩
    rw [← Option.some.inj hservice] at hbuild
    rw [← Option.some.inj hbuild, ← Build.again_eq_self_iff]
    decide +kernel
  exact ⟨hsettled,
    (HostRecord.sittings_iff noMacs (built_serving updated) rfl (protocolsNamed_serving updated)).mpr hsettled⟩

def disputed : Build := ((Build.new .debian).withRelease ⟨"11", .banner⟩).withRevision "2+deb12u3"

/-- The release the accounts disagreed on is back after one sitting. -/
theorem sitting_serving_disputed :
    Host.Built Host.Op.WellFormed (serving disputed) ∧ (serving disputed).hardware = none ∧
      (serving disputed).ProtocolsNamed ∧
      HostRecord.sitting noMacs (HostRecord.of noMacs (serving disputed)) ⟨2, 0, []⟩ ≠
        HostRecord.of noMacs (serving disputed) := by
  refine ⟨built_serving disputed, rfl, protocolsNamed_serving disputed, fun heq => ?_⟩
  exact absurd (congrArg HostRecord.ports heq) (by decide +kernel)

end Zond
