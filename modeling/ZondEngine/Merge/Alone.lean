import ZondEngine.Merge.Finish
import ZondEngine.Merge.Spec
import ZondEngine.Model.Host.Valid
import ZondEngine.Model.Report.Run

/-!
# A merge of one report

With one account every rule of a fold should be the identity, but the verdicts on IP protocols are not carried.

* `finish_alone_iff`: a report of hosts that share no token comes back as it was exactly where none of its hosts has a
  verdict on an IP protocol.
-/

namespace Zond

open List SortedMap

open Host (Op Valid Bounded filePort PortsState)
open Diff (HostIdentity HashOrder Apart groups_of_apart)

/-! ## Saying the same -/

structure Port.Agrees (port other : Port) : Prop where
  state_eq : other.state = port.state
  discovery_eq : other.discovery = port.discovery
  service_eq : other.service = port.service
  security_eq : other.security = port.security

structure Host.AgreesBut (host other : Host) : Prop where
  ips_eq : other.ips = host.ips
  primaryIp_eq : other.primaryIp = host.primaryIp
  hostname_eq : other.hostname = host.hostname
  names_eq : other.names = host.names
  status_eq : other.status = host.status
  reasons_eq : other.reasons = host.reasons
  os_eq : other.os = host.os
  osEvidence_eq : other.osEvidence = host.osEvidence
  hardware_eq : other.hardware = host.hardware
  zone_eq : other.zone = host.zone
  path_eq : other.path = host.path
  networkRoles_eq : other.networkRoles = host.networkRoles
  filtering_eq : other.filtering = host.filtering
  findings_eq : other.findings = host.findings
  ports_agree : ∀ endpoint, Option.Rel Port.Agrees (host.ports.get? endpoint) (other.ports.get? endpoint)

structure Host.Agrees (host other : Host) : Prop extends Host.AgreesBut host other where
  ipProtocols_eq : other.ipProtocols = host.ipProtocols

namespace Merge

section Alone

variable (p : Process) {account : Host}

theorem foldService_alone {port : Port} (hport : port.WellFormed) : foldService ⟨[], port⟩ = port.service := by
  have hclaim : ((⟨[], port⟩ : Accounts Port).newestClaim identified).or
      ((⟨[], port⟩ : Accounts Port).newestClaim Port.service) = port.service := by
    show (List.findSome? identified [port]).or (List.findSome? Port.service [port]) = port.service
    unfold identified
    cases hservice : port.service with
    | none => simp [hservice]
    | some service => cases hinferred : service.isInferred <;> simp [hservice, hinferred, Option.filter]
  have hothers : ((⟨[], port⟩ : Accounts Port).toList.reverse.filterMap identified).tail = [] := by
    show (List.filterMap identified [port]).tail = []
    cases hidentified : identified port <;> simp [hidentified]
  unfold foldService
  rw [hclaim, hothers]
  cases hservice : port.service with
  | none => rfl
  | some service =>
    have hcpe := addCpes_keys (hport.service_ok service hservice)
    have hconfidence : min service.confidence 100 = service.confidence := min_eq_left service.confidence_le
    simp only [Option.map_some, filter_nil, foldl_nil, flatMap_nil, append_nil, Service.new, hcpe, hconfidence]

/-- **The fold of one account of a port says what the account says.** -/
theorem foldPort_alone {port : Port} (hport : port.WellFormed) : port.Agrees (foldPort p ⟨[], port⟩) := by
  have hstate : foldedState (Accounts.toList ⟨[], port⟩) = port.state := by
    show (([port.state] : List PortState).filter (· ≠ .unasked)).getLast?.getD .unasked = port.state
    cases port.state <;> rfl
  obtain ⟨findings, heq⟩ := foldPort_eq p ⟨[], port⟩
  rw [heq]
  refine ⟨hstate, ?_, foldService_alone hport, ?_⟩
  · show List.findSome? (fun account => if account.state = _ then account.discovery else none) [port] = _
    rw [hstate]
    cases hdiscovery : port.discovery <;> simp [hdiscovery]
  · show (List.filterMap Port.security [port]).foldl _ none = _
    cases hsecurity : port.security <;> simp [hsecurity]

theorem foldOs_alone (hv : Valid account) : foldOs ⟨[], account⟩ = account.os := by
  have hclaim : (⟨[], account⟩ : Accounts Host).newestClaim Host.os = account.os := by
    show List.findSome? Host.os [account] = account.os
    cases hos : account.os <;> simp [hos]
  have holder : ((⟨[], account⟩ : Accounts Host).toList.reverse.filterMap Host.os).drop 1 = [] := by
    show (List.filterMap Host.os [account]).drop 1 = []
    cases hos : account.os <;> simp [hos]
  have hcpes : (⟨[], account⟩ : Accounts Host).toList.filterMap Host.os = account.os.toList := by
    show List.filterMap Host.os [account] = _
    cases hos : account.os <;> simp [hos]
  unfold foldOs
  rw [hclaim, holder, hcpes]
  cases hos : account.os with
  | none => rfl
  | some os =>
    obtain ⟨hcpe, hdetail⟩ := hv.os_ok os hos
    have haccuracy : min os.accuracy 100 = os.accuracy := min_eq_left os.accuracy_le
    have hdetail : os.detailAccuracy.map (min · 100) = os.detailAccuracy := by
      cases hd : os.detailAccuracy with
      | none => rfl
      | some accuracy => exact congrArg some (min_eq_left (hdetail accuracy hd))
    simp only [Option.map_some, filter_nil, foldl_nil, Option.toList_some, flatMap_singleton,
      OsFingerprint.new, haccuracy, hdetail, addCpes_keys hcpe]

theorem foldAddresses_alone (hb : Bounded account) : (foldAddresses p ⟨[], account⟩).ips = account.ips ∧
    (foldAddresses p ⟨[], account⟩).primaryIp = account.primaryIp := by
  have hall : allAddresses (Accounts.toList ⟨[], account⟩) = account.addresses :=
    (allAddresses_cons account []).trans (Finset.union_empty _)
  have hroom : (allAddresses (Accounts.toList ⟨[], account⟩)).card ≤ MAX_IPS := by
    rw [hall, Host.card_addresses]
    exact hb.ips_le
  obtain ⟨haddresses, hlead⟩ := foldAddresses_spec p ⟨[], account⟩ hroom
  exact ⟨Host.ips_eq_of_addresses (haddresses.trans hall), hlead.trans (leading_self account.primaryIp)⟩

theorem filedPorts_alone (hb : Bounded account) :
    (filedPorts p ⟨[], account⟩).1 = account.ports.mapValues fun port => foldPort p ⟨[], port⟩ := by
  have hbounded : ∀ other ∈ (⟨[], account⟩ : Accounts Host).toList, Bounded other := by
    intro other hother
    rw [mem_singleton.mp hother]
    exact hb
  refine eq_of_get? fun endpoint => ?_
  rw [get?_filedPorts p _ hbounded, get?_mapValues]
  show (Accounts.ofList ([account].filterMap fun account => account.ports.get? endpoint)).map (foldPort p) = _
  cases hget : account.ports.get? endpoint <;> simp [hget, Accounts.ofList]

theorem roles_filedPorts_alone (hb : Bounded account) (hv : Valid account) :
    (filedPorts p ⟨[], account⟩).2.2 = account.networkRoles := by
  have hstart : (⟨[], account⟩ : Accounts Host).toList.foldl (fun held account => held ∪ account.networkRoles) ∅ =
      account.networkRoles := Finset.empty_union _
  have hstate : ∀ port ∈ account.ports.values, (foldPort p ⟨[], port⟩).state = port.state := by
    intro port hport
    obtain ⟨endpoint, hget⟩ := mem_values.mp hport
    exact (foldPort_alone p (hv.ports_ok.1 endpoint port hget)).state_eq
  have hports := filedPorts_alone p hb
  unfold filedPorts at hports ⊢
  rw [hstart] at hports ⊢
  rw [Host.foldl_filePort_of_sameStates hb hv.ports_ok hstate hports]

/-- **The fold of one account says what the account says**, but for the verdicts on IP protocols. -/
theorem foldHost_alone (hb : Bounded account) (hv : Valid account) :
    account.AgreesBut (foldHost p ⟨[], account⟩) ∧ (foldHost p ⟨[], account⟩).ipProtocols = SortedMap.empty := by
  obtain ⟨hips, hprimary⟩ := foldAddresses_alone p hb
  obtain ⟨aside, telemetry, heq⟩ := foldHost_eq p ⟨[], account⟩
  rw [heq]
  refine ⟨?_, rfl⟩
  refine {
    ips_eq := hips, primaryIp_eq := hprimary, hostname_eq := ?_, names_eq := ?_, status_eq := ?_,
    reasons_eq := Finset.empty_union _, os_eq := foldOs_alone hv, osEvidence_eq := hv.readings_ok.foldl_values,
    hardware_eq := ?_, zone_eq := ?_, path_eq := ?_, networkRoles_eq := roles_filedPorts_alone p hb hv,
    filtering_eq := Finset.empty_union _, findings_eq := ?_, ports_agree := ?_ }
  · show List.findSome? Host.hostname [account] = _
    cases hhostname : account.hostname <;> simp [hhostname]
  · show (account.names.keys.filter fun name => name.source ∉ ([] : List NameSource)).foldl Host.admitted _ = _
    simpa using hv.names_ok.foldl_keys
  · show (List.findSome? (fun account => if account.status ≠ .unknown then some account.status else none)
      [account]).getD .unknown = _
    cases hstatus : account.status <;> simp [hstatus]
  · show (List.filterMap Host.hardware [account]).foldl _ none = _
    cases hhardware : account.hardware <;> simp [hhardware]
  · show List.findSome? Host.zone [account] = _
    cases hzone : account.zone <;> simp [hzone]
  · have hpath : (newestPath ⟨[], account⟩).elim [] NetworkPath.hops = account.path.hops := by
      show (List.findSome? (fun account : Host => if account.path.hops.isEmpty then none else some account.path)
        [account]).elim [] NetworkPath.hops = _
      cases hhops : account.path.hops <;> simp [hhops]
    rw [hpath]
    exact account.path.foldl_record_hops
  · show ([account].flatMap fun account => account.findings.values).foldl _ _ = _
    rw [flatMap_singleton]
    exact foldl_addFinding_values hv.findings_ok.toFiled
  · intro endpoint
    rw [filedPorts_alone p hb, get?_mapValues]
    cases hget : account.ports.get? endpoint with
    | none => exact .none
    | some port => exact .some (foldPort_alone p (hv.ports_ok.1 endpoint port hget))

end Alone

/-! ## The report of a merge -/

def Quiet (phase : ScanPhase) : Prop := phase.silent = [] ∧ phase.undecided = []

theorem forgetTheSilent_of_quiet {r : ScanReport} (hquiet : ∀ phase ∈ r.phases, Quiet phase) :
    r.forgetTheSilent = r := by
  have hnone : (r.phases.flatMap fun phase =>
      phase.silent ++ if phase.kind == .portScan && (true || !phase.isOpen) then phase.undecided else []) = [] := by
    refine flatMap_eq_nil_iff.mpr fun phase hphase => ?_
    obtain ⟨hsilent, hundecided⟩ := hquiet phase hphase
    rw [hsilent, hundecided, nil_append, ite_self]
  unfold ScanReport.forgetTheSilent Unheard.reading
  rw [hnone]
  rfl

variable (p : Process)

theorem records_perm (sources : List Source) :
    (records (clocked p sources)).Perm (sources.flatMap fun source => source.report.hostList) := by
  have hdated : ((clocked p sources).flatMap fun entry => entry.2.report.hostList).Perm
      (sources.flatMap fun source => source.report.hostList) := by
    have hclocked := (perm_insertionSort (fun a b : SystemTime × Source => a.1 ≤ b.1)
      (sources.map fun source => (source.report.observedAt p, source)))
    refine (hclocked.flatMap_right _).trans ?_
    rw [flatMap_map]
  have hrecords := (perm_insertionSort (fun a b : SystemTime × Host => a.1 ≤ b.1)
    ((clocked p sources).flatMap fun entry =>
      entry.2.report.hostList.map fun record => (observedAt record entry.1, record))).map Prod.snd
  refine hrecords.trans (List.Perm.trans (List.Perm.of_eq ?_) hdated)
  rw [map_flatMap]
  refine flatMap_congr fun entry _ => ?_
  rw [map_map]
  exact map_id _

variable (order : HashOrder)

theorem hosts_finish (m : Merge) (hquiet : ∀ source ∈ m.sources, ∀ phase ∈ source.report.phases, Quiet phase) :
    (m.finish p order).hosts = index p (foldGroups p order m.options.identity (records (clocked p m.sources))) := by
  have hphases : ∀ phase ∈ sortByMoment ScanPhase.startedAt
      ((clocked p m.sources).flatMap fun entry => attributed entry.2), Quiet phase := by
    intro phase hphase
    obtain ⟨entry, hentry, hphase⟩ := mem_flatMap.mp ((mem_insertionSort _).mp hphase)
    obtain ⟨source, hsource, rfl⟩ := mem_map.mp ((mem_insertionSort _).mp hentry)
    obtain ⟨stated, hstated, rfl⟩ := mem_map.mp hphase
    -- Saying where a phase came from changes nothing else of it.
    have hquiet := hquiet source hsource stated hstated
    split
    · exact hquiet
    · exact hquiet
  unfold finish assemble
  cases hlast : (clocked p m.sources).getLast? with
  | none =>
    rw [getLast?_eq_none_iff.mp hlast]
    rfl
  | some newest =>
    obtain ⟨clock, source⟩ := newest
    dsimp only
    unfold ScanReport.recorded
    rw [forgetTheSilent_of_quiet hphases]

/-! ## Records that share no token -/

theorem foldGroups_of_apart {identity : HostIdentity} {records : List Host} (hapart : Apart identity records) :
    foldGroups p order identity records = records.map fun account => foldHost p ⟨[], account⟩ := by
  have hone : ∀ i : Fin records.length, (Accounts.ofList ([i.val].filterMap (records[·]?))).map (foldHost p) =
      some (foldHost p ⟨[], records.get i⟩) := by
    simp [Accounts.ofList]
  unfold foldGroups
  rw [groups_of_apart order hapart, filterMap_map, ← map_coe_finRange_eq_range, filterMap_map]
  calc
    _ = (List.finRange records.length).filterMap (some ∘ fun i => foldHost p ⟨[], records.get i⟩) :=
      filterMap_congr fun i _ => hone i
    _ = _ := by
      rw [filterMap_eq_map]
      show List.map ((fun account => foldHost p ⟨[], account⟩) ∘ records.get) _ = _
      rw [← map_map, map_get_finRange]

/-- **A report of hosts that share no token comes back host by host**, each folded alone, under the key it had. -/
theorem hosts_finish_alone (options : MergeOptions) (label : Option Text)
    {r : ScanReport} (hr : r.Built Op.WellFormed) (hapart : Apart options.identity r.hostList)
    (hquiet : ∀ phase ∈ r.phases, Quiet phase) (key : ScopedIp.Key) :
    ((collect options [⟨label, r⟩]).finish p order).hosts.get? key =
      (r.hosts.get? key).map fun account => foldHost p ⟨[], account⟩ := by
  have hperm : (records (clocked p [⟨label, r⟩])).Perm r.hostList := by
    have hperm := records_perm p [⟨label, r⟩]
    rwa [flatMap_singleton] at hperm
  have hapart' : Apart options.identity (records (clocked p [⟨label, r⟩])) := by
    refine hapart.perm hperm.symm ?_
    intro a b hab token htoken htoken'
    exact hab token htoken' htoken
  have hkey : ∀ account ∈ r.hostList, (foldHost p ⟨[], account⟩).scopedIp.key = account.scopedIp.key := by
    intro account haccount
    have hbuilt := (hr.mem_hostList haccount).2
    have hagrees := (foldHost_alone p hbuilt.bounded hbuilt.valid).1
    rw [Host.key_scopedIp, Host.key_scopedIp, hagrees.primaryIp_eq, hagrees.zone_eq]
  -- Under a key are the records of that key, of which the report has at most one.
  have hfiled : ((records (clocked p [⟨label, r⟩])).filter fun account =>
      (foldHost p ⟨[], account⟩).scopedIp.key = key) = (r.hosts.get? key).toList := by
    have hlist : r.hostList.filter (fun account => account.scopedIp.key = key) = (r.hosts.get? key).toList := by
      have hentries : r.hosts.entries.filter (fun entry => entry.2.scopedIp.key = key) =
          r.hosts.entries.filter fun entry => entry.1 = key := by
        refine filter_congr fun entry hentry => ?_
        rw [(hr.filed entry.1 entry.2 (get?_eq_some_iff.mpr hentry)).1]
      have hkeyed := @SortedMap.filter_key _ _ _ r.hosts key (fun other => decide (other = key))
        fun _ => decide_eq_true_iff
      unfold ScanReport.hostList SortedMap.values
      rw [filter_map, Function.comp_def, hentries, hkeyed]
      simp
    have hsame : ((records (clocked p [⟨label, r⟩])).filter fun account =>
        (foldHost p ⟨[], account⟩).scopedIp.key = key).Perm (r.hosts.get? key).toList := by
      rw [← hlist]
      refine (List.Perm.of_eq (filter_congr fun account haccount => ?_)).trans (hperm.filter _)
      rw [hkey account (hperm.mem_iff.mp haccount)]
    cases hget : r.hosts.get? key with
    | none =>
      rw [hget] at hsame
      exact perm_nil.mp hsame
    | some account =>
      rw [hget] at hsame
      exact perm_singleton.mp hsame
  rw [collect_eq, hosts_finish p order ⟨options, [⟨label, r⟩]⟩ (by simpa using hquiet),
    foldGroups_of_apart p order hapart', ScanReport.index_eq,
    get?_foldl_insertWith _ _ key (fun other => decide (other = key)) fun _ => decide_eq_true_iff,
    filter_map, Function.comp_def, hfiled]
  cases r.hosts.get? key <;> rfl

/-- **A merge of one report changes nothing it says exactly where no host of it has a verdict on an IP protocol.** -/
theorem finish_alone_iff (options : MergeOptions) (label : Option Text)
    {r : ScanReport} (hr : r.Built Op.WellFormed) (hapart : Apart options.identity r.hostList)
    (hquiet : ∀ phase ∈ r.phases, Quiet phase) : (∀ key, Option.Rel Host.Agrees (r.hosts.get? key)
      (((collect options [⟨label, r⟩]).finish p order).hosts.get? key)) ↔
      ∀ host ∈ r.hostList, host.ipProtocols = SortedMap.empty := by
  have hfold : ∀ host ∈ r.hostList, host.AgreesBut (foldHost p ⟨[], host⟩) ∧
      (foldHost p ⟨[], host⟩).ipProtocols = SortedMap.empty := by
    intro host hhost
    have hbuilt := (hr.mem_hostList hhost).2
    exact foldHost_alone p hbuilt.bounded hbuilt.valid
  simp only [hosts_finish_alone p order options label hr hapart hquiet]
  constructor
  · intro hsame host hhost
    have hhere := hsame host.scopedIp.key
    rw [(hr.mem_hostList hhost).1, Option.map_some, Option.rel_some_some] at hhere
    rw [← hhere.ipProtocols_eq, (hfold host hhost).2]
  · intro hnone key
    cases hget : r.hosts.get? key with
    | none => exact .none
    | some host =>
      have hmem : host ∈ r.hostList := mem_map.mpr ⟨_, get?_eq_some_iff.mp hget, rfl⟩
      obtain ⟨hagrees, hempty⟩ := hfold host hmem
      exact .some ⟨hagrees, hempty.trans (hnone host hmem).symm⟩

def twoAnswered : ScanReport :=
  .fromPhases ⟨1, 0, []⟩ [⟨.portScan, 0, 9, ⟨[.v4 ⟨6, 9, by decide⟩], [], .noPorts, []⟩, [], [], [], none, false⟩]
    [ScanReport.nas 7 445, ScanReport.nas 9 22]

theorem finish_alone_twoAnswered : twoAnswered.Built Op.WellFormed ∧ Apart .anyAddress twoAnswered.hostList ∧
    ∀ key, Option.Rel Host.Agrees (twoAnswered.hosts.get? key)
      (((collect ⟨.anyAddress⟩ [⟨none, twoAnswered⟩]).finish ⟨2, 0, []⟩ .asBuilt).hosts.get? key) := by
  have hbuilt : twoAnswered.Built Op.WellFormed := by
    refine ScanReport.Built.recorded ⟨1, 0, []⟩ ENGINE_VERSION twoAnswered.phases fun host hhost => ?_
    simp only [mem_cons, not_mem_nil, or_false] at hhost
    rcases hhost with rfl | rfl
    · exact ScanReport.built_nas 7 445
    · exact ScanReport.built_nas 9 22
  have hapart : Apart .anyAddress twoAnswered.hostList := by
    unfold Apart
    decide +kernel
  have hquiet : ∀ phase ∈ twoAnswered.phases, Quiet phase := by
    intro phase hphase
    obtain rfl := mem_singleton.mp hphase
    exact ⟨rfl, rfl⟩
  refine ⟨hbuilt, hapart, (finish_alone_iff ⟨2, 0, []⟩ .asBuilt ⟨.anyAddress⟩ none hbuilt hapart hquiet).mpr ?_⟩
  decide +kernel

def oneVerdict : ScanReport :=
  .fromPhases ⟨1, 0, []⟩ [] [(Host.new ⟨1, 0, []⟩ (.v4 7)).apply ⟨1, 0, []⟩ (.recordIpProtocol 1 .open)]

theorem finish_alone_oneVerdict : oneVerdict.Built Op.WellFormed ∧ Apart .anyAddress oneVerdict.hostList ∧
    (∀ phase ∈ oneVerdict.phases, Quiet phase) ∧ ¬∀ key, Option.Rel Host.Agrees (oneVerdict.hosts.get? key)
      (((collect ⟨.anyAddress⟩ [⟨none, oneVerdict⟩]).finish ⟨2, 0, []⟩ .asBuilt).hosts.get? key) := by
  have hbuilt : oneVerdict.Built Op.WellFormed := by
    refine ScanReport.Built.recorded ⟨1, 0, []⟩ ENGINE_VERSION [] fun host hhost => ?_
    rw [mem_singleton.mp hhost]
    exact .call _ _ (.new _ _) trivial
  refine ⟨hbuilt, pairwise_singleton _ _, nofun, fun hsame => ?_⟩
  have hhere := hsame (reportKey (.v4 7) none)
  have hheld : (oneVerdict.hosts.get? (reportKey (.v4 7) none)).map Host.ipProtocols =
      some (SortedMap.empty.insert 1 .open) := by decide +kernel
  have hlost : (((collect ⟨.anyAddress⟩ [⟨none, oneVerdict⟩]).finish ⟨2, 0, []⟩ .asBuilt).hosts.get?
      (reportKey (.v4 7) none)).map Host.ipProtocols = some SortedMap.empty := by decide +kernel
  generalize oneVerdict.hosts.get? (reportKey (.v4 7) none) = held at hhere hheld
  generalize ((collect ⟨.anyAddress⟩ [⟨none, oneVerdict⟩]).finish ⟨2, 0, []⟩ .asBuilt).hosts.get?
    (reportKey (.v4 7) none) = folded at hhere hlost
  cases hhere with
  | none => exact absurd hheld nofun
  | some hagrees =>
    rw [Option.map_some, hagrees.ipProtocols_eq] at hlost
    exact absurd (hheld.symm.trans hlost) (by decide)

end Merge

end Zond
