import Mathlib.Data.List.Find
import ZondEngine.Merge.Fold
import ZondEngine.Model.Host.Addresses

/-!
# What a fold makes of the accounts

Each stage of `foldHost` writes fields of its own, so the record it ends with is written down in one piece
(`foldHost_eq`). `foldHost_newest`: the newest account that states something decides, and a silent one changes nothing.
-/

namespace Zond

open List SortedMap

theorem Accounts.newestClaim_eq {α β : Type} (a : Accounts α) (claim : α → Option β) :
    a.newestClaim claim = (a.toList.filterMap claim).getLast? :=
  getLast?_filterMap.symm

theorem Accounts.ofList_toList {α : Type} (o : Option (Accounts α)) : ofList (o.elim [] toList) = o := by
  cases o with
  | none => rfl
  | some a => simp [ofList, toList]

namespace Merge

open Ip (IpAddr)
open Host (admitted recordReading filePort PortsState foldl_admitIp_eq considerPrimaryIp_eq foldl_recordName_eq
  foldl_setAside_eq foldl_recordOsEvidence_eq foldl_addFinding_eq foldl_recordHop_eq foldl_addPort_eq
    get?_foldl_filePort)

section Stages

variable (p : Process) (accounts : Accounts Host)

def heardNames (state : SortedSet HostName × List NameSource) (account : Host) : SortedSet HostName × List NameSource :=
  ((account.names.keys.filter fun name => name.source ∉ state.2).foldl admitted state.1,
    state.2 ++ account.names.keys.map HostName.source)

theorem foldAddresses_eq : ∃ (primary : IpAddr) (held : SortedSet IpAddr) (seen : SystemTime)
    (hmem : held.contains primary = true), foldAddresses p accounts = { Host.new p accounts.newest.primaryIp with
        primaryIp := primary, ips := held, lastSeen := seen, primary_mem := hmem } := by
  refine List.foldlRecOn (motive := fun s => ∃ (primary : IpAddr) (held : SortedSet IpAddr)
    (seen : SystemTime) (hmem : held.contains primary = true), s =
    { Host.new p accounts.newest.primaryIp with
      primaryIp := primary, ips := held, lastSeen := seen, primary_mem := hmem }) accounts.toList _
    ⟨_, _, _, (Host.new p accounts.newest.primaryIp).primary_mem, rfl⟩ ?_
  rintro s ⟨primary, held, seen, hmem, rfl⟩ account _
  obtain ⟨held', hmem', heq⟩ := foldl_admitIp_eq account.ips.keys
    { Host.new p accounts.newest.primaryIp with
      primaryIp := primary, ips := held, lastSeen := seen, primary_mem := hmem }
  unfold Host.extendIps Host.seen
  rw [heq]
  exact considerPrimaryIp_eq p _ account.primaryIp

variable (h : Host)

theorem foldNames_eq : ∃ aside seen, foldNames p h accounts =
    { h with
      hostname := (accounts.newestClaim Host.hostname).or h.hostname
      names := (accounts.toList.reverse.foldl heardNames (h.names, [])).1
      setAsideNames := aside
      lastSeen := seen } := by
  have hcalled : ∃ seen, ((accounts.newestClaim Host.hostname).elim h fun hostname => h.setHostname p (some hostname)) =
      { h with hostname := (accounts.newestClaim Host.hostname).or h.hostname, lastSeen := seen } := by
    cases accounts.newestClaim Host.hostname with
    | none => exact ⟨h.lastSeen, rfl⟩
    | some hostname => exact ⟨p.now, rfl⟩
  -- The sources heard so far travel beside the record, so the run is about the pair.
  have hnamed : ∀ (rest : List Host) (state : Host × List NameSource), ∃ seen,
      rest.foldl (foldNamesOf p) state =
        ({ state.1 with names := (rest.foldl heardNames (state.1.names, state.2)).1, lastSeen := seen },
          (rest.foldl heardNames (state.1.names, state.2)).2) := by
    intro rest
    induction rest with
    | nil => exact fun state => ⟨state.1.lastSeen, rfl⟩
    | cons account rest ih =>
      rintro ⟨host, sources⟩
      rw [foldl_cons]
      unfold foldNamesOf
      dsimp only
      rw [foldl_recordName_eq]
      exact ih _
  obtain ⟨seen, hcalled⟩ := hcalled
  unfold foldNames
  dsimp only
  rw [hcalled]
  obtain ⟨seen', hnamed⟩ := hnamed accounts.toList.reverse
    ({ h with hostname := (accounts.newestClaim Host.hostname).or h.hostname, lastSeen := seen }, [])
  rw [hnamed]
  have haside := List.foldlRecOn (motive := fun s : Host => ∃ aside, s =
    { h with
      hostname := (accounts.newestClaim Host.hostname).or h.hostname
      names := (accounts.toList.reverse.foldl heardNames (h.names, [])).1
      setAsideNames := aside
      lastSeen := seen' }) accounts.toList Host.setAsideNamesOf ⟨h.setAsideNames, rfl⟩
    (by
      rintro s ⟨aside, rfl⟩ account _
      exact foldl_setAside_eq _ _)
  obtain ⟨aside, haside⟩ := haside
  exact ⟨aside, seen', haside⟩

def newestStatus : Option HostStatus :=
  accounts.newestClaim fun account => if account.status ≠ .unknown then some account.status else none

theorem foldStatus_eq : ∃ seen, foldStatus p h accounts =
    { h with
      status := max h.status ((newestStatus accounts).getD .unknown)
      reasons := accounts.toList.foldl (fun held account => held ∪ account.reasons) h.reasons
      networkRoles := accounts.toList.foldl (fun held account => held ∪ account.networkRoles) h.networkRoles
      filtering := accounts.toList.foldl (fun held account => held ∪ account.filtering) h.filtering
      lastSeen := seen } := by
  have hstatus : ∃ seen, (newestStatus accounts).elim h (h.setStatus p) =
      { h with status := max h.status ((newestStatus accounts).getD .unknown), lastSeen := seen } := by
    cases newestStatus accounts with
    | none =>
      refine ⟨h.lastSeen, ?_⟩
      have hmax : max h.status .unknown = h.status := by cases h.status <;> decide
      rw [Option.getD_none, hmax]
      rfl
    | some status => exact ⟨p.now, rfl⟩
  have hnoticed : ∀ (rest : List Host) (h : Host), rest.foldl
      (fun host account =>
        { host with
          reasons := host.reasons ∪ account.reasons
          networkRoles := host.networkRoles ∪ account.networkRoles
          filtering := host.filtering ∪ account.filtering }) h =
      { h with
        reasons := rest.foldl (fun held account => held ∪ account.reasons) h.reasons
        networkRoles := rest.foldl (fun held account => held ∪ account.networkRoles) h.networkRoles
        filtering := rest.foldl (fun held account => held ∪ account.filtering) h.filtering } := by
    intro rest
    induction rest with
    | nil => exact fun h => rfl
    | cons account rest ih => exact fun h => ih _
  obtain ⟨seen, hstatus⟩ := hstatus
  refine ⟨seen, ?_⟩
  unfold foldStatus
  dsimp only
  rw [show (accounts.newestClaim fun account => if account.status ≠ .unknown then some account.status else none) =
    newestStatus accounts from rfl, hstatus, hnoticed]

theorem foldSystem_eq : ∃ seen, foldSystem p h accounts =
    { h with
      osEvidence := accounts.toList.reverse.foldl
        (fun held account => account.osEvidence.values.foldl recordReading held) h.osEvidence
      os := (foldOs accounts).or h.os
      lastSeen := seen } := by
  have hread : ∀ (rest : List Host) (h : Host),
      rest.foldl (fun host account => account.osEvidence.values.foldl Host.recordOsEvidence host) h =
        { h with
          osEvidence := rest.foldl (fun held account => account.osEvidence.values.foldl recordReading held)
            h.osEvidence } := by
    intro rest
    induction rest with
    | nil => exact fun h => rfl
    | cons account rest ih =>
      intro h
      rw [foldl_cons, foldl_recordOsEvidence_eq, ih]
      rfl
  unfold foldSystem
  rw [hread]
  cases foldOs accounts with
  | none => exact ⟨h.lastSeen, rfl⟩
  | some os => exact ⟨p.now, rfl⟩

def foldedHardware : Option HardwareInfo :=
  (accounts.toList.reverse.filterMap Host.hardware).foldl
    (fun existing found => some (existing.elim found fun existing => existing.merge found)) none

theorem foldHardware_eq : ∃ seen, foldHardware p h accounts =
    { h with hardware := (foldedHardware accounts).or h.hardware, lastSeen := seen } := by
  unfold foldHardware
  rw [show (accounts.toList.reverse.filterMap Host.hardware).foldl
    (fun existing found => some (existing.elim found fun existing => existing.merge found)) none =
      foldedHardware accounts from rfl]
  cases foldedHardware accounts with
  | none => exact ⟨h.lastSeen, rfl⟩
  | some hardware => exact ⟨p.now, rfl⟩

def newestPath : Option NetworkPath :=
  accounts.newestClaim fun account => if account.path.hops.isEmpty then none else some account.path

theorem foldPlace_eq : ∃ telemetry seen, foldPlace p h accounts =
    { h with
      zone := h.zone.or (accounts.newestClaim Host.zone)
      telemetry := telemetry
      path := ((newestPath accounts).elim [] NetworkPath.hops).foldl NetworkPath.record h.path
      lastSeen := seen } := by
  have hplaced : ∃ seen, (accounts.newestClaim Host.zone).elim h (h.setZone p) =
      { h with zone := h.zone.or (accounts.newestClaim Host.zone), lastSeen := seen } := by
    cases accounts.newestClaim Host.zone with
    | none => exact ⟨h.lastSeen, by rw [Option.or_none]; rfl⟩
    | some zone => exact ⟨p.now, rfl⟩
  have hmeasured : ∀ h : Host, ∃ telemetry seen, foldTelemetry p h accounts =
      { h with telemetry := telemetry, lastSeen := seen } := by
    intro h
    unfold foldTelemetry
    cases accounts.newestClaim _ with
    | none => exact ⟨h.telemetry, h.lastSeen, rfl⟩
    | some measured =>
      show ∃ telemetry seen, measured.hopCounter.elim _ _ = _
      cases measured.hopCounter with
      | none => exact ⟨_, _, rfl⟩
      | some arrived => exact ⟨_, _, rfl⟩
  obtain ⟨seen, hplaced⟩ := hplaced
  unfold foldPlace
  dsimp only
  rw [hplaced]
  obtain ⟨telemetry, seen', hmeasured⟩ := hmeasured
    { h with zone := h.zone.or (accounts.newestClaim Host.zone), lastSeen := seen }
  rw [hmeasured, show (accounts.newestClaim fun account =>
    if account.path.hops.isEmpty then none else some account.path) = newestPath accounts from rfl]
  cases newestPath accounts with
  | none => exact ⟨telemetry, seen', rfl⟩
  | some path => exact ⟨telemetry, _, foldl_recordHop_eq p path.hops _⟩

def filedPorts : PortsState :=
  (foldPorts p accounts).foldl filePort
    (SortedMap.empty, 0, accounts.toList.foldl (fun held account => held ∪ account.networkRoles) ∅)

/-- **The record a fold ends with**, every field from the accounts alone. No account's verdicts on IP protocols are
among them. -/
theorem foldHost_eq : ∃ aside telemetry, foldHost p accounts =
    { primaryIp := (foldAddresses p accounts).primaryIp
      ips := (foldAddresses p accounts).ips
      hostname := accounts.newestClaim Host.hostname
      names := (accounts.toList.reverse.foldl heardNames (SortedMap.empty, [])).1
      setAsideNames := aside
      status := (newestStatus accounts).getD .unknown
      reasons := accounts.toList.foldl (fun held account => held ∪ account.reasons) ∅
      os := foldOs accounts
      osEvidence := accounts.toList.reverse.foldl
        (fun held account => account.osEvidence.values.foldl recordReading held) SortedMap.empty
      hardware := foldedHardware accounts
      zone := accounts.newestClaim Host.zone
      telemetry := telemetry
      path := ((newestPath accounts).elim [] NetworkPath.hops).foldl NetworkPath.record .new
      networkRoles := (filedPorts p accounts).2.2
      filtering := accounts.toList.foldl (fun held account => held ∪ account.filtering) ∅
      ipProtocols := SortedMap.empty
      findings := (accounts.toList.flatMap fun account => account.findings.values).foldl
        (fun held finding => (Zond.addFinding held finding).1) SortedMap.empty
      firstSeen := min
        (accounts.older.foldl (fun first account => min first account.firstSeen) accounts.newest.firstSeen)
        (accounts.older.foldl (fun last account => max last account.lastSeen) accounts.newest.lastSeen)
      lastSeen := max
        (accounts.older.foldl (fun first account => min first account.firstSeen) accounts.newest.firstSeen)
        (accounts.older.foldl (fun last account => max last account.lastSeen) accounts.newest.lastSeen)
      ports := (filedPorts p accounts).1
      openPorts := (filedPorts p accounts).2.1
      touched := none
      primary_mem := (foldAddresses p accounts).primary_mem } := by
  have hstatus : ∀ status : HostStatus, max .unknown status = status := by
    intro status
    cases status <;> decide
  -- Each stage in its turn is replaced by the record it is known to write.
  unfold foldHost
  dsimp only
  obtain ⟨primary, ips, seen, hmem, haddressed⟩ := foldAddresses_eq p accounts
  rw [haddressed]
  generalize hfresh : ({ Host.new p accounts.newest.primaryIp with
    primaryIp := primary, ips := ips, lastSeen := seen, primary_mem := hmem } : Host) = addressed
  obtain ⟨aside, _, hnamed⟩ := foldNames_eq p accounts addressed
  generalize foldNames p addressed accounts = named at hnamed ⊢
  obtain ⟨_, hstated⟩ := foldStatus_eq p accounts named
  generalize foldStatus p named accounts = stated at hstated ⊢
  obtain ⟨_, hread⟩ := foldSystem_eq p accounts stated
  generalize foldSystem p stated accounts = read at hread ⊢
  obtain ⟨_, hknown⟩ := foldHardware_eq p accounts read
  generalize foldHardware p read accounts = known at hknown ⊢
  obtain ⟨telemetry, _, hplaced⟩ := foldPlace_eq p accounts known
  generalize foldPlace p known accounts = placed at hplaced ⊢
  refine ⟨aside, telemetry, ?_⟩
  rw [foldl_addPort_eq, foldl_addFinding_eq]
  subst hplaced hknown hread hstated hnamed hfresh
  simp only [Host.restoreSeen, Host.new, Option.or_none, Option.none_or, Option.map_none, hstatus]
  rfl

end Stages

/-! ## Addresses -/

def allAddresses (hosts : List Host) : Finset IpAddr := (hosts.flatMap fun host => host.ips.keys).toFinset

theorem mem_allAddresses {hosts : List Host} {ip : IpAddr} :
    ip ∈ allAddresses hosts ↔ ∃ host ∈ hosts, ip ∈ host.addresses := by
  unfold allAddresses Host.addresses
  simp only [mem_toFinset, mem_flatMap]

theorem allAddresses_cons (host : Host) (rest : List Host) :
    allAddresses (host :: rest) = host.addresses ∪ allAddresses rest := by
  unfold allAddresses Host.addresses
  rw [flatMap_cons, toFinset_append]

/-- The address some accounts are reported under: the newest account's, or the first of the best
among those better than it. -/
def leadOf (accounts : Accounts Host) : IpAddr :=
  accounts.toList.foldl (fun lead account => leading lead account.primaryIp) accounts.newest.primaryIp

def keyOf (accounts : Accounts Host) : ScopedIp.Key := reportKey (leadOf accounts) (accounts.newestClaim Host.zone)

variable (p : Process)

/-- **A fold holds every address of its accounts**, under the best of their leading ones, while there is room. -/
theorem foldAddresses_spec (accounts : Accounts Host) (hroom : (allAddresses accounts.toList).card ≤ MAX_IPS) :
    (foldAddresses p accounts).addresses = allAddresses accounts.toList ∧
      (foldAddresses p accounts).primaryIp = leadOf accounts := by
  have hrun : ∀ (rest : List Host) (h : Host), (h.addresses ∪ allAddresses rest).card ≤ MAX_IPS →
      (rest.foldl (fun host account => (host.extendIps p account.ips.keys).considerPrimaryIp p account.primaryIp)
        h).addresses = h.addresses ∪ allAddresses rest ∧
      (rest.foldl (fun host account => (host.extendIps p account.ips.keys).considerPrimaryIp p account.primaryIp)
        h).primaryIp = rest.foldl (fun lead account => leading lead account.primaryIp) h.primaryIp := by
    intro rest
    induction rest with
    | nil => exact fun h _ => ⟨(Finset.union_empty _).symm, rfl⟩
    | cons account rest ih =>
      intro h hroom
      rw [allAddresses_cons, ← Finset.union_assoc] at hroom ⊢
      obtain ⟨haddresses, hprimary⟩ := Host.considerPrimaryIp_foldl_admitIp p account.primaryIp_mem
        ((Finset.card_le_card Finset.subset_union_left).trans hroom)
      obtain ⟨hall, hlead⟩ := ih ((account.ips.keys.foldl Host.admitIp h).considerPrimaryIp p account.primaryIp)
        (by rw [haddresses]; exact hroom)
      rw [foldl_cons, foldl_cons, Host.considerPrimaryIp_extendIps, hall, hlead, haddresses, hprimary]
      exact ⟨rfl, rfl⟩
  have hstart : (Host.new p accounts.newest.primaryIp).addresses ∪ allAddresses accounts.toList =
      allAddresses accounts.toList := by
    refine Finset.union_eq_right.mpr fun ip hip => mem_allAddresses.mpr ⟨accounts.newest, ?_, ?_⟩
    · exact mem_append_right _ mem_cons_self
    · rw [Host.mem_addresses] at hip
      have hip : ip = accounts.newest.primaryIp :=
        (SortedSet.contains_add.mp hip).resolve_right fun hnone => Bool.false_ne_true hnone
      rw [hip]
      exact accounts.newest.primaryIp_mem_addresses
  obtain ⟨hall, hlead⟩ := hrun accounts.toList (Host.new p accounts.newest.primaryIp) (by rwa [hstart])
  exact ⟨hall.trans hstart, hlead⟩

theorem addresses_foldHost {accounts : Accounts Host} (hroom : (allAddresses accounts.toList).card ≤ MAX_IPS) :
    (foldHost p accounts).addresses = allAddresses accounts.toList := by
  obtain ⟨aside, telemetry, heq⟩ := foldHost_eq p accounts
  rw [heq]
  exact (foldAddresses_spec p accounts hroom).1

theorem key_foldHost {accounts : Accounts Host}
    (hroom : (allAddresses accounts.toList).card ≤ MAX_IPS) : (foldHost p accounts).scopedIp.key = keyOf accounts := by
  obtain ⟨aside, telemetry, heq⟩ := foldHost_eq p accounts
  rw [Host.key_scopedIp, heq]
  exact congrArg (reportKey · _) (foldAddresses_spec p accounts hroom).2

/-! ## The accounts of an endpoint -/

theorem foldl_appends {σ α : Type*} {step : σ → α → σ} {wanted : α → Bool} (read : σ → List α)
    (hstep : ∀ s item, read (step s item) = read s ++ [item].filter wanted) (items : List α) (s : σ) :
    read (items.foldl step s) = read s ++ items.filter wanted := by
  induction items generalizing s with
  | nil => exact (append_nil _).symm
  | cons item rest ih => rw [foldl_cons, ih, hstep, append_assoc, ← filter_append, singleton_append]

section Endpoints

variable (accounts : Accounts Host)

theorem get?_portAccounts (endpoint : Endpoint) : (portAccounts accounts).get? endpoint =
    Accounts.ofList ((accounts.toList.flatMap fun account => account.ports.values).filter
      (·.endpoint == endpoint)) := by
  rw [← Accounts.ofList_toList ((portAccounts accounts).get? endpoint), portAccounts]
  refine congrArg Accounts.ofList ((foldl_appends
    (fun held : SortedMap Endpoint (Accounts Port) => (held.get? endpoint).elim [] Accounts.toList) ?_ _ _).trans
      (nil_append _))
  intro held port
  rw [get?_insert]
  by_cases heq : endpoint = port.endpoint
  · subst heq
    rw [if_pos rfl, filter_cons_of_pos (by simp)]
    cases held.get? port.endpoint with
    | none => rfl
    | some of => simp [Accounts.push, Accounts.toList]
  · rw [if_neg heq, filter_cons_of_neg (by simpa using Ne.symm heq)]
    exact (append_nil _).symm

theorem accounts_of_endpoint (hfiled : ∀ account ∈ accounts.toList, Host.Bounded account) (endpoint : Endpoint) :
    (accounts.toList.flatMap fun account => account.ports.values).filter (·.endpoint == endpoint) =
      accounts.toList.filterMap fun account => account.ports.get? endpoint := by
  have hone : ∀ account : Host, account.Bounded →
      account.ports.values.filter (·.endpoint == endpoint) = (account.ports.get? endpoint).toList := by
    intro account hb
    have hkeys : account.ports.entries.filter (fun entry => entry.2.endpoint == endpoint) =
        account.ports.entries.filter fun entry => entry.1 == endpoint := by
      refine filter_congr fun entry hentry => ?_
      rw [hb.filed entry.1 entry.2 (get?_eq_some_iff.mpr hentry)]
    rw [SortedMap.values, filter_map, Function.comp_def, hkeys, filter_key _ fun _ => beq_iff_eq, map_map]
    simp [Function.comp_def]
  generalize accounts.toList = held at hfiled
  induction held with
  | nil => rfl
  | cons account rest ih =>
    have hrest := ih fun other hother => hfiled other (mem_cons_of_mem _ hother)
    rw [flatMap_cons, filter_append, hone account (hfiled account mem_cons_self), hrest, filterMap_cons]
    cases account.ports.get? endpoint <;> rfl

def foldedState (accounts : List Port) : PortState :=
  ((accounts.map Port.state).filter (· ≠ .unasked)).getLast?.getD .unasked

theorem foldPort_eq (accounts : Accounts Port) : ∃ findings, foldPort p accounts =
    { number := accounts.newest.number
      protocol := accounts.newest.protocol
      state := foldedState accounts.toList
      service := foldService accounts
      security := foldSecurity accounts
      discovery := accounts.newestClaim fun account =>
        if account.state = foldedState accounts.toList then account.discovery else none
      findings := findings } := by
  have hstate : ((accounts.newestClaim fun account =>
      if account.state ≠ .unasked then some account.state else none).getD accounts.newest.state) =
        foldedState accounts.toList := by
    have hclaims : accounts.toList.filterMap
        (fun account => if account.state ≠ .unasked then some account.state else none) =
          (accounts.toList.map Port.state).filter (· ≠ .unasked) := by
      rw [← filterMap_eq_filter, filterMap_map]
      simp [Option.guard]
    unfold foldedState
    rw [Accounts.newestClaim_eq, hclaims]
    cases hlast : ((accounts.toList.map Port.state).filter (· ≠ .unasked)).getLast? with
    | some state => rfl
    | none =>
      -- Nobody asked, the newest account included.
      have hnone := filter_eq_nil_iff.mp (getLast?_eq_none_iff.mp hlast)
      have hnewest := hnone accounts.newest.state (mem_map_of_mem (mem_append_right _ mem_cons_self))
      simpa using hnewest
  have hfindings : ∀ (rest : List Port) (port : Port), ∃ findings,
      rest.foldl (foldFindings p) port = { port with findings := findings } := by
    intro rest port
    refine List.foldlRecOn (motive := fun s : Port => ∃ findings, s = { port with findings := findings }) rest _
      ⟨port.findings, rfl⟩ ?_
    rintro s ⟨findings, rfl⟩ account _
    refine List.foldlRecOn (motive := fun s : Port => ∃ findings, s = { port with findings := findings })
      account.findings.values _ ⟨findings, rfl⟩ ?_
    rintro s ⟨findings, rfl⟩ finding _
    split
    · exact ⟨findings, rfl⟩
    · exact ⟨_, rfl⟩
  unfold foldPort
  dsimp only
  rw [hstate]
  obtain ⟨findings, heq⟩ := hfindings accounts.toList
    { Port.new accounts.newest.number accounts.newest.protocol (foldedState accounts.toList) with
      discovery := accounts.newestClaim fun account =>
        if account.state = foldedState accounts.toList then account.discovery else none
      service := foldService accounts
      security := foldSecurity accounts }
  rw [heq]
  exact ⟨_, rfl⟩

theorem endpoint_foldPort (accounts : Accounts Port) : (foldPort p accounts).endpoint = accounts.newest.endpoint := by
  obtain ⟨findings, heq⟩ := foldPort_eq p accounts
  rw [heq]
  rfl

/-- **The ports of a folded record** are the folded ports, each under its endpoint. -/
theorem get?_filedPorts (hfiled : ∀ account ∈ accounts.toList, Host.Bounded account) (endpoint : Endpoint) :
    (filedPorts p accounts).1.get? endpoint =
      (Accounts.ofList (accounts.toList.filterMap fun account => account.ports.get? endpoint)).map (foldPort p) := by
  -- The accounts under a key are accounts of that endpoint, so the port folded from them is.
  have hkey : ∀ entry ∈ (portAccounts accounts).entries, (foldPort p entry.2).endpoint = entry.1 := by
    intro entry hentry
    have hget := get?_eq_some_iff.mpr hentry
    rw [get?_portAccounts] at hget
    obtain ⟨newest, hlast, hnewest⟩ := Option.map_eq_some_iff.mp hget
    have hmem := (mem_filter.mp (mem_of_getLast? hlast)).2
    rw [endpoint_foldPort, ← hnewest]
    exact beq_iff_eq.mp hmem
  have hendpoints : (foldPorts p accounts).map Port.endpoint = (portAccounts accounts).keys := by
    unfold foldPorts SortedMap.values SortedMap.keys
    rw [map_map, map_map]
    exact map_congr_left hkey
  unfold filedPorts
  rw [get?_foldl_filePort endpoint _ _ (hendpoints ▸ (portAccounts accounts).nodup_keys) fun _ _ => rfl,
    get?_empty, Option.or_none, ← accounts_of_endpoint accounts hfiled, ← get?_portAccounts]
  unfold foldPorts SortedMap.values SortedMap.get?
  rw [find?_map, find?_map, Option.map_map, Option.map_map]
  refine congrArg (Option.map _) (find?_congr fun entry hentry => ?_)
  simp [hkey entry hentry]

end Endpoints

/-! ## The newest claim -/

/-- **The newest account that states something decides** the host name, the link, the status and
the route, and the newest that asked the state of an endpoint. -/
theorem foldHost_newest (accounts : Accounts Host)
    (hbuilt : ∀ account ∈ accounts.toList, Host.Built (fun _ => True) account) :
    (foldHost p accounts).hostname = (accounts.toList.filterMap Host.hostname).getLast? ∧
      (foldHost p accounts).zone = (accounts.toList.filterMap Host.zone).getLast? ∧
      (foldHost p accounts).status = ((accounts.toList.map Host.status).filter (· ≠ .unknown)).getLast?.getD .unknown ∧
      (foldHost p accounts).path =
        ((accounts.toList.map Host.path).filter fun path => !path.hops.isEmpty).getLast?.getD .new ∧
      ∀ endpoint, (∃ account ∈ accounts.toList, account.ports.contains endpoint = true) →
        ∃ port, (foldHost p accounts).ports.get? endpoint = some port ∧
          port.state = (((accounts.toList.filterMap fun account => account.ports.get? endpoint).map Port.state).filter
            (· ≠ .unasked)).getLast?.getD .unasked := by
  obtain ⟨aside, telemetry, heq⟩ := foldHost_eq p accounts
  rw [heq]
  refine ⟨accounts.newestClaim_eq _, accounts.newestClaim_eq _, ?_, ?_, ?_⟩
  · dsimp only
    unfold newestStatus
    rw [Accounts.newestClaim_eq, ← filterMap_eq_filter, filterMap_map]
    simp [Option.guard]
  · have hpath : newestPath accounts =
        ((accounts.toList.map Host.path).filter fun path => !path.hops.isEmpty).getLast? := by
      unfold newestPath
      rw [Accounts.newestClaim_eq, ← filterMap_eq_filter, filterMap_map]
      simp [Option.guard]
    rw [← hpath]
    cases newestPath accounts with
    | none => rfl
    | some path => exact path.foldl_record_hops
  · rintro endpoint ⟨account, haccount, hcontains⟩
    obtain ⟨port, hport⟩ := Option.isSome_iff_exists.mp hcontains
    have hmem : port ∈ accounts.toList.filterMap fun account => account.ports.get? endpoint :=
      mem_filterMap.mpr ⟨account, haccount, hport⟩
    rw [get?_filedPorts p accounts fun account haccount => (hbuilt account haccount).bounded]
    generalize accounts.toList.filterMap (fun account => account.ports.get? endpoint) = held at hmem
    obtain ⟨older, newest, rfl⟩ := eq_nil_or_concat held |>.resolve_left (ne_nil_of_mem hmem)
    have haccounts : Accounts.ofList (older ++ [newest]) = some ⟨older, newest⟩ := by simp [Accounts.ofList]
    obtain ⟨findings, hfold⟩ := foldPort_eq p ⟨older, newest⟩
    rw [concat_eq_append, haccounts]
    exact ⟨_, rfl, by rw [hfold]; rfl⟩

def namedThenSilent : Accounts Host :=
  ⟨[((Host.new ⟨1, 0, []⟩ (.v4 7)).apply ⟨1, 0, []⟩ (.setHostname (some ['a']))).apply ⟨1, 0, []⟩
      (.addPort (.new 22 .tcp .open))],
    Host.new ⟨2, 0, []⟩ (.v4 7)⟩

theorem foldHost_newest_silent : (foldHost ⟨3, 0, []⟩ namedThenSilent).hostname = some ['a'] ∧
      ∃ port, (foldHost ⟨3, 0, []⟩ namedThenSilent).ports.get? ⟨22, .tcp⟩ = some port ∧ port.state = .open := by
  have hbuilt : ∀ account ∈ namedThenSilent.toList, Host.Built (fun _ => True) account := by
    intro account haccount
    rcases mem_cons.mp haccount with rfl | haccount
    · exact .call _ _ (.call _ _ (.new _ _) trivial) trivial
    · rw [mem_singleton.mp haccount]
      exact .new _ _
  obtain ⟨hostname, _, _, _, hports⟩ := foldHost_newest ⟨3, 0, []⟩ namedThenSilent hbuilt
  exact ⟨hostname, hports ⟨22, .tcp⟩ ⟨_, mem_cons_self, by decide +kernel⟩⟩

end Merge

end Zond
