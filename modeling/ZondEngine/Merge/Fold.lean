import ZondEngine.Model.Report

/-!
# Folding the accounts of one host

`foldHost` of `merge.rs` makes one record of the accounts of one machine, from the oldest to the newest: a verdict is
the newest account's that states one, and a gap is filled from older accounts. `Accounts` holds a newest one.
-/

namespace Zond

structure Accounts (α : Type) where
  older : List α
  newest : α

namespace Accounts

variable {α β : Type} (a : Accounts α)

def toList : List α := a.older ++ [a.newest]

def push (account : α) : Accounts α := ⟨a.toList, account⟩

def ofList (accounts : List α) : Option (Accounts α) :=
  accounts.getLast?.map fun newest => ⟨accounts.dropLast, newest⟩

def newestClaim (claim : α → Option β) : Option β := a.toList.reverse.findSome? claim

end Accounts

namespace Merge

/-! ## Services -/

def sameService (newest older : Service) : Bool := newest.name == older.name && newest.product == older.product

def identified (port : Port) : Option Service := port.service.filter fun service => !service.isInferred

def completeService (folded older : Service) : Service :=
  let version := folded.version.or older.version
  { folded with
    vendor := folded.vendor.or older.vendor
    version
    extrainfo := folded.extrainfo.or older.extrainfo
    -- An older build belongs only to the version it was stated for.
    build := folded.build.or (if version = older.version then older.build else none) }

/-- One service from the accounts of a port. -/
def foldService (accounts : Accounts Port) : Option Service :=
  ((accounts.newestClaim identified).or (accounts.newestClaim Port.service)).map fun newest =>
    -- Every other identification; where there is one at all, the newest of them is the fold's own.
    let others := (accounts.toList.reverse.filterMap identified).tail
    let stated :=
      { Service.new newest.name newest.confidence with
        product := newest.product
        vendor := newest.vendor
        version := newest.version
        extrainfo := newest.extrainfo
        build := newest.build }
    let folded := (others.filter (sameService newest)).foldl completeService stated
    let agreeing := others.filter fun older =>
      sameService newest older && older.version.all fun version => folded.version == some version
    { folded with
      cpe := addCpes MAX_CPES_PER_SERVICE folded.cpe (newest.cpe.keys ++ agreeing.flatMap fun older => older.cpe.keys) }

/-! ## Ports -/

def sameBuildKey (build : Build) : Distributor × Option Text × Option Text :=
  (build.distributor, build.revision, build.release.map Release.name)

def carries (finding : Finding) (port : Port) : Bool :=
  port.service.any fun service => finding.cpes.keys.any service.cpe.contains

def judged (finding : Finding) (port : Port) : Bool :=
  (port.service.bind Service.build).map sameBuildKey == finding.build.map sameBuildKey

/-- Whether the folded port no longer bears out a finding. -/
def overturned (p : Process) (finding : Finding) (account folded : Port) : Bool :=
  if finding.isCorrelation then
    (carries finding account && !carries finding folded) || (judged finding account && !judged finding folded)
  else
    match folded.security, account.security with
    | some folded, some basis => folded.standing p finding basis == some .overturned
    | _, _ => false

variable (p : Process)

def worded (finding : Finding) (account folded : Port) : Finding :=
  let restated :=
    match folded.security, account.security with
    | some folded, some basis => folded.restate p finding basis
    | _, _ => none
  restated.elim finding finding.withExcerpt

def foldFindings (folded account : Port) : Port :=
  account.findings.values.foldl
    (fun port finding =>
      if overturned p finding account port then port else port.addFinding (worded p finding account port))
    folded

def foldSecurity (accounts : Accounts Port) : Option Security :=
  (accounts.toList.filterMap Port.security).foldl
    (fun older found => some (older.elim found fun older => found.merge older)) none

/-- One port from the accounts of it. -/
def foldPort (accounts : Accounts Port) : Port :=
  let newest := accounts.newest
  let state := (accounts.newestClaim fun account =>
    if account.state ≠ .unasked then some account.state else none).getD newest.state
  let port :=
    { Port.new newest.number newest.protocol state with
      discovery := accounts.newestClaim fun account => if account.state = state then account.discovery else none
      service := foldService accounts
      security := foldSecurity accounts }
  (accounts.toList.foldl (foldFindings p) port).retireSupersededCorrelations

variable (accounts : Accounts Host)

def portAccounts : SortedMap Endpoint (Accounts Port) :=
  (accounts.toList.flatMap fun account => account.ports.values).foldl
    (fun held port =>
      held.insert port.endpoint
        (match held.get? port.endpoint with
        | some of => of.push port
        | none => ⟨[], port⟩))
    SortedMap.empty

def foldPorts : List Port := (portAccounts accounts).values.map (foldPort p)

/-! ## The system -/

def namesTheSameSystem (newest older : OsFingerprint) : Bool :=
  newest.name == older.name && newest.family == older.family && newest.generation == older.generation &&
    newest.vendor == older.vendor

def completeOs (folded older : OsFingerprint) : OsFingerprint :=
  { folded with
    kernel := folded.kernel.or older.kernel
    arch := folded.arch.or older.arch
    device := folded.device.or older.device
    detailAccuracy := folded.detailAccuracy.or (older.detailAccuracy.map (min · 100))
    evidence := folded.evidence.or older.evidence }

/-- The newest reading, completed by older ones of the same system. -/
def foldOs : Option OsFingerprint :=
  (accounts.newestClaim Host.os).map fun newest =>
    let stated :=
      { OsFingerprint.new newest.name newest.accuracy with
        family := newest.family
        generation := newest.generation
        vendor := newest.vendor
        kernel := newest.kernel
        arch := newest.arch
        device := newest.device
        detailAccuracy := newest.detailAccuracy.map (min · 100)
        evidence := newest.evidence }
    let older := ((accounts.toList.reverse.filterMap Host.os).drop 1).filter (namesTheSameSystem newest)
    let folded := older.foldl completeOs stated
    { folded with
      cpe := addCpes MAX_CPES_PER_OS folded.cpe ((accounts.toList.filterMap Host.os).flatMap fun os => os.cpe.keys) }

/-! ## Hosts -/

def foldAddresses : Host :=
  accounts.toList.foldl
    (fun host account => (host.extendIps p account.ips.keys).considerPrimaryIp p account.primaryIp)
    (Host.new p accounts.newest.primaryIp)

def foldNamesOf (state : Host × List NameSource) (account : Host) : Host × List NameSource :=
  let unheard := account.names.keys.filter fun name => name.source ∉ state.2
  (unheard.foldl (Host.recordName p) state.1, state.2 ++ account.names.keys.map HostName.source)

variable (host : Host)

def foldNames (accounts : Accounts Host) : Host :=
  let called := (accounts.newestClaim Host.hostname).elim host fun hostname => host.setHostname p (some hostname)
  let named := (accounts.toList.reverse.foldl (foldNamesOf p) (called, [])).1
  accounts.toList.foldl Host.setAsideNamesOf named

def foldStatus (accounts : Accounts Host) : Host :=
  let status := accounts.newestClaim fun account => if account.status ≠ .unknown then some account.status else none
  -- The sets are unions; what the insertions stamp is put back at the end of the fold.
  accounts.toList.foldl
    (fun host account =>
      { host with
        reasons := host.reasons ∪ account.reasons
        networkRoles := host.networkRoles ∪ account.networkRoles
        filtering := host.filtering ∪ account.filtering })
    (status.elim host (host.setStatus p))

def foldSystem (accounts : Accounts Host) : Host :=
  let read := accounts.toList.reverse.foldl
    (fun host account => account.osEvidence.values.foldl Host.recordOsEvidence host) host
  (foldOs accounts).elim read (read.setOs p)

def foldHardware (accounts : Accounts Host) : Host :=
  let hardware := (accounts.toList.reverse.filterMap Host.hardware).foldl
    (fun existing found => some (existing.elim found fun existing => existing.merge found)) none
  hardware.elim host (host.setHardware p)

def foldTelemetry (accounts : Accounts Host) : Host :=
  let measured := accounts.newestClaim fun account =>
    if !account.telemetry.rttHistory.isEmpty || account.telemetry.hopCounter.isSome then some account.telemetry
    else none
  measured.elim host fun telemetry =>
    let timed := host.addRtts p (telemetry.rttHistory.map RttSample.rtt)
    telemetry.hopCounter.elim timed timed.recordHopCounter

def foldPlace (accounts : Accounts Host) : Host :=
  let placed := (accounts.newestClaim Host.zone).elim host (host.setZone p)
  let measured := foldTelemetry p placed accounts
  let path := accounts.newestClaim fun account => if account.path.hops.isEmpty then none else some account.path
  path.elim measured fun path => path.hops.foldl (Host.recordHop p) measured

/-- One record from the accounts of a host. -/
def foldHost : Host :=
  let named := foldNames p (foldAddresses p accounts) accounts
  let known := foldHardware p (foldSystem p (foldStatus p named accounts) accounts) accounts
  let placed := foldPlace p known accounts
  let ported := (foldPorts p accounts).foldl (Host.addPort p) placed
  let claimed := (accounts.toList.flatMap fun account => account.findings.values).foldl Host.addFinding ported
  claimed.restoreSeen
    (accounts.older.foldl (fun first account => min first account.firstSeen) accounts.newest.firstSeen)
    (accounts.older.foldl (fun last account => max last account.lastSeen) accounts.newest.lastSeen)

end Merge

end Zond
