import ZondEngine.Model.Host.Parts

/-!
# What the enumerations are called in a file

The names of `record/wire.rs`. A `Spelling` is a name for each variant and a parser that reads every name back.
-/

namespace Zond

open Port (Protocol)

namespace Wire

/-! ## Spellings -/

def readName {α : Type} (names : List (String × α)) (name : Text) : Option α :=
  (names.find? fun entry => entry.1.toList == name).map Prod.snd

structure Spelling (α : Type) where
  name : α → Text
  parse : Text → Option α
  parse_name : ∀ a, parse (name a) = some a

theorem Spelling.name_injective {α : Type} (spelling : Spelling α) : Function.Injective spelling.name := by
  intro a b h
  have hread := spelling.parse_name a
  rw [h, spelling.parse_name b] at hread
  exact (Option.some.inj hread).symm

/-! ## Hosts -/

def hostStatus : Spelling HostStatus where
  name
    | .unknown => "unknown"
    | .down => "down"
    | .blocked => "blocked"
    | .up => "up"
  parse := readName [("unknown", .unknown), ("down", .down), ("blocked", .blocked), ("up", .up)]
  parse_name status := by cases status <;> rfl

def ipProtocolState : Spelling IpProtocolState where
  name
    | .unasked => "unasked"
    | .openOrNoReply => "open_or_no_reply"
    | .blocked => "blocked"
    | .closed => "closed"
    | .open => "open"
  parse := readName
    [("unasked", .unasked), ("open_or_no_reply", .openOrNoReply), ("blocked", .blocked), ("closed", .closed),
      ("open", .open)]
  parse_name state := by cases state <;> rfl

def networkRole : Spelling NetworkRole where
  name
    | .router => "router"
    | .dnsServer => "dns"
    | .dhcpServer => "dhcp"
    | .ntpServer => "ntp"
    | .snmpAgent => "snmp"
    | .domainController => "domain-controller"
    | .switch => "switch"
    | .origin => "origin"
    | .tarpit => "tarpit"
    | .truncated => "truncated"
  parse := readName
    [("router", .router), ("dns", .dnsServer), ("dhcp", .dhcpServer), ("ntp", .ntpServer), ("snmp", .snmpAgent),
      ("domain-controller", .domainController), ("switch", .switch), ("origin", .origin), ("tarpit", .tarpit),
      ("truncated", .truncated)]
  parse_name role := by cases role <;> rfl

def filtering : Spelling Filtering where
  name
    | .inlineMiddlebox => "inline_middlebox"
    | .statefulFilter => "stateful_filter"
    | .portTrustingAcl => "port_trusting_acl"
    | .statelessFilter => "stateless_filter"
  parse := readName
    [("inline_middlebox", .inlineMiddlebox), ("stateful_filter", .statefulFilter),
      ("port_trusting_acl", .portTrustingAcl), ("stateless_filter", .statelessFilter)]
  parse_name kind := by cases kind <;> rfl

def nameKind : Spelling NameKind where
  name
    | .host => "host"
    | .netbiosHost => "netbios_host"
    | .domain => "domain"
    | .netbiosDomain => "netbios_domain"
    | .forest => "forest"
  parse := readName
    [("host", .host), ("netbios_host", .netbiosHost), ("domain", .domain), ("netbios_domain", .netbiosDomain),
      ("forest", .forest)]
  parse_name kind := by cases kind <;> rfl

def nameSource : Spelling NameSource where
  name
    | .ntlm => "ntlm"
    | .ldap => "ldap"
    | .kerberos => "kerberos"
    | .smb => "smb"
    | .netbios => "netbios"
    | .l2tp => "l2tp"
  parse := readName
    [("ntlm", .ntlm), ("ldap", .ldap), ("kerberos", .kerberos), ("smb", .smb), ("netbios", .netbios), ("l2tp", .l2tp)]
  parse_name source := by cases source <;> rfl

def osSource : Spelling OsSource where
  name
    | .tcpStack => "tcp_stack"
    | .hardwareVendor => "hardware_vendor"
    | .serviceBanner => "service_banner"
    | .snmpAgent => "snmp_agent"
    | .mdnsResponder => "mdns_responder"
    | .hostname => "hostname"
  parse := readName
    [("tcp_stack", .tcpStack), ("hardware_vendor", .hardwareVendor), ("service_banner", .serviceBanner),
      ("snmp_agent", .snmpAgent), ("mdns_responder", .mdnsResponder), ("hostname", .hostname)]
  parse_name source := by cases source <;> rfl

def rttSource : Spelling RttSource where
  name
    | .direct => "direct"
    | .segmentWide => "segment_wide"
    | .firstToNeighbour => "first_to_neighbour"
  parse := readName [("direct", .direct), ("segment_wide", .segmentWide), ("first_to_neighbour", .firstToNeighbour)]
  parse_name source := by cases source <;> rfl

/-! ## Ports and services -/

def portState : Spelling PortState where
  name
    | .unasked => "unasked"
    | .closedOrNoReply => "closed_or_no_reply"
    | .noReply => "no_reply"
    | .blocked => "blocked"
    | .reachable => "reachable"
    | .closed => "closed"
    | .openOrNoReply => "open_or_no_reply"
    | .open => "open"
  parse := readName
    [("unasked", .unasked), ("closed_or_no_reply", .closedOrNoReply), ("no_reply", .noReply), ("blocked", .blocked),
      ("reachable", .reachable), ("closed", .closed), ("open_or_no_reply", .openOrNoReply), ("open", .open)]
  parse_name state := by cases state <;> rfl

def protocol : Spelling Protocol where
  name
    | .tcp => "tcp"
    | .udp => "udp"
    | .sctp => "sctp"
  parse := readName [("tcp", .tcp), ("udp", .udp), ("sctp", .sctp)]
  parse_name protocol := by cases protocol <;> rfl

def releaseBasis : Spelling ReleaseBasis where
  name
    | .banner => "banner"
    | .revision => "revision"
  parse := readName [("banner", .banner), ("revision", .revision)]
  parse_name basis := by cases basis <;> rfl

end Wire

def Distributor.ALL : List Distributor :=
  [debian, ubuntu, raspbian, redHat, centOs, fedora, amazon, rocky, alma, oracle, suse, alpine, freeBsd]

namespace Wire

def distributorName : Distributor → Text
  | .debian => "debian"
  | .ubuntu => "ubuntu"
  | .raspbian => "raspbian"
  | .redHat => "redhat"
  | .centOs => "centos"
  | .fedora => "fedora"
  | .amazon => "amazon"
  | .rocky => "rocky"
  | .alma => "almalinux"
  | .oracle => "oracle"
  | .suse => "suse"
  | .alpine => "alpine"
  | .freeBsd => "freebsd"

def distributor : Spelling Distributor where
  name := distributorName
  parse name := Distributor.ALL.find? fun distributor => distributorName distributor == name
  parse_name distributor := by cases distributor <;> rfl

/-! ## Findings -/

def severity : Spelling Severity where
  name
    | .info => "info"
    | .low => "low"
    | .medium => "medium"
    | .high => "high"
    | .critical => "critical"
  parse := readName [("info", .info), ("low", .low), ("medium", .medium), ("high", .high), ("critical", .critical)]
  parse_name severity := by cases severity <;> rfl

def detectionClass : Spelling DetectionClass where
  name
    | .passive => "passive"
    | .activeBenign => "active_benign"
    | .activeMutating => "active_mutating"
    | .exploit => "exploit"
    | .dos => "dos"
  parse := readName
    [("passive", .passive), ("active_benign", .activeBenign), ("active_mutating", .activeMutating),
      ("exploit", .exploit), ("dos", .dos)]
  parse_name kind := by cases kind <;> rfl

def confidence : Spelling Confidence where
  name
    | .heuristic => "heuristic"
    | .weak => "weak"
    | .probable => "probable"
    | .strong => "strong"
    | .certain => "certain"
  parse := readName
    [("heuristic", .heuristic), ("weak", .weak), ("probable", .probable), ("strong", .strong), ("certain", .certain)]
  parse_name confidence := by cases confidence <;> rfl

def referenceKindName : Reference → Text
  | .cve _ => "cve"
  | .cwe _ => "cwe"
  | .url _ => "url"

def reference (kind value : Text) : Option Reference :=
  if kind = "cve" then Reference.ofCve value
  else if kind = "cwe" then
    (Text.parseUnsigned (2 ^ 32) value).toOption.map fun number => .cwe (UInt32.ofNat number)
  else if kind = "url" then some (.url value)
  else none

/-! ## Names a strategy supplies -/

def CUSTOM : Text := "custom:"

def readCustom {α : Type} (custom : Text → α) (names : List (String × α)) (name : Text) : Option α :=
  match name.dropPrefix? CUSTOM with
  | some supplied => if supplied.isEmpty then none else some (custom supplied)
  | none => readName names name

theorem readCustom_custom {α : Type} (custom : Text → α) (names : List (String × α)) {supplied : Text}
    (h : supplied ≠ []) : readCustom custom names (CUSTOM ++ supplied) = some (custom supplied) := by
  unfold readCustom
  rw [List.dropPrefix?_append_of_beq supplied BEq.rfl]
  simp [h]

def statusProtocolName : StatusProtocol → Text
  | .arp => "arp"
  | .ndp => "ndp"
  | .icmpEcho => "icmp_echo"
  | .icmpTimestamp => "icmp_timestamp"
  | .icmpUnreachable => "icmp_unreachable"
  | .tcpSyn => "tcp_syn"
  | .tcpConnect => "tcp_connect"
  | .tcp => "tcp"
  | .dhcp => "dhcp"
  | .udp => "udp"
  | .sctp => "sctp"
  | .custom name => CUSTOM ++ name

def statusProtocol : Text → Option StatusProtocol :=
  readCustom .custom
    [("icmp_timestamp", .icmpTimestamp), ("arp", .arp), ("ndp", .ndp), ("icmp_echo", .icmpEcho),
      ("icmp_unreachable", .icmpUnreachable), ("tcp_syn", .tcpSyn), ("tcp_connect", .tcpConnect), ("tcp", .tcp),
      ("dhcp", .dhcp), ("udp", .udp), ("sctp", .sctp)]

theorem statusProtocol_name {protocol : StatusProtocol} (h : protocol ≠ .custom []) :
    statusProtocol (statusProtocolName protocol) = some protocol := by
  cases protocol with
  | custom name => exact readCustom_custom _ _ fun hempty => h (congrArg _ hempty)
  | _ => rfl

def scanResponseName : ScanResponse → Text
  | .tcpSynAck => "tcp_syn_ack"
  | .overheardSynAck => "overheard_syn_ack"
  | .tcpRst => "tcp_rst"
  | .connectionRefused => "connection_refused"
  | .udpResponse => "udp_response"
  | .sctpInitAck => "sctp_init_ack"
  | .sctpAbort => "sctp_abort"
  | .noResponse => "no_response"
  | .icmpUnreachable => "icmp_unreachable"
  | .icmpProhibited => "icmp_prohibited"
  | .custom name => CUSTOM ++ name

def scanResponse : Text → Option ScanResponse :=
  readCustom .custom
    [("tcp_syn_ack", .tcpSynAck), ("overheard_syn_ack", .overheardSynAck), ("tcp_rst", .tcpRst),
      ("connection_refused", .connectionRefused), ("udp_response", .udpResponse), ("sctp_init_ack", .sctpInitAck),
      ("sctp_abort", .sctpAbort), ("no_response", .noResponse), ("icmp_unreachable", .icmpUnreachable),
      ("icmp_prohibited", .icmpProhibited)]

theorem scanResponse_name {response : ScanResponse} (h : response ≠ .custom []) :
    scanResponse (scanResponseName response) = some response := by
  cases response with
  | custom name => exact readCustom_custom _ _ fun hempty => h (congrArg _ hempty)
  | _ => rfl

theorem scanResponse_empty : scanResponse (scanResponseName (.custom [])) = none := rfl

end Wire

end Zond
