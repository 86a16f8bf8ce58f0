import ZondEngine.Model.Host.Addresses
import ZondEngine.Model.Host.Valid
import ZondEngine.Model.Report

/-!
# Every report there is

A report is assembled from records, folded with another, or has its correlations drawn anew (`Built`). Each files a
record under the key of the record itself (`Built.filed`).
-/

namespace Zond

open List SortedMap

open Host (Op)

namespace ScanReport

/-! ## The other calls -/

/-- Folds the hosts and phases of another report in. -/
def fold (combine : Host → Host → Host) (r other : ScanReport) : ScanReport :=
  forgetTheSilent
    { r with
      phases := r.phases ++ other.phases
      hosts := other.hosts.entries.foldl (fun held entry => held.insertWith combine entry.1 entry.2) r.hosts }

variable (p : Process)

def merge (r other : ScanReport) : ScanReport := r.fold (Host.merge p) other

def mergeLaterCopy (r later : ScanReport) : ScanReport := r.fold (Host.mergeLaterAccount p) later

def correlate (r : ScanReport) (detection : Text) (judge : Host → List (Endpoint × List Finding)) : ScanReport :=
  { r with
    hosts := r.hosts.mapValues fun host =>
      (judge host).foldl (fun host judged => host.replacePortCorrelations judged.1 detection judged.2) host }

inductive Built (ok : Op → Prop) : ScanReport → Prop
  | recorded (p : Process) (engineVersion : Text) (phases : List ScanPhase) {hosts : List Host} :
      (∀ host ∈ hosts, Host.Built ok host) → Built ok (recorded p engineVersion phases hosts)
  | merge {r other : ScanReport} (p : Process) : Built ok r → Built ok other → Built ok (r.merge p other)
  | mergeLaterCopy {r later : ScanReport} (p : Process) : Built ok r → Built ok later →
      Built ok (r.mergeLaterCopy p later)
  | correlate {r : ScanReport} (detection : Text) (judge : Host → List (Endpoint × List Finding)) : Built ok r →
      (∀ host, ∀ judged ∈ judge host, ok (.replacePortCorrelations judged.1 detection judged.2)) →
      Built ok (r.correlate detection judge)

/-! ## How hosts are filed -/

theorem index_eq (hosts : List Host) : index p hosts =
    hosts.foldl (fun indexed host => indexed.insertWith (Host.merge p) host.scopedIp.key host) SortedMap.empty := by
  refine foldl_ext _ _ _ fun indexed host _ => ?_
  unfold SortedMap.insertWith
  dsimp only
  cases indexed.get? host.scopedIp.key <;> rfl

theorem mem_values_index {hosts : List Host} (hkeys : (hosts.map fun host => host.scopedIp.key).Nodup)
    {host : Host} : host ∈ (index p hosts).values ↔ host ∈ hosts := by
  rw [index_eq]
  exact mem_values_foldl_insertWith _ hkeys

theorem contains_index {hosts : List Host} {host : Host} (hmem : host ∈ hosts) :
    (index p hosts).contains host.scopedIp.key = true := by
  have hfiled : host ∈ hosts.filter fun other => other.scopedIp.key = host.scopedIp.key :=
    mem_filter.mpr ⟨hmem, decide_eq_true rfl⟩
  obtain ⟨init, last, heq⟩ := eq_nil_or_concat _ |>.resolve_left (ne_nil_of_mem hfiled)
  unfold SortedMap.contains
  rw [index_eq, get?_foldl_insertWith _ _ host.scopedIp.key
    (fun other => decide (other = host.scopedIp.key)) fun _ => decide_eq_true_iff, heq, concat_eq_append,
    foldl_append]
  rfl

def Filed (ok : Op → Prop) (hosts : SortedMap ScopedIp.Key Host) : Prop :=
  ∀ key host, hosts.get? key = some host → host.scopedIp.key = key ∧ Host.Built ok host

section Filed

variable {ok : Op → Prop} {hosts : SortedMap ScopedIp.Key Host}

theorem filed_empty : Filed ok SortedMap.empty := by
  intro key host hget
  exact absurd hget (Option.some_ne_none host).symm

/-- A way to combine two records of one address into a record of it. -/
def Keeps (ok : Op → Prop) (combine : Host → Host → Host) : Prop :=
  ∀ h other : Host, Host.Built ok h → Host.Built ok other → other.scopedIp.key = h.scopedIp.key →
    (combine h other).scopedIp.key = h.scopedIp.key ∧ Host.Built ok (combine h other)

theorem Filed.insertWith (hfiled : Filed ok hosts) {combine : Host → Host → Host} (hkeeps : Keeps ok combine)
    {host : Host} (hbuilt : Host.Built ok host) : Filed ok (hosts.insertWith combine host.scopedIp.key host) := by
  intro key found hget
  rw [get?_insertWith] at hget
  split at hget
  next heq =>
    subst heq
    obtain rfl := Option.some.inj hget
    cases hheld : hosts.get? host.scopedIp.key with
    | none => exact ⟨rfl, hbuilt⟩
    | some held =>
      obtain ⟨hkey, hheld⟩ := hfiled _ held hheld
      obtain ⟨hmoved, hbuilt⟩ := hkeeps held host hheld hbuilt hkey.symm
      exact ⟨hmoved.trans hkey, hbuilt⟩
  · exact hfiled key found hget

theorem keeps_merge (p : Process) : Keeps ok (Host.merge p) :=
  fun _ _ hb hother hkey => ⟨Host.key_merge p hkey, .merge p hb hother⟩

theorem keeps_mergeLaterAccount (p : Process) : Keeps ok (Host.mergeLaterAccount p) :=
  fun _ _ hb hother hkey => ⟨Host.key_merge p hkey, .mergeLaterAccount p hb hother⟩

theorem filed_index (p : Process) {found : List Host} (hbuilt : ∀ host ∈ found, Host.Built ok host) :
    Filed ok (index p found) := by
  rw [index_eq]
  exact List.foldlRecOn (motive := Filed ok) found _ filed_empty
    fun _ hs host hhost => hs.insertWith (keeps_merge p) (hbuilt host hhost)

theorem Filed.retain (hfiled : Filed ok hosts) (keep : ScopedIp.Key → Host → Bool) : Filed ok (hosts.retain keep) :=
  fun key host hget => hfiled key host (get?_of_get?_retain hget)

theorem filed_forgetTheSilent {r : ScanReport} (hfiled : Filed ok r.hosts) : Filed ok r.forgetTheSilent.hosts := by
  unfold forgetTheSilent
  dsimp only
  split
  · exact hfiled
  · exact hfiled.retain _

theorem filed_fold {r other : ScanReport} (hfiled : Filed ok r.hosts) (hother : Filed ok other.hosts)
    {combine : Host → Host → Host} (hkeeps : Keeps ok combine) : Filed ok (r.fold combine other).hosts := by
  refine filed_forgetTheSilent ?_
  refine List.foldlRecOn (motive := Filed ok) other.hosts.entries _ hfiled fun s hs entry hentry => ?_
  obtain ⟨hkey, hbuilt⟩ := hother entry.1 entry.2 (get?_eq_some_iff.mpr hentry)
  rw [← hkey]
  exact hs.insertWith hkeeps hbuilt

theorem key_replacePortCorrelations (h : Host) (endpoint : Endpoint) (detection : Text) (findings : List Finding) :
    (h.replacePortCorrelations endpoint detection findings).scopedIp.key = h.scopedIp.key := by
  unfold Host.replacePortCorrelations
  split
  · dsimp only
    split <;> rfl
  · rfl

theorem Filed.correlate (hfiled : Filed ok hosts) (detection : Text) {judge : Host → List (Endpoint × List Finding)}
    (hok : ∀ host, ∀ judged ∈ judge host, ok (.replacePortCorrelations judged.1 detection judged.2)) :
    Filed ok (hosts.mapValues fun host =>
      (judge host).foldl (fun host judged => host.replacePortCorrelations judged.1 detection judged.2) host) := by
  intro key found hget
  rw [get?_mapValues] at hget
  obtain ⟨host, hhost, rfl⟩ := Option.map_eq_some_iff.mp hget
  refine List.foldlRecOn (motive := fun s : Host => s.scopedIp.key = key ∧ Host.Built ok s) (judge host) _
    (hfiled key host hhost) fun s hs judged hjudged => ?_
  exact ⟨(key_replacePortCorrelations s judged.1 detection judged.2).trans hs.1,
    .call ⟨0, 0, []⟩ _ hs.2 (hok host judged hjudged)⟩

end Filed

/-- **A report files every host under the host's own key.** -/
theorem Built.filed {ok : Op → Prop} {r : ScanReport} (h : Built ok r) : Filed ok r.hosts := by
  induction h with
  | recorded p engineVersion phases hbuilt => exact filed_forgetTheSilent (filed_index p hbuilt)
  | merge p _ _ ih ih' => exact filed_fold ih ih' (keeps_merge p)
  | mergeLaterCopy p _ _ ih ih' => exact filed_fold ih ih' (keeps_mergeLaterAccount p)
  | correlate detection judge _ hok ih => exact ih.correlate detection hok

theorem Built.mem_hostList {ok : Op → Prop} {r : ScanReport} (h : Built ok r) {host : Host} (hmem : host ∈ r.hostList) :
    r.hosts.get? host.scopedIp.key = some host ∧ Host.Built ok host := by
  obtain ⟨entry, hentry, rfl⟩ := mem_map.mp hmem
  have hget := get?_eq_some_iff.mpr hentry
  obtain ⟨hkey, hbuilt⟩ := h.filed entry.1 entry.2 hget
  exact ⟨hkey ▸ hget, hbuilt⟩

/-- **A report lists well-formed hosts within their ceilings**, each under its own address. -/
theorem listed_of_built {r : ScanReport} (h : Built Op.WellFormed r) {host : Host} (hmem : host ∈ r.hostList) :
    r.hosts.get? host.scopedIp.key = some host ∧ host.Bounded ∧ host.Valid := by
  obtain ⟨hget, hbuilt⟩ := h.mem_hostList hmem
  exact ⟨hget, hbuilt.bounded, hbuilt.valid⟩

/-! A storage box with a name, a port and a finding, seen by two scans, and a weakness drawn from its service. -/

def nasName : HostName := (HostName.new .netbiosHost .smb " NAS ").get (by decide)

def anonymousShare : Finding :=
  ((Finding.new ⟨"smb:anonymous", ⟨1, 0, 0⟩, [], by decide⟩ "anonymous share" .high .certain
    .passive).toOption.get (by decide)).withReference (.cwe 306)

def knownExploited : Exploitation :=
  (Exploitation.new ⟨"kev", ⟨1, 0, 0⟩, [], by decide⟩ ["CVE-2017-7494"]).toOption.get (by decide)

def smbWeakness : FindingGroup := (FindingGroup.new "smb" "weak file sharing").toOption.get (by decide)

def oldSmbd : Finding :=
  ((((Finding.new ⟨"cve", ⟨1, 0, 0⟩, [], by decide⟩ "old smbd" .critical .probable .passive).toOption.get
    (by decide)).withReference (.cve "CVE-2017-7494")).withGroup smbWeakness).withExploitation knownExploited

def nas (ip : Fin (2 ^ 32)) (port : UInt16) : Host :=
  [.setStatus .up, .recordName nasName, .addPort (.new port .tcp .open), .addFinding anonymousShare].foldl
    (fun host op => host.apply ⟨1, 0, []⟩ op) (.new ⟨1, 0, []⟩ (.v4 ip))

theorem toOption_get_eq {ε α : Type} {value : Except ε α} (h : value.toOption.isSome = true) :
    value = .ok (value.toOption.get h) := by
  cases value with
  | error error => cases h
  | ok a => rfl

theorem built_nas (ip : Fin (2 ^ 32)) (port : UInt16) : Host.Built Op.WellFormed (nas ip port) := by
  refine List.foldlRecOn (motive := Host.Built Op.WellFormed) _ _ (.new _ _) fun host hhost op hop =>
    .call _ op hhost ?_
  simp only [mem_cons, not_mem_nil, or_false] at hop
  rcases hop with rfl | rfl | rfl | rfl
  · trivial
  · exact HostName.wellFormed_of_new (Option.some_get _).symm
  · exact Port.wellFormed_new port .tcp .open
  · exact (Finding.wellFormed_of_new (toOption_get_eq _)).withReference _

def nasScan (ports : List UInt16) : ScanReport :=
  .recorded ⟨1, 0, []⟩ "0.19.0"
    [⟨.portScan, 0, 9, ⟨[.v4 ⟨7, 9, by decide⟩], [], .noPorts, []⟩, [], [], [], none, false⟩] (ports.map (nas 7))

def nasReport : ScanReport :=
  ((nasScan [445, 139]).merge ⟨2, 0, []⟩ (nasScan [445, 22])).correlate "cve"
    fun _ => [(⟨445, .tcp⟩, [oldSmbd])]

theorem listed_of_built_nasReport : (nasReport.hostList.map fun host => (host.ports.len, host.names.len)) = [(3, 1)] ∧
    ∀ host ∈ nasReport.hostList,
      nasReport.hosts.get? host.scopedIp.key = some host ∧ host.Bounded ∧ host.Valid := by
  have hscan : ∀ ports, Built Op.WellFormed (nasScan ports) := by
    refine fun ports => .recorded _ _ _ fun host hhost => ?_
    obtain ⟨port, -, rfl⟩ := mem_map.mp hhost
    exact built_nas 7 port
  have hbuilt : Built Op.WellFormed nasReport := by
    refine .correlate _ _ (.merge _ (hscan _) (hscan _)) fun host judged hjudged finding hfinding => ?_
    obtain rfl := mem_singleton.mp hjudged
    obtain rfl := mem_singleton.mp hfinding
    exact (((Finding.wellFormed_of_new (toOption_get_eq _)).withReference _).withGroup
      (FindingGroup.wellFormed_of_new (toOption_get_eq _))).withExploitation
      (Exploitation.wellFormed_of_new (toOption_get_eq _))
  exact ⟨by decide +kernel, fun host hhost => listed_of_built hbuilt hhost⟩

end ScanReport

end Zond
