import ZondEngine.Model.Corroborate
import ZondEngine.Model.Host.Run

/-!
# Findings stay under their claims

`Port.Built` are the ports that calls and folds make of a fresh one.

* `findings_under_claims`: corroborating keeps the claim and reports exactly whether it changed anything, so on every
  port and host each finding is filed under the claim it makes.
-/

namespace Zond

/-! ## Ports -/

namespace Port

/-- A call on a port, other than a fold of another one. `with_service` and `with_security` are `setService` and
`setSecurity`. -/
inductive Call where
  | setState (state : PortState)
  | setService (service : Service)
  | setSecurity (security : Security)
  | withDiscovery (discovery : Discovery)
  | addFinding (finding : Finding)
  | replaceCorrelations (detection : Text) (findings : List Finding)
  | retireSupersededCorrelations

def call (port : Port) : Call → Port
  | .setState state => { port with state := max port.state state }
  | .setService service => { port with service := some service }
  | .setSecurity security => { port with security := some security }
  | .withDiscovery discovery => { port with discovery := some discovery }
  | .addFinding finding => port.addFinding finding
  | .replaceCorrelations detection findings => (port.replaceCorrelations detection findings).1
  | .retireSupersededCorrelations => port.retireSupersededCorrelations

inductive Built : Port → Prop
  | new (number : UInt16) (protocol : Protocol) (state : PortState) : Built (Port.new number protocol state)
  | call {port : Port} (call : Call) : Built port → Built (port.call call)
  | merge {port other : Port} : Built port → Built other → Built (port.merge other)

variable {port : Port}

theorem filed_foldl_addFinding (h : Filed port.findings) (added : List Finding) :
    Filed (added.foldl addFinding port).findings := by
  rw [foldl_addFinding]
  exact List.foldlRecOn (motive := Filed) added _ h fun _ hs finding _ => hs.addFinding finding

theorem filed_replaceCorrelations (h : Filed port.findings) (detection : Text) (findings : List Finding) :
    Filed (port.replaceCorrelations detection findings).1.findings := by
  refine filed_foldl_addFinding ?_ findings
  exact h.retain fun _ finding => !drawnBy detection finding

theorem filed_merge {port other : Port} (h : Filed port.findings) : Filed (port.merge other).findings := by
  refine filed_foldl_addFinding ?_ other.findings.values
  exact h

/-- **One call keeps the findings of a port under their claims.** -/
theorem filed_call (h : Filed port.findings) (call : Call) : Filed (port.call call).findings := by
  cases call with
  | addFinding finding => exact h.addFinding finding
  | replaceCorrelations detection findings => exact filed_replaceCorrelations h detection findings
  | retireSupersededCorrelations =>
    show Filed port.retireSupersededCorrelations.findings
    unfold retireSupersededCorrelations
    dsimp only
    exact h.retain _
  | _ => exact h

theorem Built.filed (h : port.Built) : Filed port.findings := by
  induction h with
  | new number protocol state => exact Filed.empty
  | call call _ ih => exact filed_call ih call
  | merge _ _ ih _ => exact filed_merge ih

end Port

/-! ## Hosts -/

namespace Host

structure Claimed (h : Host) : Prop where
  own : Filed h.findings
  ports : ∀ endpoint port, h.ports.get? endpoint = some port → Filed port.findings

def Op.HandsBuilt : Op → Prop
  | .addPort port => port.Built
  | _ => True

section Steps

variable {h : Host}

theorem filed_filePort {s : PortsState} (hs : ∀ endpoint port, s.1.get? endpoint = some port → Filed port.findings)
    {port : Port} (hport : Filed port.findings) :
    ∀ endpoint held, (filePort s port).1.get? endpoint = some held → Filed held.findings := by
  refine SortedMap.forall_get?_insert hs ?_
  cases hget : s.1.get? port.endpoint with
  | none => exact hport
  | some existing => exact Port.filed_merge (hs _ _ hget)

theorem Claimed.addPortFinding (hc : Claimed h) (endpoint : Endpoint) (finding : Finding) :
    Claimed (h.addPortFinding endpoint finding) := by
  unfold Host.addPortFinding
  split
  next port hget => exact ⟨hc.own, SortedMap.forall_get?_insert hc.ports ((hc.ports _ _ hget).addFinding finding)⟩
  · exact hc

theorem Claimed.replacePortCorrelations (hc : Claimed h) (endpoint : Endpoint) (detection : Text)
    (findings : List Finding) : Claimed (h.replacePortCorrelations endpoint detection findings) := by
  unfold Host.replacePortCorrelations
  split
  next port hget =>
    have hreplaced := Port.filed_replaceCorrelations (hc.ports _ _ hget) detection findings
    dsimp only
    split
    · exact ⟨hc.own, SortedMap.forall_get?_insert hc.ports hreplaced⟩
    · exact ⟨hc.own, SortedMap.forall_get?_insert hc.ports hreplaced⟩
  · exact hc

theorem Claimed.retain (hc : Claimed h) (keep : Endpoint → Port → Bool) :
    ∀ endpoint port, (h.ports.retain keep).get? endpoint = some port → Filed port.findings :=
  fun endpoint port hget => hc.ports endpoint port (SortedMap.get?_of_get?_retain hget)

/-- **One call keeps every finding of a host under its claim.** -/
theorem Claimed.apply (hc : Claimed h) (p : Process) {op : Op} (hop : op.HandsBuilt) : Claimed (h.apply p op) := by
  cases op with
  | extendIps ips =>
    obtain ⟨held, hmem, heq⟩ := foldl_admitIp_eq ips h
    show Claimed ((ips.foldl admitIp h).seen p)
    rw [heq]
    exact ⟨hc.own, hc.ports⟩
  | adoptIps ips =>
    obtain ⟨held, hmem, heq⟩ := foldl_admitIp_eq ips.keys h
    show Claimed (ips.keys.foldl admitIp h)
    rw [heq]
    exact ⟨hc.own, hc.ports⟩
  | considerPrimaryIp candidate =>
    obtain ⟨primary, held, seen, hmem, heq⟩ := considerPrimaryIp_eq p h candidate
    show Claimed (h.considerPrimaryIp p candidate)
    rw [heq]
    exact ⟨hc.own, hc.ports⟩
  | retainIps keep =>
    show Claimed (h.retainIps keep).1
    unfold Host.retainIps
    split
    · exact hc
    · dsimp only
      split
      · exact hc
      · split
        · exact ⟨hc.own, hc.ports⟩
        · exact ⟨hc.own, hc.ports⟩
  | withholdPorts ports =>
    show Claimed (h.withholdPorts ports)
    unfold Host.withholdPorts
    split
    · exact hc
    · exact ⟨hc.own, hc.retain _⟩
  | recordName name =>
    show Claimed (h.recordName p name)
    rw [recordName_eq]
    exact ⟨hc.own, hc.ports⟩
  | setAsideNamesOf account =>
    obtain ⟨aside, heq⟩ := setAsideNamesOf_eq h account
    show Claimed (h.setAsideNamesOf account)
    rw [heq]
    exact ⟨hc.own, hc.ports⟩
  | recordOsEvidence evidence =>
    show Claimed (h.recordOsEvidence evidence)
    rw [recordOsEvidence_eq]
    exact ⟨hc.own, hc.ports⟩
  | addFinding finding => exact ⟨hc.own.addFinding finding, hc.ports⟩
  | addPortFinding endpoint finding => exact hc.addPortFinding endpoint finding
  | replacePortCorrelations endpoint detection findings => exact hc.replacePortCorrelations endpoint detection findings
  | addPort port =>
    show Claimed (h.addPort p port)
    rw [addPort_eq]
    exact ⟨hc.own, filed_filePort (s := h.portsState) hc.ports (Port.Built.filed hop)⟩
  | withOnlyPorts keys =>
    show Claimed (h.withOnlyPorts keys)
    unfold Host.withOnlyPorts
    split
    · exact ⟨hc.own, hc.ports⟩
    · exact ⟨hc.own, hc.retain _⟩
  -- Every other call writes neither the findings nor the ports.
  | _ => exact ⟨hc.own, hc.ports⟩

/-- **Folding a record in keeps every finding under its claim.** -/
theorem Claimed.merge (hc : Claimed h) {other : Host} (hother : Claimed other) (p : Process) :
    Claimed (h.merge p other) := by
  have hports := List.foldlRecOn
    (motive := fun s : PortsState => ∀ endpoint port, s.1.get? endpoint = some port → Filed port.findings)
    (b := (h.ports, h.openPorts, h.networkRoles ∪ other.networkRoles)) other.ports.values filePort hc.ports
    fun s hs port hport => by
      obtain ⟨endpoint, hget⟩ := SortedMap.mem_values.mp hport
      exact filed_filePort hs (hother.ports endpoint port hget)
  have hfindings := List.foldlRecOn (motive := Filed) other.findings.values
    (fun held finding => (Zond.addFinding held finding).1) hc.own fun _ hs finding _ => hs.addFinding finding
  obtain ⟨aside, touched, heq⟩ := merge_eq p h other
  rw [heq]
  exact ⟨hfindings, hports⟩

theorem Built.claimed (hb : Built Op.HandsBuilt h) : Claimed h := by
  induction hb with
  | new p ip =>
    refine ⟨Filed.empty, fun endpoint port hget => ?_⟩
    exact absurd hget (Option.some_ne_none port).symm
  | call p op _ hop ih => exact ih.apply p hop
  | merge p _ _ ih ih' => exact ih.merge ih' p
  | mergeLaterAccount p _ _ ih ih' => exact ⟨(ih.merge ih' p).own, (ih.merge ih' p).ports⟩

end Steps

end Host

/-- **A finding is always filed under its own claim.** Corroborating keeps the claim, and says that
something changed exactly where it did. -/
theorem findings_under_claims : (∀ a b : Finding, a.claimId = b.claimId →
      (a.corroborate b).1.claimId = a.claimId ∧ ((a.corroborate b).2 = true ↔ (a.corroborate b).1 ≠ a)) ∧
    (∀ port : Port, port.Built → ∀ claim finding, port.findings.get? claim = some finding → finding.claimId = claim) ∧
    (∀ h : Host, h.Built Host.Op.HandsBuilt →
      (∀ claim finding, h.findings.get? claim = some finding → finding.claimId = claim) ∧
      ∀ endpoint port, h.ports.get? endpoint = some port →
        ∀ claim finding, port.findings.get? claim = some finding → finding.claimId = claim) := by
  refine ⟨fun a b hclaim => ⟨Finding.claimId_corroborate hclaim, ?_⟩, fun port hport => hport.filed.claim_eq,
    fun h hbuilt => ⟨hbuilt.claimed.own.claim_eq, fun endpoint port hget =>
      (hbuilt.claimed.ports endpoint port hget).claim_eq⟩⟩
  rw [Finding.corroborate_eq]
  exact decide_eq_true_iff

theorem findings_under_claims_stripped : Finding.stripped.claimId = Finding.redrawn.claimId ∧
      (Finding.stripped.corroborate Finding.redrawn).1.claimId = Finding.stripped.claimId ∧ (∀ claim finding,
        ((((Port.new 443 .tcp .open).addFinding Finding.stripped).replaceCorrelations ['c', 'v', 'e']
          [Finding.redrawn]).1.findings).get? claim = some finding → finding.claimId = claim) :=
  have hclaim : Finding.stripped.claimId = Finding.redrawn.claimId := by decide
  ⟨hclaim, (findings_under_claims.1 _ _ hclaim).1,
    findings_under_claims.2.1 _ (.call (.replaceCorrelations _ _) (.call (.addFinding _) (.new _ _ _)))⟩

end Zond
