import ZondEngine.Model.Host.Claims
import ZondEngine.Model.Host.Addresses

/-!
# What a record says of a host

What a record says, piece by piece (`HostFact`). The record a fold ends with says what either said (`facts_merge`), as
long as there is room (`Fits`) and the ports folded in are filed in order (`PortsInOrder`).
-/

namespace Zond

open List SortedMap Finset

open Ip (IpAddr)

inductive HostFact where
  | address (ip : IpAddr)
  | reaches (endpoint : Endpoint) (state : PortState)
  | claims (endpoint : Endpoint) (claim : ClaimId)

namespace HostFact

def Fits (facts : Set HostFact) : Prop :=
  (∀ ips : Finset IpAddr, (∀ ip ∈ ips, .address ip ∈ facts) → ips.card ≤ MAX_IPS) ∧
    ∀ endpoint, ∀ claims : Finset ClaimId, (∀ claim ∈ claims, .claims endpoint claim ∈ facts) →
      claims.card ≤ MAX_FINDINGS_PER_SUBJECT

theorem Fits.mono {facts facts' : Set HostFact} (hsub : facts ⊆ facts') (h : Fits facts') : Fits facts :=
  ⟨fun ips hips => h.1 ips fun ip hip => hsub (hips ip hip),
    fun endpoint claims hclaims => h.2 endpoint claims fun claim hclaim => hsub (hclaims claim hclaim)⟩

end HostFact

/-! ## Claims -/

theorem contains_insert {K V : Type} [LinearOrder K] (m : SortedMap K V) (key : K) (value : V) (other : K) :
    (m.insert key value).contains other = true ↔ other = key ∨ m.contains other = true := by
  unfold SortedMap.contains
  rw [get?_insert]
  split
  next heq => simp [heq]
  next hne => simp [hne]

theorem contains_addFinding {room : Finset ClaimId} (hroom : room.card ≤ MAX_FINDINGS_PER_SUBJECT)
    {held : SortedMap ClaimId Finding} (hheld : ∀ claim ∈ held.keys, claim ∈ room) {finding : Finding}
    (hfinding : finding.claimId ∈ room) (claim : ClaimId) :
    (addFinding held finding).1.contains claim = true ↔ claim = finding.claimId ∨ held.contains claim = true := by
  unfold addFinding
  dsimp only
  cases hget : held.get? finding.claimId with
  | some existing => exact contains_insert _ _ _ _
  | none =>
    have hnew : finding.claimId ∉ held.keys := get?_eq_none_iff.mp hget
    have hlen : held.len < MAX_FINDINGS_PER_SUBJECT := by
      have hsub : insert finding.claimId held.keys.toFinset ⊆ room := by
        refine insert_subset hfinding fun claim hclaim => hheld claim (mem_toFinset.mp hclaim)
      have hcard := (card_le_card hsub).trans hroom
      rw [card_insert_of_notMem (by simpa using hnew), toFinset_card_of_nodup held.nodup_keys,
        SortedMap.keys, length_map] at hcard
      exact hcard
    rw [if_neg (not_le.mpr hlen)]
    exact contains_insert _ _ _ _

theorem contains_foldl_addFinding {room : Finset ClaimId} (hroom : room.card ≤ MAX_FINDINGS_PER_SUBJECT)
    {claim : ClaimId} :
    ∀ {added : List Finding} {held : SortedMap ClaimId Finding}, (∀ claim ∈ held.keys, claim ∈ room) →
      (∀ finding ∈ added, finding.claimId ∈ room) →
      ((added.foldl (fun held finding => (addFinding held finding).1) held).contains claim = true ↔
        held.contains claim = true ∨ ∃ finding ∈ added, finding.claimId = claim)
  | [], held, _, _ => by simp
  | finding :: rest, held, hheld, hadded => by
    have hstep := contains_addFinding hroom hheld (hadded finding mem_cons_self)
    rw [foldl_cons, contains_foldl_addFinding hroom ?_ fun other hother =>
      hadded other (mem_cons_of_mem _ hother), hstep]
    · rw [exists_mem_cons_iff, eq_comm, or_assoc, or_left_comm]
    · intro other hother
      rcases (hstep other).mp (SortedMap.contains_iff.mpr hother) with rfl | hother
      · exact hadded finding mem_cons_self
      · exact hheld other (SortedMap.contains_iff.mp hother)

/-! ## Ports -/

namespace Port

def Says (port : Port) : HostFact → Prop
  | .address _ => False
  | .reaches endpoint state => endpoint = port.endpoint ∧ state ≤ port.state
  | .claims endpoint claim => endpoint = port.endpoint ∧ port.findings.contains claim = true

def facts (port : Port) : Set HostFact := {fact | port.Says fact}

/-- **A fold of two ports says what either said**, where there is room for the claims of both. -/
theorem facts_merge {port other : Port} (hendpoint : port.endpoint = other.endpoint) (hfiled : Filed other.findings)
    (hfits : HostFact.Fits (port.facts ∪ other.facts)) : (port.merge other).facts = port.facts ∪ other.facts := by
  have hfindings : (port.merge other).findings =
      other.findings.values.foldl (fun held finding => (Zond.addFinding held finding).1) port.findings := by
    unfold merge
    rw [foldl_addFinding]
  have hvalue : ∀ claim, (∃ finding ∈ other.findings.values, finding.claimId = claim) ↔
      other.findings.contains claim = true := by
    intro claim
    unfold SortedMap.contains
    rw [Option.isSome_iff_exists]
    constructor
    · rintro ⟨finding, hmem, hclaim⟩
      obtain ⟨key, hget⟩ := SortedMap.mem_values.mp hmem
      exact ⟨finding, by rw [← hclaim, hfiled.claim_eq key finding hget]; exact hget⟩
    · rintro ⟨finding, hget⟩
      exact ⟨finding, SortedMap.mem_values.mpr ⟨claim, hget⟩, hfiled.claim_eq claim finding hget⟩
  have hclaims : ∀ claim, (port.merge other).findings.contains claim = true ↔
      port.findings.contains claim = true ∨ other.findings.contains claim = true := by
    intro claim
    have hroom := hfits.2 port.endpoint (port.findings.keys.toFinset ∪ other.findings.keys.toFinset)
      fun claim hclaim => by
      rcases mem_union.mp hclaim with hclaim | hclaim
      · exact .inl ⟨rfl, SortedMap.contains_iff.mpr (mem_toFinset.mp hclaim)⟩
      · exact .inr ⟨hendpoint, SortedMap.contains_iff.mpr (mem_toFinset.mp hclaim)⟩
    rw [hfindings, contains_foldl_addFinding hroom, hvalue]
    · exact fun claim hclaim => mem_union_left _ (mem_toFinset.mpr hclaim)
    · intro finding hfinding
      have hheld := (hvalue finding.claimId).mp ⟨finding, hfinding, rfl⟩
      exact Finset.mem_union_right _ (mem_toFinset.mpr (SortedMap.contains_iff.mp hheld))
  ext fact
  show (port.merge other).Says fact ↔ port.Says fact ∨ other.Says fact
  cases fact with
  | address ip => simp [Says]
  | reaches endpoint state => simp only [Says, endpoint_merge, state_merge, le_max_iff, and_or_left, ← hendpoint]
  | claims endpoint claim => simp only [Says, endpoint_merge, hclaims, and_or_left, ← hendpoint]

end Port

def PortsInOrder (ports : SortedMap Endpoint Port) : Prop :=
  ∀ endpoint port, ports.get? endpoint = some port → port.endpoint = endpoint ∧ Filed port.findings

def portsFacts (ports : SortedMap Endpoint Port) : Set HostFact := {fact | ∃ port ∈ ports.values, fact ∈ port.facts}

section Ports

open Host (PortsState filePort)

variable {s : PortsState} {port : Port}

theorem PortsInOrder.filePort (h : PortsInOrder s.1) (hport : Filed port.findings) :
    PortsInOrder (filePort s port).1 := by
  intro endpoint held hget
  refine ⟨?_, Host.filed_filePort (fun endpoint port hget => (h endpoint port hget).2) hport endpoint held hget⟩
  unfold Host.filePort at hget
  rw [get?_insert] at hget
  split at hget
  next heq =>
    obtain rfl := Option.some.inj hget
    cases hold : s.1.get? port.endpoint with
    | none => exact heq.symm
    | some existing => rw [Option.elim_some, Port.endpoint_merge, (h _ _ hold).1, heq]
  · exact (h endpoint held hget).1

theorem PortsInOrder.foldl_filePort (h : PortsInOrder s.1) {added : List Port}
    (hadded : ∀ port ∈ added, Filed port.findings) : PortsInOrder (added.foldl Host.filePort s).1 :=
  List.foldlRecOn (motive := fun s : PortsState => PortsInOrder s.1) added Host.filePort h fun _ hs port hport =>
    hs.filePort (hadded port hport)

/-- **Filing a port adds what it says**, where there is room for that. -/
theorem portsFacts_filePort (h : PortsInOrder s.1) (hport : Filed port.findings)
    (hfits : HostFact.Fits (portsFacts s.1 ∪ port.facts)) :
    portsFacts (filePort s port).1 = portsFacts s.1 ∪ port.facts := by
  have hrecorded : ((s.1.get? port.endpoint).elim port fun held => held.merge port).facts =
      (s.1.get? port.endpoint).elim port.facts fun held => held.facts ∪ port.facts := by
    cases hold : s.1.get? port.endpoint with
    | none => rfl
    | some held =>
      refine Port.facts_merge (h _ _ hold).1 hport (hfits.mono (Set.union_subset_union_left _ fun fact hfact => ?_))
      exact ⟨held, SortedMap.mem_values.mpr ⟨_, hold⟩, hfact⟩
  ext fact
  constructor
  · rintro ⟨held, hmem, hfact⟩
    obtain ⟨endpoint, hget⟩ := SortedMap.mem_values.mp hmem
    unfold filePort at hget
    rw [get?_insert] at hget
    split at hget
    · rw [← Option.some.inj hget, hrecorded] at hfact
      cases hold : s.1.get? port.endpoint with
      | none =>
        rw [hold] at hfact
        exact .inr hfact
      | some old =>
        rw [hold] at hfact
        exact hfact.imp_left fun hfact => ⟨old, SortedMap.mem_values.mpr ⟨_, hold⟩, hfact⟩
    · exact .inl ⟨held, SortedMap.mem_values.mpr ⟨endpoint, hget⟩, hfact⟩
  · -- What was said under the endpoint is said by the fold filed there now.
    have hfiled : (filePort s port).1.get? port.endpoint =
        some ((s.1.get? port.endpoint).elim port fun held => held.merge port) := by
      unfold filePort
      rw [get?_insert, if_pos rfl]
    have hthere : fact ∈ ((s.1.get? port.endpoint).elim port fun held => held.merge port).facts →
        fact ∈ portsFacts (filePort s port).1 := fun hfact => ⟨_, SortedMap.mem_values.mpr ⟨_, hfiled⟩, hfact⟩
    rw [hrecorded] at hthere
    rintro (⟨held, hmem, hfact⟩ | hfact)
    · obtain ⟨endpoint, hget⟩ := SortedMap.mem_values.mp hmem
      by_cases heq : endpoint = port.endpoint
      · rw [← heq, hget] at hthere
        exact hthere (.inl hfact)
      · refine ⟨held, SortedMap.mem_values.mpr ⟨endpoint, ?_⟩, hfact⟩
        unfold filePort
        rw [get?_insert, if_neg heq]
        exact hget
    · refine hthere ?_
      cases s.1.get? port.endpoint with
      | none => exact hfact
      | some held => exact .inr hfact

theorem portsFacts_of_nodup {added : List Port} (h : (added.map Port.endpoint).Nodup) (count : ℕ)
    (roles : Finset NetworkRole) : portsFacts (added.foldl filePort (SortedMap.empty, count, roles)).1 =
      {fact | ∃ port ∈ added, fact ∈ port.facts} := by
  have hvalue : ∀ port, port ∈ (added.foldl filePort (SortedMap.empty, count, roles)).1.values ↔ port ∈ added := by
    intro port
    have hget : ∀ endpoint, (added.foldl filePort (SortedMap.empty, count, roles)).1.get? endpoint =
        added.find? (·.endpoint == endpoint) := fun endpoint =>
      (Host.get?_foldl_filePort endpoint added (SortedMap.empty, count, roles) h fun _ _ => rfl).trans
        (by rw [get?_empty, Option.or_none])
    rw [SortedMap.mem_values]
    simp only [hget]
    constructor
    · rintro ⟨endpoint, hfind⟩
      exact mem_of_find?_eq_some hfind
    · intro hmem
      have hsome : (added.find? (·.endpoint == port.endpoint)).isSome = true :=
        find?_isSome.mpr ⟨port, hmem, beq_self_eq_true port.endpoint⟩
      obtain ⟨other, hother⟩ := Option.isSome_iff_exists.mp hsome
      have hsame : other.endpoint = port.endpoint := by simpa using find?_some hother
      rw [inj_on_of_nodup_map h (mem_of_find?_eq_some hother) hmem hsame] at hother
      exact ⟨port.endpoint, hother⟩
  ext fact
  exact exists_congr fun port => and_congr_left fun _ => hvalue port

theorem portsFacts_foldl_filePort {room : Set HostFact} (hroom : HostFact.Fits room) :
    ∀ {added : List Port} {s : PortsState},
    PortsInOrder s.1 → portsFacts s.1 ⊆ room → (∀ port ∈ added, Filed port.findings ∧ port.facts ⊆ room) →
    portsFacts (added.foldl filePort s).1 = portsFacts s.1 ∪ {fact | ∃ port ∈ added, fact ∈ port.facts}
  | [], s, hs, _, _ => by simp
  | port :: rest, s, hs, hsub, hadded => by
    obtain ⟨hfiled, hfacts⟩ := hadded port mem_cons_self
    have hstep := portsFacts_filePort hs hfiled (hroom.mono (Set.union_subset hsub hfacts))
    have hall := portsFacts_foldl_filePort hroom (hs.filePort hfiled) (hstep ▸ Set.union_subset hsub hfacts)
      fun other hother => hadded other (mem_cons_of_mem _ hother)
    rw [foldl_cons, hall, hstep, Set.union_assoc]
    congr 1
    ext fact
    simp

end Ports

/-! ## Records -/

namespace Host

def facts (h : Host) : Set HostFact := {fact | (∃ ip ∈ h.addresses, fact = .address ip) ∨ fact ∈ portsFacts h.ports}

variable {h other : Host}

theorem address_mem_facts {ip : IpAddr} : .address ip ∈ h.facts ↔ ip ∈ h.addresses := by
  constructor
  · rintro (⟨_, hip, heq⟩ | ⟨port, _, hstates⟩)
    · rw [HostFact.address.inj heq]
      exact hip
    · exact absurd hstates id
  · exact fun hip => .inl ⟨ip, hip, rfl⟩

theorem reaches_mem_facts (hports : PortsInOrder h.ports) {endpoint : Endpoint} {state : PortState} :
    .reaches endpoint state ∈ h.facts ↔ ∃ port, h.ports.get? endpoint = some port ∧ state ≤ port.state := by
  constructor
  · rintro (⟨_, _, heq⟩ | ⟨port, hmem, rfl, hle⟩)
    · cases heq
    · obtain ⟨key, hget⟩ := SortedMap.mem_values.mp hmem
      exact ⟨port, (hports key port hget).1 ▸ hget, hle⟩
  · rintro ⟨port, hget, hle⟩
    exact .inr ⟨port, SortedMap.mem_values.mpr ⟨_, hget⟩, (hports _ _ hget).1.symm, hle⟩

theorem claims_mem_facts (hports : PortsInOrder h.ports) {endpoint : Endpoint} {claim : ClaimId} :
    .claims endpoint claim ∈ h.facts ↔ ∃ port, h.ports.get? endpoint = some port ∧
      port.findings.contains claim = true := by
  constructor
  · rintro (⟨_, _, heq⟩ | ⟨port, hmem, rfl, hclaim⟩)
    · cases heq
    · obtain ⟨key, hget⟩ := SortedMap.mem_values.mp hmem
      exact ⟨port, (hports key port hget).1 ▸ hget, hclaim⟩
  · rintro ⟨port, hget, hclaim⟩
    exact .inr ⟨port, SortedMap.mem_values.mpr ⟨_, hget⟩, (hports _ _ hget).1.symm, hclaim⟩

theorem fits_facts (hips : h.ips.len ≤ MAX_IPS) (hports : PortsInOrder h.ports) : HostFact.Fits h.facts := by
  constructor
  · intro ips hall
    have hsub : ips ⊆ h.addresses := fun ip hip => address_mem_facts.mp (hall ip hip)
    exact (card_le_card hsub).trans (h.card_addresses.trans_le hips)
  · intro endpoint claims hall
    cases hget : h.ports.get? endpoint with
    | none =>
      have hnone : claims = ∅ := eq_empty_of_forall_notMem fun claim hclaim => by
        obtain ⟨_, hsome, _⟩ := (claims_mem_facts hports).mp (hall claim hclaim)
        cases hget.symm.trans hsome
      rw [hnone]
      exact Nat.zero_le _
    | some port =>
      have hsub : claims ⊆ port.findings.keys.toFinset := fun claim hclaim => by
        obtain ⟨_, hsome, hheld⟩ := (claims_mem_facts hports).mp (hall claim hclaim)
        obtain rfl := Option.some.inj (hget.symm.trans hsome)
        exact mem_toFinset.mpr (SortedMap.contains_iff.mp hheld)
      refine (card_le_card hsub).trans ?_
      rw [toFinset_card_of_nodup port.findings.nodup_keys, SortedMap.keys, length_map]
      exact (hports endpoint port hget).2.len_le

def summary (h : Host) : Finset IpAddr × (Endpoint → Option (PortState × Finset ClaimId)) :=
  (h.addresses, fun endpoint => (h.ports.get? endpoint).map fun port => (port.state, port.findings.keys.toFinset))

/-- **What a record says tells its addresses, its ports, their states and their claims.** -/
theorem summary_eq_of_facts (hh : PortsInOrder h.ports) (hother : PortsInOrder other.ports)
    (heq : h.facts = other.facts) : h.summary = other.summary := by
  refine Prod.ext (Finset.ext fun ip => ?_) (funext fun endpoint => ?_)
  · show ip ∈ h.addresses ↔ ip ∈ other.addresses
    rw [← address_mem_facts, heq, address_mem_facts]
  · have hreaches : ∀ state, (∃ port, h.ports.get? endpoint = some port ∧ state ≤ port.state) ↔
        ∃ port, other.ports.get? endpoint = some port ∧ state ≤ port.state := by
      intro state
      rw [← reaches_mem_facts hh, heq, reaches_mem_facts hother]
    have hclaims : ∀ claim, (∃ port, h.ports.get? endpoint = some port ∧ port.findings.contains claim = true) ↔
        ∃ port, other.ports.get? endpoint = some port ∧ port.findings.contains claim = true := by
      intro claim
      rw [← claims_mem_facts hh, heq, claims_mem_facts hother]
    show (h.ports.get? endpoint).map _ = (other.ports.get? endpoint).map _
    cases hget : h.ports.get? endpoint with
    | none =>
      cases hget' : other.ports.get? endpoint with
      | none => rfl
      | some port' =>
        obtain ⟨_, hsome, _⟩ := (hreaches port'.state).mpr ⟨port', hget', le_rfl⟩
        cases hget.symm.trans hsome
    | some port =>
      cases hget' : other.ports.get? endpoint with
      | none =>
        obtain ⟨_, hsome, _⟩ := (hreaches port.state).mp ⟨port, hget, le_rfl⟩
        cases hget'.symm.trans hsome
      | some port' =>
        simp only [hget, hget', Option.some.injEq, exists_eq_left'] at hreaches hclaims
        have hstate : port.state = port'.state := le_antisymm ((hreaches _).mp le_rfl) ((hreaches _).mpr le_rfl)
        have hkeys : port.findings.keys.toFinset = port'.findings.keys.toFinset := by
          ext claim
          rw [mem_toFinset, mem_toFinset, ← SortedMap.contains_iff, hclaims, SortedMap.contains_iff]
        rw [Option.map_some, Option.map_some, hstate, hkeys]

theorem filed_of_mem_values (h : PortsInOrder other.ports) : ∀ port ∈ other.ports.values, Filed port.findings := by
  intro port hmem
  obtain ⟨endpoint, hget⟩ := SortedMap.mem_values.mp hmem
  exact (h endpoint port hget).2

theorem ports_merge (h : Host) (p : Process) (other : Host) : (h.merge p other).ports =
    (other.ports.values.foldl filePort (h.ports, h.openPorts, h.networkRoles ∪ other.networkRoles)).1 := by
  obtain ⟨aside, touched, heq⟩ := merge_eq p h other
  rw [heq]

theorem portsInOrder_merge (p : Process) (hh : PortsInOrder h.ports) (hother : PortsInOrder other.ports) :
    PortsInOrder (h.merge p other).ports := by
  rw [ports_merge]
  exact PortsInOrder.foldl_filePort hh (filed_of_mem_values hother)

/-- **A fold of two records says what either said.** -/
theorem facts_merge (p : Process) (hh : PortsInOrder h.ports) (hother : PortsInOrder other.ports)
    (hfits : HostFact.Fits (h.facts ∪ other.facts)) : (h.merge p other).facts = h.facts ∪ other.facts := by
  have hips := hfits.1 (h.addresses ∪ other.addresses) fun ip hip => by
    rcases mem_union.mp hip with hip | hip
    · exact .inl (.inl ⟨ip, hip, rfl⟩)
    · exact .inr (.inl ⟨ip, hip, rfl⟩)
  have hports : portsFacts (h.merge p other).ports = portsFacts h.ports ∪ portsFacts other.ports := by
    rw [ports_merge]
    refine portsFacts_foldl_filePort hfits hh (fun fact hfact => .inl (.inr hfact)) fun port hmem =>
      ⟨filed_of_mem_values hother port hmem, fun fact hfact => .inr (.inr ⟨port, hmem, hfact⟩)⟩
  ext fact
  show ((∃ ip ∈ (h.merge p other).addresses, fact = .address ip) ∨ fact ∈ portsFacts (h.merge p other).ports) ↔ _
  rw [addresses_merge p hips, hports]
  simp only [mem_union, or_and_right, exists_or, Set.mem_union]
  constructor
  · rintro ((hip | hip) | hport | hport)
    · exact .inl (.inl hip)
    · exact .inr (.inl hip)
    · exact .inl (.inr hport)
    · exact .inr (.inr hport)
  · rintro ((hip | hport) | hip | hport)
    · exact .inl (.inl hip)
    · exact .inr (.inl hport)
    · exact .inl (.inr hip)
    · exact .inr (.inr hport)

end Host

end Zond
