import ZondEngine.Cve.Once
import ZondEngine.Model.Host.Claims

/-!
# Correlating a host

`Correlator::correlate` of `cve.rs` replaces what the catalogue drew on every port that has a service. `recomputed_iff`
says when that is a recomputation; `recomputed_stale` is a port that lost its service and keeps its correlation.
-/

namespace Zond.Cve

open List SortedMap

open Zond.Port (drawnBy)

def Withdrawn.add (w other : Withdrawn) : Withdrawn :=
  ⟨w.fixed + other.fixed, w.notAffected + other.notAffected, w.elsewhere + other.elsewhere⟩

def releasesNamed (services : List Service) (distributor : Zond.Distributor) : SortedSet Text :=
  SortedSet.collect <| (services.filterMap Service.build).filterMap fun build =>
    if build.distributor = distributor then build.release.map Release.name else none

def servicesOf (h : Host) : List Service := h.ports.values.filterMap Port.service

structure PortJudgement where
  number : UInt16
  protocol : Port.Protocol
  findings : List Finding
  withdrawn : Withdrawn

structure Correlator where
  assets : Assets
  catalogue : Catalogue
  advisories : List Dataset
  exploited : KnownExploited

namespace Correlator

variable (k : Correlator) (services : List Service)

def draw (service : Service) : Judgement :=
  (service.cpe.keys.filterMap (Judged.of service)).foldl
    (fun found judged =>
      let judgement :=
        k.catalogue.judge k.assets (judged.onHost (releasesNamed services)) k.advisories (some k.exploited)
      ⟨found.findings ++ judgement.findings, found.withdrawn.add judgement.withdrawn⟩)
    ⟨[], .none⟩

def judgement (port : Port) : Option PortJudgement :=
  port.service.bind fun service =>
    let found := k.draw services service
    let held := port.findings.values.any (drawnBy k.catalogue.id)
    if !found.findings.isEmpty || held || decide (0 < found.withdrawn.total) then
      some ⟨port.number, port.protocol, found.findings, found.withdrawn⟩
    else none

/-- The judgement of each service of a host. -/
def judgements (h : Host) : List PortJudgement := h.ports.values.filterMap (k.judgement (servicesOf h))

def record (h : Host) (j : PortJudgement) : Host :=
  h.replacePortCorrelations ⟨j.number, j.protocol⟩ k.catalogue.id j.findings

def correlate (h : Host) : Host := (k.judgements h).foldl k.record h

def drawnOn (port : Port) : List Finding :=
  port.service.elim [] fun service => (k.draw services service).findings

end Correlator

/-! ## What is drawn -/

theorem drawnBy_withReference (id : Text) (f : Finding) (reference : Reference) :
    drawnBy id (f.withReference reference) = drawnBy id f := by
  unfold Finding.withReference
  split <;> rfl

theorem Catalogue.drawnBy_finding {c : Catalogue} {overlay : Overlay} {exploited : Option KnownExploited}
    {context : Context} {verdict : Verdict} {entries : List Ruled} {note : Option Text} {f : Finding}
    (h : c.finding overlay exploited context verdict entries note = some f) : drawnBy c.id f = true := by
  obtain ⟨start, exploitation, only, advice, hstart, -, rfl⟩ := Catalogue.finding_eq h
  rw [advise, view_elim (drawnBy c.id) Finding.withRemediation fun _ _ => rfl,
    view_elim (drawnBy c.id) (fun f cwe => f.withReference (.cwe cwe)) fun f _ => drawnBy_withReference c.id f _,
    view_elim (drawnBy c.id) Finding.withExploitation fun _ _ => rfl]
  refine List.foldlRecOn (motive := fun f => drawnBy c.id f = true) _ citeCve hstart fun f hf cve _ => ?_
  rw [citeCve, view_elim (drawnBy c.id) Finding.withReference (drawnBy_withReference c.id)]
  exact hf

namespace Correlator

variable (k : Correlator)

theorem drawnBy_drawnOn {services : List Service} {port : Port} :
    ∀ f ∈ k.drawnOn services port, drawnBy k.catalogue.id f = true := by
  unfold drawnOn
  cases port.service with
  | none => exact fun f hf => absurd hf not_mem_nil
  | some service =>
    refine List.foldlRecOn (motive := fun found : Judgement => ∀ f ∈ found.findings, drawnBy k.catalogue.id f = true)
      _ _ (fun f hf => absurd hf not_mem_nil) fun found hfound judged _ f hf => ?_
    rcases mem_append.mp hf with hold | hnew
    · exact hfound f hold
    · obtain ⟨d, hd, rfl⟩ := mem_map.mp hnew
      obtain ⟨verdict, note, -, hfinding⟩ := Catalogue.of_mem_drawn _ _ _ _ _ hd
      exact Catalogue.drawnBy_finding hfinding

end Correlator

/-! ## Findings by claim -/

def fileClaim (held : SortedMap ClaimId Finding) (finding : Finding) : SortedMap ClaimId Finding :=
  held.insertWith (fun existing finding => (existing.corroborate finding).1) finding.claimId finding

def byClaim (findings : List Finding) : SortedMap ClaimId Finding := findings.foldl fileClaim SortedMap.empty

theorem len_le_addFinding (held : SortedMap ClaimId Finding) (finding : Finding) :
    held.len ≤ (addFinding held finding).1.len := by
  rcases addFinding_cases held finding with ⟨existing, hget, heq⟩ | ⟨hget, heq | ⟨-, heq⟩⟩
  · rw [heq, len_insert, hget]
    exact le_refl _
  · rw [heq]
  · rw [heq, len_insert, hget]
    exact Nat.le_succ _

theorem addFinding_eq_fileClaim {held : SortedMap ClaimId Finding} (h : held.len < MAX_FINDINGS_PER_SUBJECT)
    (finding : Finding) : (addFinding held finding).1 = fileClaim held finding := by
  unfold addFinding fileClaim SortedMap.insertWith
  dsimp only
  cases held.get? finding.claimId with
  | some existing => rfl
  | none =>
    rw [if_neg (not_le.mpr h)]

theorem foldl_addFinding_eq_fileClaim : ∀ (added : List Finding) {held : SortedMap ClaimId Finding},
    (added.foldl (fun held finding => (addFinding held finding).1) held).len < MAX_FINDINGS_PER_SUBJECT →
      held.len < MAX_FINDINGS_PER_SUBJECT ∧
        added.foldl (fun held finding => (addFinding held finding).1) held = added.foldl fileClaim held
  | [], _, h => ⟨h, rfl⟩
  | finding :: rest, held, h => by
    obtain ⟨hroom, heq⟩ := foldl_addFinding_eq_fileClaim rest h
    have hheld := (len_le_addFinding held finding).trans_lt hroom
    exact ⟨hheld, heq.trans (congrArg (rest.foldl fileClaim) (addFinding_eq_fileClaim hheld finding))⟩

section Claims

variable {added : List Finding} {held : SortedMap ClaimId Finding} {claim : ClaimId}

theorem get?_foldl_fileClaim : (added.foldl fileClaim held).get? claim =
    (added.filter fun finding => finding.claimId == claim).foldl
      (fun held finding => some (held.elim finding fun existing => (existing.corroborate finding).1))
      (held.get? claim) :=
  get?_foldl_insertWith _ Finding.claimId claim (· == claim) (fun _ => beq_iff_eq) added held

theorem get?_foldl_of_notMade (h : ∀ finding ∈ added, finding.claimId ≠ claim) :
    (added.foldl fileClaim held).get? claim = held.get? claim := by
  rw [get?_foldl_fileClaim, filter_eq_nil_iff.mpr fun finding hmem heq => h finding hmem (beq_iff_eq.mp heq)]
  rfl

theorem get?_foldl_of_new (h : held.get? claim = none) :
    (added.foldl fileClaim held).get? claim = (byClaim added).get? claim := by
  rw [byClaim, get?_foldl_fileClaim, get?_foldl_fileClaim, h, get?_empty]

theorem isCorrelation_foldl (held : SortedMap ClaimId Finding) {made : Finding} (hmade : made ∈ added)
    (hclaim : made.claimId = claim)
    (hadded : ∀ finding ∈ added, finding.isCorrelation = true) :
    ∃ finding, (added.foldl fileClaim held).get? claim = some finding ∧ finding.isCorrelation = true := by
  have hmem : made ∈ added.filter fun finding => finding.claimId == claim :=
    mem_filter.mpr ⟨hmade, beq_iff_eq.mpr hclaim⟩
  rw [get?_foldl_fileClaim]
  rcases eq_nil_or_concat (added.filter fun finding => finding.claimId == claim) with hnil | ⟨front, last, heq⟩
  · exact absurd hmem (hnil ▸ not_mem_nil)
  · have hlast : last ∈ added.filter fun finding => finding.claimId == claim := by simp [heq]
    have hlast := hadded last (mem_filter.mp hlast).1
    rw [heq, concat_eq_append, foldl_append, foldl_cons, List.foldl_nil]
    refine ⟨_, rfl, ?_⟩
    cases front.foldl _ (held.get? claim) with
    | none => exact hlast
    | some existing =>
      show (existing.corroborate last).1.isCorrelation = true
      rw [Finding.corroborate_eq, Finding.isCorrelation_folded, hlast, Bool.or_true]

theorem drawnBy_byClaim {id : Text} {finding : Finding} (hadded : ∀ finding ∈ added, drawnBy id finding = true)
    (h : (byClaim added).get? claim = some finding) : drawnBy id finding = true ∧ finding.claimId = claim := by
  refine List.foldlRecOn (motive := fun held : SortedMap ClaimId Finding => ∀ claim finding,
    held.get? claim = some finding → drawnBy id finding = true ∧ finding.claimId = claim) added fileClaim ?_
    (fun held hheld new hnew claim finding hget => ?_) claim finding h
  · intro claim finding hget
    cases hget
  · rw [fileClaim, get?_insertWith] at hget
    split at hget
    next heq =>
      subst heq
      cases hexisting : held.get? new.claimId with
      | none =>
        rw [hexisting] at hget
        cases hget
        exact ⟨hadded _ hnew, rfl⟩
      | some existing =>
        rw [hexisting] at hget
        cases hget
        obtain ⟨hdrawn, hclaim⟩ := hheld _ _ hexisting
        have hid := congrArg ClaimId.detection hclaim
        refine ⟨?_, (Finding.claimId_corroborate hclaim).trans hclaim⟩
        show drawnBy id (existing.corroborate new).1 = true
        rw [drawnBy, Bool.and_eq_true] at hdrawn ⊢
        rw [Finding.corroborate_eq, Finding.isCorrelation_folded, Finding.id_folded hid, hdrawn.1]
        exact ⟨rfl, hdrawn.2⟩
    · exact hheld claim finding hget

end Claims

/-! ## One port -/

def Apart (id : Text) (added : List Finding) (port : Port) : Prop :=
  ∀ drawn ∈ added, ∀ finding, port.findings.get? drawn.claimId = some finding → drawnBy id finding = true

def othersOn (id : Text) (port : Port) : SortedMap ClaimId Finding :=
  port.findings.retain fun _ finding => !drawnBy id finding

section Port

variable {id : Text} {added : List Finding} {port : Port} {claim : ClaimId} {finding : Finding}

theorem get?_othersOn : (othersOn id port).get? claim = some finding ↔
    port.findings.get? claim = some finding ∧ drawnBy id finding = false := by
  unfold othersOn
  rw [get?_eq_some_iff, get?_eq_some_iff]
  simp [SortedMap.retain]

theorem replaceCorrelations_eq : (port.replaceCorrelations id added).1 = { port with
    findings := added.foldl (fun held finding => (addFinding held finding).1) (othersOn id port) } :=
  Port.foldl_addFinding added _

theorem findings_replaceCorrelations
    (hroom : (port.replaceCorrelations id added).1.findings.len < MAX_FINDINGS_PER_SUBJECT) :
    (port.replaceCorrelations id added).1.findings = added.foldl fileClaim (othersOn id port) := by
  rw [replaceCorrelations_eq] at hroom ⊢
  exact (foldl_addFinding_eq_fileClaim added hroom).2

/-- **Replacing the correlations of a port that are apart from its other findings leaves those, and what is drawn.** -/
theorem get?_replaced (hapart : Apart id added port) :
    (added.foldl fileClaim (othersOn id port)).get? claim = some finding ↔
      (othersOn id port).get? claim = some finding ∨ (byClaim added).get? claim = some finding := by
  by_cases hmade : ∃ made ∈ added, made.claimId = claim
  · obtain ⟨made, hmem, rfl⟩ := hmade
    have hnone : (othersOn id port).get? made.claimId = none := by
      rw [Option.eq_none_iff_forall_ne_some]
      intro other hother
      obtain ⟨hget, hnot⟩ := get?_othersOn.mp hother
      exact absurd (hapart made hmem other hget) (by simp [hnot])
    simp [get?_foldl_of_new hnone, hnone]
  · have hnot : ∀ made ∈ added, made.claimId ≠ claim := fun made hmem heq => hmade ⟨made, hmem, heq⟩
    rw [get?_foldl_of_notMade hnot, byClaim, get?_foldl_of_notMade hnot, get?_empty]
    simp

theorem replaceCorrelations_again (hadded : ∀ finding ∈ added, drawnBy id finding = true) (hapart : Apart id added port)
    (hroom : (port.replaceCorrelations id added).1.findings.len < MAX_FINDINGS_PER_SUBJECT) :
    (port.replaceCorrelations id added).1.replaceCorrelations id added =
      ((port.replaceCorrelations id added).1, false) := by
  have hothers : othersOn id (port.replaceCorrelations id added).1 = othersOn id port := by
    refine eq_of_get? fun claim => Option.ext fun finding => ?_
    rw [get?_othersOn, findings_replaceCorrelations hroom, get?_replaced hapart, get?_othersOn]
    constructor
    · rintro ⟨hother | hdrawn, hnot⟩
      · exact hother
      · exact absurd (drawnBy_byClaim hadded hdrawn).1 (by simp [hnot])
    · exact fun h => ⟨.inl h, h.2⟩
  have hsame : ((port.replaceCorrelations id added).1.replaceCorrelations id added).1 =
      (port.replaceCorrelations id added).1 := by
    rw [replaceCorrelations_eq, hothers, replaceCorrelations_eq]
  refine Prod.ext hsame ?_
  show (_ != _) = false
  rw [bne_eq_false_iff_eq]
  exact congrArg (fun p : Port => p.findings.values.filter (drawnBy id)) hsame.symm

end Port

/-! ## The host -/

namespace Correlator

variable (k : Correlator) (services : List Service)

def after (port : Port) : Port :=
  port.service.elim port fun _ => (port.replaceCorrelations k.catalogue.id (k.drawnOn services port)).1

def settle (h : Host) (port : Port) : Host := (k.judgement services port).elim h (k.record h)

theorem correlate_eq_foldl (h : Host) : k.correlate h = h.ports.values.foldl (k.settle (servicesOf h)) h := by
  unfold correlate judgements
  rw [foldl_filterMap]
  congr
  funext s port
  unfold settle
  cases k.judgement (servicesOf h) port <;> rfl

section Step

variable {k} {services} {h : Host} {port : Port}

theorem after_of_none (hnone : port.service = none) : k.after services port = port := by
  rw [after, hnone]
  rfl

theorem after_of_some {service : Service} (hsome : port.service = some service) :
    k.after services port = (port.replaceCorrelations k.catalogue.id (k.drawnOn services port)).1 := by
  rw [after, hsome]
  rfl

theorem service_after : (k.after services port).service = port.service := by
  cases hservice : port.service with
  | none => rw [after_of_none hservice, hservice]
  | some service => rw [after_of_some hservice, replaceCorrelations_eq, hservice]

theorem endpoint_after : (k.after services port).endpoint = port.endpoint := by
  cases hservice : port.service with
  | none => rw [after_of_none hservice]
  | some service =>
    rw [after_of_some hservice, replaceCorrelations_eq]
    rfl

theorem judgement_cases (services : List Service) (port : Port) :
    k.judgement services port = none ∧ k.after services port = port ∨
      ∃ j, k.judgement services port = some j ∧ (⟨j.number, j.protocol⟩ : Endpoint) = port.endpoint ∧
        j.findings = k.drawnOn services port ∧
        k.after services port = (port.replaceCorrelations k.catalogue.id (k.drawnOn services port)).1 := by
  cases hservice : port.service with
  | none =>
    refine .inl ⟨?_, after_of_none hservice⟩
    rw [judgement, hservice]
    rfl
  | some service =>
    have hdrawn : k.drawnOn services port = (k.draw services service).findings := by
      rw [drawnOn, hservice]
      rfl
    rw [judgement, hservice, Option.bind_some]
    dsimp only
    split
    · exact .inr ⟨_, rfl, rfl, hdrawn.symm, after_of_some hservice⟩
    next hquiet =>
      simp only [Bool.or_eq_true, Bool.not_eq_true', decide_eq_true_eq, not_or, Bool.not_eq_false,
        List.isEmpty_iff, List.any_eq_true, not_exists, not_and] at hquiet
      obtain ⟨⟨hnone, hheld⟩, -⟩ := hquiet
      refine .inl ⟨rfl, ?_⟩
      rw [after_of_some hservice, replaceCorrelations_eq, hdrawn, hnone, List.foldl_nil]
      have hothers : othersOn k.catalogue.id port = port.findings := by
        refine eq_of_get? fun claim => Option.ext fun finding => ?_
        rw [get?_othersOn, and_iff_left_iff_imp]
        exact fun hget => Bool.eq_false_iff.mpr (hheld finding (mem_values.mpr ⟨claim, hget⟩))
      rw [hothers]

theorem settle_step (services : List Service) (hget : h.ports.get? port.endpoint = some port) :
    (∃ touched, k.settle services h port =
        { h with ports := (k.settle services h port).ports, touched }) ∧
      ∀ endpoint, (k.settle services h port).ports.get? endpoint =
        if endpoint = port.endpoint then some (k.after services port) else h.ports.get? endpoint := by
  unfold settle
  rcases judgement_cases (k := k) services port with ⟨hnone, hafter⟩ | ⟨j, hj, hendpoint, hfindings, hafter⟩
  · rw [hnone, hafter]
    refine ⟨⟨h.touched, rfl⟩, fun endpoint => ?_⟩
    split
    next heq => exact heq ▸ hget
    · rfl
  · rw [hj, hafter, Option.elim_some, record, hendpoint, hfindings, Host.replacePortCorrelations, hget]
    dsimp only
    constructor
    · split
      · exact ⟨_, rfl⟩
      · exact ⟨_, rfl⟩
    · intro endpoint
      rw [get?_insert]
      split <;> rfl

theorem settle_run (services : List Service) : ∀ (ports : List Port) (h : Host), (ports.map Port.endpoint).Nodup →
    (∀ port ∈ ports, h.ports.get? port.endpoint = some port) →
    (∃ touched, ports.foldl (k.settle services) h =
        { h with ports := (ports.foldl (k.settle services) h).ports, touched }) ∧
      ∀ endpoint, (ports.foldl (k.settle services) h).ports.get? endpoint =
        (h.ports.get? endpoint).map fun port =>
          if endpoint ∈ ports.map Port.endpoint then k.after services port else port
  | [], h, _, _ => ⟨⟨h.touched, rfl⟩, fun endpoint => by simp⟩
  | port :: ports, h, hnodup, hget => by
    obtain ⟨hnew, hnodup⟩ := nodup_cons.mp hnodup
    obtain ⟨⟨touched, hframe⟩, hstep⟩ := settle_step (k := k) services (hget port mem_cons_self)
    have hrest : ∀ other ∈ ports, (k.settle services h port).ports.get? other.endpoint = some other := by
      intro other hother
      have hne : other.endpoint ≠ port.endpoint := fun heq => hnew (heq ▸ mem_map_of_mem hother)
      rw [hstep, if_neg hne]
      exact hget other (.tail _ hother)
    obtain ⟨⟨touched', hframe'⟩, hrun⟩ := settle_run services ports _ hnodup hrest
    rw [foldl_cons]
    refine ⟨⟨touched', ?_⟩, fun endpoint => ?_⟩
    · rw [hframe', hframe]
    · rw [hrun, hstep]
      by_cases heq : endpoint = port.endpoint
      · subst heq
        simp [hget port mem_cons_self, hnew]
      · rw [if_neg heq]
        simp [heq]

end Step

/-- **A correlation replaces the correlations of every port, and changes nothing else but what is touched.** -/
theorem correlate_eq (h : Host)
    (hfiled : ∀ endpoint port, h.ports.get? endpoint = some port → port.endpoint = endpoint) :
    ∃ touched, k.correlate h = { h with ports := h.ports.mapValues (k.after (servicesOf h)), touched } := by
  have hvalues : ∀ port ∈ h.ports.values, h.ports.get? port.endpoint = some port := by
    intro port hport
    obtain ⟨endpoint, hget⟩ := mem_values.mp hport
    exact (hfiled endpoint port hget) ▸ hget
  have hnodup : (h.ports.values.map Port.endpoint).Nodup := by
    have hkeys : h.ports.values.map Port.endpoint = h.ports.keys := by
      rw [SortedMap.values, SortedMap.keys, map_map]
      exact map_congr_left fun entry hentry => hfiled _ _ (get?_eq_some_iff.mpr hentry)
    exact hkeys ▸ h.ports.nodup_keys
  obtain ⟨⟨touched, hframe⟩, hrun⟩ := settle_run (k := k) (servicesOf h) _ h hnodup hvalues
  refine ⟨touched, ?_⟩
  have hports : (h.ports.values.foldl (k.settle (servicesOf h)) h).ports =
      h.ports.mapValues (k.after (servicesOf h)) := by
    refine eq_of_get? fun endpoint => ?_
    rw [hrun, get?_mapValues]
    cases hget : h.ports.get? endpoint with
    | none => rfl
    | some port =>
      rw [Option.map_some, Option.map_some, if_pos]
      exact hfiled endpoint port hget ▸ mem_map_of_mem (mem_values.mpr ⟨endpoint, hget⟩)
  rw [correlate_eq_foldl, hframe, hports]

/-- A port's correlations are those drawn from its service, every other finding stays, and a second correlation changes
nothing. -/
structure Recomputed (h : Host) : Prop where
  drawn : ∀ endpoint port, (k.correlate h).ports.get? endpoint = some port → ∀ claim finding,
    port.findings.get? claim = some finding ∧ drawnBy k.catalogue.id finding = true ↔
      (byClaim (k.drawnOn (servicesOf h) port)).get? claim = some finding
  others : ∀ endpoint port, h.ports.get? endpoint = some port → ∃ port',
    (k.correlate h).ports.get? endpoint = some port' ∧ ∀ claim finding, drawnBy k.catalogue.id finding = false →
      (port'.findings.get? claim = some finding ↔ port.findings.get? claim = some finding)
  own : (k.correlate h).findings = h.findings
  again : k.correlate (k.correlate h) = k.correlate h

variable {k} {h : Host}

theorem drawnOn_after (port : Port) : k.drawnOn services (k.after services port) = k.drawnOn services port := by
  rw [drawnOn, service_after]
  rfl

section

variable (hfiled : ∀ endpoint port, h.ports.get? endpoint = some port → port.endpoint = endpoint)
  (hroom : ∀ endpoint port, (k.correlate h).ports.get? endpoint = some port →
    port.findings.len < MAX_FINDINGS_PER_SUBJECT)

include hfiled

theorem servicesOf_correlate : servicesOf (k.correlate h) = servicesOf h := by
  obtain ⟨touched, heq⟩ := k.correlate_eq h hfiled
  rw [heq, servicesOf, servicesOf, values_mapValues, filterMap_map]
  exact filterMap_congr fun port _ => service_after

theorem get?_correlate (endpoint : Endpoint) : (k.correlate h).ports.get? endpoint =
    (h.ports.get? endpoint).map (k.after (servicesOf h)) := by
  obtain ⟨touched, heq⟩ := k.correlate_eq h hfiled
  rw [heq, get?_mapValues]

theorem get?_correlated {endpoint : Endpoint} {port : Port} (hget : h.ports.get? endpoint = some port) :
    (k.correlate h).ports.get? endpoint = some (k.after (servicesOf h) port) := by
  rw [get?_correlate hfiled, hget, Option.map_some]

include hroom

theorem findings_after {endpoint : Endpoint} {port : Port} {service : Service}
    (hget : h.ports.get? endpoint = some port) (hsome : port.service = some service) :
    (k.after (servicesOf h) port).findings =
      (k.drawnOn (servicesOf h) port).foldl fileClaim (othersOn k.catalogue.id port) := by
  have hlen := hroom endpoint _ (get?_correlated hfiled hget)
  rw [after_of_some hsome] at hlen ⊢
  exact findings_replaceCorrelations hlen

theorem settle_after {endpoint : Endpoint} {port : Port} (hget : h.ports.get? endpoint = some port)
    (hapart : Apart k.catalogue.id (k.drawnOn (servicesOf h) port) port) :
    k.settle (servicesOf h) (k.correlate h) (k.after (servicesOf h) port) = k.correlate h := by
  unfold settle
  have hin := get?_correlated (k := k) hfiled hget
  rcases judgement_cases (k := k) (servicesOf h) (k.after (servicesOf h) port) with
    ⟨hnone, -⟩ | ⟨j, hj, hendpoint, hfindings, -⟩
  · rw [hnone]
    rfl
  · cases hservice : port.service with
    | none =>
      rw [judgement, service_after, hservice] at hj
      cases hj
    | some service =>
      have hagain := replaceCorrelations_again k.drawnBy_drawnOn hapart (after_of_some hservice ▸ hroom _ _ hin)
      rw [← after_of_some hservice] at hagain
      rw [hj, Option.elim_some, record, hendpoint, endpoint_after, hfiled _ _ hget, Host.replacePortCorrelations, hin,
        hfindings, drawnOn_after]
      dsimp only
      rw [hagain]
      have hinsert : (k.correlate h).ports.insert endpoint (k.after (servicesOf h) port) = (k.correlate h).ports := by
        refine eq_of_get? fun other => ?_
        rw [get?_insert]
        split
        next heq => rw [heq, hin]
        · rfl
      rw [hinsert]
      rfl

end

/-- **Correlating a host recomputes its correlations exactly when no port without a service holds
one, and no claim drawn from a service holds anything else.** -/
theorem recomputed_iff (k : Correlator) (h : Host) (hbuilt : h.Built Host.Op.HandsBuilt)
    (hroom : ∀ endpoint port, (k.correlate h).ports.get? endpoint = some port →
      port.findings.len < MAX_FINDINGS_PER_SUBJECT) :
    k.Recomputed h ↔ ∀ endpoint port, h.ports.get? endpoint = some port →
      (port.service = none → ∀ claim finding, port.findings.get? claim = some finding →
        drawnBy k.catalogue.id finding = false) ∧
      ∀ drawn ∈ k.drawnOn (servicesOf h) port, ∀ finding, port.findings.get? drawn.claimId = some finding →
        drawnBy k.catalogue.id finding = true := by
  have hfiled := hbuilt.bounded.filed
  constructor
  · intro hre endpoint port hget
    have hin := get?_correlated (k := k) hfiled hget
    constructor
    · intro hnone claim finding hfinding
      -- a port without a service is passed over, and nothing is drawn from it
      have hdrawn := hre.drawn endpoint _ hin claim finding
      rw [after_of_none hnone, drawnOn, hnone, Option.elim_none] at hdrawn
      exact Bool.eq_false_iff.mpr fun htrue => nomatch hdrawn.mp ⟨hfinding, htrue⟩
    · intro drawn hmem finding hfinding
      by_contra hnot
      obtain ⟨port', hin', hothers⟩ := hre.others endpoint port hget
      obtain rfl := Option.some.inj (hin.symm.trans hin')
      have hstill := (hothers _ _ (Bool.eq_false_iff.mpr hnot)).mpr hfinding
      obtain ⟨service, hservice⟩ : ∃ service, port.service = some service := by
        cases hservice : port.service with
        | none => exact absurd hmem (by simp [drawnOn, hservice])
        | some service => exact ⟨service, rfl⟩
      have hcorrelation : ∀ f ∈ k.drawnOn (servicesOf h) port, f.isCorrelation = true := fun f hf =>
        (Bool.and_eq_true_iff.mp (k.drawnBy_drawnOn f hf)).1
      rw [findings_after hfiled hroom hget hservice] at hstill
      obtain ⟨folded, hfolded, hcorr⟩ := isCorrelation_foldl (othersOn k.catalogue.id port) hmem rfl hcorrelation
      obtain rfl := Option.some.inj (hstill.symm.trans hfolded)
      -- it makes a claim of the catalogue's, and is a correlation now
      have hid := congrArg ClaimId.detection ((hbuilt.claimed.ports _ _ hget).claim_eq _ _ hfinding)
      have hdrawn := (Bool.and_eq_true_iff.mp (k.drawnBy_drawnOn drawn hmem)).2
      refine hnot (Bool.and_eq_true_iff.mpr ⟨hcorr, ?_⟩)
      exact (show finding.detection.id = drawn.detection.id from hid) ▸ hdrawn
  · intro hclear
    have hfound : ∀ endpoint port, h.ports.get? endpoint = some port → ∀ claim finding,
        (k.after (servicesOf h) port).findings.get? claim = some finding ↔
          (othersOn k.catalogue.id port).get? claim = some finding ∨
            (byClaim (k.drawnOn (servicesOf h) port)).get? claim = some finding := by
      intro endpoint port hget claim finding
      obtain ⟨hnone, hapart⟩ := hclear endpoint port hget
      cases hservice : port.service with
      | none =>
        rw [after_of_none hservice, drawnOn, hservice, get?_othersOn]
        have hheld := hnone hservice claim finding
        simp only [Option.elim_none, byClaim, List.foldl_nil, get?_empty]
        simpa using hheld
      | some service => rw [findings_after hfiled hroom hget hservice, get?_replaced hapart]
    refine ⟨fun endpoint port' hin claim finding => ?_, fun endpoint port hget => ?_, ?_, ?_⟩
    · rw [get?_correlate hfiled] at hin
      obtain ⟨port, hget, rfl⟩ := Option.map_eq_some_iff.mp hin
      rw [hfound endpoint port hget, drawnOn_after, get?_othersOn]
      constructor
      · rintro ⟨⟨-, hnot⟩ | hdrawn, htrue⟩
        · exact absurd htrue (by simp [hnot])
        · exact hdrawn
      · exact fun hdrawn => ⟨.inr hdrawn, (drawnBy_byClaim k.drawnBy_drawnOn hdrawn).1⟩
    · refine ⟨k.after (servicesOf h) port, get?_correlated hfiled hget, fun claim finding hnot => ?_⟩
      rw [hfound endpoint port hget, get?_othersOn]
      constructor
      · rintro (hother | hdrawn)
        · exact hother.1
        · exact absurd (drawnBy_byClaim k.drawnBy_drawnOn hdrawn).1 (by simp [hnot])
      · exact fun hfinding => .inl ⟨hfinding, hnot⟩
    · obtain ⟨touched, heq⟩ := k.correlate_eq h hfiled
      rw [heq]
    · rw [k.correlate_eq_foldl (k.correlate h), servicesOf_correlate hfiled]
      refine List.foldlRecOn (motive := fun s => s = k.correlate h) _ _ rfl fun s hs port' hport' => ?_
      obtain ⟨endpoint, hin⟩ := mem_values.mp hport'
      rw [get?_correlate hfiled] at hin
      obtain ⟨port, hget, rfl⟩ := Option.map_eq_some_iff.mp hin
      rw [hs, settle_after hfiled hroom hget (hclear endpoint port hget).2]

def ofInterleaved : Correlator :=
  ⟨ofOpenssh, .ofDocument ['c', 'v', 'e'] ⟨0, 0, 0⟩ [] interleaved interleaved_fits, [],
    ⟨['k'], ⟨0, 0, 0⟩, [], SortedMap.empty⟩⟩

def hostOf (ports : List Port) : Host :=
  ports.foldl (fun host port => host.apply ⟨1, 0, []⟩ (.addPort port)) (Host.new ⟨0, 0, []⟩ (.v4 167772161))

theorem built_hostOf {ports : List Port} (h : ∀ port ∈ ports, port.Built) : (hostOf ports).Built Host.Op.HandsBuilt :=
  List.foldlRecOn (motive := Host.Built Host.Op.HandsBuilt) _ _ (.new _ _)
    fun _ hhost port hport => .call _ _ hhost (h port hport)

theorem forall_of_values {h : Host} (test : Port → Bool) (hall : h.ports.values.all test = true) :
    ∀ endpoint port, h.ports.get? endpoint = some port → test port = true := fun endpoint port hget =>
  all_eq_true.mp hall port (mem_values.mpr ⟨endpoint, hget⟩)

def oldHostKey : Finding :=
  (Finding.new ⟨"ssh:host-key", ⟨1, 0, 0⟩, [], by decide⟩ "old host key" .medium .certain
    .passive).toOption.get (by decide)

/-- A service found vulnerable before, for a reason that no longer holds. -/
def sshd : Port :=
  [.setService { Service.new "ssh" 100 with
      product := some "OpenSSH", cpe := SortedSet.collect ["cpe:/a:openbsd:openssh:9.2"] },
    .addFinding oldHostKey, .addFinding Finding.redrawn].foldl Port.call (Port.new 22 .tcp .open)

def httpd : Port := (Port.new 80 .tcp .open).call (.setService (Service.new "http" 50))

theorem built_served : (hostOf [sshd, httpd]).Built Host.Op.HandsBuilt := by
  refine built_hostOf fun port hport => ?_
  simp only [mem_cons, not_mem_nil, or_false] at hport
  rcases hport with rfl | rfl
  · exact List.foldlRecOn (motive := Port.Built) _ _ (.new _ _ _) fun _ hbuilt call _ => .call call hbuilt
  · exact .call _ (.new _ _ _)

theorem recomputed_served :
    (hostOf [sshd, httpd]).ports.values.map (fun port => port.findings.values.map Finding.title) =
        [["old".toList, "old host key".toList], []] ∧
      (ofInterleaved.correlate (hostOf [sshd, httpd])).ports.values.map
          (fun port => port.findings.values.map Finding.title) =
        [["OpenSSH 9.2 has 3 known vulnerabilities".toList, "old host key".toList], []] ∧
      ofInterleaved.Recomputed (hostOf [sshd, httpd]) := by
  refine ⟨by decide +kernel, by decide +kernel,
    (recomputed_iff ofInterleaved _ built_served fun endpoint port hget => ?_).mpr
    fun endpoint port hget => ⟨fun hnone => ?_, fun drawn hdrawn finding hfinding => ?_⟩⟩
  · have hlen := forall_of_values (fun port => port.findings.len ≤ 2) (by decide +kernel) endpoint port hget
    exact (of_decide_eq_true hlen).trans_lt (by decide)
  · have hservice := forall_of_values (fun port => port.service.isSome) (by decide +kernel) endpoint port hget
    exact absurd hservice (by simp [hnone])
  · have hapart := forall_of_values (fun port => (ofInterleaved.drawnOn (servicesOf (hostOf [sshd, httpd])) port).all
      fun drawn => (port.findings.get? drawn.claimId).all (drawnBy ofInterleaved.catalogue.id)) (by decide +kernel)
      endpoint port hget
    have hall := all_eq_true.mp hapart drawn hdrawn
    rw [hfinding] at hall
    exact hall

def abandoned : Port := (Port.new 80 .tcp .open).call (.addFinding Finding.redrawn)

/-- The correlation is still there. -/
theorem recomputed_stale : (hostOf [abandoned]).Built Host.Op.HandsBuilt ∧
      (ofInterleaved.correlate (hostOf [abandoned])).ports.get? ⟨80, .tcp⟩ = some abandoned ∧
      abandoned.service = none ∧ abandoned.findings.values = [Finding.redrawn] ∧
      drawnBy ofInterleaved.catalogue.id Finding.redrawn = true ∧ ¬ ofInterleaved.Recomputed (hostOf [abandoned]) := by
  have hget : (ofInterleaved.correlate (hostOf [abandoned])).ports.get? ⟨80, .tcp⟩ = some abandoned := by decide +kernel
  refine ⟨built_hostOf (by simpa using .call (.addFinding _) (.new _ _ _)), hget,
    rfl, by decide +kernel, by decide +kernel,
    fun h => ?_⟩
  have hdrawn := (h.drawn _ _ hget Finding.redrawn.claimId Finding.redrawn).mp ⟨by decide +kernel, by decide +kernel⟩
  exact absurd hdrawn (by decide +kernel)

end Correlator

end Zond.Cve
