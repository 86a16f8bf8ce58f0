import ZondEngine.Journal.Listing
import ZondEngine.Journal.Store

/-!
# What a file of changes restores

A journal is written call by call, some of them failing, with compactions and new sittings in between (`Runs`), beside
the snapshots a file would hold that every successful call writes whole (`whole`). The ledger stays `Sound` and every
snapshot is in the file in pieces (`Invariant.step`, `Runs.invariant`).
-/

namespace Zond.Journal

open List

/-! ## Runs -/

/-- A journal, with the snapshots written and those that failed since it was last written whole. -/
structure Trail where
  journal : Journal
  (whole attempted : List Host)

inductive Call where
  | recordHosts (hosts : List Host) (outcome : Outcome)
  | compact (all : List Host) (fails : Bool)
  | resume (p : Process) (drops : Host → Bool)

def Trail.step (t : Oui) (m : Marks) (s : Trail) : Call → Trail
  | .recordHosts hosts outcome =>
    let (journal, ok) := s.journal.recordHosts t m hosts outcome
    if ok then ⟨journal, s.whole ++ hosts, s.attempted⟩ else ⟨journal, s.whole, s.attempted ++ hosts⟩
  | .compact all fails =>
    let (journal, ok) := s.journal.compact t m all fails
    if ok then ⟨journal, all, []⟩ else ⟨journal, s.whole, s.attempted⟩
  | .resume p drops => { s with journal := s.journal.resume t m p drops }

inductive Runs (t : Oui) (m : Marks) (meets : Trail → Call → Prop) : Trail → Prop
  | create : Runs t m meets ⟨create m, [], []⟩
  | call {s : Trail} (c : Call) : Runs t m meets s → meets s c → Runs t m meets (s.step t m c)

theorem Runs.foldl {t : Oui} {m : Marks} {meets : Trail → Call → Prop} : ∀ {calls : List Call} {s : Trail},
    Runs t m meets s → (∀ c ∈ calls, ∀ s, meets s c) → Runs t m meets (calls.foldl (Trail.step t m) s)
  | [], _, hs, _ => hs
  | c :: _, s, hs, hmeets => (hs.call c (hmeets c mem_cons_self s)).foldl fun c hc =>
    hmeets c (mem_cons_of_mem _ hc)

def readBack (t : Oui) (p : Process) (host : Host) : Host := (HostRecord.of t host).rebuild t p

structure Marks.TellsApart (m : Marks) (t : Oui) (U : Set Host) : Prop where
  host : ∀ h ∈ U, ∀ h' ∈ U, (m.host (restOf t h)).digest = (m.host (restOf t h')).digest → restOf t h = restOf t h'
  port : ∀ h ∈ U, ∀ port ∈ h.ports.values, ∀ h' ∈ U, ∀ port' ∈ h'.ports.values,
    (m.port (.of port)).digest = (m.port (.of port')).digest → PortRecord.of port = PortRecord.of port'

def Meets (t : Oui) (p : Process) (R Q : Set Host) (s : Trail) : Call → Prop
  | .recordHosts hosts _ => ∀ h ∈ hosts, h ∈ R
  | .compact all _ => ∀ h ∈ all, h ∈ R
  | .resume p' drops => (∀ h ∈ s.journal.restored t p' drops, h ∈ Q ∧ (readBack t p h).facts = h.facts) ∧
      (factScheme p).Roomy ((s.whole ++ s.attempted).map (readBack t p))

section Held

variable (t : Oui) (m : Marks) (p : Process) (U : Set Host)

def readAs (file : List HostRecord) : List Host := file.map (HostRecord.rebuild t p)

/-- A snapshot is in a file in pieces: its own fields in one class, each port in one its key leads to. -/
structure HeldIn (hs : List Host) (h : Host) : Prop where
  rest : (factScheme p).Covered hs ((restOf t h).rebuild t p)
  ports : ∀ port ∈ h.ports.values, ∀ fact ∈ portFacts (.of port), (factScheme p).Knows hs h.scopedIp.key fact

structure Sound (hs : List Host) (w : Written) : Prop where
  rest : ∀ key held mark, w.hosts.get? key = some held → held.rest = some mark →
    ∃ h ∈ U, m.host (restOf t h) = mark ∧ (factScheme p).Covered hs ((restOf t h).rebuild t p)
  ports : ∀ key held endpoint mark, w.hosts.get? key = some held → held.ports.get? endpoint = some mark →
    ∃ h ∈ U, ∃ port ∈ h.ports.values, m.port (.of port) = mark ∧
      ∀ fact ∈ portFacts (.of port), (factScheme p).Knows hs key fact

end Held

section Pieces

variable {t : Oui} {m : Marks} {p p' : Process} {U : Set Host} {hs hs' : List Host} {h : Host} {w : Written}
  {kept : List Port}

theorem alike_of_eq {x y : Host} (hips : x.ips = y.ips) (hzone : x.zone = y.zone) : (factScheme p).Alike x y := by
  refine ⟨Set.ext fun ip => ?_, congrArg (Option.map _) hzone⟩
  show HostFact.address ip ∈ Host.facts _ ↔ HostFact.address ip ∈ Host.facts _
  rw [Host.address_mem_facts, Host.address_mem_facts, Host.addresses, Host.addresses, hips]

theorem alike_listing (hb : h.Bounded) (kept kept' : List Port) : (factScheme p).Alike
    ((listing t h kept).rebuild t p') ((listing t h kept').rebuild t p) := by
  apply alike_of_eq
  · rw [ips_rebuild_listing t p' hb, ips_rebuild_listing t p hb]
  · rw [zone_rebuild_listing, zone_rebuild_listing]

theorem key_mem_listing (h : Host) (kept : List Port) :
    h.scopedIp.key ∈ (factScheme p).keysOf ((listing t h kept).rebuild t p') := by
  have hkey := key_mem_scopedIps ((listing t h kept).rebuild t p')
  rw [Host.key_scopedIp, primaryIp_rebuild_listing, zone_rebuild_listing, ← Host.key_scopedIp] at hkey
  exact hkey

theorem facts_listing_subset (hb : h.Bounded) {kept' : List Port} (hkept' : kept'.Sublist h.ports.values)
    (hkept : kept.Sublist kept') :
    ((listing t h kept).rebuild t p').facts ⊆ ((listing t h kept').rebuild t p).facts := by
  rw [facts_rebuild_listing t p' hb (hkept.trans hkept'), facts_rebuild_listing t p hb hkept']
  exact fun fact hfact => hfact.imp_right fun ⟨port, hport, hstates⟩ => ⟨port, hkept.subset hport, hstates⟩

theorem HeldIn.recurs (hheld : HeldIn t p hs h) (hrecurs : (factScheme p).Recurs hs hs') : HeldIn t p hs' h :=
  ⟨hheld.rest.recurs hrecurs, fun port hport fact hfact => (hheld.ports port hport fact hfact).recurs hrecurs⟩

namespace Sound

theorem empty (t : Oui) (m : Marks) (p : Process) (U : Set Host) (hs : List Host) : Sound t m p U hs Written.empty where
  rest _ _ _ hget := by cases hget
  ports _ _ _ _ hget := by cases hget

theorem recurs (hsound : Sound t m p U hs w) (hrecurs : (factScheme p).Recurs hs hs') : Sound t m p U hs' w where
  rest key held mark hget hrest := by
    obtain ⟨h, hh, hmark, hcovered⟩ := hsound.rest key held mark hget hrest
    exact ⟨h, hh, hmark, hcovered.recurs hrecurs⟩
  ports key held endpoint mark hget hport := by
    obtain ⟨h, hh, port, hmem, hmark, hknows⟩ := hsound.ports key held endpoint mark hget hport
    exact ⟨h, hh, port, hmem, hmark, fun fact hfact => (hknows fact hfact).recurs hrecurs⟩

/-- **What a record leaves out is in the file**, so a snapshot is, once its record is. -/
theorem heldIn (hsound : Sound t m p U hs w) (htells : m.TellsApart t U) (hh : h ∈ U) (hb : h.Bounded)
    (hwritten : ∀ record d, w.delta t m h = some (record, d) → record.rebuild t p ∈ hs) : HeldIn t p hs h := by
  have hport : ∀ port ∈ h.ports.values, Written.RemembersPort m w h port →
      ∀ fact ∈ portFacts (.of port), (factScheme p).Knows hs h.scopedIp.key fact := by
    rintro port hmem ⟨held, was, hget, hwas, hdigest⟩
    obtain ⟨h', hh', port', hmem', hmark, hknows⟩ := hsound.ports _ held port.endpoint was hget hwas
    rw [← htells.port h' hh' port' hmem' h hh port hmem (by rw [hmark, hdigest])]
    exact hknows
  rcases Written.delta_spec t m w h with ⟨_, ⟨held, was, hget, hwas, hdigest⟩, hports⟩ | ⟨kept, hsub, hports, hdelta⟩
  · obtain ⟨h', hh', hmark, hcovered⟩ := hsound.rest _ held was hget hwas
    refine ⟨?_, fun port hmem => hport port hmem (hports port hmem)⟩
    rw [← htells.host h' hh' h hh (by rw [hmark, hdigest])]
    exact hcovered
  · have hmem : (listing t h kept).rebuild t p ∈ hs := hwritten _ _ hdelta
    constructor
    · refine Scheme.Beneath.covered ?_ hmem
      exact (alike_listing hb [] kept).beneath (facts_listing_subset hb hsub (nil_sublist _))
    · intro port hlisted fact hfact
      rcases hports port hlisted with hkept | hheld
      · refine ⟨_, hmem, Scheme.tracedTo_self hmem (key_mem_listing h kept), Scheme.classFacts_self hmem ?_⟩
        show fact ∈ Host.facts _
        rw [facts_rebuild_listing t p hb hsub]
        exact .inr ⟨port, hkept, hfact⟩
      · exact hport port hlisted hheld fact hfact

theorem update (hsound : Sound t m p U hs w) (hh : h ∈ U) (hheld : HeldIn t p hs h) {w' : Written} {record : HostRecord}
    {d : Delta} (hdelta : w'.delta t m h = some (record, d)) : Sound t m p U hs (w.update d) := by
  rcases Written.delta_spec t m w' h with ⟨hnone, _⟩ | ⟨kept, hsub, _, hsome⟩
  · cases hnone.symm.trans hdelta
  obtain ⟨_, rfl⟩ := Prod.mk.inj (Option.some.inj (hdelta.symm.trans hsome))
  constructor
  · intro key held mark hget hrest
    rcases Written.held_update hget with hold | ⟨_, hnew, _⟩
    · exact hsound.rest key held mark hold hrest
    · exact ⟨h, hh, Option.some.inj (hnew.symm.trans hrest), hheld.rest⟩
  · intro key held endpoint mark hget hport
    rcases Written.held_update hget with hold | ⟨rfl, _, hports⟩
    · exact hsound.ports key held endpoint mark hold hport
    · rcases hports endpoint mark hport with hlisted | ⟨was, hwas, hold⟩
      · obtain ⟨port, hkept, heq⟩ := mem_map.mp hlisted
        obtain ⟨_, hmark⟩ := Prod.mk.inj heq
        exact ⟨h, hh, port, hsub.subset hkept, hmark, hheld.ports port (hsub.subset hkept)⟩
      · exact hsound.ports _ was endpoint mark hwas hold

theorem foldl_update (w' : Written) : ∀ {hosts : List Host} {w : Written}, Sound t m p U hs w →
    (∀ h ∈ hosts, h ∈ U ∧ HeldIn t p hs h) →
    Sound t m p U hs (((hosts.filterMap (w'.delta t m)).map Prod.snd).foldl Written.update w)
  | [], _, hsound, _ => hsound
  | h :: hosts, w, hsound, hhosts => by
    obtain ⟨hh, hheld⟩ := hhosts h mem_cons_self
    have hrest : ∀ h ∈ hosts, h ∈ U ∧ HeldIn t p hs h := fun h hmem => hhosts h (mem_cons_of_mem _ hmem)
    cases hdelta : w'.delta t m h with
    | none =>
      rw [filterMap_cons_none hdelta]
      exact foldl_update w' hsound hrest
    | some written =>
      rw [filterMap_cons_some hdelta, map_cons, foldl_cons]
      exact foldl_update w' (hsound.update hh hheld hdelta) hrest

end Sound

end Pieces

section Run

variable {t : Oui} {m : Marks} {p : Process} {R Q : Set Host} {s : Trail}

variable (t) in
def Listed (file : List HostRecord) (known : List Host) : Prop :=
  ∀ record ∈ file, ∃ h ∈ known, ∃ kept : List Port, kept.Sublist h.ports.values ∧ record = listing t h kept

theorem Listed.mono {file file' : List HostRecord} {known known' : List Host} (h : Listed t file known)
    (hfile : file' ⊆ file) (hknown : known ⊆ known') : Listed t file' known' := by
  intro record hrecord
  obtain ⟨host, hhost, hkept⟩ := h record (hfile hrecord)
  exact ⟨host, hknown hhost, hkept⟩

theorem Listed.append {file file' : List HostRecord} {known : List Host} (h : Listed t file known)
    (h' : Listed t file' known) : Listed t (file ++ file') known := fun record hrecord =>
  (mem_append.mp hrecord).elim (h record) (h' record)

theorem listed_delta (w : Written) (hosts : List Host) :
    Listed t ((hosts.filterMap (w.delta t m)).map Prod.fst) hosts := by
  intro record hrecord
  obtain ⟨⟨_, d⟩, hmem, rfl⟩ := mem_map.mp hrecord
  obtain ⟨h, hh, hdelta⟩ := mem_filterMap.mp hmem
  rcases Written.delta_spec t m w h with ⟨hnone, _⟩ | ⟨kept, hsub, _, hsome⟩
  · cases hnone.symm.trans hdelta
  · obtain ⟨rfl, _⟩ := Prod.mk.inj (Option.some.inj (hdelta.symm.trans hsome))
    exact ⟨h, hh, kept, hsub, rfl⟩

variable (t m p R Q) in
/-- The file is made of records of snapshots; it holds every snapshot of a successful call in pieces, and all the ledger
remembers. -/
structure Invariant (s : Trail) : Prop where
  snapshots : ∀ h ∈ s.whole ++ s.attempted, h ∈ R
  listed : Listed t s.journal.findings (s.whole ++ s.attempted)
  held : ∀ h ∈ s.whole, HeldIn t p (readAs t p s.journal.findings) h
  sound : Sound t m p (R ∪ Q) (readAs t p s.journal.findings) s.journal.written

theorem recurs_append (p : Process) (file added : List HostRecord) :
    (factScheme p).Recurs (readAs t p file) (readAs t p (file ++ added)) :=
  .of_subset _ (map_subset _ (subset_append_left _ _))

/-- **Writing snapshots by what changed puts them in the file**, and what is remembered of it is right. -/
theorem writing {file : List HostRecord} {w : Written} (hsound : Sound t m p (R ∪ Q) (readAs t p file) w)
    (htells : m.TellsApart t (R ∪ Q)) (hR : ∀ h ∈ R, h.Bounded) {hosts : List Host} (hhosts : ∀ h ∈ hosts, h ∈ R) :
    (∀ h ∈ hosts, HeldIn t p (readAs t p (file ++ (hosts.filterMap (w.delta t m)).map Prod.fst)) h) ∧
      Sound t m p (R ∪ Q) (readAs t p (file ++ (hosts.filterMap (w.delta t m)).map Prod.fst))
        (((hosts.filterMap (w.delta t m)).map Prod.snd).foldl Written.update w) := by
  have hmore := hsound.recurs (recurs_append p file ((hosts.filterMap (w.delta t m)).map Prod.fst))
  have hheld : ∀ h ∈ hosts, HeldIn t p (readAs t p (file ++ (hosts.filterMap (w.delta t m)).map Prod.fst)) h := by
    intro h hh
    refine hmore.heldIn htells (.inl (hhosts h hh)) (hR h (hhosts h hh)) fun record d hdelta => ?_
    refine mem_map_of_mem (mem_append_right _ ?_)
    exact mem_map.mpr ⟨(record, d), mem_filterMap.mpr ⟨h, hh, hdelta⟩, rfl⟩
  exact ⟨hheld, Sound.foldl_update w hmore fun h hh => ⟨.inl (hhosts h hh), hheld h hh⟩⟩

namespace Invariant

theorem create (t : Oui) (m : Marks) (p : Process) (R Q : Set Host) : Invariant t m p R Q ⟨create m, [], []⟩ where
  snapshots _ hh := absurd hh not_mem_nil
  listed _ hrecord := absurd hrecord not_mem_nil
  held _ hh := absurd hh not_mem_nil
  sound := Sound.empty t m p _ _

section Step

variable (hinv : Invariant t m p R Q s) (htells : m.TellsApart t (R ∪ Q)) (hR : ∀ h ∈ R, h.Bounded)

include hinv htells hR in
theorem recordHosts {hosts : List Host} (outcome : Outcome) (hhosts : ∀ h ∈ hosts, h ∈ R) :
    Invariant t m p R Q (s.step t m (.recordHosts hosts outcome)) := by
  obtain ⟨hwritten, hsound⟩ := writing hinv.sound htells hR hhosts
  have hlisted := listed_delta (t := t) (m := m) s.journal.written hosts
  have hsnapshots : ∀ h, h ∈ s.whole ∨ h ∈ s.attempted ∨ h ∈ hosts → h ∈ R := by
    rintro h (hh | hh | hh)
    · exact hinv.snapshots h (mem_append_left _ hh)
    · exact hinv.snapshots h (mem_append_right _ hh)
    · exact hhosts h hh
  have hspec := s.journal.recordHosts_spec t m hosts outcome
  unfold Trail.step
  dsimp only
  generalize s.journal.recordHosts t m hosts outcome = result at hspec ⊢
  obtain ⟨journal, ok⟩ := result
  obtain ⟨added, hfindings, hadded, hheld, hledger⟩ : ∃ added, journal.findings = s.journal.findings ++ added ∧
      Listed t added hosts ∧ (ok = true → ∀ h ∈ hosts, HeldIn t p (readAs t p (s.journal.findings ++ added)) h) ∧
      Sound t m p (R ∪ Q) (readAs t p (s.journal.findings ++ added)) journal.written := by
    rcases hspec with ⟨hfindings, hledger⟩ | ⟨rfl, ⟨count, hfindings⟩, hledger⟩
    · -- All is written and remembered, whether the call succeeds or cannot measure the file.
      exact ⟨_, hfindings, hlisted, fun _ => hwritten, hledger ▸ hsound⟩
    · -- Some records are written, and nothing is remembered of them.
      refine ⟨_, hfindings, hlisted.mono (take_subset count _) (List.Subset.refl _), nofun, ?_⟩
      rw [hledger]
      exact hinv.sound.recurs (recurs_append p _ _)
  have hold := fun h hh => (hinv.held h hh).recurs (recurs_append p s.journal.findings added)
  have hfile {known : List Host} (hbefore : s.whole ++ s.attempted ⊆ known) (hnow : hosts ⊆ known) :=
    (hinv.listed.mono (List.Subset.refl _) hbefore).append (hadded.mono (List.Subset.refl _) hnow)
  rw [← hfindings] at hheld hledger hold hfile
  cases ok with
  | true => exact ⟨fun h hh => hsnapshots h (by grind), hfile (by grind) (by grind),
      fun h hh => (mem_append.mp hh).elim (hold h) (hheld rfl h), hledger⟩
  | false => exact ⟨fun h hh => hsnapshots h (by grind), hfile (by grind) (by grind), hold, hledger⟩

include hinv htells hR in
theorem compact {all : List Host} (fails : Bool) (hall : ∀ h ∈ all, h ∈ R) :
    Invariant t m p R Q (s.step t m (.compact all fails)) := by
  cases fails with
  | true => exact ⟨hinv.snapshots, hinv.listed, hinv.held, hinv.sound⟩
  | false =>
    obtain ⟨hwritten, hsound⟩ := writing (Sound.empty t m p (R ∪ Q) (readAs t p [])) htells hR hall
    refine ⟨fun h hh => hall h ((mem_append.mp hh).elim id fun hnone => absurd hnone not_mem_nil), ?_, hwritten, hsound⟩
    exact (listed_delta Written.empty all).mono (List.Subset.refl _) (subset_append_left _ _)

include hinv hR in
theorem recurs_readBack (p' : Process) :
    (factScheme p).Recurs (readAs t p' s.journal.findings) ((s.whole ++ s.attempted).map (readBack t p)) := by
  intro x hx
  obtain ⟨record, hrecord, rfl⟩ := mem_map.mp hx
  obtain ⟨h, hh, kept, hsub, rfl⟩ := hinv.listed record hrecord
  have hb := hR h (hinv.snapshots h hh)
  exact ⟨readBack t p h, mem_map_of_mem hh, alike_listing hb kept h.ports.values,
    facts_listing_subset hb (List.Sublist.refl _) hsub⟩

include hinv hR in
theorem recurs_readAs (p' : Process) :
    (factScheme p).Recurs (readAs t p' s.journal.findings) (readAs t p s.journal.findings) := by
  intro x hx
  obtain ⟨record, hrecord, rfl⟩ := mem_map.mp hx
  obtain ⟨h, hh, kept, hsub, rfl⟩ := hinv.listed record hrecord
  have hb := hR h (hinv.snapshots h hh)
  exact ⟨_, mem_map_of_mem hrecord, alike_listing hb kept kept, facts_listing_subset hb hsub (List.Sublist.refl _)⟩

include hinv in
theorem mem_readBack : ∀ x ∈ (s.whole ++ s.attempted).map (readBack t p), x ∈ readBack t p '' R := by
  intro x hx
  obtain ⟨h, hh, rfl⟩ := mem_map.mp hx
  exact ⟨h, hinv.snapshots h hh, rfl⟩

variable (hconsistent : (factScheme p).Consistent (readBack t p '' R))

include hinv hR hconsistent in
theorem covered_readFindings (hroom : (factScheme p).Roomy ((s.whole ++ s.attempted).map (readBack t p)))
    (p' : Process) {r : Host} (hr : r ∈ readFindings t p' s.journal.findings) :
    r.Bounded ∧ (factScheme p).Covered (readAs t p s.journal.findings) r := by
  have hrecurs := hinv.recurs_readBack hR p'
  obtain ⟨owner, hg'⟩ := Scheme.Recurs.exists_grouped (S := factScheme p') hrecurs hconsistent hinv.mem_readBack hroom
    fun x hx => by
      obtain ⟨record, _, rfl⟩ := mem_map.mp hx
      exact ok_rebuild t p' record
  -- How hosts are grouped does not depend on when they are read.
  have hg : (factScheme p).Grouped (readAs t p' s.journal.findings)
      (Slots.readAll (factScheme p').keysOf (factScheme p').merge (factScheme p').later
        (readAs t p' s.journal.findings)) owner :=
    ⟨hg'.live, hg'.joined, hg'.ok, hg'.facts, hg'.label, hg'.traced, hg'.filed⟩
  have hsteady := hrecurs.steadyAll hconsistent hinv.mem_readBack hroom
  obtain ⟨slot, hheld⟩ := Slots.mem_values.mp hr
  exact ⟨(hg.ok slot r hheld).1, (hg.covers hsteady hr).recurs (hinv.recurs_readAs hR p')⟩

include hinv hR hconsistent in
theorem resume {p' : Process} {drops : Host → Bool} (hmeets : Meets t p R Q s (.resume p' drops)) :
    Invariant t m p R Q (s.step t m (.resume p' drops)) := by
  obtain ⟨hrestored, hroom⟩ := hmeets
  have hheld : ∀ r ∈ s.journal.restored t p' drops, HeldIn t p (readAs t p s.journal.findings) r := by
    intro r hr
    obtain ⟨hb, hcovered⟩ := hinv.covered_readFindings hR hconsistent hroom p' (mem_filter.mp hr).1
    have hreads : ((listing t r r.ports.values).rebuild t p).facts = r.facts := (hrestored r hr).2
    have hlike : (factScheme p).Alike ((listing t r []).rebuild t p) r :=
      alike_of_eq (ips_rebuild_listing t p hb _) (zone_rebuild_listing t p r [])
    constructor
    · refine hcovered.beneath (hlike.beneath ?_)
      show Host.facts _ ⊆ r.facts
      rw [← hreads]
      exact facts_listing_subset hb (List.Sublist.refl _) (nil_sublist _)
    · intro port hport fact hfact
      refine hcovered.knows (key_mem_scopedIps r) ?_
      show fact ∈ r.facts
      rw [← hreads, facts_rebuild_listing t p hb (List.Sublist.refl _)]
      exact .inr ⟨port, hport, hfact⟩
  have hsound := Sound.foldl_update Written.empty (Sound.empty t m p (R ∪ Q) (readAs t p s.journal.findings))
    fun r hr => ⟨.inr (hrestored r hr).1, hheld r hr⟩
  exact ⟨hinv.snapshots, hinv.listed, hinv.held, ⟨hsound.rest, hsound.ports⟩⟩

include hinv htells hR hconsistent in
/-- **Every call keeps it.** -/
theorem step {c : Call} (hmeets : Meets t p R Q s c) : Invariant t m p R Q (s.step t m c) := by
  cases c with
  | recordHosts hosts outcome => exact hinv.recordHosts htells hR outcome hmeets
  | compact all fails => exact hinv.compact htells hR fails hmeets
  | resume p' drops => exact hinv.resume hR hconsistent hmeets

end Step

end Invariant

/-- **Every run keeps it.** -/
theorem Runs.invariant (htells : m.TellsApart t (R ∪ Q)) (hR : ∀ h ∈ R, h.Bounded)
    (hconsistent : (factScheme p).Consistent (readBack t p '' R)) (hruns : Runs t m (Meets t p R Q) s) :
    Invariant t m p R Q s := by
  induction hruns with
  | create => exact Invariant.create t m p R Q
  | call c _ hmeets ih => exact ih.step htells hR hconsistent hmeets

theorem perm_summary {found found' : List Host} (hok : ∀ h ∈ found ++ found', PortsInOrder h.ports)
    (h : (found.map Host.facts).Perm (found'.map Host.facts)) :
    (found.map Host.summary).Perm (found'.map Host.summary) := by
  classical
  -- The summary of a host is a function of what it says.
  have hfactor : ∃ tell : Set HostFact → Finset Ip.IpAddr × (Endpoint → Option (PortState × Finset ClaimId)),
      ∀ host ∈ found ++ found', tell host.facts = host.summary := by
    refine ⟨fun facts =>
      if hsome : ∃ host : Host, PortsInOrder host.ports ∧ host.facts = facts then hsome.choose.summary
      else (∅, fun _ => none), fun host hhost => ?_⟩
    have hsome : ∃ other : Host, PortsInOrder other.ports ∧ other.facts = host.facts := ⟨host, hok host hhost, rfl⟩
    obtain ⟨hports, hfacts⟩ := hsome.choose_spec
    dsimp only
    rw [dif_pos hsome]
    exact Host.summary_eq_of_facts hports (hok host hhost) hfacts
  obtain ⟨tell, htell⟩ := hfactor
  have hmap : ∀ {l : List Host}, l ⊆ found ++ found' → l.map Host.summary = (l.map Host.facts).map tell := by
    intro l hl
    rw [map_map]
    exact map_congr_left fun host hhost => (htell host (hl hhost)).symm
  rw [hmap (subset_append_left _ _), hmap (subset_append_right _ _)]
  exact h.map tell

/-- **A file of changes restores what a file of whole snapshots restores**, over consistent
snapshots, once every snapshot of a call that failed is taken in by one of a call that succeeded. -/
theorem findings_restore_whole (t : Oui) (m : Marks) (p : Process) {R Q : Set Host}
    (hbuilt : ∀ h ∈ R, Host.Built (fun _ => True) h) (htells : m.TellsApart t (R ∪ Q))
    (hconsistent : (factScheme p).Consistent (readBack t p '' R)) {s : Trail} (hruns : Runs t m (Meets t p R Q) s)
    (hretried : ∀ h ∈ s.attempted, ∃ h' ∈ s.whole, (factScheme p).Beneath (readBack t p h) (readBack t p h'))
    (hroom : (factScheme p).Roomy (s.whole.map (readBack t p))) :
    ((readFindings t p s.journal.findings).map Host.summary).Perm
      ((readFindings t p (s.whole.map (HostRecord.of t))).map Host.summary) := by
  have hR : ∀ h ∈ R, h.Bounded := fun h hh => (hbuilt h hh).bounded
  have hinv := hruns.invariant htells hR hconsistent
  have hrecurs := hinv.recurs_readBack hR p
  -- What failed calls wrote is within what successful ones wrote since.
  have hwithin : (factScheme p).Within ((s.whole ++ s.attempted).map (readBack t p)) (s.whole.map (readBack t p)) := by
    intro x hx
    obtain ⟨h, hh, rfl⟩ := mem_map.mp hx
    rcases mem_append.mp hh with hwhole | hattempted
    · exact ⟨_, mem_map_of_mem hwhole, fun _ hk => hk, Set.Subset.refl _⟩
    · obtain ⟨h', hh', hbeneath⟩ := hretried h hattempted
      exact ⟨_, mem_map_of_mem hh', hbeneath⟩
  have hroomy := hwithin.roomy hroom
  have hsteady : ∀ {x y}, y ∈ (s.whole ++ s.attempted).map (readBack t p) → (factScheme p).Alike x y →
      (factScheme p).Steady (readAs t p s.journal.findings) x := fun hy hlike =>
    hrecurs.steady hconsistent hinv.mem_readBack hroomy hy hlike
  have hsteadyFile := hrecurs.steadyAll hconsistent hinv.mem_readBack hroomy
  have hsub : s.whole.map (readBack t p) ⊆ (s.whole ++ s.attempted).map (readBack t p) :=
    map_subset _ (subset_append_left _ _)
  have hwhole : (s.whole.map (HostRecord.of t)).map (HostRecord.rebuild t p) = s.whole.map (readBack t p) := map_map
  -- A snapshot is covered by the class of its own fields, which its ports are known of.
  have hcovered : ∀ y ∈ s.whole.map (readBack t p), (factScheme p).Covered (readAs t p s.journal.findings) y := by
    intro y hy
    obtain ⟨h, hh, rfl⟩ := mem_map.mp hy
    have hb := hR h (hinv.snapshots h (mem_append_left _ hh))
    have hheld := hinv.held h hh
    have hlike : (factScheme p).Alike (readBack t p h) ((restOf t h).rebuild t p) := alike_listing hb h.ports.values []
    refine Scheme.Covered.of_knows hsteadyFile (hsteady (hsub hy) (.refl _ _)) hheld.rest
      (fun k hk => hlike.mem_keysOf.mp hk) fun fact hfact => ?_
    have hstates : fact ∈ ((listing t h h.ports.values).rebuild t p).facts := hfact
    rw [facts_rebuild_listing t p hb (List.Sublist.refl _)] at hstates
    rcases hstates with haddress | ⟨port, hport, hstates⟩
    · refine .inl ?_
      show fact ∈ ((listing t h []).rebuild t p).facts
      rw [facts_rebuild_listing t p hb (nil_sublist _)]
      exact .inl haddress
    · exact .inr ⟨_, key_mem_listing h h.ports.values, hheld.ports port hport fact hstates⟩
  have hok : ∀ x, x ∈ readAs t p s.journal.findings ∨ x ∈ s.whole.map (readBack t p) → (factScheme p).Ok x := by
    rintro x (hx | hx)
    · obtain ⟨record, _, rfl⟩ := mem_map.mp hx
      exact ok_rebuild t p record
    · obtain ⟨h, _, rfl⟩ := mem_map.mp hx
      exact ok_rebuild t p (.of t h)
  obtain ⟨owner, hfile⟩ := hrecurs.exists_grouped hconsistent hinv.mem_readBack hroomy fun x hx => hok x (.inl hx)
  obtain ⟨owner', hfile'⟩ := (Scheme.Recurs.of_subset _ hsub).exists_grouped hconsistent hinv.mem_readBack hroomy
    fun x hx => hok x (.inr hx)
  have hperm := Scheme.Partitions.perm hsteadyFile (fun y hy => hsteady (hsub hy) (.refl _ _))
    (fun x hx => ?_) hcovered hfile.partitions hfile'.partitions
  · unfold readFindings
    rw [hwhole]
    refine perm_summary (fun h hh => ?_) hperm
    rcases mem_append.mp hh with hh | hh
    · obtain ⟨slot, hslot⟩ := Slots.mem_values.mp hh
      exact (hfile.ok slot h hslot).2
    · obtain ⟨slot, hslot⟩ := Slots.mem_values.mp hh
      exact (hfile'.ok slot h hslot).2
  · obtain ⟨y, hy, hbeneath⟩ := hrecurs.within x hx
    obtain ⟨z, hz, hbeneath'⟩ := hwithin y hy
    exact ⟨z, hz, hbeneath.trans hbeneath'⟩

end Run

/-! ## Runs -/

theorem roomy_of_one {p : Process} {hs : List Host} {x : Host} (hok : (factScheme p).Ok x)
    (hall : ∀ h ∈ hs, h.facts ⊆ x.facts) : (factScheme p).Roomy hs := by
  intro y _
  refine HostFact.Fits.mono ?_ (Host.fits_facts hok.1.ips_le hok.2)
  rintro fact ⟨h, hh, _, hfact⟩
  exact hall h hh hfact

def someMarks : Marks where
  host record := ⟨UInt64.ofNat (record.ips.length + if record.primaryIp = .v4 1 then 0 else 2), 1⟩
  port record := ⟨record.port.toUInt64, 1⟩
  size := List.length

/-! A host with a port is written in a call that fails after the record is in the file, and in two that succeed, of
which the second finds nothing to write; a compaction fails in between. -/

def retried : Trail :=
  [Call.recordHosts [serving updated] (.failedAfter 1), .recordHosts [serving updated] .done,
    .compact [serving updated] true, .recordHosts [serving updated] .unmeasured].foldl (Trail.step noMacs someMarks)
      ⟨create someMarks, [], []⟩

theorem findings_restore_whole_retried :
    retried.attempted.length = 1 ∧ retried.whole.length = 2 ∧ retried.journal.findings.length = 2 ∧
      ((readFindings noMacs ⟨0, 0, []⟩ retried.journal.findings).map Host.summary).Perm
        ((readFindings noMacs ⟨0, 0, []⟩ (retried.whole.map (HostRecord.of noMacs))).map Host.summary) := by
  have hbuilt : ∀ h ∈ ({serving updated} : Set Host), Host.Built (fun _ => True) h := by
    rintro h rfl
    exact .call _ (.addPort _) (.new _ _) trivial
  have htells : someMarks.TellsApart noMacs ({serving updated} ∪ ∅) := by
    rw [Set.union_empty]
    constructor
    · rintro h rfl h' rfl _
      rfl
    · rintro h rfl port hport h' rfl port' hport' _
      rw [mem_singleton.mp hport, mem_singleton.mp hport']
  have hconsistent : (factScheme ⟨0, 0, []⟩).Consistent (readBack noMacs ⟨0, 0, []⟩ '' {serving updated}) := by
    intro first rest r hsub _ _ hlabel
    obtain ⟨h, rfl, hfirst⟩ := hsub first mem_cons_self
    exact absurd (hfirst ▸ congrArg (Option.map _) (zone_rebuild_listing noMacs _ (serving updated) _)) hlabel
  have hruns : Runs noMacs someMarks (Meets noMacs ⟨0, 0, []⟩ {serving updated} ∅) retried := by
    refine Runs.create.foldl fun c hc s => ?_
    simp only [mem_cons, not_mem_nil, or_false] at hc
    rcases hc with rfl | rfl | rfl | rfl
    all_goals exact fun h hh => mem_singleton.mp hh
  have hlengths : retried.attempted.length = 1 ∧ retried.whole.length = 2 ∧ retried.journal.findings.length = 2 := by
    decide +kernel
  have hsame : ∀ h ∈ retried.whole ++ retried.attempted, h = serving updated :=
    (hruns.invariant htells (fun h hh => (hbuilt h hh).bounded) hconsistent).snapshots
  obtain ⟨first, hfirst⟩ := exists_mem_of_length_pos (hlengths.2.1 ▸ Nat.zero_lt_two)
  refine ⟨hlengths.1, hlengths.2.1, hlengths.2.2, findings_restore_whole noMacs someMarks ⟨0, 0, []⟩ hbuilt htells
    hconsistent hruns (fun h hh => ⟨first, hfirst, ?_⟩) (roomy_of_one (ok_rebuild noMacs _ (.of noMacs first)) ?_)⟩
  · rw [hsame h (mem_append_right _ hh), hsame first (mem_append_left _ hfirst)]
    exact ⟨fun _ hk => hk, Set.Subset.refl _⟩
  · intro x hx
    obtain ⟨h, hh, rfl⟩ := mem_map.mp hx
    rw [hsame h (mem_append_left _ hh), ← hsame first (mem_append_left _ hfirst)]
    exact Set.Subset.refl _

/-! The machine on two links again: its second snapshot is given once more, and a file of changes has no record of that,
while in a file of whole snapshots it joins what was apart. -/

def twoLinkHosts : List Host :=
  [hostAt (.v4 1) [] (linkNamed ['a']), hostAt (.v4 1) [linkLocal] (linkNamed ['b']),
    hostAt linkLocal [] (linkNamed ['b'])]

def repeated : Trail :=
  [Call.recordHosts twoLinkHosts .done, .recordHosts [hostAt (.v4 1) [linkLocal] (linkNamed ['b'])] .done].foldl
    (Trail.step noMacs someMarks) ⟨create someMarks, [], []⟩

theorem findings_restore_split :
    (∀ h ∈ twoLinkHosts, Host.Built (fun _ => True) h) ∧ someMarks.TellsApart noMacs {h | h ∈ twoLinkHosts} ∧
      Runs noMacs someMarks (Meets noMacs ⟨0, 0, []⟩ {h | h ∈ twoLinkHosts} ∅) repeated ∧
      repeated.attempted.length = 0 ∧
      (factScheme ⟨0, 0, []⟩).Roomy (repeated.whole.map (readBack noMacs ⟨0, 0, []⟩)) ∧
      ¬ ((readFindings noMacs ⟨0, 0, []⟩ repeated.journal.findings).map Host.summary).Perm
        ((readFindings noMacs ⟨0, 0, []⟩ (repeated.whole.map (HostRecord.of noMacs))).map Host.summary) := by
  have hruns : Runs noMacs someMarks (Meets noMacs ⟨0, 0, []⟩ {h | h ∈ twoLinkHosts} ∅) repeated := by
    refine Runs.create.foldl fun c hc s => ?_
    simp only [mem_cons, not_mem_nil, or_false] at hc
    rcases hc with rfl | rfl
    · exact fun h hh => hh
    · intro h hh
      rw [mem_singleton.mp hh]
      exact mem_cons_of_mem _ mem_cons_self
  refine ⟨?_, ⟨?_, ?_⟩, hruns, by decide +kernel, ?_, fun hperm => ?_⟩
  · intro h hh
    simp only [twoLinkHosts, mem_cons, not_mem_nil, or_false] at hh
    rcases hh with rfl | rfl | rfl
    all_goals exact .call _ (.setZone _) (.call _ (.extendIps _) (.new _ _) trivial) trivial
  · show ∀ h ∈ twoLinkHosts, ∀ h' ∈ twoLinkHosts, _
    decide +kernel
  · have hports : ∀ h ∈ twoLinkHosts, h.ports.values.length = 0 := by decide +kernel
    intro h hh port hport
    rw [length_eq_zero_iff.mp (hports h hh)] at hport
    exact absurd hport not_mem_nil
  · -- The host at both addresses says all the others say.
    have hall : ∀ h ∈ repeated.whole.map (readBack noMacs ⟨0, 0, []⟩), h.ports.values.length = 0 ∧
        h.addresses ⊆ (readBack noMacs ⟨0, 0, []⟩ (hostAt (.v4 1) [linkLocal] (linkNamed ['b']))).addresses := by
      decide +kernel
    refine roomy_of_one (ok_rebuild noMacs _ (recordAt (.v4 1) [linkLocal] (linkNamed ['b']))) ?_
    rintro h hh fact (⟨ip, hip, rfl⟩ | ⟨port, hport, _⟩)
    · exact Host.address_mem_facts.mpr ((hall h hh).2 hip)
    · rw [length_eq_zero_iff.mp (hall h hh).1] at hport
      exact absurd hport not_mem_nil
  · have hlengths : (readFindings noMacs ⟨0, 0, []⟩ repeated.journal.findings).length = 2 ∧
        (readFindings noMacs ⟨0, 0, []⟩ (repeated.whole.map (HostRecord.of noMacs))).length = 1 := by decide +kernel
    have hsame := hperm.length_eq
    rw [length_map, length_map, hlengths.1, hlengths.2] at hsame
    exact absurd hsame (by decide)

end Zond.Journal
