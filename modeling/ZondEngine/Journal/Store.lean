import ZondEngine.Journal.Findings

/-!
# Writing findings by what changed

The findings file of `journal/store.rs` and the ledger of what is in it (`Written`): a call writes of every host its own
fields and the ports whose record differs from the one the ledger remembers. A write may fail part way.

* `recordHosts_spec`: what is in the file and in the ledger after a call, whichever way it ends.
* `superseded_of_shouldCompact`: when a compaction that failed is asked for again.
-/

namespace Zond

open List

/-! ## The ledger -/

namespace Journal

structure Mark where
  digest : UInt64
  length : UInt32
  deriving DecidableEq

structure Marks where
  host : HostRecord → Mark
  port : PortRecord → Mark
  size : List HostRecord → ℕ

/-- What the findings file holds of one host: its last record, less its ports, and its ports. -/
structure HeldHost where
  rest : Option Mark
  ports : SortedMap Endpoint Mark

/-- What a findings file holds of each host, and how many of its bytes later records superseded. -/
structure Written where
  hosts : SortedMap ScopedIp.Key HeldHost
  superseded : ℕ

structure Delta where
  key : ScopedIp.Key
  rest : Mark
  ports : List (Endpoint × Mark)

def Delta.length (delta : Delta) : ℕ :=
  delta.rest.length.toNat + (delta.ports.map fun entry => entry.2.length.toNat).sum

def restOf (t : Oui) (host : Host) : HostRecord := { HostRecord.of t host with ports := [] }

namespace Written

def empty : Written := ⟨SortedMap.empty, 0⟩

def remembers (held : Option HeldHost) (endpoint : Endpoint) (mark : Mark) : Bool :=
  (held.bind fun held => held.ports.get? endpoint).any fun was => was.digest == mark.digest

def changed (m : Marks) (held : Option HeldHost) (ports : List (Port × PortRecord)) :
    List ((Endpoint × Mark) × PortRecord) :=
  ports.filterMap fun entry =>
    let mark := m.port entry.2
    if remembers held entry.1.endpoint mark then none else some ((entry.1.endpoint, mark), entry.2)

/-- The part of a host the file does not hold. -/
def delta (t : Oui) (m : Marks) (w : Written) (host : Host) : Option (HostRecord × Delta) :=
  let held := w.hosts.get? host.scopedIp.key
  let rest := m.host (restOf t host)
  -- A record lists the ports in the order the host has them, so the two zip.
  let changed := changed m held (host.ports.values.zip (HostRecord.of t host).ports)
  let unchanged := changed.isEmpty && (held.bind HeldHost.rest).map Mark.digest == some rest.digest
  if unchanged then none
  else some ({ restOf t host with ports := changed.map Prod.snd }, ⟨host.scopedIp.key, rest, changed.map Prod.fst⟩)

def rememberPort (s : SortedMap Endpoint Mark × ℕ) (entry : Endpoint × Mark) : SortedMap Endpoint Mark × ℕ :=
  (s.1.insert entry.1 entry.2, s.2 + (s.1.get? entry.1).elim 0 fun was => was.length.toNat)

def update (w : Written) (delta : Delta) : Written :=
  let held := w.hosts.get? delta.key
  let superseded := w.superseded + (held.bind HeldHost.rest).elim 0 fun was => was.length.toNat
  let (ports, superseded) := delta.ports.foldl rememberPort (held.elim SortedMap.empty HeldHost.ports, superseded)
  ⟨w.hosts.insert delta.key ⟨some delta.rest, ports⟩, superseded⟩

def holding (t : Oui) (m : Marks) (hosts : List Host) (length : ℕ) : Written :=
  let deltas := (hosts.filterMap (empty.delta t m)).map Prod.snd
  { deltas.foldl update empty with superseded := length - (deltas.map Delta.length).sum }

end Written

end Journal

/-! ## The journal -/

/-- The findings of a journal: the file's records and last length, the ledger, and how much has to be superseded before
a compaction. -/
structure Journal where
  findings : List HostRecord
  written : Journal.Written
  (length compactAfter : ℕ)

namespace Journal

def COMPACT_FLOOR : ℕ := 4 * 1024 * 1024

def outgrown (length superseded : ℕ) : Bool := decide (superseded > max COMPACT_FLOOR (length - superseded))

/-- How a write ends: all is written, some of the records are, or all are and the file cannot be measured. -/
inductive Outcome where
  | done
  | failedAfter (records : ℕ)
  | unmeasured
  deriving DecidableEq

section Calls

variable (t : Oui) (m : Marks)

def create : Journal := ⟨[], Written.empty, m.size [], 0⟩

/-- Appends what changed of some hosts. -/
def recordHosts (j : Journal) (hosts : List Host) (outcome : Outcome) : Journal × Bool :=
  let records := hosts.filterMap (j.written.delta t m)
  if records.isEmpty then (j, true)
  else
    let findings := j.findings ++ records.map Prod.fst
    let written := (records.map Prod.snd).foldl Written.update j.written
    match outcome with
    | .done => ({ j with findings, written, length := m.size findings }, true)
    | .failedAfter count => ({ j with findings := j.findings ++ (records.map Prod.fst).take count }, false)
    | .unmeasured => ({ j with findings, written }, false)

def shouldCompact (j : Journal) : Bool :=
  outgrown j.length j.written.superseded && decide (j.written.superseded ≥ j.compactAfter)

def writeWhole (all : List Host) : Journal :=
  let records := all.filterMap (Written.empty.delta t m)
  let findings := records.map Prod.fst
  ⟨findings, (records.map Prod.snd).foldl Written.update Written.empty, m.size findings, 0⟩

/-- Writes the findings file whole. A failure leaves it as it was, and puts off the next compaction. -/
def compact (j : Journal) (all : List Host) (fails : Bool) : Journal × Bool :=
  if fails then
    let live := j.length - j.written.superseded
    ({ j with compactAfter := j.written.superseded + max COMPACT_FLOOR live }, false)
  else (writeWhole t m all, true)

def restored (p : Process) (drops : Host → Bool) (j : Journal) : List Host :=
  (readFindings t p j.findings).filter fun host => !drops host

/-- Opens a journal again for a new sitting. -/
def resume (p : Process) (drops : Host → Bool) (j : Journal) : Journal :=
  let length := m.size j.findings
  ⟨j.findings, Written.holding t m (j.restored t p drops) length, length, 0⟩

end Calls

/-- **What a call leaves in the file and in the ledger**, as it succeeds, fails part way, or fails at the end. -/
theorem recordHosts_spec (t : Oui) (m : Marks) (j : Journal) (hosts : List Host) (outcome : Outcome) :
    ((j.recordHosts t m hosts outcome).1.findings = j.findings ++ (hosts.filterMap (j.written.delta t m)).map Prod.fst ∧
      (j.recordHosts t m hosts outcome).1.written =
        ((hosts.filterMap (j.written.delta t m)).map Prod.snd).foldl Written.update j.written) ∨
    (j.recordHosts t m hosts outcome).2 = false ∧ (∃ count, (j.recordHosts t m hosts outcome).1.findings =
        j.findings ++ ((hosts.filterMap (j.written.delta t m)).map Prod.fst).take count) ∧
      (j.recordHosts t m hosts outcome).1.written = j.written := by
  unfold recordHosts
  dsimp only
  split
  next hnone =>
    rw [List.isEmpty_iff.mp hnone]
    exact .inl ⟨(append_nil _).symm, rfl⟩
  next =>
    cases outcome with
    | done => exact .inl ⟨rfl, rfl⟩
    | failedAfter count => exact .inr ⟨rfl, ⟨count, rfl⟩, rfl⟩
    | unmeasured => exact .inl ⟨rfl, rfl⟩

theorem compactAfter_recordHosts (t : Oui) (m : Marks) (j : Journal) (hosts : List Host) (outcome : Outcome) :
    (j.recordHosts t m hosts outcome).1.compactAfter = j.compactAfter := by
  unfold recordHosts
  dsimp only
  split
  · rfl
  · cases outcome <;> rfl

/-- **A compaction that failed is not asked for again until as much again is superseded**, whatever is recorded
since. -/
theorem superseded_of_shouldCompact (t : Oui) (m : Marks) (j : Journal) (all : List Host)
    (since : List (List Host × Outcome)) {later : Journal}
    (hlater : later = since.foldl (fun j call => (j.recordHosts t m call.1 call.2).1) (j.compact t m all true).1)
    (h : later.shouldCompact = true) :
    j.written.superseded + max COMPACT_FLOOR (j.length - j.written.superseded) ≤ later.written.superseded := by
  have hafter : later.compactAfter = (j.compact t m all true).1.compactAfter := by
    rw [hlater]
    exact List.foldlRecOn (motive := fun later => later.compactAfter = (j.compact t m all true).1.compactAfter) _ _ rfl
      fun later hkept call _ => (compactAfter_recordHosts t m later _ _).trans hkept
  exact hafter.symm.le.trans (of_decide_eq_true (Bool.and_eq_true_iff.mp h).2)

/-! ## What a record leaves out -/

namespace Written

variable {t : Oui} {m : Marks} {w : Written} {host : Host}

def RemembersPort (m : Marks) (w : Written) (host : Host) (port : Port) : Prop :=
  ∃ held was, w.hosts.get? host.scopedIp.key = some held ∧ held.ports.get? port.endpoint = some was ∧
    was.digest = (m.port (.of port)).digest

def RemembersRest (t : Oui) (m : Marks) (w : Written) (host : Host) : Prop :=
  ∃ held was, w.hosts.get? host.scopedIp.key = some held ∧ held.rest = some was ∧
    was.digest = (m.host (restOf t host)).digest

theorem remembers_iff {port : Port} :
    remembers (w.hosts.get? host.scopedIp.key) port.endpoint (m.port (.of port)) = true ↔
      RemembersPort m w host port := by
  unfold remembers RemembersPort
  rw [Option.any_eq_true]
  simp only [Option.bind_eq_some_iff, beq_iff_eq]
  constructor
  · rintro ⟨was, ⟨held, hheld, hget⟩, hdigest⟩
    exact ⟨held, was, hheld, hget, hdigest⟩
  · rintro ⟨held, was, hheld, hget, hdigest⟩
    exact ⟨was, ⟨held, hheld, hget⟩, hdigest⟩

theorem rest_iff : ((w.hosts.get? host.scopedIp.key).bind HeldHost.rest).map Mark.digest =
    some (m.host (restOf t host)).digest ↔ RemembersRest t m w host := by
  rw [Option.map_eq_some_iff]
  simp only [Option.bind_eq_some_iff]
  constructor
  · rintro ⟨was, ⟨held, hheld, hrest⟩, hdigest⟩
    exact ⟨held, was, hheld, hrest, hdigest⟩
  · rintro ⟨held, was, hheld, hrest, hdigest⟩
    exact ⟨was, ⟨held, hheld, hrest⟩, hdigest⟩

theorem changed_zip (m : Marks) (held : Option HeldHost) : ∀ ports : List Port,
    changed m held (ports.zip (ports.map .of)) =
      (ports.filter fun port => !remembers held port.endpoint (m.port (.of port))).map fun port =>
        ((port.endpoint, m.port (.of port)), .of port)
  | [] => rfl
  | port :: ports => by
    have ih := changed_zip m held ports
    unfold changed at ih ⊢
    rw [map_cons, zip_cons_cons, filterMap_cons, ih]
    cases hheld : remembers held port.endpoint (m.port (.of port)) with
    | true => simp [hheld]
    | false => simp [hheld]

/-- **What a record of a host leaves out is remembered**: no record means that all of it is. -/
theorem delta_spec (t : Oui) (m : Marks) (w : Written) (host : Host) :
    (w.delta t m host = none ∧ RemembersRest t m w host ∧ ∀ port ∈ host.ports.values, RemembersPort m w host port) ∨
    ∃ kept : List Port, kept.Sublist host.ports.values ∧
      (∀ port ∈ host.ports.values, port ∈ kept ∨ RemembersPort m w host port) ∧
      w.delta t m host = some ({ HostRecord.of t host with ports := kept.map .of },
        ⟨host.scopedIp.key, m.host (restOf t host), kept.map fun port => (port.endpoint, m.port (.of port))⟩) := by
  have hsplit : ∀ port ∈ host.ports.values, port ∈ (host.ports.values.filter fun port =>
      !remembers (w.hosts.get? host.scopedIp.key) port.endpoint (m.port (.of port))) ∨ RemembersPort m w host port := by
    intro port hport
    rw [← remembers_iff]
    cases hheld : remembers (w.hosts.get? host.scopedIp.key) port.endpoint (m.port (.of port)) with
    | true => exact .inr rfl
    | false => exact .inl (mem_filter.mpr ⟨hport, by simp [hheld]⟩)
  unfold delta
  dsimp only
  rw [show (HostRecord.of t host).ports = host.ports.values.map PortRecord.of from rfl, changed_zip]
  generalize hkept : (host.ports.values.filter fun port =>
    !remembers (w.hosts.get? host.scopedIp.key) port.endpoint (m.port (.of port))) = kept at hsplit ⊢
  split
  next hnone =>
    rw [Bool.and_eq_true, List.isEmpty_iff, List.map_eq_nil_iff, beq_iff_eq, rest_iff] at hnone
    refine .inl ⟨rfl, hnone.2, fun port hport => (hsplit port hport).resolve_left ?_⟩
    rw [hnone.1]
    exact List.not_mem_nil
  next =>
    refine .inr ⟨kept, hkept ▸ List.filter_sublist, hsplit, ?_⟩
    simp only [map_map, Function.comp_def]
    rfl

theorem get?_foldl_rememberPort {endpoint : Endpoint} {mark : Mark} : ∀ {entries : List (Endpoint × Mark)}
    {s : SortedMap Endpoint Mark × ℕ}, (entries.foldl rememberPort s).1.get? endpoint = some mark →
      (endpoint, mark) ∈ entries ∨ s.1.get? endpoint = some mark
  | [], _, h => .inr h
  | entry :: entries, s, h => by
    rw [foldl_cons] at h
    rcases get?_foldl_rememberPort h with hmem | hget
    · exact .inl (mem_cons_of_mem _ hmem)
    · unfold rememberPort at hget
      rw [SortedMap.get?_insert] at hget
      split at hget
      next heq =>
        rw [heq, ← Option.some.inj hget]
        exact .inl mem_cons_self
      · exact .inr hget

theorem held_update {key : ScopedIp.Key} {held : HeldHost} {d : Delta}
    (h : (w.update d).hosts.get? key = some held) : w.hosts.get? key = some held ∨
      key = d.key ∧ held.rest = some d.rest ∧ ∀ endpoint mark, held.ports.get? endpoint = some mark →
        (endpoint, mark) ∈ d.ports ∨ ∃ was, w.hosts.get? key = some was ∧ was.ports.get? endpoint = some mark := by
  unfold update at h
  rw [SortedMap.get?_insert] at h
  split at h
  next heq =>
    refine .inr ⟨heq, ?_⟩
    obtain rfl := Option.some.inj h
    refine ⟨rfl, fun endpoint mark hget => (get?_foldl_rememberPort hget).imp_right fun hold => ?_⟩
    rw [heq]
    cases hwas : w.hosts.get? d.key with
    | none =>
      rw [hwas] at hold
      cases hold
    | some was =>
      rw [hwas] at hold
      exact ⟨was, rfl, hold⟩
  · exact .inl h

end Written

end Journal

end Zond
