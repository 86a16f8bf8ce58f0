import ZondEngine.Diff.Pairing
import ZondEngine.Merge.Fold

/-!
# Merging reports

`Merge` of `merge.rs`: reports are folded in the order of their clocks, the records of one machine grouped by the tokens
they share. `finish_perm`: where no two sources share a clock, the order they were added in does not decide the report.
-/

namespace Zond

open List

open Diff (HostIdentity HashOrder groups)

/-! ## The merge -/

structure MergeOptions where
  identity : HostIdentity

structure Source where
  label : Option Text
  report : ScanReport

structure Merge where
  options : MergeOptions
  sources : List Source

namespace Merge

variable (options : MergeOptions)

def new : Merge := ⟨options, []⟩

def add (m : Merge) (report : ScanReport) : Merge := { m with sources := m.sources ++ [⟨none, report⟩] }

def addFrom (m : Merge) (label : Text) (report : ScanReport) : Merge :=
  { m with sources := m.sources ++ [⟨some label, report⟩] }

def observedAt (record : Host) (stopped : SystemTime) : SystemTime := min record.lastSeen stopped

def sortByMoment {α : Type} (moment : α → SystemTime) (elements : List α) : List α :=
  elements.insertionSort fun a b => moment a ≤ moment b

variable (p : Process)

def clocked (sources : List Source) : List (SystemTime × Source) :=
  sortByMoment Prod.fst (sources.map fun source => (source.report.observedAt p, source))

def records (sources : List (SystemTime × Source)) : List Host :=
  (sortByMoment Prod.fst (sources.flatMap fun entry =>
    entry.2.report.hostList.map fun record => (observedAt record entry.1, record))).map Prod.snd

variable (order : HashOrder)

def foldGroups (identity : HostIdentity) (records : List Host) : List Host :=
  (groups order records identity).filterMap fun group =>
    (Accounts.ofList (group.filterMap (records[·]?))).map (foldHost p)

def attributed (source : Source) : List ScanPhase :=
  source.report.phases.map fun phase =>
    if phase.origin.isNone then phase.attributeTo ⟨source.label, source.report.engineVersion⟩ else phase

def assemble (options : MergeOptions) (sources : List (SystemTime × Source)) : ScanReport :=
  let hosts := foldGroups p order options.identity (records sources)
  let phases := sortByMoment ScanPhase.startedAt (sources.flatMap fun entry => attributed entry.2)
  match sources.getLast? with
  | some (_, newest) => .recorded p newest.report.engineVersion phases hosts
  | none => .fromPhases p [] []

/-- The one report all sources make. -/
def finish (m : Merge) : ScanReport :=
  assemble p order m.options (clocked p m.sources)

/-! ## The order of the sources -/

def collect (calls : List Source) : Merge :=
  calls.foldl
    (fun m call =>
      match call.label with
      | none => m.add call.report
      | some label => m.addFrom label call.report)
    (new options)

theorem collect_eq (calls : List Source) : collect options calls = ⟨options, calls⟩ := by
  have hrun : ∀ (rest : List Source) (m : Merge), rest.foldl
      (fun m call =>
        match call.label with
        | none => m.add call.report
        | some label => m.addFrom label call.report) m = ⟨m.options, m.sources ++ rest⟩ := by
    intro rest
    induction rest with
    | nil =>
      intro m
      rw [append_nil]
      rfl
    | cons call rest ih =>
      intro m
      rw [foldl_cons, ih]
      obtain ⟨label, report⟩ := call
      cases label with
      | none => simp [add]
      | some label => simp [addFrom]
  exact hrun calls (new options)

theorem sortByMoment_perm {α : Type} {moment : α → SystemTime} {l l' : List α} (hperm : l.Perm l')
    (hmoments : (l.map moment).Nodup) : sortByMoment moment l = sortByMoment moment l' := by
  have htrans : IsTrans α fun a b : α => moment a ≤ moment b := ⟨fun _ _ _ => le_trans⟩
  have hsorted := pairwise_insertionSort fun a b : α => moment a ≤ moment b
  have hsort := perm_insertionSort fun a b : α => moment a ≤ moment b
  refine List.Perm.eq_of_pairwise ?_ (hsorted l) (hsorted l') ((hsort l).trans (hperm.trans (hsort l').symm))
  intro a b ha hb hab hba
  have hain := (mem_insertionSort _).mp ha
  have hbin := hperm.mem_iff.mpr ((mem_insertionSort _).mp hb)
  exact inj_on_of_nodup_map hmoments hain hbin (le_antisymm hab hba)

theorem clocked_perm {p : Process} {sources sources' : List Source} (hperm : sources.Perm sources')
    (hclocks : (sources.map fun source => source.report.observedAt p).Nodup) :
    clocked p sources = clocked p sources' := by
  refine sortByMoment_perm (hperm.map _) ?_
  rw [map_map]
  exact hclocks

/-- **The order sources are added in does not decide the report**, and neither does that of any
hash set, as long as no two sources have one clock. -/
theorem finish_perm {p : Process} (order order' : HashOrder) (options : MergeOptions) {calls calls' : List Source}
    (hperm : calls.Perm calls') (hclocks : (calls.map fun call => call.report.observedAt p).Nodup) :
    (collect options calls).finish p order = (collect options calls').finish p order' := by
  rw [collect_eq, collect_eq]
  unfold finish assemble foldGroups
  rw [clocked_perm hperm hclocks, Diff.groups_hashOrder order order']

def scanAt (started : SystemTime) (ip : Fin (2 ^ 32)) : ScanReport :=
  .fromPhases ⟨started, 0, []⟩
    [⟨.discovery, started, 0, ⟨[.v4 (.single ip)], [], .noPorts, []⟩, [], [], [], none, false⟩]
    [(Host.new ⟨started, 0, []⟩ (.v4 ip)).setStatus ⟨started, 0, []⟩ .up]

theorem finish_perm_two_scans :
    (collect ⟨.anyAddress⟩ [⟨none, scanAt 1 7⟩, ⟨some ['a'], scanAt 2 7⟩]).finish ⟨3, 0, []⟩ .asBuilt =
      (collect ⟨.anyAddress⟩ [⟨some ['a'], scanAt 2 7⟩, ⟨none, scanAt 1 7⟩]).finish ⟨3, 0, []⟩ .asBuilt :=
  finish_perm .asBuilt .asBuilt ⟨.anyAddress⟩ (List.Perm.swap _ _ _) (by decide +kernel)

end Merge

end Zond
