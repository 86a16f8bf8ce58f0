import ZondEngine.Merge.Alone

/-!
# Which records become one host

A merge groups records by chains of shared tokens and files each fold under the address it is then reported under. Two
groups whose folds are reported under one address are folded once more, although no token joins them
(`finish_joined_iff`).
-/

namespace Zond.Merge

open List Option

open Diff (HostIdentity HashOrder SharesToken Joined Apart groups)
open DisjointSet (leaders members)

section Groups

variable (identity : HostIdentity) (records : List Host)

open Classical in
noncomputable def joinedTo (i : ℕ) : List Host :=
  ((List.range records.length).filter fun j => Joined identity records i j).filterMap (records[·]?)

noncomputable def reportedUnder (i : ℕ) : Option ScopedIp.Key :=
  (Accounts.ofList (joinedTo identity records i)).map keyOf

variable {identity records}

theorem mem_joinedTo {i : ℕ} {host : Host} :
    host ∈ joinedTo identity records i ↔ ∃ j, Joined identity records i j ∧ records[j]? = some host := by
  unfold joinedTo
  simp only [mem_filterMap, mem_filter, mem_range, decide_eq_true_eq]
  constructor
  · rintro ⟨j, ⟨_, hjoined⟩, hget⟩
    exact ⟨j, hjoined, hget⟩
  · rintro ⟨j, hjoined, hget⟩
    exact ⟨j, ⟨(List.getElem?_eq_some_iff.mp hget).1, hjoined⟩, hget⟩

theorem joinedTo_congr {i j : ℕ} (h : Joined identity records i j) :
    joinedTo identity records i = joinedTo identity records j := by
  have hsame : ∀ k, Joined identity records i k ↔ Joined identity records j k :=
    fun k => ⟨fun hik => (h.symm).trans _ _ _ hik, fun hjk => h.trans _ _ _ hjk⟩
  exact congrArg (List.filterMap _) (filter_congr fun k _ => decide_eq_decide.mpr (hsame k))

theorem exists_accounts (identity : HostIdentity) {i : ℕ} (hi : i < records.length) : ∃ accounts,
    Accounts.ofList (joinedTo identity records i) = some accounts ∧ accounts.toList = joinedTo identity records i := by
  have hmem : records[i] ∈ joinedTo identity records i :=
    mem_joinedTo.mpr ⟨i, .refl i, getElem?_eq_getElem hi⟩
  obtain ⟨older, newest, heq⟩ := eq_nil_or_concat (joinedTo identity records i) |>.resolve_left (ne_nil_of_mem hmem)
  rw [heq]
  exact ⟨⟨older, newest⟩, by simp [Accounts.ofList], by simp [Accounts.toList]⟩

theorem card_joinedTo_le (i : ℕ) : (allAddresses (joinedTo identity records i)).card ≤ (allAddresses records).card := by
  refine Finset.card_le_card fun ip hip => ?_
  obtain ⟨host, hhost, hip⟩ := mem_allAddresses.mp hip
  obtain ⟨j, _, hget⟩ := mem_joinedTo.mp hhost
  exact mem_allAddresses.mpr ⟨host, mem_of_getElem? hget, hip⟩

theorem groups_eq_joinedTo (order : HashOrder) (identity : HostIdentity) (records : List Host) : ∃ root : ℕ → ℕ,
    (∀ i j, root i = root j ↔ Joined identity records i j) ∧
      groups order records identity = (leaders root records.length).map
        (fun i => members root records.length (root i)) ∧
      ∀ i, (members root records.length (root i)).filterMap (records[·]?) = joinedTo identity records i := by
  obtain ⟨root, hroot, heq⟩ := Diff.groups_eq order records identity
  refine ⟨root, hroot, heq, fun i => ?_⟩
  refine congrArg (List.filterMap _) (filter_congr fun j _ => ?_)
  rw [decide_eq_decide, eq_comm]
  exact hroot i j

end Groups

/-! ## Where a record ends up -/

def FiledUnder (p : Process) (order : HashOrder) (identity : HostIdentity) (records : List Host)
    (hosts : SortedMap ScopedIp.Key Host) (i : ℕ) (key : ScopedIp.Key) : Prop :=
  hosts.contains key = true ∧ ∃ group ∈ groups order records identity, i ∈ group ∧
    (Accounts.ofList (group.filterMap (records[·]?))).map
      (fun accounts => (foldHost p accounts).scopedIp.key) = some key

section Filing

variable (p : Process) (order : HashOrder) {identity : HostIdentity} {records : List Host}

theorem foldGroups_eq (identity : HostIdentity) (records : List Host) : ∃ root : ℕ → ℕ,
    (∀ i j, root i = root j ↔ Joined identity records i j) ∧
      foldGroups p order identity records = (leaders root records.length).filterMap fun i =>
        (Accounts.ofList (joinedTo identity records i)).map (foldHost p) := by
  obtain ⟨root, hroot, hgroups, hmembers⟩ := groups_eq_joinedTo order identity records
  refine ⟨root, hroot, ?_⟩
  unfold foldGroups
  rw [hgroups, filterMap_map]
  exact filterMap_congr fun i _ => by rw [Function.comp_apply, hmembers i]

variable (hroom : ∀ i < records.length, (allAddresses (joinedTo identity records i)).card ≤ MAX_IPS)

include hroom

theorem key_fold_joinedTo {i : ℕ} (hi : i < records.length) :
    (Accounts.ofList (joinedTo identity records i)).map (fun accounts => (foldHost p accounts).scopedIp.key) =
      reportedUnder identity records i := by
  obtain ⟨accounts, haccounts, hlist⟩ := exists_accounts identity hi
  unfold reportedUnder
  rw [haccounts, map_some, map_some]
  exact congrArg some (key_foldHost p (hlist ▸ hroom i hi))

/-- **A record ends up under what its group is reported under.** -/
theorem filedUnder_iff {i : ℕ} (hi : i < records.length) {key : ScopedIp.Key} :
    FiledUnder p order identity records (index p (foldGroups p order identity records)) i key ↔
      reportedUnder identity records i = some key := by
  obtain ⟨root, hroot, hgroups, hmembers⟩ := groups_eq_joinedTo order identity records
  have hin : ∀ leader, i ∈ members root records.length (root leader) ↔ root i = root leader := by
    intro leader
    unfold members
    rw [mem_filter, decide_eq_true_eq]
    exact and_iff_right (mem_range.mpr hi)
  have hkey : ∀ leader, root i = root leader →
      ((Accounts.ofList ((members root records.length (root leader)).filterMap (records[·]?))).map
        fun accounts => (foldHost p accounts).scopedIp.key) = reportedUnder identity records i := by
    intro leader heq
    rw [hmembers leader, ← joinedTo_congr ((hroot i leader).mp heq)]
    exact key_fold_joinedTo p hroom hi
  constructor
  · rintro ⟨_, group, hgroup, hmem, hfold⟩
    rw [hgroups] at hgroup
    obtain ⟨leader, _, rfl⟩ := mem_map.mp hgroup
    rw [← hkey leader ((hin leader).mp hmem)]
    exact hfold
  · intro hreported
    obtain ⟨leader, hleader, heq⟩ := DisjointSet.exists_leader root hi
    have hfold := (hkey leader heq.symm).trans hreported
    have hgroup : members root records.length (root leader) ∈ groups order records identity :=
      hgroups ▸ mem_map_of_mem hleader
    refine ⟨?_, _, hgroup, (hin leader).mpr heq.symm, hfold⟩
    obtain ⟨accounts, haccounts, rfl⟩ := map_eq_some_iff.mp hfold
    refine ScanReport.contains_index p (mem_filterMap.mpr ⟨_, hgroup, ?_⟩)
    rw [haccounts, map_some]

theorem mem_values_index_foldGroups (hapart : ∀ i < records.length, ∀ j < records.length,
      reportedUnder identity records i = reportedUnder identity records j → Joined identity records i j) {host : Host} :
    host ∈ (index p (foldGroups p order identity records)).values ↔ host ∈ foldGroups p order identity records := by
  obtain ⟨root, hroot, hfolds⟩ := foldGroups_eq p order identity records
  refine ScanReport.mem_values_index p ?_
  have hbelow : ∀ leader ∈ leaders root records.length, leader < records.length :=
    fun leader hleader => mem_range.mp (mem_filter.mp hleader).1
  rw [hfolds, map_filterMap]
  refine pairwise_filterMap.mpr ((DisjointSet.pairwise_leaders root records.length).imp_of_mem ?_)
  intro i j hi hj hne key hkey key' hkey' heq
  rw [Option.map_map] at hkey hkey'
  have hi' := hbelow i hi
  have hj' := hbelow j hj
  refine hne ((hroot i j).mpr (hapart i hi' j hj' ?_))
  rw [← key_fold_joinedTo p hroom hi', ← key_fold_joinedTo p hroom hj']
  exact hkey.trans (heq ▸ hkey'.symm)

theorem mem_addresses_foldGroups {ip : Ip.IpAddr} :
    (∃ host ∈ foldGroups p order identity records, ip ∈ host.addresses) ↔ ∃ host ∈ records, ip ∈ host.addresses := by
  obtain ⟨root, hroot, hfolds⟩ := foldGroups_eq p order identity records
  have hfold : ∀ i < records.length, ∃ host, (Accounts.ofList (joinedTo identity records i)).map (foldHost p) =
      some host ∧ host.addresses = allAddresses (joinedTo identity records i) := by
    intro i hi
    obtain ⟨accounts, haccounts, hlist⟩ := exists_accounts identity hi
    refine ⟨foldHost p accounts, by rw [haccounts, map_some], ?_⟩
    rw [addresses_foldHost p (hlist ▸ hroom i hi), hlist]
  rw [hfolds]
  constructor
  · rintro ⟨host, hhost, hip⟩
    obtain ⟨leader, hleader, hsome⟩ := mem_filterMap.mp hhost
    obtain ⟨folded, hfolded, haddresses⟩ := hfold leader (mem_range.mp (mem_filter.mp hleader).1)
    obtain rfl := Option.some.inj (hsome.symm.trans hfolded)
    rw [haddresses] at hip
    obtain ⟨record, hrecord, hip⟩ := mem_allAddresses.mp hip
    obtain ⟨j, _, hget⟩ := mem_joinedTo.mp hrecord
    exact ⟨record, mem_of_getElem? hget, hip⟩
  · rintro ⟨record, hrecord, hip⟩
    obtain ⟨i, hi, rfl⟩ := mem_iff_getElem.mp hrecord
    obtain ⟨leader, hleader, heq⟩ := DisjointSet.exists_leader root hi
    obtain ⟨folded, hfolded, haddresses⟩ := hfold leader (mem_range.mp (mem_filter.mp hleader).1)
    refine ⟨folded, mem_filterMap.mpr ⟨leader, hleader, hfolded⟩, ?_⟩
    rw [haddresses]
    exact mem_allAddresses.mpr ⟨_, mem_joinedTo.mpr ⟨i, (hroot leader i).mp heq, getElem?_eq_getElem hi⟩, hip⟩

end Filing

/-- **A merge keeps every address and makes one host of the records chains of shared tokens join, and of no others,
exactly where no two groups are reported under one key.** -/
theorem finish_joined_iff (p : Process) (order : HashOrder) (options : MergeOptions) (calls : List Source)
    (hquiet : ∀ call ∈ calls, ∀ phase ∈ call.report.phases, Quiet phase)
    (hroom : ∀ i < (records (clocked p calls)).length,
      (allAddresses (joinedTo options.identity (records (clocked p calls)) i)).card ≤ MAX_IPS) :
    ((∀ ip, (∃ host ∈ ((collect options calls).finish p order).hostList, ip ∈ host.addresses) ↔
        ∃ call ∈ calls, ∃ host ∈ call.report.hostList, ip ∈ host.addresses) ∧
      ∀ i < (records (clocked p calls)).length, ∀ j < (records (clocked p calls)).length, (∃ key,
          FiledUnder p order options.identity (records (clocked p calls))
            ((collect options calls).finish p order).hosts i key ∧
          FiledUnder p order options.identity (records (clocked p calls))
            ((collect options calls).finish p order).hosts j key) ↔
          Joined options.identity (records (clocked p calls)) i j) ↔
      ∀ i < (records (clocked p calls)).length, ∀ j < (records (clocked p calls)).length,
        reportedUnder options.identity (records (clocked p calls)) i =
          reportedUnder options.identity (records (clocked p calls)) j →
        Joined options.identity (records (clocked p calls)) i j := by
  have hhosts : ((collect options calls).finish p order).hosts =
      index p (foldGroups p order options.identity (records (clocked p calls))) := by
    rw [collect_eq]
    exact hosts_finish p order ⟨options, calls⟩ hquiet
  have hsources : ∀ ip, (∃ call ∈ calls, ∃ host ∈ call.report.hostList, ip ∈ host.addresses) ↔
      ∃ host ∈ records (clocked p calls), ip ∈ host.addresses := by
    intro ip
    simp only [(records_perm p calls).mem_iff, mem_flatMap]
    constructor
    · rintro ⟨call, hcall, host, hhost, hip⟩
      exact ⟨host, ⟨call, hcall, hhost⟩, hip⟩
    · rintro ⟨host, ⟨call, hcall, hhost⟩, hip⟩
      exact ⟨call, hcall, host, hhost, hip⟩
  unfold ScanReport.hostList at hsources ⊢
  simp only [hhosts, hsources]
  generalize records (clocked p calls) = found at hroom ⊢
  constructor
  · rintro ⟨_, htogether⟩ i hi j hj hsame
    obtain ⟨accounts, haccounts, _⟩ := exists_accounts options.identity hi
    have hkey : reportedUnder options.identity found i = some (keyOf accounts) := by
      unfold reportedUnder
      rw [haccounts, map_some]
    refine (htogether i hi j hj).mp ⟨keyOf accounts, ?_, ?_⟩
    · exact (filedUnder_iff p order hroom hi).mpr hkey
    · exact (filedUnder_iff p order hroom hj).mpr (hsame ▸ hkey)
  · intro hapart
    refine ⟨fun ip => ?_, fun i hi j hj => ⟨?_, fun hjoined => ?_⟩⟩
    · simp only [mem_values_index_foldGroups p order hroom hapart]
      exact mem_addresses_foldGroups p order hroom
    · rintro ⟨key, hfiled, hfiled'⟩
      refine hapart i hi j hj ?_
      rw [(filedUnder_iff p order hroom hi).mp hfiled, (filedUnder_iff p order hroom hj).mp hfiled']
    · obtain ⟨accounts, haccounts, _⟩ := exists_accounts options.identity hi
      have hkey : reportedUnder options.identity found i = some (keyOf accounts) := by
        unfold reportedUnder
        rw [haccounts, map_some]
      have hkey' : reportedUnder options.identity found j = some (keyOf accounts) := by
        rw [← hkey]
        unfold reportedUnder
        rw [joinedTo_congr hjoined]
      exact ⟨_, (filedUnder_iff p order hroom hi).mpr hkey, (filedUnder_iff p order hroom hj).mpr hkey'⟩

def scannedTwice : List Source := [⟨none, scanAt 1 7⟩, ⟨none, scanAt 2 7⟩]

theorem finish_joined_scannedTwice :
    (∀ ip, (∃ host ∈ ((collect ⟨.anyAddress⟩ scannedTwice).finish ⟨3, 0, []⟩ .asBuilt).hostList,
        ip ∈ host.addresses) ↔ ∃ call ∈ scannedTwice, ∃ host ∈ call.report.hostList, ip ∈ host.addresses) ∧
      ∀ i < (records (clocked ⟨3, 0, []⟩ scannedTwice)).length,
        ∀ j < (records (clocked ⟨3, 0, []⟩ scannedTwice)).length, (∃ key,
          FiledUnder ⟨3, 0, []⟩ .asBuilt .anyAddress (records (clocked ⟨3, 0, []⟩ scannedTwice))
            ((collect ⟨.anyAddress⟩ scannedTwice).finish ⟨3, 0, []⟩ .asBuilt).hosts i key ∧
          FiledUnder ⟨3, 0, []⟩ .asBuilt .anyAddress (records (clocked ⟨3, 0, []⟩ scannedTwice))
            ((collect ⟨.anyAddress⟩ scannedTwice).finish ⟨3, 0, []⟩ .asBuilt).hosts j key) ↔
          Joined .anyAddress (records (clocked ⟨3, 0, []⟩ scannedTwice)) i j := by
  have htoken : ∀ host ∈ records (clocked ⟨3, 0, []⟩ scannedTwice),
      Diff.Token.address (.v4 7) none ∈ Diff.tokens host .anyAddress := by decide +kernel
  have hfew : (allAddresses (records (clocked ⟨3, 0, []⟩ scannedTwice))).card ≤ MAX_IPS := by decide +kernel
  refine (finish_joined_iff ⟨3, 0, []⟩ .asBuilt ⟨.anyAddress⟩ scannedTwice ?_ ?_).mpr ?_
  · unfold Quiet
    decide +kernel
  · exact fun i _ => (card_joinedTo_le i).trans hfew
  · intro i hi j hj _
    refine .rel _ _ ⟨_, _, getElem?_eq_getElem hi, getElem?_eq_getElem hj, ?_⟩
    exact ⟨_, htoken _ (getElem_mem hi), htoken _ (getElem_mem hj)⟩

def onLink (started : SystemTime) (name : Text) : ScanReport :=
  .fromPhases ⟨started, 0, []⟩ []
    [((Host.new ⟨started, 0, []⟩ (.v4 0xa9fe0101)).setZone ⟨started, 0, []⟩ ⟨none, name, Ip.unzoned_ne_zero⟩).setStatus
      ⟨started, 0, []⟩ .up]

def twoLinks : List Source := [⟨none, onLink 1 ['a']⟩, ⟨none, onLink 2 ['b']⟩]

theorem finish_joined_twoLinks : (∀ call ∈ twoLinks, ∀ phase ∈ call.report.phases, Quiet phase) ∧
    (∀ i < (records (clocked ⟨3, 0, []⟩ twoLinks)).length,
      (allAddresses (joinedTo .anyAddress (records (clocked ⟨3, 0, []⟩ twoLinks)) i)).card ≤ MAX_IPS) ∧
    ¬∀ i < (records (clocked ⟨3, 0, []⟩ twoLinks)).length, ∀ j < (records (clocked ⟨3, 0, []⟩ twoLinks)).length, (∃ key,
        FiledUnder ⟨3, 0, []⟩ .asBuilt .anyAddress (records (clocked ⟨3, 0, []⟩ twoLinks))
          ((collect ⟨.anyAddress⟩ twoLinks).finish ⟨3, 0, []⟩ .asBuilt).hosts i key ∧
        FiledUnder ⟨3, 0, []⟩ .asBuilt .anyAddress (records (clocked ⟨3, 0, []⟩ twoLinks))
          ((collect ⟨.anyAddress⟩ twoLinks).finish ⟨3, 0, []⟩ .asBuilt).hosts j key) ↔
        Joined .anyAddress (records (clocked ⟨3, 0, []⟩ twoLinks)) i j := by
  have hfew : (allAddresses (records (clocked ⟨3, 0, []⟩ twoLinks))).card ≤ MAX_IPS := by decide +kernel
  have hapart : Apart .anyAddress (records (clocked ⟨3, 0, []⟩ twoLinks)) := by
    unfold Apart
    decide +kernel
  refine ⟨by unfold Quiet; decide +kernel, fun i _ => (card_joinedTo_le i).trans hfew, fun htogether => ?_⟩
  have hfiled : ∀ i ∈ [0, 1], FiledUnder ⟨3, 0, []⟩ .asBuilt .anyAddress (records (clocked ⟨3, 0, []⟩ twoLinks))
      ((collect ⟨.anyAddress⟩ twoLinks).finish ⟨3, 0, []⟩ .asBuilt).hosts i (reportKey (.v4 0xa9fe0101) none) := by
    unfold FiledUnder
    decide +kernel
  have hjoined := (htogether 0 (by decide +kernel) 1 (by decide +kernel)).mp
    ⟨_, hfiled 0 (by decide), hfiled 1 (by decide)⟩
  exact absurd (hapart.eq_of_joined hjoined) (by decide)

end Zond.Merge
