import ZondEngine.Record.Host

/-!
# Hardware, written and read back

`model/host/hardware.rs`, and what `HardwareRecord` of `record.rs` keeps of it. The vendor is not written where one of
the addresses names it: the reader looks it up again.

* `survives_iff`: an account is read back as it was written exactly when its vendor is `Recoverable`.
-/

namespace Zond

open List hiding merge

open SortedMap

namespace HardwareInfo

inductive Obtained (t : Oui) : HardwareInfo → Prop
  | new (p : Process) (mac : MacAddr) : Obtained t (.new t p mac)
  | described {d : HardwareDescription} {h : HardwareInfo} : described d = some h → Obtained t h
  | addMac {h : HardwareInfo} (p : Process) (mac : MacAddr) : Obtained t h → Obtained t (h.addMac t p mac)
  | recordMacSeenAt {h : HardwareInfo} (mac : MacAddr) (seen : SystemTime) :
      Obtained t h → Obtained t (h.recordMacSeenAt t mac seen)
  | pruneStaleMacs {h : HardwareInfo} (cutoff : SystemTime) : Obtained t h → Obtained t (h.pruneStaleMacs cutoff)
  | merge {h other : HardwareInfo} : Obtained t h → Obtained t other → Obtained t (h.merge other)

/-! ## What every account keeps to -/

theorem oldest_mem {entries : List (MacAddr × SystemTime)} {entry : MacAddr × SystemTime}
    (h : oldest entries = some entry) : entry ∈ entries := by
  cases entries with
  | nil => cases h
  | cons first rest =>
    rw [oldest, Option.some.injEq] at h
    subst h
    refine List.foldlRecOn (motive := fun held => held ∈ first :: rest) rest _ mem_cons_self ?_
    intro held hheld next hnext
    split
    · exact mem_cons_of_mem _ hnext
    · exact hheld

theorem mem_dropOldest {entry : MacAddr × SystemTime} : ∀ {excess : Nat} {macs : SortedMap MacAddr SystemTime},
    entry ∈ (dropOldest excess macs).entries → entry ∈ macs.entries
  | 0, _, h => h
  | excess + 1, macs, h => by
    rw [dropOldest] at h
    split at h
    · exact (mem_filter.mp (mem_dropOldest h)).1
    · exact h

theorem len_dropOldest : ∀ (excess : Nat) (macs : SortedMap MacAddr SystemTime),
    (dropOldest excess macs).len ≤ macs.len - excess
  | 0, _ => Nat.le_refl _
  | excess + 1, macs => by
    rw [dropOldest]
    split
    next entry hentry =>
      have hheld : macs.contains entry.1 = true :=
        contains_iff.mpr (mem_map_of_mem (oldest_mem hentry))
      have hlen := len_erase hheld
      have hrest := len_dropOldest excess (macs.erase entry.1)
      omega
    next hnone =>
      have hnil : macs.entries = [] := by
        cases hcase : macs.entries with
        | nil => rfl
        | cons first rest => rw [hcase] at hnone; cases hnone
      simp [SortedMap.len, hnil]

theorem len_evict_le (macs : SortedMap MacAddr SystemTime) :
    (evictOldestPastTheBound macs).len ≤ MAX_MACS_PER_HOST := by
  have hlen := len_dropOldest (macs.len - MAX_MACS_PER_HOST) macs
  unfold evictOldestPastTheBound
  omega

theorem evict_of_len_le {macs : SortedMap MacAddr SystemTime} (h : macs.len ≤ MAX_MACS_PER_HOST) :
    evictOldestPastTheBound macs = macs := by
  rw [evictOldestPastTheBound, Nat.sub_eq_zero_of_le h, dropOldest]

structure Sound (t : Oui) (h : HardwareInfo) : Prop where
  bounded : h.macs.len ≤ MAX_MACS_PER_HOST
  unnamed : h.vendor = none → ∀ mac ∈ h.macs.keys, t.vendor mac = none

theorem mem_keys_evict {macs : SortedMap MacAddr SystemTime} {mac : MacAddr}
    (h : mac ∈ (evictOldestPastTheBound macs).keys) : mac ∈ macs.keys := by
  obtain ⟨entry, hentry, rfl⟩ := mem_map.mp h
  exact mem_map_of_mem (mem_dropOldest hentry)

namespace Sound

variable {t : Oui} {h other : HardwareInfo}

theorem new (t : Oui) (p : Process) (mac : MacAddr) : Sound t (.new t p mac) where
  bounded := show 1 ≤ MAX_MACS_PER_HOST by decide
  unnamed hvendor other hother := by
    obtain rfl : other = mac := mem_singleton.mp hother
    exact hvendor

theorem described {d : HardwareDescription} (hd : HardwareInfo.described d = some h) : Sound t h := by
  unfold HardwareInfo.described at hd
  dsimp only at hd
  split at hd
  · cases hd
    exact ⟨Nat.zero_le _, fun _ _ hmac => absurd hmac not_mem_nil⟩
  · cases hd

theorem recordMacSeenAt (hs : Sound t h) (mac : MacAddr) (seen : SystemTime) :
    Sound t (h.recordMacSeenAt t mac seen) := by
  unfold HardwareInfo.recordMacSeenAt
  split
  next hheld =>
    refine ⟨?_, fun hvendor other hother => hs.unnamed hvendor other ?_⟩
    · show (h.macs.insert mac seen).len ≤ _
      rw [len_insert, ← SortedMap.contains, if_pos hheld]
      exact hs.bounded
    · rcases mem_keys_insert.mp hother with rfl | hother
      · exact contains_iff.mp hheld
      · exact hother
  next hnew =>
    refine ⟨len_evict_le _, fun hvendor other hother => ?_⟩
    obtain ⟨hnone, hmac⟩ := Option.or_eq_none_iff.mp hvendor
    rcases mem_keys_insert.mp (mem_keys_evict hother) with rfl | hother
    · exact hmac
    · exact hs.unnamed hnone other hother

theorem pruneStaleMacs (hs : Sound t h) (cutoff : SystemTime) : Sound t (h.pruneStaleMacs cutoff) := by
  refine ⟨(len_retain_le _ _).trans hs.bounded, fun hvendor mac hmac => hs.unnamed hvendor mac ?_⟩
  obtain ⟨entry, hentry, rfl⟩ := mem_map.mp hmac
  exact mem_map_of_mem (mem_filter.mp hentry).1

theorem merge (hs : Sound t h) (ho : Sound t other) : Sound t (h.merge other) := by
  refine ⟨len_evict_le _, fun hvendor mac hmac => ?_⟩
  have hboth : h.vendor = none ∧ other.vendor = none := by
    unfold HardwareInfo.merge at hvendor
    split at hvendor
    · exact (Option.or_eq_none_iff.mp hvendor).symm
    next hkept => exact absurd (.inl (by rw [hvendor]; rfl)) hkept
  -- an address of the union is one of either's
  have hunion : mac ∈ h.macs.keys ∨ mac ∈ other.macs.keys := by
    refine List.foldlRecOn
      (motive := fun held : SortedMap _ _ => mac ∈ held.keys → mac ∈ h.macs.keys ∨ mac ∈ other.macs.keys)
      other.macs.entries _ .inl ?_ (mem_keys_evict hmac)
    intro held hheld entry hentry hmem
    rcases mem_keys_insert.mp hmem with rfl | hmem
    · exact .inr (mem_map_of_mem hentry)
    · exact hheld hmem
  exact hunion.elim (hs.unnamed hboth.1 mac) (ho.unnamed hboth.2 mac)

end Sound

theorem Obtained.sound {t : Oui} {h : HardwareInfo} (ho : Obtained t h) : Sound t h := by
  induction ho with
  | new p mac => exact .new t p mac
  | described hd => exact .described hd
  | addMac p mac _ ih => exact ih.recordMacSeenAt mac p.now
  | recordMacSeenAt mac seen _ ih => exact ih.recordMacSeenAt mac seen
  | pruneStaleMacs cutoff _ ih => exact ih.pruneStaleMacs cutoff
  | merge _ _ ih iho => exact ih.merge iho

/-! ## What is written -/

def Derivable (t : Oui) (h : HardwareInfo) : Prop :=
  ∃ mac ∈ h.macs.keys, ∃ vendor, h.vendor = some vendor ∧ t.vendor mac = some vendor

def Recoverable (t : Oui) (h : HardwareInfo) : Prop :=
  Derivable t h ∨ h.namesMoreThanAVendor = true ∨ ∀ mac ∈ h.macs.keys, t.vendor mac = none

end HardwareInfo

namespace HardwareRecord

open HardwareInfo

def readSighting (entry : Text × SystemTime) : Option (MacAddr × SystemTime) :=
  (MacAddr.parse entry.1).map fun mac => (mac, entry.2)

def sightings (record : HardwareRecord) : List (MacAddr × SystemTime) :=
  record.macs.filterMap readSighting

theorem swapFirst_spec {macs : List (Text × SystemTime)} {source : Nat} {entry : Text × SystemTime}
    (h : macs[source]? = some entry) : ∃ rest, swapFirst macs source = entry :: rest ∧ (entry :: rest).Perm macs := by
  cases macs with
  | nil => cases h
  | cons first rest =>
    cases source with
    | zero =>
      obtain rfl : first = entry := Option.some.inj h
      exact ⟨rest, by simp [swapFirst], .refl _⟩
    | succ source =>
      have hget : rest[source]? = some entry := h
      obtain ⟨hlt, rfl⟩ := List.getElem?_eq_some_iff.mp hget
      refine ⟨rest.set source first, by simp [swapFirst, hget], ?_⟩
      refine ((set_perm_cons_eraseIdx hlt first).cons _).trans ((List.Perm.swap _ _ _).trans ?_)
      exact (getElem_cons_eraseIdx_perm hlt).cons first

variable (t : Oui) (h : HardwareInfo)

def written (entry : MacAddr × SystemTime) : Text × SystemTime := (entry.1.display, entry.2)

theorem isOf_written {vendor : Text} {entry : MacAddr × SystemTime} :
    isOf t vendor (written entry) = true ↔ t.vendor entry.1 = some vendor := by
  simp [isOf, written, MacAddr.parse_display, Option.any_eq_true]

theorem read_written (entry : MacAddr × SystemTime) : readSighting (written entry) = some entry := by
  simp [readSighting, written, MacAddr.parse_display]

theorem sightings_written (entries : List (MacAddr × SystemTime)) :
    (entries.map written).filterMap readSighting = entries := by
  simp [filterMap_map, read_written]

theorem swapFirst_source {entries : List (MacAddr × SystemTime)} {vendor : Text} {source : Nat}
    (hsource : (entries.map written).findIdx? (isOf t vendor) = some source) :
    ∃ first rest, t.vendor first.1 = some vendor ∧
      swapFirst (entries.map written) source = written first :: rest ∧
      (written first :: rest).Perm (entries.map written) := by
  obtain ⟨hlt, hof, -⟩ := List.findIdx?_eq_some_iff_getElem.mp hsource
  obtain ⟨rest, hswap, hperm⟩ := swapFirst_spec (List.getElem?_eq_getElem hlt)
  rw [getElem_map] at hof hswap hperm
  exact ⟨_, rest, (isOf_written t).mp hof, hswap, hperm⟩

theorem of_cases : (∃ vendor first rest, h.vendor = some vendor ∧ t.vendor first.1 = some vendor ∧
      (of t h).sightings = first :: rest ∧ (first :: rest).Perm h.macs.entries ∧
      (of t h).vendor = none) ∨
    (¬ Derivable t h ∧ (of t h).sightings = h.macs.entries ∧
      (of t h).vendor = h.vendor) := by
  have hheld : (of t h).macs =
      (h.vendor.bind fun vendor => (h.macs.entries.map written).findIdx? (isOf t vendor)).elim
        (h.macs.entries.map written) (swapFirst (h.macs.entries.map written)) := rfl
  have hvendor : (of t h).vendor =
      if h.vendor.any fun vendor => (of t h).macs.any (isOf t vendor) then none
      else h.vendor := rfl
  cases hv : h.vendor with
  | none =>
    rw [hv] at hheld hvendor
    refine .inr ⟨fun ⟨_, _, _, hsome, _⟩ => ?_, ?_, hvendor⟩
    · rw [hv] at hsome
      cases hsome
    · rw [sightings, hheld]
      exact sightings_written _
  | some vendor =>
    rw [hv] at hheld hvendor
    rw [Option.bind_some] at hheld
    cases hsource : (h.macs.entries.map written).findIdx? (isOf t vendor) with
    | none =>
      rw [hsource] at hheld
      have hnone : ∀ entry ∈ h.macs.entries, ¬ t.vendor entry.1 = some vendor := by
        intro entry hentry hof
        have := List.findIdx?_eq_none_iff.mp hsource _ (mem_map_of_mem hentry)
        rw [(isOf_written t).mpr hof] at this
        cases this
      refine .inr ⟨?_, ?_, ?_⟩
      · rintro ⟨mac, hmac, other, hother, hof⟩
        obtain ⟨entry, hentry, rfl⟩ := mem_map.mp hmac
        rw [hv] at hother
        exact hnone entry hentry (hother ▸ hof)
      · rw [sightings, hheld]
        exact sightings_written _
      · rw [hvendor, hheld, if_neg]
        simpa [isOf_written] using fun mac seen => hnone (mac, seen)
    | some source =>
      rw [hsource] at hheld
      obtain ⟨first, rest, hof, hswap, hperm⟩ := swapFirst_source t hsource
      rw [Option.elim_some, hswap] at hheld
      have hread := hperm.filterMap readSighting
      rw [sightings_written, filterMap_cons_some (read_written first)] at hread
      refine .inl ⟨vendor, first, _, rfl, hof, ?_, hread, ?_⟩
      · rw [sightings, hheld]
        exact filterMap_cons_some (read_written first)
      · rw [hvendor, hheld, if_pos]
        simp [(isOf_written t).mpr hof]

/-! ## What is read back -/

theorem foldl_recordMacSeenAt (t : Oui) : ∀ {entries : List (MacAddr × SystemTime)} {held : HardwareInfo},
    (entries.map Prod.fst).Nodup → (∀ mac ∈ entries.map Prod.fst, mac ∉ held.macs.keys) →
    held.macs.len + entries.length ≤ MAX_MACS_PER_HOST →
    entries.foldl (fun held entry => held.recordMacSeenAt t entry.1 entry.2) held =
      { held with
        macs := entries.foldl (fun macs entry => macs.insert entry.1 entry.2) held.macs
        vendor := held.vendor.or (entries.findSome? fun entry => t.vendor entry.1) }
  | [], held, _, _, _ => by simp
  | entry :: rest, held, hnodup, hnew, hroom => by
    rw [map_cons, nodup_cons] at hnodup
    have hget : held.macs.get? entry.1 = none := get?_eq_none_iff.mpr (hnew entry.1 (by simp))
    have hlen : (held.macs.insert entry.1 entry.2).len = held.macs.len + 1 := by rw [len_insert, hget]; rfl
    rw [length_cons] at hroom
    have hstep : held.recordMacSeenAt t entry.1 entry.2 =
        { held with macs := held.macs.insert entry.1 entry.2, vendor := held.vendor.or (t.vendor entry.1) } := by
      rw [recordMacSeenAt, if_neg (by simp [SortedMap.contains, hget]), evict_of_len_le (by omega)]
    rw [foldl_cons, hstep, foldl_recordMacSeenAt t hnodup.2 ?_ ?_, List.findSome?_cons]
    · cases held.vendor <;> cases t.vendor entry.1 <;> rfl
    · intro mac hmac hheld
      rcases mem_keys_insert.mp hheld with rfl | hheld
      · exact hnodup.1 hmac
      · exact hnew mac (mem_cons_of_mem _ hmac) hheld
    · show (held.macs.insert entry.1 entry.2).len + rest.length ≤ MAX_MACS_PER_HOST
      omega

theorem replay_eq (t : Oui) (p : Process) {first : MacAddr × SystemTime} {rest : List (MacAddr × SystemTime)}
    {macs : SortedMap MacAddr SystemTime} (hperm : (first :: rest).Perm macs.entries)
    (hlen : macs.len ≤ MAX_MACS_PER_HOST) :
    (first :: rest).foldl (fun held entry => held.recordMacSeenAt t entry.1 entry.2) (HardwareInfo.new t p first.1) =
      ⟨macs, (first :: rest).findSome? fun entry => t.vendor entry.1, none, none, none, none, none, none⟩ := by
  have hnodup : ((first :: rest).map Prod.fst).Nodup := (hperm.map Prod.fst).nodup_iff.mpr macs.nodup_keys
  have hlength : rest.length + 1 = macs.len := hperm.length_eq
  rw [map_cons, nodup_cons] at hnodup
  -- the clock's reading of the first address makes way for the recorded one
  have hstart : (HardwareInfo.new t p first.1).recordMacSeenAt t first.1 first.2 =
      ⟨SortedMap.empty.insert first.1 first.2, t.vendor first.1, none, none, none, none, none, none⟩ := by
    have hagain : (SortedMap.empty.insert first.1 p.now).insert first.1 first.2 =
        SortedMap.empty.insert first.1 first.2 :=
      eq_of_get? fun key => by
        simp only [get?_insert]
        split <;> rfl
    have hheld : (HardwareInfo.new t p first.1).macs.contains first.1 = true := by
      simp [HardwareInfo.new, SortedMap.contains, get?_insert]
    rw [recordMacSeenAt, if_pos hheld]
    simp only [HardwareInfo.new, hagain]
  rw [foldl_cons, hstart, foldl_recordMacSeenAt t hnodup.2 ?_ ?_, List.findSome?_cons]
  · have hmacs := ofList_of_perm hperm
    rw [SortedMap.ofList, foldl_cons] at hmacs
    simp only [hmacs]
    cases t.vendor first.1 <;> rfl
  · intro mac hmac hheld
    obtain rfl := mem_singleton.mp hheld
    exact hnodup.1 hmac
  · show 1 + rest.length ≤ MAX_MACS_PER_HOST
    omega

/-- The vendor a record settles on, where the addresses name `found`. -/
def settledVendor (record : HardwareRecord) (found : Option Text) : Option Text :=
  if found.isNone ∨ record.vendor.isSome ∧
      (record.product.isSome || record.family.isSome || record.cpe23.isSome || record.model.isSome) then
    record.vendor.or found
  else found

theorem describe_eq (record : HardwareRecord) {macs : SortedMap MacAddr SystemTime} (found : Option Text)
    (hlen : macs.len ≤ MAX_MACS_PER_HOST) : record.described.elim ⟨macs, found, none, none, none, none, none, none⟩
        (merge ⟨macs, found, none, none, none, none, none, none⟩) = ⟨macs, record.settledVendor found,
      record.product, record.family, record.cpe23, record.model, record.version, record.serialNumber⟩ := by
  obtain ⟨_, vendor, product, family, cpe23, model, version, serialNumber⟩ := record
  unfold described HardwareInfo.described namesSomething settledVendor
  dsimp only
  split
  · simp [merge, namesMoreThanAVendor, SortedMap.empty, evict_of_len_le hlen]
  next hnothing =>
    simp only [Bool.or_eq_true, not_or, Bool.not_eq_true, Option.isSome_eq_false_iff, Option.isNone_iff_eq_none]
      at hnothing
    obtain ⟨⟨⟨⟨⟨⟨rfl, rfl⟩, rfl⟩, rfl⟩, rfl⟩, rfl⟩, rfl⟩ := hnothing
    simp

theorem rebuild_of_sightings (t : Oui) (p : Process) {record : HardwareRecord} {first : MacAddr × SystemTime}
    {rest : List (MacAddr × SystemTime)} {macs : SortedMap MacAddr SystemTime}
    (hsightings : record.sightings = first :: rest) (hperm : (first :: rest).Perm macs.entries)
    (hlen : macs.len ≤ MAX_MACS_PER_HOST) :
    record.rebuild t p = some ⟨macs, record.settledVendor ((first :: rest).findSome? fun entry => t.vendor entry.1),
      record.product, record.family, record.cpe23, record.model, record.version, record.serialNumber⟩ := by
  unfold rebuild
  rw [show (record.macs.filterMap fun entry => (MacAddr.parse entry.1).map fun mac => (mac, entry.2)) =
    first :: rest from
    hsightings]
  dsimp only
  rw [replay_eq t p hperm hlen, describe_eq record _ hlen]

theorem rebuild_of_no_sightings (t : Oui) (p : Process) {record : HardwareRecord}
    (hsightings : record.sightings = []) : record.rebuild t p = record.described := by
  unfold rebuild
  rw [show (record.macs.filterMap fun entry => (MacAddr.parse entry.1).map fun mac => (mac, entry.2)) =
    [] from hsightings]

theorem settledVendor_eq_iff {t : Oui} {h : HardwareInfo} (hsound : Sound t h) (hnot : ¬ Derivable t h)
    (hrecord : (of t h).vendor = h.vendor) :
    (of t h).settledVendor (h.macs.entries.findSome? fun entry => t.vendor entry.1) = h.vendor ↔ Recoverable t h := by
  have hsettled (found : Option Text) : (of t h).settledVendor found =
      if found.isNone ∨ h.vendor.isSome ∧ h.namesMoreThanAVendor then h.vendor.or found else found := by
    rw [settledVendor, hrecord]
    rfl
  rw [hsettled]
  cases hfound : h.macs.entries.findSome? fun entry => t.vendor entry.1 with
  | none =>
    refine iff_of_true (by simp) (.inr (.inr fun mac hmac => ?_))
    obtain ⟨entry, hentry, rfl⟩ := mem_map.mp hmac
    exact List.findSome?_eq_none_iff.mp hfound entry hentry
  | some other =>
    obtain ⟨entry, hentry, hother⟩ := exists_of_findSome?_eq_some hfound
    have hmac : entry.1 ∈ h.macs.keys := mem_map_of_mem hentry
    cases hv : h.vendor with
    | none => exact absurd (hsound.unnamed hv entry.1 hmac) (by simp [hother])
    | some vendor =>
      -- the addresses name another vendor, which only a description of the box displaces
      have hne : other ≠ vendor := fun heq => hnot ⟨entry.1, hmac, vendor, hv, heq ▸ hother⟩
      cases hbox : h.namesMoreThanAVendor with
      | true => exact iff_of_true (by simp) (.inr (.inl hbox))
      | false =>
        refine iff_of_false (by simpa using hne) ?_
        rintro (hderivable | hmore | hnone)
        · exact hnot hderivable
        · simp [hbox] at hmore
        · simp [hnone entry.1 hmac] at hother

/-- **An account is read back as it was written exactly when its vendor is recoverable.** -/
theorem survives_iff (t : Oui) (p : Process) {h : HardwareInfo} (hobtained : Obtained t h)
    (hstates : h.macs.entries ≠ [] ∨ h.namesSomething = true) :
    (of t h).rebuild t p = some h ↔ Recoverable t h := by
  have hsound := hobtained.sound
  rcases of_cases t h with ⟨vendor, first, rest, hv, hof, hsightings, hperm, hrecord⟩ | ⟨hnot, hsightings, hrecord⟩
  · have hmem : first.1 ∈ h.macs.keys := mem_map_of_mem (hperm.mem_iff.mp mem_cons_self)
    refine iff_of_true ?_ (.inl ⟨first.1, hmem, vendor, hv, hof⟩)
    have hvendor : (of t h).settledVendor ((first :: rest).findSome? fun entry => t.vendor entry.1) =
        h.vendor := by
      simp [settledVendor, hof, hrecord, hv]
    rw [rebuild_of_sightings _ p hsightings hperm hsound.bounded, hvendor]
    rfl
  · cases hentries : h.macs.entries with
    | nil =>
      have hempty : h.macs = SortedMap.empty := eq_of_entries hentries
      have hsomething : h.namesSomething = true := hstates.resolve_left fun hne => hne hentries
      refine iff_of_true ?_ (.inr (.inr fun mac hmac => ?_))
      · rw [rebuild_of_no_sightings _ p (hsightings.trans hentries), described, HardwareInfo.described,
          hrecord, ← hempty]
        exact if_pos hsomething
      · rw [SortedMap.keys, hentries] at hmac
        exact absurd hmac not_mem_nil
    | cons first rest =>
      rw [hentries] at hsightings
      have hread := rebuild_of_sightings t p hsightings (hentries ▸ .refl _) hsound.bounded
      rw [← settledVendor_eq_iff hsound hnot hrecord, hread, hentries, Option.some.injEq]
      refine ⟨congrArg HardwareInfo.vendor, fun hvendor => ?_⟩
      rw [hvendor]
      rfl

/-- Two blocks of addresses, each of a maker's own. -/
def twoMakers : Oui where
  lookupByMac text :=
    if "00:00:0c".toList.isPrefixOf text then some "Cisco Systems, Inc".toList
    else if "00:05:02".toList.isPrefixOf text then some "Apple, Inc.".toList
    else none

/-- Seen at an address of the one maker, then at one of the other's, until the first was given up. -/
def moved : HardwareInfo :=
  ((HardwareInfo.new twoMakers ⟨1, 0, []⟩ 0x00000c123456).recordMacSeenAt twoMakers 0x000502abcdef 5).pruneStaleMacs 3

theorem obtained_moved : Obtained twoMakers moved :=
  .pruneStaleMacs 3 (.recordMacSeenAt _ 5 (.new ⟨1, 0, []⟩ _))

/-- Two addresses, one of them random, and what a service said. -/
def boxed : HardwareInfo :=
  (moved.recordMacSeenAt twoMakers 0x02abcdef0011 7).merge
    ⟨SortedMap.empty, some "NETGEAR", some "ReadyNAS", none, none, none, some "4", none⟩

theorem survives_boxed : boxed.macs.len = 2 ∧ boxed.vendor = some "NETGEAR" ∧ Obtained twoMakers boxed ∧
    (of twoMakers boxed).rebuild twoMakers ⟨9, 0, []⟩ = some boxed := by
  have hobtained : Obtained twoMakers boxed := .merge (.recordMacSeenAt _ 7 obtained_moved)
    (.described (d := ⟨some "NETGEAR", some "ReadyNAS", none, none, none, some "4", none⟩) rfl)
  have hmacs : boxed.macs.entries ≠ [] := by decide +kernel
  exact ⟨by decide +kernel, by decide +kernel, hobtained,
    (survives_iff twoMakers ⟨9, 0, []⟩ hobtained (.inl hmacs)).mpr (.inr (.inl (by decide +kernel)))⟩

/-- The vendor of an address that is gone is written, and then given up for that of the address that is left. -/
theorem forgets_vendor : Obtained twoMakers moved ∧ moved.macs.entries = [(0x000502abcdef, 5)] ∧
    moved.vendor = some "Cisco Systems, Inc" ∧ (of twoMakers moved).vendor = moved.vendor ∧
    ((of twoMakers moved).rebuild twoMakers ⟨9, 0, []⟩).map HardwareInfo.vendor = some (some "Apple, Inc.".toList) ∧
    (of twoMakers moved).rebuild twoMakers ⟨9, 0, []⟩ ≠ some moved :=
  ⟨obtained_moved, by decide +kernel, by decide +kernel, by decide +kernel, by decide +kernel, by decide +kernel⟩

end HardwareRecord

end Zond
