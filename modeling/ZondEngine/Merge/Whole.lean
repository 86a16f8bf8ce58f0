import ZondEngine.Merge.Spec

/-!
# Whose detail a merged record carries

The vendor of a merged box, and the details of a merged service, by the accounts that state them.
-/

namespace Zond

open List Option

def Accounts.oldest {α : Type} (a : Accounts α) : α := a.older.headD a.newest

namespace Merge

theorem detail_foldl {α β : Type} {fold : α → α → α} {detail : α → Option β}
    (hfold : ∀ held other, detail (fold held other) = (detail held).or (detail other)) :
    ∀ (rest : List α) (first : α), detail (rest.foldl fold first) = (detail first).or (rest.findSome? detail)
  | [], _ => (Option.or_none).symm
  | next :: rest, first => by
    rw [foldl_cons, detail_foldl hfold rest, hfold, Option.or_assoc, findSome?_cons]
    cases detail next <;> rfl

section Hardware

structure Described (hardware : HardwareInfo) : Prop where
  vendor_isSome : hardware.vendor.isSome = true
  more : hardware.namesMoreThanAVendor = true

def details : List (HardwareInfo → Option Text) :=
  [HardwareInfo.product, HardwareInfo.family, HardwareInfo.model, HardwareInfo.version, HardwareInfo.serialNumber,
    HardwareInfo.cpe23]

theorem detail_merge {detail : HardwareInfo → Option Text} (hdetail : detail ∈ details) (h other : HardwareInfo) :
    detail (h.merge other) = (detail h).or (detail other) := by
  simp only [details, mem_cons, not_mem_nil, or_false] at hdetail
  rcases hdetail with rfl | rfl | rfl | rfl | rfl | rfl <;> rfl

theorem vendor_foldl_merge : ∀ (rest : List HardwareInfo) (first : HardwareInfo), (∀ other ∈ rest, Described other) →
    (rest.foldl HardwareInfo.merge first).vendor = (rest.getLast?.getD first).vendor
  | [], _, _ => rfl
  | next :: rest, first, hrest => by
    obtain ⟨vendor, hvendor⟩ := isSome_iff_exists.mp (hrest next mem_cons_self).vendor_isSome
    have hnext : (first.merge next).vendor = next.vendor := by
      show (if first.vendor.isNone ∨ next.vendor.isSome ∧ next.namesMoreThanAVendor then _ else _) = _
      rw [if_pos (.inr ⟨(hrest next mem_cons_self).vendor_isSome, (hrest next mem_cons_self).more⟩), hvendor, some_or]
    rw [foldl_cons, vendor_foldl_merge rest _ fun other hother => hrest other (mem_cons_of_mem _ hother)]
    cases rest with
    | nil => exact hnext
    | cons other rest => simp [getLast?_cons]

theorem findSome?_filterMap {α β γ : Type} (f : α → Option β) (g : β → Option γ) :
    ∀ l : List α, (l.filterMap f).findSome? g = l.findSome? fun a => (f a).bind g
  | [] => rfl
  | a :: l => by
    rw [findSome?_cons, ← findSome?_filterMap f g l]
    cases h : f a with
    | none => rw [filterMap_cons_none h]; rfl
    | some b => rw [filterMap_cons_some h, findSome?_cons]; rfl

variable {accounts : Accounts Host}

theorem foldedHardware_eq {first : HardwareInfo} {rest : List HardwareInfo}
    (h : accounts.toList.reverse.filterMap Host.hardware = first :: rest) :
    foldedHardware accounts = some (rest.foldl HardwareInfo.merge first) := by
  have hrun : ∀ (rest : List HardwareInfo) (held : HardwareInfo), rest.foldl
      (fun existing found => some (existing.elim found fun existing => existing.merge found)) (some held) =
      some (rest.foldl HardwareInfo.merge held) := by
    intro rest
    induction rest with
    | nil => exact fun held => rfl
    | cons next rest ih => exact fun held => ih (held.merge next)
  unfold foldedHardware
  rw [h]
  exact hrun rest first

/-- **The vendor of a merged box is the newest account's exactly where the oldest account names the
same one**: each older account replaces it. -/
theorem foldHost_hardware_iff (p : Process) (accounts : Accounts Host)
    (hdescribed : ∀ account ∈ accounts.toList, ∃ hardware, account.hardware = some hardware ∧ Described hardware) :
    (∃ merged, (foldHost p accounts).hardware = some merged ∧
      merged.vendor = accounts.newest.hardware.bind HardwareInfo.vendor ∧
      ∀ detail ∈ details, detail merged = accounts.newestClaim fun account => account.hardware.bind detail) ↔
    accounts.oldest.hardware.bind HardwareInfo.vendor = accounts.newest.hardware.bind HardwareInfo.vendor := by
  have hnewest : accounts.newest ∈ accounts.toList := mem_append_right _ mem_cons_self
  obtain ⟨first, hfirst, _⟩ := hdescribed accounts.newest hnewest
  have hlist : accounts.toList.reverse.filterMap Host.hardware =
      first :: accounts.older.reverse.filterMap Host.hardware := by
    rw [Accounts.toList, reverse_append, reverse_singleton, singleton_append, filterMap_cons_some hfirst]
  have hrest : ∀ other ∈ accounts.older.reverse.filterMap Host.hardware, Described other := by
    intro other hother
    obtain ⟨account, haccount, heq⟩ := mem_filterMap.mp hother
    obtain ⟨hardware, hhardware, hbox⟩ := hdescribed account (mem_append_left _ (mem_reverse.mp haccount))
    exact Option.some.inj (hhardware.symm.trans heq) ▸ hbox
  have hmerged : (foldHost p accounts).hardware =
      some ((accounts.older.reverse.filterMap Host.hardware).foldl HardwareInfo.merge first) := by
    obtain ⟨_, _, heq⟩ := foldHost_eq p accounts
    rw [heq]
    exact foldedHardware_eq hlist
  -- The vendor of the last account folded in, which is the oldest one.
  have hvendor : ((accounts.older.reverse.filterMap Host.hardware).foldl HardwareInfo.merge first).vendor =
      accounts.oldest.hardware.bind HardwareInfo.vendor := by
    rw [vendor_foldl_merge _ _ hrest]
    unfold Accounts.oldest
    cases holder : accounts.older with
    | nil => exact (congrArg (·.bind HardwareInfo.vendor) hfirst).symm
    | cons oldest rest =>
      have hmem : oldest ∈ accounts.toList := mem_append_left _ (holder ▸ mem_cons_self)
      obtain ⟨hardware, hhardware, _⟩ := hdescribed oldest hmem
      rw [reverse_cons, filterMap_append, filterMap_cons_some hhardware, filterMap_nil,
        getLast?_concat, headD_cons, hhardware]
      rfl
  have hdetails : ∀ detail ∈ details,
      detail ((accounts.older.reverse.filterMap Host.hardware).foldl HardwareInfo.merge first) =
        accounts.newestClaim fun account => account.hardware.bind detail := by
    intro detail hdetail
    have hfirst' : (detail first).or ((accounts.older.reverse.filterMap Host.hardware).findSome? detail) =
        (first :: accounts.older.reverse.filterMap Host.hardware).findSome? detail := by
      rw [findSome?_cons]
      cases detail first <;> rfl
    rw [detail_foldl (detail_merge hdetail), hfirst', ← hlist, findSome?_filterMap]
    rfl
  constructor
  · rintro ⟨merged, heq, hsame, _⟩
    rw [← hvendor, ← hsame, Option.some.inj (hmerged.symm.trans heq)]
  · exact fun hsame => ⟨_, hmerged, hvendor.trans hsame, hdetails⟩

def router (vendor model : Text) : Host :=
  (Host.new ⟨0, 0, []⟩ (.v4 167772161)).setHardware ⟨0, 0, []⟩
    ⟨SortedMap.empty, some vendor, none, none, none, some model, none, none⟩

def routers (older newest : Host) : Accounts Host := ⟨[older], newest⟩

theorem described_routers (vendor model vendor' model' : Text) :
    ∀ account ∈ (routers (router vendor model) (router vendor' model')).toList,
      ∃ hardware, account.hardware = some hardware ∧ Described hardware := by
  intro account haccount
  rcases mem_cons.mp haccount with rfl | haccount
  · exact ⟨_, rfl, rfl, rfl⟩
  · rw [mem_singleton.mp haccount]
    exact ⟨_, rfl, rfl, rfl⟩

theorem foldHost_hardware_sameMaker : (∀ account ∈ (routers (router ['a'] ['1']) (router ['a'] ['2'])).toList,
      ∃ hardware, account.hardware = some hardware ∧ Described hardware) ∧
    ∃ merged, (foldHost ⟨1, 0, []⟩ (routers (router ['a'] ['1']) (router ['a'] ['2']))).hardware = some merged ∧
      merged.vendor = (router ['a'] ['2']).hardware.bind HardwareInfo.vendor := by
  have hdescribed := described_routers ['a'] ['1'] ['a'] ['2']
  obtain ⟨merged, hmerged, hvendor, _⟩ := (foldHost_hardware_iff ⟨1, 0, []⟩ _ hdescribed).mpr rfl
  exact ⟨hdescribed, merged, hmerged, hvendor⟩

/-- A router was replaced by another maker's: the merged box is the old maker's, of the new model. -/
theorem foldHost_hardware_spliced : (∀ account ∈ (routers (router ['a'] ['1']) (router ['b'] ['2'])).toList,
      ∃ hardware, account.hardware = some hardware ∧ Described hardware) ∧
    (foldHost ⟨1, 0, []⟩ (routers (router ['a'] ['1']) (router ['b'] ['2']))).hardware =
      some ⟨SortedMap.empty, some ['a'], none, none, none, some ['2'], none, none⟩ ∧
    ¬∃ merged, (foldHost ⟨1, 0, []⟩ (routers (router ['a'] ['1']) (router ['b'] ['2']))).hardware = some merged ∧
      merged.vendor = (router ['b'] ['2']).hardware.bind HardwareInfo.vendor := by
  have hmerged : (foldHost ⟨1, 0, []⟩ (routers (router ['a'] ['1']) (router ['b'] ['2']))).hardware =
      some ⟨SortedMap.empty, some ['a'], none, none, none, some ['2'], none, none⟩ := by decide +kernel
  refine ⟨described_routers _ _ _ _, hmerged, ?_⟩
  rintro ⟨merged, heq, hvendor⟩
  rw [← Option.some.inj (hmerged.symm.trans heq)] at hvendor
  exact absurd hvendor (by decide)

end Hardware

section Services

def Leads (accounts older : List Port) (newest : Service) : Prop :=
  ∃ stated : Port → Option Service,
    (stated = identified ∨ stated = Port.service ∧ ∀ account ∈ accounts, identified account = none) ∧
    ∃ account later, accounts = older ++ account :: later ∧ stated account = some newest ∧
      ∀ other ∈ later, stated other = none

def sameOlder (older : List Port) (newest : Service) : List Service :=
  (older.reverse.filterMap identified).filter (sameService newest)

structure Sourced {β : Type} (older : List Port) (newest : Service) (detail : Service → Option β) (value : Option β) :
    Prop where
  kept : ∀ b, detail newest = some b → value = some b
  completed : detail newest = none → ∀ b, value = some b → ∃ other ∈ sameOlder older newest, detail other = some b

structure Unspliced (older : List Port) (newest folded : Service) : Prop where
  name_eq : folded.name = newest.name
  product_eq : folded.product = newest.product
  confidence_eq : folded.confidence = newest.confidence
  version : Sourced older newest Service.version folded.version
  vendor : Sourced older newest Service.vendor folded.vendor
  extrainfo : Sourced older newest Service.extrainfo folded.extrainfo
  build_kept : ∀ b, newest.build = some b → folded.build = some b
  build_completed : newest.build = none → ∀ b, folded.build = some b →
    ∃ other ∈ sameOlder older newest, other.build = some b ∧ other.version = folded.version
  cpes : ∀ cpe ∈ folded.cpe.keys, cpe ∈ newest.cpe.keys ∨
    ∃ other ∈ sameOlder older newest, cpe ∈ other.cpe.keys ∧ (other.version = none ∨ other.version = folded.version)

def BuildBeforeVersion (same : List Service) : Prop :=
  ∃ first rest build version,
    same.dropWhile (fun other => other.version.isNone && other.build.isNone) = first :: rest ∧
    first.version = none ∧ first.build = some build ∧ rest.findSome? Service.version = some version ∧
    ∀ other ∈ same, ¬(other.build = some build ∧ other.version = some version)

/-! ### Completing an identification -/

variable {older : List Port} {newest : Service}

theorem identity_foldl_completeService (rest : List Service) (s : Service) :
    (rest.foldl completeService s).name = s.name ∧ (rest.foldl completeService s).product = s.product ∧
      (rest.foldl completeService s).confidence = s.confidence ∧ (rest.foldl completeService s).cpe = s.cpe :=
  List.foldlRecOn (motive := fun t : Service => t.name = s.name ∧ t.product = s.product ∧ t.confidence = s.confidence ∧
    t.cpe = s.cpe) rest completeService ⟨rfl, rfl, rfl, rfl⟩ fun _ ht _ _ => ht

theorem version_foldl_completeService (rest : List Service) (s : Service) :
    (rest.foldl completeService s).version = s.version.or (rest.findSome? Service.version) :=
  detail_foldl (fun _ _ => rfl) rest s

theorem sourced_foldl {β : Type} {detail : Service → Option β} {s : Service} (hs : detail s = detail newest)
    (hfold : ∀ held other, detail (completeService held other) = (detail held).or (detail other)) :
    Sourced older newest detail (detail ((sameOlder older newest).foldl completeService s)) := by
  rw [detail_foldl hfold, hs]
  constructor
  · intro b hb
    rw [hb, some_or]
  · intro hnone b hb
    rw [hnone, none_or] at hb
    exact exists_of_findSome?_eq_some hb

theorem build_foldl_of_some {b : Build} : ∀ (rest : List Service) {s : Service}, s.build = some b →
    (rest.foldl completeService s).build = some b
  | [], _, hs => hs
  | next :: rest, s, hs => build_foldl_of_some rest (s := completeService s next) (by
    show s.build.or _ = some b
    rw [hs, some_or])

theorem build_foldl_of_version {version : Text} {b : Build} : ∀ (rest : List Service) {s : Service},
    s.version = some version → s.build = none → (rest.foldl completeService s).build = some b →
    ∃ other ∈ rest, other.build = some b ∧ other.version = some version
  | [], s, _, hnone, hb => absurd (hnone.symm.trans hb) (some_ne_none b).symm
  | next :: rest, s, hversion, hnone, hb => by
    have hstep : (completeService s next).version = some version := by
      show s.version.or next.version = some version
      rw [hversion, some_or]
    have hbuild : (completeService s next).build = if next.version = some version then next.build else none := by
      show s.build.or (if s.version.or next.version = next.version then next.build else none) = _
      rw [hversion, hnone, some_or, none_or]
      exact if_congr eq_comm rfl rfl
    rw [foldl_cons] at hb
    cases hnext : (completeService s next).build with
    | none =>
      obtain ⟨other, hother, heq⟩ := build_foldl_of_version rest hstep hnext hb
      exact ⟨other, mem_cons_of_mem _ hother, heq⟩
    | some taken =>
      rw [build_foldl_of_some rest hnext] at hb
      rw [hbuild] at hnext
      split at hnext
      next hsame => exact ⟨next, mem_cons_self, hnext.trans hb, hsame⟩
      · exact absurd hnext (some_ne_none taken).symm

def BuildStated (same : List Service) (completed : Service) : Prop :=
  ∀ b, completed.build = some b → ∃ other ∈ same, other.build = some b ∧ other.version = completed.version

section Cases

variable {s next : Service} {rest : List Service}

theorem buildStated_of_version {version : Text} (hversion : next.version = some version)
    (hs : s.version = next.version) (hbuild : s.build = next.build) :
    BuildStated (next :: rest) (rest.foldl completeService s) ∧ ¬BuildBeforeVersion (next :: rest) := by
  refine ⟨fun b hb => ?_, ?_⟩
  · have hfinal := version_foldl_completeService rest s
    rw [hs, hversion, some_or] at hfinal
    rw [hfinal]
    cases hnext : next.build with
    | some taken =>
      rw [build_foldl_of_some rest (hbuild.trans hnext)] at hb
      exact ⟨next, mem_cons_self, hnext.trans hb, hversion⟩
    | none =>
      obtain ⟨other, hother, heq⟩ := build_foldl_of_version rest (hs.trans hversion) (hbuild.trans hnext) hb
      exact ⟨other, mem_cons_of_mem _ hother, heq⟩
  · rintro ⟨first, tail, _, _, hdrop, hnone, _⟩
    rw [dropWhile_cons_of_neg (by simp [hversion])] at hdrop
    rw [← (List.cons.inj hdrop).1, hversion] at hnone
    exact some_ne_none _ hnone

theorem buildStated_iff_of_build {taken : Build} (hversion : next.version = none) (hnext : next.build = some taken)
    (hs : s.version = next.version) (hbuild : s.build = next.build) :
    BuildStated (next :: rest) (rest.foldl completeService s) ↔ ¬BuildBeforeVersion (next :: rest) := by
  have hdrop : (next :: rest).dropWhile (fun other => other.version.isNone && other.build.isNone) = next :: rest :=
    dropWhile_cons_of_neg (by simp [hnext])
  unfold BuildStated
  rw [build_foldl_of_some rest (hbuild.trans hnext), version_foldl_completeService, hs, hversion, none_or]
  constructor
  · rintro hall ⟨first, tail, build, version, hfirst, _, hthis, hlater, hnowhere⟩
    obtain ⟨rfl, rfl⟩ := List.cons.inj (hdrop.symm.trans hfirst)
    obtain ⟨other, hother, hboth⟩ := hall taken rfl
    rw [hlater] at hboth
    exact hnowhere other hother ⟨hboth.1.trans (hnext.symm.trans hthis), hboth.2⟩
  · intro hnot b hb
    cases hlater : rest.findSome? Service.version with
    | none => exact ⟨next, mem_cons_self, hnext.trans hb, hversion⟩
    | some version =>
      by_contra hnowhere
      push Not at hnowhere
      exact hnot ⟨next, rest, taken, version, hdrop, hversion, hnext, hlater, fun other hother hboth =>
        hnowhere other hother (hboth.1.trans hb) hboth.2⟩

theorem buildBeforeVersion_cons_iff (hversion : next.version = none) (hnext : next.build = none) :
    BuildBeforeVersion (next :: rest) ↔ BuildBeforeVersion rest := by
  unfold BuildBeforeVersion
  rw [dropWhile_cons_of_pos (by simp [hversion, hnext])]
  simp only [forall_mem_cons, hnext, reduceCtorEq, false_and, not_false_eq_true, true_and]

theorem buildStated_cons_iff (hnext : next.build = none) {completed : Service} :
    BuildStated (next :: rest) completed ↔ BuildStated rest completed := by
  unfold BuildStated
  simp only [exists_mem_cons_iff, hnext, reduceCtorEq, false_and, false_or]

end Cases

/-- **Completing an identification without version and build** makes it one that was stated, unless a build is met
before a version. -/
theorem buildStated_iff : ∀ (same : List Service) {s : Service}, s.version = none → s.build = none →
    (BuildStated same (same.foldl completeService s) ↔ ¬BuildBeforeVersion same)
  | [], s, _, hbuild => by
    refine iff_of_true (fun b hb => absurd (hbuild.symm.trans hb) (some_ne_none b).symm) ?_
    rintro ⟨first, rest, _, _, hnil, _⟩
    exact absurd hnil (cons_ne_nil first rest).symm
  | next :: rest, s, hversion, hbuild => by
    have hstep : (completeService s next).version = next.version ∧ (completeService s next).build = next.build := by
      constructor
      · show s.version.or next.version = next.version
        rw [hversion, none_or]
      · show s.build.or (if s.version.or next.version = next.version then next.build else none) = next.build
        rw [hversion, hbuild, none_or, none_or, if_pos rfl]
    rw [foldl_cons]
    cases hnextVersion : next.version with
    | some version =>
      have hboth : BuildStated (next :: rest) (rest.foldl completeService (completeService s next)) ∧
          ¬BuildBeforeVersion (next :: rest) := buildStated_of_version hnextVersion hstep.1 hstep.2
      exact iff_of_true hboth.1 hboth.2
    | none =>
      cases hnextBuild : next.build with
      | some taken => exact buildStated_iff_of_build hnextVersion hnextBuild hstep.1 hstep.2
      | none =>
        rw [buildStated_cons_iff hnextBuild, buildBeforeVersion_cons_iff hnextVersion hnextBuild]
        exact buildStated_iff rest (hstep.1.trans hnextVersion) (hstep.2.trans hnextBuild)

/-! ### The merged service -/

def statedBy (newest : Service) : Service :=
  { Service.new newest.name newest.confidence with
    product := newest.product
    vendor := newest.vendor
    version := newest.version
    extrainfo := newest.extrainfo
    build := newest.build }

section Leading

variable {accounts : Accounts Port}

theorem newestClaim_of_later {β : Type} {claim : Port → Option β} {account : Port} {later : List Port} {value : β}
    (hsplit : accounts.toList = older ++ account :: later) (hthis : claim account = some value)
    (hlater : ∀ other ∈ later, claim other = none) : accounts.newestClaim claim = some value := by
  have hnone : later.reverse.findSome? claim = none :=
    findSome?_eq_none_iff.mpr fun other hother => hlater other (mem_reverse.mp hother)
  unfold Accounts.newestClaim
  rw [hsplit, reverse_append, reverse_cons, findSome?_append, findSome?_append, hnone, findSome?_singleton, hthis]
  rfl

theorem Leads.newest_eq (h : Leads accounts.toList older newest) :
    (accounts.newestClaim identified).or (accounts.newestClaim Port.service) = some newest := by
  obtain ⟨stated, hstated, account, later, hsplit, hthis, hlater⟩ := h
  rcases hstated with rfl | ⟨rfl, hnone⟩
  · rw [newestClaim_of_later hsplit hthis hlater, some_or]
  · have hnot : accounts.newestClaim identified = none :=
      findSome?_eq_none_iff.mpr fun other hother => hnone other (mem_reverse.mp hother)
    rw [hnot, none_or, newestClaim_of_later hsplit hthis hlater]

theorem Leads.others_eq (h : Leads accounts.toList older newest) :
    (accounts.toList.reverse.filterMap identified).tail = older.reverse.filterMap identified := by
  obtain ⟨stated, hstated, account, later, hsplit, hthis, hlater⟩ := h
  have hnothing : ∀ {ports : List Port}, (∀ port ∈ ports, identified port = none) →
      ports.reverse.filterMap identified = [] := fun hnone =>
    filterMap_eq_nil_iff.mpr fun port hport => hnone port (mem_reverse.mp hport)
  rcases hstated with rfl | ⟨rfl, hnone⟩
  · rw [hsplit, reverse_append, reverse_cons, filterMap_append, filterMap_append, hnothing hlater,
      nil_append, filterMap_cons_some hthis]
    rfl
  · rw [hnothing hnone, hnothing fun port hport => hnone port (hsplit ▸ mem_append_left _ hport)]
    rfl

theorem foldService_eq (h : Leads accounts.toList older newest) : foldService accounts = some
    (let folded := (sameOlder older newest).foldl completeService (statedBy newest)
    let agreeing := (older.reverse.filterMap identified).filter fun other =>
      sameService newest other && other.version.all fun version => folded.version == some version
    { folded with
      cpe := addCpes MAX_CPES_PER_SERVICE folded.cpe
        (newest.cpe.keys ++ agreeing.flatMap fun other => other.cpe.keys) }) := by
  unfold foldService
  rw [h.newest_eq, h.others_eq]
  rfl

end Leading

theorem mem_addCpes {bound : Nat} {cpe : Text} {held : SortedSet Text} {cpes : List Text}
    (h : cpe ∈ (addCpes bound held cpes).keys) : cpe ∈ held.keys ∨ cpe ∈ cpes := by
  refine List.foldlRecOn (motive := fun s : SortedSet Text => cpe ∈ s.keys → cpe ∈ held.keys ∨ cpe ∈ cpes) cpes _
    .inl (fun s hs added hadded hmem => ?_) h
  split at hmem
  · rcases SortedSet.contains_add.mp (SortedMap.contains_iff.mpr hmem) with rfl | hheld
    · exact .inr hadded
    · exact hs (SortedMap.contains_iff.mp hheld)
  · exact hs hmem

theorem unspliced_iff {folded : Service}
    (hfolded : (sameOlder older newest).foldl completeService (statedBy newest) = folded)
    {cpe : SortedSet Text} (hcpe : cpe = addCpes MAX_CPES_PER_SERVICE folded.cpe (newest.cpe.keys ++
      ((older.reverse.filterMap identified).filter fun other =>
        sameService newest other && other.version.all fun version => folded.version == some version).flatMap
        fun other => other.cpe.keys)) :
    Unspliced older newest { folded with cpe } ↔
      (newest.build = none → BuildStated (sameOlder older newest) folded) := by
  refine ⟨Unspliced.build_completed, fun hbuild => ?_⟩
  obtain ⟨hname, hproduct, hconfidence, hempty⟩ :=
    identity_foldl_completeService (sameOlder older newest) (statedBy newest)
  rw [hfolded] at hname hproduct hconfidence hempty
  refine ⟨hname, hproduct, hconfidence.trans (Nat.min_eq_left newest.confidence_le), ?_, ?_, ?_, fun b hb => ?_,
    hbuild, ?_⟩
  · exact hfolded ▸ sourced_foldl rfl fun _ _ => rfl
  · exact hfolded ▸ sourced_foldl rfl fun _ _ => rfl
  · exact hfolded ▸ sourced_foldl rfl fun _ _ => rfl
  · rw [← hfolded]
    exact build_foldl_of_some _ hb
  · intro identifier hmem
    rw [show ({ folded with cpe } : Service).cpe = cpe from rfl, hcpe] at hmem
    rcases mem_addCpes hmem with hheld | hadded
    · rw [hempty] at hheld
      exact absurd hheld not_mem_nil
    · rcases mem_append.mp hadded with hown | hother
      · exact .inl hown
      · obtain ⟨other, hmem, hcarries⟩ := mem_flatMap.mp hother
        obtain ⟨hother, hagrees⟩ := mem_filter.mp hmem
        obtain ⟨hsame, hversion⟩ := Bool.and_eq_true_iff.mp hagrees
        refine .inr ⟨other, mem_filter.mpr ⟨hother, hsame⟩, hcarries, ?_⟩
        cases hstated : other.version with
        | none => exact .inl rfl
        | some version =>
          rw [hstated, all_some, beq_iff_eq] at hversion
          exact .inr hversion.symm

/-- **A merged service is no splice of two identifications, except for a build met before a
version**: what the newest lacks comes from older accounts of the same service. -/
theorem foldService_whole_iff (accounts : Accounts Port) :
    (foldService accounts = none ↔ ∀ account ∈ accounts.toList, account.service = none) ∧
    ∀ older newest, Leads accounts.toList older newest →
      ((∃ folded, foldService accounts = some folded ∧ Unspliced older newest folded) ↔
        ¬(newest.version = none ∧ newest.build = none ∧ BuildBeforeVersion (sameOlder older newest))) := by
  refine ⟨?_, fun older newest hleads => ?_⟩
  · unfold foldService Accounts.newestClaim
    rw [map_eq_none_iff, or_eq_none_iff, findSome?_eq_none_iff, findSome?_eq_none_iff]
    simp only [mem_reverse]
    refine ⟨And.right, fun hnone => ⟨fun account haccount => ?_, hnone⟩⟩
    unfold identified
    rw [hnone account haccount]
    rfl
  · have hmerged := foldService_eq hleads
    generalize hfolded : (sameOlder older newest).foldl completeService (statedBy newest) = folded at hmerged
    have hwhole : (∃ merged, foldService accounts = some merged ∧ Unspliced older newest merged) ↔
        (newest.build = none → BuildStated (sameOlder older newest) folded) := by
      rw [← unspliced_iff hfolded rfl, hmerged]
      exact ⟨fun ⟨_, heq, hunspliced⟩ => Option.some.inj heq ▸ hunspliced, fun hunspliced => ⟨_, rfl, hunspliced⟩⟩
    rw [hwhole, ← hfolded]
    cases hbuild : newest.build with
    | some build => simp
    | none =>
      cases hversion : newest.version with
      | some version =>
        refine iff_of_true (fun _ b hb => ?_) (by simp)
        obtain ⟨other, hother, heq⟩ := build_foldl_of_version (s := statedBy newest) _ hversion hbuild hb
        refine ⟨other, hother, heq.1, ?_⟩
        rw [version_foldl_completeService, show (statedBy newest).version = some version from hversion, some_or]
        exact heq.2
      | none =>
        rw [forall_prop_of_true rfl, buildStated_iff (s := statedBy newest) _ hversion hbuild]
        simp

def server (version : Option Text) (build : Option Build) : Service :=
  { Service.new ['s', 's', 'h'] 100 with product := some ['o'], version, build }

def serving (service : Service) : Port := { Port.new 22 .tcp .open with service := some service }

def thrice (first : Option Text) : Accounts Port :=
  ⟨[serving (server first none), serving (server none (some (Build.new .debian)))], serving (server none none)⟩

theorem leads_thrice (first : Option Text) : Leads (thrice first).toList (thrice first).older (server none none) :=
  ⟨identified, .inl rfl, serving (server none none), [], rfl, by decide, fun _ hother => absurd hother not_mem_nil⟩

/-- The build of a server whose version nobody states. -/
theorem foldService_whole_versionless : Leads (thrice none).toList (thrice none).older (server none none) ∧
    ∃ folded, foldService (thrice none) = some folded ∧ Unspliced (thrice none).older (server none none) folded := by
  refine ⟨leads_thrice none, ((foldService_whole_iff (thrice none)).2 _ _ (leads_thrice none)).mpr ?_⟩
  rintro ⟨_, _, first, rest, _, _, hdrop, _, _, hversion, _⟩
  have hrest : rest = [server none none] := (List.cons.inj hdrop).2.symm
  rw [hrest] at hversion
  exact some_ne_none _ hversion.symm

theorem foldService_spliced : Leads (thrice (some ['9'])).toList (thrice (some ['9'])).older (server none none) ∧
    (foldService (thrice (some ['9']))).map (fun folded => (folded.version, folded.build)) =
      some (some ['9'], some (Build.new .debian)) ∧
    (∀ account ∈ (thrice (some ['9'])).toList, ∀ service ∈ account.service,
      ¬(service.version = some ['9'] ∧ service.build = some (Build.new .debian))) ∧
    ¬∃ folded, foldService (thrice (some ['9'])) = some folded ∧
      Unspliced (thrice (some ['9'])).older (server none none) folded := by
  have hmerged : foldService (thrice (some ['9'])) = some (server (some ['9']) (some (Build.new .debian))) := by decide
  refine ⟨leads_thrice _, by rw [hmerged]; rfl, by decide, ?_⟩
  rintro ⟨folded, heq, hunspliced⟩
  rw [← Option.some.inj (hmerged.symm.trans heq)] at hunspliced
  exact absurd (hunspliced.build_completed rfl _ rfl) (by decide)

end Services

end Merge

end Zond
