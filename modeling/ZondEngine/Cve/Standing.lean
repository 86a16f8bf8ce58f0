import ZondEngine.Cve.Builder

/-!
# Which verdict stands

Of the verdicts recorded for a channel the builder keeps one that no other outranks (`Stands`, `Settled.settle`). What a
ruling reads of them does not depend on their order, unless open verdicts waver (`kind_openRuling_of_perm`).
-/

namespace Zond.Cve

open Std Zond.VersionOrder List Option

inductive RulingKind where
  | fixed | notAffected | fixAvailable | esmOnly | noFix | patchLevelHidden | untriaged | notTracked
  deriving DecidableEq

def Ruling.kind : Ruling → RulingKind
  | .withdrawn (.fixed _) => .fixed
  | .withdrawn (.notAffected _) => .notAffected
  | .vulnerable (.fixAvailable _) => .fixAvailable
  | .vulnerable (.esmOnly _) => .esmOnly
  | .vulnerable (.noFix _ _) => .noFix
  | .unsettled (.patchLevelHidden _) => .patchLevelHidden
  | .unsettled .untriaged => .untriaged
  | .unsettled .notTracked => .notTracked

/-! ## Open verdicts -/

def Status.IsOpen (s : Status) : Prop := ∃ kind note, s.standing = .open kind note

def Status.NeedsTriage (s : Status) : Prop := ∃ note, s.standing = .open .needsTriage note

def IsFirst (statuses : List Status) (channel : Channel) : Prop := ∀ s ∈ statuses, channel.rank ≤ s.channel.rank

def Wavers (statuses : List Status) : Prop :=
  (∀ s ∈ statuses, s.IsOpen) ∧ ∃ s ∈ statuses, ∃ t ∈ statuses,
    s.channel = t.channel ∧ IsFirst statuses s.channel ∧ s.NeedsTriage ∧ ¬ t.NeedsTriage

/-! ## Which verdict stands -/

def inChannel (channel : Channel) (statuses : List Status) : List Status := statuses.filter (·.channel = channel)

structure Stands (statuses : List Status) (s : Status) : Prop where
  mem : s ∈ statuses
  unbeaten : ∀ t ∈ statuses, outranks t s = false
  first : s.IsOpen → statuses.head? = some s

structure Settled (statuses held : List Status) : Prop where
  nodup : (held.map Status.channel).Nodup
  stands : ∀ s ∈ held, Stands (inChannel s.channel statuses) s
  covers : ∀ s ∈ statuses, ∃ t ∈ held, t.channel = s.channel

section Stands

variable {statuses : List Status} {s t held : Status}

theorem mem_inChannel {channel : Channel} : s ∈ inChannel channel statuses ↔ s ∈ statuses ∧ s.channel = channel := by
  simp [inChannel]

theorem outranks_self (s : Status) : outranks s s = false := by
  unfold outranks
  cases hs : s.standing with
  | notAffected reason => rfl
  | fixed version => simp [ReflCmp.compare_self]
  | «open» kind note => rfl

theorem outranks_of_outranks (hs : outranks s held = true) (ht : outranks t held = false) : outranks t s = false := by
  unfold outranks at *
  cases hheld : held.standing <;> cases hstanding : s.standing <;> cases htstanding : t.standing <;>
    simp only [hheld, hstanding, htstanding] at hs ht ⊢ <;> try simp_all
  intro hgt
  exact ht (TransCmp.gt_trans hgt hs)

theorem not_isOpen_of_outranks (h : outranks s held = true) : ¬ s.IsOpen := by
  rintro ⟨kind, note, hs⟩
  unfold outranks at h
  rw [hs] at h
  cases h

theorem Stands.concat (h : Stands statuses held) (s : Status) :
    Stands (statuses ++ [s]) (if outranks s held then s else held) := by
  split
  next hbeats =>
    refine ⟨mem_append_right _ mem_cons_self, ?_, fun hopen => absurd hopen (not_isOpen_of_outranks hbeats)⟩
    intro t ht
    rcases mem_append.mp ht with ht | ht
    · exact outranks_of_outranks hbeats (h.unbeaten t ht)
    · rw [mem_singleton.mp ht]
      exact outranks_self s
  next hbeaten =>
    refine ⟨mem_append_left _ h.mem, ?_, fun hopen => ?_⟩
    · intro t ht
      rcases mem_append.mp ht with ht | ht
      · exact h.unbeaten t ht
      · rw [mem_singleton.mp ht]
        exact Bool.eq_false_iff.mpr hbeaten
    · rw [head?_append, h.first hopen]
      rfl

theorem stands_singleton (s : Status) : Stands [s] s :=
  ⟨mem_cons_self, fun _ ht => mem_singleton.mp ht ▸ outranks_self s, fun _ => rfl⟩

end Stands

section Settle

variable {statuses held : List Status} {s : Status}

theorem settle_cases (s : Status) : ∀ held : List Status,
    ((∀ t ∈ held, t.channel ≠ s.channel) ∧ settle s held = held ++ [s]) ∨
      ∃ before t after, held = before ++ t :: after ∧ t.channel = s.channel ∧
        settle s held = before ++ (if outranks s t then s else t) :: after
  | [] => .inl ⟨fun _ h => absurd h not_mem_nil, rfl⟩
  | first :: rest => by
    unfold settle
    by_cases hchannel : first.channel = s.channel
    · rw [if_pos hchannel]
      refine .inr ⟨[], first, rest, rfl, hchannel, ?_⟩
      split <;> rfl
    · rw [if_neg hchannel]
      rcases settle_cases s rest with ⟨hnone, heq⟩ | ⟨before, t, after, rfl, ht, heq⟩
      · refine .inl ⟨?_, by rw [heq]; rfl⟩
        exact forall_mem_cons.mpr ⟨hchannel, hnone⟩
      · exact .inr ⟨first :: before, t, after, rfl, ht, by rw [heq]; rfl⟩

theorem inChannel_concat_of_eq : inChannel s.channel (statuses ++ [s]) = inChannel s.channel statuses ++ [s] := by
  simp [inChannel]

theorem inChannel_concat_of_ne {channel : Channel} (h : channel ≠ s.channel) :
    inChannel channel (statuses ++ [s]) = inChannel channel statuses := by
  simp [inChannel, h.symm]

theorem settled_nil : Settled [] [] :=
  ⟨nodup_nil, fun _ h => absurd h not_mem_nil, fun _ h => absurd h not_mem_nil⟩

theorem Settled.stands_concat_of_ne (h : Settled statuses held) {t : Status} (ht : t ∈ held)
    (hchannel : t.channel ≠ s.channel) : Stands (inChannel t.channel (statuses ++ [s])) t := by
  rw [inChannel_concat_of_ne hchannel]
  exact h.stands t ht

/-- **One more verdict leaves the best of each channel.** -/
theorem Settled.settle (h : Settled statuses held) (s : Status) : Settled (statuses ++ [s]) (settle s held) := by
  rcases settle_cases s held with ⟨hnone, heq⟩ | ⟨before, t, after, rfl, ht, heq⟩
  · rw [heq]
    have hempty : inChannel s.channel statuses = [] := by
      refine eq_nil_iff_forall_not_mem.mpr fun u hu => ?_
      obtain ⟨v, hv, hchannel⟩ := h.covers u (mem_inChannel.mp hu).1
      exact hnone v hv (hchannel.trans (mem_inChannel.mp hu).2)
    refine ⟨?_, ?_, ?_⟩
    · rw [map_append, map_singleton, ← concat_eq_append, nodup_concat]
      refine ⟨fun hmem => ?_, h.nodup⟩
      obtain ⟨u, hu, hchannel⟩ := mem_map.mp hmem
      exact hnone u hu hchannel
    · intro u hu
      rcases mem_append.mp hu with hu | hu
      · exact h.stands_concat_of_ne hu (hnone u hu)
      · rw [mem_singleton.mp hu, inChannel_concat_of_eq, hempty]
        exact stands_singleton s
    · intro u hu
      rcases mem_append.mp hu with hu | hu
      · obtain ⟨v, hv, hchannel⟩ := h.covers u hu
        exact ⟨v, mem_append_left _ hv, hchannel⟩
      · exact ⟨s, mem_append_right _ mem_cons_self, by rw [mem_singleton.mp hu]⟩
  · rw [heq]
    have hwinner : (if outranks s t then s else t).channel = t.channel := by
      split
      · exact ht.symm
      · rfl
    have hchannels : (before ++ (if outranks s t then s else t) :: after).map Status.channel =
        (before ++ t :: after).map Status.channel := by
      rw [map_append, map_cons, hwinner, map_append, map_cons]
    have hother : ∀ u, u ∈ before ∨ u ∈ after → u.channel ≠ s.channel := by
      have hnodup := h.nodup
      rw [map_append, map_cons, nodup_middle, nodup_cons, mem_append] at hnodup
      intro u hu hchannel
      rw [ht, ← hchannel] at hnodup
      exact hnodup.1 (hu.imp (fun hu => mem_map_of_mem hu) fun hu => mem_map_of_mem hu)
    refine ⟨hchannels ▸ h.nodup, ?_, ?_⟩
    · intro u hu
      rcases mem_append.mp hu with hbefore | hu
      · exact h.stands_concat_of_ne (mem_append_left _ hbefore) (hother u (.inl hbefore))
      rcases mem_cons.mp hu with rfl | hafter
      · have hstands := h.stands t (mem_append_right _ mem_cons_self)
        rw [hwinner, ht, inChannel_concat_of_eq, ← ht]
        exact hstands.concat s
      · exact h.stands_concat_of_ne (mem_append_right _ (mem_cons_of_mem _ hafter)) (hother u (.inr hafter))
    · intro u hu
      have hheld : u.channel ∈ (before ++ t :: after).map Status.channel := by
        rcases mem_append.mp hu with hu | hu
        · obtain ⟨v, hv, hchannel⟩ := h.covers u hu
          exact mem_map.mpr ⟨v, hv, hchannel⟩
        · rw [mem_singleton.mp hu, ← ht]
          exact mem_map_of_mem (mem_append_right _ mem_cons_self)
      rw [← hchannels] at hheld
      exact mem_map.mp hheld

/-- **The verdicts held after any number of them.** -/
theorem settled_foldl : ∀ (rest : List Status) {statuses held : List Status}, Settled statuses held →
    Settled (statuses ++ rest) (rest.foldl (fun held s => Cve.settle s held) held)
  | [], _, _, h => by rwa [append_nil]
  | s :: rest, statuses, held, h => by
    have hrest := settled_foldl rest (h.settle s)
    rwa [append_assoc, singleton_append] at hrest

end Settle

section Kinds

variable {statuses held : List Status}

def OpenKind.rulingKind : OpenKind → RulingKind
  | .needsTriage => .untriaged
  | _ => .noFix

theorem kind_judged_congr {installed : Option Text} {fix fix' : Fix} {esm : Bool}
    (h : dpkgCmp fix.version fix'.version = .eq) :
    (judged installed fix esm).kind = (judged installed fix' esm).kind := by
  cases installed with
  | none => rfl
  | some version =>
    have hsame : dpkgCmp version fix.version = dpkgCmp version fix'.version := TransCmp.congr_right h
    unfold judged
    dsimp only
    rw [hsame]
    split
    · rfl
    · cases esm <;> rfl

theorem kind_rule_congr {p q : Placement} {cve cve' : Text} (hinstalled : p.installed = q.installed)
    (hstatuses : p.advisories.statuses p.release p.package cve = statuses)
    (hheld : q.advisories.statuses q.release q.package cve' = held) (hempty : statuses = [] ↔ held = [])
    (hna : SaysNotAffected statuses ↔ SaysNotAffected held)
    (hfixes : ∀ channel, fixedIn statuses channel = none ∧ fixedIn held channel = none ∨
      ∃ fix fix', fixedIn statuses channel = some fix ∧ fixedIn held channel = some fix' ∧
        dpkgCmp fix.version fix'.version = .eq)
    (hopen : ¬ SaysNotAffected statuses → (∀ channel, fixedIn statuses channel = none) → statuses ≠ [] →
      (openRuling statuses).kind = (openRuling held).kind) : (p.rule cve).kind = (q.rule cve').kind := by
  unfold Placement.rule
  rw [hstatuses, hheld, hinstalled]
  rw [← findSome?_notAffectedReason, ← findSome?_notAffectedReason] at hna
  rw [← findSome?_notAffectedReason] at hopen
  by_cases hnil : statuses = []
  · rw [if_pos (isEmpty_iff.mpr hnil), if_pos (isEmpty_iff.mpr (hempty.mp hnil))]
  rw [if_neg fun h => hnil (isEmpty_iff.mp h), if_neg fun h => hnil (hempty.mpr (isEmpty_iff.mp h))]
  cases hreason : statuses.findSome? Status.notAffectedReason with
  | some reason =>
    rw [hreason] at hna
    obtain ⟨reason', hreason'⟩ := isSome_iff_exists.mp (hna.mp rfl)
    rw [hreason']
    rfl
  | none =>
    rw [hreason] at hna hopen
    have hreason' : held.findSome? Status.notAffectedReason = none :=
      not_isSome_iff_eq_none.mp fun h => Bool.false_ne_true (hna.mpr h)
    rw [hreason']
    rcases hfixes .archive with ⟨harchive, harchive'⟩ | ⟨fix, fix', hfix, hfix', heq⟩
    · rcases hfixes .esm with ⟨hesm, hesm'⟩ | ⟨fix, fix', hfix, hfix', heq⟩
      · have hnone : ∀ channel, fixedIn statuses channel = none := by
          intro channel
          cases channel
          · exact harchive
          · exact hesm
        rw [harchive, harchive', hesm, hesm']
        exact hopen (fun h => Bool.false_ne_true h) hnone hnil
      · rw [harchive, harchive', hfix, hfix']
        exact kind_judged_congr heq
    · rw [hfix, hfix']
      exact kind_judged_congr heq

theorem exists_of_fixedIn {channel : Channel} {fix : Fix} (h : fixedIn held channel = some fix) :
    ∃ s ∈ held, s.channel = channel ∧ s.standing = .fixed fix.version := by
  obtain ⟨s, hs, hfix⟩ := exists_of_findSome?_eq_some h
  split at hfix
  next hchannel =>
    refine ⟨s, hs, hchannel, ?_⟩
    unfold Status.fix at hfix
    split at hfix
    next hstanding => rw [hstanding, ← Option.some.inj hfix]
    next => cases hfix
  next => cases hfix

theorem rule_of_isOpen {p : Placement} {cve : Text}
    (hheld : p.advisories.statuses p.release p.package cve = held) (hne : held ≠ []) (hopen : ∀ s ∈ held, s.IsOpen) :
    p.rule cve = openRuling held := by
  have hna : held.findSome? Status.notAffectedReason = none := by
    refine not_isSome_iff_eq_none.mp fun hsome => ?_
    obtain ⟨s, hs, reason, hstanding⟩ := findSome?_notAffectedReason.mp hsome
    obtain ⟨kind, note, hkind⟩ := hopen s hs
    rw [hkind] at hstanding
    cases hstanding
  have hfix : ∀ channel, fixedIn held channel = none := by
    intro channel
    refine not_isSome_iff_eq_none.mp fun hsome => ?_
    obtain ⟨fix, hfix⟩ := isSome_iff_exists.mp hsome
    obtain ⟨s, hs, -, hstanding⟩ := exists_of_fixedIn hfix
    obtain ⟨kind, note, hkind⟩ := hopen s hs
    rw [hkind] at hstanding
    cases hstanding
  unfold Placement.rule
  dsimp only
  rw [hheld, if_neg fun h => hne (isEmpty_iff.mp h), hna, hfix, hfix]

section Held

variable (h : Settled statuses held)

include h

theorem Settled.mem {s : Status} (hs : s ∈ held) : s ∈ statuses := (mem_inChannel.mp (h.stands s hs).mem).1

theorem Settled.kind_openRuling (hne : statuses ≠ []) (hopen : ∀ s ∈ statuses, s.IsOpen) :
    ∃ s kind note, s.standing = .open kind note ∧ (inChannel s.channel statuses).head? = some s ∧
      IsFirst statuses s.channel ∧ (openRuling held).kind = kind.rulingKind := by
  have hheld : ∀ t ∈ held, t.IsOpen := fun t ht => hopen t (h.mem ht)
  unfold openRuling
  cases hmin : (held.filterMap Status.openVerdict).argmin fun verdict => verdict.1.rank with
  | none =>
    -- something was recorded, so something is held, and it is open
    obtain ⟨s, hs⟩ := exists_mem_of_ne_nil _ hne
    obtain ⟨t, ht, -⟩ := h.covers s hs
    obtain ⟨kind, note, hstanding⟩ := hheld t ht
    have hverdict : (t.channel, kind, note) ∈ held.filterMap Status.openVerdict :=
      mem_filterMap.mpr ⟨t, ht, by simp [Status.openVerdict, hstanding]⟩
    rw [argmin_eq_none.mp hmin] at hverdict
    exact absurd hverdict not_mem_nil
  | some verdict =>
    obtain ⟨s, hs, hverdict⟩ := mem_filterMap.mp (argmin_mem hmin)
    obtain ⟨kind, note, hstanding⟩ := hheld s hs
    obtain rfl : (s.channel, kind, note) = verdict := by simpa [Status.openVerdict, hstanding] using hverdict
    refine ⟨s, kind, note, hstanding, (h.stands s hs).first ⟨kind, note, hstanding⟩, ?_, ?_⟩
    · intro t ht
      obtain ⟨u, hu, hchannel⟩ := h.covers t ht
      obtain ⟨kind', note', hstanding'⟩ := hheld u hu
      have hmem : (u.channel, kind', note') ∈ held.filterMap Status.openVerdict :=
        mem_filterMap.mpr ⟨u, hu, by simp [Status.openVerdict, hstanding']⟩
      rw [← hchannel]
      exact le_of_mem_argmin (f := fun verdict : Channel × OpenKind × Option Text => verdict.1.rank) hmem hmin
    · cases kind <;> rfl

theorem Settled.eq_nil_iff : held = [] ↔ statuses = [] := by
  constructor
  · intro hnil
    refine eq_nil_iff_forall_not_mem.mpr fun s hs => ?_
    obtain ⟨t, ht, -⟩ := h.covers s hs
    exact absurd (hnil ▸ ht) not_mem_nil
  · intro hnil
    refine eq_nil_iff_forall_not_mem.mpr fun s hs => ?_
    exact absurd (hnil ▸ h.mem hs) not_mem_nil

theorem Settled.exists_fixed {s : Status} {version : Text} (hs : s ∈ statuses)
    (hfixed : s.standing = .fixed version) :
    ∃ t ∈ held, t.channel = s.channel ∧ ∃ version, t.standing = .fixed version := by
  obtain ⟨t, ht, hchannel⟩ := h.covers s hs
  refine ⟨t, ht, hchannel, ?_⟩
  have hunbeaten := (h.stands t ht).unbeaten s (mem_inChannel.mpr ⟨hs, hchannel.symm⟩)
  unfold outranks at hunbeaten
  rw [hfixed] at hunbeaten
  cases hstanding : t.standing with
  | fixed version => exact ⟨version, rfl⟩
  | notAffected reason => rw [hstanding] at hunbeaten; cases hunbeaten
  | «open» kind note => rw [hstanding] at hunbeaten; cases hunbeaten

theorem Settled.saysNotAffected_iff :
    SaysNotAffected held ↔ ∃ s ∈ statuses, (∃ reason, s.standing = .notAffected reason) ∧
      ∀ t ∈ statuses, t.channel = s.channel → ∀ version, t.standing ≠ .fixed version := by
  constructor
  · rintro ⟨s, hs, reason, hstanding⟩
    have hstands := h.stands s hs
    refine ⟨s, h.mem hs, ⟨reason, hstanding⟩, fun t ht hchannel version hfixed => ?_⟩
    have hunbeaten := hstands.unbeaten t (mem_inChannel.mpr ⟨ht, hchannel⟩)
    unfold outranks at hunbeaten
    rw [hfixed, hstanding] at hunbeaten
    cases hunbeaten
  · rintro ⟨s, hs, ⟨reason, hstanding⟩, hnone⟩
    obtain ⟨t, ht, hchannel⟩ := h.covers s hs
    have hstands := h.stands t ht
    have hunbeaten := hstands.unbeaten s (mem_inChannel.mpr ⟨hs, hchannel.symm⟩)
    unfold outranks at hunbeaten
    rw [hstanding] at hunbeaten
    cases hheld : t.standing with
    | notAffected reason => exact ⟨t, ht, reason, hheld⟩
    | fixed version => exact absurd hheld (hnone t (h.mem ht) hchannel version)
    | «open» kind note => rw [hheld] at hunbeaten; cases hunbeaten

theorem Settled.fixedIn_isSome_iff {channel : Channel} :
    (fixedIn held channel).isSome = true ↔
      ∃ s ∈ statuses, s.channel = channel ∧ ∃ version, s.standing = .fixed version := by
  constructor
  · intro hsome
    obtain ⟨fix, hfix⟩ := isSome_iff_exists.mp hsome
    obtain ⟨s, hs, hchannel, hstanding⟩ := exists_of_fixedIn hfix
    exact ⟨s, h.mem hs, hchannel, fix.version, hstanding⟩
  · rintro ⟨s, hs, rfl, version, hfixed⟩
    obtain ⟨t, ht, hchannel, version', hstanding⟩ := h.exists_fixed hs hfixed
    exact hchannel ▸ fixedIn_isSome ht hstanding

theorem Settled.not_gt_of_fixedIn {channel : Channel} {fix : Fix}
    (hfix : fixedIn held channel = some fix) {s : Status} {version : Text} (hs : s ∈ statuses)
    (hchannel : s.channel = channel) (hstanding : s.standing = .fixed version) : dpkgCmp version fix.version ≠ .gt := by
  obtain ⟨t, ht, rfl, hfixed⟩ := exists_of_fixedIn hfix
  have hunbeaten := (h.stands t ht).unbeaten s (mem_inChannel.mpr ⟨hs, hchannel⟩)
  unfold outranks at hunbeaten
  rw [hstanding, hfixed] at hunbeaten
  simpa using hunbeaten

end Held

end Kinds

section Orders

variable {statuses statuses' held held' : List Status}

theorem fixedIn_of_perm (h : Settled statuses held) (h' : Settled statuses' held') (hperm : statuses.Perm statuses')
    (channel : Channel) : fixedIn held channel = none ∧ fixedIn held' channel = none ∨
      ∃ fix fix', fixedIn held channel = some fix ∧ fixedIn held' channel = some fix' ∧
        dpkgCmp fix.version fix'.version = .eq := by
  have hsome : (fixedIn held channel).isSome = true ↔ (fixedIn held' channel).isSome = true := by
    rw [h.fixedIn_isSome_iff, h'.fixedIn_isSome_iff]
    exact exists_congr fun s => and_congr_left fun _ => hperm.mem_iff
  cases hfix : fixedIn held channel with
  | none =>
    rw [hfix] at hsome
    exact .inl ⟨rfl, not_isSome_iff_eq_none.mp fun hheld => Bool.false_ne_true (hsome.mpr hheld)⟩
  | some fix =>
    rw [hfix] at hsome
    obtain ⟨fix', hfix'⟩ := isSome_iff_exists.mp (hsome.mp rfl)
    refine .inr ⟨fix, fix', rfl, hfix', ?_⟩
    obtain ⟨s, hs, hchannel, hstanding⟩ := exists_of_fixedIn hfix
    obtain ⟨t, ht, hchannel', hstanding'⟩ := exists_of_fixedIn hfix'
    have hle := h'.not_gt_of_fixedIn hfix' (hperm.mem_iff.mp (h.mem hs)) hchannel hstanding
    have hge := h.not_gt_of_fixedIn hfix (hperm.mem_iff.mpr (h'.mem ht)) hchannel' hstanding'
    cases hcmp : dpkgCmp fix.version fix'.version with
    | eq => rfl
    | gt => exact absurd hcmp hle
    | lt => exact absurd (OrientedCmp.gt_of_lt hcmp) hge

theorem isOpen_of_not {s : Status} (hna : ∀ reason, s.standing ≠ .notAffected reason)
    (hfixed : ∀ version, s.standing ≠ .fixed version) : s.IsOpen := by
  cases hs : s.standing with
  | notAffected reason => exact absurd hs (hna reason)
  | fixed version => exact absurd hs (hfixed version)
  | «open» kind note => exact ⟨kind, note, hs⟩

theorem Settled.isOpen (h : Settled statuses held) (hna : ¬ SaysNotAffected held)
    (hfix : ∀ channel, fixedIn held channel = none) : ∀ s ∈ statuses, s.IsOpen := by
  have hfixed : ∀ s ∈ statuses, ∀ version, s.standing ≠ .fixed version := by
    intro s hs version hstanding
    have hsome := h.fixedIn_isSome_iff.mpr ⟨s, hs, rfl, version, hstanding⟩
    rw [hfix] at hsome
    cases hsome
  intro s hs
  refine isOpen_of_not (fun reason hstanding => hna ?_) (hfixed s hs)
  exact h.saysNotAffected_iff.mpr ⟨s, hs, ⟨reason, hstanding⟩, fun t ht _ => hfixed t ht⟩

theorem isFirst_of_perm (hperm : statuses.Perm statuses') {channel : Channel} (h : IsFirst statuses channel) :
    IsFirst statuses' channel := fun s hs => h s (hperm.mem_iff.mpr hs)

theorem wavers_of_perm (hperm : statuses.Perm statuses') (h : Wavers statuses) : Wavers statuses' := by
  obtain ⟨hopen, s, hs, t, ht, hchannel, hfirst, htriage⟩ := h
  exact ⟨fun u hu => hopen u (hperm.mem_iff.mpr hu), s, hperm.mem_iff.mp hs, t, hperm.mem_iff.mp ht, hchannel,
    isFirst_of_perm hperm hfirst, htriage⟩

theorem Channel.rank_injective {a b : Channel} (h : a.rank = b.rank) : a = b := by
  cases a <;> cases b <;> simp_all [Channel.rank]

theorem rulingKind_congr {kind kind' : OpenKind} (h : kind = .needsTriage ↔ kind' = .needsTriage) :
    kind.rulingKind = kind'.rulingKind := by
  cases kind <;> cases kind' <;> simp_all [OpenKind.rulingKind]

theorem needsTriage_iff {s : Status} {kind : OpenKind} {note : Option Text} (h : s.standing = .open kind note) :
    s.NeedsTriage ↔ kind = .needsTriage := by
  unfold Status.NeedsTriage
  rw [h]
  constructor
  · rintro ⟨note', hopen⟩
    exact (Standing.open.inj hopen).1
  · rintro rfl
    exact ⟨note, rfl⟩

theorem IsFirst.unique {a b : Channel} (ha : IsFirst statuses a) (hb : IsFirst statuses b)
    (hina : ∃ s ∈ statuses, s.channel = a) (hinb : ∃ s ∈ statuses, s.channel = b) : a = b := by
  obtain ⟨s, hs, rfl⟩ := hina
  obtain ⟨t, ht, rfl⟩ := hinb
  exact Channel.rank_injective (Nat.le_antisymm (ha t ht) (hb s hs))

theorem kind_openRuling_of_perm (h : Settled statuses held) (h' : Settled statuses' held')
    (hperm : statuses.Perm statuses') (hne : statuses ≠ []) (hopen : ∀ s ∈ statuses, s.IsOpen)
    (hsteady : ¬ Wavers statuses) : (openRuling held).kind = (openRuling held').kind := by
  obtain ⟨s, kind, note, hstanding, hhead, hfirst, hkind⟩ := h.kind_openRuling hne hopen
  obtain ⟨t, kind', note', hstanding', hhead', hfirst', hkind'⟩ := h'.kind_openRuling
    (fun hnil => hne (hnil ▸ hperm).eq_nil) fun u hu => hopen u (hperm.mem_iff.mpr hu)
  have hs := (mem_inChannel.mp (mem_of_head? hhead)).1
  have ht := hperm.mem_iff.mpr (mem_inChannel.mp (mem_of_head? hhead')).1
  have hchannel : s.channel = t.channel :=
    hfirst.unique (isFirst_of_perm hperm.symm hfirst') ⟨s, hs, rfl⟩ ⟨t, ht, rfl⟩
  rw [hkind, hkind']
  refine rulingKind_congr ?_
  rw [← needsTriage_iff hstanding, ← needsTriage_iff hstanding']
  constructor
  · intro htriage
    by_contra hnot
    exact hsteady ⟨hopen, s, hs, t, ht, hchannel, hfirst, htriage, hnot⟩
  · intro htriage
    by_contra hnot
    exact hsteady ⟨hopen, t, ht, s, hs, hchannel.symm, hchannel ▸ hfirst, htriage, hnot⟩

end Orders

end Zond.Cve
