import ZondEngine.Cve.Judge
import ZondEngine.Lib.Stutter

/-!
# One vulnerability, counted once

Only neighbours are compared when a catalogue drops the second entry for a vulnerability, and entries are sorted by
severity first. `counted_once_iff` says when every vulnerability still has one place; `counted_twice` is one that has
two.
-/

namespace Zond.Cve

open List

/-! ## Places -/

inductive Place where
  | group (verdict : Verdict)
  | count (why : Why)
  deriving DecidableEq

def Classified.place : Classified → Place
  | .withdrawn why => .count why
  | .grouped verdict _ => .group verdict

namespace Tally

def group (t : Tally) (verdict : Verdict) : List Ruled := (t.groups.get? verdict).getD []

theorem cves_add (t : Tally) (v : Vulnerability) (found : Classified) (verdict : Verdict) :
    ((t.add v found).group verdict).map Ruled.cve =
      (t.group verdict).map Ruled.cve ++ if found.place = .group verdict then [v.cve] else [] := by
  cases found with
  | withdrawn why => simp [add, group, Classified.place]
  | grouped other ruling =>
    by_cases h : verdict = other
    · subst h
      simp [add, group, Classified.place, SortedMap.get?_insert, Ruled.cve]
    · simp [add, group, Classified.place, SortedMap.get?_insert, h, Ne.symm h]

theorem withdrawn_add (t : Tally) (v : Vulnerability) (found : Classified) (why : Why) :
    (t.add v found).withdrawn.of why = t.withdrawn.of why + if found.place = .count why then 1 else 0 := by
  cases found with
  | withdrawn other => simp [add, Classified.place, Withdrawn.of_count]
  | grouped verdict ruling => simp [add, Classified.place]

variable (classify : Vulnerability → Classified)

theorem cves_foldl (verdict : Verdict) : ∀ (l : List Vulnerability) (t : Tally),
    ((l.foldl (fun t v => t.add v (classify v)) t).group verdict).map Ruled.cve =
      (t.group verdict).map Ruled.cve ++ (l.filter fun v => (classify v).place = .group verdict).map Vulnerability.cve
  | [], t => by simp
  | v :: l, t => by
    rw [foldl_cons, cves_foldl verdict l, cves_add, filter_cons, append_assoc]
    split <;> simp_all

theorem withdrawn_foldl (why : Why) : ∀ (l : List Vulnerability) (t : Tally),
    (l.foldl (fun t v => t.add v (classify v)) t).withdrawn.of why =
      t.withdrawn.of why + (l.filter fun v => (classify v).place = .count why).length
  | [], t => by simp
  | v :: l, t => by
    rw [foldl_cons, withdrawn_foldl why l, withdrawn_add, filter_cons]
    split
    · simp_all
      omega
    · simp_all

end Tally

theorem nodup_map_iff_places {α K P : Type} [DecidableEq P] (key : α → K) (place : α → P) : ∀ l : List α,
    (l.map key).Nodup ↔ (∀ x p q, x ∈ (l.filter (place · = p)).map key → x ∈ (l.filter (place · = q)).map key → p = q) ∧
        ∀ p, ((l.filter (place · = p)).map key).Nodup := by
  intro l
  constructor
  · refine fun h => ⟨?_, fun p => h.sublist (filter_sublist.map key)⟩
    simp only [mem_map, mem_filter, decide_eq_true_eq]
    rintro _ p q ⟨a, ⟨ha, rfl⟩, rfl⟩ ⟨b, ⟨hb, rfl⟩, hkey⟩
    rw [inj_on_of_nodup_map h hb ha hkey]
  · rintro ⟨hone, honce⟩
    induction l with
    | nil => exact nodup_nil
    | cons a l ih =>
      refine nodup_cons.mpr ⟨fun hmem => ?_, ih (fun x p q hp hq => hone x p q ?_ ?_) fun p => ?_⟩
      · -- another element of this key is at the same place, which then has the key twice
        obtain ⟨b, hb, hkey⟩ := mem_map.mp hmem
        obtain hplace : place b = place a := hone (key a) _ _ (mem_map.mpr ⟨b, by simp [hb], hkey⟩) (by simp)
        have htwice := honce (place a)
        rw [filter_cons_of_pos (by simp), map_cons, nodup_cons] at htwice
        exact htwice.1 (mem_map.mpr ⟨b, by simp [hb, hplace], hkey⟩)
      · exact ((sublist_cons_self a l).filter _).map key |>.subset hp
      · exact ((sublist_cons_self a l).filter _).map key |>.subset hq
      · exact (honce p).sublist (((sublist_cons_self a l).filter _).map key)

/-! ## The sort -/

namespace Vulnerability

theorem WorseFirst.antisymm {a b : Vulnerability} (h : a.WorseFirst b) (h' : b.WorseFirst a) : a.cve = b.cve := by
  rcases h with h | ⟨heq, h⟩ <;> rcases h' with h' | ⟨heq', h'⟩
  · omega
  · omega
  · omega
  · exact le_antisymm h h'

instance : Std.Total WorseFirst where
  total a b := by
    rcases lt_trichotomy a.rank b.rank with h | h | h
    · exact .inr (.inl h)
    · exact (le_total a.cve b.cve).imp (fun hle => .inr ⟨h.symm, hle⟩) fun hle => .inr ⟨h, hle⟩
    · exact .inl (.inl h)

instance : IsTrans Vulnerability WorseFirst where
  trans a b d h h' := by
    rcases h with h | ⟨heq, h⟩ <;> rcases h' with h' | ⟨heq', h'⟩
    · exact .inl (by omega)
    · exact .inl (by omega)
    · exact .inl (by omega)
    · exact .inr ⟨by omega, le_trans h h'⟩

end Vulnerability

theorem Catalogue.nodup_matched_iff (c : Catalogue) (judged : Judged) :
    ((c.matched judged).map Vulnerability.cve).Nodup ↔
      ∀ a ∈ c.matching judged, ∀ b ∈ c.matching judged, ∀ d ∈ c.matching judged, a.cve = d.cve →
        a.WorseFirst b → b.WorseFirst d → b.cve = a.cve := by
  rw [Catalogue.matched, Stutter.nodup_map_destutter_iff Vulnerability.cve (fun a => .inr ⟨rfl, le_refl _⟩)
    (fun _ _ => Vulnerability.WorseFirst.antisymm) (pairwise_insertionSort _ _)]
  simp only [mem_insertionSort]

/-! ## What a finding cites -/

theorem cves_withReference (f : Finding) (id : Text) :
    (f.withReference (.cve id)).cves = if id ∈ f.cves then f.cves else f.cves ++ [id] := by
  rw [Finding.withReference]
  simp only [← Finding.mem_cves]
  split
  · rfl
  · simp [Finding.cves]

theorem cves_citeCve (f : Finding) (id : Text) :
    (citeCve f id).cves = if isCveShaped id ∧ id ∉ f.cves then f.cves ++ [id] else f.cves := by
  rw [citeCve, Reference.ofCve]
  by_cases hshaped : isCveShaped id = true <;> by_cases hin : id ∈ f.cves <;>
    simp [hshaped, hin, cves_withReference]

theorem cves_foldl_citeCve : ∀ (ids : List Text) (f : Finding), ids.Nodup → (∀ id ∈ ids, id ∉ f.cves) →
    (ids.foldl citeCve f).cves = f.cves ++ ids.filter isCveShaped
  | [], f, _, _ => by simp
  | id :: ids, f, hnodup, hnew => by
    obtain ⟨hid, hids⟩ := nodup_cons.mp hnodup
    have hrest : ∀ other ∈ ids, other ∉ (citeCve f id).cves := by
      intro other hother
      rw [cves_citeCve]
      split
      · simp only [mem_append, mem_singleton, not_or]
        exact ⟨hnew other (.tail _ hother), fun heq => hid (heq ▸ hother)⟩
      · exact hnew other (.tail _ hother)
    rw [foldl_cons, cves_foldl_citeCve ids _ hids hrest, cves_citeCve]
    by_cases hshaped : isCveShaped id = true <;> simp [hshaped, hnew id mem_cons_self]

theorem perm_citing (exploitation : Option Exploitation) (cves : List Text) : (citing exploitation cves).Perm cves :=
  filter_append_perm _ _

theorem view_elim {α β : Type} (view : Finding → β) (change : Finding → α → Finding)
    (h : ∀ f a, view (change f a) = view f) (value : Option α) (f : Finding) :
    view (value.elim f (change f)) = view f := by
  cases value with
  | none => rfl
  | some a => exact h f a

theorem cves_advise (f : Finding) (only : Option Vulnerability) (remediation : Option Text) :
    (advise f only remediation).cves = f.cves := by
  rw [advise, view_elim Finding.cves Finding.withRemediation fun _ _ => rfl]
  refine view_elim Finding.cves (fun f cwe => f.withReference (.cwe cwe)) (fun f cwe => ?_) _ f
  rw [Finding.withReference]
  split
  · rfl
  · simp [Finding.cves]

theorem Catalogue.finding_eq {c : Catalogue} {overlay : Overlay} {exploited : Option KnownExploited}
    {context : Context} {verdict : Verdict} {entries : List Ruled} {note : Option Text} {f : Finding}
    (h : c.finding overlay exploited context verdict entries note = some f) :
    ∃ start exploitation only advice, Port.drawnBy c.id start = true ∧ start.cves = [] ∧
      f = advise (Option.elim exploitation ((citing exploitation (entries.map Ruled.cve)).foldl citeCve start)
        ((citing exploitation (entries.map Ruled.cve)).foldl citeCve start).withExploitation) only advice := by
  simp only [Catalogue.finding, Option.bind_eq_bind, Option.bind_eq_some_iff] at h
  obtain ⟨worst, -, severity, -, detection, hdetection, wording, -, made, hmade, hf⟩ := h
  unfold DetectionId.new at hdetection
  unfold Finding.new at hmade
  split at hdetection
  · cases hdetection
  split at hmade
  · cases hmade
  cases hdetection
  cases hmade
  refine ⟨_, _, _, _, ?_, ?_, (Option.some.inj hf).symm⟩
  · rw [view_elim (Port.drawnBy c.id) Finding.withAdvisedBy fun _ _ => rfl,
      view_elim (Port.drawnBy c.id) Finding.withBuild fun _ _ => rfl]
    exact Bool.and_eq_true_iff.mpr ⟨rfl, beq_self_eq_true _⟩
  · rw [view_elim Finding.cves Finding.withAdvisedBy fun _ _ => rfl,
      view_elim Finding.cves Finding.withBuild fun _ _ => rfl]
    rfl

/-- **A group of different identifiers is cited in full, but for those that are not shaped like one.** -/
theorem Catalogue.perm_cves_finding {c : Catalogue} {overlay : Overlay} {exploited : Option KnownExploited}
    {context : Context} {verdict : Verdict} {entries : List Ruled} {note : Option Text} {f : Finding}
    (hnodup : (entries.map Ruled.cve).Nodup) (h : c.finding overlay exploited context verdict entries note = some f) :
    f.cves.Perm ((entries.map Ruled.cve).filter isCveShaped) := by
  obtain ⟨start, exploitation, only, advice, -, hnone, rfl⟩ := Catalogue.finding_eq h
  rw [cves_advise, view_elim Finding.cves Finding.withExploitation fun _ _ => rfl,
    cves_foldl_citeCve _ _ ((perm_citing _ _).nodup_iff.mpr hnodup) (by simp [hnone]), hnone]
  exact (perm_citing _ _).filter _

/-! ## Counted once -/

section

variable (assets : Assets) (c : Catalogue) (judged : Judged) (advisories : List Dataset)
  (exploited : Option KnownExploited)

def Catalogue.placedAt (place : Place) : List Text :=
  ((c.matched judged).filter fun v => (c.classify assets judged advisories v).place = place).map Vulnerability.cve

/-- Each identifier is at one place and once there, and a finding has as many identifiers as its group has entries. -/
structure CountedOnce : Prop where
  one : ∀ cve place place', cve ∈ c.placedAt assets judged advisories place →
    cve ∈ c.placedAt assets judged advisories place' → place = place'
  once : ∀ place, (c.placedAt assets judged advisories place).Nodup
  agree : ∀ d ∈ c.drawn assets judged advisories exploited, d.2.cves.dedup.length = d.1.length

theorem Catalogue.cves_group (verdict : Verdict) : ((c.tally assets judged advisories).group verdict).map Ruled.cve =
      c.placedAt assets judged advisories (.group verdict) := by
  rw [Catalogue.tally, Tally.cves_foldl]
  rfl

theorem Catalogue.of_mem_drawn {d : List Ruled × Finding} (h : d ∈ c.drawn assets judged advisories exploited) :
    ∃ verdict note, d.1 = (c.tally assets judged advisories).group verdict ∧
      c.finding assets.overlay exploited (c.context assets judged advisories) verdict d.1 note = some d.2 := by
  obtain ⟨⟨group, note⟩, hgroup, hd⟩ := mem_filterMap.mp h
  obtain ⟨f, hf, rfl⟩ := Option.map_eq_some_iff.mp hd
  have hmem : group ∈ (c.tally assets judged advisories).groups.entries := by
    generalize (c.tally assets judged advisories).groups.entries = groups at hgroup
    cases groups with
    | nil => cases hgroup
    | cons first rest =>
      rcases mem_cons.mp hgroup with heq | hrest
      · cases heq
        exact mem_cons_self
      · obtain ⟨later, hlater, heq⟩ := mem_map.mp hrest
        cases heq
        exact .tail _ hlater
  refine ⟨group.1, note, ?_, hf⟩
  rw [Tally.group, SortedMap.get?_eq_some_iff.mpr hmem]
  rfl

theorem countedOnce_iff : CountedOnce assets c judged advisories exploited ↔
    ((c.matched judged).map Vulnerability.cve).Nodup ∧
      ∀ d ∈ c.drawn assets judged advisories exploited, ∀ r ∈ d.1, isCveShaped r.cve = true := by
  have hplaces := nodup_map_iff_places Vulnerability.cve
    (fun v => (c.classify assets judged advisories v).place) (c.matched judged)
  -- where each identifier is placed once, the count of a finding is right when it can cite its whole group
  have hagree (hnodup : ((c.matched judged).map Vulnerability.cve).Nodup) {d : List Ruled × Finding}
      (hd : d ∈ c.drawn assets judged advisories exploited) :
      d.2.cves.dedup.length = d.1.length ↔ ∀ r ∈ d.1, isCveShaped r.cve = true := by
    obtain ⟨verdict, note, hgroup, hfinding⟩ := c.of_mem_drawn assets judged advisories exploited hd
    have hentries : (d.1.map Ruled.cve).Nodup := by
      rw [hgroup, c.cves_group]
      exact (hplaces.mp hnodup).2 _
    have hperm := Catalogue.perm_cves_finding hentries hfinding
    have hlength : (d.1.map Ruled.cve).length = d.1.length := length_map _
    rw [dedup_eq_self.mpr (hperm.nodup_iff.mpr (hentries.filter _)), hperm.length_eq, ← hlength,
      length_filter_eq_length_iff]
    simp
  constructor
  · intro h
    have hnodup := hplaces.mpr ⟨h.one, h.once⟩
    exact ⟨hnodup, fun d hd => (hagree hnodup hd).mp (h.agree d hd)⟩
  · rintro ⟨hnodup, hshaped⟩
    exact ⟨(hplaces.mp hnodup).1, (hplaces.mp hnodup).2, fun d hd => (hagree hnodup hd).mpr (hshaped d hd)⟩

/-- **Each vulnerability of a judgement is counted once exactly when no entry for another sorts
between two for one and every finding's group holds well shaped identifiers only.** -/
theorem counted_once_iff : (∀ verdict, ((c.tally assets judged advisories).group verdict).map Ruled.cve =
        c.placedAt assets judged advisories (.group verdict)) ∧
      (∀ why, (c.judge assets judged advisories exploited).withdrawn.of why =
        (c.placedAt assets judged advisories (.count why)).length) ∧ (CountedOnce assets c judged advisories exploited ↔
        (∀ a ∈ c.matching judged, ∀ b ∈ c.matching judged, ∀ d ∈ c.matching judged, a.cve = d.cve →
          a.WorseFirst b → b.WorseFirst d → b.cve = a.cve) ∧
        ∀ d ∈ c.drawn assets judged advisories exploited, ∀ r ∈ d.1, isCveShaped r.cve = true) := by
  refine ⟨c.cves_group assets judged advisories, fun why => ?_, ?_⟩
  · rw [Catalogue.judge, Catalogue.tally, Tally.withdrawn_foldl, Catalogue.placedAt, length_map]
    cases why <;> exact Nat.zero_add _
  · rw [countedOnce_iff, c.nodup_matched_iff]

theorem Catalogue.exists_matching_of_drawn {d : List Ruled × Finding}
    (hd : d ∈ c.drawn assets judged advisories exploited) {r : Ruled} (hr : r ∈ d.1) :
    ∃ v ∈ c.matching judged, v.cve = r.cve := by
  obtain ⟨verdict, -, hgroup, -⟩ := c.of_mem_drawn assets judged advisories exploited hd
  have hcve : r.cve ∈ c.placedAt assets judged advisories (.group verdict) := by
    rw [← c.cves_group, ← hgroup]
    exact mem_map_of_mem hr
  obtain ⟨v, hv, heq⟩ := mem_map.mp hcve
  have hmatched := (destutter_sublist _ _).subset (mem_of_mem_filter hv)
  exact ⟨v, (mem_insertionSort _).mp hmatched, heq⟩

/-- Where every matching identifier is shaped like one, only the order of the matching entries decides. -/
theorem countedOnce_iff_of_cveShaped (hshaped : ∀ v ∈ c.matching judged, isCveShaped v.cve = true) :
    CountedOnce assets c judged advisories exploited ↔
      ∀ a ∈ c.matching judged, ∀ b ∈ c.matching judged, ∀ d ∈ c.matching judged, a.cve = d.cve →
        a.WorseFirst b → b.WorseFirst d → b.cve = a.cve := by
  rw [countedOnce_iff, c.nodup_matched_iff, and_iff_left]
  intro d hd r hr
  obtain ⟨v, hv, heq⟩ := c.exists_matching_of_drawn assets judged advisories exploited hd hr
  exact heq ▸ hshaped v hv

end

/-- Two vulnerabilities of OpenSSH, each stated twice with two severities. -/
def interleaved : List Vulnerability :=
  [⟨"CVE-2024-6387", "regreSSHion", "critical", "openbsd", "openssh", "< 9.8", some 362, none⟩,
    ⟨"CVE-2023-38408", "ssh-agent loads any library", "high", "OpenBSD", "openssh", "< 9.3", some 428, none⟩,
    ⟨"CVE-2024-6387", "regreSSHion", "medium", "openbsd", "openssh", "< 9.8", some 362, none⟩,
    ⟨"CVE-2023-38408", "ssh-agent loads any library", "low", "openbsd", "openssh", "< 9.3", some 428, none⟩]

/-- What the shipped map and overlay say about these two. -/
def ofOpenssh : Assets where
  packages := ⟨SortedMap.empty.insert "openbsd:openssh" ⟨some (.always "openssh"), some (.always "openssh")⟩⟩
  overlay := (SortedMap.empty.insert "CVE-2023-38408".toList [("openbsd:openssh".toList, .client)]).insert
    "CVE-2024-6387" [("openbsd:openssh", .service)]

def openssh92 : Judged :=
  ⟨"cpe:/a:openbsd:openssh:9.2", ⟨"openbsd", "openssh", "9.2"⟩, some "OpenSSH", none, none⟩

theorem interleaved_fits : (internAll interleaved).2.length ≤ 2 ^ 32 := by decide +kernel

def doubled : Catalogue := .ofDocument ['c'] ⟨0, 0, 0⟩ [] interleaved interleaved_fits

theorem views_doubled : doubled.views = interleaved := Catalogue.views_ofDocument _ _ _ interleaved_fits

theorem counted_twice :
    (doubled.drawn ofOpenssh openssh92 [] none).map (fun d => (d.1.length, d.2.title, d.2.cves)) =
        [(3, "OpenSSH 9.2 has 3 known vulnerabilities".toList,
          ["CVE-2024-6387".toList, "CVE-2023-38408".toList])] ∧
      (doubled.judge ofOpenssh openssh92 [] none).withdrawn = ⟨0, 0, 1⟩ ∧
      "CVE-2023-38408".toList ∈ doubled.placedAt ofOpenssh openssh92 [] (.count .elsewhere) ∧
      ¬ CountedOnce ofOpenssh doubled openssh92 [] none := by
  refine ⟨by decide +kernel, by decide +kernel, by decide +kernel, fun h => ?_⟩
  exact absurd (h.once (.group .affected)) (by decide +kernel)

end Zond.Cve
