import ZondEngine.Model.Tls

/-!
# Folding two enumerations

A record is read here as what it lists for each version, and a fold as what it takes for each (`entry_merge`).

* `merge_again_iff`: folding a record in again changes nothing, except where the first fold left no version at all.
-/

namespace Zond

open List

namespace TlsSupport

section Lists

variable {α : Type} {version : α → TlsVersion}

theorem find?_placeVersion (entry : α) (v : TlsVersion) (held : List α) :
    (placeVersion version entry held).find? (fun other => version other == v) =
      if version entry = v then some entry else held.find? fun other => version other == v := by
  rw [placeVersion_eq_put, Ranked.find?_put]

theorem find?_foldl_placeVersion (v : TlsVersion) : ∀ {entries : List α} {held : List α},
    (entries.Pairwise fun a b => version a < version b) →
    (entries.foldl (fun held entry => placeVersion version entry held) held).find? (fun other => version other == v) =
      (entries.find? fun other => version other == v).or (held.find? fun other => version other == v)
  | [], _, _ => rfl
  | first :: rest, held, hentries => by
    obtain ⟨hfirst, hrest⟩ := pairwise_cons.mp hentries
    rw [foldl_cons, find?_foldl_placeVersion v hrest, find?_placeVersion, Ranked.find?_cons_rank]
    split
    next heq =>
      have hnone : rest.find? (fun other => version other == v) = none :=
        find?_eq_none.mpr fun other hother hv => (hfirst other hother).ne (heq.trans (beq_iff_eq.mp hv).symm)
      rw [hnone, Option.none_or, Option.some_or]
    · rfl

theorem find?_filter_version (v : TlsVersion) (q : TlsVersion → Bool) : ∀ entries : List α,
    (entries.filter fun held => q (version held)).find? (fun other => version other == v) =
      if q v = true then entries.find? fun other => version other == v else none
  | [] => (ite_self _).symm
  | first :: rest => by
    rw [filter_cons, Ranked.find?_cons_rank]
    by_cases hq : q (version first) = true
    · rw [if_pos hq, Ranked.find?_cons_rank, find?_filter_version v q rest]
      split
      next heq => rw [if_pos (heq ▸ hq)]
      · rfl
    · rw [if_neg hq, find?_filter_version v q rest]
      split
      next hv =>
        have hne : ¬version first = v := fun heq => hq (by rw [heq]; exact hv)
        rw [if_neg hne]
      · rfl

theorem find?_takeOver (v : TlsVersion) (taken : List TlsVersion) {theirs ours : List α}
    (htheirs : theirs.Pairwise fun a b => version a < version b) :
    ((theirs.filter fun held => version held ∈ taken).foldl (fun held entry => placeVersion version entry held)
      (ours.filter fun held => version held ∉ taken)).find? (fun other => version other == v) =
      if v ∈ taken then theirs.find? (fun other => version other == v)
      else ours.find? fun other => version other == v := by
  rw [find?_foldl_placeVersion v (htheirs.sublist filter_sublist),
    find?_filter_version v (fun other => decide (other ∈ taken)),
    find?_filter_version v (fun other => decide (other ∉ taken))]
  by_cases hv : v ∈ taken <;> simp [hv]

end Lists

/-! ## What a record lists for a version -/

def entry (t : TlsSupport) (v : TlsVersion) : Option VersionSupport × Option UnfinishedVersion :=
  (t.versions.find? fun held => held.version == v, t.unfinished.find? fun held => held.version == v)

section Entries

variable {t other : TlsSupport} {v : TlsVersion}

theorem mem_named_iff : v ∈ t.named ↔ t.entry v ≠ (none, none) := by
  unfold named entry
  rw [mem_append, mem_map, mem_map, Ne, Prod.mk.injEq, find?_eq_none, find?_eq_none, not_and_or]
  push Not
  simp only [beq_iff_eq]

theorem isEmpty_iff : t.isEmpty = true ↔ ∀ v, t.entry v = (none, none) := by
  unfold isEmpty
  rw [Bool.and_eq_true, List.isEmpty_iff, List.isEmpty_iff]
  constructor
  · rintro ⟨hversions, hunfinished⟩ v
    unfold entry
    rw [hversions, hunfinished]
    rfl
  · intro hnone
    have hnamed : t.named = [] := eq_nil_iff_forall_not_mem.mpr fun v hv => mem_named_iff.mp hv (hnone v)
    obtain ⟨hversions, hunfinished⟩ := append_eq_nil_iff.mp hnamed
    exact ⟨map_eq_nil_iff.mp hversions, map_eq_nil_iff.mp hunfinished⟩

theorem account_eq : t.account v = ⟨(t.entry v).2.isNone, ((t.entry v).1.elim ∅ fun held =>
    (held.suites.map CipherSuite.code ++ held.unrecognised).toFinset)⟩ := by
  have hany : (t.unfinished.any fun held => held.version == v) =
      (t.unfinished.find? fun held => held.version == v).isSome := by
    rw [Bool.eq_iff_iff, any_eq_true, find?_isSome]
  unfold account entry
  rw [hany, Option.not_isSome]
  cases t.versions.find? fun held => held.version == v <;> rfl

theorem account_congr (h : t.entry v = other.entry v) : t.account v = other.account v := by
  rw [account_eq, account_eq, h]

theorem account_of_not_named (h : v ∉ t.named) : t.account v = ⟨true, ∅⟩ := by
  rw [account_eq, not_not.mp (mt mem_named_iff.mpr h)]
  rfl

end Entries


section Fold

variable {t other : TlsSupport}

theorem supersedes_self (a : Account) : a.supersedes a = false := by
  unfold Account.supersedes
  cases a.finished <;> simp

theorem supersedes_of_finished {a standing : Account} (h : standing.finished = true) :
    a.supersedes standing = false := by
  unfold Account.supersedes
  rw [h]
  cases a.finished <;> rfl

theorem refusal_supersedes_iff {standing : Account} :
    (⟨true, ∅⟩ : Account).supersedes standing = true ↔ standing.finished = false ∧ standing.found = ∅ := by
  unfold Account.supersedes
  cases standing.finished <;> simp

def taken (t other : TlsSupport) : List TlsVersion :=
  (t.named ++ other.named).filter fun version => (other.account version).supersedes (t.account version)

theorem mem_taken_iff {v : TlsVersion} : v ∈ taken t other ↔ (other.account v).supersedes (t.account v) = true := by
  unfold taken
  rw [mem_filter, and_iff_right_iff_imp]
  intro hsupersedes
  -- A version the record lists nowhere it refused, and a refusal is never replaced.
  by_contra hnot
  have hrefused := account_of_not_named (t := t) fun hv => hnot (mem_append_left _ hv)
  rw [supersedes_of_finished (congrArg Account.finished hrefused)] at hsupersedes
  exact Bool.false_ne_true hsupersedes

/-- **A fold takes a version whole from one record or whole from the other.** -/
theorem entry_merge (ht : t.isEmpty = false) (hother : other.isEmpty = false) (v : TlsVersion) :
    (t.merge other).entry v = if v ∈ taken t other then other.entry v else t.entry v := by
  unfold merge entry
  rw [if_neg (by simp [hother]), if_neg (by simp [ht])]
  rw [(fields_foldl_recordUnfinished _ _).1, (fields_foldl_recordUnfinished _ _).2, (fields_foldl_record _ _).1,
    (fields_foldl_record _ _).2]
  rw [show (t.named ++ other.named).filter (fun version => (other.account version).supersedes (t.account version)) =
    taken t other from rfl]
  unfold without
  dsimp only
  rw [find?_takeOver v (taken t other) other.versions_ascending,
    find?_takeOver v (taken t other) other.unfinished_ascending]
  split <;> rfl

theorem merge_of_isEmpty_right (hother : other.isEmpty = true) : t.merge other = t := if_pos hother

theorem merge_of_isEmpty_left (ht : t.isEmpty = true) (hother : other.isEmpty = false) : t.merge other = other := by
  unfold merge
  rw [if_neg (by simp [hother]), if_pos ht]

theorem merge_of_taken_nil (ht : t.isEmpty = false) (htaken : taken t other = []) : t.merge other = t := by
  unfold merge
  split
  · rfl
  · rw [if_neg (by simp [ht])]
    rw [show (t.named ++ other.named).filter (fun version => (other.account version).supersedes (t.account version)) =
      taken t other from rfl, htaken]
    simp [without]

theorem merge_self (t : TlsSupport) : t.merge t = t := by
  cases ht : t.isEmpty with
  | true => exact merge_of_isEmpty_right ht
  | false =>
    refine merge_of_taken_nil ht (eq_nil_iff_forall_not_mem.mpr fun v hv => ?_)
    rw [mem_taken_iff, supersedes_self] at hv
    exact Bool.false_ne_true hv

/-- Every version of a record was cut short before anything was found, and the other lists none of them. -/
structure Withdrawn (t other : TlsSupport) : Prop where
  nonempty : t.isEmpty = false
  other_nonempty : other.isEmpty = false
  unsettled : ∀ v ∈ t.named, (t.account v).finished = false ∧ (t.account v).found = ∅ ∧ v ∉ other.named

theorem isEmpty_merge_iff (ht : t.isEmpty = false) (hother : other.isEmpty = false) :
    (t.merge other).isEmpty = true ↔ Withdrawn t other := by
  rw [isEmpty_iff]
  constructor
  · intro hnone
    refine ⟨ht, hother, fun v hv => ?_⟩
    have hentry := hnone v
    rw [entry_merge ht hother] at hentry
    split at hentry
    next htaken =>
      have hrefused : v ∉ other.named := fun hv => mem_named_iff.mp hv hentry
      rw [mem_taken_iff, account_of_not_named hrefused, refusal_supersedes_iff] at htaken
      exact ⟨htaken.1, htaken.2, hrefused⟩
    · exact absurd hentry (mem_named_iff.mp hv)
  · intro hwithdrawn v
    rw [entry_merge ht hother]
    by_cases hv : v ∈ t.named
    · obtain ⟨hfinished, hfound, hrefused⟩ := hwithdrawn.unsettled v hv
      rw [if_pos, not_not.mp (mt mem_named_iff.mpr hrefused)]
      rw [mem_taken_iff, account_of_not_named hrefused, refusal_supersedes_iff]
      exact ⟨hfinished, hfound⟩
    · have hkept : v ∉ taken t other := by
        rw [mem_taken_iff, supersedes_of_finished (congrArg Account.finished (account_of_not_named hv))]
        exact Bool.false_ne_true
      rw [if_neg hkept, not_not.mp (mt mem_named_iff.mpr hv)]

theorem merge_merge_of_nonempty (ht : t.isEmpty = false) (hother : other.isEmpty = false)
    (hmerged : (t.merge other).isEmpty = false) : (t.merge other).merge other = t.merge other := by
  refine merge_of_taken_nil hmerged (eq_nil_iff_forall_not_mem.mpr fun v hv => ?_)
  rw [mem_taken_iff] at hv
  have hentry := entry_merge ht hother v
  split at hentry
  · rw [account_congr hentry, supersedes_self] at hv
    exact Bool.false_ne_true hv
  next hkept => exact hkept (mem_taken_iff.mpr (account_congr hentry ▸ hv))

theorem merge_merge_iff : (t.merge other).merge other = t.merge other ↔ ¬Withdrawn t other := by
  cases hother : other.isEmpty with
  | true =>
    refine iff_of_true (merge_of_isEmpty_right hother) fun h => ?_
    exact Bool.false_ne_true (h.other_nonempty.symm.trans hother)
  | false =>
    cases ht : t.isEmpty with
    | true =>
      rw [merge_of_isEmpty_left ht hother]
      exact iff_of_true (merge_self other) fun h => Bool.false_ne_true (h.nonempty.symm.trans ht)
    | false =>
      rw [← isEmpty_merge_iff ht hother, Bool.not_eq_true]
      constructor
      · intro hsame
        by_contra hempty
        rw [merge_of_isEmpty_left (Bool.not_eq_false _ ▸ hempty) hother] at hsame
        rw [← hsame] at hempty
        exact hempty hother
      · exact merge_merge_of_nonempty ht hother

/-- **Folding an enumeration in twice is as once, into itself is nothing, and every version is
whole one record's, exactly where the fold does not withdraw everything the record listed.** -/
theorem merge_again_iff (a b : TlsSupport) : ((a.merge b).merge b = a.merge b ∧ a.merge a = a ∧
      (∀ v, (a.merge b).entry v = a.entry v ∨ (a.merge b).entry v = b.entry v) ∧
      ((a.merge b).versions.Pairwise fun x y => x.version < y.version) ∧
      (a.merge b).unfinished.Pairwise fun x y => x.version < y.version) ↔ ¬Withdrawn a b := by
  refine ⟨fun h => merge_merge_iff.mp h.1, fun h => ⟨merge_merge_iff.mpr h, merge_self a, fun v => ?_,
    (a.merge b).versions_ascending, (a.merge b).unfinished_ascending⟩⟩
  cases hb : b.isEmpty with
  | true =>
    rw [merge_of_isEmpty_right hb]
    exact .inl rfl
  | false =>
    cases ha : a.isEmpty with
    | true =>
      rw [merge_of_isEmpty_left ha hb]
      exact .inr rfl
    | false =>
      rw [entry_merge ha hb]
      split
      · exact .inr rfl
      · exact .inl rfl

def unanswered12 : TlsSupport := new.recordUnfinished ⟨.tls12, .unanswered⟩

def only13 : TlsSupport := new.record ⟨.tls13, [], [0x1301]⟩

/-- The endpoint refused TLS 1.2: the fold leaves nothing, and made again reads as an endpoint nobody asked. -/
theorem merge_again_withdrawn : unanswered12.merge only13 = new ∧ (unanswered12.merge only13).merge only13 = only13 ∧
    (unanswered12.merge only13).merge only13 ≠ unanswered12.merge only13 := by
  decide

end Fold

end TlsSupport

end Zond
