import ZondEngine.Model.Ip.Positions

/-!
# Reading positions

`addressAt_eq` and `iter_rangesIn`: both reads from positions agree with the enumeration of the set.
`spanHolding_eq_some_iff`: an address has a position when exactly one *numbered* range holds it, and
`positions_exact_iff` says for which sets that is right.
-/

namespace Zond.Ip

open Zond.Ranges Zond.Tiling List IpRange

namespace Positions

variable {p : Positions} {last : Option (Bool × Zone)}

section Addresses

variable (h : Numbered p last)

include h

theorem Numbered.items_len : ∀ span ∈ p.spans, span.range.iter.length = span.len := by
  intro span hspan
  rw [length_iter, h.len_eq span hspan]

theorem Numbered.length_flatMap : (p.spans.flatMap (·.range.iter)).length = p.total := by
  have := h.tiles.length_flatMap h.items_len
  omega

theorem Numbered.spanAt_eq {position : Nat} (hp : position < p.total) :
    ∃ i span, p.spanAt position = some i ∧ p.spans[i]? = some span ∧ Holds Span.start Span.len position span := by
  obtain ⟨i, span, hr, hi, hold⟩ := h.tiles.search (Nat.zero_le position) hp
  refine ⟨i, span, ?_, hi, hold⟩
  rw [spanAt, if_neg (Nat.not_le.mpr hp), hr]
  rfl

theorem Numbered.addressAt_eq (position : Nat) :
    p.addressAt position = (p.spans.flatMap (·.range.iter))[position]? := by
  rcases Nat.lt_or_ge position p.total with hp | hp
  · obtain ⟨i, span, hi, hspan, hold⟩ := h.spanAt_eq hp
    have hget := h.tiles.getElem?_flatMap h.items_len (mem_of_getElem? hspan) hold
    rw [Nat.sub_zero] at hget
    simp only [addressAt, hi, hspan, Option.bind_eq_bind, Option.bind_some, addressWithin_eq, hget]
  · rw [getElem?_eq_none (by rw [h.length_flatMap]; exact hp), addressAt, spanAt, if_pos hp]
    rfl

end Addresses

theorem iter_slicesOf {start stop : Nat} (hlt : start < stop) : ∀ {spans : List Span} {a b : Nat},
    Tiles Span.start Span.len a spans b → (∀ span ∈ spans, span.len = span.range.size) →
    (∀ span ∈ spans, start < span.start + span.len) →
    (slicesOf start stop spans).flatMap IpRange.iter =
      spans.flatMap fun span => (span.range.iter.take (stop - span.start)).drop (start - span.start)
  | [], _, _, _, _, _ => rfl
  | span :: rest, a, b, htile, hlen, hpast => by
    obtain ⟨hstart, hpos, hrest⟩ := Tiles.cons_iff.mp htile
    have hspan := hlen span (by simp)
    have hspast := hpast span (by simp)
    rw [slicesOf, flatMap_cons]
    split
    · rename_i hstop
      -- Nothing of this span, nor of those after it, is below the end.
      have hzero : ∀ span' ∈ rest, (span'.range.iter.take (stop - span'.start)).drop (start - span'.start) = [] := by
        intro span' hspan'
        have := (hrest.mem hspan').1
        rw [show stop - span'.start = 0 by omega, take_zero, drop_nil]
      rw [flatMap_eq_nil_iff.mpr hzero, show stop - span.start = 0 by omega, take_zero, drop_nil]
      rfl
    · rename_i hstop
      rw [flatMap_append, iter_slicesOf hlt hrest (fun s hs => hlen s (mem_cons_of_mem span hs))
        (fun s hs => hpast s (mem_cons_of_mem span hs)), iter_sliceOf (by omega) (by omega)]
      congr 2
      rcases Nat.le_total (stop - span.start) span.len with hle | hle
      · rw [Nat.min_eq_left hle, Nat.sub_add_cancel (by omega)]
      · rw [Nat.min_eq_right hle, Nat.sub_add_cancel hpos, take_of_length_le, take_of_length_le]
        · rw [length_iter]; omega
        · rw [length_iter]; omega

/-- **The ranges of a span of positions hold its addresses, in their order.** -/
theorem Numbered.iter_rangesIn (h : Numbered p last) (start stop : Nat) :
    (p.rangesIn start stop).flatMap IpRange.iter = ((p.spans.flatMap (·.range.iter)).take stop).drop start := by
  have hlength := h.length_flatMap
  simp only [rangesIn]
  split
  · rename_i hle
    rw [drop_eq_nil_of_le]
    · rfl
    · rw [length_take, hlength]
      exact hle
  · rename_i hlt
    rw [Nat.not_le] at hlt
    obtain ⟨i, span, hspanAt, hi, hold⟩ := h.spanAt_eq (hlt.trans_le (Nat.min_le_right _ _))
    obtain ⟨hafter, hpast, hbefore⟩ := h.tiles.around hi hold
    -- The spans before the one that holds `start` have nothing from there on.
    have hnil : ∀ before ∈ p.spans.take i,
        (before.range.iter.take (min stop p.total - before.start)).drop (start - before.start) = [] := by
      intro before hmem
      have hend := hbefore before hmem
      have hlen := h.items_len before (mem_of_mem_take hmem)
      apply drop_eq_nil_of_le
      rw [length_take, hlen]
      omega
    have hslice := h.tiles.flatMap_slice h.items_len start (min stop p.total)
    rw [← take_append_drop i p.spans, flatMap_append, flatMap_eq_nil_iff.mpr hnil, nil_append,
      take_append_drop, Nat.sub_zero, Nat.sub_zero] at hslice
    rw [hspanAt]
    rw [iter_slicesOf hlt hafter (fun s hs => h.len_eq s (mem_of_mem_drop hs)) hpast, hslice]
    congr 1
    rcases Nat.le_total stop p.total with hle | hle
    · rw [Nat.min_eq_left hle]
    · rw [Nat.min_eq_right hle, take_of_length_le hlength.le, take_of_length_le (hlength.le.trans hle)]

/-! ## From addresses to positions -/

theorem holdCompare_eq (key : Nat) (span : Span) : holdCompare key span = compareTo key span.range := by
  have := lo_le_hi span.range
  unfold holdCompare compareTo
  split
  · rw [if_neg (by omega)]
  · rfl

def groupOf (here : Bool × Zone) : Nat := if here.1 then zoneKey here.2 + 1 else 0

theorem group_eq (r : IpRange) : group r = groupOf r.here := by
  cases r with
  | v4 r => rfl
  | v6 r => rfl

theorem mem_spansOf {run : Run} {span : Span} :
    span ∈ p.spansOf run ↔ ∃ i, run.first ≤ i ∧ i < run.past ∧ p.spans[i]? = some span := mem_slice_iff

section Find

variable (h : Numbered p last) (hc : Canonical (p.spans.map (·.range)))

theorem span_unique (hc : Canonical (p.spans.map (·.range))) {key : Nat} {a b : Span} (ha : a ∈ p.spans)
    (hb : b ∈ p.spans) (hg : group a.range = group b.range) (hka : lo a.range ≤ key ∧ key ≤ hi a.range)
    (hkb : lo b.range ≤ key ∧ key ≤ hi b.range) : a = b := by
  by_contra hne
  have : Std.Symm fun a b : Span => Apart a.range b.range ∨ Apart b.range a.range := ⟨fun _ _ => Or.symm⟩
  have hpairs : p.spans.Pairwise fun a b => Apart a.range b.range ∨ Apart b.range a.range :=
    (pairwise_map.mp hc).imp Or.inl
  have hapart := hpairs.forall ha hb hne
  unfold Apart at hapart
  omega

include h in
theorem Numbered.exists_run {span : Span} (hspan : span ∈ p.spans) : ∃ run ∈ p.runs, span ∈ p.spansOf run := by
  obtain ⟨i, hi⟩ := List.mem_iff_getElem?.mp hspan
  obtain ⟨hilt, -⟩ := List.getElem?_eq_some_iff.mp hi
  obtain ⟨run, hrun, hold₁, hold₂⟩ := h.runs_tile.exists_holds (Nat.zero_le i) hilt
  replace hold₂ : i < run.first + (run.past - run.first) := hold₂
  exact ⟨run, hrun, mem_spansOf.mpr ⟨i, hold₁, by omega, hi⟩⟩

include h hc

theorem Numbered.ascending_run {run : Run} (hrun : run ∈ p.runs) (key : Nat) :
    Bisect.Ascending (holdCompare key) (p.spansOf run) := by
  obtain ⟨z, hz⟩ := h.runs_here run hrun
  have hsub : (p.spansOf run).Sublist p.spans := (take_sublist _ _).trans (drop_sublist _ _)
  have hone : OneGroup ((p.spansOf run).map (·.range)) (groupOf (run.v6, z)) := by
    intro r hr
    obtain ⟨span, hspan, rfl⟩ := mem_map.mp hr
    rw [group_eq, hz span hspan]
  have hasc := ascending_compareTo (List.Pairwise.sublist (hsub.map _) hc) hone key
  have := pairwise_map.mp hasc
  simpa only [Bisect.Ascending, holdCompare_eq] using this

theorem Numbered.searchRun_iff {run : Run} (hrun : run ∈ p.runs) {key : Nat} {span : Span} :
    p.searchRun key run = some span ↔ span ∈ p.spansOf run ∧ lo span.range ≤ key ∧ key ≤ hi span.range := by
  have hasc := h.ascending_run hc hrun key
  obtain ⟨z, hz⟩ := h.runs_here run hrun
  have hsound : ∀ i, Bisect.binarySearchBy (holdCompare key) (p.spansOf run) = .ok i →
      ∃ found, (p.spansOf run)[i]? = some found ∧ lo found.range ≤ key ∧ key ≤ hi found.range := by
    intro i hi
    obtain ⟨found, hfound, heq⟩ := Bisect.binarySearchBy_ok hi
    rw [holdCompare_eq, compareTo_eq_iff] at heq
    exact ⟨found, hfound, heq⟩
  unfold searchRun
  constructor
  · intro hs
    split at hs
    · rename_i i hi
      obtain ⟨found, hfound, hin⟩ := hsound i hi
      rw [hfound] at hs
      cases hs
      exact ⟨mem_of_getElem? hfound, hin⟩
    · cases hs
  · intro ⟨hspan, hin⟩
    have hok : Bisect.isOk (Bisect.binarySearchBy (holdCompare key) (p.spansOf run)) = true := by
      apply (Bisect.binarySearchBy_isOk_iff hasc).mpr
      exact ⟨span, hspan, by rw [holdCompare_eq]; exact compareTo_eq_iff.mpr hin⟩
    split
    · rename_i i hi
      obtain ⟨found, hfound, hin'⟩ := hsound i hi
      have hmem := mem_of_getElem? hfound
      have hmem' : ∀ s ∈ p.spansOf run, s ∈ p.spans := fun s hs =>
        mem_of_mem_drop (mem_of_mem_take hs)
      rw [hfound, span_unique hc (hmem' _ hmem) (hmem' _ hspan)
        (by rw [group_eq, group_eq, hz _ hmem, hz _ hspan]) hin' hin]
    · rename_i i hi
      rw [hi] at hok
      cases hok

theorem Numbered.mem_hits (ip : IpAddr) (span : Span) :
    span ∈ (p.runs.filter fun run => run.v6 == ip.isIpv6).filterMap (p.searchRun ip.widen) ↔
      span ∈ p.spans ∧ span.range.contains ip = true := by
  rw [mem_filterMap]
  simp only [mem_filter, beq_iff_eq]
  constructor
  · intro ⟨run, ⟨hrun, hv6⟩, hs⟩
    obtain ⟨hspan, hin⟩ := (h.searchRun_iff hc hrun).mp hs
    obtain ⟨z, hz⟩ := h.runs_here run hrun
    refine ⟨mem_of_mem_drop (mem_of_mem_take hspan), contains_iff.mpr ⟨?_, hin⟩⟩
    rw [hz span hspan]
    exact hv6
  · intro ⟨hspan, hin⟩
    obtain ⟨hfam, hin⟩ := contains_iff.mp hin
    obtain ⟨run, hrun, hmem⟩ := h.exists_run hspan
    obtain ⟨z, hz⟩ := h.runs_here run hrun
    refine ⟨run, ⟨hrun, ?_⟩, (h.searchRun_iff hc hrun).mpr ⟨hmem, hin⟩⟩
    rw [← hfam, hz span hmem]

theorem Numbered.hits_pairwise (ip : IpAddr) :
    ((p.runs.filter fun run => run.v6 == ip.isIpv6).filterMap (p.searchRun ip.widen)).Pairwise
      fun a b => a.start < b.start := by
  rw [pairwise_filterMap]
  refine List.Pairwise.imp_of_mem ?_ (h.runs_tile.pairwise.filter _)
  intro run run' hrun hrun' hle a ha b hb
  obtain ⟨ha, -⟩ := (h.searchRun_iff hc (mem_of_mem_filter hrun)).mp ha
  obtain ⟨hb, -⟩ := (h.searchRun_iff hc (mem_of_mem_filter hrun')).mp hb
  obtain ⟨i, hi₁, hi₂, hia⟩ := mem_spansOf.mp ha
  obtain ⟨j, hj₁, hj₂, hjb⟩ := mem_spansOf.mp hb
  obtain ⟨hilt, hia⟩ := List.getElem?_eq_some_iff.mp hia
  obtain ⟨hjlt, hjb⟩ := List.getElem?_eq_some_iff.mp hjb
  have hpair := List.pairwise_iff_getElem.mp h.tiles.pairwise i j hilt hjlt (by omega)
  rw [hia, hjb] at hpair
  have := (h.tiles.mem (hia ▸ List.getElem_mem hilt)).2.2
  omega

end Find

theorem searchRuns_eq (p : Positions) (key : Nat) : ∀ (runs : List Run) (found : Option Span),
    p.searchRuns key found runs =
      match runs.filterMap (p.searchRun key) with
      | [] => found
      | [span] => if found.isSome then none else some span
      | _ => none
  | [], found => rfl
  | run :: rest, found => by
    rw [searchRuns, filterMap_cons]
    cases hrun : p.searchRun key run with
    | none => exact searchRuns_eq p key rest found
    | some span =>
      simp only [searchRuns_eq p key rest]
      cases found with
      | none =>
        cases rest.filterMap (p.searchRun key) with
        | nil => rfl
        | cons b tail => cases tail <;> rfl
      | some _ =>
        cases rest.filterMap (p.searchRun key) with
        | nil => rfl
        | cons b tail => rfl

/-- **An address has a span when exactly one numbered range holds it.** -/
theorem Numbered.spanHolding_eq_some_iff (h : Numbered p last) (hc : Canonical (p.spans.map (·.range))) (ip : IpAddr)
    (span : Span) : p.spanHolding ip = some span ↔ (span ∈ p.spans ∧ span.range.contains ip = true) ∧
        ∀ other ∈ p.spans, other.range.contains ip = true → other = span := by
  have hmem := h.mem_hits hc ip
  have hpair := h.hits_pairwise hc ip
  rw [spanHolding, searchRuns_eq]
  generalize hhits : (p.runs.filter fun run => run.v6 == ip.isIpv6).filterMap (p.searchRun ip.widen) = hits
    at hmem hpair
  cases hits with
  | nil => exact ⟨nofun, fun hspan => absurd ((hmem span).mpr hspan.1) not_mem_nil⟩
  | cons a tail =>
    cases tail with
    | nil =>
      constructor
      · intro heq
        cases heq
        refine ⟨(hmem span).mp (by simp), fun other ho hin => ?_⟩
        exact mem_singleton.mp ((hmem other).mpr ⟨ho, hin⟩)
      · intro hspan
        rw [mem_singleton.mp ((hmem span).mpr hspan.1)]
        rfl
    | cons b tail =>
      refine ⟨nofun, fun ⟨_, hunique⟩ => ?_⟩
      obtain ⟨ha₁, ha₂⟩ := (hmem a).mp (by simp)
      obtain ⟨hb₁, hb₂⟩ := (hmem b).mp (by simp)
      have hlt := (pairwise_cons.mp hpair).1 b (by simp)
      rw [hunique a ha₁ ha₂, hunique b hb₁ hb₂] at hlt
      exact absurd hlt (lt_irrefl _)

section OfSet

variable (s : IpSet)

theorem canonical_rangesOf : Canonical (rangesOf s.merged) := by
  refine pairwise_append.mpr ⟨?_, ?_, ?_⟩
  · exact pairwise_map.mpr s.merged_v4_canonical
  · refine pairwise_map.mpr (s.merged_v6_canonical.imp fun {a b} hab => ?_)
    exact hab.imp Nat.succ_lt_succ fun hab => ⟨congrArg Nat.succ hab.1, hab.2⟩
  · intro a ha b hb
    obtain ⟨r, -, rfl⟩ := mem_map.mp ha
    obtain ⟨r', -, rfl⟩ := mem_map.mp hb
    exact .inl (Nat.succ_pos _)

theorem iter_eq_rangesOf : s.iter = (rangesOf s.merged).flatMap IpRange.iter := by
  rw [IpSet.iter, rangesOf, flatMap_append, flatMap_map, flatMap_map]
  rfl

theorem mem_pairs_iff_range (ip : IpAddr) (z : Zone) :
    (ip, z) ∈ s.pairs ↔ ∃ r ∈ rangesOf s.merged, r.contains ip = true ∧ r.zone = z := by
  rw [← s.pairs_merged, IpSet.pairs_eq_union, rangesOf]
  simp only [mem_append, mem_map, Set.mem_union, Set.mem_ofPred_eq, IpRange.pairs, or_and_right,
    exists_or,
    exists_exists_and_eq_and]

theorem here_eq (r : IpRange) : r.here = (r.here.1, r.zone) := by
  cases r with
  | v4 r => rfl
  | v6 r => rfl

theorem group_eq_of_contains {r r' : IpRange} {ip : IpAddr} (h : r.contains ip = true) (h' : r'.contains ip = true)
    (hz : r.zone = r'.zone) : group r = group r' := by
  rw [group_eq, group_eq, here_eq r, here_eq r', (contains_iff.mp h).1, (contains_iff.mp h').1, hz]

theorem rangesOf_split : counted 0 (rangesOf s.merged) ++ uncounted (rangesOf s.merged) = rangesOf s.merged :=
  counted_append_drop 0 _

theorem spans_canonical : Canonical ((of s).spans.map (·.range)) := by
  have hc := canonical_rangesOf s
  rw [← rangesOf_split] at hc
  rw [of, (ofCanonical_spec s.merged).2.1]
  exact (pairwise_append.mp hc).1

theorem iter_eq_append :
    s.iter = (of s).spans.flatMap (·.range.iter) ++ (uncounted (rangesOf s.merged)).flatMap IpRange.iter := by
  have hspans := (ofCanonical_spec s.merged).2.1
  rw [← of] at hspans
  conv_lhs => rw [iter_eq_rangesOf, ← rangesOf_split, flatMap_append, ← hspans, flatMap_map]

theorem take_iter : s.iter.take (of s).total = (of s).spans.flatMap (·.range.iter) := by
  obtain ⟨_, h⟩ := (ofCanonical_spec s.merged).1
  have hlen : ((of s).spans.flatMap (·.range.iter)).length = (of s).total := h.length_flatMap
  rw [iter_eq_append, take_append_of_le_length hlen.ge, take_of_length_le hlen.le]

theorem addressAt_eq (position : Nat) : (of s).addressAt position = (s.iter.take (of s).total)[position]? := by
  obtain ⟨_, h⟩ := (ofCanonical_spec s.merged).1
  rw [take_iter]
  exact h.addressAt_eq position

theorem rangesIn_eq (start stop : Nat) :
    ((of s).rangesIn start stop).flatMap IpRange.iter = ((s.iter.take (of s).total).take stop).drop start := by
  obtain ⟨_, h⟩ := (ofCanonical_spec s.merged).1
  rw [take_iter]
  exact h.iter_rangesIn start stop

theorem span_size_lt {span : Span} (hspan : span ∈ (of s).spans) : span.range.size < 2 ^ 64 := by
  obtain ⟨_, h⟩ := (ofCanonical_spec s.merged).1
  have h₁ := h.len_eq span hspan
  have h₂ := (h.tiles.mem hspan).2.1
  have h₃ := h.total_lt
  omega

theorem find_eq {ip : IpAddr} {span : Span} (hold : (of s).spanHolding ip = some span) (hspan : span ∈ (of s).spans)
    (hin : span.range.contains ip = true) : (of s).find ip = some (span.start + (ip.widen - lo span.range)) := by
  simp only [find, hold, Option.bind_eq_bind, Option.bind_some, offsetWithin_eq hin (span_size_lt s hspan)]

theorem addressAt_of_span {ip : IpAddr} {span : Span} (hspan : span ∈ (of s).spans)
    (hin : span.range.contains ip = true) : (of s).addressAt (span.start + (ip.widen - lo span.range)) = some ip := by
  obtain ⟨_, h⟩ := (ofCanonical_spec s.merged).1
  obtain ⟨-, hlo, hhi⟩ := contains_iff.mp hin
  have hlen := h.len_eq span hspan
  have hsize : ip.widen - lo span.range < span.range.size := by unfold IpRange.size; omega
  have hget := h.tiles.getElem?_flatMap h.items_len hspan (p := span.start + (ip.widen - lo span.range))
    ⟨Nat.le_add_right _ _, by omega⟩
  rw [Nat.sub_zero, Nat.add_sub_cancel_left, IpRange.getElem?_iter hsize, Nat.add_sub_cancel' hlo,
    addr_widen hin] at hget
  rw [← hget]
  exact h.addressAt_eq _

theorem mem_counted_iff {r : IpRange} : r ∈ counted 0 (rangesOf s.merged) ↔ ∃ span ∈ (of s).spans, span.range = r := by
  rw [← (ofCanonical_spec s.merged).2.1, mem_map, of]

/-- No address that one countable range alone holds is held by a range past the countable ones, the
first whose sizes add up to less than `2 ^ 64`. -/
def Unshadowed (rs : List IpRange) : Prop :=
  ∀ ip : IpAddr, ∀ r ∈ counted 0 rs, r.contains ip = true → (∀ r' ∈ counted 0 rs, r'.contains ip = true → r' = r) →
    ∀ u ∈ uncounted rs, u.contains ip = false

theorem exists_unique_zone (hu : Unshadowed (rangesOf s.merged)) {ip : IpAddr} {position : Nat}
    (hf : (of s).find ip = some position) : (of s).addressAt position = some ip ∧ ∃! z, (ip, z) ∈ s.pairs := by
  obtain ⟨_, h⟩ := (ofCanonical_spec s.merged).1
  have hf' := hf
  simp only [find, Option.bind_eq_bind, Option.bind_eq_some_iff] at hf'
  obtain ⟨span, hold, -⟩ := hf'
  obtain ⟨⟨hspan, hin⟩, hunique⟩ := (h.spanHolding_eq_some_iff (spans_canonical s) ip span).mp hold
  rw [find_eq s hold hspan hin] at hf
  cases hf
  have hcounted : span.range ∈ counted 0 (rangesOf s.merged) := (mem_counted_iff s).mpr ⟨span, hspan, rfl⟩
  have halone : ∀ r' ∈ counted 0 (rangesOf s.merged), r'.contains ip = true → r' = span.range := by
    intro r' hr' hin'
    obtain ⟨other, hother, rfl⟩ := (mem_counted_iff s).mp hr'
    rw [hunique other hother hin']
  refine ⟨addressAt_of_span s hspan hin, span.range.zone, ?_, fun z hz => ?_⟩
  · apply (mem_pairs_iff_range s ip _).mpr
    exact ⟨span.range, rangesOf_split s ▸ mem_append_left _ hcounted, hin, rfl⟩
  · obtain ⟨r, hr, hin', hz⟩ := (mem_pairs_iff_range s ip z).mp hz
    rw [← rangesOf_split, mem_append] at hr
    rcases hr with hr | hr
    · rw [← hz, halone r hr hin']
    · rw [hu ip span.range hcounted hin halone r hr] at hin'
      cases hin'

theorem two_zones_of_shadow {ip : IpAddr} {r u : IpRange} (hr : r ∈ counted 0 (rangesOf s.merged))
    (hin : r.contains ip = true) (halone : ∀ r' ∈ counted 0 (rangesOf s.merged), r'.contains ip = true → r' = r)
    (hu : u ∈ uncounted (rangesOf s.merged)) (hinu : u.contains ip = true) :
    (∃ position, (of s).find ip = some position) ∧ ¬ ∃! z, (ip, z) ∈ s.pairs := by
  obtain ⟨_, h⟩ := (ofCanonical_spec s.merged).1
  obtain ⟨span, hspan, rfl⟩ := (mem_counted_iff s).mp hr
  have hold : (of s).spanHolding ip = some span := by
    refine (h.spanHolding_eq_some_iff (spans_canonical s) ip span).mpr ⟨⟨hspan, hin⟩, fun other ho hin' => ?_⟩
    have heq := halone other.range ((mem_counted_iff s).mpr ⟨other, ho, rfl⟩) hin'
    exact span_unique (spans_canonical s) ho hspan (by rw [heq]) (contains_iff.mp hin').2
      (contains_iff.mp hin).2
  refine ⟨⟨_, find_eq s hold hspan hin⟩, fun ⟨z, _, hz⟩ => ?_⟩
  have hz₁ := hz span.range.zone ((mem_pairs_iff_range s ip _).mpr
    ⟨span.range, rangesOf_split s ▸ mem_append_left _ hr, hin, rfl⟩)
  have hz₂ := hz u.zone ((mem_pairs_iff_range s ip _).mpr ⟨u, rangesOf_split s ▸ mem_append_right _ hu, hinu, rfl⟩)
  -- On one zone, the two ranges would overlap.
  have hapart : Apart span.range u := by
    have hc := canonical_rangesOf s
    rw [← rangesOf_split] at hc
    exact (pairwise_append.mp hc).2.2 _ hr _ hu
  have hg := group_eq_of_contains hin hinu (hz₁.trans hz₂.symm)
  have h₁ := (contains_iff.mp hin).2
  have h₂ := (contains_iff.mp hinu).2
  unfold Apart at hapart
  omega

/-- **Positions agree with the enumeration always, and tell an address's only zone exactly when no
countable range is shadowed.** -/
theorem positions_exact_iff : ((∀ position < (of s).total, (of s).addressAt position = s.iter[position]?) ∧
      (∀ start stop, ((of s).rangesIn start stop).flatMap IpRange.iter =
        ((s.iter.take (of s).total).take stop).drop start) ∧
      ∀ ip position, (of s).find ip = some position → (of s).addressAt position = some ip ∧ ∃! z, (ip, z) ∈ s.pairs) ↔
    Unshadowed (rangesOf s.merged) := by
  constructor
  · intro ⟨_, _, hfind⟩ ip r hr hin halone u hu
    by_contra hinu
    rw [Bool.not_eq_false] at hinu
    obtain ⟨⟨position, hf⟩, hzones⟩ := two_zones_of_shadow s hr hin halone hu hinu
    exact hzones (hfind ip position hf).2
  · intro hu
    refine ⟨fun position hp => ?_, rangesIn_eq s, fun ip position hf => exists_unique_zone s hu hf⟩
    rw [addressAt_eq, getElem?_take, if_pos hp]

end OfSet

/-- `fe80::1` on interface 1, and a `/64` around it on interface 2, one address more than a position counts. -/
def shadowed : IpSet :=
  (IpSet.new.insertRange
    (.v6 ⟨0xfe800000000000000000000000000001, 0xfe800000000000000000000000000001,
      some 1, by decide, by decide⟩)).insertRange
    (.v6 ⟨0xfe800000000000000000000000000000, 0xfe80000000000000ffffffffffffffff, some 2, by decide, by decide⟩)

/-- The address has a position, and two zones. -/
theorem find_shadowed : (of shadowed).find (.v6 0xfe800000000000000000000000000001) = some 0 ∧
      ¬ ∃! z, (.v6 0xfe800000000000000000000000000001, z) ∈ shadowed.pairs := by
  refine ⟨by decide +kernel, fun ⟨z, _, hz⟩ => ?_⟩
  have h₁ : some 1 = z := hz _ ⟨_, mem_cons_self, by decide, rfl⟩
  have h₂ : some 2 = z := hz _ ⟨_, mem_cons_of_mem _ mem_cons_self, by decide, rfl⟩
  rw [← h₁] at h₂
  exact absurd h₂ (by decide)

end Positions

end Zond.Ip
