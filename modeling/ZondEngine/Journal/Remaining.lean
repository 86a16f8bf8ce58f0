import ZondEngine.Journal.Cursor
import ZondEngine.Lib.Bitmap
import ZondEngine.Model.TargetIndex

/-!
# What a resumed scan still has to ask

The reading side of `journal/cursor.rs`: `Checkpoint.remaining` filters the plan position by position,
`Checkpoint.remainingHosts` finds the hosts with an unsettled target from the watermarks alone, through gaps, host by
host or through a bitmap. `remainingHosts_exact`: the hosts found are those of the targets left.
-/

namespace Zond.Journal

open Zond.Ip Zond.Order Zond.Plan Zond.Tiling List

/-- Where the targets of each host lie. -/
structure HostRuns where
  (total hosts : Nat)
  run : Nat → Nat × Nat
  hostOf : Nat → Nat

def HostRuns.ofIndex (index : TargetIndex) : HostRuns := ⟨index.total, index.hosts, index.hostRun, index.hostOf⟩

def MARKED_AT_MOST : Nat := 2 ^ 30

def readsTheTail (tail hosts past : Nat) : Bool :=
  decide (tail * tail < hosts * past) && decide (hosts ≤ MARKED_AT_MOST)

def extend (spans : List (Nat × Nat)) (run : Nat × Nat) : List (Nat × Nat) :=
  match spans.getLast? with
  | some span => if span.2 = run.1 then spans.dropLast ++ [(span.1, run.2)] else spans ++ [run]
  | none => spans ++ [run]

def positionsOf (span : Nat × Nat) : List Nat := List.range' span.1 (span.2 - span.1)

def hostByHost (runs : HostRuns) (first past : Nat) (unsettled : Nat → Bool) : List (Nat × Nat) :=
  (List.range' first (past - first)).foldl
    (fun spans host => if (positionsOf (runs.run host)).any unsettled then extend spans (runs.run host) else spans) []

def marked (runs : HostRuns) (first hosts : Nat) (positions : List Nat) : List (Nat × Nat) :=
  let bits := positions.foldl (fun bits position => Bitmap.mark bits (runs.hostOf position - first))
    (Bitmap.zeroed hosts)
  (Bitmap.marks bits).foldl (fun spans host => extend spans (runs.run (first + host))) []

def gaps (total : Nat) : Nat → List Nat → List (Nat × Nat)
  | start, [] => [(start, total)]
  | start, settled :: above =>
    if settled < start then gaps total start above
    else (start, min settled total) :: gaps total (Word.satAdd 64 settled 1) above

namespace Checkpoint

variable (c : Checkpoint)

def listed (position : Nat) : Bool := Bisect.isOk (Bisect.binarySearch c.settledAbove position)

def gapsFrom (start total : Nat) : List (Nat × Nat) :=
  (gaps total start (c.settledAbove.insertionSort (· ≤ ·))).filter fun span => decide (span.1 < span.2)

/-- The stretches left by a walk, host by host or marked. -/
def leftAlong (walked : Walked) (runs : HostRuns) : List (Nat × Nat) :=
  if runs.total ≤ c.watermark then []
  else
    let first := runs.hostOf c.watermark
    let hosts := runs.hosts - first
    if readsTheTail (walked.len - walked.reached) hosts (runs.total - c.watermark) then
      let reached := ((walked.order.iterFrom walked.reached).filter
        fun position => decide (c.watermark ≤ position) && decide (position < runs.total)).filter
          fun position => !c.listed position
      let unwalked := (c.gapsFrom (max walked.len c.watermark) runs.total).flatMap positionsOf
      marked runs first hosts (reached ++ unwalked)
    else
      hostByHost runs first runs.hosts fun position =>
        decide (c.watermark ≤ position) && !c.listed position &&
          !(walked.order.indexOf position).any fun index => decide (index < walked.reached)

def leftIn (runs : HostRuns) : List (Nat × Nat) :=
  match c.walked with
  | some walked => c.leftAlong (walked.clamped c.watermark) runs
  | none => c.gapsFrom c.watermark runs.total

/-- The addresses that still have an unsettled target. -/
def remainingHosts (index : TargetIndex) : IpSet :=
  let numbered := (c.leftIn (.ofIndex index)).foldl
    (fun remaining span => (index.addressesIn span.1 span.2).foldl IpSet.insertRange remaining) IpSet.new
  (index.unnumbered.foldl IpSet.insertRange numbered).canonicalize

/-- The targets left, at their positions. -/
def remaining (targets : List Target) : List PlannedTarget :=
  (numbered targets).filter fun planned => !c.isSettled planned.position

end Checkpoint

/-! ## Stretches -/

def Covered (spans : List (Nat × Nat)) (n : Nat) : Prop := ∃ span ∈ spans, span.1 ≤ n ∧ n < span.2

theorem mem_positionsOf {span : Nat × Nat} {n : Nat} : n ∈ positionsOf span ↔ span.1 ≤ n ∧ n < span.2 := by
  rw [positionsOf, mem_range'_1]
  omega

variable {spans : List (Nat × Nat)}

theorem mem_flatMap_positionsOf {n : Nat} : n ∈ spans.flatMap positionsOf ↔ Covered spans n := by
  rw [mem_flatMap]
  simp only [mem_positionsOf]
  exact Iff.rfl

theorem extend_cases (spans : List (Nat × Nat)) (run : Nat × Nat) :
    (∀ init last, spans = init ++ [last] → last.2 ≠ run.1) ∧ extend spans run = spans ++ [run] ∨
    ∃ init span, spans = init ++ [span] ∧ span.2 = run.1 ∧ extend spans run = init ++ [(span.1, run.2)] := by
  unfold extend
  split
  · rename_i span hlast
    obtain ⟨init, hinit⟩ := getLast?_eq_some_iff.mp hlast
    split
    · rename_i hmeet
      exact .inr ⟨init, span, hinit, hmeet, by rw [hinit, dropLast_concat]⟩
    · rename_i hgap
      exact .inl ⟨fun init' last' hspans => by simp_all, rfl⟩
  · exact .inl ⟨fun init last hspans => by simp_all, rfl⟩

theorem covered_extend {run : Nat × Nat} (hspans : ∀ span ∈ spans, span.1 < span.2) (hrun : run.1 < run.2) (n : Nat) :
    Covered (extend spans run) n ↔ Covered spans n ∨ run.1 ≤ n ∧ n < run.2 := by
  rcases extend_cases spans run with ⟨-, heq⟩ | ⟨init, span, rfl, hmeet, heq⟩
  · simp [heq, Covered, or_and_right, exists_or]
  · have hspan := hspans span (by simp)
    simp only [heq, Covered, mem_append, mem_singleton, or_and_right, exists_or, exists_eq_left, or_assoc]
    refine or_congr_right ?_
    omega

theorem extend_pos {run : Nat × Nat} (hspans : ∀ span ∈ spans, span.1 < span.2)
    (hrun : run.1 < run.2) : ∀ span ∈ extend spans run, span.1 < span.2 := by
  rcases extend_cases spans run with ⟨-, heq⟩ | ⟨init, last, rfl, hmeet, heq⟩
  · rw [heq]
    exact forall_mem_append.mpr ⟨hspans, forall_mem_singleton.mpr hrun⟩
  · obtain ⟨hinit, hlast⟩ := forall_mem_append.mp hspans
    rw [heq]
    refine forall_mem_append.mpr ⟨hinit, forall_mem_singleton.mpr ?_⟩
    have := hlast last (by simp)
    show last.1 < run.2
    omega

theorem covered_foldl_extend {α : Type} (run : α → Nat × Nat) (keep : α → Bool) (n : Nat) :
    ∀ (xs : List α) (spans : List (Nat × Nat)), (∀ span ∈ spans, span.1 < span.2) →
    (∀ x ∈ xs, (run x).1 < (run x).2) →
    (Covered (xs.foldl (fun spans x => if keep x then extend spans (run x) else spans) spans) n ↔
      Covered spans n ∨ ∃ x ∈ xs, keep x = true ∧ (run x).1 ≤ n ∧ n < (run x).2)
  | [], _, _, _ => by simp
  | x :: xs, spans, hspans, hruns => by
    have hrest := fun y hy => hruns y (mem_cons_of_mem x hy)
    rw [foldl_cons]
    cases hkeep : keep x with
    | false =>
      rw [if_neg Bool.false_ne_true, covered_foldl_extend run keep n xs spans hspans hrest]
      simp [hkeep]
    | true =>
      have hx := hruns x (by simp)
      rw [if_pos rfl, covered_foldl_extend run keep n xs _ (extend_pos hspans hx) hrest, covered_extend hspans hx]
      simp [hkeep, or_assoc]

theorem covered_gaps {total : Nat} (htotal : total ≤ Word.top 64) (n : Nat) :
    ∀ (above : List Nat) (start : Nat), above.Pairwise (· ≤ ·) →
    (Covered (gaps total start above) n ↔ start ≤ n ∧ n < total ∧ n ∉ above)
  | [], start, _ => by simp [gaps, Covered]
  | settled :: above, start, hsorted => by
    obtain ⟨hle, hrest⟩ := pairwise_cons.mp hsorted
    rw [gaps, mem_cons, not_or]
    split
    · rename_i hlt
      rw [covered_gaps htotal n above start hrest]
      constructor
      · intro ⟨h₁, h₂, h₃⟩
        exact ⟨h₁, h₂, by omega, h₃⟩
      · intro ⟨h₁, h₂, _, h₃⟩
        exact ⟨h₁, h₂, h₃⟩
    · rename_i hge
      have ih := covered_gaps htotal n above (Word.satAdd 64 settled 1) hrest
      have hcons : Covered ((start, min settled total) :: gaps total (Word.satAdd 64 settled 1) above) n ↔
          (start ≤ n ∧ n < min settled total) ∨ Covered (gaps total (Word.satAdd 64 settled 1) above) n := by
        simp [Covered]
      rw [hcons, ih]
      unfold Word.satAdd
      constructor
      · intro h
        rcases h with ⟨h₁, h₂⟩ | ⟨h₁, h₂, h₃⟩
        · refine ⟨h₁, by omega, by omega, fun hmem => ?_⟩
          have := hle n hmem
          omega
        · exact ⟨by omega, h₂, by omega, h₃⟩
      · intro ⟨h₁, h₂, h₃, h₄⟩
        rcases Nat.lt_or_ge n settled with hn | hn
        · exact .inl ⟨h₁, by omega⟩
        · exact .inr ⟨by omega, h₂, h₄⟩

theorem covered_filter {n : Nat} : Covered (spans.filter fun span => decide (span.1 < span.2)) n ↔ Covered spans n := by
  simp only [Covered, mem_filter, decide_eq_true_eq]
  constructor
  · intro ⟨span, ⟨hspan, _⟩, hn⟩
    exact ⟨span, hspan, hn⟩
  · intro ⟨span, hspan, hn⟩
    exact ⟨span, ⟨hspan, by omega⟩, hn⟩

/-! ## Numberings seen host by host -/

/-- The runs of the hosts lie end to end over the positions, and each position's host is the one whose run holds
it. -/
structure HostRuns.Lawful (runs : HostRuns) : Prop where
  total_lt : runs.total < 2 ^ 64
  tiles : Tiles (fun host => (runs.run host).1) (fun host => (runs.run host).2 - (runs.run host).1) 0
    (List.range runs.hosts) runs.total
  hostOf_lt : ∀ n < runs.total, runs.hostOf n < runs.hosts
  hostOf_run : ∀ n < runs.total, (runs.run (runs.hostOf n)).1 ≤ n ∧ n < (runs.run (runs.hostOf n)).2

section Hosts

variable (runs : HostRuns)

def joined (hosts : List Nat) : List (Nat × Nat) :=
  hosts.foldl (fun spans host => extend spans (runs.run host)) []

def hostsLeft (first : Nat) (unsettled : Nat → Bool) : List Nat :=
  (List.range' first (runs.hosts - first)).filter fun host => (positionsOf (runs.run host)).any unsettled

theorem hostsLeft_ascending (first : Nat) (unsettled : Nat → Bool) :
    (hostsLeft runs first unsettled).Pairwise (· < ·) := by
  apply List.Pairwise.filter
  exact pairwise_lt_range'

theorem hostsLeft_lt {runs : HostRuns} {first : Nat} {unsettled : Nat → Bool} {host : Nat}
    (hhost : host ∈ hostsLeft runs first unsettled) : host < runs.hosts := by
  have := mem_range'_1.mp (mem_of_mem_filter hhost)
  omega

theorem hostByHost_eq_joined (first : Nat) (unsettled : Nat → Bool) :
    hostByHost runs first runs.hosts unsettled = joined runs (hostsLeft runs first unsettled) := by
  rw [hostByHost, joined, hostsLeft, foldl_filter]

end Hosts

namespace HostRuns.Lawful

variable {runs : HostRuns} (h : runs.Lawful)

include h

theorem total_le : runs.total ≤ Word.top 64 := Nat.le_sub_one_of_lt h.total_lt

theorem run_pos {host : Nat} (hh : host < runs.hosts) :
    (runs.run host).1 < (runs.run host).2 ∧ (runs.run host).2 ≤ runs.total := by
  obtain ⟨_, h₂, h₃⟩ := h.tiles.mem (mem_range.mpr hh)
  omega

theorem run_le {host host' : Nat} (hlt : host < host') (hh : host' < runs.hosts) :
    (runs.run host).2 ≤ (runs.run host').1 := by
  have hpair := pairwise_iff_getElem.mp h.tiles.pairwise host host'
    (by rw [length_range]; omega) (by rw [length_range]; exact hh) hlt
  rw [getElem_range, getElem_range] at hpair
  omega

theorem hostOf_eq (host : Nat) {n : Nat} (hh : host < runs.hosts) (h₁ : (runs.run host).1 ≤ n)
    (h₂ : n < (runs.run host).2) : n < runs.total ∧ runs.hostOf n = host := by
  have hn : n < runs.total := h₂.trans_le (h.run_pos hh).2
  obtain ⟨h₃, h₄⟩ := h.hostOf_run n hn
  refine ⟨hn, ?_⟩
  rcases Nat.lt_trichotomy (runs.hostOf n) host with hlt | heq | hgt
  · have := h.run_le hlt hh
    omega
  · exact heq
  · have := h.run_le hgt (h.hostOf_lt n hn)
    omega

theorem hostOf_mono {n m : Nat} (hnm : n ≤ m) (hm : m < runs.total) : runs.hostOf n ≤ runs.hostOf m := by
  by_contra hlt
  obtain ⟨h₁, -⟩ := h.hostOf_run n (by omega)
  obtain ⟨-, h₂⟩ := h.hostOf_run m hm
  have := h.run_le (Nat.lt_of_not_le hlt) (h.hostOf_lt n (by omega))
  omega

theorem covered_hostByHost {first : Nat} {unsettled : Nat → Bool} (n : Nat) :
    Covered (hostByHost runs first runs.hosts unsettled) n ↔ n < runs.total ∧ first ≤ runs.hostOf n ∧
        ∃ m < runs.total, unsettled m = true ∧ runs.hostOf m = runs.hostOf n := by
  have hruns : ∀ host ∈ List.range' first (runs.hosts - first), (runs.run host).1 < (runs.run host).2 := by
    intro host hhost
    rw [mem_range'_1] at hhost
    exact (h.run_pos (by omega)).1
  rw [hostByHost, covered_foldl_extend runs.run (fun host => (positionsOf (runs.run host)).any unsettled) n _ []
    (fun _ hmem => absurd hmem (by simp)) hruns]
  simp only [any_eq_true, mem_positionsOf, mem_range'_1]
  constructor
  · intro hcov
    rcases hcov with ⟨span, hspan, _⟩ | ⟨host, hhost, ⟨m, hm, hu⟩, hn⟩
    · cases hspan
    · obtain ⟨hnt, hnh⟩ := h.hostOf_eq host (by omega) hn.1 hn.2
      obtain ⟨hmt, hmh⟩ := h.hostOf_eq host (by omega) hm.1 hm.2
      exact ⟨hnt, by omega, m, hmt, hu, by omega⟩
  · intro ⟨hn, hfirst, m, hm, hu, hhost⟩
    have hlt := h.hostOf_lt n hn
    refine .inr ⟨runs.hostOf n, by omega, ⟨m, ?_, hu⟩, h.hostOf_run n hn⟩
    rw [← hhost]
    exact h.hostOf_run m hm

theorem mem_marks_hosts {first : Nat} {positions : List Nat}
    (hpos : ∀ m ∈ positions, m < runs.total ∧ first ≤ runs.hostOf m) (k : Nat) :
    k ∈ Bitmap.marks (positions.foldl (fun bits position => Bitmap.mark bits (runs.hostOf position - first))
      (Bitmap.zeroed (runs.hosts - first))) ↔ ∃ m ∈ positions, runs.hostOf m - first = k := by
  rw [← foldl_map, Bitmap.mem_marks_foldl, mem_map]
  intro j hj
  obtain ⟨m, hm, rfl⟩ := mem_map.mp hj
  have := h.hostOf_lt m (hpos m hm).1
  have := (hpos m hm).2
  omega

theorem marked_eq_joined {first : Nat} {positions : List Nat}
    {unsettled : Nat → Bool} (hpos : ∀ m, m ∈ positions ↔ m < runs.total ∧ unsettled m = true)
    (hfirst : ∀ m, m < runs.total → unsettled m = true → first ≤ runs.hostOf m) :
    marked runs first (runs.hosts - first) positions = joined runs (hostsLeft runs first unsettled) := by
  have hin : ∀ m ∈ positions, m < runs.total ∧ first ≤ runs.hostOf m := by
    intro m hm
    obtain ⟨hlt, hu⟩ := (hpos m).mp hm
    exact ⟨hlt, hfirst m hlt hu⟩
  have hmarks := h.mem_marks_hosts hin
  have hasc := Bitmap.marks_foldl_ascending (positions.map fun m => runs.hostOf m - first) (runs.hosts - first)
  rw [foldl_map] at hasc
  simp only [marked]
  generalize Bitmap.marks (positions.foldl (fun bits position => Bitmap.mark bits (runs.hostOf position - first))
    (Bitmap.zeroed (runs.hosts - first))) = marks at hmarks hasc ⊢
  have hhosts : marks.map (first + ·) = hostsLeft runs first unsettled := by
    refine (pairwise_map.mpr (hasc.imp fun hab => by omega)).eq_of_mem_iff (hostsLeft_ascending _ _ _) fun host => ?_
    rw [mem_map, hostsLeft, mem_filter, mem_range'_1, any_eq_true]
    constructor
    · rintro ⟨k, hk, rfl⟩
      obtain ⟨m, hm, rfl⟩ := (hmarks k).mp hk
      obtain ⟨hlt, hu⟩ := (hpos m).mp hm
      rw [Nat.add_sub_cancel' (hin m hm).2]
      have := h.hostOf_lt m hlt
      exact ⟨⟨(hin m hm).2, by omega⟩, m, mem_positionsOf.mpr (h.hostOf_run m hlt), hu⟩
    · rintro ⟨⟨hge, hlt⟩, m, hm, hu⟩
      obtain ⟨hmt, hmh⟩ := h.hostOf_eq host (by omega) (mem_positionsOf.mp hm).1 (mem_positionsOf.mp hm).2
      refine ⟨host - first, (hmarks _).mpr ⟨m, (hpos m).mpr ⟨hmt, hu⟩, by rw [hmh]⟩, by omega⟩
  rw [joined, ← hhosts, foldl_map]

end HostRuns.Lawful

/-! ## What a checkpoint leaves -/

theorem Walked.covers_clamped (w : Walked) (watermark position : Nat) :
    (w.clamped watermark).covers position = w.covers position := by
  show (w.order.indexOf position).any (fun index => decide (index < min w.reached w.len)) = w.covers position
  cases hi : w.order.indexOf position with
  | none => simp [covers, hi]
  | some i =>
    have hlt : i < w.len := (Permutation.indexOf_lt hi).1
    simp [covers, hi, hlt]

namespace Checkpoint

section Along

variable (c : Checkpoint) (walked : Walked)

def unsettledAlong (position : Nat) : Bool :=
  decide (c.watermark ≤ position) && !c.listed position &&
    !(walked.order.indexOf position).any fun index => decide (index < walked.reached)

def tailAlong (total : Nat) : List Nat :=
  (((walked.order.iterFrom walked.reached).filter
    fun position => decide (c.watermark ≤ position) && decide (position < total)).filter
      fun position => !c.listed position) ++
    (c.gapsFrom (max walked.len c.watermark) total).flatMap positionsOf

variable (runs : HostRuns)

def alongTail : List (Nat × Nat) :=
  marked runs (runs.hostOf c.watermark) (runs.hosts - runs.hostOf c.watermark) (c.tailAlong walked runs.total)

def hostByHostLeft : List (Nat × Nat) :=
  hostByHost runs (runs.hostOf c.watermark) runs.hosts (c.unsettledAlong walked)

theorem leftAlong_eq :
    c.leftAlong walked runs = if runs.total ≤ c.watermark then [] else
      if readsTheTail (walked.len - walked.reached) (runs.hosts - runs.hostOf c.watermark)
        (runs.total - c.watermark) then c.alongTail walked runs
      else c.hostByHostLeft walked runs := rfl

end Along

variable {c : Checkpoint} (hs : c.settledAbove.Pairwise (· ≤ ·))

include hs

theorem listed_iff (position : Nat) : c.listed position = true ↔ position ∈ c.settledAbove :=
  Bisect.binarySearch_isOk_iff hs position

theorem isSettled_eq_false_iff (position : Nat) : c.isSettled position = false ↔
      c.watermark ≤ position ∧ position ∉ c.settledAbove ∧ ∀ w, c.walked = some w → w.covers position = false := by
  have hlisted := listed_iff hs position
  rw [isSettled, Bool.or_eq_false_iff, Bool.or_eq_false_iff, decide_eq_false_iff_not, Nat.not_lt, ← hlisted,
    Bool.not_eq_true, and_assoc]
  refine and_congr_right fun _ => and_congr_right fun _ => ?_
  cases c.walked <;> simp

omit hs in
theorem covered_gapsFrom {start total : Nat} (htotal : total ≤ Word.top 64) (n : Nat) :
    Covered (c.gapsFrom start total) n ↔ start ≤ n ∧ n < total ∧ n ∉ c.settledAbove := by
  rw [gapsFrom, covered_filter, covered_gaps htotal n _ start (pairwise_insertionSort _ _), mem_insertionSort]

theorem mem_tail {w : Walked} (hw : c.walked = some w) {total : Nat} (htotal : total ≤ Word.top 64) (n : Nat) :
    n ∈ c.tailAlong (w.clamped c.watermark) total ↔
      n < total ∧ c.isSettled n = false := by
  have hlisted : c.listed n = false ↔ n ∉ c.settledAbove := by
    rw [← Bool.not_eq_true, listed_iff hs]
  have hcov : (∀ w', c.walked = some w' → w'.covers n = false) ↔ (w.clamped c.watermark).covers n = false := by
    rw [hw, Walked.covers_clamped]
    simp
  rw [tailAlong, mem_append, mem_filter, mem_filter, Permutation.mem_iterFrom, mem_flatMap_positionsOf,
    covered_gapsFrom htotal, isSettled_eq_false_iff hs, hcov, Bool.not_eq_true', hlisted, Bool.and_eq_true,
    decide_eq_true_eq, decide_eq_true_eq]
  generalize w.clamped c.watermark = walked
  rw [Walked.covers]
  -- Inside its length the walk names every position; past its length, none.
  cases hi : walked.order.indexOf n with
  | none =>
    have hlen : walked.len ≤ n := Permutation.indexOf_eq_none_iff.mp hi
    simp only [reduceCtorEq, and_false, exists_false, false_and, false_or, Option.any_none, and_true]
    constructor
    · rintro ⟨h₁, h₂, h₃⟩
      exact ⟨h₂, by omega, h₃⟩
    · rintro ⟨h₁, h₂, h₃⟩
      exact ⟨by omega, h₁, h₃⟩
  | some i =>
    have hlen : n < walked.len := (Permutation.indexOf_lt hi).2
    simp only [Option.some_inj, Option.any_some, decide_eq_false_iff_not, Nat.not_lt]
    constructor
    · intro h
      rcases h with ⟨⟨⟨j, hj, rfl⟩, h₁, h₂⟩, h₃⟩ | ⟨h₁, _⟩
      · exact ⟨h₂, h₁, h₃, hj⟩
      · omega
    · rintro ⟨h₁, h₂, h₃, h₄⟩
      exact .inl ⟨⟨⟨i, h₄, rfl⟩, h₂, h₁⟩, h₃⟩

theorem unsettledAlong_iff {w : Walked} (hw : c.walked = some w) (m : Nat) :
    c.unsettledAlong (w.clamped c.watermark) m = true ↔ c.isSettled m = false := by
  have hcov : (((w.clamped c.watermark).order.indexOf m).any
      fun index => decide (index < (w.clamped c.watermark).reached)) = w.covers m := w.covers_clamped c.watermark m
  rw [unsettledAlong, hcov, isSettled_eq_false_iff hs, hw, Bool.and_eq_true, Bool.and_eq_true, decide_eq_true_eq,
    ← listed_iff hs m]
  simp [and_assoc]

/-- **The two ways of reading along a walk return the same stretches.** -/
theorem alongTail_eq {w : Walked} (hw : c.walked = some w) {runs : HostRuns} (h : runs.Lawful) :
    c.alongTail (w.clamped c.watermark) runs = c.hostByHostLeft (w.clamped c.watermark) runs := by
  rw [alongTail, hostByHostLeft, hostByHost_eq_joined]
  refine h.marked_eq_joined (fun m => ?_) (fun m hm hu => ?_)
  · rw [unsettledAlong_iff hs hw]
    exact mem_tail hs hw h.total_le m
  · rw [unsettledAlong_iff hs hw] at hu
    exact h.hostOf_mono ((isSettled_eq_false_iff hs m).mp hu).1 hm

theorem covered_leftAlong {runs : HostRuns} (h : runs.Lawful) {w : Walked} (hw : c.walked = some w) (n : Nat) :
    Covered (c.leftAlong (w.clamped c.watermark) runs) n ↔
      n < runs.total ∧ ∃ m < runs.total, c.isSettled m = false ∧ runs.hostOf m = runs.hostOf n := by
  have hpast : ∀ m, c.isSettled m = false → c.watermark ≤ m := fun m hm => ((isSettled_eq_false_iff hs m).mp hm).1
  rw [leftAlong_eq]
  split
  · refine ⟨fun ⟨span, hspan, _⟩ => (not_mem_nil hspan).elim, fun ⟨_, m, hm, hu, _⟩ => ?_⟩
    have := hpast m hu
    omega
  · rw [alongTail_eq hs hw h, ite_self, hostByHostLeft, h.covered_hostByHost]
    simp only [unsettledAlong_iff hs hw]
    constructor
    · intro ⟨hn, _, hm⟩
      exact ⟨hn, hm⟩
    · intro ⟨hn, m, hm, hset, hhost⟩
      exact ⟨hn, hhost ▸ h.hostOf_mono (hpast m hset) hm, m, hm, hset, hhost⟩

/-- **The stretches left hold every unsettled position and touch only hosts with one**, however the checkpoint
was counted. -/
theorem leftIn_spec {runs : HostRuns} (h : runs.Lawful) :
    (∀ n < runs.total, c.isSettled n = false → Covered (c.leftIn runs) n) ∧ ∀ n, Covered (c.leftIn runs) n →
      n < runs.total ∧ ∃ m < runs.total, c.isSettled m = false ∧ runs.hostOf m = runs.hostOf n := by
  unfold leftIn
  cases hw : c.walked with
  | some w =>
    have hcov := covered_leftAlong hs h hw
    exact ⟨fun n hn hu => (hcov n).mpr ⟨hn, n, hn, hu, rfl⟩, fun n => (hcov n).mp⟩
  | none =>
    have hset := isSettled_eq_false_iff hs
    simp only [hw, reduceCtorEq, false_implies, implies_true, and_true] at hset
    refine ⟨fun n hn hu => ?_, fun n hn => ?_⟩
    · rw [covered_gapsFrom h.total_le]
      obtain ⟨h₁, h₂⟩ := (hset n).mp hu
      exact ⟨h₁, hn, h₂⟩
    · rw [covered_gapsFrom h.total_le] at hn
      obtain ⟨h₁, h₂, h₃⟩ := hn
      exact ⟨h₂, n, h₂, (hset n).mpr ⟨h₁, h₃⟩, rfl⟩

end Checkpoint

/-! ## The hosts left -/

theorem HostRuns.ofIndex_lawful {units : List TargetSet} {index : TargetIndex} (h : Indexed units index) :
    (HostRuns.ofIndex index).Lawful where
  total_lt := h.total_lt
  tiles := h.tile_hosts
  hostOf_lt _ hn := (h.hostOf_spec hn).1
  hostOf_run _ hn := (h.hostOf_spec hn).2

theorem Checkpoint.mem_remaining {c : Checkpoint} {targets : List Target} {planned : PlannedTarget} :
    planned ∈ c.remaining targets ↔
      targets[planned.position]? = some planned.target ∧ c.isSettled planned.position = false := by
  rw [remaining, mem_filter, mem_numbered, Bool.not_eq_true']

theorem contains_leftOut {left : List TargetSet} {t : Target} (ht : t ∈ left.flatMap TargetSet.iter) :
    ∃ r ∈ TargetIndex.leftOut left, r.contains t.ip = true := by
  obtain ⟨unit, hunit, ht⟩ := mem_flatMap.mp ht
  obtain ⟨ip, hip, ht⟩ := mem_flatMap.mp ht
  obtain ⟨port, hport, rfl⟩ := mem_map.mp ht
  have hports : unit.ports.isEmpty = false := by
    rw [← Bool.not_eq_true, Port.PortSet.isEmpty_iff]
    exact ne_nil_of_mem hport
  rw [Positions.iter_eq_rangesOf, unit.merged_ips, mem_flatMap] at hip
  obtain ⟨r, hr, hmem⟩ := hip
  refine ⟨r, ?_, IpRange.mem_iter.mp hmem⟩
  exact mem_flatMap.mpr ⟨unit, mem_filter.mpr ⟨hunit, by rw [hports]; rfl⟩, hr⟩

theorem Checkpoint.contains_remainingHosts (c : Checkpoint) (index : TargetIndex) (ip : IpAddr) :
    (c.remainingHosts index).contains ip = true ↔
      (∃ span ∈ c.leftIn (.ofIndex index), ∃ r ∈ index.addressesIn span.1 span.2, r.contains ip = true) ∨
        ∃ r ∈ index.unnumbered, r.contains ip = true := by
  have hstep : ∀ (s : IpSet) (span : Nat × Nat), ((index.addressesIn span.1 span.2).foldl IpSet.insertRange s).pairs =
      s.pairs ∪ {p | ∃ r ∈ index.addressesIn span.1 span.2, p ∈ r.pairs} :=
    fun s span => IpSet.pairs_foldl IpSet.pairs_insertRange _ s
  rw [IpSet.contains_iff, remainingHosts, IpSet.pairs_canonicalize, IpSet.pairs_foldl IpSet.pairs_insertRange,
    IpSet.pairs_foldl hstep, IpSet.pairs_new, Set.empty_union]
  constructor
  · rintro ⟨z, ⟨span, hspan, r, hr, hc, -⟩ | ⟨r, hr, hc, -⟩⟩
    · exact .inl ⟨span, hspan, r, hr, hc⟩
    · exact .inr ⟨r, hr, hc⟩
  · rintro (⟨span, hspan, r, hr, hc⟩ | ⟨r, hr, hc⟩)
    · exact ⟨r.zone, .inl ⟨span, hspan, r, hr, hc, rfl⟩⟩
    · exact ⟨r.zone, .inr ⟨r, hr, hc, rfl⟩⟩

/-- **A resumed port scan sweeps the hosts it has a target at**: those found from the watermarks
are the addresses of the targets left, with those the index left unnumbered. -/
theorem remainingHosts_exact (map : TargetMap) (h : map.HasAddresses) (c : Checkpoint)
    (hs : c.settledAbove.Pairwise (· ≤ ·)) (ip : IpAddr) : (c.remainingHosts (TargetIndex.of map)).contains ip = true ↔
      (∃ planned ∈ c.remaining map.iter, planned.target.ip = ip) ∨
        ∃ r ∈ (TargetIndex.of map).unnumbered, r.contains ip = true := by
  obtain ⟨numbered, left, hunits, hi, -, hleft⟩ := of_spec h
  obtain ⟨hall, honly⟩ := Checkpoint.leftIn_spec hs (HostRuns.ofIndex_lawful hi)
  have hlen := hi.length_iter
  have hiter : map.iter = numbered.flatMap TargetSet.iter ++ left.flatMap TargetSet.iter := by
    rw [TargetMap.iter, hunits, flatMap_append]
  have hat : ∀ n < (TargetIndex.of map).total, (TargetIndex.of map).targetAt n = map.iter[n]? := by
    intro n hn
    rw [hi.targetAt_eq, hiter, getElem?_append_left (by omega)]
  rw [c.contains_remainingHosts]
  simp only [hi.mem_addressesIn]
  constructor
  · intro hin
    rcases hin with ⟨span, hspan, n, h₁, h₂, t, ht, hip⟩ | hun
    · -- The host of the position found has an unsettled target, at the same address.
      obtain ⟨hn, m, hm, hu, hhost⟩ := honly n ⟨span, hspan, h₁, h₂⟩
      obtain ⟨t', ht', hip'⟩ := hi.targetAt_of_hostOf_eq hn hm hhost ht
      refine .inl ⟨⟨m, t'⟩, Checkpoint.mem_remaining.mpr ⟨?_, hu⟩, hip'.trans hip⟩
      rw [← hat m hm, ht']
    · exact .inr hun
  · intro hin
    rcases hin with ⟨⟨n, t⟩, hplanned, hip⟩ | hun
    · obtain ⟨ht, hu⟩ := Checkpoint.mem_remaining.mp hplanned
      dsimp only at ht hu hip
      by_cases hn : n < (TargetIndex.of map).total
      · obtain ⟨span, hspan, h₁, h₂⟩ := hall n hn hu
        exact .inl ⟨span, hspan, n, h₁, h₂, t, by rw [hat n hn, ht], hip⟩
      · -- A target past the total belongs to a unit left out, which is swept whole.
        rw [hiter, getElem?_append_right (by omega)] at ht
        rw [hleft, ← hip]
        exact .inr (contains_leftOut (mem_of_getElem? ht))
    · exact .inr hun

def halfDone : Checkpoint := ⟨2, [3], some ⟨7, 4, 0, 0, by decide⟩⟩

theorem remainingHosts_exact_halfDone : twoHosts.HasAddresses ∧ halfDone.settledAbove.Pairwise (· ≤ ·) ∧
      ((halfDone.remainingHosts (TargetIndex.of twoHosts)).contains (.v4 1) = true ↔
        (∃ planned ∈ halfDone.remaining twoHosts.iter, planned.target.ip = .v4 1) ∨
          ∃ r ∈ (TargetIndex.of twoHosts).unnumbered, r.contains (.v4 1) = true) :=
  ⟨twoHosts_hasAddresses, by decide, remainingHosts_exact twoHosts twoHosts_hasAddresses halfDone (by decide) (.v4 1)⟩

end Zond.Journal
