import ZondEngine.Journal.Remaining

/-!
# Two ways of reading what a walk has left

`Checkpoint.leftAlong` finds the hosts with something left through a bitmap (`alongTail`) or host after host
(`hostByHostLeft`), and both append the same runs in the same order (`alongTail_eq`, `leftAlong_exact`).
-/

namespace Zond.Journal

open Zond.Plan List

def HostRuns.alone (total : Nat) : HostRuns := ⟨total, total, fun host => (host, host + 1), fun position => position⟩

/-! ## Stretches that ascend -/

structure Stretches (spans : List (Nat × Nat)) (bound : Nat) : Prop where
  apart : spans.Pairwise fun a b => a.2 < b.1
  pos : ∀ span ∈ spans, span.1 < span.2
  le : ∀ span ∈ spans, span.2 ≤ bound

theorem Stretches.extend {spans : List (Nat × Nat)} {bound : Nat} {run : Nat × Nat} (h : Stretches spans bound)
    (hle : bound ≤ run.1) (hrun : run.1 < run.2) : Stretches (extend spans run) run.2 := by
  have hbefore : ∀ span ∈ spans, span.2 ≤ run.2 := fun span hspan => by
    have := h.le span hspan
    omega
  rcases extend_cases spans run with ⟨hgap, heq⟩ | ⟨init, last, rfl, -, heq⟩
  · refine ⟨?_, extend_pos h.pos hrun, ?_⟩
    · rw [heq]
      refine pairwise_append.mpr ⟨h.apart, pairwise_singleton _ _, fun a ha b hb => ?_⟩
      rw [mem_singleton.mp hb]
      obtain ⟨init, last, rfl⟩ := (eq_nil_or_concat' spans).resolve_left (ne_nil_of_mem ha)
      have hlast := h.le last (by simp)
      have hpos := h.pos last (by simp)
      have hne := hgap init last rfl
      rcases mem_append.mp ha with ha | ha
      · have := (pairwise_append.mp h.apart).2.2 a ha last (by simp)
        omega
      · rw [mem_singleton.mp ha]
        omega
    · rw [heq]
      exact forall_mem_append.mpr ⟨hbefore, forall_mem_singleton.mpr le_rfl⟩
  · obtain ⟨hinit, -, hcross⟩ := pairwise_append.mp h.apart
    refine ⟨?_, extend_pos h.pos hrun, ?_⟩
    · rw [heq]
      refine pairwise_append.mpr ⟨hinit, pairwise_singleton _ _, fun a ha b hb => ?_⟩
      rw [mem_singleton.mp hb]
      exact hcross a ha last (by simp)
    · rw [heq]
      exact forall_mem_append.mpr ⟨(forall_mem_append.mp hbefore).1, forall_mem_singleton.mpr le_rfl⟩

namespace HostRuns.Lawful

variable {runs : HostRuns} (h : runs.Lawful)

include h

theorem stretches_foldl : ∀ {hosts : List Nat} {spans : List (Nat × Nat)} (bound : Nat), Stretches spans bound →
    hosts.Pairwise (· < ·) → (∀ host ∈ hosts, host < runs.hosts ∧ bound ≤ (runs.run host).1) →
    ∃ bound', Stretches (hosts.foldl (fun spans host => extend spans (runs.run host)) spans) bound'
  | [], _, bound, hs, _, _ => ⟨bound, hs⟩
  | host :: hosts, spans, bound, hs, hasc, hin => by
    obtain ⟨hlt, hasc⟩ := pairwise_cons.mp hasc
    obtain ⟨hhost, hle⟩ := hin host (by simp)
    rw [foldl_cons]
    refine stretches_foldl _ (hs.extend hle (h.run_pos hhost).1) hasc fun other hother => ?_
    have hother' := (hin other (mem_cons_of_mem host hother)).1
    exact ⟨hother', h.run_le (hlt other hother) hother'⟩

theorem stretches_joined {hosts : List Nat} (hasc : hosts.Pairwise (· < ·)) (hin : ∀ host ∈ hosts, host < runs.hosts) :
    ∃ bound, Stretches (joined runs hosts) bound :=
  h.stretches_foldl 0 ⟨.nil, by simp, by simp⟩ hasc fun host hhost => ⟨hin host hhost, Nat.zero_le _⟩

end HostRuns.Lawful

/-! ## What is left along a walk -/

theorem HostRuns.alone_lawful {total : Nat} (h : total < 2 ^ 64) : (HostRuns.alone total).Lawful where
  total_lt := h
  tiles := by
    induction total with
    | zero => exact .nil 0
    | succ n ih =>
      have hstep := (ih (by omega)).concat (x := n) rfl (show 0 < n + 1 - n by omega)
      have htotal : (alone n).total + (n + 1 - n) = n + 1 := by
        show n + (n + 1 - n) = n + 1
        omega
      rw [show (alone (n + 1)).hosts = n + 1 from rfl, range_succ]
      exact htotal ▸ hstep
  hostOf_lt _ hn := hn
  hostOf_run n _ := ⟨Nat.le_refl n, Nat.lt_succ_self n⟩

namespace Checkpoint

variable {c : Checkpoint} (hs : c.settledAbove.Pairwise (· ≤ ·)) {w : Walked} (hw : c.walked = some w)

include hs hw

theorem stretches_leftAlong {runs : HostRuns} (h : runs.Lawful) :
    ∃ bound, Stretches (c.leftAlong (w.clamped c.watermark) runs) bound := by
  rw [leftAlong_eq]
  split
  · exact ⟨0, .nil, by simp, by simp⟩
  · rw [alongTail_eq hs hw h, ite_self, hostByHostLeft, hostByHost_eq_joined]
    exact h.stretches_joined (hostsLeft_ascending _ _ _) fun _ => hostsLeft_lt

/-- **What is left along a walk.** The stretches returned ascend, none is empty and no two meet,
and they hold exactly the positions of the hosts with an unsettled one. -/
theorem leftAlong_exact : (∀ runs : HostRuns, runs.Lawful → (c.watermark < runs.total →
        c.leftAlong (w.clamped c.watermark) runs = c.alongTail (w.clamped c.watermark) runs ∧
          c.leftAlong (w.clamped c.watermark) runs = c.hostByHostLeft (w.clamped c.watermark) runs) ∧
      (c.leftAlong (w.clamped c.watermark) runs).Pairwise (fun a b => a.2 < b.1) ∧
      (∀ span ∈ c.leftAlong (w.clamped c.watermark) runs, span.1 < span.2) ∧
      ∀ n, Covered (c.leftAlong (w.clamped c.watermark) runs) n ↔
        n < runs.total ∧ ∃ m < runs.total, c.isSettled m = false ∧ runs.hostOf m = runs.hostOf n) ∧
    ∀ total < 2 ^ 64, ∀ n, Covered (c.leftAlong (w.clamped c.watermark) (.alone total)) n ↔
      n < total ∧ c.isSettled n = false := by
  refine ⟨fun runs h => ⟨fun hopen => ?_, ?_, ?_, covered_leftAlong hs h hw⟩, fun total htotal n => ?_⟩
  · rw [leftAlong_eq, if_neg (Nat.not_le_of_lt hopen), alongTail_eq hs hw h, ite_self]
    exact ⟨rfl, rfl⟩
  · obtain ⟨bound, hspans⟩ := stretches_leftAlong hs hw h
    exact hspans.apart
  · obtain ⟨bound, hspans⟩ := stretches_leftAlong hs hw h
    exact hspans.pos
  · rw [covered_leftAlong hs (HostRuns.alone_lawful htotal) hw]
    constructor
    · rintro ⟨hn, m, -, hu, rfl⟩
      exact ⟨hn, hu⟩
    · rintro ⟨hn, hu⟩
      exact ⟨hn, n, hn, hu, rfl⟩

end Checkpoint

theorem leftAlong_exact_halfDone :
    halfDone.settledAbove.Pairwise (· ≤ ·) ∧ halfDone.walked = some ⟨7, 4, 0, 0, by decide⟩ ∧
      (Covered (halfDone.leftAlong (Walked.clamped ⟨7, 4, 0, 0, by decide⟩ 2) (.alone 4)) 2 ↔
        2 < 4 ∧ halfDone.isSettled 2 = false) :=
  ⟨by decide, rfl, (Checkpoint.leftAlong_exact (c := halfDone) (by decide) rfl).2 4 (by decide) 2⟩

theorem leftAlong_covers_settled :
    Covered (halfDone.leftAlong (Walked.clamped ⟨7, 4, 0, 0, by decide⟩ 2) (.ofIndex (TargetIndex.of twoHosts))) 3 ∧
      halfDone.isSettled 3 = true := by
  have hspans : halfDone.leftAlong (Walked.clamped ⟨7, 4, 0, 0, by decide⟩ 2) (.ofIndex (TargetIndex.of twoHosts)) =
      [(2, 4)] := by decide +kernel
  refine ⟨?_, by decide⟩
  rw [hspans]
  exact ⟨(2, 4), by simp, by decide, by decide⟩

end Zond.Journal
