import Mathlib.Data.Finset.Card

/-!
# Filling across two sides

Two numbered lists of elements with labels, linked across the sides where they share one. Between two fills what was met
is closed under the links (`Settled`, `fillFrom_spec`), and what a fill takes is connected (`led_fill`), so a sweep
takes the connected components, each once (`swept_sweep`).
-/

namespace Zond.Flood

open List

variable {τ : Type}

/-! ## The fill -/

/-- What is left of one side: the elements under each label not walked yet, and the elements met. -/
structure Pool (τ : Type) where
  index : τ → List ℕ
  seen : Finset ℕ

structure Side (τ : Type) extends Pool τ where
  (queue taken : List ℕ)

/-- What is left of both sides, and what each fill took. -/
abbrev Progress (τ : Type) : Type := Pool τ × Pool τ × List (List ℕ × List ℕ)

section Fill

variable [DecidableEq τ] (labels : ℕ → List τ)

def holders (count : ℕ) (label : τ) : List ℕ :=
  (List.range count).filter fun i => label ∈ labels i

def Pool.whole (count : ℕ) : Pool τ := ⟨holders labels count, ∅⟩

namespace Side

def meet (s : Side τ) (j : ℕ) : Side τ :=
  if j ∈ s.seen then s else { s with seen := insert j s.seen, queue := j :: s.queue }

def walk (s : Side τ) (label : τ) : Side τ :=
  (s.index label).foldl meet { s with index := Function.update s.index label [] }

def visit (s : Side τ) (labels : List τ) : Side τ := labels.foldl walk s

end Side

def drain (a b : Side τ) : Side τ × Side τ :=
  ({ a with queue := [], taken := a.taken ++ a.queue }, a.queue.foldl (fun b i => b.visit (labels i)) b)

def fill (la lb : ℕ → List τ) : ℕ → Side τ → Side τ → Side τ × Side τ
  | 0, a, b => (a, b)
  | fuel + 1, a, b =>
    if a.queue.isEmpty && b.queue.isEmpty then (a, b)
    else
      let first := drain la a b
      let second := drain lb first.2 first.1
      fill la lb fuel second.2 second.1

variable (la lb : ℕ → List τ)

def fillFrom (fuel : ℕ) (a b : Pool τ) (start : ℕ) : Side τ × Side τ :=
  fill la lb fuel ⟨⟨a.index, insert start a.seen⟩, [start], []⟩ ⟨b, [], []⟩

def sweepStep (fuel : ℕ) (state : Progress τ) (start : ℕ) : Progress τ :=
  if start ∈ state.1.seen then state
  else
    let filled := fillFrom la lb fuel state.1 state.2.1 start
    (filled.1.toPool, filled.2.toPool, state.2.2 ++ [(filled.1.taken, filled.2.taken)])

/-- A fill from every element of the first side, in their order. -/
def sweep (m n : ℕ) : Progress τ :=
  (List.range m).foldl (sweepStep la lb (m + n)) (.whole la m, .whole lb n, [])

end Fill

/-! ## One side -/

/-- What was met on one side is what was met before the fill, what was taken and what waits, each once. -/
structure Members (count : ℕ) (old : Finset ℕ) (s : Side τ) : Prop where
  accounted : ∀ j, j ∈ s.seen ↔ j ∈ old ∨ j ∈ s.taken ++ s.queue
  fresh : ∀ j ∈ s.taken ++ s.queue, j ∉ old ∧ j < count
  nodup : (s.taken ++ s.queue).Nodup

def pending (count : ℕ) (s : Side τ) : ℕ := (Finset.range count \ s.seen).card + s.queue.length

section Meeting

variable {count : ℕ} {old : Finset ℕ} {s : Side τ}

theorem Members.meet (h : Members count old s) {j : ℕ} (hj : j < count) : Members count old (s.meet j) := by
  unfold Side.meet
  split
  · exact h
  next hnew =>
    have hmiddle : ∀ k, k ∈ s.taken ++ j :: s.queue ↔ k = j ∨ k ∈ s.taken ++ s.queue := by
      intro k
      simp only [mem_append, mem_cons]
      exact or_left_comm
    have hunmet : j ∉ old ∧ j ∉ s.taken ++ s.queue := not_or.mp fun hold => hnew ((h.accounted j).mpr hold)
    refine ⟨fun k => ?_, fun k hk => ?_, ?_⟩
    · rw [Finset.mem_insert, h.accounted k, hmiddle k]
      exact or_left_comm
    · rcases (hmiddle k).mp hk with rfl | hk
      · exact ⟨hunmet.1, hj⟩
      · exact h.fresh k hk
    · exact (perm_middle.nodup_iff).mpr (nodup_cons.mpr ⟨hunmet.2, h.nodup⟩)

theorem pending_meet {j : ℕ} (hj : j < count) : pending count (s.meet j) = pending count s := by
  unfold Side.meet
  split
  · rfl
  next hnew =>
    have hmem : j ∈ Finset.range count \ s.seen := Finset.mem_sdiff.mpr ⟨Finset.mem_range.mpr hj, hnew⟩
    have hpos := Finset.card_pos.mpr ⟨j, hmem⟩
    unfold pending
    dsimp only
    rw [Finset.sdiff_insert, Finset.card_erase_of_mem hmem, length_cons]
    omega

structure Met (count : ℕ) (old : Finset ℕ) (js : List ℕ) (s s' : Side τ) : Prop where
  members : Members count old s'
  index : s'.index = s.index
  taken : s'.taken = s.taken
  seen : s.seen ⊆ s'.seen
  met : ∀ j ∈ js, j ∈ s'.seen
  pending : pending count s' = pending count s

theorem met_meet (h : Members count old s) {j : ℕ} (hj : j < count) : Met count old [j] s (s.meet j) where
  members := h.meet hj
  index := by unfold Side.meet; split <;> rfl
  taken := by unfold Side.meet; split <;> rfl
  seen := by
    unfold Side.meet
    split
    · exact subset_rfl
    · exact Finset.subset_insert _ _
  met := by
    intro k hk
    rw [mem_singleton.mp hk]
    unfold Side.meet
    split
    next hold => exact hold
    · exact Finset.mem_insert_self _ _
  pending := pending_meet hj

theorem met_foldl : ∀ {js : List ℕ} {s : Side τ}, Members count old s → (∀ j ∈ js, j < count) →
    Met count old js s (js.foldl Side.meet s)
  | [], _, h, _ => ⟨h, rfl, rfl, subset_rfl, nofun, rfl⟩
  | j :: js, s, h, hjs => by
    have hone := met_meet h (hjs j mem_cons_self)
    have hrest := met_foldl hone.members fun k hk => hjs k (mem_cons_of_mem _ hk)
    refine ⟨hrest.members, hrest.index.trans hone.index, hrest.taken.trans hone.taken, hone.seen.trans hrest.seen,
      fun k hk => ?_, hrest.pending.trans hone.pending⟩
    rcases mem_cons.mp hk with rfl | hk
    · exact hrest.seen (hone.met k mem_cons_self)
    · exact hrest.met k hk

end Meeting

/-- One side is in order: an element is listed under each label it carries until it is met. -/
structure Kept (labels : ℕ → List τ) (count : ℕ) (s : Pool τ) : Prop where
  listed : ∀ label, ∀ j < count, label ∈ labels j → j ∈ s.index label ∨ j ∈ s.seen
  bounded : ∀ label, ∀ j ∈ s.index label, j < count

structure Visited (labels : ℕ → List τ) (count : ℕ) (old : Finset ℕ) (asked : List τ) (s s' : Side τ) : Prop where
  members : Members count old s'
  kept : Kept labels count s'.toPool
  taken : s'.taken = s.taken
  seen : s.seen ⊆ s'.seen
  met : ∀ label ∈ asked, ∀ j < count, label ∈ labels j → j ∈ s'.seen
  pending : pending count s' = pending count s

section Visiting

variable {labels : ℕ → List τ} {count : ℕ} {old : Finset ℕ}

theorem Visited.trans {first second : List τ} {s s' s'' : Side τ} (h : Visited labels count old first s s')
    (h' : Visited labels count old second s' s'') : Visited labels count old (first ++ second) s s'' := by
  refine ⟨h'.members, h'.kept, h'.taken.trans h.taken, h.seen.trans h'.seen, ?_, h'.pending.trans h.pending⟩
  intro label hlabel j hj hcarries
  rcases mem_append.mp hlabel with hlabel | hlabel
  · exact h'.seen (h.met label hlabel j hj hcarries)
  · exact h'.met label hlabel j hj hcarries

variable [DecidableEq τ]

theorem visited_walk {s : Side τ} (hmembers : Members count old s) (hkept : Kept labels count s.toPool) (label : τ) :
    Visited labels count old [label] s (s.walk label) := by
  have hmet := met_foldl (s := { s with index := Function.update s.index label [] })
    ⟨hmembers.accounted, hmembers.fresh, hmembers.nodup⟩ (hkept.bounded label)
  have hindex : (s.walk label).index = Function.update s.index label [] := hmet.index
  -- The label is off the index, but whoever carries it was listed there and is met by now, or was met before.
  have hcarriers : ∀ j < count, label ∈ labels j → j ∈ (s.walk label).seen := fun j hj hcarries =>
    (hkept.listed label j hj hcarries).elim (hmet.met j) (hmet.seen ·)
  refine ⟨hmet.members, ⟨fun other j hj hcarries => ?_, fun other j hj => ?_⟩, hmet.taken, hmet.seen, ?_, hmet.pending⟩
  · by_cases heq : other = label
    · exact .inr (hcarriers j hj (heq ▸ hcarries))
    · rw [hindex, Function.update_of_ne heq]
      exact (hkept.listed other j hj hcarries).imp_right (hmet.seen ·)
  · rw [hindex] at hj
    by_cases heq : other = label
    · rw [heq, Function.update_self] at hj
      cases hj
    · rw [Function.update_of_ne heq] at hj
      exact hkept.bounded other j hj
  · intro other hother j hj hcarries
    exact hcarriers j hj (mem_singleton.mp hother ▸ hcarries)

theorem visited_visit : ∀ {asked : List τ} {s : Side τ}, Members count old s → Kept labels count s.toPool →
    Visited labels count old asked s (s.visit asked)
  | [], _, hmembers, hkept => ⟨hmembers, hkept, rfl, subset_rfl, nofun, rfl⟩
  | label :: asked, _, hmembers, hkept => by
    have hone := visited_walk hmembers hkept label
    exact hone.trans (visited_visit hone.members hone.kept)

theorem visited_foldl {others : ℕ → List τ} : ∀ {queue : List ℕ} {s : Side τ}, Members count old s →
    Kept labels count s.toPool →
    Visited labels count old (queue.flatMap others) s (queue.foldl (fun b i => b.visit (others i)) s)
  | [], _, hmembers, hkept => ⟨hmembers, hkept, rfl, subset_rfl, nofun, rfl⟩
  | i :: queue, s, hmembers, hkept => by
    have hone : Visited labels count old (others i) s (s.visit (others i)) := visited_visit hmembers hkept
    rw [flatMap_cons]
    exact hone.trans (visited_foldl hone.members hone.kept)

end Visiting

section BothSides

variable {la lb : ℕ → List τ} {m n : ℕ} {oldA oldB : Finset ℕ} {a b : Side τ}

def Linked (la lb : ℕ → List τ) (i j : ℕ) : Prop := ∃ label, label ∈ la i ∧ label ∈ lb j

structure Filling (la lb : ℕ → List τ) (m n : ℕ) (oldA oldB : Finset ℕ) (a b : Side τ) : Prop where
  membersA : Members m oldA a
  membersB : Members n oldB b
  keptA : Kept la m a.toPool
  keptB : Kept lb n b.toPool
  ahead : ∀ i, i ∈ oldA ∨ i ∈ a.taken → ∀ j < n, Linked la lb i j → j ∈ b.seen
  behind : ∀ j, j ∈ oldB ∨ j ∈ b.taken → ∀ i < m, Linked lb la j i → i ∈ a.seen

theorem Linked.symm {i j : ℕ} (h : Linked la lb i j) : Linked lb la j i :=
  let ⟨label, hi, hj⟩ := h
  ⟨label, hj, hi⟩

theorem Filling.swap (h : Filling la lb m n oldA oldB a b) : Filling lb la n m oldB oldA b a :=
  ⟨h.membersB, h.membersA, h.keptB, h.keptA, h.behind, h.ahead⟩

structure Settled (la lb : ℕ → List τ) (m n : ℕ) (a b : Pool τ) : Prop where
  keptA : Kept la m a
  keptB : Kept lb n b
  withinA : ∀ i ∈ a.seen, i < m
  withinB : ∀ j ∈ b.seen, j < n
  closed : ∀ i < m, ∀ j < n, Linked la lb i j → (i ∈ a.seen ↔ j ∈ b.seen)

theorem Settled.start {a b : Pool τ} (h : Settled la lb m n a b) {start : ℕ} (hstart : start < m)
    (hnew : start ∉ a.seen) :
    Filling la lb m n a.seen b.seen ⟨⟨a.index, insert start a.seen⟩, [start], []⟩ ⟨b, [], []⟩ where
  membersA := {
    accounted := fun j => by rw [Finset.mem_insert, nil_append, mem_singleton, or_comm]
    fresh := fun j hj => by
      rw [nil_append, mem_singleton] at hj
      exact hj ▸ ⟨hnew, hstart⟩
    nodup := nodup_singleton start }
  membersB := {
    accounted := fun j => by rw [nil_append]; simp
    fresh := nofun
    nodup := nodup_nil }
  keptA := ⟨fun label j hj hlabel => (h.keptA.listed label j hj hlabel).imp_right (Finset.mem_insert_of_mem ·),
    h.keptA.bounded⟩
  keptB := h.keptB
  ahead := fun i hi j hj hlinked => by
    have hi := hi.resolve_right not_mem_nil
    exact (h.closed i (h.withinA i hi) j hj hlinked).mp hi
  behind := fun j hj i hi hlinked => by
    have hj := hj.resolve_right not_mem_nil
    exact Finset.mem_insert_of_mem ((h.closed i hi j (h.withinB j hj) hlinked.symm).mpr hj)

theorem Members.of_taken {count : ℕ} {old : Finset ℕ} {s : Side τ} (h : Members count old s) {i : ℕ}
    (hi : i ∈ s.taken) :
    i ∉ old ∧ i < count := h.fresh i (mem_append_left _ hi)

theorem Members.of_queue {count : ℕ} {old : Finset ℕ} {s : Side τ} (h : Members count old s) (hqueue : s.queue = [])
    (i : ℕ) : i ∈ s.seen ↔ i ∈ old ∨ i ∈ s.taken := by
  rw [h.accounted, hqueue, append_nil]

theorem Filling.closed {a₀ b₀ : Pool τ} (h : Filling la lb m n a₀.seen b₀.seen a b) (hsettled : Settled la lb m n a₀ b₀)
    (hb : b.queue = []) {i j : ℕ} (hj : j < n) (hlinked : Linked la lb i j) (hi : i ∈ a.taken) : j ∈ b.taken := by
  have hfresh := h.membersA.of_taken hi
  rcases (h.membersB.of_queue hb j).mp (h.ahead i (.inr hi) j hj hlinked) with hold | hnew
  · exact absurd ((hsettled.closed i hfresh.2 j hj hlinked).mpr hold) hfresh.1
  · exact hnew

theorem Settled.swap {a b : Pool τ} (h : Settled la lb m n a b) : Settled lb la n m b a :=
  ⟨h.keptB, h.keptA, h.withinB, h.withinA, fun j hj i hi hlinked => (h.closed i hi j hj hlinked.symm).symm⟩

theorem Filling.settled (h : Filling la lb m n oldA oldB a b) (ha : a.queue = []) (hb : b.queue = [])
    (hwithinA : ∀ i ∈ oldA, i < m) (hwithinB : ∀ j ∈ oldB, j < n) : Settled la lb m n a.toPool b.toPool := by
  have hA := h.membersA.of_queue ha
  have hB := h.membersB.of_queue hb
  refine ⟨h.keptA, h.keptB, fun i hi => ?_, fun j hj => ?_, fun i hi j hj hlinked => ⟨fun hseen => ?_, fun hseen => ?_⟩⟩
  · exact ((hA i).mp hi).elim (hwithinA i) fun hi => (h.membersA.of_taken hi).2
  · exact ((hB j).mp hj).elim (hwithinB j) fun hj => (h.membersB.of_taken hj).2
  · exact h.ahead i ((hA i).mp hseen) j hj hlinked
  · exact h.behind j ((hB j).mp hseen) i hi hlinked.symm

structure Filled (la lb : ℕ → List τ) (m n : ℕ) (start : ℕ) (a b : Pool τ) (a' b' : Side τ) : Prop where
  settled : Settled la lb m n a'.toPool b'.toPool
  closed : ∀ i < m, ∀ j < n, Linked la lb i j → (i ∈ a'.taken ↔ j ∈ b'.taken)
  nodupA : a'.taken.Nodup
  nodupB : b'.taken.Nodup
  withinA : ∀ i ∈ a'.taken, i < m
  withinB : ∀ j ∈ b'.taken, j < n
  seen : a.seen ⊆ a'.seen
  started : start ∈ a'.seen

/-! ## Running -/

variable [DecidableEq τ]

theorem Filling.visited (h : Filling la lb m n oldA oldB a b) :
    Visited lb n oldB (a.queue.flatMap la) b (Flood.drain la a b).2 := visited_foldl h.membersB h.keptB

theorem Filling.drain (h : Filling la lb m n oldA oldB a b) :
    Filling la lb m n oldA oldB (drain la a b).1 (drain la a b).2 := by
  have hvisited := h.visited
  have hnil : ∀ j, j ∈ (a.taken ++ a.queue) ++ [] ↔ j ∈ a.taken ++ a.queue := fun j => by rw [append_nil]
  refine ⟨⟨fun j => ?_, fun j hj => ?_, ?_⟩, hvisited.members, h.keptA, hvisited.kept, ?_, ?_⟩
  · exact (h.membersA.accounted j).trans (or_congr_right (hnil j).symm)
  · exact h.membersA.fresh j ((hnil j).mp hj)
  · exact (append_nil (a.taken ++ a.queue)).symm ▸ h.membersA.nodup
  · intro i hi j hj hlinked
    -- Whoever was taken before was walked before; whoever waited is walked now.
    have hcases : (i ∈ oldA ∨ i ∈ a.taken) ∨ i ∈ a.queue := by
      rcases hi with hi | hi
      · exact .inl (.inl hi)
      · exact (mem_append.mp hi).imp_left .inr
    rcases hcases with hi | hi
    · exact hvisited.seen (h.ahead i hi j hj hlinked)
    · obtain ⟨label, hla, hlb⟩ := hlinked
      exact hvisited.met label (mem_flatMap.mpr ⟨i, hi, hla⟩) j hj hlb
  · intro j hj i hi hlinked
    exact h.behind j (hj.imp_right fun hj => hvisited.taken ▸ hj) i hi hlinked

theorem Filling.pending_drain (h : Filling la lb m n oldA oldB a b) :
    pending m (Flood.drain la a b).1 + a.queue.length = pending m a ∧
    pending n (Flood.drain la a b).2 = pending n b := ⟨rfl, h.visited.pending⟩

/-- **A fill ends**, with as much fuel as there are elements unmet or waiting, and stays in order. -/
theorem fill_queues : ∀ {fuel : ℕ} {a b : Side τ}, Filling la lb m n oldA oldB a b →
    pending m a + pending n b ≤ fuel →
    Filling la lb m n oldA oldB (fill la lb fuel a b).1 (fill la lb fuel a b).2 ∧
    (fill la lb fuel a b).1.queue = [] ∧ (fill la lb fuel a b).2.queue = [] ∧
    a.seen ⊆ (fill la lb fuel a b).1.seen
  | 0, a, b, h, hfuel => by
    have ha : a.queue.length = 0 := by unfold pending at hfuel; omega
    have hb : b.queue.length = 0 := by unfold pending at hfuel; omega
    exact ⟨h, length_eq_zero_iff.mp ha, length_eq_zero_iff.mp hb, subset_rfl⟩
  | fuel + 1, a, b, h, hfuel => by
    unfold fill
    split
    next hempty =>
      rw [Bool.and_eq_true, List.isEmpty_iff, List.isEmpty_iff] at hempty
      exact ⟨h, hempty.1, hempty.2, subset_rfl⟩
    next hne =>
      have hfirst := h.pending_drain
      have hsecond := h.drain.swap.pending_drain
      -- Something waits on the first side, or on the second one still after draining nothing.
      have hwaits : 0 < a.queue.length + (drain la a b).2.queue.length := by
        by_contra hzero
        have ha : a.queue = [] := length_eq_zero_iff.mp (by omega)
        have hsame : (drain la a b).2 = b := by rw [drain, ha, foldl_nil]
        have hb : b.queue = [] := length_eq_zero_iff.mp (by rw [hsame] at hzero; omega)
        exact hne (by rw [ha, hb]; rfl)
      have hless : pending m (drain lb (drain la a b).2 (drain la a b).1).2 +
          pending n (drain lb (drain la a b).2 (drain la a b).1).1 ≤ fuel := by omega
      obtain ⟨hfilling, ha, hb, hseen⟩ := fill_queues h.drain.swap.drain.swap hless
      exact ⟨hfilling, ha, hb, h.drain.swap.visited.seen.trans hseen⟩

theorem settled_whole : Settled la lb m n (.whole la m) (.whole lb n) := by
  have hkept : ∀ (labels : ℕ → List τ) (count : ℕ), Kept labels count (.whole labels count) := fun labels count =>
    ⟨fun label j hj hlabel => .inl (mem_filter.mpr ⟨mem_range.mpr hj, decide_eq_true hlabel⟩),
      fun label j hj => mem_range.mp (mem_filter.mp hj).1⟩
  exact ⟨hkept la m, hkept lb n, fun i hi => absurd hi (Finset.notMem_empty i),
    fun j hj => absurd hj (Finset.notMem_empty j),
    fun i _ j _ _ => iff_of_false (Finset.notMem_empty i) (Finset.notMem_empty j)⟩

section FillFrom

variable {a b : Pool τ} (h : Settled la lb m n a b) {start : ℕ} (hstart : start < m) (hnew : start ∉ a.seen)

include h hstart hnew

theorem fillFrom_ends :
    Filling la lb m n a.seen b.seen (fillFrom la lb (m + n) a b start).1 (fillFrom la lb (m + n) a b start).2 ∧
      (fillFrom la lb (m + n) a b start).1.queue = [] ∧ (fillFrom la lb (m + n) a b start).2.queue = [] ∧
      insert start a.seen ⊆ (fillFrom la lb (m + n) a b start).1.seen := by
  have hfuel : pending m (⟨⟨a.index, insert start a.seen⟩, [start], []⟩ : Side τ) +
      pending n (⟨b, [], []⟩ : Side τ) ≤ m + n := by
    have hmem : start ∈ Finset.range m \ a.seen := Finset.mem_sdiff.mpr ⟨Finset.mem_range.mpr hstart, hnew⟩
    have hA : (Finset.range m \ a.seen).card ≤ m := (Finset.card_le_card Finset.sdiff_subset).trans_eq (by simp)
    have hB : (Finset.range n \ b.seen).card ≤ n := (Finset.card_le_card Finset.sdiff_subset).trans_eq (by simp)
    unfold pending
    dsimp only
    rw [Finset.sdiff_insert, Finset.card_erase_of_mem hmem, length_singleton, length_nil]
    omega
  exact fill_queues (h.start hstart hnew) hfuel

theorem fillFrom_spec :
    Filled la lb m n start a b (fillFrom la lb (m + n) a b start).1 (fillFrom la lb (m + n) a b start).2 := by
  obtain ⟨hfilled, ha, hb, hseen⟩ := fillFrom_ends h hstart hnew
  have hmembers : ∀ {count : ℕ} {old : Finset ℕ} {s : Side τ}, Members count old s →
      s.taken.Nodup ∧ ∀ i ∈ s.taken, i < count := fun h =>
    ⟨h.nodup.sublist (sublist_append_left _ _), fun i hi => (h.of_taken hi).2⟩
  refine ⟨hfilled.settled ha hb h.withinA h.withinB, fun i hi j hj hlinked => ⟨?_, ?_⟩, (hmembers hfilled.membersA).1,
    (hmembers hfilled.membersB).1, (hmembers hfilled.membersA).2, (hmembers hfilled.membersB).2,
    (Finset.subset_insert _ _).trans hseen, hseen (Finset.mem_insert_self _ _)⟩
  · exact hfilled.closed h hb hj hlinked
  · exact hfilled.swap.closed h.swap ha hi hlinked.symm

end FillFrom

structure Sweeping (la lb : ℕ → List τ) (m n : ℕ) (starts : List ℕ)
    (state : Progress τ) : Prop where
  settled : Settled la lb m n state.1 state.2.1
  started : ∀ start ∈ starts, start ∈ state.1.seen
  closed : ∀ found ∈ state.2.2, ∀ i < m, ∀ j < n, Linked la lb i j → (i ∈ found.1 ↔ j ∈ found.2)
  nodup : ∀ found ∈ state.2.2, found.1.Nodup ∧ found.2.Nodup
  within : ∀ found ∈ state.2.2, (∀ i ∈ found.1, i < m) ∧ ∀ j ∈ found.2, j < n

theorem Sweeping.step {starts : List ℕ} {state : Progress τ}
    (h : Sweeping la lb m n starts state) {start : ℕ} (hstart : start < m) :
    Sweeping la lb m n (starts ++ [start]) (sweepStep la lb (m + n) state start) := by
  have hstarts : ∀ {seen : Finset ℕ}, state.1.seen ⊆ seen → start ∈ seen →
      ∀ other ∈ starts ++ [start], other ∈ seen := by
    intro seen hsub hmem other hother
    rcases mem_append.mp hother with hother | hother
    · exact hsub (h.started other hother)
    · exact mem_singleton.mp hother ▸ hmem
  unfold sweepStep
  split
  next hseen => exact ⟨h.settled, hstarts subset_rfl hseen, h.closed, h.nodup, h.within⟩
  next hnew =>
    have hfilled := fillFrom_spec h.settled hstart hnew
    have hfound : ∀ {P : List ℕ × List ℕ → Prop}, (∀ found ∈ state.2.2, P found) →
        P ((fillFrom la lb (m + n) state.1 state.2.1 start).1.taken,
          (fillFrom la lb (m + n) state.1 state.2.1 start).2.taken) →
        ∀ found ∈ state.2.2 ++ [((fillFrom la lb (m + n) state.1 state.2.1 start).1.taken,
          (fillFrom la lb (m + n) state.1 state.2.1 start).2.taken)], P found := by
      intro P hold hnew found hmem
      rcases mem_append.mp hmem with hmem | hmem
      · exact hold found hmem
      · exact mem_singleton.mp hmem ▸ hnew
    exact ⟨hfilled.settled, hstarts hfilled.seen hfilled.started, hfound h.closed hfilled.closed,
      hfound h.nodup ⟨hfilled.nodupA, hfilled.nodupB⟩, hfound h.within ⟨hfilled.withinA, hfilled.withinB⟩⟩

end BothSides

/-! ## What a fill takes is connected -/

inductive Bridge (la lb : ℕ → List τ) : ℕ ⊕ ℕ → ℕ ⊕ ℕ → Prop
  | across {i j : ℕ} (hlinked : Linked la lb i j) : Bridge la lb (.inl i) (.inr j)

def Connected (la lb : ℕ → List τ) : ℕ ⊕ ℕ → ℕ ⊕ ℕ → Prop := Relation.EqvGen (Bridge la lb)

structure Side.Led (labels : ℕ → List τ) (P : ℕ → Prop) (s : Side τ) : Prop where
  carries : ∀ label, ∀ j ∈ s.index label, label ∈ labels j
  has : ∀ j ∈ s.taken ++ s.queue, P j

section Leading

variable {labels : ℕ → List τ} {P Q : ℕ → Prop}

theorem Side.Led.foldl_meet : ∀ {js : List ℕ} {s : Side τ}, s.Led labels P → (∀ j ∈ js, P j) →
    (js.foldl Side.meet s).Led labels P
  | [], _, h, _ => h
  | j :: js, s, h, hjs => by
    have hone : (s.meet j).Led labels P := by
      unfold Side.meet
      split
      · exact h
      · refine ⟨h.carries, fun k hk => ?_⟩
        rcases mem_cons.mp (perm_middle.mem_iff.mp hk) with rfl | hk
        · exact hjs _ mem_cons_self
        · exact h.has k hk
    exact hone.foldl_meet fun k hk => hjs k (mem_cons_of_mem _ hk)

variable [DecidableEq τ]

theorem Side.Led.walk {s : Side τ} (h : s.Led labels P) {label : τ} (hlabel : ∀ j, label ∈ labels j → P j) :
    (s.walk label).Led labels P := by
  refine Side.Led.foldl_meet ⟨fun other j hj => ?_, h.has⟩ fun j hj => hlabel j (h.carries label j hj)
  by_cases heq : other = label
  · subst heq
    simp at hj
  · exact h.carries other j (by simpa [heq] using hj)

theorem Side.Led.visit : ∀ {asked : List τ} {s : Side τ}, s.Led labels P →
    (∀ label ∈ asked, ∀ j, label ∈ labels j → P j) → (s.visit asked).Led labels P
  | [], _, h, _ => h
  | label :: asked, s, h, hasked => by
    have hone := h.walk (hasked label mem_cons_self)
    show ((s.walk label).visit asked).Led labels P
    exact Side.Led.visit hone fun other hother => hasked other (mem_cons_of_mem _ hother)

variable {la lb : ℕ → List τ}

theorem led_drain {a b : Side τ} (hlinks : ∀ i j, P i → Linked la lb i j → Q j) (ha : a.Led la P) (hb : b.Led lb Q) :
    (drain la a b).1.Led la P ∧ (drain la a b).2.Led lb Q := by
  refine ⟨⟨ha.carries, by simpa [drain] using ha.has⟩, ?_⟩
  refine List.foldlRecOn (motive := fun s => Side.Led lb Q s) a.queue _ hb fun s hs i hi => ?_
  exact hs.visit fun label hlabel j hj => hlinks i j (ha.has i (mem_append_right _ hi)) ⟨label, hlabel, hj⟩

theorem led_fill (hlinks : ∀ i j, Linked la lb i j → (P i ↔ Q j)) : ∀ (fuel : ℕ) {a b : Side τ}, a.Led la P →
    b.Led lb Q → (fill la lb fuel a b).1.Led la P ∧ (fill la lb fuel a b).2.Led lb Q
  | 0, _, _, ha, hb => ⟨ha, hb⟩
  | fuel + 1, a, b, ha, hb => by
    unfold fill
    split
    · exact ⟨ha, hb⟩
    · obtain ⟨ha, hb⟩ := led_drain (fun i j hi hlinked => (hlinks i j hlinked).mp hi) ha hb
      obtain ⟨hb, ha⟩ := led_drain (fun j i hj hlinked => (hlinks i j hlinked.symm).mpr hj) hb ha
      exact led_fill hlinks fuel ha hb

end Leading

section Sweeping

variable [DecidableEq τ] {la lb : ℕ → List τ} {m n : ℕ}

/-- What the fills of a sweep took: connected to where the fill started, nothing twice, and all that was met. -/
structure Swept (la lb : ℕ → List τ) (state : Progress τ) : Prop where
  carriesA : ∀ label, ∀ i ∈ state.1.index label, label ∈ la i
  carriesB : ∀ label, ∀ j ∈ state.2.1.index label, label ∈ lb j
  connected : ∀ found ∈ state.2.2, ∃ start ∈ found.1,
    (∀ i ∈ found.1, Connected la lb (.inl start) (.inl i)) ∧ ∀ j ∈ found.2, Connected la lb (.inl start) (.inr j)
  metA : ∀ i, i ∈ state.1.seen ↔ ∃ found ∈ state.2.2, i ∈ found.1
  metB : ∀ j, j ∈ state.2.1.seen ↔ ∃ found ∈ state.2.2, j ∈ found.2
  apart : state.2.2.Pairwise fun f g => (∀ i ∈ f.1, i ∉ g.1) ∧ ∀ j ∈ f.2, j ∉ g.2

theorem swept_whole : Swept la lb (.whole la m, .whole lb n, []) := by
  have hcarries : ∀ (labels : ℕ → List τ) (count : ℕ) label, ∀ i ∈ holders labels count label, label ∈ labels i :=
    fun labels count label i hi => of_decide_eq_true (mem_filter.mp hi).2
  refine ⟨hcarries la m, hcarries lb n, nofun, ?_, ?_, .nil⟩ <;> simp [Pool.whole]

theorem Swept.step {starts : List ℕ} {state : Progress τ}
    (h : Swept la lb state) (hsweeping : Sweeping la lb m n starts state) {start : ℕ} (hstart : start < m) :
    Swept la lb (sweepStep la lb (m + n) state start) := by
  unfold sweepStep
  split
  · exact h
  next hnew =>
    have hlinks : ∀ i j, Linked la lb i j →
        (Connected la lb (.inl start) (.inl i) ↔ Connected la lb (.inl start) (.inr j)) := fun i j hlinked =>
      ⟨fun hi => hi.trans _ _ _ (.rel _ _ ⟨hlinked⟩),
        fun hj => hj.trans _ _ _ ((Relation.EqvGen.rel _ _ ⟨hlinked⟩).symm _ _)⟩
    obtain ⟨hledA, hledB⟩ := led_fill hlinks (m + n)
      (a := ⟨⟨state.1.index, insert start state.1.seen⟩, [start], []⟩) (b := ⟨state.2.1, [], []⟩)
      ⟨h.carriesA, by simpa using .refl _⟩ ⟨h.carriesB, nofun⟩
    obtain ⟨hfilling, hqueueA, hqueueB, hseen⟩ := fillFrom_ends hsweeping.settled hstart hnew
    have hseenA := hfilling.membersA.of_queue hqueueA
    have hseenB := hfilling.membersB.of_queue hqueueB
    have htaken : start ∈ (fillFrom la lb (m + n) state.1 state.2.1 start).1.taken :=
      ((hseenA start).mp (hseen (Finset.mem_insert_self _ _))).resolve_left hnew
    refine ⟨hledA.carries, hledB.carries, ?_, fun i => ?_, fun j => ?_, ?_⟩
    · intro found hfound
      rcases mem_append.mp hfound with hfound | hfound
      · exact h.connected found hfound
      · rw [mem_singleton.mp hfound]
        exact ⟨start, htaken, fun i hi => hledA.has i (mem_append_left _ hi),
          fun j hj => hledB.has j (mem_append_left _ hj)⟩
    · rw [hseenA, h.metA]
      simp [or_and_right, exists_or]
    · rw [hseenB, h.metB]
      simp [or_and_right, exists_or]
    · refine pairwise_append.mpr ⟨h.apart, pairwise_singleton _ _, fun f hf g hg => ?_⟩
      rw [mem_singleton.mp hg]
      exact ⟨fun i hi htaken => (hfilling.membersA.of_taken htaken).1 ((h.metA i).mpr ⟨f, hf, hi⟩),
        fun j hj htaken => (hfilling.membersB.of_taken htaken).1 ((h.metB j).mpr ⟨f, hf, hj⟩)⟩

/-- **A whole sweep** meets every element of the first side; what the fills took is closed under the links, connected,
and nothing is taken twice. -/
theorem swept_sweep (la lb : ℕ → List τ) (m n : ℕ) :
    Sweeping la lb m n (List.range m) (sweep la lb m n) ∧ Swept la lb (sweep la lb m n) := by
  have hrun : ∀ (rest starts : List ℕ) (state : Progress τ),
      (∀ start ∈ rest, start < m) → Sweeping la lb m n starts state → Swept la lb state →
      Sweeping la lb m n (starts ++ rest) (rest.foldl (sweepStep la lb (m + n)) state) ∧
        Swept la lb (rest.foldl (sweepStep la lb (m + n)) state) := by
    intro rest
    induction rest with
    | nil => exact fun starts _ _ hsweeping h => ⟨(append_nil starts).symm ▸ hsweeping, h⟩
    | cons start rest ih =>
      intro starts state hrest hsweeping h
      have hstart := hrest start mem_cons_self
      have hall := ih _ _ (fun other hother => hrest other (mem_cons_of_mem _ hother)) (hsweeping.step hstart)
        (h.step hsweeping hstart)
      rwa [append_assoc] at hall
  exact hrun (List.range m) [] _ (fun start hstart => mem_range.mp hstart)
    ⟨settled_whole, nofun, nofun, nofun, nofun⟩ swept_whole

end Sweeping

end Zond.Flood
