import Mathlib.Algebra.Ring.Nat
import Mathlib.Data.List.Basic

/-!
# Whether a wait was a host's own

`HostContention` of `detect/contention.rs`: one atomic word counts the conversations begun and those in flight. A
history is an order of the atomic writes of all threads; `leave` reads the word at some point of it, while its visit is
held.
-/

namespace Zond.Contention

open List

def IN_FLIGHT : UInt64 := 1

def BEGUN : UInt64 := (1 : UInt64) <<< 32

structure Visit where
  (company ticket : UInt64)

def begun (counts : UInt64) : UInt64 := counts / BEGUN

def Visit.leave (visit : Visit) (counts : UInt64) : Bool :=
  let since := (begun counts - visit.ticket) % BEGUN
  visit.company == 0 && since == 1

/-- The word, and the visits in the order they began, `none` once dropped. -/
structure State where
  counts : UInt64
  visits : List (Option Visit)

inductive Write
  | enter
  | drop (visit : ℕ)

namespace State

def new : State := ⟨0, []⟩

def enter (s : State) : State :=
  ⟨s.counts + (BEGUN + IN_FLIGHT), s.visits ++ [some ⟨s.counts % BEGUN, s.counts / BEGUN⟩]⟩

/-- One atomic write; only a visit that is held is dropped. -/
def step (s : State) : Write → Option State
  | .enter => some s.enter
  | .drop k => if s.visits[k]?.join.isSome then some ⟨s.counts - IN_FLIGHT, s.visits.set k none⟩ else none

def run (s : State) : List Write → Option State
  | [] => some s
  | write :: rest => (s.step write).bind (run · rest)

def inFlight (s : State) : ℕ := s.visits.countP Option.isSome

def Held (s : State) (k : ℕ) (visit : Visit) : Prop := s.visits[k]? = some (some visit)

/-- The word says what it is for, and so does every visit. -/
structure Sound (s : State) : Prop where
  counts_eq : s.counts.toNat = s.visits.length * 2 ^ 32 + s.inFlight
  ticket_eq : ∀ {k visit}, s.Held k visit → visit.ticket.toNat = k
  company_ne : ∀ {i k visit visit'}, i < k → s.Held i visit' → s.Held k visit → visit.company ≠ 0

variable {s s' : State} {k : ℕ} {visit : Visit}

theorem inFlight_le (s : State) : s.inFlight ≤ s.visits.length := countP_le_length

theorem inFlight_pos (h : s.Held k visit) : 0 < s.inFlight := countP_pos_iff.mpr ⟨_, mem_of_getElem? h, rfl⟩

theorem Sound.halves (h : s.Sound) (hbegun : s.visits.length < 2 ^ 32) :
    (begun s.counts).toNat = s.visits.length ∧ (s.counts % BEGUN).toNat = s.inFlight := by
  have hle := s.inFlight_le
  have hword : BEGUN.toNat = 2 ^ 32 := rfl
  rw [begun, UInt64.toNat_div, UInt64.toNat_mod, h.counts_eq, hword]
  omega

theorem held_enter (h : s.enter.Held k visit) :
    s.Held k visit ∨ k = s.visits.length ∧ visit = ⟨s.counts % BEGUN, s.counts / BEGUN⟩ := by
  unfold Held enter at *
  rcases Nat.lt_trichotomy k s.visits.length with hlt | rfl | hgt
  · exact .inl (by simpa [getElem?_append_left hlt] using h)
  · simp at h
    exact .inr ⟨rfl, h.symm⟩
  · rw [getElem?_append_right (Nat.le_of_lt hgt), getElem?_singleton, if_neg (by omega)] at h
    cases h

theorem Sound.enter (h : s.Sound) (hbegun : s.visits.length + 1 < 2 ^ 32) : s.enter.Sound := by
  obtain ⟨hbegan, hflight⟩ := h.halves (by omega)
  constructor
  · have hle := s.inFlight_le
    have hone : (BEGUN + IN_FLIGHT).toNat = 2 ^ 32 + 1 := rfl
    simp only [State.enter, inFlight, UInt64.toNat_add, h.counts_eq, hone, length_append, countP_append] at hle ⊢
    simp
    omega
  · intro k visit hk
    rcases held_enter hk with hk | ⟨rfl, rfl⟩
    · exact h.ticket_eq hk
    · exact hbegan
  · intro i k visit visit' hlt hi hk
    rcases held_enter hi with hi | ⟨rfl, -⟩
    · rcases held_enter hk with hk | ⟨rfl, rfl⟩
      · exact h.company_ne hlt hi hk
      · have hpos := inFlight_pos hi
        intro hzero
        rw [show s.counts % BEGUN = 0 from hzero] at hflight
        exact Nat.ne_of_lt hpos hflight
    · have hk := (List.getElem?_eq_some_iff.mp hk).1
      simp [State.enter] at hk
      omega

/-- What a write leaves: at most one visit more, and of the others none that was not held. -/
theorem step_frame {write : Write} (hstep : s.step write = some s') :
    s.visits.length ≤ s'.visits.length ∧ ∀ {k visit}, k < s.visits.length → s'.Held k visit → s.Held k visit := by
  cases write with
  | enter =>
    obtain rfl : s.enter = s' := Option.some.inj hstep
    refine ⟨by simp [State.enter], fun hk hheld => ?_⟩
    rcases held_enter hheld with hheld | ⟨rfl, -⟩
    · exact hheld
    · exact absurd hk (Nat.lt_irrefl _)
  | drop k =>
    simp only [State.step, Option.ite_none_right_eq_some, Option.some.injEq] at hstep
    obtain ⟨-, rfl⟩ := hstep
    refine ⟨by simp, fun hi hheld => ?_⟩
    unfold Held at *
    grind

theorem Sound.step (h : s.Sound) {write : Write} (hstep : s.step write = some s') (hbegun : s'.visits.length < 2 ^ 32) :
    s'.Sound := by
  have hframe := step_frame hstep
  cases write with
  | enter =>
    obtain rfl : s.enter = s' := Option.some.inj hstep
    apply h.enter
    simpa [State.enter] using hbegun
  | drop k =>
    simp only [State.step, Option.ite_none_right_eq_some, Option.some.injEq] at hstep
    obtain ⟨hsome, rfl⟩ := hstep
    obtain ⟨visit, hvisit⟩ := Option.isSome_iff_exists.mp hsome
    have hvisit : s.Held k visit := Option.join_eq_some_iff.mp hvisit
    have hkept {i : ℕ} {other : Visit} (hi : State.Held ⟨s.counts - IN_FLIGHT, s.visits.set k none⟩ i other) :
        s.Held i other := by
      apply hframe.2 _ hi
      simpa using (List.getElem?_eq_some_iff.mp hi).1
    refine ⟨?_, fun hi => h.ticket_eq (hkept hi), fun hlt hi hj => h.company_ne hlt (hkept hi) (hkept hj)⟩
    have hpos := inFlight_pos hvisit
    have hle := s.inFlight_le
    obtain ⟨hlt, hget⟩ := List.getElem?_eq_some_iff.mp hvisit
    simp only [length_set] at hbegun
    have hone : IN_FLIGHT.toNat = 1 := rfl
    have hcount : (s.visits.set k none).countP Option.isSome =
      s.inFlight - 1 := by simp [inFlight, countP_set, hlt, hget]
    simp only [UInt64.toNat_sub, h.counts_eq, hone, length_set, inFlight, hcount] at *
    omega

theorem run_frame : ∀ {writes : List Write} {s : State}, s.run writes = some s' →
    s.visits.length ≤ s'.visits.length ∧ ∀ {k visit}, k < s.visits.length → s'.Held k visit → s.Held k visit
  | [], s, hrun => by
    obtain rfl : s = s' := Option.some.inj hrun
    exact ⟨Nat.le_refl _, fun _ hk => hk⟩
  | write :: writes, s, hrun => by
    obtain ⟨mid, hstep, hrest⟩ := Option.bind_eq_some_iff.mp hrun
    obtain ⟨hle, hheld⟩ := step_frame hstep
    obtain ⟨hle', hheld'⟩ := run_frame hrest
    exact ⟨Nat.le_trans hle hle', fun hk hvisit => hheld hk (hheld' (Nat.lt_of_lt_of_le hk hle) hvisit)⟩

theorem Sound.run : ∀ {writes : List Write} {s : State}, s.Sound → s.run writes = some s' →
    s'.visits.length < 2 ^ 32 → s'.Sound
  | [], s, h, hrun, _ => by
    obtain rfl : s = s' := Option.some.inj hrun
    exact h
  | write :: writes, s, h, hrun, hbegun => by
    obtain ⟨mid, hstep, hrest⟩ := Option.bind_eq_some_iff.mp hrun
    -- fewer had begun at the write than at the end
    have hmid := Nat.lt_of_le_of_lt (run_frame hrest).1 hbegun
    exact Sound.run (h.step hstep hmid) hrest hbegun

theorem new_sound : new.Sound := ⟨rfl, by simp [new, Held], by simp [new, Held]⟩

theorem Sound.leave_iff (h : s.Sound) (hbegun : s.visits.length < 2 ^ 32) (hheld : s.Held k visit) :
    visit.leave s.counts = true ↔ visit.company = 0 ∧ s.visits.length = k + 1 := by
  have hk := (List.getElem?_eq_some_iff.mp hheld).1
  have hword : BEGUN.toNat = 2 ^ 32 := rfl
  simp only [Visit.leave, Bool.and_eq_true, beq_iff_eq, ← UInt64.toNat_inj, UInt64.toNat_mod, UInt64.toNat_sub,
    (h.halves hbegun).1, h.ticket_eq hheld, hword]
  simp
  omega

/-- The wait that `leave` reads is the conversation's own exactly when none was in flight as it entered and none began
since; of two that overlap neither is read so. -/
theorem leave_alone_iff (before between : List Write) (s₀ s : State) (h₀ : new.run before = some s₀)
    (h : s₀.enter.run between = some s) (hbegun : s.visits.length < 2 ^ 32) :
    (s.counts.toNat / 2 ^ 32 = s.visits.length ∧ s.counts.toNat % 2 ^ 32 = s.inFlight) ∧
    (∀ visit, s.Held s₀.visits.length visit →
      (visit.leave s.counts = true ↔ s₀.inFlight = 0 ∧ s.visits.length = s₀.visits.length + 1)) ∧
    ∀ i j first second, i < j → s.Held i first → (j < s.visits.length → first.leave s.counts = false) ∧
      (s.Held j second → ∀ counts, second.leave counts = false) := by
  have hlen : s₀.enter.visits.length = s₀.visits.length + 1 := length_append
  obtain ⟨hle, hkept⟩ := run_frame h
  have hsound₀ := new_sound.run h₀ (by omega)
  have hsound := (hsound₀.enter (by omega)).run h hbegun
  refine ⟨hsound.halves hbegun, fun visit hvisit => ?_, fun i j first second hij hi =>
    ⟨fun hj => ?_, fun hj counts => ?_⟩⟩
  · rw [hsound.leave_iff hbegun hvisit]
    rcases held_enter (hkept (by omega) hvisit) with hold | ⟨-, rfl⟩
    · exact absurd (List.getElem?_eq_some_iff.mp hold).1 (Nat.lt_irrefl _)
    · rw [← UInt64.toNat_inj, (hsound₀.halves (by omega)).2]
      rfl
  · rw [← Bool.not_eq_true, hsound.leave_iff hbegun hi]
    omega
  · simp [Visit.leave, hsound.company_ne hij hi hj]

/-- A conversation of another thread that ended before this one began does not matter. -/
theorem leave_alone_second : ∃ s visit, new.run [.enter, .drop 0, .enter] = some s ∧ s.Held 1 visit ∧
    visit.leave s.counts = true :=
  ⟨_, _, rfl, rfl, ((leave_alone_iff [.enter, .drop 0] [] _ _ rfl rfl (by decide)).2.1 _ rfl).mpr ⟨rfl, rfl⟩⟩

end State

end Zond.Contention
