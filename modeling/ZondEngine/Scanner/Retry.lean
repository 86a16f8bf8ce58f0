import ZondEngine.Lib.Containers
import ZondEngine.Model.Ip.Range

/-!
# The ledger of outstanding probes

`ProbeLedger` of `scanner/pacing/retry.rs`: a record for each outstanding probe, a queue of timers, and what is known of
each host. A timer is never cancelled: it is stale once its record has moved on to another generation. Times are
nanoseconds, and what the ledger takes from outside is its `Runtime`.
-/

namespace Zond.Retry

open Zond.Ip

structure SilentHostPolicy where
  (threshold reducedAttempts : Nat)

structure RetryPolicy where
  (maxAttempts initialRto minRto maxRto : Nat)
  silentHost : Option SilentHostPolicy
  crossHostEstimate : Bool
  maxAttempts_le : maxAttempts ≤ 255

/-! ## Round trips -/

def DURATION_MAX : Nat := 2 ^ 64 * 10 ^ 9 - 1

def MIN_HEADROOM_DIVISOR : Nat := 4

structure RttEstimator where
  smoothed : Option Nat
  variation : Nat
  seeded : Bool

namespace RttEstimator

def default : RttEstimator := ⟨none, 0, false⟩

variable (e : RttEstimator)

/-- Takes a sample into the estimate. -/
def record (sample : Nat) : RttEstimator :=
  match if e.seeded then none else e.smoothed with
  | none => ⟨some sample, sample / 2, false⟩
  | some smoothed =>
    let deviation := max smoothed sample - min smoothed sample
    ⟨some ((smoothed * 7 + sample) / 8), (e.variation * 3 + deviation) / 4, false⟩

def timeout : Option Nat :=
  e.smoothed.map fun smoothed => min (smoothed + max (e.variation * 4) (smoothed / MIN_HEADROOM_DIVISOR)) DURATION_MAX

def isEmpty : Bool := e.smoothed.isNone

def seed (rtt : Nat) : RttEstimator :=
  if e.isEmpty then { e.record rtt with seeded := true } else e

end RttEstimator

/-! ## Records -/

def MAX_TRACKED_ATTEMPTS : Nat := 4

structure Attempt (T : Type) where
  token : T
  sentAt : Nat
  witnessed : Bool

/-- One outstanding probe. -/
structure Record (T P : Type) where
  payload : P
  host : IpAddr
  attempts : List (Attempt T)
  (sends witnessed recorded budget generation : Nat)
  deferred : Bool

namespace Record

variable {T P : Type}

def new (host : IpAddr) (budget generation : Nat) (payload : P) : Record T P :=
  ⟨payload, host, [], 1, 0, 0, budget, generation, false⟩

variable (r : Record T P) (token : T)

def recordAttempt (sentAt : Nat) : Record T P :=
  let fresh : Attempt T := ⟨token, sentAt, false⟩
  { r with
    recorded := Word.satAdd 8 r.recorded 1
    attempts :=
      if r.attempts.length = MAX_TRACKED_ATTEMPTS then r.attempts.tail ++ [fresh] else r.attempts ++ [fresh] }

variable [DecidableEq T]

/-- Marks the attempt a reply answers, once. -/
def witness : Record T P × Bool :=
  match r.attempts.findIdx? (fun attempt => attempt.token = token) with
  | none => (r, false)
  | some slot =>
    if (r.attempts[slot]?).any (·.witnessed) then (r, false)
    else
      ({ r with
        attempts := r.attempts.modify slot fun attempt => { attempt with witnessed := true }
        witnessed := Word.satAdd 8 r.witnessed 1 }, true)

theorem witness_eq :
    (r.witness token).1.host = r.host ∧ (r.witness token).1.sends = r.sends ∧ (r.witness token).1.budget = r.budget ∧
      (r.witness token).1.generation = r.generation ∧ (r.witness token).1.deferred = r.deferred := by
  unfold witness
  split
  · exact ⟨rfl, rfl, rfl, rfl, rfl⟩
  · split
    · exact ⟨rfl, rfl, rfl, rfl, rfl⟩
    · exact ⟨rfl, rfl, rfl, rfl, rfl⟩

/-- The attempt an answer's token names. -/
def attemptOf : Option (Nat × Nat) :=
  (r.attempts.zipIdx.find? fun attempt => attempt.1.token = token).map fun attempt =>
    (r.recorded - (r.attempts.length - 1 - attempt.2), attempt.1.sentAt)

omit [DecidableEq T] in
def unambiguousSentAt : Option Nat :=
  if r.sends ≠ 1 then none else r.attempts.head?.map (·.sentAt)

def attributed (token : Option T) : Option (Option (Nat × Nat)) :=
  match token with
  | some token => (r.attemptOf token).map some
  | none => some (r.unambiguousSentAt.map fun sentAt => (1, sentAt))

end Record

structure HostState where
  estimator : RttEstimator
  (outstanding answers silences exhaustedSilently : Nat)

def HostState.default : HostState := ⟨.default, 0, 0, 0, 0⟩

/-- How many attempts a host is given. -/
def RetryPolicy.budgetFor (policy : RetryPolicy) (host : Option HostState) : Nat :=
  match policy.silentHost, host with
  | none, _ | _, none => policy.maxAttempts
  | some rule, some host =>
    if host.answers = 0 ∧ rule.threshold ≤ host.exhaustedSilently then min rule.reducedAttempts policy.maxAttempts
    else policy.maxAttempts

structure Timer (K : Type) where
  due : Nat
  key : K
  generation : Nat
  deriving DecidableEq

inductive Due (K P : Type) where
  | retry (key : K) (attempt : Nat)
  | exhausted (key : K) (payload : P) (attempts witnessed : Nat)

structure Resolution (P : Type) where
  payload : P
  rtt : Option Nat
  attempts : Nat
  answeredAttempt : Option Nat

structure Runtime (K : Type) where
  heap : Heap (Timer K) Timer.due
  scale : (base attempt ceiling : Nat) → Nat
  spread : (draw base : Nat) → Nat
  lastInstant : Nat

def FAR_FUTURE : Nat := 30 * 365 * 24 * 60 * 60 * 10 ^ 9

def later {K : Type} (rt : Runtime K) (start delay : Nat) : Nat :=
  if start + delay ≤ rt.lastInstant then start + delay
  else if start + FAR_FUTURE ≤ rt.lastInstant then start + FAR_FUTURE
  else start

/-! ## The ledger -/

/-- The outstanding probes of one scanner. `taken` counts generations, of which the program keeps the low 32 bits. -/
structure ProbeLedger (K T P : Type) where
  policy : RetryPolicy
  records : AList fun _ : K => Record T P
  timers : List (Timer K)
  hosts : IpAddr → HostState
  global : RttEstimator
  (taken draws : Nat)

namespace ProbeLedger

variable {K T P : Type}

def new (policy : RetryPolicy) : ProbeLedger K T P := ⟨policy, ∅, [], fun _ => .default, .default, 0, 0⟩

variable (l : ProbeLedger K T P)

def generation : Nat := l.taken % 2 ^ 32

def takeGeneration : ProbeLedger K T P := { l with taken := l.taken + 1 }

variable (host : IpAddr)

def setHost (state : HostState) : ProbeLedger K T P :=
  { l with hosts := Function.update l.hosts host state }

variable (rt : Runtime K)

/-- How long an attempt at a host may take. -/
def timeoutFor (l : ProbeLedger K T P) (host : IpAddr) (attempt : Nat) : Nat :=
  let measured := (l.hosts host).estimator.timeout.or (if l.policy.crossHostEstimate then l.global.timeout else none)
  let ceiling := max l.policy.maxRto l.policy.minRto
  let base := measured.getD l.policy.initialRto
  rt.spread l.draws (rt.scale (max l.policy.minRto (min base ceiling)) attempt ceiling)

/-- Gives up a probe at a host, which may have been silent. -/
def retire : ProbeLedger K T P :=
  let state := l.hosts host
  l.setHost host
    { state with
      outstanding := state.outstanding - 1
      exhaustedSilently :=
        if state.answers = 0 then Word.satAdd 16 state.exhaustedSilently 1 else state.exhaustedSilently }

def countSilence (record : Record T P) : ProbeLedger K T P :=
  let state := l.hosts record.host
  if record.sends = 1 then l.setHost record.host { state with silences := Word.satAdd 32 state.silences 1 } else l

variable [DecidableEq K]

def schedule (l : ProbeLedger K T P) (host : IpAddr) (key : K) (record : Record T P) (now : Nat) : ProbeLedger K T P :=
  { l with
    records := l.records.insert key record
    timers := rt.heap.push l.timers ⟨later rt now (l.timeoutFor rt host record.sends), key, record.generation⟩
    draws := l.draws + 1 }

/-- Files an attempt of a probe, and its timer. -/
def armInner (l : ProbeLedger K T P) (host : IpAddr) (key : K) (token : T) (payload : Option P)
    (now : Nat) : ProbeLedger K T P :=
  let l := l.takeGeneration
  let state := l.hosts host
  let budget := l.policy.budgetFor (some state)
  match l.records.lookup key with
  | some record =>
    let record := { record with
      budget, generation := l.generation, deferred := false, payload := payload.getD record.payload }
    l.schedule rt host key (record.recordAttempt token now) now
  | none =>
    match payload with
    -- A retry of a probe resolved or retired since: dropped, like a stale timer.
    | none => l
    | some payload =>
      (l.setHost host { state with outstanding := (state.outstanding + 1) % 2 ^ 32 }).schedule rt host key
        ((Record.new host budget l.generation payload).recordAttempt token now) now

def arm (l : ProbeLedger K T P) (host : IpAddr) (key : K) (token : T) (payload : P) (now : Nat) : ProbeLedger K T P :=
  l.armInner rt host key token (some payload) now

def rearm (l : ProbeLedger K T P) (host : IpAddr) (key : K) (token : T) (now : Nat) : ProbeLedger K T P :=
  l.armInner rt host key token none now

def resolved (key : K) (record : Record T P) (rtt : Option Nat) : ProbeLedger K T P :=
  let state := l.hosts record.host
  { (l.setHost record.host
      { state with
        outstanding := state.outstanding - 1
        answers := Word.satAdd 32 state.answers 1
        estimator := rtt.elim state.estimator state.estimator.record }) with
    records := l.records.erase key
    global := rtt.elim l.global l.global.record }

/-- Takes an answered probe off the ledger. -/
def resolve [DecidableEq T] (l : ProbeLedger K T P) (key : K) (token : Option T) (now : Nat) :
    ProbeLedger K T P × Option (Resolution P) :=
  match l.records.lookup key with
  | none => (l, none)
  | some record =>
    match record.attributed token with
    | none => (l, none)
    | some attributed =>
      let rtt := attributed.map fun attempt => now - attempt.2
      (l.resolved key record rtt, some ⟨record.payload, rtt, record.sends, attributed.map (·.1)⟩)

structure Fired (K P : Type) where
  due : Due K P
  budget : Nat

def fire (l : ProbeLedger K T P) (timer : Timer K) (now : Nat) : ProbeLedger K T P × Option (Fired K P) :=
  match l.records.lookup timer.key with
  | none => (l, none)
  | some record =>
    if record.generation ≠ timer.generation then (l, none)
    else
      let l := l.countSilence record
      if record.budget ≤ record.sends then
        (({ l with records := l.records.erase timer.key }).retire record.host,
          some ⟨.exhausted timer.key record.payload record.sends record.witnessed, record.budget⟩)
      else
        let l := l.takeGeneration
        (l.schedule rt record.host timer.key
            { record with sends := record.sends + 1, generation := l.generation } now,
          some ⟨.retry timer.key (record.sends + 1), record.budget⟩)

def drainStep (l : ProbeLedger K T P) (now : Nat) : Option (ProbeLedger K T P × Option (Fired K P)) :=
  match rt.heap.pop l.timers with
  | none => none
  | some (timer, timers) => if now < timer.due then none else some (({ l with timers }).fire rt timer now)

def drainLoop (rt : Runtime K) (now : Nat) : Nat → ProbeLedger K T P → ProbeLedger K T P × List (Fired K P)
  | 0, l => (l, [])
  | fuel + 1, l =>
    match l.drainStep rt now with
    | none => (l, [])
    | some (l, fired) =>
      let rest := drainLoop rt now fuel l
      (rest.1, fired.toList ++ rest.2)

omit [DecidableEq K] in
/-- The retries still to be charged and the timers still to be popped. -/
def potential : Nat :=
  Table.weigh (fun record => record.budget - record.sends) l.records + l.timers.length

def drainFired (l : ProbeLedger K T P) (now : Nat) : ProbeLedger K T P × List (Fired K P) :=
  drainLoop rt now l.potential l

/-- Fires every timer that is due. -/
def drainDue (l : ProbeLedger K T P) (now : Nat) : ProbeLedger K T P × List (Due K P) :=
  ((l.drainFired rt now).1, (l.drainFired rt now).2.map (·.due))

def defer (key : K) : ProbeLedger K T P :=
  let l := l.takeGeneration
  match l.records.lookup key with
  | none => l
  | some record =>
    { l with records := l.records.insert key { record with generation := l.generation, deferred := true } }

/-- Takes a deferred probe up again. -/
def resume (l : ProbeLedger K T P) (key : K) (now : Nat) : ProbeLedger K T P :=
  match l.records.lookup key with
  | none => l
  | some record =>
    if !record.deferred then l
    else
      let l := l.takeGeneration
      l.schedule rt record.host key { record with deferred := false, generation := l.generation } now

omit [DecidableEq K] in
def drainUnresolved : ProbeLedger K T P × List K :=
  ({ l with timers := [], records := ∅, hosts := fun host => { l.hosts host with outstanding := 0 } }, l.records.keys)

def witness [DecidableEq T] (l : ProbeLedger K T P) (key : K) (token : T) : ProbeLedger K T P × Bool :=
  match l.records.lookup key with
  | none => (l, false)
  | some record => ({ l with records := l.records.insert key (record.witness token).1 }, (record.witness token).2)

omit [DecidableEq K] in
def seedHostRtt (rtt : Nat) : ProbeLedger K T P :=
  { (l.setHost host { l.hosts host with estimator := (l.hosts host).estimator.seed rtt }) with
    global := if l.policy.crossHostEstimate then l.global.seed rtt else l.global }

/-! ## The loop of `drainDue` ends -/

omit [DecidableEq K] in
theorem outstanding_setHost (state : HostState) (other : IpAddr) : ((l.setHost host state).hosts other).outstanding =
      if other = host then state.outstanding else (l.hosts other).outstanding := by
  show (Function.update l.hosts host state other).outstanding = _
  split
  · rename_i hhost
    rw [hhost, Function.update_self]
  · rename_i hhost
    rw [Function.update_of_ne hhost]

omit [DecidableEq K] in
theorem outstanding_setHost_of_eq {host : IpAddr} {state : HostState}
    (h : state.outstanding = (l.hosts host).outstanding) (other : IpAddr) :
    ((l.setHost host state).hosts other).outstanding = (l.hosts other).outstanding := by
  rw [outstanding_setHost]
  split
  · rename_i hhost
    rw [hhost, h]
  · rfl

omit [DecidableEq K] in
theorem countSilence_eq (record : Record T P) :
    (l.countSilence record).policy = l.policy ∧ (l.countSilence record).records = l.records ∧
      (l.countSilence record).timers = l.timers ∧ (l.countSilence record).taken = l.taken ∧
      ∀ host, ((l.countSilence record).hosts host).outstanding = (l.hosts host).outstanding := by
  unfold countSilence
  split
  · exact ⟨rfl, rfl, rfl, rfl, outstanding_setHost_of_eq l rfl⟩
  · exact ⟨rfl, rfl, rfl, rfl, fun _ => rfl⟩

theorem drainStep_some {rt : Runtime K} {l l' : ProbeLedger K T P} {now : Nat} {fired : Option (Fired K P)}
    (h : l.drainStep rt now = some (l', fired)) :
    ∃ timer timers, l.timers.Perm (timer :: timers) ∧ ({ l with timers }).fire rt timer now = (l', fired) := by
  unfold drainStep at h
  cases hpop : rt.heap.pop l.timers with
  | none =>
    rw [hpop] at h
    cases h
  | some popped =>
    obtain ⟨timer, timers⟩ := popped
    rw [hpop] at h
    dsimp only at h
    split at h
    · cases h
    · exact ⟨timer, timers, rt.heap.pop_perm _ _ _ hpop, Option.some_inj.mp h⟩

theorem drainStep_none {rt : Runtime K} {l : ProbeLedger K T P} {now : Nat} (h : l.drainStep rt now = none) :
    ∀ timer ∈ l.timers, now < timer.due := by
  intro timer hmem
  unfold drainStep at h
  cases hpop : rt.heap.pop l.timers with
  | none =>
    rw [rt.heap.pop_none _ hpop] at hmem
    cases hmem
  | some popped =>
    have hleast := rt.heap.pop_least _ _ _ hpop timer hmem
    rw [hpop] at h
    dsimp only at h
    split at h
    · omega
    · cases h

theorem potential_schedule (l : ProbeLedger K T P) (host : IpAddr) (key : K) (record : Record T P)
    (now : Nat) : (l.schedule rt host key record now).potential =
      Table.weigh (fun record => record.budget - record.sends) (l.records.insert key record) + (l.timers.length + 1) :=
  congrArg (_ + ·) (rt.heap.push_perm l.timers _).length_eq

theorem potential_fire (l : ProbeLedger K T P) (timer : Timer K) (now : Nat) :
    (l.fire rt timer now).1.potential ≤ l.potential := by
  unfold fire
  cases hlookup : l.records.lookup timer.key with
  | none => exact Nat.le_refl _
  | some record =>
    obtain ⟨-, hrecords, htimers, -⟩ := countSilence_eq l record
    dsimp only
    split
    · exact Nat.le_refl _
    · split
      · show Table.weigh _ ((l.countSilence record).records.erase timer.key) + (l.countSilence record).timers.length ≤ _
        have := Table.weigh_erase (fun record => record.budget - record.sends) hlookup
        rw [hrecords, htimers, potential]
        omega
      · have := Table.weigh_replace (fun record => record.budget - record.sends) hlookup
          { record with sends := record.sends + 1, generation := (l.countSilence record).takeGeneration.generation }
        rw [potential_schedule]
        show Table.weigh _ ((l.countSilence record).records.insert timer.key _) +
          ((l.countSilence record).timers.length + 1) ≤ _
        rw [hrecords, htimers]
        unfold potential
        dsimp only at this ⊢
        omega

/-- **Every step of the loop spends some of the potential.** -/
theorem potential_drainStep {rt : Runtime K} {l l' : ProbeLedger K T P} {now : Nat} {fired : Option (Fired K P)}
    (h : l.drainStep rt now = some (l', fired)) : l'.potential < l.potential := by
  obtain ⟨timer, timers, hperm, hfire⟩ := drainStep_some h
  have hkept := potential_fire rt { l with timers } timer now
  rw [hfire] at hkept
  refine hkept.trans_lt ?_
  refine Nat.add_lt_add_left ?_ _
  rw [hperm.length_eq]
  exact Nat.lt_succ_self _

theorem drainLoop_done (rt : Runtime K) (now : Nat) : ∀ (fuel : Nat) (l : ProbeLedger K T P), l.potential ≤ fuel →
    (drainLoop rt now fuel l).1.drainStep rt now = none
  | 0, l, hfuel => by
    rw [drainLoop]
    cases hstep : l.drainStep rt now with
    | none => rfl
    | some step =>
      have hless : step.1.potential < l.potential := potential_drainStep hstep
      omega
  | fuel + 1, l, hfuel => by
    rw [drainLoop]
    cases hstep : l.drainStep rt now with
    | none => exact hstep
    | some step =>
      have hless : step.1.potential < l.potential := potential_drainStep hstep
      exact drainLoop_done rt now fuel step.1 (by omega)

/-- **`drainDue` returns with no timer due**, whatever the timeouts. -/
theorem drainDue_done (l : ProbeLedger K T P) (now : Nat) : ∀ timer ∈ (l.drainDue rt now).1.timers, now < timer.due :=
  drainStep_none (drainLoop_done rt now l.potential l (Nat.le_refl _))

end ProbeLedger

end Zond.Retry
