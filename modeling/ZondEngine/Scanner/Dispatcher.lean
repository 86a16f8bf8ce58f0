import ZondEngine.Journal.Cursor
import ZondEngine.Model.TargetIndex

/-!
# Handing out the targets of a port scan

The walk of `scanner/dispatcher.rs` streams the targets of a plan, passing over what was settled, may not be asked or is
not alive. What it meets as it runs is answered by the moment it asks (`Sitting`). Between two targets the walk is
`Running`: every unsettled target met is accounted for or waits in the batch. `spawn_accounts`: each once.
-/

namespace Zond.Dispatch

open Zond.Ip Zond.Journal Zond.Order Zond.Plan List

/-! ## The channel -/

/-- What a stream meets, by the moment it asks: the stop, the receiver and the shuffle. -/
structure Channel (T : Type) where
  shouldStop : Nat → Bool
  accepts : Nat → Bool
  shuffle : Nat → List T → List T
  shuffle_perm : ∀ now batch, (shuffle now batch).Perm batch

/-- A batch sent: the moment after, what reached the channel, the running count of it, and whether to go on. -/
structure Drained (T : Type) where
  now : Nat
  delivered : List T
  sent : Nat
  running : Bool

section Drain

variable {T : Type} (channel : Channel T)

def sendEach : List T → (now sent : Nat) → Drained T
  | [], now, sent => ⟨now, [], sent, true⟩
  | item :: rest, now, sent =>
    if channel.accepts now then
      if channel.shouldStop (now + 1) then ⟨now + 2, [item], sent + 1, false⟩
      else
        let drained := sendEach rest (now + 2) (sent + 1)
        { drained with delivered := item :: drained.delivered }
    else ⟨now + 1, [], sent, false⟩

/-- Sends a batch, shuffled or not. -/
def drain (batch : List T) (now sent : Nat) (shuffle : Bool) : Drained T :=
  if shuffle then sendEach channel (channel.shuffle now batch) (now + 1) sent else sendEach channel batch now sent

structure Channel.Quiet (channel : Channel T) : Prop where
  goes_on : ∀ now, channel.shouldStop now = false
  takes : ∀ now, channel.accepts now = true

structure Drained.Of (items : List T) (sent : Nat) (drained : Drained T) : Prop where
  part : drained.delivered.Subperm items
  counted : drained.sent = sent + drained.delivered.length
  whole : drained.running = true → drained.delivered.Perm items
  goes_on : channel.Quiet → drained.running = true

theorem sendEach_of (items : List T) (now sent : Nat) : (sendEach channel items now sent).Of channel items sent := by
  induction items generalizing now sent with
  | nil => exact ⟨.refl _, rfl, fun _ => .refl _, fun _ => rfl⟩
  | cons item rest ih =>
    have hrest := ih (now + 2) (sent + 1)
    simp only [sendEach]
    by_cases haccepts : channel.accepts now = true
    · rw [if_pos haccepts]
      by_cases hstop : channel.shouldStop (now + 1) = true
      · rw [if_pos hstop]
        refine ⟨?_, rfl, Bool.noConfusion, fun hq => ?_⟩
        · exact (prefix_append [item] rest).sublist.subperm
        · rw [hq.goes_on] at hstop
          cases hstop
      · rw [if_neg hstop]
        refine ⟨(subperm_cons item).mpr hrest.part, ?_, fun hrun => (hrest.whole hrun).cons item, hrest.goes_on⟩
        rw [hrest.counted, length_cons]
        omega
    · rw [if_neg haccepts]
      exact ⟨nil_subperm, rfl, Bool.noConfusion, fun hq => absurd (hq.takes now) haccepts⟩

theorem drain_of (batch : List T) (now sent : Nat) (shuffle : Bool) :
    (drain channel batch now sent shuffle).Of channel batch sent := by
  unfold drain
  split
  · have hsend := sendEach_of channel (channel.shuffle now batch) (now + 1) sent
    have hperm := channel.shuffle_perm now batch
    exact ⟨hsend.part.trans hperm.subperm, hsend.counted, fun hrun => (hsend.whole hrun).trans hperm, hsend.goes_on⟩
  · exact sendEach_of channel batch now sent

end Drain

/-! ## The walk -/

inductive Outcome where
  | answered (position : Nat)
  | exhausted (position : Nat)
  | skipped (position : Nat)
  | withheld (position : Nat)
  | unreachable (position : Nat)
  | interrupted
  | unasked
  | unroutable
  | undecided
  deriving DecidableEq

def Outcome.settledPosition : Outcome → Option Nat
  | answered position | exhausted position | skipped position | withheld position | unreachable position =>
    some position
  | interrupted | unasked | unroutable | undecided => none

def Outcome.isSettled (outcome : Outcome) : Bool := outcome.settledPosition.isSome

/-- What a walk does, in order. A target found settled leaves no trace in the program. -/
inductive Event where
  | delivered (planned : PlannedTarget)
  | recorded (outcome : Outcome)
  | foundSettled (position : Nat)
  | unreached (count : Nat)
  deriving DecidableEq

namespace Event

variable (log : List Event)

def sent : List PlannedTarget :=
  log.filterMap fun
    | delivered planned => some planned
    | _ => none

def settledHere : Nat :=
  log.countP fun
    | recorded outcome => outcome.isSettled
    | foundSettled _ => true
    | _ => false

def unreachedIn : Nat :=
  (log.map fun
    | unreached count => count
    | _ => 0).sum

def tally : Nat := (sent log).length + settledHere log + unreachedIn log

@[simp] theorem sent_append (log more : List Event) : sent (log ++ more) = sent log ++ sent more :=
  filterMap_append

@[simp] theorem tally_append (log more : List Event) : tally (log ++ more) = tally log + tally more := by
  simp only [tally, sent_append, settledHere, unreachedIn, length_append, countP_append, map_append, sum_append]
  omega

@[simp] theorem sent_delivered (batch : List PlannedTarget) : sent (batch.map delivered) = batch := by
  induction batch with
  | nil => rfl
  | cons planned batch ih => exact congrArg (planned :: ·) ih

@[simp] theorem tally_delivered (batch : List PlannedTarget) : tally (batch.map delivered) = batch.length := by
  induction batch with
  | nil => rfl
  | cons planned batch ih =>
    have hcons : tally ([delivered planned] ++ batch.map delivered) = _ := tally_append _ _
    rw [ih] at hcons
    rw [map_cons, length_cons, Nat.add_comm]
    exact hcons

@[simp] theorem tally_unreached (count : Nat) : tally [unreached count] = count := by
  simp [tally, sent, settledHere, unreachedIn]

end Event

structure Sitting extends Channel PlannedTarget where
  mayAsk : Nat → Target → Bool
  isSettled : Nat → Nat → Bool

/-- What a liveness pass found: the addresses something answered at, and those asked to the end of the policy in
vain. -/
structure Screen where
  (live silent : IpSet)

def DEFAULT_BATCH : Nat := 8192

structure Dispatcher where
  targetMap : TargetMap
  batchSize : Nat
  settled : Checkpoint
  screen : Option Screen

structure Walk where
  now : Nat
  batch : List PlannedTarget
  accounted : Nat
  log : List Event

namespace Dispatcher

def new (targetMap : TargetMap) : Dispatcher := ⟨targetMap, DEFAULT_BATCH, ⟨0, [], none⟩, none⟩

variable (d : Dispatcher)

def resuming (settled : Checkpoint) : Dispatcher := { d with settled }

def screened (live silent : IpSet) : Dispatcher := { d with screen := some ⟨live, silent⟩ }

def withBatchSize (batchSize : Nat) : Dispatcher := { d with batchSize }

def walkedAlong (order : Permutation) : Nat :=
  ((d.settled.walked.filter fun walked => walked.order == order).map fun walked => min walked.reached order.len).getD 0

def order (seed : Option UInt64) : Option (TargetIndex × Permutation) := do
  let seed ← seed
  let index := TargetIndex.of d.targetMap
  if !index.complete then none
  else some (index, Permutation.new seed index.total (TargetIndex.total_lt d.targetMap))

def owed (order : Option (TargetIndex × Permutation)) : Option Nat :=
  (match order with
    | some (_, order) => some order.len
    | none => d.targetMap.grossTargets.toOption.filter fun total => decide (total < 2 ^ 64)).map
      (· - d.settled.settledCount)

def stream : Option (TargetIndex × Permutation) → List PlannedTarget
  | some (index, order) =>
    (order.iterFrom (d.walkedAlong order)).filterMap fun position => (index.targetAt position).map (⟨position, ·⟩)
  | none => numbered d.targetMap.iter

def unscreened (ip : IpAddr) : Bool := d.screen.any fun screen => !screen.live.contains ip

section Walking

variable (sitting : Sitting)

def passesOver (planned : PlannedTarget) (now : Nat) : Bool × Nat :=
  if d.settled.isSettled planned.position then (true, now)
  else if !sitting.mayAsk now planned.target then (true, now + 1)
  else (d.unscreened planned.target.ip, now + 1)

variable (shuffle : Bool)

def flush (w : Walk) : Walk × Bool :=
  let drained := drain sitting.toChannel w.batch w.now w.accounted shuffle
  (⟨drained.now, [], drained.sent, w.log ++ drained.delivered.map .delivered⟩, drained.running)

def emit (planned : PlannedTarget) (w : Walk) : Walk × Bool :=
  let w := { w with batch := w.batch ++ [planned] }
  if max d.batchSize 1 ≤ w.batch.length then flush sitting shuffle w else (w, true)

def screenOut (screen : Screen) (planned : PlannedTarget) (w : Walk) : Walk :=
  let w := { w with accounted := w.accounted + 1 }
  if sitting.isSettled w.now planned.position then
    { w with now := w.now + 1, log := w.log ++ [.foundSettled planned.position] }
  else if screen.silent.contains planned.target.ip then
    { w with now := w.now + 1, log := w.log ++ [.recorded (.skipped planned.position)] }
  else { w with now := w.now + 1, log := w.log ++ [.recorded .undecided, .unreached 1] }

def dispose (planned : PlannedTarget) (w : Walk) : Walk × Bool :=
  if d.settled.isSettled planned.position then (w, true)
  else if !sitting.mayAsk w.now planned.target then
    ({ w with
      now := w.now + 1
      accounted := w.accounted + 1
      log := w.log ++ [.recorded (.withheld planned.position)] }, true)
  else
    let w := { w with now := w.now + 1 }
    match d.screen with
    | some screen =>
      if !screen.live.contains planned.target.ip then (screenOut sitting screen planned w, true)
      else d.emit sitting shuffle planned w
    | none => d.emit sitting shuffle planned w

def visit (planned : PlannedTarget) (w : Walk) : Walk × Bool :=
  let passes := d.passesOver sitting planned w.now
  if passes.1 then
    if sitting.shouldStop passes.2 then ({ w with now := passes.2 + 1 }, false)
    else d.dispose sitting shuffle planned { w with now := passes.2 + 1 }
  else d.dispose sitting shuffle planned { w with now := passes.2 }

def stoppedShort (owed : Option Nat) (w : Walk) : Walk :=
  match owed with
  | some owed => { w with log := w.log ++ [.unreached (owed - w.accounted)] }
  | none => w

/-- Offers every target of an order in turn. -/
def walkOver (shuffle : Bool) (owed : Option Nat) : List PlannedTarget → Walk → Walk
  | [], w =>
    let flushed := flush sitting shuffle w
    if flushed.2 then flushed.1 else stoppedShort owed flushed.1
  | planned :: rest, w =>
    let visited := d.visit sitting shuffle planned w
    if visited.2 then walkOver shuffle owed rest visited.1 else stoppedShort owed visited.1

/-- One sitting, as what it does in order. -/
def spawn (seed : Option UInt64) : List Event :=
  let order := d.order seed
  (d.walkOver sitting order.isNone (d.owed order) (d.stream order) ⟨0, [], 0, []⟩).log

end Walking

/-! ## What the walk accounts for -/

def unsettled (planned : PlannedTarget) : Bool := !d.settled.isSettled planned.position

def askable (planned : PlannedTarget) : Bool :=
  d.unsettled planned && !d.unscreened planned.target.ip

theorem askable_of_unsettled {d : Dispatcher} {planned : PlannedTarget} (h : d.unsettled planned = true) :
    d.askable planned = !d.unscreened planned.target.ip := by
  rw [askable, h, Bool.true_and]

theorem unscreened_some {d : Dispatcher} {screen : Screen} (h : d.screen = some screen) (ip : IpAddr) :
    d.unscreened ip = !screen.live.contains ip := by
  rw [unscreened, h, Option.any_some]

theorem unscreened_none {d : Dispatcher} (h : d.screen = none) (ip : IpAddr) : d.unscreened ip = false := by
  rw [unscreened, h, Option.any_none]

structure Tallied (d : Dispatcher) (met : List PlannedTarget) (w : Walk) : Prop where
  tally_eq : Event.tally w.log = w.accounted
  accounted_le : w.accounted ≤ (met.filter d.unsettled).length
  sent_sub : (Event.sent w.log).Subperm (met.filter d.askable)

/-- **Between two targets, every unsettled target met is accounted for or waits in the batch**, and
one that may always be asked was sent or waits. -/
structure Running (d : Dispatcher) (sitting : Sitting) (met : List PlannedTarget) (w : Walk) : Prop where
  tally_eq : Event.tally w.log = w.accounted
  count_eq : w.accounted + w.batch.length = (met.filter d.unsettled).length
  sub : (Event.sent w.log ++ w.batch).Subperm (met.filter d.askable)
  all : ∀ planned ∈ met, d.askable planned = true → (∀ now, sitting.mayAsk now planned.target = true) →
    planned ∈ Event.sent w.log ++ w.batch

section Invariant

variable {d} {sitting : Sitting} {met : List PlannedTarget} {planned : PlannedTarget} {w : Walk}

theorem Running.tallied (h : Running d sitting met w) : Tallied d met w :=
  ⟨h.tally_eq, by have := h.count_eq; omega, (sublist_append_left _ _).subperm.trans h.sub⟩

theorem Running.later (h : Running d sitting met w) (now : Nat) : Running d sitting met { w with now := now } :=
  ⟨h.tally_eq, h.count_eq, h.sub, h.all⟩

theorem Tallied.more (h : Tallied d met w) (more : List PlannedTarget) : Tallied d (met ++ more) w := by
  refine ⟨h.tally_eq, ?_, ?_⟩
  · rw [filter_append, length_append]
    exact h.accounted_le.trans (Nat.le_add_right _ _)
  · rw [filter_append]
    exact h.sent_sub.trans (sublist_append_left _ _).subperm

theorem Running.pass (h : Running d sitting met w) (hset : d.settled.isSettled planned.position = true) :
    Running d sitting (met ++ [planned]) w := by
  have hun : d.unsettled planned = false := by rw [unsettled, hset]; rfl
  have hask : d.askable planned = false := by rw [askable, hun]; rfl
  refine ⟨h.tally_eq, ?_, ?_, fun other hother hok hmay => ?_⟩
  · rw [filter_append, filter_cons_of_neg (by rw [hun]; decide), filter_nil, append_nil, h.count_eq]
  · rw [filter_append, filter_cons_of_neg (by rw [hask]; decide), filter_nil, append_nil]
    exact h.sub
  · rcases mem_append.mp hother with hother | hother
    · exact h.all other hother hok hmay
    · rw [mem_singleton.mp hother, hask] at hok
      cases hok

theorem Running.account (h : Running d sitting met w) (hun : d.unsettled planned = true)
    (hnot : d.askable planned = true → ∃ now, sitting.mayAsk now planned.target = false) (now : Nat)
    {events : List Event} (hsent : Event.sent events = []) (htally : Event.tally events = 1) :
    Running d sitting (met ++ [planned]) ⟨now, w.batch, w.accounted + 1, w.log ++ events⟩ := by
  refine ⟨?_, ?_, ?_, fun other hother hok hmay => ?_⟩
  · rw [Event.tally_append, h.tally_eq, htally]
  · have := h.count_eq
    show w.accounted + 1 + w.batch.length = _
    rw [filter_append, filter_cons_of_pos hun, filter_nil, length_append, length_singleton]
    omega
  · rw [Event.sent_append, hsent, append_nil, filter_append]
    exact h.sub.trans (sublist_append_left _ _).subperm
  · rw [Event.sent_append, hsent, append_nil]
    rcases mem_append.mp hother with hother | hother
    · exact h.all other hother hok hmay
    · rw [mem_singleton.mp hother] at hok hmay
      obtain ⟨now, hno⟩ := hnot hok
      rw [hmay now] at hno
      cases hno

theorem Running.push (h : Running d sitting met w) (hask : d.askable planned = true) :
    Running d sitting (met ++ [planned]) { w with batch := w.batch ++ [planned] } := by
  have hun : d.unsettled planned = true := (Bool.and_eq_true_iff.mp hask).1
  refine ⟨h.tally_eq, ?_, ?_, fun other hother hok hmay => ?_⟩
  · have := h.count_eq
    show w.accounted + (w.batch ++ [planned]).length = _
    rw [filter_append, filter_cons_of_pos hun, filter_nil, length_append, length_append, length_singleton]
    omega
  · rw [filter_append, filter_cons_of_pos hask, filter_nil, ← append_assoc]
    exact (subperm_append_right [planned]).mpr h.sub
  · rw [← append_assoc]
    rcases mem_append.mp hother with hother | hother
    · exact mem_append_left _ (h.all other hother hok hmay)
    · exact mem_append_right _ hother

/-- After a step the log is tallied; where it went on, the walk still runs; and where nothing stops the stream, it went
on. -/
structure Stepped (d : Dispatcher) (sitting : Sitting) (met : List PlannedTarget) (step : Walk × Bool) : Prop where
  tallied : Tallied d met step.1
  running : step.2 = true → Running d sitting met step.1
  goes_on : sitting.toChannel.Quiet → step.2 = true

theorem Running.stepped (h : Running d sitting met w) : Stepped d sitting met (w, true) :=
  ⟨h.tallied, fun _ => h, fun _ => rfl⟩

variable (shuffle : Bool)

/-- **Sending the batch moves it into the log**, what reached the channel of it. -/
theorem flush_stepped (h : Running d sitting met w) :
    Stepped d sitting met (flush sitting shuffle w) ∧ (flush sitting shuffle w).1.batch = [] := by
  have hdrain := drain_of sitting.toChannel w.batch w.now w.accounted shuffle
  have htally : Event.tally (flush sitting shuffle w).1.log = (flush sitting shuffle w).1.accounted := by
    show Event.tally (w.log ++ _) = _
    rw [Event.tally_append, Event.tally_delivered, h.tally_eq]
    exact hdrain.counted.symm
  have hsent : Event.sent (flush sitting shuffle w).1.log =
      Event.sent w.log ++ (drain sitting.toChannel w.batch w.now w.accounted shuffle).delivered := by
    show Event.sent (w.log ++ _) = _
    rw [Event.sent_append, Event.sent_delivered]
  have hsub : (Event.sent (flush sitting shuffle w).1.log).Subperm (met.filter d.askable) := by
    rw [hsent]
    exact ((subperm_append_left _).mpr hdrain.part).trans h.sub
  refine ⟨⟨⟨htally, ?_, hsub⟩, fun hrun => ⟨htally, ?_, ?_, fun planned hmem hok hmay => ?_⟩, hdrain.goes_on⟩, rfl⟩
  · have hlen := hdrain.part.length_le
    show (drain sitting.toChannel w.batch w.now w.accounted shuffle).sent ≤ _
    rw [hdrain.counted, ← h.count_eq]
    omega
  · show (drain sitting.toChannel w.batch w.now w.accounted shuffle).sent + 0 = _
    rw [hdrain.counted, ← h.count_eq, (hdrain.whole hrun).length_eq, Nat.add_zero]
  · exact (append_nil _).symm ▸ hsub
  · have hwas := h.all planned hmem hok hmay
    show planned ∈ _ ++ []
    rw [append_nil, hsent]
    rw [mem_append] at hwas ⊢
    exact hwas.imp id (hdrain.whole hrun).mem_iff.mpr

theorem emit_stepped (h : Running d sitting met w) (hask : d.askable planned = true) :
    Stepped d sitting (met ++ [planned]) (d.emit sitting shuffle planned w) := by
  have hpush := h.push hask
  unfold emit
  dsimp only
  split
  · exact (flush_stepped shuffle hpush).1
  · exact hpush.stepped

theorem screenOut_running (h : Running d sitting met w) {screen : Screen} (hun : d.unsettled planned = true)
    (hask : d.askable planned = false) : Running d sitting (met ++ [planned]) (screenOut sitting screen planned w) := by
  have hnot : d.askable planned = true → ∃ now, sitting.mayAsk now planned.target = false := by
    intro hok
    rw [hask] at hok
    cases hok
  unfold screenOut
  dsimp only
  split
  · exact h.account hun hnot _ rfl rfl
  · split
    · exact h.account hun hnot _ rfl rfl
    · exact h.account hun hnot _ rfl rfl

theorem dispose_stepped (h : Running d sitting met w) :
    Stepped d sitting (met ++ [planned]) (d.dispose sitting shuffle planned w) := by
  unfold dispose
  by_cases hset : d.settled.isSettled planned.position = true
  · rw [if_pos hset]
    exact (h.pass hset).stepped
  · rw [if_neg hset]
    have hun : d.unsettled planned = true := by rw [unsettled, Bool.eq_false_of_not_eq_true hset]; rfl
    by_cases hmay : sitting.mayAsk w.now planned.target = true
    · have hlater := h.later (w.now + 1)
      rw [hmay, if_neg (by decide)]
      have hask := askable_of_unsettled hun
      cases hscreen : d.screen with
      | none =>
        rw [unscreened_none hscreen] at hask
        exact emit_stepped shuffle hlater hask
      | some screen =>
        rw [unscreened_some hscreen, Bool.not_not] at hask
        dsimp only
        by_cases hlive : screen.live.contains planned.target.ip = true
        · rw [hlive, if_neg (by decide)]
          exact emit_stepped shuffle hlater (hask.trans hlive)
        · have hnot := Bool.eq_false_of_not_eq_true hlive
          rw [hnot, if_pos (by decide)]
          exact (screenOut_running hlater hun (hask.trans hnot)).stepped
    · have hno := Bool.eq_false_of_not_eq_true hmay
      rw [hno, if_pos (by decide)]
      exact (h.account hun (fun _ => ⟨w.now, hno⟩) (w.now + 1) rfl rfl).stepped

/-- **One target keeps the account**, at every moment the scan can be stopped. -/
theorem visit_stepped (h : Running d sitting met w) :
    Stepped d sitting (met ++ [planned]) (d.visit sitting shuffle planned w) := by
  unfold visit
  dsimp only
  split
  · split
    · rename_i hstop
      refine ⟨(h.later _).tallied.more _, Bool.noConfusion, fun hq => ?_⟩
      rw [hq.goes_on] at hstop
      cases hstop
    · exact dispose_stepped shuffle (h.later _)
  · exact dispose_stepped shuffle (h.later _)

theorem Tallied.stoppedShort (h : Tallied d met w) (owed : Option Nat) :
    (Event.sent (stoppedShort owed w).log).Subperm (met.filter d.askable) ∧
    (owed = some (met.filter d.unsettled).length →
      Event.tally (Dispatcher.stoppedShort owed w).log = (met.filter d.unsettled).length) := by
  cases owed with
  | none => exact ⟨h.sent_sub, fun howed => by cases howed⟩
  | some owed =>
    have hle := h.accounted_le
    refine ⟨?_, fun howed => ?_⟩
    · show (Event.sent (w.log ++ _)).Subperm _
      rw [Event.sent_append]
      exact (append_nil _).symm ▸ h.sent_sub
    · show Event.tally (w.log ++ _) = _
      rw [Event.tally_append, h.tally_eq, Option.some_inj.mp howed, Event.tally_unreached]
      omega

/-- **A whole walk.** What was sent was to be asked, each once, and where nothing stops the walk
every target that may always be asked is sent. -/
theorem walkOver_spec (owed : Option Nat) (rest : List PlannedTarget) (h : Running d sitting met w) :
    (Event.sent (d.walkOver sitting shuffle owed rest w).log).Subperm ((met ++ rest).filter d.askable) ∧
    (sitting.toChannel.Quiet → ∀ planned ∈ met ++ rest, d.askable planned = true →
      (∀ now, sitting.mayAsk now planned.target = true) →
      planned ∈ Event.sent (d.walkOver sitting shuffle owed rest w).log) ∧
    (owed = some ((met ++ rest).filter d.unsettled).length →
      Event.tally (d.walkOver sitting shuffle owed rest w).log = ((met ++ rest).filter d.unsettled).length) := by
  induction rest generalizing met w with
  | nil =>
    obtain ⟨hstep, hempty⟩ := flush_stepped shuffle h
    rw [append_nil]
    simp only [walkOver]
    by_cases hrun : (flush sitting shuffle w).2 = true
    · have hend := hstep.running hrun
      have hsub := hend.sub
      have hcount := hend.count_eq
      have hall := hend.all
      rw [hempty, append_nil] at hsub hall
      rw [if_pos hrun]
      exact ⟨hsub, fun _ => hall, fun _ => hend.tally_eq.trans hcount⟩
    · rw [if_neg hrun]
      obtain ⟨hsub, htally⟩ := hstep.tallied.stoppedShort owed
      exact ⟨hsub, fun hq => absurd (hstep.goes_on hq) hrun, htally⟩
  | cons planned rest ih =>
    have hstep : Stepped d sitting (met ++ [planned]) (d.visit sitting shuffle planned w) := visit_stepped shuffle h
    rw [append_cons]
    simp only [walkOver]
    by_cases hrun : (d.visit sitting shuffle planned w).2 = true
    · rw [if_pos hrun]
      exact ih (hstep.running hrun)
    · rw [if_neg hrun]
      obtain ⟨hsub, htally⟩ := (hstep.tallied.more rest).stoppedShort owed
      exact ⟨hsub, fun hq => absurd (hstep.goes_on hq) hrun, htally⟩

end Invariant

/-! ## The stream -/

structure Streams (d : Dispatcher) (stream : List PlannedTarget) : Prop where
  nodup : (stream.map (·.position)).Nodup
  target : ∀ planned ∈ stream, d.targetMap.iter[planned.position]? = some planned.target
  unsettled : ∀ n t, d.targetMap.iter[n]? = some t → d.settled.isSettled n = false → ⟨n, t⟩ ∈ stream

section Stream

variable {d}

theorem streams_none : Streams d (d.stream none) where
  nodup := by
    rw [stream, positions_numbered]
    exact nodup_range
  target _ hmem := mem_numbered.mp hmem
  unsettled _ _ ht _ := mem_numbered.mpr ht

theorem isSettled_of_lt_walkedAlong {order : Permutation} {n i : Nat} (hi : order.indexOf n = some i)
    (hlt : i < d.walkedAlong order) : d.settled.isSettled n = true := by
  unfold walkedAlong at hlt
  cases hw : d.settled.walked.filter fun walked => walked.order == order with
  | none =>
    rw [hw] at hlt
    cases hlt
  | some walked =>
    obtain ⟨hsome, horder⟩ := Option.filter_eq_some_iff.mp hw
    rw [hw, Option.map_some, Option.getD_some] at hlt
    rw [Checkpoint.isSettled, hsome, Option.any_some, Walked.covers, eq_of_beq horder, hi, Option.any_some,
      decide_eq_true (hlt.trans_le (Nat.min_le_left _ _)), Bool.or_true]

theorem order_eq_some {seed : Option UInt64} {index : TargetIndex} {order : Permutation}
    (h : d.order seed = some (index, order)) :
    (TargetIndex.of d.targetMap).complete = true ∧ index = TargetIndex.of d.targetMap ∧
      order.len = (TargetIndex.of d.targetMap).total := by
  cases seed with
  | none => cases h
  | some seed =>
    replace h : (if (!(TargetIndex.of d.targetMap).complete) = true then none else _) = _ := h
    by_cases hc : (TargetIndex.of d.targetMap).complete = true
    · rw [hc, if_neg (by decide), Option.some_inj, Prod.mk.injEq] at h
      exact ⟨hc, h.1.symm, h.2 ▸ rfl⟩
    · rw [Bool.eq_false_of_not_eq_true hc, if_pos (by decide)] at h
      cases h

theorem streams_some (h : d.targetMap.HasAddresses) {seed : Option UInt64} {index : TargetIndex} {order : Permutation}
    (horder : d.order seed = some (index, order)) :
    Streams d (d.stream (some (index, order))) ∧ order.len = d.targetMap.iter.length := by
  obtain ⟨hc, rfl, hlen⟩ := order_eq_some horder
  have htotal := total_eq_of_complete h hc
  have hat : ∀ n, (TargetIndex.of d.targetMap).targetAt n = d.targetMap.iter[n]? := by
    intro n
    rw [targetAt_eq_iter h, htotal, take_length]
  refine ⟨⟨?_, fun planned hmem => ?_, fun n t ht hun => ?_⟩, hlen.trans htotal⟩
  · rw [stream, List.Nodup, pairwise_map, pairwise_filterMap]
    refine (order.nodup_iterFrom _).imp fun {n m} hne planned hp other ho => ?_
    obtain ⟨_, -, rfl⟩ := Option.map_eq_some_iff.mp hp
    obtain ⟨_, -, rfl⟩ := Option.map_eq_some_iff.mp ho
    exact hne
  · obtain ⟨n, -, hn⟩ := List.mem_filterMap.mp hmem
    obtain ⟨t, ht, rfl⟩ := Option.map_eq_some_iff.mp hn
    rw [← hat, ht]
  · have hn : n < order.len := by
      rw [hlen, htotal]
      exact (List.getElem?_eq_some_iff.mp ht).1
    rw [stream, List.mem_filterMap]
    refine ⟨n, ?_, by rw [hat, ht]; rfl⟩
    obtain ⟨i, hi⟩ := Permutation.exists_indexOf hn
    refine Permutation.mem_iterFrom.mpr ⟨i, Nat.le_of_not_lt fun hlt => ?_, hi⟩
    rw [isSettled_of_lt_walkedAlong hi hlt] at hun
    cases hun

theorem Streams.length_unsettled {stream : List PlannedTarget} (h : Streams d stream) :
    (stream.filter d.unsettled).length =
      ((List.range d.targetMap.iter.length).filter fun n => !d.settled.isSettled n).length := by
  have hperm : ((stream.filter d.unsettled).map (·.position)).Perm
      ((List.range d.targetMap.iter.length).filter fun n => !d.settled.isSettled n) := by
    rw [perm_ext_iff_of_nodup (h.nodup.sublist (filter_sublist.map _)) (nodup_range.filter _)]
    intro n
    rw [mem_map, List.mem_filter, mem_range]
    constructor
    · rintro ⟨planned, hmem, rfl⟩
      obtain ⟨hmem, hun⟩ := List.mem_filter.mp hmem
      exact ⟨(List.getElem?_eq_some_iff.mp (h.target planned hmem)).1, hun⟩
    · intro ⟨hn, hun⟩
      have hat := List.getElem?_eq_getElem hn
      refine ⟨⟨n, d.targetMap.iter[n]⟩, List.mem_filter.mpr ⟨?_, hun⟩, rfl⟩
      exact h.unsettled n _ hat (Bool.not_eq_true' _ ▸ hun)
  rw [← hperm.length_eq, List.length_map]

end Stream

/-! ## A sitting -/

def CountsWithin (settled : Checkpoint) (total : Nat) : Prop :=
  settled.settledCount = ((List.range total).filter settled.isSettled).length

/-- What a cursor writes counts the positions it settled, where those are positions of the plan. -/
theorem countsWithin_checkpoint {cursor : Cursor} {S : Finset Nat} (h : cursor.Counts S) {total : Nat}
    (hplan : ∀ q ∈ S, q < total) : CountsWithin cursor.checkpoint total := by
  have hsettled : S = ((List.range total).filter cursor.checkpoint.isSettled).toFinset := by
    ext q
    rw [mem_toFinset, List.mem_filter, List.mem_range, Cursor.checkpoint_isSettled, ← h.mem_iff]
    exact ⟨fun hq => ⟨hplan q hq, hq⟩, And.right⟩
  rw [CountsWithin, h.checkpoint_settledCount, h.settledCount_eq, hsettled,
    toFinset_card_of_nodup (nodup_range.filter _)]

/-- A cursor that settled positions of the plan only, through any walks attached and checkpoints read back. -/
theorem countsWithin_run {ops : List Cursor.Op} {total : Nat} (htotal : total ≤ Word.top 64)
    (hops : ∀ p, .settle p ∈ ops → p < total) : CountsWithin (Cursor.run .new ops).checkpoint total := by
  refine countsWithin_checkpoint (Cursor.run_counts (fun p hp => (hops p hp).trans_le htotal) Cursor.new_counts) ?_
  simpa [Cursor.mem_settledBy] using hops

section Sittings

variable {d} {sitting : Sitting}

theorem owed_eq {stream : List PlannedTarget} (hstream : Streams d stream)
    (hcount : CountsWithin d.settled d.targetMap.iter.length) :
    d.targetMap.iter.length - d.settled.settledCount = (stream.filter d.unsettled).length := by
  have hsplit := length_eq_length_filter_add (l := List.range d.targetMap.iter.length) d.settled.isSettled
  rw [length_range] at hsplit
  rw [hcount, hstream.length_unsettled]
  omega

theorem streams_order (hunits : ∀ unit ∈ d.targetMap.units, unit.isEmpty = false)
    (hfit : d.targetMap.iter.length < 2 ^ 64) (seed : Option UInt64) : Streams d (d.stream (d.order seed)) ∧
      d.owed (d.order seed) = some (d.targetMap.iter.length - d.settled.settledCount) := by
  have haddr : d.targetMap.HasAddresses := fun unit hunit => (Bool.or_eq_false_iff.mp (hunits unit hunit)).1
  cases horder : d.order seed with
  | some walk =>
    obtain ⟨index, order⟩ := walk
    obtain ⟨hstream, hlen⟩ := streams_some haddr horder
    exact ⟨hstream, by rw [owed, ← hlen]; rfl⟩
  | none =>
    have hports : ∀ unit ∈ d.targetMap.units, unit.ports.isEmpty = false :=
      fun unit hunit => (Bool.or_eq_false_iff.mp (hunits unit hunit)).2
    have htotal : d.targetMap.grossTargets.toOption = some d.targetMap.iter.length := by
      rw [d.targetMap.grossTargets_eq hports hfit]
      rfl
    refine ⟨streams_none, ?_⟩
    rw [owed, htotal]
    simp only [Option.filter, decide_eq_true hfit, if_true, Option.map_some]

/-- **A sitting accounts for every target of the plan once**, whatever order it walks in, and
whenever it is stopped or the receiver dropped. Where nothing stops it, every unsettled target that
may be asked is sent. -/
theorem spawn_accounts (d : Dispatcher) (sitting : Sitting) (seed : Option UInt64)
    (hunits : ∀ unit ∈ d.targetMap.units, unit.isEmpty = false) (hfit : d.targetMap.iter.length < 2 ^ 64) :
    ((Event.sent (d.spawn sitting seed)).map (·.position)).Nodup ∧ (∀ planned ∈ Event.sent (d.spawn sitting seed),
      d.targetMap.iter[planned.position]? = some planned.target ∧ d.settled.isSettled planned.position = false ∧
      ∀ screen, d.screen = some screen → screen.live.contains planned.target.ip = true) ∧
    (CountsWithin d.settled d.targetMap.iter.length →
      (Event.sent (d.spawn sitting seed)).length + Event.settledHere (d.spawn sitting seed) +
        Event.unreachedIn (d.spawn sitting seed) = d.targetMap.iter.length - d.settled.settledCount) ∧
    (sitting.toChannel.Quiet → ∀ n t, d.targetMap.iter[n]? = some t → d.settled.isSettled n = false →
      (∀ now, sitting.mayAsk now t = true) → (∀ screen, d.screen = some screen → screen.live.contains t.ip = true) →
      ⟨n, t⟩ ∈ Event.sent (d.spawn sitting seed)) := by
  obtain ⟨hstream, howed⟩ := streams_order hunits hfit seed
  have hstart : Running d sitting [] ⟨0, [], 0, []⟩ := ⟨rfl, rfl, .refl _, fun _ hmem => (not_mem_nil hmem).elim⟩
  obtain ⟨hsub, hall, htally⟩ :=
    walkOver_spec (d.order seed).isNone (d.owed (d.order seed)) (d.stream (d.order seed)) hstart
  rw [nil_append] at hsub hall htally
  refine ⟨?_, fun planned hmem => ?_, fun hcount => ?_, fun hq n t ht hun hmay hlive => ?_⟩
  · obtain ⟨sent, hperm, hfilter⟩ := hsub
    have hnodup := hstream.nodup.sublist ((hfilter.trans filter_sublist).map _)
    exact (hperm.map _).nodup_iff.mp hnodup
  · obtain ⟨hin, hask⟩ := List.mem_filter.mp (hsub.subset hmem)
    obtain ⟨hun, hlive⟩ := Bool.and_eq_true_iff.mp hask
    refine ⟨hstream.target planned hin, (Bool.not_eq_true' _).mp hun, fun screen hscreen => ?_⟩
    rw [unscreened_some hscreen, Bool.not_not] at hlive
    exact hlive
  · rw [owed_eq hstream hcount] at howed ⊢
    exact htally howed
  · apply hall hq ⟨n, t⟩ (hstream.unsettled n t ht hun) _ hmay
    rw [askable, unsettled, hun]
    cases hscreen : d.screen with
    | none => rw [unscreened_none hscreen]; rfl
    | some screen => rw [unscreened_some hscreen, hlive screen hscreen]; rfl

end Sittings

def stoppedAfter (moment : Nat) : Sitting :=
  ⟨⟨fun now => decide (moment ≤ now), fun _ => true, fun _ batch => batch, fun _ _ => .refl _⟩, fun _ _ => true,
    fun _ _ => false⟩

/-- Two positions settled along a walk in an earlier sitting, and one of the two hosts found silent since. -/
def resumed : Dispatcher :=
  (((Dispatcher.new twoHosts).resuming
    (Cursor.run .new [.along (.new 7 (2 * 2) (by decide)), .settle 0, .resume, .settle 3]).checkpoint).screened
    (.fromRanges [.v4 ⟨0, 0, by decide⟩]) (.fromRanges [.v4 ⟨1, 1, by decide⟩])).withBatchSize 2

theorem spawn_accounts_resumed :
    (∀ unit ∈ resumed.targetMap.units, unit.isEmpty = false) ∧ resumed.targetMap.iter.length < 2 ^ 64 ∧
    CountsWithin resumed.settled resumed.targetMap.iter.length ∧
    (Event.sent (resumed.spawn (stoppedAfter 5) none)).length +
      Event.settledHere (resumed.spawn (stoppedAfter 5) none) +
      Event.unreachedIn (resumed.spawn (stoppedAfter 5) none) =
        resumed.targetMap.iter.length - resumed.settled.settledCount := by
  have hunits : ∀ unit ∈ resumed.targetMap.units, unit.isEmpty = false := by
    intro unit hunit
    rw [mem_singleton.mp hunit]
    decide
  have hlength : resumed.targetMap.iter.length = 4 := by decide +kernel
  have hfit : resumed.targetMap.iter.length < 2 ^ 64 := by rw [hlength]; decide
  have hcount : CountsWithin resumed.settled resumed.targetMap.iter.length := by
    rw [hlength]
    refine countsWithin_run (by decide) fun p hp => ?_
    simp only [mem_cons, Cursor.Op.settle.injEq, reduceCtorEq, not_mem_nil, or_false, false_or] at hp
    omega
  exact ⟨hunits, hfit, hcount, (spawn_accounts resumed (stoppedAfter 5) none hunits hfit).2.2.1 hcount⟩

def miscounted : Dispatcher :=
  (Dispatcher.new ⟨[.new (.fromRanges [.v4 ⟨0, 0, by decide⟩])
    ⟨[⟨80, 80, by decide⟩], [], [], pairwise_singleton _ _, Port.PortSet.canonical_nil,
      Port.PortSet.canonical_nil⟩]⟩).resuming ⟨0, [], some ⟨0, 1, 1, 0, by decide⟩⟩

theorem spawn_miscounts : (∀ unit ∈ miscounted.targetMap.units, unit.isEmpty = false) ∧
    (∀ n, miscounted.settled.isSettled n = true → n < miscounted.targetMap.iter.length) ∧
    (Event.sent (miscounted.spawn (stoppedAfter 9) none)).length +
      Event.settledHere (miscounted.spawn (stoppedAfter 9) none) +
      Event.unreachedIn (miscounted.spawn (stoppedAfter 9) none) = 0 ∧
    miscounted.targetMap.iter.length - miscounted.settled.settledCount = 1 := by
  refine ⟨fun unit hunit => ?_, fun n hn => ?_, by decide +kernel, by decide +kernel⟩
  · rw [mem_singleton.mp hunit]
    decide
  · have hlen : miscounted.targetMap.iter.length = 1 := by decide +kernel
    have hcov : Walked.covers ⟨0, 1, 1, 0, by decide⟩ n = true := by
      rcases Bool.or_eq_true_iff.mp hn with hn | hn
      · rcases Bool.or_eq_true_iff.mp hn with hn | hn
        · exact absurd (of_decide_eq_true hn) (Nat.not_lt_zero n)
        · cases hn
      · exact hn
    exact Cursor.covers_lt hcov

end Dispatcher

end Zond.Dispatch
