import ZondEngine.Lib.Runs
import ZondEngine.Scanner.Retry

/-!
# No probe is lost

Over every history of calls the structures of a `ProbeLedger` agree (`Sound`), and what the caller sees of a probe is a
life (`Life`). Each call is a move (`Moves`), moves compose, and `run_conserves` reads the result off.
-/

namespace Zond.Retry

open Zond.Ip Zond.Automata List Option

/-! ## Lives -/

/-- What a history shows of a probe. The budget is the one in force when the probe was given up. -/
inductive Observation (K : Type) where
  | born (key : K)
  | retried (key : K) (attempt : Nat)
  | exhausted (key : K) (attempts budget : Nat)
  | resolved (key : K)
  | drained (key : K)
  deriving DecidableEq

namespace Observation

variable {K : Type}

def key : Observation K → K
  | born key | retried key _ | exhausted key _ _ | resolved key | drained key => key

def comes : Observation K → Nat
  | born _ => 1
  | _ => 0

def goes : Observation K → Nat
  | exhausted _ _ _ | resolved _ | drained _ => 1
  | _ => 0

end Observation

/-- The life of a probe, by the sends charged to it: it is given up only when they have reached its
budget. -/
inductive Life {K : Type} (maxAttempts : Nat) : Option Nat → Observation K → Option Nat → Prop
  | born (key : K) : Life maxAttempts none (.born key) (some 1)
  | retried (key : K) {sends : Nat} (h : sends + 1 ≤ maxAttempts) :
      Life maxAttempts (some sends) (.retried key (sends + 1)) (some (sends + 1))
  | exhausted (key : K) {sends budget : Nat} (h : budget ≤ sends) :
      Life maxAttempts (some sends) (.exhausted key sends budget) none
  | resolved (key : K) {sends : Nat} : Life maxAttempts (some sends) (.resolved key) none
  | drained (key : K) {sends : Nat} : Life maxAttempts (some sends) (.drained key) none

def present (sends : Option Nat) : Nat := if sends.isSome then 1 else 0

theorem Life.balance {K : Type} {maxAttempts : Nat} {s t : Option Nat} {o : Observation K}
    (h : Life maxAttempts s o t) : present s + o.comes = present t + o.goes := by
  cases h <;> rfl

def ProbeLedger.Fired.observation {K P : Type} (fired : ProbeLedger.Fired K P) : Observation K :=
  match fired.due with
  | .retry key attempt => .retried key attempt
  | .exhausted key _ attempts _ => .exhausted key attempts fired.budget

/-! ## Soundness -/

namespace ProbeLedger

variable {K T P : Type} [DecidableEq K] {policy : RetryPolicy} {skip : Option K} {l l' : ProbeLedger K T P} {key : K}
  {record : Record T P}

def aimedAt (host : IpAddr) (record : Record T P) : Nat := if record.host = host then 1 else 0

def sendsOf (l : ProbeLedger K T P) (key : K) : Option Nat := (l.records.lookup key).map (·.sends)

def Clocked (l : ProbeLedger K T P) (key : K) : Prop :=
  ∀ record, l.records.lookup key = some record →
    if record.deferred then ∀ timer ∈ l.timers, timer.generation ≠ record.generation
    else ∃ due, ⟨due, key, record.generation⟩ ∈ l.timers

/-- The structures of the ledger agree, the clock of the key skipped apart. No two timers carry one generation. -/
structure SoundBut (policy : RetryPolicy) (skip : Option K) (l : ProbeLedger K T P) : Prop where
  policy_eq : l.policy = policy
  budget_le : ∀ key record, l.records.lookup key = some record → record.budget ≤ policy.maxAttempts
  generation_le : ∀ key record, l.records.lookup key = some record → record.generation ≤ l.taken
  timer_le : ∀ timer ∈ l.timers, timer.generation ≤ l.taken
  timers_nodup : (l.timers.map (·.generation)).Nodup
  clocked : ∀ key, skip ≠ some key → l.Clocked key
  counted : ∀ host, (l.hosts host).outstanding = Table.weigh (aimedAt host) l.records
  records_le : Table.weigh (fun _ => 1) l.records ≤ l.taken

def Sound (policy : RetryPolicy) (l : ProbeLedger K T P) : Prop := SoundBut policy none l

theorem sound_of_empty (hpolicy : l.policy = policy) (hrecords : l.records = ∅) (htimers : l.timers = [])
    (hcount : ∀ host, (l.hosts host).outstanding = 0) : Sound policy l := by
  have hlookup : ∀ k r, l.records.lookup k ≠ some r := by
    intro k r hk
    rw [hrecords] at hk
    cases hk
  refine ⟨hpolicy, fun k r hk => (hlookup k r hk).elim, fun k r hk => (hlookup k r hk).elim, fun timer ht => ?_,
    ?_,
    fun k _ r hk => (hlookup k r hk).elim, fun host => ?_, ?_⟩
  · rw [htimers] at ht
    cases ht
  · rw [htimers]
    exact nodup_nil
  · rw [hcount, hrecords]
    rfl
  · rw [hrecords]
    exact Nat.zero_le _

theorem new_sound (policy : RetryPolicy) : Sound policy (new policy : ProbeLedger K T P) :=
  sound_of_empty rfl rfl rfl fun _ => rfl

theorem Sound.clock (h : Sound policy l) (key : K) : l.Clocked key := h.clocked key (some_ne_none key).symm

theorem SoundBut.congr (h : SoundBut policy skip l) (hpolicy : l'.policy = l.policy) (hrecords : l'.records = l.records)
    (htimers : l'.timers = l.timers) (htaken : l.taken ≤ l'.taken)
    (hcount : ∀ host, (l'.hosts host).outstanding = (l.hosts host).outstanding) : SoundBut policy skip l' where
  policy_eq := hpolicy.trans h.policy_eq
  budget_le k r hk := h.budget_le k r (hrecords ▸ hk)
  generation_le k r hk := (h.generation_le k r (hrecords ▸ hk)).trans htaken
  timer_le timer ht := (h.timer_le timer (htimers ▸ ht)).trans htaken
  timers_nodup := htimers ▸ h.timers_nodup
  clocked k hk := by
    unfold Clocked
    rw [hrecords, htimers]
    exact h.clocked k hk
  counted host := by rw [hcount, h.counted, hrecords]
  records_le := hrecords ▸ h.records_le.trans htaken

theorem weigh_aimedAt_replace {old : Record T P} (hold : l.records.lookup key = some old)
    (hhost : record.host = old.host) (host : IpAddr) :
    Table.weigh (aimedAt host) (l.records.insert key record) = Table.weigh (aimedAt host) l.records := by
  have := Table.weigh_replace (aimedAt host) hold record
  simp only [aimedAt, hhost] at this ⊢
  omega

structure Took (l l' : ProbeLedger K T P) : Prop where
  policy_eq : l'.policy = l.policy
  records_eq : l'.records = l.records
  timers_eq : l'.timers = l.timers
  taken_eq : l'.taken = l.taken + 1

theorem SoundBut.schedule (h : SoundBut policy skip l) (hskip : ∀ k, k ≠ key → skip ≠ some k) (htook : Took l l')
    (hgeneration : record.generation = l.taken + 1) (hdeferred : record.deferred = false)
    (hbudget : record.budget ≤ policy.maxAttempts)
    (hcount : ∀ host, (l'.hosts host).outstanding = Table.weigh (aimedAt host) (l.records.insert key record))
    {rt : Runtime K} {host : IpAddr} {now : Nat} : Sound policy (l'.schedule rt host key record now) := by
  have hlookup : ∀ k r, (l'.schedule rt host key record now).records.lookup k = some r →
      k = key ∧ r = record ∨ k ≠ key ∧ l.records.lookup k = some r :=
    fun k r hk => htook.records_eq ▸ Table.lookup_insert_cases hk
  obtain ⟨due, hpush⟩ : ∃ due,
      (l'.schedule rt host key record now).timers.Perm (⟨due, key, l.taken + 1⟩ :: l.timers) := by
    rw [← hgeneration, ← htook.timers_eq]
    exact ⟨_, rt.heap.push_perm l'.timers _⟩
  have hnow : (l'.schedule rt host key record now).taken = l.taken + 1 := htook.taken_eq
  refine ⟨htook.policy_eq.trans h.policy_eq, fun k r hk => ?_, fun k r hk => ?_, fun timer ht => ?_, ?_,
    fun k _ r hk => ?_,
    fun other => (hcount other).trans (by rw [← htook.records_eq]; rfl), ?_⟩
  · rcases hlookup k r hk with ⟨-, rfl⟩ | ⟨-, hk⟩
    · exact hbudget
    · exact h.budget_le k r hk
  · rcases hlookup k r hk with ⟨-, rfl⟩ | ⟨-, hk⟩
    · omega
    · have := h.generation_le k r hk
      omega
  · rcases mem_cons.mp (hpush.mem_iff.mp ht) with rfl | ht
    · exact hnow.ge
    · have := h.timer_le timer ht
      omega
  · refine (hpush.map _).nodup_iff.mpr (nodup_cons.mpr ⟨fun hin => ?_, h.timers_nodup⟩)
    obtain ⟨timer, ht, heq⟩ := mem_map.mp hin
    have := h.timer_le timer ht
    replace heq : timer.generation = l.taken + 1 := heq
    omega
  · rcases hlookup k r hk with ⟨rfl, rfl⟩ | ⟨hne, hk⟩
    · rw [hdeferred, if_neg Bool.false_ne_true]
      refine ⟨due, hpush.mem_iff.mpr ?_⟩
      rw [hgeneration]
      exact mem_cons_self
    · have hclock := h.clocked k (hskip k hne) r hk
      have hle := h.generation_le k r hk
      split at hclock
      · rename_i hdef
        rw [if_pos hdef]
        intro timer ht
        rcases mem_cons.mp (hpush.mem_iff.mp ht) with rfl | ht
        · show l.taken + 1 ≠ r.generation
          omega
        · exact hclock timer ht
      · rename_i hdef
        rw [if_neg hdef]
        obtain ⟨due', hdue⟩ := hclock
        exact ⟨due', hpush.mem_iff.mpr (mem_cons_of_mem _ hdue)⟩
  · have hle := h.records_le
    rw [hnow]
    show Table.weigh _ (l'.records.insert key record) ≤ _
    rw [htook.records_eq]
    cases hk : l.records.lookup key with
    | none =>
      rw [Table.weigh_insert _ hk]
      omega
    | some old =>
      have := Table.weigh_replace (fun _ => 1) hk record
      omega

omit [DecidableEq K] in
theorem generation_takeGeneration (l : ProbeLedger K T P) (h : l.taken + 1 < 2 ^ 32) :
    l.takeGeneration.generation = l.taken + 1 := Nat.mod_eq_of_lt h

/-- A record to be filed in the place of another, under the generation handed out next. -/
structure Renewed (policy : RetryPolicy) (l : ProbeLedger K T P) (old record : Record T P) : Prop where
  host_eq : record.host = old.host
  generation_eq : record.generation = l.takeGeneration.generation
  deferred_eq : record.deferred = false
  budget_le : record.budget ≤ policy.maxAttempts

theorem SoundBut.reschedule (h : SoundBut policy skip l) (hskip : ∀ k, k ≠ key → skip ≠ some k) {old : Record T P}
    (hold : l.records.lookup key = some old) (hfit : l.taken + 1 < 2 ^ 32) (hrenewed : Renewed policy l old record)
    {rt : Runtime K} {host : IpAddr} {now : Nat} : Sound policy (l.takeGeneration.schedule rt host key record now) := by
  refine h.schedule hskip ?_ ?_ hrenewed.deferred_eq hrenewed.budget_le fun other => ?_
  · exact ⟨rfl, rfl, rfl, rfl⟩
  · rw [hrenewed.generation_eq, generation_takeGeneration l hfit]
  · rw [weigh_aimedAt_replace hold hrenewed.host_eq]
    exact h.counted other

theorem SoundBut.refile (h : SoundBut policy skip l) {old : Record T P} (hold : l.records.lookup key = some old)
    (hpolicy : l'.policy = l.policy) (htaken : l.taken ≤ l'.taken) (hrecords : l'.records = l.records.insert key record)
    (htimers : l'.timers = l.timers) (hhosts : l'.hosts = l.hosts) (hhost : record.host = old.host)
    (hbudget : record.budget = old.budget) (hgeneration : record.generation ≤ l'.taken)
    (hclock : skip ≠ some key → l'.Clocked key) : SoundBut policy skip l' := by
  have hlookup : ∀ k r, l'.records.lookup k = some r → k = key ∧ r = record ∨ k ≠ key ∧ l.records.lookup k = some r :=
    fun k r hk => Table.lookup_insert_cases (hrecords ▸ hk)
  refine ⟨hpolicy.trans h.policy_eq, fun k r hk => ?_, fun k r hk => ?_, fun timer ht => ?_,
    htimers ▸ h.timers_nodup,
    fun k hk => ?_, fun host => ?_, ?_⟩
  · rcases hlookup k r hk with ⟨-, rfl⟩ | ⟨-, hk⟩
    · exact hbudget ▸ h.budget_le key old hold
    · exact h.budget_le k r hk
  · rcases hlookup k r hk with ⟨-, rfl⟩ | ⟨-, hk⟩
    · exact hgeneration
    · exact (h.generation_le k r hk).trans htaken
  · exact (h.timer_le timer (htimers ▸ ht)).trans htaken
  · by_cases hkey : k = key
    · exact hkey ▸ hclock (hkey ▸ hk)
    · intro r hr
      rcases hlookup k r hr with ⟨hkey', -⟩ | ⟨-, hr⟩
      · exact absurd hkey' hkey
      · rw [htimers]
        exact h.clocked k hk r hr
  · rw [hrecords, hhosts, h.counted, weigh_aimedAt_replace hold hhost]
  · have := Table.weigh_replace (fun _ => 1) hold record
    rw [hrecords]
    have := h.records_le
    omega

theorem SoundBut.erase (h : SoundBut policy skip l) (hskip : ∀ k, k ≠ key → skip ≠ some k)
    (hold : l.records.lookup key = some record) (hpolicy : l'.policy = l.policy) (htaken : l'.taken = l.taken)
    (hrecords : l'.records = l.records.erase key) (htimers : l'.timers = l.timers)
    (hcount : ∀ host, (l'.hosts host).outstanding = (l.hosts host).outstanding - aimedAt host record) :
    Sound policy l' := by
  have hlookup : ∀ k r, l'.records.lookup k = some r → k ≠ key ∧ l.records.lookup k = some r :=
    fun k r hk => Table.lookup_erase_cases (hrecords ▸ hk)
  refine ⟨hpolicy.trans h.policy_eq, fun k r hk => h.budget_le k r (hlookup k r hk).2,
    fun k r hk => htaken ▸ h.generation_le k r (hlookup k r hk).2,
    fun timer ht => htaken ▸ h.timer_le timer (htimers ▸ ht),
    htimers ▸ h.timers_nodup, fun k _ r hr => ?_, fun host => ?_, ?_⟩
  · obtain ⟨hne, hr⟩ := hlookup k r hr
    rw [htimers]
    exact h.clocked k (hskip k hne) r hr
  · have := Table.weigh_erase (aimedAt host) hold
    rw [hcount, h.counted, hrecords]
    omega
  · have := Table.weigh_erase (fun _ => 1) hold
    rw [hrecords, htaken]
    have := h.records_le
    omega

theorem Sound.pop (h : Sound policy l) {timer : Timer K} {timers : List (Timer K)}
    (hperm : l.timers.Perm (timer :: timers)) : SoundBut policy (some timer.key) { l with timers } ∧
    ((∀ record, l.records.lookup timer.key = some record → record.generation ≠ timer.generation) →
      Sound policy { l with timers }) := by
  have hmem : ∀ other ∈ timers, other ∈ l.timers := fun other ho => hperm.mem_iff.mpr (mem_cons_of_mem _ ho)
  have hnodup : (timers.map (·.generation)).Nodup := by
    have := (hperm.map (·.generation)).nodup_iff.mp h.timers_nodup
    exact (nodup_cons.mp this).2
  have hclock : ∀ k, (∀ r, l.records.lookup k = some r → k = timer.key → r.generation ≠ timer.generation) →
      ({ l with timers } : ProbeLedger K T P).Clocked k := by
    intro k hk r hr
    have hbefore := h.clock k r hr
    split at hbefore
    · rename_i hdef
      rw [if_pos hdef]
      exact fun other ho => hbefore other (hmem other ho)
    · rename_i hdef
      rw [if_neg hdef]
      obtain ⟨due, hdue⟩ := hbefore
      rcases mem_cons.mp (hperm.mem_iff.mp hdue) with heq | hin
      · exact absurd (congrArg Timer.generation heq) (hk r hr (congrArg Timer.key heq))
      · exact ⟨due, hin⟩
  have hbut : ∀ skip : Option K, (∀ k, skip ≠ some k → ({ l with timers } : ProbeLedger K T P).Clocked k) →
      SoundBut policy skip { l with timers } := fun skip hc =>
    ⟨h.policy_eq, h.budget_le, h.generation_le, fun other ho => h.timer_le other (hmem other ho), hnodup, hc,
      h.counted,
      h.records_le⟩
  refine ⟨hbut _ fun k hk => hclock k fun r hr hkey => absurd (congrArg some hkey.symm) hk, fun hstale => ?_⟩
  exact hbut _ fun k _ => hclock k fun r hr hkey => hstale r (hkey ▸ hr)

theorem Sound.not_deferred (h : Sound policy l) (hlookup : l.records.lookup key = some record) {timer : Timer K}
    (hmem : timer ∈ l.timers) (hgen : record.generation = timer.generation) : record.deferred = false := by
  have hclock := h.clock key record hlookup
  by_contra hdef
  rw [Bool.not_eq_false] at hdef
  rw [if_pos hdef] at hclock
  exact hclock timer hmem hgen.symm

theorem Sound.timers_of_generation (h : Sound policy l) (hlookup : l.records.lookup key = some record) :
    if record.deferred then ∀ timer ∈ l.timers, timer.generation ≠ record.generation
    else ∃ due, l.timers.filter (fun timer => timer.generation = record.generation) =
      [⟨due, key, record.generation⟩] := by
  have hclock := h.clock key record hlookup
  split at hclock
  · rename_i hdef
    rw [if_pos hdef]
    exact hclock
  · rename_i hdef
    rw [if_neg hdef]
    obtain ⟨due, hdue⟩ := hclock
    exact ⟨due, Heap.filter_mark Timer.generation h.timers_nodup hdue⟩

/-! ## Moves -/

/-- A call, or part of one: while generations last it keeps the ledger sound, and what it shows continues the life of
every probe. -/
structure Moves (policy : RetryPolicy) (l : ProbeLedger K T P) (shown : List (Observation K)) (l' : ProbeLedger K T P) :
    Prop where
  taken_le : l.taken ≤ l'.taken
  sound : Sound policy l → l'.taken < 2 ^ 32 → Sound policy l'
  lives : Sound policy l → l'.taken < 2 ^ 32 →
    Emits (Life policy.maxAttempts) Observation.key l.sendsOf shown l'.sendsOf

theorem Moves.trans {l'' : ProbeLedger K T P} {shown more : List (Observation K)} (h : Moves policy l shown l')
    (h' : Moves policy l' more l'') : Moves policy l (shown ++ more) l'' where
  taken_le := h.taken_le.trans h'.taken_le
  sound hs hfit := h'.sound (h.sound hs (h'.taken_le.trans_lt hfit)) hfit
  lives hs hfit :=
    (h.lives hs (h'.taken_le.trans_lt hfit)).append (h'.lives (h.sound hs (h'.taken_le.trans_lt hfit)) hfit)

theorem Moves.refl (l : ProbeLedger K T P) : Moves policy l [] l :=
  ⟨Nat.le_refl _, fun hs _ => hs, fun _ _ => .nil _⟩

theorem emits_nil (h : ∀ k, l'.sendsOf k = l.sendsOf k) :
    Emits (Life policy.maxAttempts) Observation.key l.sendsOf [] l'.sendsOf := by
  rw [funext h]
  exact .nil _

theorem sendsOf_insert (h : l'.records = l.records.insert key record) (k : K) :
    l'.sendsOf k = if k = key then some record.sends else l.sendsOf k := by
  unfold sendsOf
  rw [h]
  by_cases hkey : k = key
  · rw [if_pos hkey, hkey, AList.lookup_insert, map_some]
  · rw [if_neg hkey, AList.lookup_insert_ne hkey]

theorem emits_refile {old : Record T P} (hold : l.records.lookup key = some old)
    (hrecords : l'.records = l.records.insert key record) (hsends : record.sends = old.sends) :
    Emits (Life policy.maxAttempts) Observation.key l.sendsOf [] l'.sendsOf := by
  refine emits_nil fun k => ?_
  rw [sendsOf_insert hrecords]
  split
  · rename_i hkey
    rw [hkey, sendsOf, hold, hsends]
    rfl
  · rfl

theorem emits_insert {o : Observation K} (hrecords : l'.records = l.records.insert o.key record)
    (hlife : Life policy.maxAttempts (l.sendsOf o.key) o (some record.sends)) :
    Emits (Life policy.maxAttempts) Observation.key l.sendsOf [o] l'.sendsOf := by
  refine Emits.single ?_ fun k hk => ?_
  · rw [sendsOf_insert hrecords, if_pos rfl]
    exact hlife
  · rw [sendsOf_insert hrecords, if_neg hk]

theorem emits_erase {o : Observation K} (hold : l.records.lookup o.key = some record)
    (hrecords : l'.records = l.records.erase o.key) (hlife : Life policy.maxAttempts (some record.sends) o none) :
    Emits (Life policy.maxAttempts) Observation.key l.sendsOf [o] l'.sendsOf := by
  refine Emits.single ?_ fun k hk => ?_
  · rw [sendsOf, sendsOf, hrecords, AList.lookup_erase, hold]
    exact hlife
  · rw [sendsOf, sendsOf, hrecords, AList.lookup_erase_ne hk]

theorem budgetFor_le (policy : RetryPolicy) (host : Option HostState) : policy.budgetFor host ≤ policy.maxAttempts := by
  unfold RetryPolicy.budgetFor
  split
  · exact Nat.le_refl _
  · exact Nat.le_refl _
  · split
    · exact Nat.min_le_right _ _
    · exact Nat.le_refl _

theorem SoundBut.outstanding_le (h : SoundBut policy skip l) (host : IpAddr) :
    (l.hosts host).outstanding ≤ l.taken := by
  rw [h.counted]
  refine (Table.weigh_le (fun record => ?_) l.records).trans h.records_le
  unfold aimedAt
  split
  · exact Nat.le_refl 1
  · exact Nat.zero_le 1

section Operations

variable (rt : Runtime K) (l)

theorem takeGeneration_moves : Moves policy l [] l.takeGeneration where
  taken_le := Nat.le_succ _
  sound hs _ := hs.congr rfl rfl rfl (Nat.le_succ _) fun _ => rfl
  lives _ _ := .nil _

variable {record : Record T P}

omit [DecidableEq K] in
theorem outstanding_come {host : IpAddr} {state : HostState} (hhost : record.host = host)
    (hstate : state.outstanding = (l.hosts host).outstanding + 1) (other : IpAddr) :
    ((l.setHost host state).hosts other).outstanding = (l.hosts other).outstanding + aimedAt other record := by
  rw [outstanding_setHost, aimedAt, hhost]
  by_cases hother : other = host
  · rw [if_pos hother, if_pos hother.symm, hstate, hother]
  · rw [if_neg hother, if_neg (Ne.symm hother), Nat.add_zero]

omit [DecidableEq K] in
theorem outstanding_gone {state : HostState}
    (hstate : state.outstanding = (l.hosts record.host).outstanding - 1) (other : IpAddr) :
    ((l.setHost record.host state).hosts other).outstanding = (l.hosts other).outstanding - aimedAt other record := by
  rw [outstanding_setHost, aimedAt]
  by_cases hother : other = record.host
  · rw [if_pos hother, if_pos hother.symm, hstate, hother]
  · rw [if_neg hother, if_neg (Ne.symm hother), Nat.sub_zero]

theorem armInner_moves (host : IpAddr) (key : K) (token : T) (payload : Option P) (now : Nat) :
    Moves policy l (if payload.isSome && (l.records.lookup key).isNone then [.born key] else [])
      (l.armInner rt host key token payload now) := by
  unfold armInner
  cases hlookup : l.records.lookup key with
  | some record =>
    have hfound : l.takeGeneration.records.lookup key = some record := hlookup
    rw [isNone_some, Bool.and_false, if_neg Bool.false_ne_true]
    simp only [hfound]
    refine ⟨Nat.le_succ _, fun hs hfit => ?_, fun _ _ => emits_refile hlookup rfl rfl⟩
    refine hs.reschedule (fun k _ => (some_ne_none k).symm) hlookup hfit ?_
    exact ⟨rfl, rfl, rfl, hs.policy_eq ▸ budgetFor_le _ _⟩
  | none =>
    have hfound : l.takeGeneration.records.lookup key = none := hlookup
    simp only [hfound]
    cases payload with
    | none =>
      exact takeGeneration_moves l
    | some payload =>
      refine ⟨Nat.le_succ _, fun hs hfit => ?_, fun _ _ => emits_insert rfl ?_⟩
      · refine hs.schedule (fun k _ => (some_ne_none k).symm) ?_ ?_ ?_ ?_ fun other => ?_
        · exact ⟨rfl, rfl, rfl, rfl⟩
        · exact generation_takeGeneration l hfit
        · rfl
        · exact hs.policy_eq ▸ budgetFor_le _ _
        · have hle := hs.outstanding_le host
          have hroom : (l.hosts host).outstanding + 1 < 2 ^ 32 := (Nat.succ_le_succ hle).trans_lt hfit
          rw [Table.weigh_insert _ hlookup, ← hs.counted]
          refine outstanding_come l.takeGeneration ?_ ?_ other
          · rfl
          · exact Nat.mod_eq_of_lt hroom
      · show Life _ (l.sendsOf key) _ (some 1)
        rw [sendsOf, hlookup]
        exact .born key

theorem resolved_moves (hlookup : l.records.lookup key = some record) (rtt : Option Nat) :
    Moves policy l [.resolved key] (l.resolved key record rtt) where
  taken_le := Nat.le_refl _
  sound hs _ := hs.erase (fun k _ => (some_ne_none k).symm) hlookup rfl rfl rfl rfl (outstanding_gone l rfl)
  lives _ _ := emits_erase hlookup rfl (.resolved key)

theorem resolve_moves [DecidableEq T] (key : K) (token : Option T) (now : Nat) :
    Moves policy l ((l.resolve key token now).2.map fun _ => .resolved key).toList (l.resolve key token now).1 := by
  unfold resolve
  cases hlookup : l.records.lookup key with
  | none => exact .refl l
  | some record =>
    dsimp only
    cases record.attributed token with
    | none => exact .refl l
    | some attributed => exact resolved_moves l hlookup _

theorem fire_moves {timer : Timer K} {timers : List (Timer K)} (hperm : l.timers.Perm (timer :: timers)) (now : Nat) :
    Moves policy l (((({ l with timers }).fire rt timer now).2.toList).map Fired.observation)
      (({ l with timers }).fire rt timer now).1 := by
  unfold fire
  cases hlookup : l.records.lookup timer.key with
  | none =>
    refine ⟨Nat.le_refl _, fun hs _ => (hs.pop hperm).2 fun record hr => ?_, fun _ _ => .nil _⟩
    rw [hlookup] at hr
    cases hr
  | some record =>
    dsimp only
    by_cases hgen : record.generation = timer.generation
    · rw [if_neg (not_not.mpr hgen)]
      obtain ⟨hpolicy, hrecords, htimers, htaken, hhosts⟩ :=
        countSilence_eq ({ l with timers } : ProbeLedger K T P) record
      generalize ({ l with timers } : ProbeLedger K T P).countSilence record = l₁
        at hpolicy hrecords htimers htaken hhosts
      have hsame : l₁.sendsOf = l.sendsOf := funext fun k => by rw [sendsOf, hrecords]; rfl
      have hlookup₁ : l₁.records.lookup timer.key = some record := hrecords ▸ hlookup
      have hsound : Sound policy l → SoundBut policy (some timer.key) l₁ := fun hs =>
        (hs.pop hperm).1.congr hpolicy hrecords htimers htaken.ge hhosts
      have hskip : ∀ k, k ≠ timer.key → some timer.key ≠ some k := fun k hk heq => hk (some_inj.mp heq).symm
      split
      · rename_i hspent
        refine ⟨htaken.ge, fun hs _ => ?_, fun _ _ => hsame ▸ emits_erase hlookup₁ rfl (.exhausted timer.key hspent)⟩
        exact (hsound hs).erase hskip hlookup₁ rfl rfl rfl rfl (outstanding_gone l₁ rfl)
      · refine ⟨htaken.ge.trans (Nat.le_succ _), fun hs hfit => ?_, fun hs _ => hsame ▸ emits_insert rfl ?_⟩
        · have hdeferred := hs.not_deferred hlookup (hperm.mem_iff.mpr mem_cons_self) hgen
          refine (hsound hs).reschedule hskip hlookup₁ hfit ?_
          exact ⟨rfl, rfl, hdeferred, (hsound hs).budget_le timer.key record hlookup₁⟩
        · show Life _ (l₁.sendsOf timer.key) _ (some (record.sends + 1))
          have hle : record.sends + 1 ≤ policy.maxAttempts := by
            have := hs.budget_le timer.key record hlookup
            omega
          rw [sendsOf, hlookup₁]
          exact .retried timer.key hle
    · rw [if_pos hgen]
      refine ⟨Nat.le_refl _, fun hs _ => (hs.pop hperm).2 fun r hr => ?_, fun _ _ => .nil _⟩
      rw [hlookup, some_inj] at hr
      exact hr ▸ hgen

theorem drainStep_moves {now : Nat} {fired : Option (Fired K P)} (h : l.drainStep rt now = some (l', fired)) :
    Moves policy l (fired.toList.map Fired.observation) l' := by
  obtain ⟨timer, timers, hperm, hfire⟩ := drainStep_some h
  rw [show l' = (({ l with timers }).fire rt timer now).1 by rw [hfire],
    show fired = (({ l with timers }).fire rt timer now).2 by rw [hfire]]
  exact fire_moves l rt hperm now

theorem drainLoop_moves (now fuel : Nat) :
    Moves policy l ((drainLoop rt now fuel l).2.map Fired.observation) (drainLoop rt now fuel l).1 := by
  induction fuel generalizing l with
  | zero => exact .refl l
  | succ fuel ih =>
    rw [drainLoop]
    cases hstep : l.drainStep rt now with
    | none => exact .refl l
    | some step =>
      obtain ⟨l₁, fired⟩ := step
      rw [map_append]
      exact (drainStep_moves l rt hstep).trans (ih l₁)

theorem defer_moves (key : K) : Moves policy l [] (l.defer key) := by
  unfold defer
  cases hlookup : l.records.lookup key with
  | none =>
    have hfound : l.takeGeneration.records.lookup key = none := hlookup
    simp only [hfound]
    exact takeGeneration_moves l
  | some record =>
    have hfound : l.takeGeneration.records.lookup key = some record := hlookup
    simp only [hfound]
    refine ⟨Nat.le_succ _, fun hs hfit => ?_, fun _ _ => emits_refile hlookup rfl rfl⟩
    have hgen := generation_takeGeneration l hfit
    refine hs.refile hlookup rfl (Nat.le_succ _) rfl rfl rfl rfl rfl hgen.le fun _ r hr => ?_
    -- No timer can carry the generation that was just handed out.
    rcases Table.lookup_insert_cases hr with ⟨-, rfl⟩ | ⟨hne, -⟩
    · intro timer ht
      have := hs.timer_le timer ht
      show timer.generation ≠ l.takeGeneration.generation
      omega
    · exact absurd rfl hne

theorem resume_moves (key : K) (now : Nat) : Moves policy l [] (l.resume rt key now) := by
  unfold resume
  cases hlookup : l.records.lookup key with
  | none => exact .refl l
  | some record =>
    dsimp only
    split
    · exact .refl l
    · refine ⟨Nat.le_succ _, fun hs hfit => ?_, fun _ _ => emits_refile hlookup rfl rfl⟩
      refine hs.reschedule (fun k _ => (some_ne_none k).symm) hlookup hfit ?_
      exact ⟨rfl, rfl, rfl, hs.budget_le key record hlookup⟩

theorem witness_moves [DecidableEq T] (key : K) (token : T) : Moves policy l [] (l.witness key token).1 := by
  unfold witness
  cases hlookup : l.records.lookup key with
  | none => exact .refl l
  | some record =>
    obtain ⟨hhost, hsends, hbudget, hgen, hdef⟩ := record.witness_eq token
    refine ⟨Nat.le_refl _, fun hs _ => ?_, fun _ _ => emits_refile hlookup rfl hsends⟩
    have hle := hs.generation_le key record hlookup
    refine hs.refile hlookup rfl (Nat.le_refl _) rfl rfl rfl hhost hbudget (hgen.le.trans hle) fun hkey r hr => ?_
    rcases Table.lookup_insert_cases hr with ⟨-, rfl⟩ | ⟨hne, -⟩
    · rw [hdef, hgen]
      exact hs.clocked key hkey record hlookup
    · exact absurd rfl hne

theorem drainUnresolved_moves : Moves policy l (l.drainUnresolved.2.map .drained) l.drainUnresolved.1 where
  taken_le := Nat.le_refl _
  sound hs _ := sound_of_empty hs.policy_eq rfl rfl fun _ => rfl
  lives _ _ key := by
    have hfilter : (l.records.keys.map Observation.drained).filter (fun o => o.key = key) =
        (l.records.keys.filter (· == key)).map Observation.drained := filter_map
    show Runs _ (l.sendsOf key) ((l.records.keys.map Observation.drained).filter fun o => o.key = key) none
    rw [hfilter, filter_beq]
    cases hlookup : l.records.lookup key with
    | none =>
      have hnot : key ∉ l.records.keys := by rw [Table.mem_keys_iff, hlookup]; exact Bool.false_ne_true
      rw [count_eq_zero_of_not_mem hnot, sendsOf, hlookup]
      exact .nil _
    | some record =>
      have hin : key ∈ l.records.keys := by rw [Table.mem_keys_iff, hlookup]; rfl
      rw [count_eq_one_of_mem l.records.keys_nodup hin, sendsOf, hlookup]
      exact .single (.drained key)

theorem seedHostRtt_moves (host : IpAddr) (rtt : Nat) : Moves policy l [] (l.seedHostRtt host rtt) := by
  refine ⟨Nat.le_refl _, fun hs _ => ?_, fun _ _ => .nil _⟩
  exact hs.congr rfl rfl rfl (Nat.le_refl _) (outstanding_setHost_of_eq l rfl)

end Operations

/-! ## Histories -/

inductive Op (K T P : Type) where
  | arm (host : IpAddr) (key : K) (token : T) (payload : P) (now : Nat)
  | rearm (host : IpAddr) (key : K) (token : T) (now : Nat)
  | resolve (key : K) (token : Option T) (now : Nat)
  | drainDue (now : Nat)
  | defer (key : K)
  | resume (key : K) (now : Nat)
  | witness (key : K) (token : T)
  | drainUnresolved
  | seedHostRtt (host : IpAddr) (rtt : Nat)

section Histories

variable [DecidableEq T] (rt : Runtime K)

def apply (l : ProbeLedger K T P) : Op K T P → ProbeLedger K T P × List (Observation K)
  | .arm host key token payload now =>
    (l.arm rt host key token payload now, if (l.records.lookup key).isNone then [.born key] else [])
  | .rearm host key token now => (l.rearm rt host key token now, [])
  | .resolve key token now =>
    ((l.resolve key token now).1, ((l.resolve key token now).2.map fun _ => .resolved key).toList)
  | .drainDue now => ((l.drainDue rt now).1, (l.drainFired rt now).2.map Fired.observation)
  | .defer key => (l.defer key, [])
  | .resume key now => (l.resume rt key now, [])
  | .witness key token => ((l.witness key token).1, [])
  | .drainUnresolved => (l.drainUnresolved.1, l.drainUnresolved.2.map .drained)
  | .seedHostRtt host rtt => (l.seedHostRtt host rtt, [])

def run (rt : Runtime K) : List (Op K T P) → ProbeLedger K T P → ProbeLedger K T P × List (Observation K)
  | [], l => (l, [])
  | op :: ops, l =>
    let first := l.apply rt op
    let rest := run rt ops first.1
    (rest.1, first.2 ++ rest.2)

/-- **Every call is a move.** -/
theorem apply_moves (l : ProbeLedger K T P) (op : Op K T P) : Moves policy l (l.apply rt op).2 (l.apply rt op).1 := by
  cases op with
  | arm host key token payload now => exact armInner_moves l rt host key token (some payload) now
  | rearm host key token now => exact armInner_moves l rt host key token none now
  | resolve key token now => exact resolve_moves l key token now
  | drainDue now => exact drainLoop_moves l rt now l.potential
  | defer key => exact defer_moves l key
  | resume key now => exact resume_moves l rt key now
  | witness key token => exact witness_moves l key token
  | drainUnresolved => exact drainUnresolved_moves l
  | seedHostRtt host rtt => exact seedHostRtt_moves l host rtt

/-- **Every history is a move.** -/
theorem run_moves (ops : List (Op K T P)) (l : ProbeLedger K T P) :
    Moves policy l (run rt ops l).2 (run rt ops l).1 := by
  induction ops generalizing l with
  | nil => exact .refl l
  | cons op ops ih => exact (apply_moves rt l op).trans (ih _)

/-- **No probe is lost**, over every history of calls, under any policy and with any timeouts,
while fewer than `2 ^ 32` generations are used: what is seen of a key is a sequence of lives, the
last one open exactly while the probe is outstanding. -/
theorem run_conserves (policy : RetryPolicy) (ops : List (Op K T P))
    (hfit : (run rt ops (new policy)).1.taken < 2 ^ 32) :
    (∀ key, Runs (Life policy.maxAttempts) none ((run rt ops (new policy)).2.filter fun o => o.key = key)
      (((run rt ops (new policy)).1.records.lookup key).map (·.sends))) ∧
    (∀ key, (((run rt ops (new policy)).2.filter fun o => o.key = key).map Observation.comes).sum =
      (((run rt ops (new policy)).2.filter fun o => o.key = key).map Observation.goes).sum +
        if ((run rt ops (new policy)).1.records.lookup key).isSome then 1 else 0) ∧
    (∀ host, ((run rt ops (new policy)).1.hosts host).outstanding =
      (run rt ops (new policy)).1.records.entries.countP fun entry => entry.2.host = host) ∧
    ∀ key record, (run rt ops (new policy)).1.records.lookup key = some record →
      if record.deferred then ∀ timer ∈ (run rt ops (new policy)).1.timers, timer.generation ≠ record.generation
      else ∃ due, (run rt ops (new policy)).1.timers.filter (fun timer => timer.generation = record.generation) =
        [⟨due, key, record.generation⟩] := by
  have hmoves : Moves policy (new policy) (run rt ops (new policy)).2 (run rt ops (new policy)).1 := run_moves rt ops _
  have hsound := hmoves.sound (new_sound policy) hfit
  have hlives := hmoves.lives (new_sound policy) hfit
  refine ⟨hlives, fun key => ?_, fun host => ?_, fun key record hlookup => hsound.timers_of_generation hlookup⟩
  · have hbalance := (hlives key).balance fun _ _ _ hstep => hstep.balance
    rw [show present ((new policy : ProbeLedger K T P).sendsOf key) = 0 from rfl, Nat.zero_add,
      Nat.add_comm] at hbalance
    rw [hbalance, present, sendsOf, isSome_map]
  · exact (hsound.counted host).trans (Table.weigh_ite (fun record : Record T P => record.host = host) _)

end Histories

def plainRuntime : Runtime Nat := ⟨.searched _, fun base _ _ => base, fun _ base => base, 10 ^ 30⟩

def twoAttempts : RetryPolicy := ⟨2, 100, 10, 1000, none, true, by decide⟩

def silentHistory : List (Op Nat Nat Unit) :=
  [.arm (.v4 7) 80 1 () 0, .arm (.v4 7) 81 2 () 50, .drainDue 100, .rearm (.v4 7) 80 3 100, .drainDue 200, .defer 81]

/-- The first probe is given up after its second attempt, and the second is outstanding without a timer. -/
theorem run_conserves_silentHistory : (run plainRuntime silentHistory (new twoAttempts)).1.taken < 2 ^ 32 ∧
    Runs (Life twoAttempts.maxAttempts) none
      ((run plainRuntime silentHistory (new twoAttempts)).2.filter fun o => o.key = 80)
      (((run plainRuntime silentHistory (new twoAttempts)).1.records.lookup 80).map (·.sends)) :=
  ⟨by decide +kernel, (run_conserves plainRuntime twoAttempts silentHistory (by decide +kernel)).1 80⟩

theorem drainDue_done_silent : let l := (run plainRuntime silentHistory (new twoAttempts)).1
    0 < l.timers.length ∧ ∀ timer ∈ (l.drainDue plainRuntime 900).1.timers, 900 < timer.due :=
  ⟨by decide +kernel, drainDue_done plainRuntime _ 900⟩

example : (run plainRuntime silentHistory (new twoAttempts)).2 =
    [.born 80, .born 81, .retried 80 2, .retried 81 2, .exhausted 80 2 2] := by decide +kernel

end ProbeLedger

end Zond.Retry
