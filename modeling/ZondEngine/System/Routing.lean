import ZondEngine.Lib.Containers
import ZondEngine.Model.Exclusion
import ZondEngine.Model.Mac

/-!
# How this host reaches a target

`system/interface/routing.rs` gives every target of a scan to one strategy. Items are placed one after another, each
mentioning an address it covers once (`Places`), and `Buckets.mentions` counts the places an address is in.
-/

namespace Zond.System

open Zond.Ip Zond.Ranges List

/-! ## Links -/

/-- An address an interface holds, and how much of it names the network: never more than its family has. -/
structure LinkAddress where
  address : IpAddr
  prefixLen : Nat
  prefixLen_le : prefixLen ≤ if address.isIpv4 then 32 else 128
deriving DecidableEq

namespace LinkAddress

def new (address : IpAddr) (prefixLen : Nat) : LinkAddress where
  address := address
  prefixLen := min prefixLen (if address.isIpv4 then 32 else 128)
  prefixLen_le := Nat.min_le_right _ _

theorem cidrRange_isSome (held : LinkAddress) : (cidrRange held.address held.prefixLen).isSome = true := by
  obtain ⟨address, prefixLen, hle⟩ := held
  cases address with
  | v4 a => simp [cidrRange, Nat.not_lt.mpr (show prefixLen ≤ 32 from hle)]
  | v6 a => simp [cidrRange, Nat.not_lt.mpr (show prefixLen ≤ 128 from hle)]

def network (held : LinkAddress) : IpRange := (cidrRange held.address held.prefixLen).get held.cidrRange_isSome

def contains (held : LinkAddress) (ip : IpAddr) : Bool := held.network.contains ip

end LinkAddress

inductive LinkKind where
  | wired | wireless | loopback | virtual
deriving DecidableEq, Repr

inductive Addressing where
  | broadcast | pointToPoint | neither
deriving DecidableEq, Repr

structure Link where
  name : String
  friendlyName : Option String
  index : UInt32
  mac : Option MacAddr
  addresses : List LinkAddress
  kind : LinkKind
  up : Bool
  addressing : Addressing
  (physical defaultRoute gateway : Bool)
deriving DecidableEq

def Link.new (name : String) (index : UInt32) : Link where
  name := name
  friendlyName := none
  index := index
  mac := none
  addresses := []
  kind := .virtual
  up := false
  addressing := .neither
  physical := false
  defaultRoute := false
  gateway := false

def Link.carriesFrames (link : Link) : Bool :=
  link.addressing != .pointToPoint && link.kind != .loopback && link.mac.isSome

def Link.ipv6 (link : Link) : List Ipv6Addr := link.addresses.filterMap fun held =>
  match held.address with
  | .v6 a => some a
  | .v4 _ => none

section Questions

variable (links : List Link)

def holdingPrefix (target : IpAddr) : Option (Fin links.length × LinkAddress) :=
  (List.finRange links.length).foldl (fun best idx => (links.get idx).addresses.foldl (fun best held =>
    if held.contains target && best.all fun b => decide (held.prefixLen > b.2.prefixLen) then some (idx, held)
    else best) best) none

/-- The link whose network holds a range whole. -/
def owningInterface (start stop : IpAddr) : Option (Fin links.length) := do
  let (idx, owner) ← holdingPrefix links start
  let others := (List.finRange links.length).filter (· ≠ idx)
  let narrower := (others.flatMap fun other => (links.get other).addresses).filter fun held =>
    decide (held.prefixLen > owner.prefixLen)
  let networks := (narrower.map LinkAddress.network).filter fun network => decide (network.len > 1)
  let narrowerInside := networks.any fun network =>
    network.startAddr.isIpv4 == start.isIpv4 && network.startAddr.le stop && start.le network.endAddr
  if (links.get idx).carriesFrames && owner.contains stop && !narrowerInside then some idx else none

def plausibleSource (target : IpAddr) : Option IpAddr :=
  match target with
  | .v4 _ => none
  | .v6 target =>
    if (toIpv4Mapped target).isSome then none
    else if Ipv6Addr.isUnicastLinkLocal target then none
    else ((links.flatMap Link.ipv6).find? fun addr =>
      !Ipv6Addr.isUnicastLinkLocal addr && !(IpAddr.v6 addr).isLoopback).map .v6

def ownedIps : List IpAddr := (links.flatMap fun link => link.addresses.map LinkAddress.address).dedup

inductive RouteAnswer where
  | «from» (source : IpAddr)
  | noRoute | forbidden | unanswered | unasked

inductive Classification (n : Nat) where
  | «local» (idx : Fin n)
  | routed (source : IpAddr)
  | ours
  | unmapped

def isIpv4Mapped : IpAddr → Bool
  | .v4 _ => false
  | .v6 a => (toIpv4Mapped a).isSome

def classify (forced : List IpAddr) (route : IpAddr → RouteAnswer) (target : IpAddr) : Classification links.length :=
  if target.isLoopback then .unmapped
  else if isIpv4Mapped target then .unmapped
  else if target ∈ ownedIps links then .ours
  else match holdingPrefix links target with
    | some (idx, held) => if (links.get idx).carriesFrames then .local idx else .routed held.address
    | none =>
      -- the table is asked before a forced source is looked at: a policy refusal outranks it
      match route target with
      | .forbidden => .unmapped
      | answer => match forced.find? fun s => s.isIpv4 == target.isIpv4 with
        | some source => .routed source
        | none =>
          let answered := match answer with
            | .from source => if source ∈ ownedIps links then some source else none
            | _ => none
          match answered with
          | some source => .routed source
          | none => match plausibleSource links target with
            | some source => .routed source
            | none => .unmapped

end Questions

def maxEnumerableAddresses : Nat := 1 <<< 16

def isEnumerable (range : Ipv6Range) : Bool := decide (range.len ≤ maxEnumerableAddresses)

/-! ## The classification of a set -/

structure RoutedTarget where
  (target source : IpAddr)
deriving DecidableEq

structure Buckets (n : Nat) where
  «local» : AList fun _ : Fin n => IpSet
  routed : List RoutedTarget
  (unmapped ours : IpSet)
  (unenumerable ambiguous : List Ipv6Range)
  singlesToRoute : List IpAddr

def Buckets.empty (n : Nat) : Buckets n := ⟨∅, [], .new, .new, [], [], []⟩

def Buckets.sweep {n : Nat} (b : Buckets n) (idx : Fin n) (range : IpRange) : Buckets n :=
  { b with «local» := Table.modify b.local idx .new fun targets => targets.insertRange range }

def placeV4 (links : List Link) (b : Buckets links.length) (range : Ipv4Range) : Buckets links.length :=
  match owningInterface links (.v4 range.startAddr) (.v4 range.endAddr) with
  | some idx => b.sweep idx (.v4 range)
  | none => { b with singlesToRoute := b.singlesToRoute ++ range.iter }

def placeV6 (links : List Link) (b : Buckets links.length) (range : Ipv6Range) : Buckets links.length :=
  if range.isAmbiguous then { b with ambiguous := b.ambiguous ++ [range] }
  else match range.zone with
    | some zone => match (List.finRange links.length).find? fun idx => (links.get idx).index == zone with
      | some idx => b.sweep idx (.v6 range)
      | none => { b with ambiguous := b.ambiguous ++ [range] }
    | none => match owningInterface links (.v6 range.startAddr) (.v6 range.endAddr) with
      | some idx => b.sweep idx (.v6 range)
      | none => if !isEnumerable range then { b with unenumerable := b.unenumerable ++ [range] }
        else { b with singlesToRoute := b.singlesToRoute ++ range.iter }

def settle {n : Nat} (b : Buckets n) (processed : IpAddr × Classification n) : Buckets n :=
  match processed.2 with
  | .local idx => { b with «local» := Table.modify b.local idx .new fun targets => targets.insert processed.1 }
  | .routed source => { b with routed := b.routed ++ [⟨processed.1, source⟩] }
  | .unmapped => { b with unmapped := b.unmapped.insert processed.1 }
  | .ours => { b with ours := b.ours.insert processed.1 }

def withhold {n : Nat} (b : Buckets n) (address : IpAddr) : Buckets n :=
  { b with
    «local» := Table.mapValues (fun targets =>
      if targets.contains address then targets.subtract (IpSet.new.insert address) else targets) b.local
    ours := b.local.entries.foldl (fun ours entry =>
      if entry.2.contains address then ours.insert address else ours) b.ours }

structure RoutedTargets where
  «local» : AList fun _ : Link => IpSet
  routed : List RoutedTarget
  (unmapped ours : IpSet)
  (ambiguous unenumerable : List Ipv6Range)

/-- Classifies targets by how this host reaches them. `walk` is the order its hash set of own addresses is walked in. -/
def mapIpsToInterfacesAsking (walk : List IpAddr → List IpAddr) (ipSet : IpSet) (interfaces : List Link)
    (forced : List IpAddr) (route : IpAddr → RouteAnswer) : RoutedTargets :=
  let b := ipSet.v4.foldl (placeV4 interfaces) (.empty _)
  let b := ipSet.v6.foldl (placeV6 interfaces) b
  let processed := b.singlesToRoute.map fun target => (target, classify interfaces forced route target)
  let b := processed.foldl settle { b with singlesToRoute := [] }
  let b := (walk (ownedIps interfaces)).foldl withhold b
  { «local» := Table.rekey interfaces.get (Table.retain (fun targets => !targets.isEmpty) b.local)
    routed := b.routed
    unmapped := b.unmapped
    ours := b.ours
    ambiguous := b.ambiguous
    unenumerable := b.unenumerable }

section Mentions

variable {n : Nat} (ip : IpAddr)

def holds (s : IpSet) : Nat := if s.contains ip = true then 1 else 0

def inRanges (ranges : List Ipv6Range) : Nat := ranges.countP fun range => IpRange.contains (.v6 range) ip

def Buckets.mentions (b : Buckets n) : Nat :=
  Table.weigh (holds ip) b.local + b.routed.countP (·.target = ip) + holds ip b.unmapped + holds ip b.ours +
    inRanges ip b.ambiguous + inRanges ip b.unenumerable + b.singlesToRoute.count ip

def RoutedTargets.mentions (r : RoutedTargets) : Nat :=
  Table.weigh (holds ip) r.local + r.routed.countP (·.target = ip) + holds ip r.unmapped + holds ip r.ours +
    inRanges ip r.ambiguous + inRanges ip r.unenumerable

end Mentions

section Places

variable {B I : Type} {count : B → Nat} {covers : I → Bool} {place : B → I → B}

structure Places (count : B → Nat) (covers : I → Bool) (place : B → I → B) : Prop where
  skip : ∀ b i, covers i = false → count (place b i) = count b
  take : ∀ b i, covers i = true → count b = 0 → count (place b i) = 1

theorem Places.of_step (h : ∀ b i, (covers i = false → count (place b i) = count b) ∧
    (covers i = true → count b = 0 → count (place b i) = 1)) : Places count covers place :=
  ⟨fun b i => (h b i).1, fun b i => (h b i).2⟩

/-- **Items that cover an address at most once in all count it as often as they cover it.** -/
theorem Places.run (h : Places count covers place) (items : List I) :
    ∀ b, count b + items.countP covers ≤ 1 → count (items.foldl place b) = count b + items.countP covers := by
  induction items with
  | nil => exact fun b _ => rfl
  | cons i items ih =>
    intro b hle
    rw [foldl_cons]
    cases hi : covers i with
    | false =>
      rw [countP_cons_of_neg (by simp [hi])] at hle ⊢
      rw [ih _ (by rwa [h.skip b i hi]), h.skip b i hi]
    | true =>
      rw [countP_cons_of_pos hi] at hle ⊢
      have hplaced := h.take b i hi (by omega)
      rw [ih _ (by omega)]
      omega

end Places

theorem countP_le_one {α : Type} {p : α → Bool} {l : List α}
    (h : l.Pairwise fun a b => ¬ (p a = true ∧ p b = true)) : l.countP p ≤ 1 := by
  induction l with
  | nil => exact Nat.zero_le 1
  | cons a l ih =>
    obtain ⟨ha, hl⟩ := pairwise_cons.mp h
    cases hp : p a with
    | false =>
      rw [countP_cons_of_neg (by simp [hp])]
      exact ih hl
    | true =>
      rw [countP_cons_of_pos hp, countP_eq_zero.mpr fun b hb hpb => ha b hb ⟨hp, hpb⟩]

section Steps

variable {n : Nat} {ip : IpAddr} {links : List Link}

theorem holds_new : holds ip .new = 0 := if_neg (by simp [IpSet.contains_new])

theorem holds_of_contains {s : IpSet} (h : s.contains ip = true) : holds ip s = 1 := if_pos h

theorem holds_of_not_contains {s : IpSet} (h : s.contains ip = false) : holds ip s = 0 := if_neg (by simp [h])

theorem holds_congr {s t : IpSet} (h : s.contains ip = t.contains ip) : holds ip s = holds ip t := by
  unfold holds
  rw [h]

theorem holds_insertRange (ip : IpAddr) (s : IpSet) (range : IpRange) :
    holds ip (s.insertRange range) = if range.contains ip = true then 1 else holds ip s := by
  unfold holds
  rw [IpSet.contains_insertRange]
  cases range.contains ip <;> simp

theorem holds_insert (ip : IpAddr) (s : IpSet) (a : IpAddr) :
    holds ip (s.insert a) = if ip = a then 1 else holds ip s := by
  unfold holds
  rw [IpSet.contains_insert]
  by_cases h : ip = a <;> simp [h]

theorem weigh_update (t : AList fun _ : Fin n => IpSet) (idx : Fin n) {f : IpSet → IpSet} {covered : Prop}
    [Decidable covered] (hf : ∀ s, holds ip (f s) = if covered then 1 else holds ip s) :
    (¬ covered → Table.weigh (holds ip) (Table.modify t idx .new f) = Table.weigh (holds ip) t) ∧
    (covered → Table.weigh (holds ip) t = 0 → Table.weigh (holds ip) (Table.modify t idx .new f) = 1) := by
  have hstep := Table.weigh_modify (holds ip) holds_new t idx f
  have hle := Table.getD_le_weigh (holds ip) holds_new t idx
  rw [hf] at hstep
  constructor
  · intro hnot
    rw [if_neg hnot] at hstep
    omega
  · intro hcov hzero
    rw [if_pos hcov] at hstep
    omega

variable (b : Buckets n)

theorem mentions_sweep (idx : Fin n) (range : IpRange) :
    (range.contains ip = false → (b.sweep idx range).mentions ip = b.mentions ip) ∧
    (range.contains ip = true → b.mentions ip = 0 → (b.sweep idx range).mentions ip = 1) := by
  obtain ⟨hskip, htake⟩ := weigh_update b.local idx fun s : IpSet => holds_insertRange ip s range
  unfold Buckets.mentions Buckets.sweep
  dsimp only
  constructor
  · intro hnot
    rw [hskip (by simp [hnot])]
  · intro hcov hzero
    rw [htake hcov (by omega)]
    omega

theorem mentions_expand (range : IpRange) :
    (range.contains ip = false →
      Buckets.mentions ip { b with singlesToRoute := b.singlesToRoute ++ range.iter } = b.mentions ip) ∧
    (range.contains ip = true → b.mentions ip = 0 →
      Buckets.mentions ip { b with singlesToRoute := b.singlesToRoute ++ range.iter } = 1) := by
  have hcount : range.contains ip = true → range.iter.count ip = 1 := fun h =>
    count_eq_one_of_mem range.nodup_iter (IpRange.mem_iter.mpr h)
  have hzero : range.contains ip = false → range.iter.count ip = 0 := fun h =>
    count_eq_zero.mpr fun hmem => by simp [IpRange.mem_iter.mp hmem] at h
  unfold Buckets.mentions
  dsimp only
  rw [count_append]
  constructor
  · intro hnot
    rw [hzero hnot]
    omega
  · intro hcov hz
    rw [hcount hcov]
    omega

theorem inRanges_concat (ranges : List Ipv6Range) (range : Ipv6Range) :
    inRanges ip (ranges ++ [range]) = inRanges ip ranges + if IpRange.contains (.v6 range) ip = true then 1 else 0 := by
  unfold inRanges
  rw [countP_append, countP_singleton]

theorem mentions_set_aside (range : Ipv6Range) {b' : Buckets n}
    (h : b' = { b with ambiguous := b.ambiguous ++ [range] } ∨
      b' = { b with unenumerable := b.unenumerable ++ [range] }) :
    (IpRange.contains (.v6 range) ip = false → b'.mentions ip = b.mentions ip) ∧
    (IpRange.contains (.v6 range) ip = true → b.mentions ip = 0 → b'.mentions ip = 1) := by
  have hmore : b'.mentions ip = b.mentions ip + if IpRange.contains (.v6 range) ip = true then 1 else 0 := by
    rcases h with rfl | rfl
    all_goals
      unfold Buckets.mentions
      dsimp only
      rw [inRanges_concat]
      omega
  constructor
  · intro hnot
    rw [hmore, if_neg (by simp [hnot]), Nat.add_zero]
  · intro hcov hzero
    rw [hmore, if_pos hcov, hzero]

theorem places_placeV4 (ip : IpAddr) (links : List Link) :
    Places (Buckets.mentions ip) (fun range => IpRange.contains (.v4 range) ip) (placeV4 links) := by
  refine .of_step fun b range => ?_
  unfold placeV4
  split
  · exact mentions_sweep b _ _
  · exact mentions_expand b (.v4 range)

theorem placeV6_cases (b : Buckets links.length) (range : Ipv6Range) :
    (∃ idx, placeV6 links b range = b.sweep idx (.v6 range)) ∨
    placeV6 links b range = { b with singlesToRoute := b.singlesToRoute ++ IpRange.iter (.v6 range) } ∨
    placeV6 links b range = { b with ambiguous := b.ambiguous ++ [range] } ∨
    placeV6 links b range = { b with unenumerable := b.unenumerable ++ [range] } := by
  unfold placeV6
  split
  · exact .inr (.inr (.inl rfl))
  · split
    · split
      · exact .inl ⟨_, rfl⟩
      · exact .inr (.inr (.inl rfl))
    · split
      · exact .inl ⟨_, rfl⟩
      · split
        · exact .inr (.inr (.inr rfl))
        · exact .inr (.inl rfl)

theorem places_placeV6 (ip : IpAddr) (links : List Link) :
    Places (Buckets.mentions ip) (fun range => IpRange.contains (.v6 range) ip) (placeV6 links) := by
  refine .of_step fun b range => ?_
  rcases placeV6_cases b range with ⟨idx, h⟩ | h | h
  · rw [h]
    exact mentions_sweep b idx _
  · rw [h]
    exact mentions_expand b (.v6 range)
  · exact mentions_set_aside b range h

theorem places_settle (ip : IpAddr) : Places (Buckets.mentions ip)
    (fun processed : IpAddr × Classification n => decide (processed.1 = ip)) settle := by
  constructor
  · rintro b ⟨target, c⟩ hnot
    have hne : ip ≠ target := fun h => by simp [h] at hnot
    cases c with
    | «local» idx =>
      simp only [settle, Buckets.mentions, (weigh_update b.local idx fun s => holds_insert ip s target).1 hne]
    | routed source =>
      simp only [settle, Buckets.mentions, countP_append, countP_singleton]
      simp [Ne.symm hne]
    | ours => simp only [settle, Buckets.mentions, holds_insert, if_neg hne]
    | unmapped => simp only [settle, Buckets.mentions, holds_insert, if_neg hne]
  · rintro b ⟨target, c⟩ hcov hzero
    have heq : ip = target := (of_decide_eq_true hcov).symm
    unfold Buckets.mentions at hzero
    cases c with
    | «local» idx =>
      have hone := (weigh_update b.local idx fun s => holds_insert ip s target).2 heq (by omega)
      simp only [settle, Buckets.mentions, hone]
      omega
    | routed source =>
      simp only [settle, Buckets.mentions, countP_append, countP_singleton]
      simp only [heq, decide_true, if_true] at hzero ⊢
      omega
    | ours =>
      simp only [settle, Buckets.mentions, holds_insert, if_pos heq]
      omega
    | unmapped =>
      simp only [settle, Buckets.mentions, holds_insert, if_pos heq]
      omega

end Steps

section Own

variable {n : Nat} {ip : IpAddr} {links : List Link}

theorem contains_withheld (s : IpSet) (a : IpAddr) :
    (if s.contains a then s.subtract (IpSet.new.insert a) else s).contains ip = (s.contains ip && decide (ip ≠ a)) := by
  have hone : (IpSet.new.insert a).contains ip = decide (ip = a) := by
    rw [IpSet.contains_insert, IpSet.contains_new, Bool.false_or]
  by_cases hin : s.contains a = true
  · rw [if_pos hin, IpSet.contains_subtract, hone, decide_not]
  · rw [if_neg hin]
    by_cases h : ip = a
    · rw [h, Bool.eq_false_iff.mpr hin, Bool.false_and]
    · rw [decide_eq_true h, Bool.and_true]

theorem weigh_withheld (t : AList fun _ : Fin n => IpSet) (a : IpAddr) :
    Table.weigh (holds ip) (Table.mapValues (fun targets =>
      if targets.contains a then targets.subtract (IpSet.new.insert a) else targets) t) =
      if ip = a then 0 else Table.weigh (holds ip) t := by
  rw [Table.weigh_mapValues]
  by_cases h : ip = a
  · rw [if_pos h]
    refine sum_eq_zero fun w hw => ?_
    obtain ⟨entry, -, rfl⟩ := mem_map.mp hw
    exact holds_of_not_contains (by rw [contains_withheld, decide_eq_false (by simpa using h), Bool.and_false])
  · rw [if_neg h]
    refine congrArg List.sum (map_congr_left fun entry _ => holds_congr ?_)
    rw [contains_withheld, decide_eq_true h, Bool.and_true]

theorem holds_foldl_ours (a : IpAddr) (entries : List (Sigma fun _ : Fin n => IpSet)) : ∀ ours : IpSet,
      holds ip (entries.foldl (fun ours entry => if entry.2.contains a then ours.insert a else ours) ours) =
      if ip = a ∧ ∃ entry ∈ entries, entry.2.contains a = true then 1 else holds ip ours := by
  induction entries with
  | nil => simp
  | cons entry entries ih =>
    intro ours
    rw [foldl_cons, ih]
    cases hin : entry.2.contains a with
    | false =>
      rw [if_neg Bool.false_ne_true]
      simp only [mem_cons, exists_eq_or_imp, hin, Bool.false_eq_true, false_or]
    | true =>
      rw [if_pos rfl, holds_insert]
      by_cases h : ip = a
      · simp [h, hin]
      · simp [h]

theorem exists_of_weigh_ne_zero {t : AList fun _ : Fin n => IpSet} :
    Table.weigh (holds ip) t ≠ 0 ↔ ∃ entry ∈ t.entries, entry.2.contains ip = true := by
  rw [← not_iff_not, not_ne_iff, Table.weigh, sum_eq_zero_iff]
  constructor
  · rintro h ⟨entry, hentry, hin⟩
    have hzero := h (holds ip entry.2) (mem_map.mpr ⟨entry, hentry, rfl⟩)
    rw [holds_of_contains hin] at hzero
    exact absurd hzero one_ne_zero
  · intro h w hw
    obtain ⟨entry, hentry, rfl⟩ := mem_map.mp hw
    exact holds_of_not_contains (Bool.eq_false_iff.mpr fun hin => h ⟨entry, hentry, hin⟩)

/-- **Withholding an address moves it and loses nothing**: an address in at most one place stays in as many. -/
theorem mentions_withhold {b : Buckets n} (a : IpAddr) (hle : b.mentions ip ≤ 1) :
    (withhold b a).mentions ip = b.mentions ip := by
  unfold Buckets.mentions withhold at *
  dsimp only
  rw [weigh_withheld, holds_foldl_ours]
  by_cases h : ip = a
  · subst h
    by_cases hin : ∃ entry ∈ b.local.entries, entry.2.contains ip = true
    · -- the one place was a link's set; it is `ours` now
      have hne := exists_of_weigh_ne_zero.mpr hin
      rw [if_pos rfl, if_pos ⟨rfl, hin⟩]
      omega
    · have hzero : Table.weigh (holds ip) b.local = 0 := not_not.mp fun hne => hin (exists_of_weigh_ne_zero.mp hne)
      rw [if_pos rfl, if_neg fun hcon => hin hcon.2, hzero]
  · rw [if_neg h, if_neg fun hcon => h hcon.1]

def Swept (b : Buckets n) (a : IpAddr) : Prop := ∀ entry ∈ b.local.entries, entry.2.contains a = false

theorem swept_withhold (b : Buckets n) {a a' : IpAddr} (h : a' = a ∨ Swept b a') : Swept (withhold b a) a' := by
  intro entry hentry
  obtain ⟨old, hold, rfl⟩ := mem_map.mp hentry
  rw [contains_withheld]
  rcases h with rfl | h
  · simp
  · rw [h old hold, Bool.false_and]

theorem foldl_withhold (owned : List IpAddr) : ∀ b : Buckets n, (∀ ip, b.mentions ip ≤ 1) →
    (∀ ip, (owned.foldl withhold b).mentions ip = b.mentions ip) ∧
      (∀ a, a ∈ owned ∨ Swept b a → Swept (owned.foldl withhold b) a) ∧ (owned.foldl withhold b).routed = b.routed ∧
      (owned.foldl withhold b).singlesToRoute = b.singlesToRoute := by
  induction owned with
  | nil => exact fun b _ => ⟨fun _ => rfl, fun a h => h.resolve_left not_mem_nil, rfl, rfl⟩
  | cons a owned ih =>
    intro b hle
    have hsame : ∀ ip, (withhold b a).mentions ip = b.mentions ip := fun ip => mentions_withhold a (hle ip)
    obtain ⟨hmentions, hswept, hrouted, hsingles⟩ := ih (withhold b a) fun ip => (hsame ip).le.trans (hle ip)
    refine ⟨fun ip => (hmentions ip).trans (hsame ip), fun a' ha' => hswept a' ?_, hrouted, hsingles⟩
    rcases ha' with ha' | ha'
    · rcases mem_cons.mp ha' with rfl | ha'
      · exact .inr (swept_withhold b (.inl rfl))
      · exact .inl ha'
    · exact .inr (swept_withhold b (.inr ha'))

theorem not_owned_of_classify {forced : List IpAddr} {route : IpAddr → RouteAnswer} {target source : IpAddr}
    (h : classify links forced route target = .routed source) : target ∉ ownedIps links := by
  intro hown
  unfold classify at h
  split at h
  · cases h
  · split at h <;> cases h

theorem foldl_settle (processed : List (IpAddr × Classification n)) : ∀ b : Buckets n,
    (processed.foldl settle b).singlesToRoute = b.singlesToRoute ∧
    ∀ t ∈ (processed.foldl settle b).routed, t ∈ b.routed ∨ (t.target, .routed t.source) ∈ processed := by
  induction processed with
  | nil => exact fun b => ⟨rfl, fun t ht => .inl ht⟩
  | cons p processed ih =>
    intro b
    obtain ⟨hsingles, hrouted⟩ := ih (settle b p)
    have hstep : (settle b p).singlesToRoute = b.singlesToRoute ∧
        ∀ t ∈ (settle b p).routed, t ∈ b.routed ∨ (t.target, .routed t.source) = p := by
      obtain ⟨target, c⟩ := p
      cases c with
      | «local» idx => exact ⟨rfl, fun t ht => .inl ht⟩
      | routed source =>
        refine ⟨rfl, fun t ht => ?_⟩
        rcases mem_append.mp ht with ht | ht
        · exact .inl ht
        · rw [mem_singleton.mp ht]
          exact .inr rfl
      | ours => exact ⟨rfl, fun t ht => .inl ht⟩
      | unmapped => exact ⟨rfl, fun t ht => .inl ht⟩
    refine ⟨hsingles.trans hstep.1, fun t ht => ?_⟩
    rcases hrouted t ht with ht | ht
    · rcases hstep.2 t ht with ht | ht
      · exact .inl ht
      · exact .inr (ht ▸ mem_cons_self)
    · exact .inr (mem_cons_of_mem _ ht)

theorem routed_placeV4 (b : Buckets links.length) (range : Ipv4Range) : (placeV4 links b range).routed = b.routed := by
  unfold placeV4
  split <;> rfl

theorem routed_placeV6 (b : Buckets links.length) (range : Ipv6Range) : (placeV6 links b range).routed = b.routed := by
  rcases placeV6_cases b range with ⟨idx, h⟩ | h | h | h
  · rw [h, Buckets.sweep]
  · rw [h]
  · rw [h]
  · rw [h]

theorem foldl_routed {I : Type} {place : Buckets n → I → Buckets n} (h : ∀ b i, (place b i).routed = b.routed)
    (items : List I) (b : Buckets n) : (items.foldl place b).routed = b.routed := by
  induction items generalizing b with
  | nil => rfl
  | cons i items ih => rw [foldl_cons, ih, h]

end Own

section Whole

variable {s : IpSet}

theorem count_eq_ite {n : Nat} {p : Prop} [Decidable p] (hle : n ≤ 1) (hpos : 0 < n ↔ p) : n = if p then 1 else 0 := by
  split
  next hp => exact Nat.le_antisymm hle (hpos.mpr hp)
  next hp => exact Nat.eq_zero_of_not_pos (mt hpos.mp hp)

theorem countP_ranges (ip : IpAddr) (hv4 : s.v4Dirty = false) (hv6 : s.v6Dirty = false)
    (hzones : ∀ ip z z', (ip, z) ∈ s.pairs → (ip, z') ∈ s.pairs → z = z') :
    s.v4.countP (fun range => IpRange.contains (.v4 range) ip) +
      s.v6.countP (fun range => IpRange.contains (.v6 range) ip) = if s.contains ip = true then 1 else 0 := by
  cases ip with
  | v4 a =>
    have hnone : s.v6.countP (fun range => IpRange.contains (.v6 range) (.v4 a)) = 0 :=
      countP_eq_zero.mpr fun _ _ h => by cases h
    have hle : s.v4.countP (fun range => IpRange.contains (.v4 range) (.v4 a)) ≤ 1 := by
      refine countP_le_one ((s.v4_merged hv4).imp fun {r r'} hapart h => ?_)
      exact hapart.disjoint (Ipv4Range.contains_iff.mp h.1) (Ipv4Range.contains_iff.mp h.2)
    have hpos : 0 < s.v4.countP (fun range => IpRange.contains (.v4 range) (.v4 a)) ↔ s.contains (.v4 a) = true := by
      rw [countP_pos_iff, IpSet.contains_iff]
      constructor
      · rintro ⟨r, hr, hin⟩
        exact ⟨none, rfl, r, hr, hin⟩
      · rintro ⟨z, -, r, hr, hin⟩
        exact ⟨r, hr, hin⟩
    rw [hnone]
    exact count_eq_ite hle hpos
  | v6 a =>
    have hnone : s.v4.countP (fun range => IpRange.contains (.v4 range) (.v6 a)) = 0 :=
      countP_eq_zero.mpr fun _ _ h => by cases h
    have hle : s.v6.countP (fun range => IpRange.contains (.v6 range) (.v6 a)) ≤ 1 := by
      refine countP_le_one (List.Pairwise.imp_of_mem (fun {r r'} hr hr' hapart h => ?_) (s.v6_merged hv6))
      -- two ranges with the address are on one zone, and two of one zone are apart
      have hzone : r.zone = r'.zone := hzones (.v6 a) _ _ ⟨r, hr, h.1, rfl⟩ ⟨r', hr', h.2, rfl⟩
      refine hapart.disjoint (x := (group r, a.val)) ⟨rfl, Ipv6Range.contains_iff.mp h.1⟩
        ⟨?_, Ipv6Range.contains_iff.mp h.2⟩
      exact congrArg zoneKey hzone.symm
    have hpos : 0 < s.v6.countP (fun range => IpRange.contains (.v6 range) (.v6 a)) ↔ s.contains (.v6 a) = true := by
      rw [countP_pos_iff, IpSet.contains_iff]
      constructor
      · rintro ⟨r, hr, hin⟩
        exact ⟨r.zone, r, hr, hin, rfl⟩
      · rintro ⟨z, r, hr, hin, -⟩
        exact ⟨r, hr, hin⟩
    rw [hnone, Nat.zero_add]
    exact count_eq_ite hle hpos

theorem mentions_empty (ip : IpAddr) (n : Nat) : (Buckets.empty n).mentions ip = 0 := by
  simp [Buckets.mentions, Buckets.empty, Table.weigh, inRanges, holds_new]

def classified (ipSet : IpSet) (links : List Link) (forced : List IpAddr) (route : IpAddr → RouteAnswer) :
    Buckets links.length :=
  let b := ipSet.v6.foldl (placeV6 links) (ipSet.v4.foldl (placeV4 links) (.empty _))
  (b.singlesToRoute.map fun target => (target, classify links forced route target)).foldl settle
    { b with singlesToRoute := [] }

theorem classified_spec (hv4 : s.v4Dirty = false) (hv6 : s.v6Dirty = false)
    (hzones : ∀ ip z z', (ip, z) ∈ s.pairs → (ip, z') ∈ s.pairs → z = z') (links : List Link)
    (forced : List IpAddr) (route : IpAddr → RouteAnswer) :
    (∀ ip, (classified s links forced route).mentions ip = if s.contains ip = true then 1 else 0) ∧
      (classified s links forced route).singlesToRoute = [] ∧
      ∀ t ∈ (classified s links forced route).routed, t.target ∉ ownedIps links := by
  unfold classified
  set placed := s.v6.foldl (placeV6 links) (s.v4.foldl (placeV4 links) (.empty _)) with hplaced
  obtain ⟨hsingles, hrouted⟩ := foldl_settle
    (placed.singlesToRoute.map fun target => (target, classify links forced route target))
    { placed with singlesToRoute := [] }
  refine ⟨fun ip => ?_, hsingles, fun t ht => ?_⟩
  · have hcount := countP_ranges ip hv4 hv6 hzones
    have hle : (if s.contains ip = true then 1 else 0) ≤ 1 := by split <;> omega
    have hempty := mentions_empty ip links.length
    have h4 := (places_placeV4 ip links).run s.v4 (.empty _) (by omega)
    have h6 : placed.mentions ip = if s.contains ip = true then 1 else 0 := by
      rw [hplaced, (places_placeV6 ip links).run s.v6 _ (by omega)]
      omega
    -- the targets still to be routed are those the last loop places
    have hsplit : placed.mentions ip =
        Buckets.mentions ip { placed with singlesToRoute := [] } + placed.singlesToRoute.count ip := by
      simp [Buckets.mentions]
    have hmap : (placed.singlesToRoute.map fun target => (target, classify links forced route target)).countP
        (fun processed => decide (processed.1 = ip)) = placed.singlesToRoute.count ip := by
      rw [countP_map, List.count]
      refine countP_congr fun a _ => ?_
      simp
    rw [(places_settle ip).run _ _ (by omega), hmap, ← hsplit, h6]
  · rcases hrouted t ht with hold | hnew
    · have hnil : placed.routed = [] := by
        rw [hplaced, foldl_routed routed_placeV6, foldl_routed routed_placeV4]
        rfl
      rw [show ({ placed with singlesToRoute := [] } : Buckets links.length).routed = [] from hnil] at hold
      cases hold
    · obtain ⟨target, -, heq⟩ := mem_map.mp hnew
      obtain ⟨rfl, hclass⟩ := Prod.mk.inj heq
      exact not_owned_of_classify hclass

/-- **Every target is given to exactly one strategy**, in a merged set that holds no address on two
zones, and no address of this host is given to a link or a route. -/
theorem mapIpsToInterfacesAsking_exact {walk : List IpAddr → List IpAddr} (hwalk : ∀ l, (walk l).Perm l) (s : IpSet)
    (hv4 : s.v4Dirty = false) (hv6 : s.v6Dirty = false)
    (hzones : ∀ ip z z', (ip, z) ∈ s.pairs → (ip, z') ∈ s.pairs → z = z') {links : List Link} (hlinks : links.Nodup)
    (forced : List IpAddr) (route : IpAddr → RouteAnswer) :
    (∀ ip, (mapIpsToInterfacesAsking walk s links forced route).mentions ip = if s.contains ip = true then 1 else 0) ∧
    ∀ link ∈ links, ∀ held ∈ link.addresses,
      (∀ entry ∈ (mapIpsToInterfacesAsking walk s links forced route).local.entries,
        entry.2.contains held.address = false) ∧
      ∀ t ∈ (mapIpsToInterfacesAsking walk s links forced route).routed, t.target ≠ held.address := by
  obtain ⟨hmentions, hsingles, hrouted⟩ := classified_spec hv4 hv6 hzones links forced route
  have hle : ∀ ip, (classified s links forced route).mentions ip ≤ 1 := by
    intro ip
    rw [hmentions]
    split <;> omega
  obtain ⟨hkept, hswept, hsame, hnone⟩ := foldl_withhold (walk (ownedIps links)) (classified s links forced route) hle
  -- the result is the buckets after the last pass, without the empty sets and under the links themselves
  have hresult : mapIpsToInterfacesAsking walk s links forced route =
      let b := (walk (ownedIps links)).foldl withhold (classified s links forced route)
      { «local» := Table.rekey links.get (Table.retain (fun targets => !targets.isEmpty) b.local)
        routed := b.routed
        unmapped := b.unmapped
        ours := b.ours
        ambiguous := b.ambiguous
        unenumerable := b.unenumerable } := rfl
  constructor
  · intro ip
    have hempty : ∀ t : IpSet, (!t.isEmpty) = false → holds ip t = 0 := fun t ht =>
      holds_of_not_contains (IpSet.contains_of_isEmpty (by simpa using ht) ip)
    rw [← hmentions ip, ← hkept ip, hresult, RoutedTargets.mentions, Buckets.mentions]
    dsimp only
    rw [Table.weigh_rekey (nodup_iff_injective_get.mp hlinks), Table.weigh_retain hempty, hnone, hsingles,
      count_nil, Nat.add_zero]
  · intro link hlink held hheld
    have hown : held.address ∈ ownedIps links :=
      mem_dedup.mpr (mem_flatMap.mpr ⟨link, hlink, mem_map_of_mem hheld⟩)
    constructor
    · intro entry hentry
      rw [hresult] at hentry
      obtain ⟨old, hold, heq⟩ := Table.exists_of_mem_rekey hentry
      rw [← heq]
      exact hswept _ (.inl ((hwalk _).mem_iff.mpr hown)) old (mem_of_mem_filter hold)
    · intro t ht heq
      rw [hresult] at ht
      dsimp only at ht
      rw [hsame] at ht
      exact hrouted t ht (heq ▸ hown)

def eth0 : Link := { Link.new "eth0" 2 with
  mac := some 0x020000000002
  addresses := [.new (.v4 0xC0A80102) 24]
  kind := .wired
  addressing := .broadcast }

def fourOnSegment : IpSet := .fromRanges [.v4 ⟨0xC0A80100, 0xC0A80103, by decide⟩]

/-- The link's own address, inside a range that is kept whole, ends up in one place, which is not the sweep. -/
theorem mapIpsToInterfacesAsking_exact_own :
    (mapIpsToInterfacesAsking id fourOnSegment [eth0] [] fun _ => .noRoute).mentions (.v4 0xC0A80102) = 1 ∧
    ∀ entry ∈ (mapIpsToInterfacesAsking id fourOnSegment [eth0] [] fun _ => .noRoute).local.entries,
      entry.2.contains (.v4 0xC0A80102) = false := by
  have hzones : ∀ ip z z', (ip, z) ∈ fourOnSegment.pairs → (ip, z') ∈ fourOnSegment.pairs → z = z' := by
    intro ip z z' h h'
    cases ip with
    | v4 a => exact h.1.trans h'.1.symm
    | v6 a =>
      obtain ⟨r, hr, -⟩ := h
      cases hr
  obtain ⟨hmentions, hown⟩ := mapIpsToInterfacesAsking_exact (fun l => List.Perm.refl (id l)) fourOnSegment
    (by decide) (by decide) hzones (nodup_singleton eth0) [] fun _ => .noRoute
  refine ⟨?_, (hown eth0 mem_cons_self _ mem_cons_self).1⟩
  rw [hmentions, if_pos (by decide)]

end Whole

end Zond.System
