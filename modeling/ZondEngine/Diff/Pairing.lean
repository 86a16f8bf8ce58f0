import ZondEngine.Lib.DisjointSet
import ZondEngine.Lib.Flood
import ZondEngine.Diff.Coverage

/-!
# Which record continues which

Records of two reports are paired by the tokens they share, as `diff/pairing.rs` has it: every connected component is
one host (`components_exact`). A hash set yields its tokens in an order of its own, a parameter here (`HashOrder`).
-/

namespace Zond.Diff

open List DisjointSet

open Ip (IpAddr)
open Flood (Linked Progress Sweeping Swept)

/-! ## Tokens -/

inductive HostIdentity where
  | primaryAddress | anyAddress | hardware
  deriving DecidableEq

inductive Token where
  | address (ip : IpAddr) (zone : Option Text)
  | hardware (mac : MacAddr)
  deriving DecidableEq

def scopeOf (ip : IpAddr) (zone : Option Text) : Option Text := if ip.isLinkLocal then zone else none

/-- What a record is known by under an identity. -/
def tokens (host : Host) (identity : HostIdentity) : List Token :=
  let zone := host.zone.map Scoped.Zone.name
  let addresses :=
    match identity with
    | .primaryAddress => [host.primaryIp]
    | .anyAddress | .hardware => host.ips.keys
  let macs := if identity = .hardware then host.hardware.elim [] fun hardware => hardware.macs.keys else []
  (addresses.map fun ip => .address ip (scopeOf ip zone)) ++ macs.map .hardware

theorem tokens_ne_nil (host : Host) (identity : HostIdentity) : ∃ token, token ∈ tokens host identity := by
  have hprimary : host.primaryIp ∈ (match identity with
      | .primaryAddress => [host.primaryIp]
      | .anyAddress | .hardware => host.ips.keys) := by
    cases identity with
    | primaryAddress => exact mem_cons_self
    | anyAddress => exact host.primaryIp_mem
    | hardware => exact host.primaryIp_mem
  exact ⟨_, mem_append_left _ (mem_map_of_mem hprimary)⟩

/-- The order the hash sets of a run yield their elements in: for the `n`-th set built, some order of its elements. -/
structure HashOrder where
  arrange : ℕ → List Token → List Token
  perm : ∀ n held, (arrange n held).Perm held

def HashOrder.asBuilt : HashOrder := ⟨fun _ held => held, fun _ _ => List.Perm.refl _⟩

/-- The tokens of one side's records as their sets yield them, the first being the `first`-th set of the run. -/
def tokensAt (order : HashOrder) (hosts : List Host) (identity : HostIdentity) (first i : ℕ) : List Token :=
  (hosts[i]?).elim [] fun host => order.arrange (first + i) (tokens host identity)

theorem mem_tokensAt {order : HashOrder} {hosts : List Host} {identity : HostIdentity} {first i : ℕ} {host : Host}
    (h : hosts[i]? = some host) {token : Token} :
    token ∈ tokensAt order hosts identity first i ↔ token ∈ tokens host identity := by
  unfold tokensAt
  rw [h, Option.elim_some]
  exact (order.perm _ _).mem_iff

/-! ## Pairing two reports -/

/-- One host as the two reports hold it: indices into their lists of records, ascending. -/
structure Component where
  (baseline current : List ℕ)
  deriving DecidableEq

def firstIndex (indices : List ℕ) : ℕ := indices.head?.getD (2 ^ 64 - 1)

def Component.le (a b : Component) : Prop :=
  firstIndex a.baseline < firstIndex b.baseline ∨
    firstIndex a.baseline = firstIndex b.baseline ∧ firstIndex a.current ≤ firstIndex b.current

instance : DecidableRel Component.le := fun _ _ => inferInstanceAs (Decidable (_ ∨ _))

/-- Pairs the records of two reports into hosts. -/
def components (order : HashOrder) (baseline current : List Host) (identity : HostIdentity) : List Component :=
  let (_, unmet, found) := Flood.sweep (tokensAt order baseline identity 0)
    (tokensAt order current identity baseline.length) baseline.length current.length
  let paired := found.map fun taken => ⟨taken.1.insertionSort (· ≤ ·), taken.2.insertionSort (· ≤ ·)⟩
  let alone := ((List.range current.length).filter (· ∉ unmet.seen)).map fun j => ⟨[], [j]⟩
  (paired ++ alone).insertionSort Component.le

/-! ## The components are the connected ones -/

inductive Links (identity : HostIdentity) (baseline current : List Host) : ℕ ⊕ ℕ → ℕ ⊕ ℕ → Prop
  | across {i j : ℕ} {a b : Host} {token : Token} (ha : baseline[i]? = some a) (hb : current[j]? = some b)
      (htoken : token ∈ tokens a identity) (htoken' : token ∈ tokens b identity) :
      Links identity baseline current (.inl i) (.inr j)

def Chained (identity : HostIdentity) (baseline current : List Host) : ℕ ⊕ ℕ → ℕ ⊕ ℕ → Prop :=
  Relation.EqvGen (Links identity baseline current)

def Place (baseline current : List Host) : ℕ ⊕ ℕ → Prop
  | .inl i => i < baseline.length
  | .inr j => j < current.length

namespace Component

def Holds (c : Component) : ℕ ⊕ ℕ → Prop
  | .inl i => i ∈ c.baseline
  | .inr j => j ∈ c.current

def swap (c : Component) : Component := ⟨c.current, c.baseline⟩

theorem holds_swap (c : Component) (x : ℕ ⊕ ℕ) : c.swap.Holds x ↔ c.Holds x.swap := by cases x <;> rfl

theorem eq_of_holds {c d : Component} (hc : c.baseline.Pairwise (· < ·) ∧ c.current.Pairwise (· < ·))
    (hd : d.baseline.Pairwise (· < ·) ∧ d.current.Pairwise (· < ·)) (h : ∀ x, c.Holds x ↔ d.Holds x) : c = d := by
  have hbaseline := hc.1.eq_of_mem_iff hd.1 fun i => h (.inl i)
  have hcurrent := hc.2.eq_of_mem_iff hd.2 fun j => h (.inr j)
  cases c
  cases d
  simp_all

end Component

/-- Components of two reports: every record is in exactly one, in order, and two records are in one exactly where a
chain of shared tokens joins them. -/
structure IsComponents (identity : HostIdentity) (baseline current : List Host) (found : List Component) : Prop where
  ascending : ∀ c ∈ found, c.baseline.Pairwise (· < ·) ∧ c.current.Pairwise (· < ·)
  nonempty : ∀ c ∈ found, ∃ x, c.Holds x
  covers : ∀ x, Place baseline current x ↔ ∃ c ∈ found, c.Holds x
  apart : found.Pairwise fun c d => ∀ x, c.Holds x → ¬ d.Holds x
  connected : ∀ c ∈ found, ∀ x, c.Holds x → ∀ y, c.Holds y ↔ Chained identity baseline current x y

section Components

variable {identity : HostIdentity} {baseline current : List Host} {found found' : List Component}

theorem Links.symm {x y : ℕ ⊕ ℕ} (h : Links identity baseline current x y) :
    Links identity current baseline y.swap x.swap := by
  obtain ⟨ha, hb, htoken, htoken'⟩ := h
  exact ⟨hb, ha, htoken', htoken⟩

theorem Links.lt {i j : ℕ} (h : Links identity baseline current (.inl i) (.inr j)) :
    i < baseline.length ∧ j < current.length := by
  obtain ⟨ha, hb, -, -⟩ := h
  exact ⟨(List.getElem?_eq_some_iff.mp ha).1, (List.getElem?_eq_some_iff.mp hb).1⟩

theorem Chained.iff {P : ℕ ⊕ ℕ → Prop} (hlinks : ∀ x y, Links identity baseline current x y → (P x ↔ P y))
    {x y : ℕ ⊕ ℕ} (h : Chained identity baseline current x y) : P x ↔ P y :=
  Iff.of_eq (congrArg (Quot.lift P fun x y hlink => propext (hlinks x y hlink)) (Quot.eqvGen_sound h))

theorem Chained.swap {x y : ℕ ⊕ ℕ} (h : Chained identity baseline current x y) :
    Chained identity current baseline x.swap y.swap := by
  refine (h.iff (P := fun y => Chained identity current baseline x.swap y.swap) fun y z hlink => ?_).mp (.refl _)
  have hback : Chained identity current baseline z.swap y.swap := .rel _ _ hlink.symm
  exact ⟨fun hy => hy.trans _ _ _ (hback.symm _ _), fun hz => hz.trans _ _ _ hback⟩

namespace IsComponents

theorem perm (h : IsComponents identity baseline current found) (hperm : found.Perm found') :
    IsComponents identity baseline current found' where
  ascending c hc := h.ascending c (hperm.mem_iff.mpr hc)
  nonempty c hc := h.nonempty c (hperm.mem_iff.mpr hc)
  covers x := by simpa only [hperm.mem_iff] using h.covers x
  apart := (hperm.pairwise_iff fun {_ _} hcd x hd hc => hcd x hc hd).mp h.apart
  connected c hc := h.connected c (hperm.mem_iff.mpr hc)

theorem swap (h : IsComponents identity baseline current found) :
    IsComponents identity current baseline (found.map Component.swap) where
  ascending := by
    intro _ hmem
    obtain ⟨c, hc, rfl⟩ := mem_map.mp hmem
    exact (h.ascending c hc).symm
  nonempty := by
    intro _ hmem
    obtain ⟨c, hc, rfl⟩ := mem_map.mp hmem
    obtain ⟨x, hx⟩ := h.nonempty c hc
    exact ⟨x.swap, (c.holds_swap _).mpr (by rwa [Sum.swap_swap])⟩
  covers x := by
    have hplace : Place current baseline x ↔ Place baseline current x.swap := by cases x <;> rfl
    rw [hplace, h.covers]
    simp only [mem_map, exists_exists_and_eq_and, Component.holds_swap]
  apart := pairwise_map.mpr (h.apart.imp fun hcd x hc => by
    rw [Component.holds_swap] at hc ⊢
    exact hcd _ hc)
  connected := by
    intro _ hmem x hx y
    obtain ⟨c, hc, rfl⟩ := mem_map.mp hmem
    rw [Component.holds_swap] at hx ⊢
    rw [h.connected c hc _ hx]
    exact ⟨fun hxy => by simpa using hxy.swap, fun hxy => hxy.swap⟩

theorem mem_of_mem (h : IsComponents identity baseline current found)
    (h' : IsComponents identity baseline current found') {c : Component} (hc : c ∈ found) : c ∈ found' := by
  obtain ⟨x, hx⟩ := h.nonempty c hc
  obtain ⟨d, hd, hdx⟩ := (h'.covers x).mp ((h.covers x).mpr ⟨c, hc, hx⟩)
  have hsame : c = d := Component.eq_of_holds (h.ascending c hc) (h'.ascending d hd) fun y =>
    (h.connected c hc x hx y).trans (h'.connected d hd x hdx y).symm
  exact hsame ▸ hd

theorem nodup (h : IsComponents identity baseline current found) : found.Nodup :=
  h.apart.imp_of_mem fun {c d} hc _ hapart heq => by
    obtain ⟨x, hx⟩ := h.nonempty c hc
    exact hapart x hx (heq ▸ hx)

/-- **The components of two reports are determined**, up to the order they are listed in. -/
theorem unique (h : IsComponents identity baseline current found)
    (h' : IsComponents identity baseline current found') : found.Perm found' :=
  (perm_ext_iff_of_nodup h.nodup h'.nodup).mpr fun _ => ⟨h.mem_of_mem h', h'.mem_of_mem h⟩

end IsComponents

theorem linked_tokensAt {order : HashOrder} {i j : ℕ} :
    Linked (tokensAt order baseline identity 0) (tokensAt order current identity baseline.length) i j ↔
      Links identity baseline current (.inl i) (.inr j) := by
  constructor
  · rintro ⟨token, htoken, htoken'⟩
    cases ha : baseline[i]? with
    | none => simp [tokensAt, ha] at htoken
    | some a =>
      cases hb : current[j]? with
      | none => simp [tokensAt, hb] at htoken'
      | some b => exact ⟨ha, hb, (mem_tokensAt ha).mp htoken, (mem_tokensAt hb).mp htoken'⟩
  · rintro ⟨ha, hb, htoken, htoken'⟩
    exact ⟨_, (mem_tokensAt ha).mpr htoken, (mem_tokensAt hb).mpr htoken'⟩

theorem connected_tokensAt {order : HashOrder} :
    Flood.Connected (tokensAt order baseline identity 0) (tokensAt order current identity baseline.length) =
      Chained identity baseline current := by
  have hlinks : Flood.Bridge (tokensAt order baseline identity 0) (tokensAt order current identity baseline.length) =
      Links identity baseline current := by
    funext x y
    refine propext ⟨?_, fun h => ?_⟩
    · rintro ⟨hlinked⟩
      exact linked_tokensAt.mp hlinked
    · cases h with
      | across ha hb htoken htoken' => exact ⟨linked_tokensAt.mpr (.across ha hb htoken htoken')⟩
  unfold Flood.Connected Chained
  rw [hlinks]

def Component.ofTaken (taken : List ℕ × List ℕ) : Component :=
  ⟨taken.1.insertionSort (· ≤ ·), taken.2.insertionSort (· ≤ ·)⟩

@[simp] theorem Component.holds_ofTaken_inl {taken : List ℕ × List ℕ} {i : ℕ} :
    (Component.ofTaken taken).Holds (.inl i) ↔ i ∈ taken.1 := mem_insertionSort _

@[simp] theorem Component.holds_ofTaken_inr {taken : List ℕ × List ℕ} {j : ℕ} :
    (Component.ofTaken taken).Holds (.inr j) ↔ j ∈ taken.2 := mem_insertionSort _

theorem pairwise_lt_insertionSort {indices : List ℕ} (h : indices.Nodup) :
    (indices.insertionSort (· ≤ ·)).Pairwise (· < ·) :=
  ((pairwise_insertionSort (· ≤ ·) indices).and ((perm_insertionSort _ _).nodup_iff.mpr h)).imp
    fun hle => Nat.lt_of_le_of_ne hle.1 hle.2

def listed (state : Progress Token) (count : ℕ) : List Component :=
  state.2.2.map Component.ofTaken ++ ((List.range count).filter (· ∉ state.2.1.seen)).map fun j => ⟨[], [j]⟩

theorem forall_mem_listed {state : Progress Token} {count : ℕ}
    {P : Component → Prop} (htaken : ∀ taken ∈ state.2.2, P (.ofTaken taken))
    (halone : ∀ j < count, j ∉ state.2.1.seen → P ⟨[], [j]⟩) : ∀ c ∈ listed state count, P c := by
  intro c hc
  rcases mem_append.mp hc with hc | hc
  · obtain ⟨taken, hmem, rfl⟩ := mem_map.mp hc
    exact htaken taken hmem
  · obtain ⟨j, hmem, rfl⟩ := mem_map.mp hc
    obtain ⟨hj, hunmet⟩ := mem_filter.mp hmem
    exact halone j (List.mem_range.mp hj) (of_decide_eq_true hunmet)

theorem Component.holds_alone {j : ℕ} {x : ℕ ⊕ ℕ} : (⟨[], [j]⟩ : Component).Holds x ↔ x = .inr j := by
  cases x <;> simp [Component.Holds]

section Sweep

variable {order : HashOrder} {state : Progress Token}
  (hsweep : Sweeping (tokensAt order baseline identity 0) (tokensAt order current identity baseline.length)
    baseline.length current.length (List.range baseline.length) state)
  (hswept : Swept (tokensAt order baseline identity 0) (tokensAt order current identity baseline.length) state)

include hsweep

theorem holds_ofTaken_iff {taken : List ℕ × List ℕ} (htaken : taken ∈ state.2.2) {x y : ℕ ⊕ ℕ}
    (h : Chained identity baseline current x y) :
    (Component.ofTaken taken).Holds x ↔ (Component.ofTaken taken).Holds y := by
  refine h.iff fun x y hlink => ?_
  have hlinked := hlink
  cases hlink
  rw [Component.holds_ofTaken_inl, Component.holds_ofTaken_inr]
  exact hsweep.closed taken htaken _ hlinked.lt.1 _ hlinked.lt.2 (linked_tokensAt.mpr hlinked)

theorem eq_of_chained_unmet {j : ℕ} (hunmet : j ∉ state.2.1.seen) {y : ℕ ⊕ ℕ}
    (h : Chained identity baseline current (.inr j) y) : y = .inr j := by
  refine (h.iff (P := fun y => y = .inr j) fun x y hlink => ?_).mp rfl
  have hlinked := hlink
  cases hlink
  obtain ⟨hi, hj⟩ := hlinked.lt
  have hmet := (hsweep.settled.closed _ hi _ hj (linked_tokensAt.mpr hlinked)).mp
    (hsweep.started _ (List.mem_range.mpr hi))
  refine iff_of_false nofun fun heq => hunmet ?_
  rwa [← Sum.inr.inj heq]

include hswept

theorem covers_listed (x : ℕ ⊕ ℕ) : Place baseline current x ↔ ∃ c ∈ listed state current.length, c.Holds x := by
  rcases x with i | j
  · refine ⟨fun hi => ?_, fun ⟨c, hc, hholds⟩ => ?_⟩
    · obtain ⟨taken, htaken, hmem⟩ := (hswept.metA i).mp (hsweep.started i (List.mem_range.mpr hi))
      exact ⟨_, mem_append_left _ (mem_map_of_mem htaken), Component.holds_ofTaken_inl.mpr hmem⟩
    · refine forall_mem_listed (P := fun c => c.Holds (.inl i) → i < baseline.length) (fun taken htaken hmem => ?_)
        nofun c hc hholds
      exact (hsweep.within taken htaken).1 i (Component.holds_ofTaken_inl.mp hmem)
  · refine ⟨fun hj => ?_, fun ⟨c, hc, hholds⟩ => ?_⟩
    · by_cases hmet : j ∈ state.2.1.seen
      · obtain ⟨taken, htaken, hmem⟩ := (hswept.metB j).mp hmet
        exact ⟨_, mem_append_left _ (mem_map_of_mem htaken), Component.holds_ofTaken_inr.mpr hmem⟩
      · have hunmet : j ∈ (List.range current.length).filter (· ∉ state.2.1.seen) :=
          mem_filter.mpr ⟨List.mem_range.mpr hj, decide_eq_true hmet⟩
        exact ⟨_, mem_append_right _ (mem_map_of_mem hunmet), Component.holds_alone.mpr rfl⟩
    · refine forall_mem_listed (P := fun c => c.Holds (.inr j) → j < current.length) (fun taken htaken hmem => ?_)
        (fun k hk _ hmem => ?_) c hc hholds
      · exact (hsweep.within taken htaken).2 j (Component.holds_ofTaken_inr.mp hmem)
      · rwa [Sum.inr.inj (Component.holds_alone.mp hmem)]

omit hsweep in
theorem apart_listed (count : ℕ) : (listed state count).Pairwise fun c d => ∀ x, c.Holds x → ¬ d.Holds x := by
  refine pairwise_append.mpr ⟨pairwise_map.mpr (hswept.apart.imp ?_), ?_, ?_⟩
  · rintro f g ⟨hleft, hright⟩ (i | j)
    · simpa using hleft i
    · simpa using hright j
  · refine pairwise_map.mpr ((nodup_range.filter _).imp fun {j k} hne x hj hk => hne ?_)
    exact Sum.inr.inj ((Component.holds_alone.mp hj).symm.trans (Component.holds_alone.mp hk))
  · intro c hc d hd x hx
    obtain ⟨taken, htaken, rfl⟩ := mem_map.mp hc
    obtain ⟨j, hj, rfl⟩ := mem_map.mp hd
    rw [Component.holds_alone]
    rintro rfl
    have hmet := (hswept.metB j).mpr ⟨taken, htaken, Component.holds_ofTaken_inr.mp hx⟩
    exact of_decide_eq_true (mem_filter.mp hj).2 hmet

theorem connected_listed : ∀ c ∈ listed state current.length, ∀ x, c.Holds x →
    ∀ y, c.Holds y ↔ Chained identity baseline current x y := by
  refine forall_mem_listed (fun taken htaken x hx y => ⟨fun hy => ?_, fun hxy => ?_⟩) fun j _ hunmet x hx y => ?_
  · obtain ⟨start, _, hfirst, hsecond⟩ := hswept.connected taken htaken
    rw [connected_tokensAt] at hfirst hsecond
    have hto : ∀ z, (Component.ofTaken taken).Holds z → Chained identity baseline current (.inl start) z := by
      rintro (i | j) hz
      · exact hfirst i (Component.holds_ofTaken_inl.mp hz)
      · exact hsecond j (Component.holds_ofTaken_inr.mp hz)
    exact ((hto x hx).symm _ _).trans _ _ _ (hto y hy)
  · exact (holds_ofTaken_iff hsweep htaken hxy).mp hx
  · rw [Component.holds_alone] at hx ⊢
    subst hx
    exact ⟨fun hy => hy ▸ .refl _, eq_of_chained_unmet hsweep hunmet⟩

theorem isComponents_listed : IsComponents identity baseline current (listed state current.length) where
  ascending := by
    refine forall_mem_listed (fun taken htaken => ?_) fun j _ _ => ⟨.nil, pairwise_singleton _ _⟩
    obtain ⟨hnodup, hnodup'⟩ := hsweep.nodup taken htaken
    exact ⟨pairwise_lt_insertionSort hnodup, pairwise_lt_insertionSort hnodup'⟩
  nonempty := by
    refine forall_mem_listed (fun taken htaken => ?_) fun j _ _ => ⟨.inr j, mem_singleton_self j⟩
    obtain ⟨start, hstart, _⟩ := hswept.connected taken htaken
    exact ⟨.inl start, Component.holds_ofTaken_inl.mpr hstart⟩
  covers := covers_listed hsweep hswept
  apart := apart_listed hswept _
  connected := connected_listed hsweep hswept

end Sweep

theorem isComponents_components (order : HashOrder) (baseline current : List Host) (identity : HostIdentity) :
    IsComponents identity baseline current (components order baseline current identity) := by
  obtain ⟨hsweep, hswept⟩ := Flood.swept_sweep (tokensAt order baseline identity 0)
    (tokensAt order current identity baseline.length) baseline.length current.length
  exact (isComponents_listed hsweep hswept).perm (perm_insertionSort _ _).symm

/-- **Paired with itself, a list of records has the same indices on both sides of every component.** -/
theorem components_self (order : HashOrder) (hosts : List Host) (identity : HostIdentity) :
    ∀ component ∈ components order hosts hosts identity, component.baseline = component.current := by
  intro c hc
  have h := isComponents_components order hosts hosts identity
  -- Every record is linked to itself, since it has a token.
  have hself : ∀ i < hosts.length, Chained identity hosts hosts (.inl i) (.inr i) := by
    intro i hi
    obtain ⟨token, htoken⟩ := tokens_ne_nil hosts[i] identity
    exact .rel _ _ (.across (getElem?_eq_getElem hi) (getElem?_eq_getElem hi) htoken htoken)
  refine (h.ascending c hc).1.eq_of_mem_iff (h.ascending c hc).2 fun i => ⟨fun hi => ?_, fun hi => ?_⟩
  · exact (h.connected c hc (.inl i) hi (.inr i)).mpr (hself i ((h.covers (.inl i)).mpr ⟨c, hc, hi⟩))
  · exact (h.connected c hc (.inr i) hi (.inl i)).mpr ((hself i ((h.covers (.inr i)).mpr ⟨c, hc, hi⟩)).symm _ _)

/-- **The components are the connected ones**, whatever order the hash sets yield their tokens in,
and the reports the other way around have them with their sides exchanged. -/
theorem components_exact (order order' : HashOrder) (baseline current : List Host) (identity : HostIdentity) :
    IsComponents identity baseline current (components order baseline current identity) ∧
      (components order' current baseline identity).Perm
        ((components order baseline current identity).map Component.swap) := by
  have hforth := isComponents_components order baseline current identity
  have hback := isComponents_components order' current baseline identity
  exact ⟨hforth, hback.unique hforth.swap⟩

end Components

/-! ## Grouping any number of documents -/

/-- Records joined by the tokens they share. -/
def groups (order : HashOrder) (records : List Host) (identity : HostIdentity) : List (List ℕ) :=
  DisjointSet.classes (tokensAt order records identity 0) records.length

/-- **The order hash sets yield their elements in does not decide the groups.** -/
theorem groups_hashOrder (order order' : HashOrder) (records : List Host) (identity : HostIdentity) :
    groups order records identity = groups order' records identity := by
  refine classes_congr fun i hi token => ?_
  have hget := getElem?_eq_getElem hi
  rw [mem_tokensAt hget, mem_tokensAt hget]

variable (identity : HostIdentity) (records : List Host)

def SharesToken (i j : ℕ) : Prop :=
  ∃ a b, records[i]? = some a ∧ records[j]? = some b ∧ ∃ token ∈ tokens a identity, token ∈ tokens b identity

def Joined : ℕ → ℕ → Prop :=
  Relation.EqvGen (SharesToken identity records)

theorem meet_iff_sharesToken {order : HashOrder} {records : List Host} {identity : HostIdentity} {i j : ℕ} :
    DisjointSet.Meet (tokensAt order records identity 0) records.length i j ↔ SharesToken identity records i j := by
  constructor
  · rintro ⟨token, ⟨hi, htoken⟩, hj, htoken'⟩
    have hget := getElem?_eq_getElem hi
    have hget' := getElem?_eq_getElem hj
    exact ⟨_, _, hget, hget', token, (mem_tokensAt hget).mp htoken, (mem_tokensAt hget').mp htoken'⟩
  · rintro ⟨a, b, hget, hget', token, htoken, htoken'⟩
    obtain ⟨hi, _⟩ := List.getElem?_eq_some_iff.mp hget
    obtain ⟨hj, _⟩ := List.getElem?_eq_some_iff.mp hget'
    exact ⟨token, ⟨hi, (mem_tokensAt hget).mpr htoken⟩, hj, (mem_tokensAt hget').mpr htoken'⟩

/-- **The groups are the classes of records that chains of shared tokens join.** -/
theorem groups_eq (order : HashOrder) (records : List Host) (identity : HostIdentity) : ∃ root : ℕ → ℕ,
    (∀ i j, root i = root j ↔ Joined identity records i j) ∧ groups order records identity =
      (DisjointSet.leaders root records.length).map fun i => DisjointSet.members root records.length (root i) := by
  obtain ⟨root, hroot, heq⟩ := classes_eq (tokensAt order records identity 0) records.length
  have hsame : DisjointSet.Meet (tokensAt order records identity 0) records.length = SharesToken identity records :=
    funext₂ fun i j => propext meet_iff_sharesToken
  exact ⟨root, fun i j => by rw [hroot, hsame]; exact Iff.rfl, heq⟩

theorem Joined.lt_iff {identity : HostIdentity} {records : List Host} {i j : ℕ} (h : Joined identity records i j) :
    i < records.length ↔ j < records.length := by
  have hshares : ∀ i j, SharesToken identity records i j → (i < records.length) = (j < records.length) := by
    rintro i j ⟨a, b, ha, hb, _⟩
    exact propext (iff_of_true (List.getElem?_eq_some_iff.mp ha).1 (List.getElem?_eq_some_iff.mp hb).1)
  exact Iff.of_eq (congrArg (Quot.lift _ hshares) (Quot.eqvGen_sound h))

structure IsGroups (identity : HostIdentity) (records : List Host) (found : List (List ℕ)) : Prop where
  ascending : ∀ group ∈ found, group.Pairwise (· < ·)
  ordered : found.Pairwise fun group later => ∃ first next, group.head? = some first ∧ later.head? = some next ∧
    first < next
  covers : ∀ i, i < records.length ↔ ∃ group ∈ found, i ∈ group
  apart : found.Pairwise List.Disjoint
  joined : ∀ group ∈ found, ∀ i ∈ group, ∀ j, j ∈ group ↔ Joined identity records i j

/-- **The groups are the connected components of sharing a token**, each once and in order,
whatever order the hash sets yield their tokens in. -/
theorem groups_exact (order order' : HashOrder) (records : List Host) (identity : HostIdentity) :
    IsGroups identity records (groups order records identity) ∧
      groups order' records identity = groups order records identity ∧
      ∀ (len : ℕ) (unions : List (ℕ × ℕ)) (i : ℕ),
        let sets := unions.foldl (fun s pair => s.union pair.1 pair.2) (DisjointSet.new len)
        DisjointSet.Climbed sets.parent i (sets.find i).1 (sets.find i).2.parent := by
  refine ⟨?_, groups_hashOrder order' order records identity, fun len unions i => climbed_find _ i⟩
  obtain ⟨root, hroot, heq⟩ := groups_eq order records identity
  rw [heq]
  have hmem : ∀ {i j}, i < records.length →
      (j ∈ DisjointSet.members root records.length (root i) ↔ Joined identity records i j) := by
    intro i j hi
    rw [mem_members, ← hroot]
    refine ⟨fun hj => hj.2.symm, fun hij => ⟨?_, hij.symm⟩⟩
    exact ((hroot i j).mp hij).lt_iff.mp hi
  refine ⟨?_, ?_, fun i => ⟨fun hi => ?_, ?_⟩, ?_, ?_⟩
  · intro group hgroup
    obtain ⟨leader, _, rfl⟩ := mem_map.mp hgroup
    exact ascending_members _ _ _
  · refine pairwise_map.mpr ((ascending_leaders root _).imp_of_mem fun {i j} hi hj hlt => ?_)
    exact ⟨i, j, DisjointSet.head?_members hi, DisjointSet.head?_members hj, hlt⟩
  · obtain ⟨leader, hleader, hsame⟩ := exists_leader root hi
    exact ⟨_, mem_map_of_mem hleader, mem_members.mpr ⟨hi, hsame.symm⟩⟩
  · rintro ⟨group, hgroup, hi⟩
    obtain ⟨leader, _, rfl⟩ := mem_map.mp hgroup
    exact (mem_members.mp hi).1
  · refine pairwise_map.mpr ((pairwise_leaders root _).imp fun hne => ?_)
    intro k hi hj
    exact hne ((mem_members.mp hi).2.symm.trans (mem_members.mp hj).2)
  · intro group hgroup i hi j
    obtain ⟨leader, _, rfl⟩ := mem_map.mp hgroup
    obtain ⟨hlt, hsame⟩ := mem_members.mp hi
    rw [← hsame]
    exact hmem hlt

def Apart : Prop :=
  records.Pairwise fun a b => ∀ token ∈ tokens a identity, token ∉ tokens b identity

theorem Apart.eq_of_sharesToken {identity : HostIdentity} {records : List Host} (h : Apart identity records) {i j : ℕ}
    (hshares : SharesToken identity records i j) : i = j := by
  obtain ⟨a, b, hget, hget', token, htoken, htoken'⟩ := hshares
  obtain ⟨hi, rfl⟩ := List.getElem?_eq_some_iff.mp hget
  obtain ⟨hj, rfl⟩ := List.getElem?_eq_some_iff.mp hget'
  have hpairs := List.pairwise_iff_getElem.mp h
  rcases Nat.lt_trichotomy i j with hlt | heq | hlt
  · exact absurd htoken' (hpairs i j hi hj hlt token htoken)
  · exact heq
  · exact absurd htoken (hpairs j i hj hi hlt token htoken')

theorem Apart.eq_of_joined {identity : HostIdentity} {records : List Host} (h : Apart identity records) {i j : ℕ}
    (hjoined : Joined identity records i j) : i = j :=
  congrArg (Quot.lift id fun _ _ hshares => h.eq_of_sharesToken hshares) (Quot.eqvGen_sound hjoined)

theorem groups_of_apart (order : HashOrder) {identity : HostIdentity} {records : List Host}
    (hapart : Apart identity records) : groups order records identity = (List.range records.length).map fun i => [i] :=
  classes_of_disjoint fun _ _ hmeet => hapart.eq_of_sharesToken (meet_iff_sharesToken.mp hmeet)

end Zond.Diff
