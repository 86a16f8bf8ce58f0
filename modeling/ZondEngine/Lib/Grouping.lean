import Mathlib.Data.List.Chain
import ZondEngine.Lib.Slots

/-!
# Grouping values whose keys depend on a label

Values are known by their points, and some points make a key only together with the label of the value that lists them.
`Slots.readAll` folds values that share a key, and a fold takes its label from the first that has one: values are
grouped by the keys they share, in whatever order they are read, exactly where the set is `Consistent`.
-/

namespace Zond

open List

open Slots (held matched mem_matched gathered)

/-- Values with facts, points and a label, the keys points make with a label, and two folds that join facts and keep the
first label. -/
structure Scheme (σ K A Z F : Type) [LinearOrder K] where
  Ok : σ → Prop
  facts : σ → Set F
  point : A → F
  label : σ → Option Z
  key : A → Option Z → K
  keysOf : σ → List K
  merge : σ → σ → σ
  later : σ → σ → σ
  Fits : Set F → Prop
  fits_mono : ∀ {s t}, s ⊆ t → Fits t → Fits s
  exists_point : ∀ x, ∃ a, point a ∈ facts x
  mem_keysOf : ∀ {x k}, k ∈ keysOf x ↔ ∃ a, point a ∈ facts x ∧ key a (label x) = k
  key_injective : ∀ {a b l m}, key a l = key b m → a = b
  key_free_or : ∀ a, (∀ l m, key a l = key a m) ∨ ∀ l m, key a l = key a m → l = m
  label_merge : ∀ x y, label (merge x y) = (label x).or (label y)
  label_later : ∀ x y, label (later x y) = (label x).or (label y)
  ok_merge : ∀ {x y}, Ok x → Ok y → Ok (merge x y)
  ok_later : ∀ {x y}, Ok x → Ok y → Ok (later x y)
  facts_merge : ∀ {x y}, Ok x → Ok y → Fits (facts x ∪ facts y) → facts (merge x y) = facts x ∪ facts y
  facts_later : ∀ {x y}, Ok x → Ok y → Fits (facts x ∪ facts y) → facts (later x y) = facts x ∪ facts y

namespace Scheme

variable {σ K A Z F : Type} [LinearOrder K] (S : Scheme σ K A Z F)

/-! ## Sharing keys -/

def points (x : σ) : Set A := Set.preimage S.point (S.facts x)

def SharesAs (l : Option Z) (x y : σ) : Prop := ∃ a ∈ S.points x, a ∈ S.points y ∧ S.key a l = S.key a (S.label y)

def Shares (x y : σ) : Prop := S.SharesAs (S.label x) x y

def Near (x y : σ) : Prop := ∃ a ∈ S.points x, a ∈ S.points y ∧ ∀ l m, S.key a l = S.key a m

def Alike (x y : σ) : Prop := S.points x = S.points y ∧ S.label x = S.label y

variable (hs : List σ)

def Among (r : σ → σ → Prop) (x y : σ) : Prop := x ∈ hs ∧ y ∈ hs ∧ r x y

def Joined : σ → σ → Prop := Relation.ReflTransGen (Among hs S.Shares)

def Chained : σ → σ → Prop := Relation.ReflTransGen (Among hs S.Near)

def classFacts (x : σ) : Set F := {f | ∃ y ∈ hs, S.Joined hs x y ∧ f ∈ S.facts y}

def Roomy : Prop := ∀ x ∈ hs, S.Fits (S.classFacts hs x)

section Shares

variable {S} {hs hs' : List σ} {x y : σ}

theorem shares_iff : S.Shares x y ↔ ∃ k ∈ S.keysOf x, k ∈ S.keysOf y := by
  constructor
  · rintro ⟨a, hx, hy, hkey⟩
    exact ⟨_, S.mem_keysOf.mpr ⟨a, hx, rfl⟩, S.mem_keysOf.mpr ⟨a, hy, hkey.symm⟩⟩
  · rintro ⟨k, hx, hy⟩
    obtain ⟨a, ha, rfl⟩ := S.mem_keysOf.mp hx
    obtain ⟨b, hb, hkey⟩ := S.mem_keysOf.mp hy
    obtain rfl := S.key_injective hkey
    exact ⟨b, ha, hb, hkey.symm⟩

theorem Shares.symm (h : S.Shares x y) : S.Shares y x := by
  obtain ⟨a, hx, hy, hkey⟩ := h
  exact ⟨a, hy, hx, hkey.symm⟩

theorem shares_self (S : Scheme σ K A Z F) (x : σ) : S.Shares x x := by
  obtain ⟨a, ha⟩ := S.exists_point x
  exact ⟨a, ha, ha, rfl⟩

theorem Near.sharesAs (h : S.Near x y) (l : Option Z) : S.SharesAs l x y := by
  obtain ⟨a, hx, hy, hfree⟩ := h
  exact ⟨a, hx, hy, hfree _ _⟩

theorem Alike.refl (S : Scheme σ K A Z F) (x : σ) : S.Alike x x := ⟨rfl, rfl⟩

theorem Alike.sharesAs_iff {x' y' : σ} (h : S.Alike x x') (h' : S.Alike y y') (l : Option Z) :
    S.SharesAs l x y ↔ S.SharesAs l x' y' := by
  unfold SharesAs
  rw [h.1, h'.1, h'.2]

theorem Alike.shares_iff {x' y' : σ} (h : S.Alike x x') (h' : S.Alike y y') : S.Shares x y ↔ S.Shares x' y' := by
  unfold Shares
  rw [h.2]
  exact h.sharesAs_iff h' _

theorem Alike.near {x' y' : σ} (h : S.Alike x x') (h' : S.Alike y y') (hnear : S.Near x y) : S.Near x' y' := by
  obtain ⟨a, hx, hy, hfree⟩ := hnear
  exact ⟨a, h.1 ▸ hx, h'.1 ▸ hy, hfree⟩

theorem SharesAs.near_or {l : Option Z} (h : S.SharesAs l x y) : S.Near x y ∨ l = S.label y := by
  obtain ⟨a, hx, hy, hkey⟩ := h
  rcases S.key_free_or a with hfree | hinj
  · exact .inl ⟨a, hx, hy, hfree⟩
  · exact .inr (hinj _ _ hkey)

theorem Among.mono {r r' : σ → σ → Prop} (hsub : hs ⊆ hs') (hr : ∀ x y, r x y → r' x y) :
    ∀ {x y : σ}, Relation.ReflTransGen (Among hs r) x y → Relation.ReflTransGen (Among hs' r') x y :=
  Relation.ReflTransGen.mono (fun _ _ ⟨hx, hy, hxy⟩ => ⟨hsub hx, hsub hy, hr _ _ hxy⟩) _ _

theorem Among.symm {r : σ → σ → Prop} (hr : ∀ x y, r x y → r y x) (h : Relation.ReflTransGen (Among hs r) x y) :
    Relation.ReflTransGen (Among hs r) y x :=
  Relation.ReflTransGen.mono (fun _ _ ⟨hx, hy, hxy⟩ => ⟨hy, hx, hr _ _ hxy⟩) _ _ h.swap

theorem Joined.symm (h : S.Joined hs x y) : S.Joined hs y x := Among.symm (fun _ _ => Shares.symm) h

theorem Joined.mono (hsub : hs ⊆ hs') (h : S.Joined hs x y) : S.Joined hs' x y := Among.mono hsub (fun _ _ h => h) h

theorem Chained.mono (hsub : hs ⊆ hs') (h : S.Chained hs x y) : S.Chained hs' x y := Among.mono hsub (fun _ _ h => h) h

theorem Chained.joined (h : S.Chained hs x y) : S.Joined hs x y :=
  Among.mono (fun _ h => h) (fun _ _ h => h.sharesAs _) h

theorem Among.mem {r : σ → σ → Prop} (h : Relation.ReflTransGen (Among hs r) x y) (hx : x ∈ hs) : y ∈ hs := by
  induction h with
  | refl => exact hx
  | tail _ hlast _ => exact hlast.2.1

theorem Roomy.mono (hsub : hs ⊆ hs') (h : S.Roomy hs') : S.Roomy hs := by
  intro x hx
  refine S.fits_mono ?_ (h x (hsub hx))
  rintro f ⟨y, hy, hjoined, hfact⟩
  exact ⟨y, hsub hy, hjoined.mono hsub, hfact⟩

end Shares

/-! ## Chains that answer under one label as under their own -/

def Steady (r : σ) : Prop :=
  ∀ j ∈ hs, S.label j ≠ none →
    ((∃ q, S.Chained hs j q ∧ S.Shares q r) ↔ ∃ q, S.Chained hs j q ∧ S.SharesAs (S.label j) q r)

def Traced (x : σ) (k : K) : Prop :=
  ∃ a ∈ S.points x, ∃ j ∈ hs, S.Chained hs j x ∧ (j = x ∨ S.label j ≠ none) ∧ S.key a (S.label j) = k

section Steady

variable {S} {hs} {x y r : σ}

theorem exists_chained_of_joined (hsteady : ∀ x ∈ hs, S.Steady hs x) (hx : x ∈ hs) (hlabel : S.label x ≠ none)
    (h : S.Joined hs x y) : ∃ j ∈ hs, S.Chained hs j y ∧ S.label j = S.label x := by
  induction h with
  | refl => exact ⟨x, hx, .refl, rfl⟩
  | @tail i k _ hlast ih =>
    obtain ⟨j, hj, hchain, hsame⟩ := ih
    obtain ⟨_, hk, hshares⟩ := hlast
    -- The chain to `i` answers `k` under the label, by a free point or because it is the label of `k`.
    obtain ⟨q, hchain, hshares⟩ := (hsteady k hk j hj (hsame ▸ hlabel)).mp ⟨i, hchain, hshares⟩
    rcases hshares.near_or with hnear | hown
    · exact ⟨j, hj, hchain.tail ⟨Among.mem hchain hj, hk, hnear⟩, hsame⟩
    · exact ⟨k, hk, .refl, hown.symm.trans hsame⟩

theorem exists_shares_of_traced (hsteady : S.Steady hs r) {k : K} (htraced : S.Traced hs x k) (hk : k ∈ S.keysOf r) :
    ∃ y ∈ hs, S.Joined hs x y ∧ S.Shares y r := by
  obtain ⟨a, ha, j, hj, hchain, hlabel, rfl⟩ := htraced
  obtain ⟨b, hb, hkey⟩ := S.mem_keysOf.mp hk
  obtain rfl := S.key_injective hkey
  rcases hlabel with rfl | hlabel
  · exact ⟨j, hj, .refl, b, ha, hb, hkey.symm⟩
  · obtain ⟨q, hq, hshares⟩ := (hsteady j hj hlabel).mpr ⟨x, hchain, b, ha, hb, hkey.symm⟩
    exact ⟨q, Among.mem hq hj, hchain.joined.symm.trans hq.joined, hshares⟩

theorem traced_of_label (hsteady : ∀ x ∈ hs, S.Steady hs x) (hx : x ∈ hs) {l : Option Z}
    (hlabel : ∃ j ∈ hs, S.Joined hs j x ∧ S.label j = l) (hnone : l = none → S.label x = none) {a : A}
    (ha : a ∈ S.points x) : S.Traced hs x (S.key a l) := by
  cases l with
  | none => exact ⟨a, ha, x, hx, .refl, .inl rfl, by rw [hnone rfl]⟩
  | some z =>
    obtain ⟨j, hj, hjoined, hown⟩ := hlabel
    obtain ⟨i, hi, hchain, hsame⟩ := exists_chained_of_joined hsteady hj (by rw [hown]; nofun) hjoined
    exact ⟨a, ha, i, hi, hchain, .inr (by rw [hsame, hown]; nofun), by rw [hsame, hown]⟩

end Steady

/-! ## What the slots hold -/

/-- Every value is owned by a slot, two by one exactly where they share keys, and the slot holds all they state under
one's label. -/
structure Grouped (hs : List σ) (s : Slots K σ) (owner : σ → ℕ) : Prop where
  live : ∀ slot, (∃ h, held s.cells slot = some h) ↔ ∃ x ∈ hs, owner x = slot
  joined : ∀ x ∈ hs, ∀ y ∈ hs, owner x = owner y ↔ S.Joined hs x y
  ok : ∀ slot h, held s.cells slot = some h → S.Ok h
  facts : ∀ x ∈ hs, ∀ h, held s.cells (owner x) = some h →
    ∀ f, f ∈ S.facts h ↔ ∃ y ∈ hs, owner y = owner x ∧ f ∈ S.facts y
  label : ∀ x ∈ hs, ∀ h, held s.cells (owner x) = some h →
    (∃ y ∈ hs, owner y = owner x ∧ S.label y = S.label h) ∧ (S.label h = none → S.label x = none)
  /-- A key leads to the slot of a value it is traced to, or to one that was emptied into a lower. -/
  traced : ∀ k slot, s.slotOf.get? k = some slot → slot < s.cells.length ∧
    ∃ x ∈ hs, owner x ≤ slot ∧ ((∃ h, held s.cells slot = some h) → owner x = slot) ∧ S.Traced hs x k
  /-- A key a value makes under its own label leads to its slot, where it is a key of the slot too. -/
  filed : ∀ x ∈ hs, ∀ h, held s.cells (owner x) = some h → ∀ a ∈ S.points x,
    S.key a (S.label h) = S.key a (S.label x) → s.slotOf.get? (S.key a (S.label x)) = some (owner x)

namespace Grouped

variable {S} {hs} {s : Slots K σ} {owner : σ → ℕ} {r : σ}

theorem empty (S : Scheme σ K A Z F) (owner : σ → ℕ) : S.Grouped [] (⟨[], SortedMap.empty⟩ : Slots K σ) owner where
  live slot := by simp [held]
  joined _ hx := absurd hx not_mem_nil
  ok slot h hheld := by cases hheld
  facts _ hx := absurd hx not_mem_nil
  label _ hx := absurd hx not_mem_nil
  traced k slot h := by cases h
  filed _ hx := absurd hx not_mem_nil

theorem held_owner (hg : S.Grouped hs s owner) {x : σ} (hx : x ∈ hs) : ∃ h, held s.cells (owner x) = some h :=
  (hg.live _).mpr ⟨x, hx, rfl⟩

variable (hg : S.Grouped hs s owner) (hsteady : ∀ x ∈ hs, S.Steady hs x) (hr : S.Steady hs r)

include hg hsteady hr in
/-- **Every slot whose class shares a key with a value is found.** -/
theorem matched_of_shares {x : σ} (hx : x ∈ hs) (hshares : S.Shares x r) : owner x ∈ matched S.keysOf s r := by
  obtain ⟨h, hheld⟩ := hg.held_owner hx
  obtain ⟨⟨y, hy, howner, hlabel⟩, hnone⟩ := hg.label x hx h hheld
  obtain ⟨a, ha, hra, hkey⟩ := hshares
  by_cases hown : S.key a (S.label h) = S.key a (S.label x)
  · exact mem_matched.mpr ⟨_, S.mem_keysOf.mpr ⟨a, hra, hkey.symm⟩, hg.filed x hx h hheld a ha hown⟩
  -- The point is filed under another label than that of `x`, and a chain starts with that label.
  · have hne : S.label h ≠ S.label x := fun heq => hown (by rw [heq])
    have hsome : S.label h ≠ none := fun heq => hne (heq.trans (hnone heq).symm)
    obtain ⟨j, hj, hchain, hsame⟩ := exists_chained_of_joined hsteady hy (hlabel ▸ hsome)
      ((hg.joined y hy x hx).mp howner)
    obtain ⟨q, hq, b, hb, hrb, hkeyb⟩ := (hr j hj (by rw [hsame, hlabel]; exact hsome)).mp ⟨x, hchain, a, ha, hra, hkey⟩
    have hqmem := Among.mem hq hj
    have hqowner : owner q = owner x :=
      (hg.joined q hqmem x hx).mpr (hq.joined.symm.trans hchain.joined)
    rcases S.key_free_or b with hfree | hinj
    · refine mem_matched.mpr ⟨_, S.mem_keysOf.mpr ⟨b, hrb, rfl⟩, ?_⟩
      rw [hfree (S.label r) (S.label q), ← hqowner]
      exact hg.filed q hqmem h (hqowner ▸ hheld) b hb (hfree _ _)
    · -- The value would have that label itself, and so would `x`.
      have hlr : S.label h = S.label r := by rw [← hinj _ _ hkeyb, hsame, hlabel]
      exact absurd (by rw [hlr]; exact hkey.symm) hown

include hg hr in
/-- **A slot that is found, or the one it was emptied into, has a value that shares a key.** -/
theorem exists_shares_of_matched {slot : ℕ} (hslot : slot ∈ matched S.keysOf s r) : ∃ y ∈ hs, owner y ≤ slot ∧
      ((∃ h, held s.cells slot = some h) → owner y = slot) ∧ S.Shares y r := by
  obtain ⟨k, hk, hget⟩ := mem_matched.mp hslot
  obtain ⟨_, x, hx, hle, hlive, htraced⟩ := hg.traced k slot hget
  obtain ⟨y, hy, hjoined, hshares⟩ := exists_shares_of_traced hr htraced hk
  have howner : owner y = owner x := ((hg.joined x hx y hy).mpr hjoined).symm
  exact ⟨y, hy, howner ▸ hle, fun h => howner.trans (hlive h), hshares⟩

include hg hsteady hr in
theorem held_keep {keep : ℕ} {rest : List ℕ} (hmatched : matched S.keysOf s r = keep :: rest) :
    ∃ h, held s.cells keep = some h := by
  obtain ⟨y, hy, hle, _, hshares⟩ := hg.exists_shares_of_matched hr (hmatched ▸ mem_cons_self)
  have hfound := hg.matched_of_shares hsteady hr hy hshares
  have hge : keep ≤ owner y := by
    have hlt := hmatched ▸ Slots.pairwise_matched S.keysOf s r
    rw [hmatched] at hfound
    rcases mem_cons.mp hfound with heq | hmem
    · exact heq.ge
    · exact ((pairwise_cons.mp hlt).1 _ hmem).le
  exact le_antisymm hle hge ▸ hg.held_owner hy

/-! ### One more value -/

variable (S s owner r) in
def Moves (y : σ) : Prop := y = r ∨ owner y ∈ matched S.keysOf s r

variable {keep : ℕ} {s' : Slots K σ} {settled : σ}

include hg hr in
theorem joined_of_moves {y : σ} (hy : y ∈ hs ++ [r]) (hmoves : Moves S s owner r y) : S.Joined (hs ++ [r]) y r := by
  have hsub : hs ⊆ hs ++ [r] := subset_append_left _ _
  rcases hmoves with rfl | hfound
  · exact .refl
  rcases mem_append.mp hy with hy | hy
  · obtain ⟨x, hx, _, howner, hshares⟩ := hg.exists_shares_of_matched hr hfound
    have hjoined := ((hg.joined x hx y hy).mp (howner (hg.held_owner hy))).symm
    exact (hjoined.mono hsub).tail ⟨hsub hx, mem_append_right _ mem_cons_self, hshares⟩
  · exact mem_singleton.mp hy ▸ .refl

include hg hsteady hr in
theorem moves_of_shares {x y : σ} (hx : x ∈ hs ++ [r]) (hy : y ∈ hs ++ [r]) (hshares : S.Shares x y)
    (hmoves : Moves S s owner r x) : Moves S s owner r y := by
  rcases mem_append.mp hy with hold | hnew
  · rcases hmoves with rfl | hfound
    · exact .inr (hg.matched_of_shares hsteady hr hold hshares.symm)
    · rcases mem_append.mp hx with hx | hx
      · have howner := (hg.joined x hx y hold).mpr (.single ⟨hx, hold, hshares⟩)
        exact .inr (howner ▸ hfound)
      · exact .inr (hg.matched_of_shares hsteady hr hold (mem_singleton.mp hx ▸ hshares.symm))
  · exact .inl (mem_singleton.mp hnew)

theorem mem_of_not_moves {y : σ} (hy : y ∈ hs ++ [r]) (hmoves : ¬ Moves S s owner r y) : y ∈ hs := by
  rcases mem_append.mp hy with hy | hy
  · exact hy
  · exact absurd (.inl (mem_singleton.mp hy)) hmoves

include hg hsteady hr in
theorem matched_of_moves {y : σ} (hy : y ∈ hs) (hmoves : Moves S s owner r y) : owner y ∈ matched S.keysOf s r := by
  rcases hmoves with rfl | hfound
  · exact hg.matched_of_shares hsteady hr hy (shares_self S y)
  · exact hfound

variable (S hs s owner r) in
/-- The values that move end up in one slot, which holds all they state, and its keys are filed under it. -/
structure Settles (s' : Slots K σ) (keep : ℕ) (settled : σ) : Prop where
  length_le : s.cells.length ≤ s'.cells.length
  keep_lt : keep < s'.cells.length
  least : ∀ slot ∈ matched S.keysOf s r, keep ≤ slot
  place : keep < s.cells.length → keep ∈ matched S.keysOf s r ∧ ∃ h, held s.cells keep = some h
  cells : ∀ i, held s'.cells i =
    if i = keep then some settled else if i ∈ matched S.keysOf s r then none else held s.cells i
  slotOf : ∀ k, s'.slotOf.get? k = if k ∈ S.keysOf settled then some keep else s.slotOf.get? k
  ok : S.Ok settled
  facts : ∀ f, f ∈ S.facts settled ↔ ∃ y ∈ hs ++ [r], Moves S s owner r y ∧ f ∈ S.facts y
  label : ∃ y ∈ hs ++ [r], Moves S s owner r y ∧ S.label y = S.label settled
  label_none : S.label settled = none → ∀ y ∈ hs ++ [r], Moves S s owner r y → S.label y = none

open Classical in
variable (S s owner r) in
noncomputable def rehome (keep : ℕ) (y : σ) : ℕ := if Moves S s owner r y then keep else owner y

theorem rehome_of_moves {y : σ} (h : Moves S s owner r y) : rehome S s owner r keep y = keep := if_pos h

theorem rehome_of_not_moves {y : σ} (h : ¬ Moves S s owner r y) : rehome S s owner r keep y = owner y := if_neg h

section Settle

variable (hset : Settles S hs s owner r s' keep settled) {x y : σ}

include hg hset in
theorem rehome_eq_keep (hy : y ∈ hs ++ [r]) : rehome S s owner r keep y = keep ↔ Moves S s owner r y := by
  refine ⟨fun heq => ?_, rehome_of_moves⟩
  by_contra hmoves
  rw [rehome_of_not_moves hmoves] at heq
  obtain ⟨h, hheld⟩ := hg.held_owner (mem_of_not_moves hy hmoves)
  rw [heq] at hheld
  exact hmoves (.inr (heq ▸ (hset.place (Slots.lt_length_of_held hheld)).1))

include hg hsteady hr hset in
theorem rehome_eq_iff (hx : x ∈ hs ++ [r]) (hmoves : ¬ Moves S s owner r x) :
    (y ∈ hs ++ [r] ∧ rehome S s owner r keep y = rehome S s owner r keep x) ↔ y ∈ hs ∧ owner y = owner x := by
  constructor
  · rintro ⟨hy, heq⟩
    have hymoves : ¬ Moves S s owner r y := fun h =>
      hmoves ((hg.rehome_eq_keep hset hx).mp (heq ▸ rehome_of_moves h))
    rw [rehome_of_not_moves hymoves, rehome_of_not_moves hmoves] at heq
    exact ⟨mem_of_not_moves hy hymoves, heq⟩
  · rintro ⟨hy, heq⟩
    have hymoves : ¬ Moves S s owner r y := fun h => hmoves (.inr (heq ▸ hg.matched_of_moves hsteady hr hy h))
    rw [rehome_of_not_moves hymoves, rehome_of_not_moves hmoves]
    exact ⟨mem_append_left _ hy, heq⟩

include hg hsteady hr hset in
theorem rehome_joined (hx : x ∈ hs ++ [r]) (hy : y ∈ hs ++ [r]) :
    rehome S s owner r keep x = rehome S s owner r keep y ↔ S.Joined (hs ++ [r]) x y := by
  constructor
  · intro heq
    by_cases hmoves : Moves S s owner r x
    · have hymoves := (hg.rehome_eq_keep hset hy).mp (heq ▸ rehome_of_moves hmoves)
      exact (hg.joined_of_moves hr hx hmoves).trans (hg.joined_of_moves hr hy hymoves).symm
    · obtain ⟨hyold, howner⟩ := (hg.rehome_eq_iff hsteady hr hset hx hmoves).mp ⟨hy, heq.symm⟩
      exact ((hg.joined x (mem_of_not_moves hx hmoves) y hyold).mp howner.symm).mono (subset_append_left _ _)
  · intro hjoined
    clear hy
    -- Along a run of values that share keys, all move or none does.
    induction hjoined with
    | refl => rfl
    | @tail i k _ hlast ih =>
      obtain ⟨hi, hk, hshares⟩ := hlast
      refine ih.trans ?_
      by_cases hmoves : Moves S s owner r i
      · rw [rehome_of_moves hmoves, rehome_of_moves (hg.moves_of_shares hsteady hr hi hk hshares hmoves)]
      · have hkmoves := fun h => hmoves (hg.moves_of_shares hsteady hr hk hi hshares.symm h)
        rw [rehome_of_not_moves hmoves, rehome_of_not_moves hkmoves]
        have hiold := mem_of_not_moves hi hmoves
        have hkold := mem_of_not_moves hk hkmoves
        exact (hg.joined i hiold k hkold).mpr (.single ⟨hiold, hkold, hshares⟩)

include hset in
theorem held_of_not_moves (hx : x ∈ hs ++ [r]) (hg : S.Grouped hs s owner) (hmoves : ¬ Moves S s owner r x) :
    held s'.cells (rehome S s owner r keep x) = held s.cells (owner x) := by
  have hne := mt (hg.rehome_eq_keep hset hx).mp hmoves
  rw [hset.cells, if_neg hne, rehome_of_not_moves hmoves, if_neg fun h => hmoves (.inr h)]

include hset in
theorem held_of_moves (hmoves : Moves S s owner r x) : held s'.cells (rehome S s owner r keep x) = some settled := by
  rw [hset.cells, rehome_of_moves hmoves, if_pos rfl]

variable (hsteady' : ∀ x ∈ hs ++ [r], S.Steady (hs ++ [r]) x)

include hg hsteady hr hset hsteady' in
theorem exists_traced_settled {k : K} (hk : k ∈ S.keysOf settled) :
    ∃ y ∈ hs ++ [r], Moves S s owner r y ∧ S.Traced (hs ++ [r]) y k := by
  obtain ⟨a, ha, rfl⟩ := S.mem_keysOf.mp hk
  obtain ⟨y, hy, hmoves, hpoint⟩ := (hset.facts _).mp ha
  obtain ⟨j, hj, hjmoves, hlabel⟩ := hset.label
  have hjoined := (hg.rehome_joined hsteady hr hset hj hy).mp (by rw [rehome_of_moves hmoves, rehome_of_moves hjmoves])
  exact ⟨y, hy, hmoves, traced_of_label hsteady' hy ⟨j, hj, hjoined, hlabel⟩
    (fun h => hset.label_none h y hy hmoves) hpoint⟩

include hg hsteady hr hset hsteady' in
/-- **One more value: all are held by class again.** -/
theorem settle : S.Grouped (hs ++ [r]) s' (rehome S s owner r keep) where
  live slot := by
    rw [hset.cells]
    split
    next heq =>
      exact iff_of_true ⟨_, rfl⟩ ⟨r, mem_append_right _ mem_cons_self, by rw [rehome_of_moves (.inl rfl), heq]⟩
    next hne =>
      -- Every other slot is that of a value that stays, or was emptied.
      have hstays : ∀ {x}, x ∈ hs ++ [r] → rehome S s owner r keep x = slot → ¬ Moves S s owner r x :=
        fun _ heq hmoves => hne (heq.symm.trans (rehome_of_moves hmoves))
      split
      next hfound =>
        refine iff_of_false (fun ⟨_, h⟩ => nomatch h) ?_
        rintro ⟨x, hx, heq⟩
        have hmoves := hstays hx heq
        rw [rehome_of_not_moves hmoves] at heq
        exact hmoves (.inr (heq ▸ hfound))
      next hfound =>
        rw [hg.live]
        constructor
        · rintro ⟨x, hx, rfl⟩
          have hmoves := fun h => hfound (hg.matched_of_moves hsteady hr hx h)
          exact ⟨x, mem_append_left _ hx, rehome_of_not_moves hmoves⟩
        · rintro ⟨x, hx, heq⟩
          have hmoves := hstays hx heq
          exact ⟨x, mem_of_not_moves hx hmoves, by rw [← heq, rehome_of_not_moves hmoves]⟩
  joined x hx y hy := hg.rehome_joined hsteady hr hset hx hy
  ok slot h hheld := by
    rw [hset.cells] at hheld
    split at hheld
    · exact Option.some.inj hheld ▸ hset.ok
    · split at hheld
      · cases hheld
      · exact hg.ok slot h hheld
  facts x hx h hheld f := by
    by_cases hmoves : Moves S s owner r x
    · rw [held_of_moves hset hmoves, Option.some.injEq] at hheld
      rw [← hheld, hset.facts, rehome_of_moves hmoves]
      refine exists_congr fun y => and_congr_right fun hy => ?_
      rw [hg.rehome_eq_keep hset hy]
    · rw [held_of_not_moves hset hx hg hmoves] at hheld
      rw [hg.facts x (mem_of_not_moves hx hmoves) h hheld]
      refine exists_congr fun y => ?_
      rw [← and_assoc, ← and_assoc, hg.rehome_eq_iff hsteady hr hset hx hmoves]
  label x hx h hheld := by
    by_cases hmoves : Moves S s owner r x
    · rw [held_of_moves hset hmoves, Option.some.injEq] at hheld
      subst hheld
      obtain ⟨y, hy, hymoves, hlabel⟩ := hset.label
      exact ⟨⟨y, hy, by rw [rehome_of_moves hymoves, rehome_of_moves hmoves], hlabel⟩,
        fun h => hset.label_none h x hx hmoves⟩
    · rw [held_of_not_moves hset hx hg hmoves] at hheld
      obtain ⟨⟨y, hy, howner, hlabel⟩, hnone⟩ := hg.label x (mem_of_not_moves hx hmoves) h hheld
      obtain ⟨hy, heq⟩ := (hg.rehome_eq_iff hsteady hr hset hx hmoves).mpr ⟨hy, howner⟩
      exact ⟨⟨y, hy, heq, hlabel⟩, hnone⟩
  traced k slot hget := by
    rw [hset.slotOf] at hget
    split at hget
    next hk =>
      obtain rfl := Option.some.inj hget
      obtain ⟨y, hy, hmoves, htraced⟩ := hg.exists_traced_settled hsteady hr hset hsteady' hk
      have heq : rehome S s owner r keep y = keep := rehome_of_moves hmoves
      exact ⟨hset.keep_lt, y, hy, heq.le, fun _ => heq, htraced⟩
    next =>
      obtain ⟨hlt, x, hx, hle, hlive, a, ha, j, hj, hchain, hlabel, hkey⟩ := hg.traced k slot hget
      have hsub : hs ⊆ hs ++ [r] := subset_append_left _ _
      refine ⟨hlt.trans_le hset.length_le, x, hsub hx, ?_, ?_, a, ha, j, hsub hj, hchain.mono hsub, hlabel, hkey⟩
      · by_cases hmoves : Moves S s owner r x
        · rw [rehome_of_moves hmoves]
          exact (hset.least _ (hg.matched_of_moves hsteady hr hx hmoves)).trans hle
        · rw [rehome_of_not_moves hmoves]
          exact hle
      · -- A slot that is not empty now is the one they moved to, or was not found.
        rintro ⟨h, hheld⟩
        rw [hset.cells] at hheld
        split at hheld
        next heq =>
          obtain ⟨hfound, hold⟩ := hset.place (heq ▸ hlt)
          have howner : owner x = keep := heq ▸ hlive (heq ▸ hold)
          rw [rehome_of_moves (.inr (howner ▸ hfound)), heq]
        next =>
          split at hheld
          · cases hheld
          next hfound =>
            have howner := hlive ⟨h, hheld⟩
            have hmoves := fun hm => hfound (howner ▸ hg.matched_of_moves hsteady hr hx hm)
            rw [rehome_of_not_moves hmoves, howner]
  filed x hx h hheld a ha hkey := by
    rw [hset.slotOf]
    by_cases hmoves : Moves S s owner r x
    · rw [held_of_moves hset hmoves, Option.some.injEq] at hheld
      subst hheld
      have hk : S.key a (S.label x) ∈ S.keysOf settled :=
        S.mem_keysOf.mpr ⟨a, (hset.facts _).mpr ⟨x, hx, hmoves, ha⟩, hkey⟩
      rw [if_pos hk, rehome_of_moves hmoves]
    · rw [held_of_not_moves hset hx hg hmoves] at hheld
      -- A key of the slot they moved to would join the value to those.
      have hk : S.key a (S.label x) ∉ S.keysOf settled := by
        intro hk
        obtain ⟨y, hy, hymoves, htraced⟩ := hg.exists_traced_settled hsteady hr hset hsteady' hk
        obtain ⟨i, hi, hjoined, hshares⟩ :=
          exists_shares_of_traced (hsteady' x hx) htraced (S.mem_keysOf.mpr ⟨a, ha, rfl⟩)
        have heq := (hg.rehome_joined hsteady hr hset hy hx).mpr (hjoined.tail ⟨hi, hx, hshares⟩)
        exact hmoves ((hg.rehome_eq_keep hset hx).mp (heq ▸ rehome_of_moves hymoves))
      rw [if_neg hk, rehome_of_not_moves hmoves]
      exact hg.filed x (mem_of_not_moves hx hmoves) h hheld a ha hkey

end Settle

/-! ### Reading it in -/

theorem label_foldl_merge (S : Scheme σ K A Z F) : ∀ (l : List σ) (h : σ),
    (∃ x ∈ h :: l, S.label x = S.label (l.foldl S.merge h)) ∧
      (S.label (l.foldl S.merge h) = none → ∀ x ∈ h :: l, S.label x = none)
  | [], h => ⟨⟨h, mem_cons_self, rfl⟩, fun hnone x hx => mem_singleton.mp hx ▸ hnone⟩
  | y :: l, h => by
    obtain ⟨⟨x, hx, hlabel⟩, hnone⟩ := label_foldl_merge S l (S.merge h y)
    have hor := S.label_merge h y
    constructor
    · rcases mem_cons.mp hx with rfl | hx
      · rw [hor] at hlabel
        cases hh : S.label h with
        | none => exact ⟨y, by simp, by rw [foldl_cons, ← hlabel, hh, Option.none_or]⟩
        | some z => exact ⟨h, by simp, by rw [foldl_cons, ← hlabel, hh, Option.some_or]⟩
      · exact ⟨x, by simp [hx], hlabel⟩
    · intro h0 x hx
      have hall := hnone h0
      have hboth := Option.or_eq_none_iff.mp (hor.symm.trans (hall _ mem_cons_self))
      rcases mem_cons.mp hx with rfl | hx
      · exact hboth.1
      · rcases mem_cons.mp hx with rfl | hx
        · exact hboth.2
        · exact hall x (mem_cons_of_mem _ hx)

theorem facts_foldl_merge (S : Scheme σ K A Z F) {t : Set F} (ht : S.Fits t) : ∀ (l : List σ) (h : σ),
    (∀ x ∈ h :: l, S.Ok x ∧ S.facts x ⊆ t) → S.Ok (l.foldl S.merge h) ∧
      ∀ f, f ∈ S.facts (l.foldl S.merge h) ↔ ∃ x ∈ h :: l, f ∈ S.facts x
  | [], h, hall => ⟨(hall h mem_cons_self).1, by simp⟩
  | y :: l, h, hall => by
    obtain ⟨hok, hsub⟩ := hall h (by simp)
    obtain ⟨hok', hsub'⟩ := hall y (by simp)
    have hmerge := S.facts_merge hok hok' (S.fits_mono (Set.union_subset hsub hsub') ht)
    obtain ⟨hfold, hfacts⟩ := facts_foldl_merge S ht l (S.merge h y) fun x hx => by
      rcases mem_cons.mp hx with rfl | hx
      · exact ⟨S.ok_merge hok hok', hmerge ▸ Set.union_subset hsub hsub'⟩
      · exact hall x (by simp [hx])
    refine ⟨hfold, fun f => ?_⟩
    rw [foldl_cons, hfacts]
    simp [hmerge, or_assoc]

theorem settles_unmatched (owner : σ → ℕ) (hok : S.Ok r) (hmatched : matched S.keysOf s r = []) :
    Settles S hs s owner r (s.read S.keysOf S.merge S.later r) s.cells.length r := by
  obtain ⟨hcells, hslotOf⟩ := Slots.read_of_unmatched S.merge S.later hmatched
  have hmoves : ∀ {y}, Moves S s owner r y ↔ y = r := by
    unfold Moves
    rw [hmatched]
    simp
  have hrmem : r ∈ hs ++ [r] := mem_append_right _ mem_cons_self
  constructor
  case length_le => simp [hcells]
  case keep_lt => simp [hcells]
  case least => simp [hmatched]
  case place => exact fun h => absurd h (lt_irrefl _)
  case cells =>
    intro i
    rw [hcells, Slots.held_append, hmatched]
    simp
  case slotOf => exact hslotOf
  case ok => exact hok
  case facts => simp [hmoves]
  case label => exact ⟨r, hrmem, hmoves.mpr rfl, rfl⟩
  case label_none => exact fun h y _ hy => hmoves.mp hy ▸ h

include hg hr in
theorem settles_matched (hok : S.Ok r) (hroom : S.Roomy (hs ++ [r])) {rest : List ℕ} {h : σ}
    (hmatched : matched S.keysOf s r = keep :: rest) (hheld : held s.cells keep = some h) :
    Settles S hs s owner r (s.read S.keysOf S.merge S.later r) keep (gathered S.merge S.later s.cells rest h r) := by
  obtain ⟨hlength, hcells, hslotOf⟩ := Slots.read_of_matched S.merge S.later hmatched hheld
  have hrmem : r ∈ hs ++ [r] := mem_append_right _ mem_cons_self
  have hlt := hmatched ▸ Slots.pairwise_matched S.keysOf s r
  -- What is folded is what the slots found hold, and that is the values they own.
  have hfolded : ∀ g, g ∈ h :: rest.filterMap (held s.cells) ↔
      ∃ slot ∈ matched S.keysOf s r, held s.cells slot = some g := by
    intro g
    rw [hmatched, ← filterMap_cons_some hheld, mem_filterMap]
  have howned : ∀ {g}, g ∈ h :: rest.filterMap (held s.cells) →
      ∃ x ∈ hs, owner x ∈ matched S.keysOf s r ∧ held s.cells (owner x) = some g := by
    intro g hmem
    obtain ⟨slot, hslot, hg'⟩ := (hfolded g).mp hmem
    obtain ⟨x, hx, rfl⟩ := (hg.live slot).mp ⟨g, hg'⟩
    exact ⟨x, hx, hslot, hg'⟩
  have hholder : ∀ {y}, y ∈ hs ++ [r] → Moves S s owner r y → y ≠ r →
      y ∈ hs ∧ ∃ g ∈ h :: rest.filterMap (held s.cells), held s.cells (owner y) = some g := by
    intro y hy hmoves hne
    have hold := (mem_append.mp hy).resolve_right fun hmem => hne (mem_singleton.mp hmem)
    obtain ⟨g, hg'⟩ := hg.held_owner hold
    exact ⟨hold, g, (hfolded g).mpr ⟨_, hmoves.resolve_left hne, hg'⟩, hg'⟩
  have hfits := hroom r hrmem
  have hsubs : ∀ g ∈ h :: rest.filterMap (held s.cells), S.Ok g ∧ S.facts g ⊆ S.classFacts (hs ++ [r]) r := by
    intro g hmem
    obtain ⟨x, hx, hfound, hg'⟩ := howned hmem
    refine ⟨hg.ok _ g hg', fun f hf => ?_⟩
    obtain ⟨y, hy, howner, hfact⟩ := (hg.facts x hx g hg' f).mp hf
    have hymoves : Moves S s owner r y := .inr (howner ▸ hfound)
    have hymem : y ∈ hs ++ [r] := mem_append_left _ hy
    exact ⟨y, hymem, (hg.joined_of_moves hr hymem hymoves).symm, hfact⟩
  obtain ⟨hfoldOk, hfold⟩ := facts_foldl_merge S hfits _ _ hsubs
  have hlater : S.facts (gathered S.merge S.later s.cells rest h r) =
      S.facts ((rest.filterMap (held s.cells)).foldl S.merge h) ∪ S.facts r := by
    refine S.facts_later hfoldOk hok (S.fits_mono (Set.union_subset (fun f hf => ?_) fun f hf => ?_) hfits)
    · obtain ⟨g, hmem, hfact⟩ := (hfold f).mp hf
      exact (hsubs g hmem).2 hfact
    · exact ⟨r, hrmem, .refl, hf⟩
  have hlabel : S.label (gathered S.merge S.later s.cells rest h r) =
      (S.label ((rest.filterMap (held s.cells)).foldl S.merge h)).or (S.label r) := S.label_later _ _
  obtain ⟨⟨g, hmem, hfirst⟩, hnone⟩ := label_foldl_merge S (rest.filterMap (held s.cells)) h
  constructor
  case length_le => exact hlength.ge
  case keep_lt => exact hlength ▸ Slots.lt_length_of_held hheld
  case least =>
    intro slot hslot
    rw [hmatched] at hslot
    rcases mem_cons.mp hslot with rfl | hmem
    · exact le_rfl
    · exact ((pairwise_cons.mp hlt).1 slot hmem).le
  case place => exact fun _ => ⟨hmatched ▸ mem_cons_self, h, hheld⟩
  case cells =>
    intro i
    rw [hcells, hmatched]
    by_cases hi : i = keep
    · rw [if_pos hi, if_pos hi]
    · simp [hi]
  case slotOf => exact hslotOf
  case ok => exact S.ok_later hfoldOk hok
  case facts =>
    intro f
    rw [hlater, Set.mem_union, hfold]
    constructor
    · rintro (⟨g, hmem, hf⟩ | hf)
      · obtain ⟨x, hx, hfound, hg'⟩ := howned hmem
        obtain ⟨y, hy, howner, hfact⟩ := (hg.facts x hx g hg' f).mp hf
        exact ⟨y, mem_append_left _ hy, .inr (howner ▸ hfound), hfact⟩
      · exact ⟨r, hrmem, .inl rfl, hf⟩
    · rintro ⟨y, hy, hmoves, hf⟩
      by_cases heq : y = r
      · exact .inr (heq ▸ hf)
      · obtain ⟨hold, g, hmem, hg'⟩ := hholder hy hmoves heq
        exact .inl ⟨g, hmem, (hg.facts y hold g hg' f).mpr ⟨y, hold, rfl, hf⟩⟩
  case label =>
    rw [hlabel]
    cases hfoldLabel : S.label ((rest.filterMap (held s.cells)).foldl S.merge h) with
    | none => exact ⟨r, hrmem, .inl rfl, (Option.none_or).symm⟩
    | some z =>
      obtain ⟨x, hx, hfound, hg'⟩ := howned hmem
      obtain ⟨⟨y, hy, howner, hown⟩, _⟩ := hg.label x hx g hg'
      exact ⟨y, mem_append_left _ hy, .inr (howner ▸ hfound), by rw [hown, hfirst, hfoldLabel]; rfl⟩
  case label_none =>
    intro hall y hy hmoves
    rw [hlabel, Option.or_eq_none_iff] at hall
    by_cases heq : y = r
    · exact heq ▸ hall.2
    · obtain ⟨hold, g, hmem, hg'⟩ := hholder hy hmoves heq
      exact (hg.label y hold g hg').2 (hnone hall.1 g hmem)

include hg hsteady hr in
/-- **Reading one more value in keeps all values held by class**, while every chain answers
steadily and there is room for every class. -/
theorem read (hsteady' : ∀ x ∈ hs ++ [r], S.Steady (hs ++ [r]) x) (hok : S.Ok r) (hroom : S.Roomy (hs ++ [r])) :
    ∃ owner', S.Grouped (hs ++ [r]) (s.read S.keysOf S.merge S.later r) owner' := by
  cases hmatched : matched S.keysOf s r with
  | nil => exact ⟨_, hg.settle hsteady hr (settles_unmatched owner hok hmatched) hsteady'⟩
  | cons keep rest =>
    obtain ⟨h, hheld⟩ := hg.held_keep hsteady hr hmatched
    exact ⟨_, hg.settle hsteady hr (hg.settles_matched hr hok hroom hmatched hheld) hsteady'⟩

end Grouped

/-! ## Groups and classes -/

def Partitions (hs found : List σ) : Prop :=
  ∃ leaders : List σ, leaders ⊆ hs ∧ leaders.Pairwise (fun x y => ¬ S.Joined hs x y) ∧
    (∀ x ∈ hs, ∃ leader ∈ leaders, S.Joined hs leader x) ∧ found.map S.facts = leaders.map (S.classFacts hs)

def Consistent (R : Set σ) : Prop :=
  ∀ first rest r, (∀ x ∈ first :: rest, x ∈ R) → r ∈ R → (first :: rest).IsChain S.Near → S.label first ≠ none →
    S.Roomy (first :: rest ++ [r]) →
    ((∃ q ∈ first :: rest, S.Shares q r) ↔ ∃ q ∈ first :: rest, S.SharesAs (S.label first) q r)

section Consistent

variable {S} {R : Set σ} {hs} {s : Slots K σ} {owner : σ → ℕ} {r : σ}

theorem values_eq : ∀ cells : List (Option σ), cells.filterMap id = (List.range cells.length).filterMap (held cells)
  | [] => rfl
  | cell :: cells => by
    have hrest : (held (cell :: cells)) ∘ Nat.succ = held cells := by
      funext i
      simp [held]
    rw [length_cons, range_succ_eq_map, filterMap_cons, filterMap_cons, filterMap_map, hrest, values_eq cells]
    rfl

/-- **Values that are held by class are one for each class.** -/
theorem Grouped.partitions (hg : S.Grouped hs s owner) : S.Partitions hs s.values := by
  -- Of every slot that is not empty, one of the values it owns.
  have hpick : ∀ slot, ∃ leader : Option σ, (leader.isSome = (held s.cells slot).isSome) ∧
      ∀ x ∈ leader, x ∈ hs ∧ owner x = slot := by
    intro slot
    cases hheld : held s.cells slot with
    | none => exact ⟨none, rfl, nofun⟩
    | some h =>
      obtain ⟨x, hx, howner⟩ := (hg.live slot).mp ⟨h, hheld⟩
      exact ⟨some x, rfl, fun y hy => Option.some.inj hy ▸ ⟨hx, howner⟩⟩
  choose pick hsome hown using hpick
  refine ⟨(List.range s.cells.length).filterMap pick, ?_, ?_, ?_, ?_⟩
  · intro x hx
    obtain ⟨slot, _, hslot⟩ := mem_filterMap.mp hx
    exact (hown slot x hslot).1
  · refine pairwise_filterMap.mpr (nodup_range.imp fun {i j} hne x hx y hy hjoined => hne ?_)
    obtain ⟨hxmem, hxowner⟩ := hown i x hx
    obtain ⟨hymem, hyowner⟩ := hown j y hy
    rw [← hxowner, ← hyowner]
    exact (hg.joined x hxmem y hymem).mpr hjoined
  · intro x hx
    obtain ⟨h, hheld⟩ := hg.held_owner hx
    obtain ⟨leader, hleader⟩ := Option.isSome_iff_exists.mp ((hsome (owner x)).trans (by rw [hheld]; rfl))
    obtain ⟨hmem, howner⟩ := hown _ leader hleader
    refine ⟨leader, mem_filterMap.mpr ⟨owner x, ?_, hleader⟩, (hg.joined leader hmem x hx).mp howner⟩
    exact mem_range.mpr (Slots.lt_length_of_held hheld)
  · unfold Slots.values
    rw [values_eq]
    generalize List.range s.cells.length = slots
    induction slots with
    | nil => rfl
    | cons slot slots ih =>
      cases hheld : held s.cells slot with
      | none =>
        have hnone : pick slot = none := by simpa [hheld] using hsome slot
        rw [filterMap_cons_none hnone, filterMap_cons_none hheld]
        exact ih
      | some h =>
        obtain ⟨leader, hleader⟩ := Option.isSome_iff_exists.mp ((hsome slot).trans (by rw [hheld]; rfl))
        rw [filterMap_cons_some hleader, filterMap_cons_some hheld]
        obtain ⟨hmem, howner⟩ := hown slot leader hleader
        rw [map_cons, map_cons, ih]
        congr 1
        ext f
        rw [hg.facts leader hmem h (howner ▸ hheld)]
        refine exists_congr fun y => and_congr_right fun hy => and_congr_left fun _ => ?_
        rw [hg.joined y hy leader hmem]
        exact ⟨Joined.symm, Joined.symm⟩

theorem exists_isChain {j q : σ} (hj : j ∈ hs) (h : S.Chained hs j q) : ∃ rest, (j :: rest).IsChain (Among hs S.Near) ∧
    q ∈ j :: rest ∧ ∀ x ∈ j :: rest, x ∈ hs ∧ S.Chained hs j x := by
  obtain ⟨rest, hchain, hlast⟩ := exists_isChain_cons_of_relationReflTransGen h
  refine ⟨rest, hchain, hlast ▸ getLast_mem _, ?_⟩
  refine hchain.induction (fun x => x ∈ hs ∧ S.Chained hs j x) _ ?_ fun _ => ⟨hj, .refl⟩
  exact fun x y hxy hx => ⟨hxy.2.1, hx.2.tail hxy⟩

theorem Consistent.steady (h : S.Consistent R) (image : σ → σ) (himage : ∀ x ∈ hs, image x ∈ R ∧ S.Alike x (image x))
    {r' : σ} (hr : r' ∈ R) (halike : S.Alike r r') (hroom : S.Roomy (hs.map image ++ [r'])) : S.Steady hs r := by
  intro j hj hlabel
  have hask : ∀ {q}, S.Chained hs j q → ∃ rest, q ∈ j :: rest ∧ (∀ x ∈ j :: rest, S.Chained hs j x) ∧
      ((∃ q ∈ j :: rest, S.Shares q r) ↔ ∃ q ∈ j :: rest, S.SharesAs (S.label j) q r) := by
    intro q hq
    obtain ⟨rest, hchain, hmem, hall⟩ := exists_isChain hj hq
    refine ⟨rest, hmem, fun x hx => (hall x hx).2, ?_⟩
    have hlike : ∀ x ∈ j :: rest, S.Alike x (image x) := fun x hx => (himage x (hall x hx).1).2
    -- The chain is asked as that of the values it is like.
    have hasked := h (image j) (rest.map image) r' ?_ hr ?_ ((hlike j mem_cons_self).2 ▸ hlabel) (hroom.mono ?_)
    · simp only [← map_cons, mem_map, exists_exists_and_eq_and] at hasked
      refine Iff.trans ?_ (hasked.trans ?_)
      · exact exists_congr fun x => and_congr_right fun hx => (hlike x hx).shares_iff halike
      · refine exists_congr fun x => and_congr_right fun hx => ?_
        rw [(hlike j mem_cons_self).2]
        exact ((hlike x hx).sharesAs_iff halike _).symm
    · rw [← map_cons]
      intro y hy
      obtain ⟨x, hx, rfl⟩ := mem_map.mp hy
      exact (himage x (hall x hx).1).1
    · exact isChain_map_of_isChain (l := j :: rest) image (fun x y hxy =>
        (himage x hxy.1).2.near (himage y hxy.2.1).2 hxy.2.2) hchain
    · refine append_subset.mpr ⟨fun y hy => ?_, subset_append_right _ _⟩
      exact mem_append_left _ (map_subset image (fun x hx => (hall x hx).1) hy)
  constructor
  · rintro ⟨q, hq, hshares⟩
    obtain ⟨rest, hmem, hall, hiff⟩ := hask hq
    obtain ⟨x, hx, hshares⟩ := hiff.mp ⟨q, hmem, hshares⟩
    exact ⟨x, hall x hx, hshares⟩
  · rintro ⟨q, hq, hshares⟩
    obtain ⟨rest, hmem, hall, hiff⟩ := hask hq
    obtain ⟨x, hx, hshares⟩ := hiff.mpr ⟨q, hmem, hshares⟩
    exact ⟨x, hall x hx, hshares⟩

theorem readAll_append (S : Scheme σ K A Z F) (hs : List σ) (r : σ) :
    Slots.readAll S.keysOf S.merge S.later (hs ++ [r]) =
    (Slots.readAll S.keysOf S.merge S.later hs).read S.keysOf S.merge S.later r := foldl_concat _ _ _ _

/-- **Values whose chains answer steadily are held by class.** -/
theorem exists_grouped (hsteady : ∀ l ⊆ hs, ∀ x ∈ hs, S.Steady l x) (hok : ∀ x ∈ hs, S.Ok x) (hroom : S.Roomy hs) :
    ∃ owner, S.Grouped hs (Slots.readAll S.keysOf S.merge S.later hs) owner := by
  induction hs using List.reverseRecOn with
  | nil => exact ⟨fun _ => 0, Grouped.empty S _⟩
  | append_singleton hs r ih =>
    have hold : hs ⊆ hs ++ [r] := subset_append_left _ _
    have hrmem : r ∈ hs ++ [r] := mem_append_right _ mem_cons_self
    obtain ⟨owner, hg⟩ :=
      ih (fun l hl x hx => hsteady l (List.Subset.trans hl hold) x (hold hx)) (fun x hx => hok x (hold hx))
      (hroom.mono hold)
    rw [readAll_append]
    exact hg.read (fun x hx => hsteady hs hold x (hold hx)) (hsteady hs hold r hrmem)
      (hsteady _ (List.Subset.refl _)) (hok r hrmem) hroom

theorem Consistent.grouped (h : S.Consistent R) (hok : ∀ x ∈ R, S.Ok x) (hsub : ∀ x ∈ hs, x ∈ R) (hroom : S.Roomy hs) :
    ∃ owner, S.Grouped hs (Slots.readAll S.keysOf S.merge S.later hs) owner := by
  refine exists_grouped (fun l hl x hx => ?_) (fun x hx => hok x (hsub x hx)) hroom
  refine h.steady id (fun y hy => ⟨hsub y (hl hy), .refl S y⟩) (hsub x hx) (.refl S x) (hroom.mono ?_)
  rw [map_id]
  exact append_subset.mpr ⟨hl, cons_subset.mpr ⟨hx, nil_subset _⟩⟩

/-! ## A chain and one more value -/

/-- One slot holds all that some values state under one label, and its keys are all that is filed. -/
structure OneSlot (S : Scheme σ K A Z F) (chain : List σ) (l : Option Z) (s : Slots K σ) (h : σ) : Prop where
  cells : s.cells = [some h]
  label : S.label h = l
  ok : S.Ok h
  facts : ∀ f, f ∈ S.facts h ↔ ∃ q ∈ chain, f ∈ S.facts q
  slotOf : ∀ k, s.slotOf.get? k = if k ∈ S.keysOf h then some 0 else none

namespace OneSlot

variable {chain : List σ} {l : Option Z} {h : σ}

theorem matched_iff (ho : S.OneSlot chain l s h) : (∃ q ∈ chain, S.SharesAs l q r) ↔ matched S.keysOf s r ≠ [] := by
  rw [Ne, eq_nil_iff_forall_not_mem]
  push Not
  simp only [mem_matched, ho.slotOf]
  constructor
  · rintro ⟨q, hq, a, ha, har, hkey⟩
    have hmem := S.mem_keysOf.mpr ⟨a, (ho.facts _).mpr ⟨q, hq, ha⟩, by rw [ho.label, hkey]⟩
    exact ⟨0, _, S.mem_keysOf.mpr ⟨a, har, rfl⟩, if_pos hmem⟩
  · rintro ⟨slot, k, hkr, hget⟩
    have hk : k ∈ S.keysOf h := by
      by_contra hk
      rw [if_neg hk] at hget
      cases hget
    obtain ⟨a, ha, rfl⟩ := S.mem_keysOf.mp hk
    obtain ⟨b, hb, hkey⟩ := S.mem_keysOf.mp hkr
    obtain rfl := S.key_injective hkey
    obtain ⟨q, hq, hpoint⟩ := (ho.facts _).mp ha
    exact ⟨q, hq, b, hpoint, hb, by rw [← ho.label, hkey]⟩

theorem matched_eq (ho : S.OneSlot chain l s h) (hfound : matched S.keysOf s r ≠ []) : matched S.keysOf s r = [0] := by
  have hzero : ∀ slot ∈ matched S.keysOf s r, slot = 0 := by
    intro slot hslot
    obtain ⟨k, _, hget⟩ := mem_matched.mp hslot
    rw [ho.slotOf] at hget
    split at hget
    · exact (Option.some.inj hget).symm
    · cases hget
  have hlt := Slots.pairwise_matched S.keysOf s r
  cases hmatched : matched S.keysOf s r with
  | nil => exact absurd hmatched hfound
  | cons keep rest =>
    rw [hmatched] at hzero hlt
    cases rest with
    | nil => rw [hzero keep mem_cons_self]
    | cons next rest =>
      have hless := (pairwise_cons.mp hlt).1 next mem_cons_self
      rw [hzero next (by simp)] at hless
      exact absurd hless (Nat.not_lt_zero _)

theorem read (ho : S.OneSlot chain l s h) (hfound : matched S.keysOf s r ≠ []) :
    (s.read S.keysOf S.merge S.later r).cells = [some (S.later h r)] ∧
      ∀ k, (s.read S.keysOf S.merge S.later r).slotOf.get? k =
        if k ∈ S.keysOf (S.later h r) then some 0 else s.slotOf.get? k := by
  have hheld : held s.cells 0 = some h := by rw [ho.cells]; rfl
  obtain ⟨hlength, hcells, hslotOf⟩ := Slots.read_of_matched S.merge S.later (ho.matched_eq hfound) hheld
  refine ⟨?_, hslotOf⟩
  have hzero := (hcells 0).trans (if_pos rfl)
  obtain ⟨cell, hone⟩ := length_eq_one_iff.mp (hlength.trans (by rw [ho.cells]; rfl))
  rw [hone] at hzero ⊢
  exact congrArg (fun c => [c]) hzero

end OneSlot

theorem joined_of_isChain : ∀ {rest : List σ} {first : σ}, (first :: rest).IsChain S.Near → first :: rest ⊆ hs →
    ∀ q ∈ first :: rest, S.Joined hs first q
  | [], first, _, _, q, hq => mem_singleton.mp hq ▸ .refl
  | next :: rest, first, hchain, hsub, q, hq => by
    obtain ⟨hnear, hchain⟩ := isChain_cons_cons.mp hchain
    obtain ⟨hfirst, hsub⟩ := cons_subset.mp hsub
    rcases mem_cons.mp hq with rfl | hq
    · exact .refl
    · exact .head ⟨hfirst, hsub mem_cons_self, hnear.sharesAs _⟩ (joined_of_isChain hchain hsub q hq)

theorem exists_oneSlot {first : σ} {rest : List σ} (hchain : (first :: rest).IsChain S.Near)
    (hlabel : S.label first ≠ none) (hok : ∀ x ∈ first :: rest, S.Ok x) (hroom : S.Roomy (first :: rest)) :
    ∃ h, S.OneSlot (first :: rest) (S.label first) (Slots.readAll S.keysOf S.merge S.later (first :: rest)) h := by
  induction rest using List.reverseRecOn with
  | nil =>
    have hmatched : matched S.keysOf (⟨[], SortedMap.empty⟩ : Slots K σ) first = [] := by
      rw [eq_nil_iff_forall_not_mem]
      intro slot hslot
      obtain ⟨k, _, hget⟩ := mem_matched.mp hslot
      cases hget
    obtain ⟨hcells, hslotOf⟩ := Slots.read_of_unmatched S.merge S.later hmatched
    exact ⟨first, hcells, rfl, hok first mem_cons_self, by simp, hslotOf⟩
  | append_singleton rest q ih =>
    have hsub : first :: rest ⊆ first :: (rest ++ [q]) :=
      cons_subset_cons _ (subset_append_left _ _)
    obtain ⟨hchain', _, hlast⟩ := isChain_append.mp (show ((first :: rest) ++ [q]).IsChain S.Near from hchain)
    obtain ⟨h, ho⟩ := ih hchain' (fun x hx => hok x (hsub hx)) (hroom.mono hsub)
    -- The last value of the chain has a free point of the next.
    have hnear := hlast _ (getLast?_eq_some_getLast (cons_ne_nil first rest)) q rfl
    have hfound := ho.matched_iff.mp ⟨_, getLast_mem _, hnear.sharesAs _⟩
    obtain ⟨hcells, hslotOf⟩ := ho.read hfound
    have hread := readAll_append S (first :: rest) q
    have hqok := hok q (by simp)
    have hfacts : S.facts (S.later h q) = S.facts h ∪ S.facts q := by
      have hall : ∀ x ∈ first :: (rest ++ [q]), S.facts x ⊆ S.classFacts (first :: (rest ++ [q])) first :=
        fun x hx f hf => ⟨x, hx, joined_of_isChain hchain (List.Subset.refl _) x hx, hf⟩
      refine S.facts_later ho.ok hqok (S.fits_mono (Set.union_subset (fun f hf => ?_) (hall q (by simp)))
        (hroom first mem_cons_self))
      obtain ⟨x, hx, hfact⟩ := (ho.facts f).mp hf
      exact hall x (hsub hx) hfact
    have hown : S.label (S.later h q) = S.label first := by
      rw [S.label_later, ho.label, Option.or_of_isSome (Option.isSome_iff_ne_none.mpr hlabel)]
    refine ⟨S.later h q, hread ▸ hcells, hown, S.ok_later ho.ok hqok, fun f => ?_, fun k => ?_⟩
    · rw [hfacts, Set.mem_union, ho.facts]
      simp [or_assoc, or_and_right, exists_or]
    · rw [← cons_append, hread, hslotOf, ho.slotOf]
      by_cases hk : k ∈ S.keysOf (S.later h q)
      · rw [if_pos hk, if_pos hk]
      · have hkh : k ∉ S.keysOf h := by
          intro hkh
          obtain ⟨a, ha, rfl⟩ := S.mem_keysOf.mp hkh
          exact hk (S.mem_keysOf.mpr ⟨a, hfacts ▸ Set.mem_union_left _ ha, by rw [hown, ho.label]⟩)
        rw [if_neg hk, if_neg hk, if_neg hkh]

theorem Partitions.joined {found : List σ} (h : S.Partitions hs found) (hlength : found.length ≤ 1) {x y : σ}
    (hx : x ∈ hs) (hy : y ∈ hs) : S.Joined hs x y := by
  obtain ⟨leaders, _, _, hcover, hfacts⟩ := h
  have hsize := congrArg List.length hfacts
  rw [length_map, length_map] at hsize
  obtain ⟨i, hi, hix⟩ := hcover x hx
  obtain ⟨j, hj, hjy⟩ := hcover y hy
  have hsame : i = j := by
    rw [hsize] at hlength
    match leaders, hlength, hi, hj with
    | [leader], _, hi, hj => rw [mem_singleton.mp hi, mem_singleton.mp hj]
  exact hix.symm.trans (hsame ▸ hjy)

theorem Partitions.length_le {found : List σ} (h : S.Partitions hs found)
    (hjoined : ∀ x ∈ hs, ∀ y ∈ hs, S.Joined hs x y) : found.length ≤ 1 := by
  obtain ⟨leaders, hsub, hapart, _, hfacts⟩ := h
  have hsize := congrArg List.length hfacts
  rw [length_map, length_map] at hsize
  rw [hsize]
  match leaders, hsub, hapart with
  | [], _, _ => exact Nat.zero_le _
  | [_], _, _ => exact le_rfl
  | x :: y :: rest, hsub, hapart =>
    have hne := (pairwise_cons.mp hapart).1 y mem_cons_self
    exact absurd (hjoined x (hsub (by simp)) y (hsub (by simp))) hne

/-- **The values of a set are grouped by the keys they share, whatever is read of them and in whatever order, exactly
where the set is consistent.** -/
theorem consistent_iff (hok : ∀ x ∈ R, S.Ok x) : (∀ hs : List σ, (∀ x ∈ hs, x ∈ R) → S.Roomy hs →
      S.Partitions hs (Slots.readAll S.keysOf S.merge S.later hs).values) ↔ S.Consistent R := by
  constructor
  · intro hall first rest r hsub hr hchain hlabel hroom
    have hparts := hall (first :: rest ++ [r])
      (fun x hx => (mem_append.mp hx).elim (hsub x) fun h => mem_singleton.mp h ▸ hr) hroom
    obtain ⟨h, ho⟩ := exists_oneSlot hchain hlabel (fun x hx => hok x (hsub x hx)) (hroom.mono (subset_append_left _ _))
    have hjoined := joined_of_isChain hchain (subset_append_left (first :: rest) [r])
    have hrmem : r ∈ first :: rest ++ [r] := mem_append_right _ mem_cons_self
    rw [readAll_append] at hparts
    rw [ho.matched_iff]
    constructor
    · -- All of them are one class, so they are in one slot.
      rintro ⟨q, hq, hshares⟩ hmatched
      have hclass : ∀ x ∈ first :: rest ++ [r], S.Joined (first :: rest ++ [r]) first x := by
        intro x hx
        rcases mem_append.mp hx with hx | hx
        · exact hjoined x hx
        · exact mem_singleton.mp hx ▸ (hjoined q hq).tail ⟨mem_append_left _ hq, hrmem, hshares⟩
      have hone := hparts.length_le fun x hx y hy => (hclass x hx).symm.trans (hclass y hy)
      obtain ⟨hcells, _⟩ := Slots.read_of_unmatched S.merge S.later hmatched
      unfold Slots.values at hone
      rw [hcells, ho.cells] at hone
      exact absurd hone (by simp)
    · -- They are in one slot, so the last is joined to the chain, and some value of it shares a key.
      intro hfound
      obtain ⟨hcells, _⟩ := ho.read hfound
      have hclass := hparts.joined (x := r) (y := first) (by unfold Slots.values; rw [hcells]; simp) hrmem (by simp)
      by_contra hnone
      push Not at hnone
      have hstuck : ∀ {y}, S.Joined (first :: rest ++ [r]) r y → y = r := by
        intro y hy
        induction hy with
        | refl => rfl
        | tail _ hlast ih =>
          obtain ⟨_, hy, hshares⟩ := hlast
          rcases mem_append.mp hy with hy | hy
          · exact absurd (ih ▸ hshares).symm (hnone _ hy)
          · exact mem_singleton.mp hy
      exact hnone first mem_cons_self (hstuck hclass ▸ shares_self S first)
  · intro hconsistent hs hsub hroom
    obtain ⟨owner, hg⟩ := hconsistent.grouped hok hsub hroom
    exact hg.partitions

end Consistent

end Scheme

end Zond
