import ZondEngine.Lib.Grouping

/-!
# Readings that come to the same

One list of values may say the same as another in fewer words (`Beneath`, `Covers`). `Partitions.perm`: where chains
answer steadily, two such lists are grouped into values that state the same, in some order.
-/

namespace Zond.Scheme

open List

variable {σ K A Z F : Type} [LinearOrder K] (S : Scheme σ K A Z F)

/-! ## Lists that keep to others -/

def Beneath (x y : σ) : Prop := (∀ k ∈ S.keysOf x, k ∈ S.keysOf y) ∧ S.facts x ⊆ S.facts y

def Within (hs hs' : List σ) : Prop := ∀ x ∈ hs, ∃ y ∈ hs', S.Beneath x y

def Recurs (hs hs' : List σ) : Prop := ∀ x ∈ hs, ∃ y ∈ hs', S.Alike x y ∧ S.facts x ⊆ S.facts y

section Within

variable {S} {hs hs' : List σ} {x y x' y' : σ} {k : K}

theorem Alike.mem_keysOf (h : S.Alike x y) : k ∈ S.keysOf x ↔ k ∈ S.keysOf y := by
  rw [S.mem_keysOf, S.mem_keysOf]
  show (∃ a ∈ S.points x, _) ↔ ∃ a ∈ S.points y, _
  rw [h.1, h.2]

theorem Beneath.trans {z : σ} (h : S.Beneath x y) (h' : S.Beneath y z) : S.Beneath x z :=
  ⟨fun k hk => h'.1 k (h.1 k hk), h.2.trans h'.2⟩

theorem Alike.beneath (h : S.Alike x y) (hfacts : S.facts x ⊆ S.facts y) : S.Beneath x y :=
  ⟨fun _ hk => h.mem_keysOf.mp hk, hfacts⟩

theorem Beneath.shares (h : S.Beneath x y) (h' : S.Beneath x' y') (hshares : S.Shares x x') : S.Shares y y' := by
  obtain ⟨k, hk, hk'⟩ := shares_iff.mp hshares
  exact shares_iff.mpr ⟨k, h.1 k hk, h'.1 k hk'⟩

theorem Among.image {r : σ → σ → Prop} {image : σ → σ} (himage : ∀ x ∈ hs, image x ∈ hs')
    (hr : ∀ x ∈ hs, ∀ y ∈ hs, r x y → r (image x) (image y)) (h : Relation.ReflTransGen (Among hs r) x y) :
    Relation.ReflTransGen (Among hs' r) (image x) (image y) := by
  induction h with
  | refl => exact .refl
  | tail _ hlast ih =>
    obtain ⟨hi, hk, hrel⟩ := hlast
    exact ih.tail ⟨himage _ hi, himage _ hk, hr _ hi _ hk hrel⟩

theorem Within.exists_image (h : S.Within hs hs') :
    ∃ image : σ → σ, ∀ x ∈ hs, image x ∈ hs' ∧ S.Beneath x (image x) := by
  choose! image hmem hbeneath using h
  exact ⟨image, fun x hx => ⟨hmem x hx, hbeneath x hx⟩⟩

theorem Within.joined {image : σ → σ} (himage : ∀ x ∈ hs, image x ∈ hs' ∧ S.Beneath x (image x))
    (h : S.Joined hs x y) : S.Joined hs' (image x) (image y) :=
  Among.image (fun x hx => (himage x hx).1) (fun x hx y hy => (himage x hx).2.shares (himage y hy).2) h

theorem Within.roomy (h : S.Within hs hs') (hroom : S.Roomy hs') : S.Roomy hs := by
  obtain ⟨image, himage⟩ := h.exists_image
  intro x hx
  refine S.fits_mono ?_ (hroom (image x) (himage x hx).1)
  rintro f ⟨y, hy, hjoined, hf⟩
  exact ⟨image y, (himage y hy).1, Within.joined himage hjoined, (himage y hy).2.2 hf⟩

theorem Recurs.of_subset (S : Scheme σ K A Z F) (h : hs ⊆ hs') : S.Recurs hs hs' := fun x hx =>
  ⟨x, h hx, .refl S x, Set.Subset.refl _⟩

theorem Recurs.within (h : S.Recurs hs hs') : S.Within hs hs' := by
  intro x hx
  obtain ⟨y, hy, hlike, hfacts⟩ := h x hx
  exact ⟨y, hy, hlike.beneath hfacts⟩

theorem Recurs.steady (h : S.Recurs hs hs') {R : Set σ} (hR : S.Consistent R) (hsub : ∀ y ∈ hs', y ∈ R)
    (hroom : S.Roomy hs') (hy : y ∈ hs') (hlike : S.Alike x y) : S.Steady hs x := by
  choose! image hmem himage _ using h
  refine hR.steady image (fun x hx => ⟨hsub _ (hmem x hx), himage x hx⟩) (hsub y hy) hlike (hroom.mono ?_)
  refine append_subset.mpr ⟨fun z hz => ?_, cons_subset.mpr ⟨hy, nil_subset _⟩⟩
  obtain ⟨x, hx, rfl⟩ := mem_map.mp hz
  exact hmem x hx

theorem Recurs.steadyAll (h : S.Recurs hs hs') {R : Set σ} (hR : S.Consistent R) (hsub : ∀ y ∈ hs', y ∈ R)
    (hroom : S.Roomy hs') : ∀ x ∈ hs, S.Steady hs x := by
  intro x hx
  obtain ⟨y, hy, hlike, _⟩ := h x hx
  exact h.steady hR hsub hroom hy hlike

/-- **Values that recur among consistent ones are held by class.** -/
theorem Recurs.exists_grouped (h : S.Recurs hs hs') {R : Set σ} (hR : S.Consistent R) (hsub : ∀ y ∈ hs', y ∈ R)
    (hroom : S.Roomy hs') (hok : ∀ x ∈ hs, S.Ok x) :
    ∃ owner, S.Grouped hs (Slots.readAll S.keysOf S.merge S.later hs) owner := by
  refine Scheme.exists_grouped (fun l hl x hx => ?_) hok (h.within.roomy hroom)
  obtain ⟨y, hy, hlike, _⟩ := h x hx
  exact Recurs.steady (fun z hz => h z (hl hz)) hR hsub hroom hy hlike

end Within

/-! ## Values that a class covers -/

def TracedTo (hs : List σ) (x : σ) (k : K) : Prop := ∃ y ∈ hs, S.Joined hs x y ∧ S.Traced hs y k

structure Covers (hs : List σ) (x y : σ) : Prop where
  mem : x ∈ hs
  traced : ∀ k ∈ S.keysOf y, S.TracedTo hs x k
  facts : S.facts y ⊆ S.classFacts hs x

def Covered (hs : List σ) (y : σ) : Prop := ∃ x, S.Covers hs x y

def Knows (hs : List σ) (k : K) (f : F) : Prop := ∃ x ∈ hs, S.TracedTo hs x k ∧ f ∈ S.classFacts hs x

section Covers

variable {S} {hs hs' found found' : List σ} {x y z : σ} {k : K} {f : F}

theorem traced_self (hx : x ∈ hs) (hk : k ∈ S.keysOf x) : S.Traced hs x k := by
  obtain ⟨a, ha, hkey⟩ := S.mem_keysOf.mp hk
  exact ⟨a, ha, x, hx, .refl, .inl rfl, hkey⟩

theorem tracedTo_self (hx : x ∈ hs) (hk : k ∈ S.keysOf x) : S.TracedTo hs x k := ⟨x, hx, .refl, traced_self hx hk⟩

theorem classFacts_self (hx : x ∈ hs) : S.facts x ⊆ S.classFacts hs x := fun _ hf => ⟨x, hx, .refl, hf⟩

theorem exists_key (S : Scheme σ K A Z F) (x : σ) : ∃ k, k ∈ S.keysOf x := by
  obtain ⟨a, ha⟩ := S.exists_point x
  exact ⟨_, S.mem_keysOf.mpr ⟨a, ha, rfl⟩⟩

theorem Beneath.covered (h : S.Beneath y x) (hx : x ∈ hs) : S.Covered hs y :=
  ⟨x, hx, fun k hk => tracedTo_self hx (h.1 k hk), h.2.trans (classFacts_self hx)⟩

theorem Covered.beneath (h : S.Covered hs x) (hbeneath : S.Beneath y x) : S.Covered hs y := by
  obtain ⟨z, hz⟩ := h
  exact ⟨z, hz.mem, fun k hk => hz.traced k (hbeneath.1 k hk), hbeneath.2.trans hz.facts⟩

theorem Covered.knows (h : S.Covered hs y) (hk : k ∈ S.keysOf y) (hf : f ∈ S.facts y) : S.Knows hs k f := by
  obtain ⟨x, hx⟩ := h
  exact ⟨x, hx.mem, hx.traced k hk, hx.facts hf⟩

/-! ### Adding values -/

theorem Recurs.exists_image (h : S.Recurs hs hs') : ∃ image : σ → σ, ∀ x ∈ hs, image x ∈ hs' ∧
    (∀ k, S.TracedTo hs x k → S.TracedTo hs' (image x) k) ∧ S.classFacts hs x ⊆ S.classFacts hs' (image x) := by
  choose! image hmem hlike hfacts using h
  have hjoined : ∀ {x y}, S.Joined hs x y → S.Joined hs' (image x) (image y) :=
    Within.joined fun x hx => ⟨hmem x hx, (hlike x hx).beneath (hfacts x hx)⟩
  refine ⟨image, fun x hx => ⟨hmem x hx, fun k => ?_, ?_⟩⟩
  · rintro ⟨y, hy, hxy, a, ha, j, hj, hchain, hlabel, hkey⟩
    have hchain' : S.Chained hs' (image j) (image y) :=
      Among.image hmem (fun x hx y hy => (hlike x hx).near (hlike y hy)) hchain
    refine ⟨image y, hmem y hy, hjoined hxy, a, (hlike y hy).1 ▸ ha, image j, hmem j hj, hchain', ?_, ?_⟩
    · rw [← (hlike j hj).2]
      exact hlabel.imp_left (congrArg image)
    · rw [← (hlike j hj).2]
      exact hkey
  · rintro f ⟨y, hy, hxy, hf⟩
    exact ⟨image y, hmem y hy, hjoined hxy, hfacts y hy hf⟩

theorem Covered.recurs (h : S.Covered hs y) (hrecurs : S.Recurs hs hs') : S.Covered hs' y := by
  obtain ⟨image, himage⟩ := hrecurs.exists_image
  obtain ⟨x, hx⟩ := h
  obtain ⟨hmem, htraced, hfacts⟩ := himage x hx.mem
  exact ⟨image x, hmem, fun k hk => htraced k (hx.traced k hk), hx.facts.trans hfacts⟩

theorem Knows.recurs (h : S.Knows hs k f) (hrecurs : S.Recurs hs hs') : S.Knows hs' k f := by
  obtain ⟨image, himage⟩ := hrecurs.exists_image
  obtain ⟨x, hx, hk, hf⟩ := h
  obtain ⟨hmem, htraced, hfacts⟩ := himage x hx
  exact ⟨image x, hmem, htraced k hk, hfacts hf⟩

/-! ### Steady chains -/

theorem joined_of_traced (hsteady : ∀ x ∈ hs, S.Steady hs x) (hown : S.Steady hs y)
    (hcovers : ∀ k ∈ S.keysOf y, S.TracedTo hs x k) (hk : k ∈ S.keysOf y) (htraced : S.Traced hs z k) :
    S.Joined hs x z := by
  -- A value of the class it is traced to shares a key, which is traced to the class that covers.
  obtain ⟨i, hi, hzi, hshares⟩ := exists_shares_of_traced hown htraced hk
  obtain ⟨k', hk', hky⟩ := shares_iff.mp hshares
  obtain ⟨j, _, hxj, htraced'⟩ := hcovers k' hky
  obtain ⟨l, hl, hjl, hlshares⟩ := exists_shares_of_traced (hsteady i hi) htraced' hk'
  exact ((hxj.trans hjl).tail ⟨hl, hi, hlshares⟩).trans hzi.symm

theorem classFacts_congr (h : S.Joined hs x y) : S.classFacts hs x = S.classFacts hs y := by
  ext f
  exact exists_congr fun z => and_congr_right fun _ => and_congr_left fun _ => ⟨h.symm.trans, h.trans⟩

theorem Covered.of_knows (hsteady : ∀ x ∈ hs, S.Steady hs x) (hown : S.Steady hs y) (h : S.Covered hs z)
    (hkeys : ∀ k ∈ S.keysOf y, k ∈ S.keysOf z)
    (hfacts : ∀ f ∈ S.facts y, f ∈ S.facts z ∨ ∃ k ∈ S.keysOf y, S.Knows hs k f) : S.Covered hs y := by
  obtain ⟨x, hx⟩ := h
  have htraced : ∀ k ∈ S.keysOf y, S.TracedTo hs x k := fun k hk => hx.traced k (hkeys k hk)
  refine ⟨x, hx.mem, htraced, fun f hf => ?_⟩
  rcases hfacts f hf with hf | ⟨k, hk, i, hi, ⟨j, _, hij, hj⟩, hf⟩
  · exact hx.facts hf
  · have hjoined := joined_of_traced hsteady hown htraced hk hj
    rw [classFacts_congr (hjoined.trans hij.symm)]
    exact hf

/-- **What a slot holds is covered by the class it was folded from.** -/
theorem Grouped.covers {s : Slots K σ} {owner : σ → ℕ} (hg : S.Grouped hs s owner)
    (hsteady : ∀ x ∈ hs, S.Steady hs x) (hy : y ∈ s.values) : S.Covered hs y := by
  obtain ⟨slot, hheld⟩ := Slots.mem_values.mp hy
  obtain ⟨x, hx, rfl⟩ := (hg.live slot).mp ⟨y, hheld⟩
  have hfacts := hg.facts x hx y hheld
  refine ⟨x, hx, fun k hk => ?_, fun f hf => ?_⟩
  · obtain ⟨a, ha, rfl⟩ := S.mem_keysOf.mp hk
    obtain ⟨z, hz, howner, hpoint⟩ := (hfacts _).mp ha
    obtain ⟨⟨j, hj, hjowner, hlabel⟩, _⟩ := hg.label x hx y hheld
    have hnone := (hg.label z hz y (howner ▸ hheld)).2
    refine ⟨z, hz, (hg.joined x hx z hz).mp howner.symm, traced_of_label hsteady hz ?_ hnone hpoint⟩
    exact ⟨j, hj, (hg.joined j hj z hz).mp (hjowner.trans howner.symm), hlabel⟩
  · obtain ⟨z, hz, howner, hzf⟩ := (hfacts f).mp hf
    exact ⟨z, hz, (hg.joined x hx z hz).mp howner.symm, hzf⟩

theorem eq_of_joined {leaders : List σ} (hapart : leaders.Pairwise fun x y => ¬ S.Joined hs x y) (hx : x ∈ leaders)
    (hy : y ∈ leaders) (h : S.Joined hs x y) : x = y := by
  by_contra hne
  have : Std.Symm fun x y => ¬ S.Joined hs x y := ⟨fun _ _ hxy hyx => hxy hyx.symm⟩
  exact hapart.forall hx hy hne h

/-- **Lists that say the same are grouped into values that state the same.** -/
theorem Partitions.perm (hsteady : ∀ x ∈ hs, S.Steady hs x) (hsteady' : ∀ y ∈ hs', S.Steady hs y)
    (hwithin : S.Within hs hs') (hcovered : ∀ y ∈ hs', S.Covered hs y) (h : S.Partitions hs found)
    (h' : S.Partitions hs' found') : (found.map S.facts).Perm (found'.map S.facts) := by
  obtain ⟨image, himage⟩ := hwithin.exists_image
  choose! cover hcover using hcovered
  have hforth : ∀ {x y}, S.Joined hs x y → S.Joined hs' (image x) (image y) := Within.joined himage
  -- Values of the longer list that share a key are covered by one class.
  have hback : ∀ {x y}, S.Joined hs' x y → S.Joined hs (cover x) (cover y) := by
    intro x y hjoined
    induction hjoined with
    | refl => exact .refl
    | @tail i j _ hlast ih =>
      obtain ⟨hi, hj, hshares⟩ := hlast
      obtain ⟨k, hki, hkj⟩ := shares_iff.mp hshares
      obtain ⟨z, _, hiz, htraced⟩ := (hcover i hi).traced k hki
      exact ih.trans (hiz.trans (joined_of_traced hsteady (hsteady' j hj) (hcover j hj).traced hkj htraced).symm)
  have hthere : ∀ x ∈ hs, S.Joined hs (cover (image x)) x := by
    intro x hx
    obtain ⟨hmem, hbeneath⟩ := himage x hx
    obtain ⟨k, hk⟩ := S.exists_key x
    exact joined_of_traced hsteady (hsteady' _ hmem) (hcover _ hmem).traced (hbeneath.1 k hk) (traced_self hx hk)
  have hhere : ∀ y ∈ hs', S.Joined hs' (image (cover y)) y := by
    intro y hy
    obtain ⟨k, hk⟩ := S.exists_key y
    obtain ⟨z, hz, hjoined, htraced⟩ := (hcover y hy).traced k hk
    obtain ⟨i, hi, hzi, hshares⟩ := exists_shares_of_traced (hsteady' y hy) htraced hk
    obtain ⟨hmem, hbeneath⟩ := himage i hi
    exact (hforth (hjoined.trans hzi)).tail ⟨hmem, hy, hbeneath.shares ⟨fun _ hk => hk, Set.Subset.refl _⟩ hshares⟩
  have hfacts : ∀ x ∈ hs, S.classFacts hs x = S.classFacts hs' (image x) := by
    intro x hx
    refine Set.Subset.antisymm ?_ ?_
    · rintro f ⟨y, hy, hjoined, hf⟩
      exact ⟨image y, (himage y hy).1, hforth hjoined, (himage y hy).2.2 hf⟩
    · rintro f ⟨y, hy, hjoined, hf⟩
      rw [← classFacts_congr (hthere x hx), classFacts_congr (hback hjoined)]
      exact (hcover y hy).facts hf
  obtain ⟨leaders, hsub, hapart, hall, hfound⟩ := h
  obtain ⟨leaders', hsub', hapart', hall', hfound'⟩ := h'
  -- Every leader of the one list leads to the one of its class in the other.
  have hlead : ∀ x ∈ leaders, ∃ y ∈ leaders', S.Joined hs' y (image x) := fun x hx => hall' _ (himage x (hsub hx)).1
  choose! lead hleadMem hleadJoined using hlead
  have hsame : found.map S.facts = (leaders.map lead).map (S.classFacts hs') := by
    rw [hfound, map_map]
    refine map_congr_left fun x hx => ?_
    rw [Function.comp_apply, hfacts x (hsub hx), classFacts_congr (hleadJoined x hx)]
  have hnodup : ∀ {hs leaders : List σ}, leaders.Pairwise (fun x y => ¬ S.Joined hs x y) → leaders.Nodup := by
    intro hs leaders hapart
    refine hapart.imp fun {x y} hne heq => hne ?_
    rw [heq]
    exact .refl
  have hperm : (leaders.map lead).Perm leaders' := by
    refine (perm_ext_iff_of_nodup ?_ (hnodup hapart')).mpr fun y => ?_
    · refine (hnodup hapart).map_on fun x hx y hy heq => eq_of_joined hapart hx hy ?_
      have hjoined := hback ((hleadJoined x hx).symm.trans (heq ▸ hleadJoined y hy))
      exact ((hthere x (hsub hx)).symm.trans hjoined).trans (hthere y (hsub hy))
    · rw [mem_map]
      constructor
      · rintro ⟨x, hx, rfl⟩
        exact hleadMem x hx
      · intro hy
        obtain ⟨x, hx, hjoined⟩ := hall (cover y) (hcover y (hsub' hy)).mem
        refine ⟨x, hx, eq_of_joined hapart' (hleadMem x hx) hy ?_⟩
        exact (hleadJoined x hx).trans ((hforth hjoined).trans (hhere y (hsub' hy)))
  rw [hsame, hfound']
  exact hperm.map _

end Covers

end Zond.Scheme
