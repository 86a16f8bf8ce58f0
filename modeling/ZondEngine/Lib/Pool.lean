import Mathlib.Algebra.Ring.Nat
import Mathlib.Data.List.Infix

/-!
# Writing into a pool

`intern` finds a value in a pool or appends it, so what an index says it says in every later pool: `Grows` is what a
writer leaves behind, and `Grows.bind` and `Grows.mapM` put writers together. An index is a word, so the pool that is
read has to be no longer than words count.
-/

namespace Zond.Pool

open List

variable {V α β γ : Type}

abbrev Writer (V β : Type) : Type := StateM (List V) β

def intern [DecidableEq V] (value : V) : Writer V UInt32 := fun pool =>
  match pool.idxOf? value with
  | some index => (UInt32.ofNat index, pool)
  | none => (UInt32.ofNat pool.length, pool ++ [value])

def internOption [DecidableEq V] : Option V → Writer V (Option UInt32)
  | none => pure none
  | some value => some <$> intern value

def Grows (w : Writer V β) (Q : List V → β → Prop) : Prop :=
  ∀ pool, pool <+: (w pool).2 ∧ ∀ whole, (w pool).2 <+: whole → whole.length ≤ 2 ^ 32 → Q whole (w pool).1

namespace Grows

variable {w : Writer V β} {Q Q' : List V → β → Prop}

theorem imp (h : Grows w Q) (himp : ∀ whole b, Q whole b → Q' whole b) : Grows w Q' :=
  fun pool => ⟨(h pool).1, fun whole hwhole hlen => himp whole _ ((h pool).2 whole hwhole hlen)⟩

theorem pure (b : β) : Grows (pure b : Writer V β) fun _ b' => b' = b :=
  fun _ => ⟨prefix_refl _, fun _ _ _ => rfl⟩

theorem bind {k : β → Writer V γ} {R : β → List V → γ → Prop} (hw : Grows w Q) (hk : ∀ b, Grows (k b) (R b)) :
    Grows (w >>= k) fun whole c => ∃ b, Q whole b ∧ R b whole c := by
  intro pool
  obtain ⟨hgrow, hread⟩ := hw pool
  obtain ⟨hgrow', hread'⟩ := hk (w pool).1 (w pool).2
  exact ⟨hgrow.trans hgrow', fun whole hwhole hlen =>
    ⟨(w pool).1, hread whole (hgrow'.trans hwhole) hlen, hread' whole hwhole hlen⟩⟩

theorem map {f : β → γ} (hw : Grows w Q) : Grows (f <$> w) fun whole c => ∃ b, Q whole b ∧ c = f b := by
  intro pool
  obtain ⟨hgrow, hread⟩ := hw pool
  exact ⟨hgrow, fun whole hwhole hlen => ⟨(w pool).1, hread whole hwhole hlen, rfl⟩⟩

theorem mapM {write : α → Writer V β} {R : α → List V → β → Prop} :
    ∀ {l : List α}, (∀ a ∈ l, Grows (write a) (R a)) →
      Grows (l.mapM write) fun whole bs => List.Forall₂ (fun a b => R a whole b) l bs
  | [], _ => (Grows.pure []).imp fun _ _ h => h ▸ .nil
  | a :: l, hwrite => by
    rw [mapM_cons]
    refine (Grows.bind (hwrite a mem_cons_self) fun b =>
      Grows.bind (mapM fun c hc => hwrite c (mem_cons_of_mem a hc)) fun bs => Grows.pure (b :: bs)).imp ?_
    rintro whole _ ⟨b, hb, bs, hbs, rfl⟩
    exact .cons hb hbs

end Grows

theorem getElem?_of_isPrefix {pool whole : List V} {index : Nat} {value : V} (h : pool[index]? = some value)
    (hwhole : pool <+: whole) (hlen : whole.length ≤ 2 ^ 32) : whole[(UInt32.ofNat index).toNat]? = some value := by
  obtain ⟨rest, rfl⟩ := hwhole
  obtain ⟨hlt, -⟩ := List.getElem?_eq_some_iff.mp h
  rw [List.length_append] at hlen
  rw [UInt32.toNat_ofNat_of_lt' (show index < 2 ^ 32 by omega), List.getElem?_append_left hlt]
  exact h

/-- **An index says the value it was handed out for.** -/
theorem grows_intern [DecidableEq V] (value : V) :
    Grows (intern value) fun whole index => whole[index.toNat]? = some value := by
  intro pool
  unfold intern
  split
  next index hindex =>
    obtain ⟨hlt, heq, -⟩ := findIdx?_eq_some_iff_getElem.mp hindex
    have hget : pool[index]? = some value := by rw [getElem?_eq_getElem hlt, beq_iff_eq.mp heq]
    exact ⟨prefix_refl _, fun whole hwhole hlen => getElem?_of_isPrefix hget hwhole hlen⟩
  next =>
    have hget : (pool ++ [value])[pool.length]? = some value := by simp
    exact ⟨prefix_append _ _, fun whole hwhole hlen => getElem?_of_isPrefix hget hwhole hlen⟩

theorem mapM_of_forall₂ {ε : Type} {read : β → Except ε α} : ∀ {l : List α} {bs : List β},
    List.Forall₂ (fun a b => read b = .ok a) l bs → bs.mapM read = .ok l
  | [], [], .nil => rfl
  | a :: l, b :: bs, .cons hb hbs => by
    rw [mapM_cons, hb, mapM_of_forall₂ hbs]
    rfl

theorem mem_of_mapM {ε : Type} {read : β → Except ε α} : ∀ {l : List α} {bs : List β},
    bs.mapM read = .ok l → ∀ b ∈ bs, ∃ a, read b = .ok a
  | _, [], _, b, hb => absurd hb not_mem_nil
  | l, first :: bs, h, b, hb => by
    rw [mapM_cons] at h
    cases hfirst : read first with
    | error e => rw [hfirst] at h; cases h
    | ok a =>
      rw [hfirst] at h
      cases hrest : bs.mapM read with
      | error e => rw [hrest] at h; cases h
      | ok rest =>
        rcases mem_cons.mp hb with rfl | hb
        · exact ⟨a, hfirst⟩
        · exact mem_of_mapM hrest b hb

end Zond.Pool
