import ZondEngine.Lib.Word
import Mathlib.Data.List.Basic

/-!
# Splitting a datagram

`fragment_ipv4` and `fragment_ipv6` cut a payload with one loop and differ in the headers they put in front. A packet is
the fields its headers are written with and the bytes behind them; a field that is `none` is left for the builder.
-/

namespace Zond.Protocols

open List

abbrev Bytes := List UInt8

inductive PacketError
  | tooLong (field : String) (actual limit : ℕ)
  | mtuTooSmall (mtu minimum : ℕ)
  | headerHasOptions (options : ℕ)
  | optionsTooLong (what : String) (options limit : ℕ)
  | optionsMisaligned (what : String) (options : ℕ)

/-! ## The loop -/

structure Piece where
  offset : ℕ
  chunk : Bytes
  more : Bool

/-- The loop over the payload: every turn takes a byte at least, so its length is fuel enough. -/
def pieces (payload : Bytes) (maxChunk : ℕ) : (fuel offset : ℕ) → List Piece
  | 0, _ => []
  | fuel + 1, offset =>
    if offset < payload.length then
      let chunk := (payload.drop offset).take maxChunk
      ⟨offset, chunk, offset + chunk.length < payload.length⟩ :: pieces payload maxChunk fuel (offset + chunk.length)
    else []

section Pieces

variable {payload : Bytes} {maxChunk : ℕ}

theorem pieces_eq_nil_iff (maxChunk : ℕ) {fuel offset : ℕ} (hfuel : payload.length ≤ offset + fuel) :
    pieces payload maxChunk fuel offset = [] ↔ payload.length ≤ offset := by
  cases fuel with
  | zero => simpa [pieces] using hfuel
  | succ fuel =>
    rw [pieces]
    split <;> simp <;> omega

theorem flatMap_pieces (hpos : 0 < maxChunk) : ∀ (fuel offset : ℕ), payload.length ≤ offset + fuel →
    (pieces payload maxChunk fuel offset).flatMap Piece.chunk = payload.drop offset
  | 0, offset, hfuel => (drop_eq_nil_of_le hfuel).symm
  | fuel + 1, offset, hfuel => by
    rw [pieces]
    split
    · next hlt =>
      rw [flatMap_cons, flatMap_pieces hpos fuel _ (by simp; omega), ← drop_drop]
      conv_rhs => rw [← take_append_drop maxChunk (payload.drop offset)]
      congr 1
      simp only [length_take, drop_drop, length_drop, drop_eq_drop_iff]
      omega
    · simp; omega

/-- Every piece, from what stands before it and what follows. -/
theorem pieces_split (hpos : 0 < maxChunk) (hunit : 8 ∣ maxChunk) {piece : Piece} {after : List Piece} :
    ∀ {fuel offset : ℕ} {before : List Piece}, payload.length ≤ offset + fuel → 8 ∣ offset →
    pieces payload maxChunk fuel offset = before ++ piece :: after →
    piece.offset = offset + (before.flatMap Piece.chunk).length ∧ 8 ∣ piece.offset ∧ piece.offset < payload.length ∧
      piece.chunk.length = min maxChunk (payload.length - piece.offset) ∧
      (piece.more = true ↔ after ≠ []) ∧ (piece.more = true → piece.chunk.length = maxChunk)
  | 0, _, _, _, _, h => by simp [pieces] at h
  | fuel + 1, offset, before, hfuel, hoffset, h => by
    by_cases hlt : offset < payload.length
    swap
    · simp [pieces, hlt] at h
    have hlength : ((payload.drop offset).take maxChunk).length = min maxChunk (payload.length - offset) := by simp
    simp only [pieces, hlt, if_true] at h
    generalize (payload.drop offset).take maxChunk = chunk at h hlength
    have hnil := pieces_eq_nil_iff maxChunk (show payload.length ≤ offset + chunk.length + fuel by omega)
    cases before with
    | nil =>
      obtain ⟨rfl, rfl⟩ := List.cons.inj h
      simp only [ne_eq, hnil, decide_eq_true_eq, flatMap_nil, length_nil]
      omega
    | cons first before =>
      obtain ⟨rfl, htail⟩ := List.cons.inj h
      have hmore : ¬ payload.length ≤ offset + chunk.length := by
        rw [← hnil, htail]
        simp
      obtain ⟨hplace, hrest⟩ := pieces_split hpos hunit (by omega) (by omega) htail
      exact ⟨by simp only [hplace, flatMap_cons, length_append]; omega, hrest⟩

end Pieces

/-! ## The headers -/

structure Ipv4 where
  (source destination : Fin (2 ^ 32))
  (dscp ecn flags fragmentOffset ttl : ℕ)
  (identification protocol totalLength checksum : Option ℕ)
  options : Bytes

structure Ipv6 where
  (source destination : Fin (2 ^ 128))
  (trafficClass hopLimit : ℕ)
  (flowLabel nextHeader payloadLength : Option ℕ)

/-- The fragment extension header: the offset in the upper thirteen bits, whether more follow in the lowest. -/
structure FragmentHeader where
  (nextHeader offsetWithFlags id : ℕ)

/-- The header with every field worked out. -/
def Ipv4.written (random : ℕ) (checksum : Ipv4 → ℕ) (header : Ipv4) (payloadLength : ℕ) : Ipv4 :=
  let written := { header with
    identification := some (header.identification.getD random)
    protocol := some (header.protocol.getD 6)
    totalLength := some (header.totalLength.getD (20 + header.options.length + payloadLength)) }
  { written with checksum := some (header.checksum.getD (checksum written)) }

variable (random : ℕ) (checksum : Ipv4 → ℕ)

def Ipv4.headerBytes (header : Ipv4) (payloadLength : ℕ) : Except PacketError Ipv4 :=
  let options := header.options.length
  if options % 4 ≠ 0 then .error (.optionsMisaligned "an IPv4 header" options)
  else if options > 40 then .error (.optionsTooLong "an IPv4 header" options 40)
  else if header.totalLength = none ∧ 20 + options + payloadLength ≥ 2 ^ 16 then
    .error (.tooLong "the IPv4 total length" (20 + options + payloadLength) (2 ^ 16 - 1))
  else .ok (header.written random checksum payloadLength)

/-- The header of one piece. -/
def Ipv4.forPiece (header : Ipv4) (identification : ℕ) (piece : Piece) : Ipv4 :=
  { header with
    identification := some identification
    flags := if piece.more then 1 else 0
    fragmentOffset := piece.offset / 8 % 2 ^ 16
    totalLength := none
    checksum := none }

/-- Cuts a packet into fragments that fit. -/
def fragmentIpv4 (header : Ipv4) (payload : Bytes) (mtu : UInt16) : Except PacketError (List (Ipv4 × Bytes)) :=
  let mtu := mtu.toNat
  if header.options ≠ [] then .error (.headerHasOptions header.options.length)
  else if 20 + payload.length > 2 ^ 16 - 1 then
    .error (.tooLong "the IPv4 total length" (20 + payload.length) (2 ^ 16 - 1))
  else if 20 + payload.length ≤ mtu then
    (header.headerBytes random checksum (payload.length % 2 ^ 16)).map fun written => [(written, payload)]
  else
    let maxChunk := (mtu - 20) / 8 * 8
    if maxChunk = 0 then .error (.mtuTooSmall mtu 28)
    else
      let identification := header.identification.getD random
      (pieces payload maxChunk payload.length 0).mapM fun piece =>
        ((header.forPiece identification piece).headerBytes random checksum (piece.chunk.length % 2 ^ 16)).map
          (·, piece.chunk)

def Ipv6.headerBytes (label : ℕ) (header : Ipv6) (payloadLength : ℕ) : Ipv6 :=
  { header with
    flowLabel := some (header.flowLabel.getD label)
    nextHeader := some (header.nextHeader.getD 6)
    payloadLength := some (header.payloadLength.getD payloadLength) }

/-- `random` is drawn once, and the flow label for every packet. -/
def fragmentIpv6 (label : ℕ → ℕ) (header : Ipv6) (payload : Bytes) (mtu : UInt16) :
    Except PacketError (List (Ipv6 × Option FragmentHeader × Bytes)) :=
  let mtu := mtu.toNat
  if payload.length > 2 ^ 16 - 1 then
    .error (.tooLong "the IPv6 fragmentable payload" (40 + 8 + payload.length) (2 ^ 16 - 1))
  else if 40 + payload.length ≤ mtu then .ok [(header.headerBytes (label 0) (payload.length % 2 ^ 16), none, payload)]
  else
    let maxChunk := (mtu - (40 + 8)) / 8 * 8
    if maxChunk = 0 then .error (.mtuTooSmall mtu 56)
    else
      let base := { header with nextHeader := some 44, payloadLength := none }
      .ok ((pieces payload maxChunk payload.length 0).map fun piece =>
        let units := piece.offset / 8 % 2 ^ 16
        (base.headerBytes (label piece.offset) ((8 + piece.chunk.length) % 2 ^ 16),
          some ⟨header.nextHeader.getD 6, units * 8 % 2 ^ 16 + piece.more.toNat, random⟩, piece.chunk))

/-! ## Reassembly -/

/-- What a receiver reads of a packet. -/
structure Fragment where
  identification : Option ℕ
  offset : ℕ
  more : Bool
  chunk : Bytes
  size : ℕ
  stated : Option ℕ

def ofIpv4 (packet : Ipv4 × Bytes) : Fragment :=
  ⟨packet.1.identification, packet.1.fragmentOffset, packet.1.flags.testBit 0, packet.2,
    20 + packet.1.options.length + packet.2.length, packet.1.totalLength⟩

def ofIpv6 (packet : Ipv6 × Option FragmentHeader × Bytes) : Fragment :=
  ⟨packet.2.1.map (·.id), (packet.2.1.elim 0 (·.offsetWithFlags)) / 8,
    (packet.2.1.elim 0 (·.offsetWithFlags)).testBit 0,
    packet.2.2, 40 + packet.2.1.elim 0 (fun _ => 8) + packet.2.2.length, packet.1.payloadLength.map (40 + ·)⟩

structure Reassembles (payload : Bytes) (mtu : ℕ) (fragments : List Fragment) : Prop where
  whole : fragments.flatMap Fragment.chunk = payload
  placed : ∀ before f after, fragments = before ++ f :: after →
    f.offset * 8 = (before.flatMap Fragment.chunk).length ∧ f.offset < 2 ^ 13 ∧ (f.more = true ↔ after ≠ []) ∧
      (after ≠ [] → 0 < f.chunk.length ∧ 8 ∣ f.chunk.length)
  grouped : ∃ identification, ∀ f ∈ fragments, f.identification = some identification
  sized : ∀ f ∈ fragments, f.size ≤ mtu ∧ f.stated = some f.size

section Reassembles

variable {payload : Bytes} {mtu overhead : ℕ} (hroom : (mtu - overhead) / 8 * 8 ≠ 0)

def fragmentOf (identification overhead : ℕ) (piece : Piece) : Fragment :=
  ⟨some identification, piece.offset / 8, piece.more, piece.chunk, overhead + piece.chunk.length,
    some (overhead + piece.chunk.length)⟩

include hroom

theorem piece_bounds {piece : Piece} (h : piece ∈ pieces payload ((mtu - overhead) / 8 * 8) payload.length 0) :
    piece.offset < payload.length ∧ piece.chunk.length ≤ payload.length ∧ overhead + piece.chunk.length ≤ mtu := by
  obtain ⟨before, after, heq⟩ := append_of_mem h
  obtain ⟨-, -, hlt, hlength, -⟩ := pieces_split (Nat.pos_of_ne_zero hroom) (Nat.dvd_mul_left 8 _) (by omega)
    (Nat.dvd_zero 8) heq
  omega

theorem reassembles_pieces (identification : ℕ) (hlong : payload.length < 2 ^ 16) : Reassembles payload mtu
    ((pieces payload ((mtu - overhead) / 8 * 8) payload.length 0).map (fragmentOf identification overhead)) := by
  have hchunk : ∀ ps : List Piece, (ps.map (fragmentOf identification overhead)).flatMap Fragment.chunk =
      ps.flatMap Piece.chunk := by simp [flatMap_map, fragmentOf]
  refine ⟨?_, fun before g after h => ?_, ⟨identification, by simp [fragmentOf]⟩, ?_⟩
  · rw [hchunk, flatMap_pieces (Nat.pos_of_ne_zero hroom) _ _ (by omega), drop_zero]
  · obtain ⟨before, rest, heq, rfl, hrest⟩ := map_eq_append_iff.mp h
    obtain ⟨p, after, rfl, rfl, rfl⟩ := map_eq_cons_iff.mp hrest
    obtain ⟨hplace, hunit, hlt, -, hmore, hfull⟩ := pieces_split (Nat.pos_of_ne_zero hroom) (Nat.dvd_mul_left 8 _)
      (by omega) (Nat.dvd_zero 8) heq
    simp only [hchunk, fragmentOf, ne_eq, map_eq_nil_iff, hmore]
    refine ⟨by omega, by omega, trivial, fun hafter => ?_⟩
    rw [hfull (hmore.mpr hafter)]
    exact ⟨Nat.pos_of_ne_zero hroom, Nat.dvd_mul_left 8 _⟩
  · simp only [mem_map, forall_exists_index, and_imp]
    rintro _ p hp rfl
    exact ⟨(piece_bounds hroom hp).2.2, rfl⟩

end Reassembles

theorem mapM_ok {α β ε : Type} {f : α → Except ε β} {g : α → β} : ∀ {l : List α}, (∀ a ∈ l, f a = .ok (g a)) →
    l.mapM f = .ok (l.map g)
  | [], _ => rfl
  | a :: l, h => by
    rw [mapM_cons, h a mem_cons_self, mapM_ok fun b hb => h b (mem_cons_of_mem a hb)]
    rfl

theorem Ipv4.headerBytes_ok {h : Ipv4} {n : ℕ} (hoptions : h.options = [])
    (hn : 20 + n < 2 ^ 16) : h.headerBytes random checksum n = .ok (h.written random checksum n) := by
  simp [headerBytes, hoptions]
  omega

/-- **A datagram is split so that it reassembles**, wherever it can be. -/
theorem fragment_exact (label : ℕ → ℕ) (payload : Bytes) (mtu : UInt16) : (∀ header : Ipv4, header.options = [] →
      ((∃ packets, fragmentIpv4 random checksum header payload mtu = .ok packets) ↔
        20 + payload.length < 2 ^ 16 ∧ (20 + payload.length ≤ mtu.toNat ∨ 20 + 8 ≤ mtu.toNat)) ∧
      ∀ packets, fragmentIpv4 random checksum header payload mtu = .ok packets → 1 < packets.length →
        Reassembles payload mtu.toNat (packets.map ofIpv4)) ∧
    ∀ header : Ipv6, ((∃ packets, fragmentIpv6 random label header payload mtu = .ok packets) ↔
        payload.length < 2 ^ 16 ∧ (40 + payload.length ≤ mtu.toNat ∨ 40 + 8 + 8 ≤ mtu.toNat)) ∧
      ∀ packets, fragmentIpv6 random label header payload mtu = .ok packets → 1 < packets.length →
        Reassembles payload mtu.toNat (packets.map ofIpv6) := by
  have hmtu := mtu.toNat_lt
  generalize hto : mtu.toNat = size at hmtu
  refine ⟨fun header hoptions => ?_, fun header => ?_⟩
  · simp only [fragmentIpv4, hto, hoptions, ne_eq, not_true_eq_false, if_false]
    split
    · simp; omega
    split
    · rw [Ipv4.headerBytes_ok _ _ hoptions (by omega)]
      simp [Except.map]
      omega
    split
    · simp; omega
    next hlong hfits hsmall =>
    rw [mapM_ok fun piece hpiece => congrArg (Except.map (·, piece.chunk)) (Ipv4.headerBytes_ok random checksum
      (h := header.forPiece _ piece) hoptions (by have := piece_bounds hsmall hpiece; omega))]
    refine ⟨by simp; omega, fun packets h _ => ?_⟩
    cases h
    rw [map_map, map_congr_left (g := fragmentOf (header.identification.getD random) 20) fun piece hpiece => ?_]
    · exact reassembles_pieces hsmall _ (by omega)
    · obtain ⟨hlt, hle, hfit⟩ := piece_bounds hsmall hpiece
      cases hmore : piece.more <;> simp [ofIpv4, fragmentOf, Ipv4.written, Ipv4.forPiece, hoptions, hmore] <;> omega
  · simp only [fragmentIpv6, hto]
    split
    · simp; omega
    split
    · simp; omega
    split
    · simp; omega
    next hlong hfits hsmall =>
    refine ⟨by simp; omega, fun packets h _ => ?_⟩
    cases h
    rw [map_map, map_congr_left (g := fragmentOf random 48) fun piece hpiece => ?_]
    · exact reassembles_pieces hsmall random (by omega)
    · obtain ⟨hlt, hle, hfit⟩ := piece_bounds hsmall hpiece
      cases hmore : piece.more <;> simp [ofIpv6, fragmentOf, Ipv6.headerBytes, hmore, Nat.testBit_zero] <;> omega

theorem fragment_exact_twice : ∃ packets : List (Ipv4 × Bytes),
    fragmentIpv4 7 (fun _ => 0) ⟨0, 0, 0, 0, 2, 0, 64, none, none, none, none, []⟩ (replicate 20 0) 36 = .ok packets ∧
      Reassembles (replicate 20 0) 36 (packets.map ofIpv4) :=
  ⟨_, rfl, ((fragment_exact 7 (fun _ => 0) (fun _ => 0) (replicate 20 0) 36).1
    ⟨0, 0, 0, 0, 2, 0, 64, none, none, none, none, []⟩ rfl).2 _ rfl (by decide)⟩

end Zond.Protocols
