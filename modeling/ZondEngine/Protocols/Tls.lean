import ZondEngine.Model.Tls

/-!
# A server's first answer

What a record opens with is read through the lengths the server declares. The handshake message is read only when all of
it has arrived, so more bytes never change an answer (`answer_stable`).
-/

namespace Zond

open List

def TlsVersion.fromCode : ℕ → Option TlsVersion
  | 0x0300 => some .ssl30
  | 0x0301 => some .tls10
  | 0x0302 => some .tls11
  | 0x0303 => some .tls12
  | 0x0304 => some .tls13
  | _ => none

namespace Tls

abbrev Bytes := List UInt8

def be16 (hi lo : UInt8) : ℕ := hi.toNat * 2 ^ 8 + lo.toNat

def HELLO_RETRY_RANDOM : Bytes :=
  [0xCF, 0x21, 0xAD, 0x74, 0xE5, 0x9A, 0x61, 0x11, 0xBE, 0x1D, 0x8C, 0x02, 0x1E, 0x65, 0xB8, 0x91,
    0xC2, 0xA2, 0x11, 0x16, 0x7A, 0xBB, 0x8C, 0x5E, 0x07, 0x9E, 0x09, 0xE2, 0xC8, 0xA8, 0x33, 0x9C]

inductive ServerResponse
  | alert (level description : UInt8)
  | hello (version : Option TlsVersion) (suite : ℕ) (retry : Bool)
  deriving DecidableEq

variable (bytes : Bytes)

/-- `bytes.get(start..)`. -/
def getFrom (start : ℕ) : Option Bytes := if start ≤ bytes.length then some (bytes.drop start) else none

/-- `bytes.get(..len)`. -/
def getTo (len : ℕ) : Option Bytes := if len ≤ bytes.length then some (bytes.take len) else none

def recordBody : Bytes → Option (UInt8 × Bytes)
  | content :: _ :: _ :: hi :: lo :: body => some (content, body.take (be16 hi lo))
  | _ => none

def helloMessage : Bytes → Option Bytes
  | 2 :: a :: b :: c :: rest => getTo rest (a.toNat * 2 ^ 16 + b.toNat * 2 ^ 8 + c.toNat)
  | _ => none

/-- The loop of `negotiated_version`: every turn takes four bytes at least, so their number is fuel enough. -/
def walkExtensions : (fuel : ℕ) → (rest : Bytes) → Option TlsVersion
  | fuel + 1, n₁ :: n₀ :: l₁ :: l₀ :: rest => do
    let value ← getTo rest (be16 l₁ l₀)
    if be16 n₁ n₀ = 43 then
      match value with
      | hi :: lo :: _ => TlsVersion.fromCode (be16 hi lo)
      | _ => none
    else walkExtensions fuel (rest.drop (be16 l₁ l₀))
  | _, _ => none

/-- The version a server's hello settles on. -/
def negotiatedVersion : (extensions : Bytes) → Option TlsVersion
  | hi :: lo :: rest => walkExtensions rest.length (rest.take (be16 hi lo))
  | _ => none

/-- Reads the version and suite a server chose. -/
def readServerHello (body : Bytes) : Option ServerResponse := do
  let message ← helloMessage body
  let legacyVersion := be16 (← message[0]?) (← message[1]?)
  let random ← (getFrom message 2).bind (getTo · 32)
  let sessionLen ← message[34]?
  let rest ← getFrom message (35 + sessionLen.toNat)
  let suite := be16 (← rest[0]?) (← rest[1]?)
  -- A hello of TLS 1.2 may end before its compression method and extensions.
  let version := ((getFrom rest 3).bind negotiatedVersion).or (TlsVersion.fromCode legacyVersion)
  return .hello version suite (random == HELLO_RETRY_RANDOM)

/-- The alert or the hello a record holds. -/
def readResponse : Option ServerResponse :=
  match recordBody bytes with
  | some (21, level :: description :: _) => some (.alert level description)
  | some (22, body) => readServerHello body
  | _ => none

def serverHelloEnd : Option ℕ :=
  match recordBody bytes with
  | some (22, body) => (helloMessage body).map fun message => 5 + 4 + message.length
  | _ => none

section Arriving

variable {bytes body message : Bytes} {content : UInt8}

/-- What arrives later only lengthens the body. -/
theorem recordBody_append (h : recordBody bytes = some (content, body)) (more : Bytes) :
    body.length + 5 ≤ bytes.length ∧ ∃ later, recordBody (bytes ++ more) = some (content, body ++ later) := by
  unfold recordBody at h
  split at h
  · next hi lo rest =>
    cases h
    exact ⟨by simp, more.take (be16 hi lo - rest.length), by simp [recordBody, take_append]⟩
  · cases h

/-- A message is read whole or not at all. -/
theorem helloMessage_append (h : helloMessage body = some message) (later : Bytes) :
    helloMessage (body ++ later) = some message ∧ message.length + 4 ≤ body.length := by
  unfold helloMessage at h
  split at h
  · next a b c rest =>
    unfold getTo at h
    split at h
    · next hle =>
      cases h
      refine ⟨?_, by simp⟩
      rw [cons_append, cons_append, cons_append, cons_append, helloMessage, getTo, take_append_of_le_length hle,
        if_pos (by rw [length_append]; omega)]
    · cases h
  · cases h

theorem readServerHello_append {response : ServerResponse} (h : readServerHello body = some response) (later : Bytes) :
    readServerHello (body ++ later) = some response := by
  unfold readServerHello at h ⊢
  obtain ⟨message, hmessage, h⟩ := Option.bind_eq_some_iff.mp h
  rw [(helloMessage_append hmessage later).1]
  exact h

end Arriving

/-- **An answer cut short never reads as a different answer**: what was read of some bytes is read of any more. -/
theorem answer_stable (bytes more : Bytes) :
    (∀ response, readResponse bytes = some response → readResponse (bytes ++ more) = some response) ∧
      ∀ n, serverHelloEnd bytes = some n → n ≤ bytes.length ∧ serverHelloEnd (bytes ++ more) = some n := by
  constructor
  · intro response h
    unfold readResponse at h
    split at h
    · next hbody =>
      obtain ⟨-, later, hmore⟩ := recordBody_append hbody more
      simpa [readResponse, hmore] using h
    · next hbody =>
      obtain ⟨-, later, hmore⟩ := recordBody_append hbody more
      simpa [readResponse, hmore] using readServerHello_append h later
    · cases h
  · intro n h
    unfold serverHelloEnd at h
    split at h
    · next hbody =>
      obtain ⟨hlength, later, hmore⟩ := recordBody_append hbody more
      obtain ⟨message, hmessage, rfl⟩ := Option.map_eq_some_iff.mp h
      obtain ⟨hmessage, hle⟩ := helloMessage_append hmessage later
      exact ⟨by omega, by simp [serverHelloEnd, hmore, hmessage]⟩
    · cases h

theorem answer_stable_handshakeFailure : readResponse ([21, 3, 3, 0, 2, 2, 40] ++ [21]) = some (.alert 2 40) ∧
      serverHelloEnd ([22, 3, 3, 0, 5, 2, 0, 0, 1, 3] ++ [22]) = some 10 :=
  ⟨(answer_stable [21, 3, 3, 0, 2, 2, 40] [21]).1 (.alert 2 40) (by decide),
    ((answer_stable [22, 3, 3, 0, 5, 2, 0, 0, 1, 3] [22]).2 10 (by decide)).2⟩

end Tls

end Zond
