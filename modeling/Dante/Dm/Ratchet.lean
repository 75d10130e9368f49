import Mathlib.Data.List.AList
import Dante.Crypto.Primitives
import Dante.Library.Method
import Dante.Proto.Enc

/-!
The Double Ratchet with plain headers. A method that takes `&mut self` and
returns a `Result` is a computation that may fail and keeps the state it has
reached, so a failed call can leave a changed ratchet behind. `decrypt` is given
the secret that `AgreeSecret::generate` returns if it is called.
-/

namespace Dante.Dm

open Crypto Enc

section Kdf

/-- The two parts of an array of `m + n` bytes. -/
def splitArray {m n : Nat} (array : ByteArr (m + n)) : ByteArr m × ByteArr n :=
  (⟨array.toList.take m, by simp⟩, ⟨array.toList.drop m, by simp⟩)

/-- `DaNTe/DR/root/v1`. -/
def rootInfo : Bytes := "DaNTe/DR/root/v1".toUTF8.toList

/-- `DaNTe/DR/msg/v1`. -/
def msgInfo : Bytes := "DaNTe/DR/msg/v1".toUTF8.toList

variable (P : Primitives)

def kdfRk (rk dhOut : Key) : Key × Key :=
  let prk := P.extract rk.toList dhOut.toList
  splitArray (P.expand prk rootInfo (32 + 32))

def kdfCk (ck : Key) : Key × Key :=
  let mk := P.hmacSha256 ck.toList [0x01]
  let nextCk := P.hmacSha256 ck.toList [0x02]
  (nextCk, mk)

/-- The AEAD key and nonce of a message key. -/
def messageKeys (mk : Key) : Key × ByteArr 24 :=
  let prk := P.extract (ByteArr.fill 32 0).toList mk.toList
  splitArray (P.expand prk msgInfo (32 + 24))

/-- The chain key after `i` messages of the chain that starts with `ck`. -/
def chainKey (ck : Key) : Nat → Key
  | 0 => ck
  | i + 1 => (kdfCk P (chainKey ck i)).1

def messageKey (ck : Key) (i : Nat) : Key := (kdfCk P (chainKey P ck i)).2

end Kdf

inductive DmError where
  | crypto (error : CryptoError)
  | badPrekeySignature
  | unknownOneTimePrekey
  | tooManySkipped
  | notReady (direction : String)
  | decrypt
  | fileIntegrity
  deriving DecidableEq, Repr

def maxSkip : UInt32 := 1000

structure Header where
  /-- The sender's ratchet public key. -/
  dh : Key
  /-- The length of the previous sending chain. -/
  pn : UInt32
  /-- The message's index in its chain. -/
  n : UInt32
  deriving DecidableEq

def Header.encode (header : Header) : Bytes :=
  Writer.fixed header.dh ++ Writer.u32 header.pn ++ Writer.u32 header.n

abbrev SkippedKeys := AList (fun _ : Key × UInt32 => Key)

structure Ratchet where
  dhs : Key
  dhr : Option Key
  rk : Key
  cks : Option Key
  ckr : Option Key
  ns : UInt32
  nr : UInt32
  pn : UInt32
  skipped : SkippedKeys
  deriving DecidableEq

abbrev RatchetM := Method Ratchet DmError

namespace Ratchet

variable (P : Primitives)

/-- `init_alice`, with the secret that `generate` returns. -/
def initAlice (sk theirRatchetPub dhs : Key) : Except DmError Ratchet := do
  let dhOut ← (agree P dhs theirRatchetPub).mapError .crypto
  let (rk, cks) := kdfRk P sk dhOut
  pure { dhs := dhs, dhr := some theirRatchetPub, rk := rk, cks := some cks, ckr := none,
         ns := 0, nr := 0, pn := 0, skipped := ∅ }

def initBob (sk ratchetSecret : Key) : Ratchet :=
  { dhs := ratchetSecret, dhr := none, rk := sk, cks := none, ckr := none,
    ns := 0, nr := 0, pn := 0, skipped := ∅ }

def aadWithHeader (ad : Bytes) (header : Header) : Bytes := ad ++ header.encode

/-- The free function `open`. -/
def openMessage (msgKey : Key) (header : Header) (ct ad : Bytes) : Except DmError Bytes :=
  let (key, nonce) := messageKeys P msgKey
  match P.xchachaOpen key nonce ct (aadWithHeader ad header) with
  | some plaintext => .ok plaintext
  | none => .error .decrypt

def encrypt (plaintext ad : Bytes) : RatchetM (Header × Bytes) := do
  let self ← get
  match self.cks with
  | none => throw (.notReady "send")
  | some cks =>
    let (nextCk, msgKey) := kdfCk P cks
    let header : Header := { dh := P.x25519Public self.dhs, pn := self.pn, n := self.ns }
    set { self with cks := some nextCk, ns := self.ns + 1 }
    let (key, nonce) := messageKeys P msgKey
    let ct := P.xchachaSeal key nonce plaintext (aadWithHeader ad header)
    pure (header, ct)

/-- `while self.nr < until`, from the chain key `ck`; returns the last chain key. -/
def skipLoop (dhr : Key) (last : UInt32) (ck : Key) (self : Ratchet) : Key × Ratchet :=
  if _h : self.nr < last then
    let (nextCk, msgKey) := kdfCk P ck
    skipLoop dhr last nextCk
      { self with skipped := self.skipped.insert (dhr, self.nr) msgKey, nr := self.nr + 1 }
  else
    (ck, self)
termination_by last.toNat - self.nr.toNat
decreasing_by
  have hlt : self.nr.toNat < last.toNat := UInt32.lt_iff_toNat_lt.mp _h
  have hbound := last.toNat_lt
  simp only [UInt32.toNat_add, UInt32.toNat_one]
  omega

/-- `skip_message_keys`. The addition wraps, as in a release build. The `expect`
cannot fail: a ratchet with a receiving chain has a peer key. -/
def skipMessageKeys (last : UInt32) : RatchetM Unit := do
  let self ← get
  match self.ckr with
  | none => pure ()
  | some ck =>
    if self.nr + maxSkip < last then
      throw .tooManySkipped
    let (ck', self') := skipLoop P (self.dhr.getD (.fill 32 0)) last ck self
    set { self' with ckr := some ck' }

def dhRatchet (fresh : Key) (header : Header) : RatchetM Unit := do
  modify fun self => { self with pn := self.ns, ns := 0, nr := 0, dhr := some header.dh }
  let dh1 ← Method.lift ((agree P (← get).dhs header.dh).mapError .crypto)
  modify fun self =>
    let (rk, ckr) := kdfRk P self.rk dh1
    { self with rk := rk, ckr := some ckr }
  modify fun self => { self with dhs := fresh }
  let dh2 ← Method.lift ((agree P (← get).dhs header.dh).mapError .crypto)
  modify fun self =>
    let (rk, cks) := kdfRk P self.rk dh2
    { self with rk := rk, cks := some cks }

def decrypt (fresh : Key) (header : Header) (ct ad : Bytes) : RatchetM Bytes := do
  match (← get).skipped.lookup (header.dh, header.n) with
  | some msgKey =>
    modify fun self => { self with skipped := self.skipped.erase (header.dh, header.n) }
    Method.lift (openMessage P msgKey header ct ad)
  | none =>
    if (← get).dhr ≠ some header.dh then
      skipMessageKeys P header.pn
      dhRatchet P fresh header
    skipMessageKeys P header.n
    match (← get).ckr with
    | none => throw (.notReady "receive")
    | some ckr =>
      let (nextCk, msgKey) := kdfCk P ckr
      modify fun self => { self with ckr := some nextCk, nr := self.nr + 1 }
      Method.lift (openMessage P msgKey header ct ad)

end Ratchet

end Dante.Dm
