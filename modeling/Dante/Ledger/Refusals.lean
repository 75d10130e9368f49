import Dante.Ledger.BodySize
import Dante.Library.Failures

/-!
The texts of the errors with which `append` refuses a record, as a relay shows them. A text is
made of fixed parts and numbers: no decoder of a body puts anything of its input into an error,
so that every text is short.
-/

namespace Dante

open Crypto Enc Identity Except Ledger

/-- `Display` of an error of the wire format. -/
def Enc.WireError.text : WireError → String
  | .eof => "unexpected end of input"
  | .trailing count => String.join [toString count, " trailing byte(s) after decode"]
  | .lengthTooLarge length =>
    String.join ["length prefix ", toString length.toNat, " exceeds remaining input"]
  | .badBool byte => String.join ["invalid boolean byte ", toString byte.toNat]
  | .badUtf8 => "invalid UTF-8 in string"
  | .badDiscriminant ty value =>
    String.join ["unknown discriminant ", toString value.toNat, " for ", ty]
  | .invalid what => String.join ["invalid ", what]

def Identity.IdentityError.text : IdentityError → String
  | .wire inner => inner.text
  | .wrongRecordKind => "record kind does not carry an identity body"
  | .fieldTooLong => "field exceeds its maximum length"
  | .badSignature => "signature verification failed"
  | .badPow => "proof of work is invalid"
  | .badStatus => "invalid profile status"

def Ledger.LedgerError.text : LedgerError → String
  | .unsupportedVersion v => String.join ["unsupported record version ", toString v.toNat]
  | .timestampInFuture createdMs nowMs =>
    String.join ["record timestamp ", toString createdMs.toNat, " is beyond now (",
      toString nowMs.toNat, ") + allowed skew"]
  | .badSignature => "record signature is invalid"
  | .badPow => "record proof of work is invalid"
  | .body inner => inner.text
  | .wire inner => inner.text
  | .tombstoneNotAllowed => "tombstone records cannot be appended directly"
  | .alreadyAnnounced => "identity is already announced"
  | .unknownIdentity => "unknown identity"
  | .identityEvaporated => "identity has evaporated"
  | .identityRevoked => "identity has been revoked"
  | .notChainTip => "record is not signed by the current chain key"
  | .authorMismatch => "record author does not match the body"
  | .nonMonotonic => "record timestamp is not monotonic for its subject"
  | .keyAlreadyInUse => "the new key is already in use by another identity"
  | .unknownServer => "unknown server"
  | .fieldTooLong => "field exceeds its maximum length"

/-- A number of 64 bits has at most twenty digits; four bytes each is more than enough. -/
theorem utf8ByteSize_toString {n : Nat} (h : n < 2 ^ 64) : (toString n).utf8ByteSize ≤ 80 := by
  have hdigits : n.repr.length ≤ 20 :=
    (Nat.length_repr_le_iff (by decide)).mpr (h.trans (by decide))
  have hchars : ∀ chars : List Char, (chars.map Char.utf8Size).sum ≤ 4 * chars.length := by
    intro chars
    induction chars with
    | nil => exact Nat.le_refl 0
    | cons c rest ih =>
      have hc := c.utf8Size_le_four
      simp only [List.map_cons, List.sum_cons, List.length_cons]
      omega
  have hsize := hchars n.repr.toList
  rw [← String.utf8ByteSize_ofList_eq_sum, String.ofList_toList, String.length_toList] at hsize
  exact hsize.trans (by omega)

/-- An error whose text has nothing in it but fixed parts and numbers of 64 bits. -/
def Enc.WireError.Plain : WireError → Prop
  | .trailing count => count < 2 ^ 64
  | .badDiscriminant _ _ | .invalid _ => False
  | _ => True

/-- A text of fixed parts and numbers is short if its parts are. -/
theorem size_join_le {parts : List String} (hcount : parts.length ≤ 5)
    (hparts : parts.Forall (·.utf8ByteSize ≤ 80)) :
    (String.join parts).utf8ByteSize ≤ 400 := by
  have hsum := List.sum_le_card_nsmul (parts.map String.utf8ByteSize) 80
    (by simpa [List.forall_iff_forall_mem] using hparts)
  rw [List.length_map, smul_eq_mul] at hsum
  rw [String.utf8ByteSize_join]
  omega

theorem Enc.WireError.Plain.size_le {e : WireError} (h : e.Plain) :
    e.text.utf8ByteSize ≤ 400 := by
  cases e with
  | eof | badUtf8 => decide
  | trailing count =>
    exact size_join_le (by simp) ⟨utf8ByteSize_toString h, by decide⟩
  | lengthTooLarge length =>
    exact size_join_le (by simp) ⟨by decide, utf8ByteSize_toString length.toNat_lt, by decide⟩
  | badBool byte =>
    have hbyte : byte.toNat < 2 ^ 64 := Nat.lt_trans byte.toNat_lt (by decide)
    exact size_join_le (by simp) ⟨by decide, utf8ByteSize_toString hbyte⟩
  | badDiscriminant ty value | invalid what => exact h.elim

/-- An error of the ledger with a plain one inside, if it has one inside. -/
def Ledger.LedgerError.Plain : LedgerError → Prop
  | .wire inner | .body (.wire inner) => inner.Plain
  | _ => True

theorem Ledger.LedgerError.Plain.size_le {e : LedgerError} (h : e.Plain) :
    e.text.utf8ByteSize ≤ 400 := by
  cases e with
  | wire inner => exact WireError.Plain.size_le h
  | body error =>
    cases error with
    | wire inner => exact WireError.Plain.size_le h
    | _ => decide
  | unsupportedVersion v =>
    have hversion : v.toNat < 2 ^ 64 := Nat.lt_trans v.toNat_lt (by decide)
    exact size_join_le (by simp) ⟨by decide, utf8ByteSize_toString hversion⟩
  | timestampInFuture createdMs nowMs =>
    exact size_join_le (by simp) ⟨by decide, utf8ByteSize_toString createdMs.toNat_lt,
      by decide, utf8ByteSize_toString nowMs.toNat_lt, by decide⟩
  | _ => decide

section Readers

open Parser Reader

theorem plain_take (n : Nat) : FailsIn WireError.Plain (take n) := by
  intro input
  rw [run_take]
  split
  · exact failsIn_error trivial
  · exact failsIn_ok _

theorem plain_u8 : FailsIn WireError.Plain u8 := (plain_take 1).map _

theorem plain_u32 : FailsIn WireError.Plain u32 := (plain_take 4).map _

theorem plain_remaining : FailsIn WireError.Plain remaining := failsIn_get.map _

theorem plain_bool : FailsIn WireError.Plain bool := by
  refine plain_u8.bind fun byte => ?_
  split
  · exact Parser.failsIn_pure _
  · exact Parser.failsIn_pure _
  · exact failsIn_throw trivial

theorem plain_bytes : FailsIn WireError.Plain bytes := by
  refine plain_u32.bind fun len => plain_remaining.bind fun left => ?_
  dsimp only
  split
  · exact Parser.FailsIn.bind (failsIn_throw trivial) fun _ => (plain_take _).map _
  · exact (plain_take _).map _

theorem plain_string : FailsIn WireError.Plain string := by
  refine plain_bytes.bind fun found => ?_
  split
  · exact Parser.failsIn_pure _
  · exact failsIn_throw trivial

theorem plain_pow : FailsIn WireError.Plain Pow.read :=
  plain_u32.bind fun _ => plain_u32.bind fun _ => plain_u8.bind fun _ => (plain_take 16).map _

theorem plain_announce : FailsIn WireError.Plain IdentityAnnounce.read :=
  (plain_take 32).bind fun _ => (plain_take 64).bind fun _ => plain_pow.bind fun _ =>
    plain_string.map _

theorem plain_rotation : FailsIn WireError.Plain KeyRotation.read :=
  (plain_take 32).bind fun _ => (plain_take 32).bind fun _ => (plain_take 32).bind fun _ =>
    (plain_take 64).bind fun _ => (plain_take 64).map _

theorem plain_revoke : FailsIn WireError.Plain IdentityRevoke.read :=
  (plain_take 32).bind fun _ => plain_u8.map _

theorem plain_profile : FailsIn WireError.Plain IdentityProfile.read := by
  refine FailsIn.bind ?_ fun avatarHash => FailsIn.map ?_ _
  · refine plain_bool.bind fun present => ?_
    cases present with
    | true => exact (plain_take 32).map _
    | false => exact Parser.failsIn_pure _
  · refine plain_remaining.bind fun left => ?_
    split
    · exact plain_string.map _
    · exact Parser.failsIn_pure _

theorem plain_stringList : FailsIn WireError.Plain readStringList := by
  refine plain_u32.bind fun count => plain_remaining.bind fun left => ?_
  have hstrings : FailsIn WireError.Plain (readStrings count.toNat) := by
    rw [readStrings_eq]
    exact plain_string.times _
  dsimp only
  split
  · exact Parser.FailsIn.bind (failsIn_throw trivial) fun _ => hstrings
  · exact hstrings

theorem plain_serverRegister : FailsIn WireError.Plain ServerRegister.read := by
  refine (plain_take 32).bind fun _ => plain_string.bind fun _ => plain_string.bind fun _ =>
    plain_stringList.bind fun _ => plain_stringList.bind fun _ => plain_bool.bind fun _ =>
    plain_pow.bind fun _ => FailsIn.map ?_ _
  refine plain_remaining.bind fun left => ?_
  split
  · exact plain_string
  · exact Parser.failsIn_pure _

theorem plain_trailing {α : Type} {reader : Reader α} {Q : α → Nat → Prop} {input rest : Bytes}
    {value : α} (hconsumes : Consumes reader Q) (hlen : input.length < 2 ^ 64)
    (hok : reader.run input = .ok (value, rest)) : WireError.Plain (.trailing rest.length) := by
  obtain ⟨n, hn, -⟩ := hconsumes _ _ _ hok
  exact Nat.lt_of_le_of_lt (by omega) hlen

theorem plain_decodeAll {α : Type} {reader : Reader α} {Q : α → Nat → Prop} {input : Bytes}
    (h : FailsIn WireError.Plain reader) (hconsumes : Consumes reader Q)
    (hlen : input.length < 2 ^ 64) : Except.FailsIn WireError.Plain (decodeAll reader input) := by
  unfold decodeAll
  cases hrun : reader.run input with
  | error e => exact failsIn_error (h input e hrun)
  | ok result =>
    have hrest := plain_trailing hconsumes hlen hrun
    dsimp only [bind, Except.bind]
    split
    · exact failsIn_ok _
    · exact failsIn_error hrest

end Readers

namespace Ledger

variable {S : Suite} {L : Ledger} {record : Record}

def PlainBody (e : IdentityError) : Prop := LedgerError.Plain (.body e)

theorem plainBody_decode {α : Type} {reader : Reader α} {Q : α → Nat → Prop} {bytes : Bytes}
    (h : Parser.FailsIn WireError.Plain reader) (hconsumes : Parser.Consumes reader Q)
    (hlen : bytes.length < 2 ^ 64) :
    FailsIn PlainBody ((Reader.decodeAll reader bytes).mapError IdentityError.wire) :=
  (plain_decodeAll h hconsumes hlen).mapError fun _ hplain => hplain

theorem plainBody_profile {bytes : Bytes} (hlen : bytes.length < 2 ^ 64) :
    FailsIn PlainBody (IdentityProfile.decode bytes) := by
  unfold IdentityProfile.decode
  cases hrun : IdentityProfile.read.run bytes with
  | error e => exact failsIn_error (plain_profile bytes e hrun)
  | ok result =>
    have hrest := plain_trailing IdentityProfile.consumes_read hlen hrun
    dsimp only [Except.mapError, bind, Except.bind]
    split
    · exact failsIn_error trivial
    · split
      · exact failsIn_error hrest
      · exact failsIn_ok _

theorem plainBody_fromRecord (hlen : record.body.length < 2 ^ 64) :
    FailsIn PlainBody (IdentityRecord.fromRecord record) := by
  unfold IdentityRecord.fromRecord
  split
  · exact (plainBody_decode plain_announce IdentityAnnounce.consumes_read hlen).bind
      fun _ => failsIn_ok _
  · exact (plainBody_decode (plain_pow.map _) LivenessProof.consumes_read hlen).bind
      fun _ => failsIn_ok _
  · exact (plainBody_decode plain_rotation KeyRotation.consumes_read hlen).bind
      fun _ => failsIn_ok _
  · exact (plainBody_decode plain_revoke IdentityRevoke.consumes_read hlen).bind
      fun _ => failsIn_ok _
  · exact (plainBody_profile hlen).bind fun _ => failsIn_ok _
  · exact failsIn_error trivial

theorem plain_body {α : Type} (hlen : record.body.length < 2 ^ 64)
    {next : IdentityRecord → Except LedgerError α}
    (hnext : ∀ body, FailsIn LedgerError.Plain (next body)) :
    FailsIn LedgerError.Plain
      ((IdentityRecord.fromRecord record).mapError LedgerError.body >>= next) := by
  have hfirst : FailsIn LedgerError.Plain
      ((IdentityRecord.fromRecord record).mapError LedgerError.body) :=
    (plainBody_fromRecord hlen).mapError fun _ h => h
  exact hfirst.bind hnext

theorem plain_tipChain (key : Key) (createdMs : UInt64) (newest : Chain → UInt64) :
    FailsIn LedgerError.Plain (L.tipChain key createdMs newest) :=
  (failsIn_okOr trivial).bind fun _ => failsIn_refuse trivial <| failsIn_refuse trivial <|
    failsIn_refuse trivial <| failsIn_refuse trivial <| failsIn_ok _

/-- The checks of a body do not decode anything. -/
theorem plain_verify {α : Type} {result : Except IdentityError α} (h : FailsIn PlainBody result) :
    FailsIn LedgerError.Plain (result.mapError LedgerError.body) := h.mapError fun _ hplain => hplain

section Checks

variable (hlen : record.body.length < 2 ^ 64)

include hlen

theorem plain_checkAnnounce : FailsIn LedgerError.Plain (checkAnnounce S L record) := by
  refine plain_body hlen fun body => ?_
  cases body with
  | announce body =>
    refine failsIn_refuse trivial <| (failsIn_mapError_const trivial).bind fun key =>
      (plain_verify ?_).bind fun _ => failsIn_ok _
    unfold IdentityAnnounce.verify
    split
    · exact failsIn_error trivial
    · exact (failsIn_mapError_const trivial).bind fun _ => failsIn_mapError_const trivial
  | _ => exact failsIn_error trivial

theorem plain_checkLiveness : FailsIn LedgerError.Plain (checkLiveness S L record) := by
  refine plain_body hlen fun body => ?_
  cases body with
  | liveness body =>
    refine (plain_tipChain _ _ _).bind fun _ => (failsIn_mapError_const trivial).bind fun key =>
      (plain_verify ?_).bind fun _ => failsIn_ok _
    exact failsIn_mapError_const trivial
  | _ => exact failsIn_error trivial

theorem plain_checkRotation : FailsIn LedgerError.Plain (checkRotation S L record) := by
  refine plain_body hlen fun body => ?_
  cases body with
  | keyRotation body =>
    refine failsIn_refuse trivial <| (plain_verify ?_).bind fun _ =>
      (plain_tipChain _ _ _).bind fun _ => failsIn_refuse trivial <| failsIn_ok _
    exact (failsIn_mapError_const trivial).bind fun _ => (failsIn_mapError_const trivial).bind
      fun _ => (failsIn_mapError_const trivial).bind fun _ => failsIn_mapError_const trivial
  | _ => exact failsIn_error trivial

theorem plain_checkRevoke : FailsIn LedgerError.Plain (checkRevoke S L record) := by
  refine plain_body hlen fun body => ?_
  cases body with
  | revoke body =>
    refine failsIn_refuse trivial <| (plain_verify ?_).bind fun _ => plain_tipChain _ _ _
    exact (failsIn_mapError_const trivial).bind fun _ => failsIn_ok _
  | _ => exact failsIn_error trivial

theorem plain_checkProfile : FailsIn LedgerError.Plain (checkProfile L record) := by
  refine plain_body hlen fun body => ?_
  cases body with
  | profile body => exact (plain_tipChain _ _ _).bind fun _ => failsIn_ok _
  | _ => exact failsIn_error trivial

theorem plain_checkServerRegister :
    FailsIn LedgerError.Plain (checkServerRegister S L record) := by
  have hdecode : FailsIn LedgerError.Plain
      ((ServerRegister.decode record.body).mapError LedgerError.wire) :=
    (plain_decodeAll plain_serverRegister ServerRegister.consumes_read hlen).mapError
      fun _ h => h
  refine hdecode.bind fun body => failsIn_refuse trivial <| FailsIn.bind ?_ fun _ =>
    (failsIn_mapError_const trivial).bind fun _ => failsIn_refuse trivial <| failsIn_ok _
  unfold ServerRegister.validate
  split
  · exact failsIn_ok _
  · exact failsIn_error trivial

theorem plain_checkServerDelist : FailsIn LedgerError.Plain (checkServerDelist L record) := by
  have hdecode : FailsIn LedgerError.Plain
      ((ServerDelist.decode record.body).mapError LedgerError.wire) :=
    (plain_decodeAll ((plain_take 32).map _) ServerDelist.consumes_read hlen).mapError
      fun _ h => h
  exact hdecode.bind fun body => failsIn_refuse trivial <| (failsIn_okOr trivial).bind fun _ =>
    failsIn_refuse trivial <| failsIn_ok _

theorem plain_accept : FailsIn LedgerError.Plain (accept S L record) := by
  unfold accept
  split
  · exact (plain_checkAnnounce hlen).bind fun _ => failsIn_ok _
  · exact (plain_checkLiveness hlen).bind fun _ => failsIn_ok _
  · exact (plain_checkRotation hlen).bind fun _ => failsIn_ok _
  · exact (plain_checkServerRegister hlen).bind fun _ => failsIn_ok _
  · exact (plain_checkServerDelist hlen).bind fun _ => failsIn_ok _
  · exact (plain_checkRevoke hlen).bind fun _ => failsIn_ok _
  · exact (plain_checkProfile hlen).bind fun _ => failsIn_ok _
  · exact failsIn_error trivial

end Checks

/-- Whatever `append` refuses a record for, the text is short. -/
theorem append_error_size_le {nowMs : UInt64} {e : LedgerError} {L' : Ledger}
    (hlen : record.body.length < 2 ^ 64)
    (herror : (append S record nowMs).call L = (.error e, L')) : e.text.utf8ByteSize ≤ 400 := by
  have henvelope : FailsIn LedgerError.Plain (checkEnvelope S record nowMs) :=
    failsIn_refuse trivial <| failsIn_refuse trivial <| failsIn_refuse trivial <|
      failsIn_mapError_const trivial
  have hchecks := henvelope.bind fun _ => plain_accept (S := S) (L := L) hlen
  rw [call_append] at herror
  split at herror
  · cases herror
  · rename_i inner hinner
    obtain rfl : inner = e := by
      cases herror
      rfl
    exact (hchecks inner hinner).size_le

end Ledger

end Dante
