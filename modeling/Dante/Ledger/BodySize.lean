import Dante.Ledger.Index

/-!
How long the body of a record in the log can be. Every kind of body has fields of
fixed width and a few strings with limits, so a body never outgrows the length word
in front of it, and a record that a node sends is the record that a peer decodes.
-/

namespace Dante

open Crypto Enc Parser Reader

theorem Crypto.Pow.consumes_read : Consumes Pow.read fun _ n => n = 25 := by
  refine consumes_u32.bind fun _ _ h₁ => ?_
  refine consumes_u32.bind fun _ _ h₂ => ?_
  refine consumes_u8.bind fun _ _ h₃ => ?_
  refine (consumes_fixed 16).bind fun _ _ h₄ => .pure ?_
  omega

namespace Identity

theorem IdentityAnnounce.consumes_read :
    Consumes read fun body n => n = 125 + body.displayHint.utf8ByteSize := by
  refine (consumes_fixed 32).bind fun _ _ h₁ => ?_
  refine (consumes_fixed 64).bind fun _ _ h₂ => ?_
  refine Pow.consumes_read.bind fun _ _ h₃ => ?_
  refine consumes_string.bind fun _ _ h₄ => .pure ?_
  dsimp only
  omega

theorem LivenessProof.consumes_read : Consumes read fun _ n => n = 25 :=
  Pow.consumes_read.bind fun _ _ hn => .pure hn

theorem KeyRotation.consumes_read : Consumes read fun _ n => n = 224 := by
  refine (consumes_fixed 32).bind fun _ _ h₁ => ?_
  refine (consumes_fixed 32).bind fun _ _ h₂ => ?_
  refine (consumes_fixed 32).bind fun _ _ h₃ => ?_
  refine (consumes_fixed 64).bind fun _ _ h₄ => ?_
  refine (consumes_fixed 64).bind fun _ _ h₅ => .pure ?_
  omega

theorem IdentityRevoke.consumes_read : Consumes read fun _ n => n = 33 := by
  refine (consumes_fixed 32).bind fun _ _ h₁ => ?_
  refine consumes_u8.bind fun _ _ h₂ => .pure ?_
  omega

namespace IdentityProfile

theorem consumes_readAvatar : Consumes readAvatar fun _ n => n ≤ 33 := by
  refine consumes_bool.bind fun present _ h₁ => ?_
  cases present with
  | true =>
    refine (consumes_fixed 32).bind fun _ _ h₂ => .pure ?_
    omega
  | false => exact .pure (by omega)

theorem consumes_readStatus :
    Consumes readStatus fun status n => n ≤ 4 + status.elim 0 String.utf8ByteSize := by
  refine consumes_remaining.bind fun left _ h₁ => ?_
  split
  · refine consumes_string.bind fun s _ h₂ => .pure ?_
    simp only [Option.elim_some]
    omega
  · exact .pure (by omega)

theorem consumes_read :
    Consumes read fun body n => n ≤ 37 + body.status.elim 0 String.utf8ByteSize := by
  refine consumes_readAvatar.bind fun _ _ h₁ => ?_
  refine consumes_readStatus.bind fun _ _ h₂ => .pure ?_
  dsimp only
  omega

/-- A profile that decodes has a status within its limit. -/
theorem length_of_decode {bytes : Bytes} {body : IdentityProfile}
    (hok : decode bytes = .ok body) : bytes.length ≤ 37 + statusMax := by
  simp only [decode, Except.bind_eq_ok, Except.mapError_eq_ok] at hok
  obtain ⟨⟨found, rest⟩, hread, hok⟩ := hok
  dsimp only at hok
  split at hok
  · cases hok
  · rename_i hstatus
    split at hok
    · cases hok
    · rename_i hrest
      cases hok
      obtain ⟨n, hlength, hn⟩ := consumes_read _ _ _ hread
      have hsize : body.status.elim 0 String.utf8ByteSize ≤ statusMax := by
        cases hfound : body.status with
        | none => exact Nat.zero_le _
        | some s =>
          simp only [hfound, Option.any_some, validStatus, Bool.not_eq_true', Bool.not_eq_false,
            Bool.and_eq_true, decide_eq_true_eq] at hstatus
          exact hstatus.1.2
      omega

end IdentityProfile

end Identity

namespace Ledger

open Identity

/-- What a list of strings takes, with a length word before each string. -/
def stringsSize (strings : List String) : Nat := (strings.map fun s => 4 + s.utf8ByteSize).sum

theorem stringsSize_le {strings : List String} {count size : Nat} (hcount : strings.length ≤ count)
    (hsize : ∀ s ∈ strings, s.utf8ByteSize ≤ size) : stringsSize strings ≤ count * (4 + size) := by
  have hsum : stringsSize strings ≤ (strings.map fun s => 4 + s.utf8ByteSize).length • (4 + size) := by
    apply List.sum_le_card_nsmul
    intro n hn
    obtain ⟨s, hs, rfl⟩ := List.mem_map.mp hn
    have := hsize s hs
    omega
  rw [List.length_map, smul_eq_mul] at hsum
  exact hsum.trans (Nat.mul_le_mul_right _ hcount)

theorem consumes_readStrings (count : Nat) :
    Consumes (readStrings count) fun strings n => n = stringsSize strings := by
  induction count with
  | zero => exact .pure rfl
  | succ count ih =>
    refine consumes_string.bind fun s _ h₁ => ?_
    refine ih.bind fun rest _ h₂ => .pure ?_
    simp only [stringsSize, List.map_cons, List.sum_cons] at h₂ ⊢
    omega

theorem consumes_readStringList :
    Consumes readStringList fun strings n => n = 4 + stringsSize strings := by
  refine consumes_u32.bind fun count _ h₁ => ?_
  refine consumes_remaining.bind fun left _ h₂ => ?_
  dsimp only
  split
  · exact .throw
  · exact (consumes_readStrings _).mono fun strings n hn => by omega

theorem ServerRegister.consumes_readInvite :
    Consumes readInvite fun invite n => n ≤ 4 + invite.utf8ByteSize := by
  refine consumes_remaining.bind fun left _ h₁ => ?_
  split
  · exact consumes_string.mono fun invite n hn => by omega
  · exact .pure (by omega)

theorem ServerRegister.consumes_read :
    Consumes read fun body n => n ≤ 78 + body.name.utf8ByteSize + body.summary.utf8ByteSize +
      stringsSize body.tags + stringsSize body.entryRelays + body.invite.utf8ByteSize := by
  refine (consumes_fixed 32).bind fun _ _ h₁ => ?_
  refine consumes_string.bind fun _ _ h₂ => ?_
  refine consumes_string.bind fun _ _ h₃ => ?_
  refine consumes_readStringList.bind fun _ _ h₄ => ?_
  refine consumes_readStringList.bind fun _ _ h₅ => ?_
  refine consumes_bool.bind fun _ _ h₆ => ?_
  refine Pow.consumes_read.bind fun _ _ h₇ => ?_
  refine consumes_readInvite.bind fun _ _ h₈ => .pure ?_
  dsimp only
  omega

theorem ServerDelist.consumes_read : Consumes read fun _ n => n = 32 :=
  (consumes_fixed 32).bind fun _ _ hn => .pure hn

/-- The longest body: a registration with every field at its limit. -/
def bodyMax : Nat :=
  78 + nameMax + summaryMax + tagsMax * (4 + tagLenMax) + relaysMax * (4 + relayLenMax) + inviteMax

theorem ServerRegister.length_of_decode {bytes : Bytes} {body : ServerRegister}
    (hok : decode bytes = .ok body) (hvalid : body.validate = .ok ()) :
    bytes.length ≤ bodyMax := by
  have hlength := Reader.length_of_decodeAll consumes_read hok
  obtain ⟨hname, hsummary, htags, htag, hrelays, hrelay, hinvite⟩ := validate_eq_ok.mp hvalid
  have := stringsSize_le htags htag
  have := stringsSize_le hrelays hrelay
  unfold bodyMax
  omega

variable {S : Suite} {L L' : Ledger} {record : Record}

theorem Accepted.body_le (hstep : Accepted S L record L') : record.body.length ≤ bodyMax := by
  have hmax : bodyMax = 4838 := rfl
  cases hstep with
  | announce body hfresh hkind hdecode hsig hhint =>
    have := Reader.length_of_decodeAll IdentityAnnounce.consumes_read
      (Except.mapError_eq_ok.mp hdecode)
    simp only [displayHintMax] at hhint
    omega
  | liveness body chainId htip hkind hdecode =>
    have := Reader.length_of_decodeAll LivenessProof.consumes_read
      (Except.mapError_eq_ok.mp hdecode)
    omega
  | rotation body chainId htip hfresh hauthor hkind hdecode =>
    have := Reader.length_of_decodeAll KeyRotation.consumes_read
      (Except.mapError_eq_ok.mp hdecode)
    omega
  | revoke body chainId htip hkind hdecode =>
    have := Reader.length_of_decodeAll IdentityRevoke.consumes_read
      (Except.mapError_eq_ok.mp hdecode)
    omega
  | profile body chainId htip hkind hdecode =>
    have := IdentityProfile.length_of_decode hdecode
    simp only [statusMax] at this
    omega
  | serverRegister body hroot hnewer hkind hdecode hsig hvalid =>
    exact ServerRegister.length_of_decode hdecode hvalid
  | serverDelist body state hstate hnewer hkind hdecode =>
    have := Reader.length_of_decodeAll ServerDelist.consumes_read hdecode
    omega
  | tombstone chain chainId nowMs hchain hlookup halive hdue hrecord =>
    have hlength : record.body.length = 40 := by
      rw [hrecord]
      simp [Tombstone.toRecord, Tombstone.encode, Writer.fixed, Writer.u64]
    omega

theorem body_le_run (S : Suite) (params : LedgerParams) (ops : List Op) :
    ∀ record ∈ (run S params ops).store, record.body.length ≤ bodyMax := by
  refine run_induction (fun L => ∀ record ∈ L.store, record.body.length ≤ bodyMax) params ops
    (by simp [Ledger.new]) ?_
  intro L L' added hstep _ hbodies record hmem
  rw [hstep.log.1, List.mem_append, List.mem_singleton] at hmem
  rcases hmem with hold | rfl
  · exact hbodies record hold
  · exact hstep.body_le

/-- In every state that a run reaches, each stored record survives the wire. -/
theorem decode_encode_run (S : Suite) (params : LedgerParams) (ops : List Op) :
    ∀ record ∈ (run S params ops).store, Record.decode record.encode = .ok record := by
  intro record hmem
  exact Record.decode_encode ((body_le_run S params ops record hmem).trans_lt (by decide))

end Ledger

end Dante
