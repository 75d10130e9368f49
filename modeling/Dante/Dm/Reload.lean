import Dante.Dm.Snapshot
import Dante.Dm.SkippedKeys

/-!
A session that is saved and loaded again. The skipped keys come back in a map built from a list in
some order; the loaded session answers every lookup alike, and the two cannot be told apart. The
length of the encoded ratchet is stored in 32 bits, and a peer can make it store more keys than fit.
-/

namespace Dante.Dm

open Crypto Enc Ratchet

/-- The same fields, and the same key for every message. -/
structure Ratchet.Alike (r r' : Ratchet) : Prop where
  dhs : r'.dhs = r.dhs
  dhr : r'.dhr = r.dhr
  rk : r'.rk = r.rk
  cks : r'.cks = r.cks
  ckr : r'.ckr = r.ckr
  ns : r'.ns = r.ns
  nr : r'.nr = r.nr
  pn : r'.pn = r.pn
  lookup : ∀ key, r'.skipped.lookup key = r.skipped.lookup key

/-- The method gives the same result on ratchets that are alike, and leaves such behind. -/
def Ratchet.Respects {α : Type} (method : RatchetM α) : Prop :=
  ∀ r r' : Ratchet, Alike r r' →
    (method.call r').1 = (method.call r).1 ∧ Alike (method.call r).2 (method.call r').2

section Respects

variable (P : Primitives)

theorem Ratchet.Respects.bind {α β : Type} {method : RatchetM α} {next : α → RatchetM β}
    (hmethod : Respects method) (hnext : ∀ a, Respects (next a)) :
    Respects (method >>= next) := by
  intro r r' halike
  obtain ⟨hresult, hstate⟩ := hmethod r r' halike
  rw [Method.call_bind, Method.call_bind]
  rcases hcall : method.call r with ⟨result, s⟩
  rcases hcall' : method.call r' with ⟨result', s'⟩
  rw [hcall, hcall'] at hresult hstate
  dsimp only at hresult hstate
  subst hresult
  cases result' with
  | error e => exact ⟨rfl, hstate⟩
  | ok a => exact hnext a s s' hstate

theorem lookup_storeKeys_congr {skipped skipped' : SkippedKeys}
    (hlookup : ∀ key, skipped'.lookup key = skipped.lookup key) (dhr : Key) (count : Nat) (ck : Key)
    (start : UInt32) (key : Key × UInt32) :
    (storeKeys P dhr count ck start skipped').lookup key =
      (storeKeys P dhr count ck start skipped).lookup key := by
  induction count generalizing ck start skipped skipped' with
  | zero => exact hlookup key
  | succ count ih =>
    apply ih
    intro key'
    rw [AssocMap.lookup_insert, AssocMap.lookup_insert, hlookup]

theorem respects_skipMessageKeys (last : UInt32) : Respects (skipMessageKeys P last) := by
  intro r r' halike
  cases hckr : r.ckr with
  | none =>
    have hckr' : r'.ckr = none := halike.ckr.trans hckr
    rw [call_skipMessageKeys_none P hckr, call_skipMessageKeys_none P hckr']
    exact ⟨rfl, halike⟩
  | some ck =>
    have hckr' : r'.ckr = some ck := halike.ckr.trans hckr
    by_cases hfar : r.nr + maxSkip < last
    · have hfar' : r'.nr + maxSkip < last := halike.nr ▸ hfar
      rw [call_skipMessageKeys_refused P hckr hfar, call_skipMessageKeys_refused P hckr' hfar']
      exact ⟨rfl, halike⟩
    · have hfar' : ¬ r'.nr + maxSkip < last := halike.nr ▸ hfar
      rw [call_skipMessageKeys_ok P hckr hfar, call_skipMessageKeys_ok P hckr' hfar', halike.nr,
        halike.dhr]
      exact ⟨rfl, { halike with
        dhr := rfl
        ckr := rfl
        nr := rfl
        lookup := lookup_storeKeys_congr P halike.lookup _ _ _ _ }⟩

theorem respects_lift {α : Type} (result : Except DmError α) :
    Respects (Method.lift result : RatchetM α) :=
  fun _ _ halike => ⟨rfl, halike⟩

theorem respects_modify {f : Ratchet → Ratchet} (hf : ∀ r r', Alike r r' → Alike (f r) (f r')) :
    Respects (modify f : RatchetM PUnit) :=
  fun r r' halike => ⟨rfl, hf r r' halike⟩

/-- A method that reads nothing from the state but what is the same in both. -/
theorem respects_get {α : Type} {next : Ratchet → RatchetM α}
    (hsame : ∀ r r', Alike r r' → next r' = next r) (hnext : ∀ r, Respects (next r)) :
    Respects (get >>= next) := by
  intro r r' halike
  rw [Method.call_bind_ok (Method.call_get r), Method.call_bind_ok (Method.call_get r'),
    hsame r r' halike]
  exact hnext r r r' halike

theorem respects_dhRatchet (fresh : Key) (header : Header) :
    Respects (dhRatchet P fresh header) := by
  unfold dhRatchet
  refine (respects_modify fun r r' h => ?_).bind fun _ =>
    respects_get (fun r r' h => by rw [h.dhs]) fun _ => (respects_lift _).bind fun dh1 =>
    (respects_modify fun r r' h => ?_).bind fun _ => (respects_modify fun r r' h => ?_).bind fun _ =>
    respects_get (fun r r' h => by rw [h.dhs]) fun _ => (respects_lift _).bind fun dh2 =>
    respects_modify fun r r' h => ?_
  · exact { h with dhr := rfl, ns := rfl, nr := rfl, pn := h.ns }
  · dsimp only
    rw [h.rk]
    exact { h with rk := rfl, ckr := rfl }
  · exact { h with dhs := rfl }
  · dsimp only
    rw [h.rk]
    exact { h with rk := rfl, cks := rfl }

theorem respects_receive (header : Header) (ct ad : Bytes) :
    Respects (receive P header ct ad) := by
  unfold receive
  refine (respects_skipMessageKeys P header.n).bind fun _ =>
    respects_get (fun r r' h => by rw [h.ckr]) fun r => ?_
  cases r.ckr with
  | none => exact fun _ _ halike => ⟨rfl, halike⟩
  | some ck =>
    refine (respects_modify fun r r' h => ?_).bind fun _ => respects_lift _
    exact { h with ckr := rfl, nr := congrArg (· + 1) h.nr }

theorem respects_decrypt (fresh : Key) (header : Header) (ct ad : Bytes) :
    Respects (decrypt P fresh header ct ad) := by
  intro r r' halike
  have hsame := halike.lookup (header.dh, header.n)
  cases hlookup : r.skipped.lookup (header.dh, header.n) with
  | some msgKey =>
    rw [call_decrypt_stored P hlookup, call_decrypt_stored P (hsame.trans hlookup)]
    refine ⟨rfl, { halike with lookup := ?_ }⟩
    intro key
    by_cases hkey : key = (header.dh, header.n)
    · rw [hkey, AList.lookup_erase, AList.lookup_erase]
    · rw [AList.lookup_erase_ne hkey, AList.lookup_erase_ne hkey, halike.lookup]
  | none =>
    by_cases hdhr : r.dhr = some header.dh
    · rw [call_decrypt_current P hlookup hdhr,
        call_decrypt_current P (hsame.trans hlookup) (halike.dhr.trans hdhr)]
      exact respects_receive P header ct ad r r' halike
    · have hdhr' : r'.dhr ≠ some header.dh := halike.dhr ▸ hdhr
      rw [call_decrypt_newChain P hlookup hdhr,
        call_decrypt_newChain P (hsame.trans hlookup) hdhr']
      exact ((respects_skipMessageKeys P header.pn).bind fun _ =>
        (respects_dhRatchet P fresh header).bind fun _ => respects_receive P header ct ad)
        r r' halike

theorem respects_encrypt (plaintext ad : Bytes) : Respects (encrypt P plaintext ad) := by
  intro r r' halike
  cases hcks : r.cks with
  | none =>
    rw [call_encrypt_none P hcks, call_encrypt_none P (halike.cks.trans hcks)]
    exact ⟨rfl, halike⟩
  | some cks =>
    have hheader : nextHeader P r' = nextHeader P r := by
      rw [nextHeader, nextHeader, halike.dhs, halike.pn, halike.ns]
    rw [call_encrypt_some P hcks, call_encrypt_some P (halike.cks.trans hcks), hheader, halike.ns]
    exact ⟨rfl, { halike with cks := rfl, ns := rfl }⟩

end Respects

namespace Session

variable (P : Primitives)
variable {session : Session}

/-- A call of one of the two methods, with the secret that `decrypt` may draw. -/
inductive Call where
  | encrypt (plaintext : Bytes)
  | decrypt (msg : DmMessage) (fresh : Key)

/-- What the caller sees: the header and ciphertext, the plaintext, or the error. -/
inductive Reply where
  | encrypted (result : Except DmError DmMessage)
  | decrypted (result : Except DmError Bytes)

def afterCall (session : Session) : Call → Session
  | .encrypt plaintext => ((encrypt P plaintext).call session).2
  | .decrypt msg fresh => ((decrypt P msg fresh).call session).2

def reply (session : Session) : Call → Reply
  | .encrypt plaintext => .encrypted ((encrypt P plaintext).call session).1
  | .decrypt msg fresh => .decrypted ((decrypt P msg fresh).call session).1

def replies (session : Session) : List Call → List Reply
  | [] => []
  | call :: calls => session.reply P call :: replies (session.afterCall P call) calls

/-- A session that the two sides can get to, by the two ways to begin one and any calls. -/
inductive Reachable : Session → Prop
  | initiate {S : Suite} {me : Identity S} {bundle : PreKeyBundle} {first : Bytes} {ek dhs : Key}
      {session : Session} {init : InitMessage}
      (hok : Session.initiate P me bundle first ek dhs = .ok (session, init)) : Reachable session
  | accept {S : Suite} {me : Identity S} {init : InitMessage} {fresh : Key}
      {prekeys rest : PreKeySecrets} {session : Session} {plaintext : Bytes}
      (hok : (Session.accept P me init fresh).call prekeys = (.ok (session, plaintext), rest)) :
      Reachable session
  | call {session : Session} (call : Call) (hreach : Reachable session) :
      Reachable (session.afterCall P call)

/-- What `export` may return: the hash map lists its keys in some order. -/
def Exports (session : Session) (state : SessionState) : Prop :=
  ∃ skipped : List (Key × UInt32 × Key),
    skipped.Perm session.exportState.ratchet.skipped ∧
      state = { session.exportState with
        ratchet := { session.exportState.ratchet with skipped := skipped } }

def reload (state : SessionState) : Except WireError Session :=
  (SessionState.decode state.encode).map importState

/-- The two sessions differ in the order of their skipped keys at most. -/
def Alike (session session' : Session) : Prop :=
  Ratchet.Alike session.ratchet session'.ratchet ∧ session'.ad = session.ad

variable {P}

theorem call_encrypt {plaintext : Bytes} {ratchet : Ratchet}
    {result : Except DmError (Header × Bytes)}
    (hcall : (Ratchet.encrypt P plaintext session.ad).call session.ratchet = (result, ratchet)) :
    (encrypt P plaintext).call session =
      (result.map fun sent => { header := sent.1, ciphertext := sent.2 },
        { session with ratchet := ratchet }) := by
  rw [encrypt, Method.call_bind_ok (Method.call_get session)]
  simp only [hcall]
  rw [Method.call_bind_ok (Method.call_set _ _)]
  cases result with
  | error e => rfl
  | ok sent => rfl

theorem Alike.afterCall {session session' : Session} (halike : Alike session session')
    (call : Call) :
    session'.reply P call = session.reply P call ∧
      Alike (session.afterCall P call) (session'.afterCall P call) := by
  obtain ⟨hratchet, had⟩ := halike
  cases call with
  | encrypt plaintext =>
    have hrespects := respects_encrypt P plaintext session.ad _ _ hratchet
    rcases hcall : (Ratchet.encrypt P plaintext session.ad).call session.ratchet with ⟨result, r⟩
    rcases hcall' : (Ratchet.encrypt P plaintext session.ad).call session'.ratchet with
      ⟨result', r'⟩
    rw [hcall, hcall'] at hrespects
    obtain ⟨rfl, hstate⟩ : result' = result ∧ Ratchet.Alike r r' := hrespects
    rw [← had] at hcall'
    rw [reply, reply, Session.afterCall, Session.afterCall, call_encrypt hcall, call_encrypt hcall']
    exact ⟨rfl, hstate, had⟩
  | decrypt msg fresh =>
    have hrespects := respects_decrypt P fresh msg.header msg.ciphertext session.ad _ _ hratchet
    rcases hcall : (Ratchet.decrypt P fresh msg.header msg.ciphertext session.ad).call
      session.ratchet with ⟨result, r⟩
    rcases hcall' : (Ratchet.decrypt P fresh msg.header msg.ciphertext session.ad).call
      session'.ratchet with ⟨result', r'⟩
    rw [hcall, hcall'] at hrespects
    obtain ⟨rfl, hstate⟩ : result' = result ∧ Ratchet.Alike r r' := hrespects
    rw [← had] at hcall'
    rw [reply, reply, Session.afterCall, Session.afterCall, call_decrypt hcall, call_decrypt hcall']
    exact ⟨rfl, hstate, had⟩

theorem Alike.replies {session session' : Session} (halike : Alike session session')
    (calls : List Call) : session'.replies P calls = session.replies P calls := by
  induction calls generalizing session session' with
  | nil => rfl
  | cons call calls ih =>
    obtain ⟨hreply, hafter⟩ := halike.afterCall (P := P) call
    rw [Session.replies, Session.replies, hreply, ih hafter]

theorem ad_afterCall (session : Session) (call : Call) :
    (session.afterCall P call).ad = session.ad := by
  cases call with
  | encrypt plaintext =>
    rcases hcall : (Ratchet.encrypt P plaintext session.ad).call session.ratchet with ⟨result, r⟩
    rw [afterCall, call_encrypt hcall]
  | decrypt msg fresh =>
    rcases hcall : (Ratchet.decrypt P fresh msg.header msg.ciphertext session.ad).call
      session.ratchet with ⟨result, r⟩
    rw [afterCall, call_decrypt hcall]

theorem Reachable.length_ad (hreach : session.Reachable P) : session.ad.length = 64 := by
  induction hreach with
  | initiate hok =>
    obtain ⟨hs, ratchet, hinit, -, -, had, -⟩ := initiate_eq_ok hok
    simp only [x3dhInitiator, Except.bind_eq_ok, Except.pure_eq_ok] at hinit
    obtain ⟨_, -, dh1, -, dh2, -, dh3, -, dh4, -, rfl⟩ := hinit
    simp [had, adOf]
  | accept hok =>
    rw [Session.accept, Method.call_bind_eq_ok] at hok
    obtain ⟨⟨res, spk⟩, prekeys, hresponder, hrest⟩ := hok
    rw [Method.call_bind_eq_ok] at hrest
    obtain ⟨opened, prekeys', -, hpure⟩ := hrest
    cases hpure
    simp only [x3dhResponder, Method.call_bind_eq_ok, Method.call_pure, Prod.mk.injEq,
      Except.ok.injEq] at hresponder
    obtain ⟨-, -, -, -, -, -, -, -, -, -, -, -, -, -, -, -, -, -, ⟨rfl, -⟩, -⟩ := hresponder
    simp [adOf]
  | call call _ ih => rw [ad_afterCall, ih]

/-- However the keys are listed, what is imported is like what was exported. -/
theorem Exports.alike {state : SessionState} (hexports : session.Exports state) :
    Alike session (importState state) := by
  obtain ⟨skipped, hperm, rfl⟩ := hexports
  refine ⟨⟨rfl, rfl, rfl, rfl, rfl, rfl, rfl, rfl, ?_⟩, rfl⟩
  apply AssocMap.lookup_collect_of_perm
  have hback := hperm.map fun entry => ((entry.1, entry.2.1), entry.2.2)
  simpa [exportState, Ratchet.exportState, List.map_map, Function.comp_def] using hback

end Session

def optSize (value : Option Key) : Nat := if value = none then 1 else 33

def Ratchet.encodedSize (r : Ratchet) : Nat :=
  80 + optSize r.dhr + optSize r.cks + optSize r.ckr + 68 * r.stored

theorem length_writeOpt32 (value : Option Key) : (writeOpt32 value).length = optSize value := by
  cases value with
  | none => rfl
  | some key => simp [writeOpt32, optSize, Writer.bool]

theorem RatchetState.length_encode (state : RatchetState) :
    state.encode.length =
      80 + optSize state.dhr + optSize state.cks + optSize state.ckr + 68 * state.skipped.length := by
  have hskipped : (state.skipped.flatMap writeSkipped).length = 68 * state.skipped.length := by
    simp [List.length_flatMap, writeSkipped, Nat.mul_comm]
  simp only [encode, Writer.list, List.length_append, length_writeOpt32, Writer.length_fixed,
    Writer.length_u32, hskipped]
  omega

namespace Session

variable {P : Primitives}

theorem Exports.length_encode {session : Session} {state : SessionState}
    (hexports : session.Exports state) :
    state.ratchet.encode.length = session.ratchet.encodedSize := by
  obtain ⟨skipped, hperm, rfl⟩ := hexports
  have hlength : skipped.length = session.ratchet.stored := by
    rw [hperm.length_eq]
    simp [exportState, Ratchet.exportState, AssocMap.pairs, stored]
  rw [RatchetState.length_encode, Ratchet.encodedSize, ← hlength]
  rfl

/-- A length word that does not hold the length points into the ratchet, and what is left over
is more than the second length word can cover. -/
theorem reload_ne_ok {state : SessionState} (hbig : 2 ^ 32 ≤ state.ratchet.encode.length)
    (session : Session) : reload state ≠ .ok session := by
  intro hok
  rw [reload] at hok
  cases hdecode : SessionState.decode state.encode with
  | error e =>
    rw [hdecode] at hok
    cases hok
  | ok loaded =>
    obtain ⟨hencode, hratchet, had⟩ := (Reader.decodeAll_eq_ok_iff SessionState.codec).mp hdecode
    have htotal := congrArg List.length hencode
    simp only [SessionState.encode, List.length_append, Writer.length_bytes] at htotal
    simp only [SessionState.encode, Writer.bytes, List.append_assoc] at hencode
    obtain ⟨hword, -⟩ := List.append_inj hencode (by simp)
    -- both lengths have the same lower 32 bits
    have hlow := congrArg BigEndian.decode hword
    rw [Writer.u32, Writer.u32, BigEndian.decode_encode_of_lt (UInt32.toNat_lt _),
      BigEndian.decode_encode_of_lt (UInt32.toNat_lt _), UInt32.toNat_ofNat', UInt32.toNat_ofNat']
      at hlow
    omega

/-- Saving and loading a session cannot be noticed exactly when its ratchet's encoding is
shorter than `2 ^ 32` bytes. -/
theorem reload_invisible_iff (P : Primitives) (session : Session)
    (hreach : session.Reachable P) :
    (∀ state, session.Exports state → ∃ loaded, reload state = .ok loaded ∧
        ∀ calls, loaded.replies P calls = session.replies P calls) ↔
      session.ratchet.encodedSize < 2 ^ 32 := by
  constructor
  · intro hinvisible
    have hexports : session.Exports session.exportState := ⟨_, List.Perm.refl _, rfl⟩
    obtain ⟨loaded, hok, -⟩ := hinvisible _ hexports
    by_contra hbig
    rw [not_lt, ← hexports.length_encode] at hbig
    exact reload_ne_ok hbig loaded hok
  · intro hsmall state hexports
    have hfits : state.Fits := by
      refine ⟨hexports.length_encode.trans_lt hsmall, ?_⟩
      obtain ⟨skipped, -, rfl⟩ := hexports
      change session.ad.length < 2 ^ 32
      rw [hreach.length_ad]
      decide
    have hdecode : SessionState.decode state.encode = .ok state :=
      (Reader.decodeAll_eq_ok_iff SessionState.codec).mpr ⟨rfl, hfits⟩
    refine ⟨importState state, ?_, hexports.alike.replies⟩
    rw [reload, hdecode]
    rfl

/-- The far messages of a flood, as they reach a session. -/
def floodCalls (fresh : Key) (keys : List Key) : List Call :=
  keys.map fun dh => .decrypt { header := farHeader dh, ciphertext := [] } fresh

theorem ratchet_flood (fresh : Key) (keys : List Key) (session : Session) :
    (Steps.exec (afterCall P) session (floodCalls fresh keys)).ratchet =
      Steps.exec (Ratchet.afterCall P) session.ratchet (flood fresh session.ad keys) := by
  induction keys generalizing session with
  | nil => rfl
  | cons dh rest ih =>
    rcases hcall : (Ratchet.decrypt P fresh (farHeader dh) [] session.ad).call session.ratchet with
      ⟨result, r⟩
    have hafter : session.afterCall P (.decrypt { header := farHeader dh, ciphertext := [] } fresh) =
        { session with ratchet := r } := by
      rw [afterCall, call_decrypt hcall]
    have hflood : flood fresh session.ad (dh :: rest) =
        .decrypt fresh (farHeader dh) [] session.ad :: flood fresh session.ad rest := rfl
    rw [floodCalls, List.map_cons, Steps.exec_cons, ← floodCalls, hafter, ih, hflood,
      Steps.exec_cons, Ratchet.afterCall, hcall]

theorem Reachable.exec {session : Session} (hreach : session.Reachable P) (calls : List Call) :
    (Steps.exec (afterCall P) session calls).Reachable P := by
  induction calls generalizing session with
  | nil => exact hreach
  | cons call calls ih => exact ih (hreach.call call)

def sampleStarted : Option (Session × InitMessage) :=
  let owner := sampleIdentity (.fill 32 1) (.fill 32 11)
  let prekeys : PreKeySecrets := { spk := .fill 32 3, otps := [.fill 32 4] }
  (Session.initiate samplePrimitives (sampleIdentity (.fill 32 2) (.fill 32 12))
    (prekeys.bundle samplePrimitives owner) [1] (.fill 32 5) (.fill 32 6)).toOption

theorem Reachable.sampleStarted {started : Session × InitMessage}
    (hstarted : started ∈ sampleStarted) : started.1.Reachable samplePrimitives := by
  rw [Session.sampleStarted, Option.mem_def, Except.toOption_eq_some] at hstarted
  exact .initiate hstarted

theorem reload_invisible_started :
    ∃ started ∈ sampleStarted, ∃ loaded, reload started.1.exportState = .ok loaded ∧
      ∀ calls, loaded.replies samplePrimitives calls =
        started.1.replies samplePrimitives calls := by
  have hsome : ∃ started ∈ sampleStarted, started.1.ratchet.encodedSize < 2 ^ 32 := by
    decide +kernel
  obtain ⟨started, hstarted, hsmall⟩ := hsome
  exact ⟨started, hstarted, (reload_invisible_iff samplePrimitives started.1
    (.sampleStarted hstarted)).mpr hsmall _ ⟨_, List.Perm.refl _, rfl⟩⟩

/-- The session after 63162 messages that do not decrypt. -/
def flooded (session : Session) : Session :=
  Steps.exec (afterCall samplePrimitives) session (floodCalls (.fill 32 7) (floodKeys 63162))

theorem flooded_too_long : ∃ started ∈ sampleStarted,
    2 ^ 32 ≤ started.1.flooded.exportState.ratchet.encode.length := by
  have hsome : ∃ started ∈ sampleStarted,
      started.1.ratchet.skipped.entries = [] ∧ started.1.ratchet.dhr = some (.fill 32 3) := by
    decide +kernel
  obtain ⟨started, hstarted, hentries, hdhr⟩ := hsome
  have hskipped : started.1.ratchet.skipped = ∅ := AList.ext hentries
  refine ⟨started, hstarted, ?_⟩
  have hunseen : ∀ dh ∈ floodKeys 63162, Unseen dh started.1.ratchet := by
    intro dh hdh
    refine ⟨?_, fun n => by rw [hskipped]; rfl⟩
    rw [hdhr]
    rintro heq
    obtain ⟨i, hi, rfl⟩ := List.mem_map.mp hdh
    have hvalue := congrArg (fun key : Key => BigEndian.decode key.toList) (Option.some.inj heq)
    have hlt := List.mem_range.mp hi
    have hfill : BigEndian.decode (ByteArr.fill 32 3).toList > 63162 := by decide
    rw [decode_numberedKey (by omega)] at hvalue
    omega
  have hstored : started.1.ratchet.stored = 0 := by rw [stored, hskipped]; rfl
  have hcount := stored_flood samplePrimitives (.fill 32 7) started.1.ad
    (nodup_floodKeys (by decide)) hunseen sampleAgree_ne_zero
  rw [← ratchet_flood, hstored, length_floodKeys] at hcount
  have hexports : ∀ session : Session, session.Exports session.exportState :=
    fun _ => ⟨_, List.Perm.refl _, rfl⟩
  rw [(hexports _).length_encode, Ratchet.encodedSize, flooded, hcount]
  have hskip : maxSkip.toNat = 1000 := rfl
  omega

/-- The flood leaves a session behind that cannot be loaded again. -/
theorem reload_fails_after_flood :
    ∃ started ∈ sampleStarted, started.1.flooded.Reachable samplePrimitives ∧
      ∀ loaded, reload started.1.flooded.exportState ≠ .ok loaded := by
  obtain ⟨started, hstarted, hbig⟩ := flooded_too_long
  exact ⟨started, hstarted, (Reachable.sampleStarted hstarted).exec _, reload_ne_ok hbig⟩

end Session

end Dante.Dm
