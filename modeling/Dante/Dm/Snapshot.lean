import Dante.Dm.Session
import Dante.Library.AssocMap

/-!
Snapshots of a session and of the prekeys for the local store, and their encodings. Each
reader is the inverse of its writer on the snapshots whose lists and inner encodings are
shorter than `2 ^ 32`, which is what the length words hold.
-/

namespace Dante.Dm

open Crypto Enc Parser Reader

def writeOpt32 (value : Option Key) : Bytes :=
  match value with
  | some key => Writer.bool true ++ Writer.fixed key
  | none => Writer.bool false

def readOpt32 : Reader (Option Key) := do
  if ← Reader.bool then
    return some (← Reader.fixed 32)
  else
    return none

theorem codec_opt32 : Codec readOpt32 writeOpt32 fun _ => True where
  reads {value} _ := by
    cases value with
    | none => exact codec_bool.reads_last trivial (.pure _)
    | some key =>
      exact codec_bool.reads_bind trivial <| (codec_fixed 32).reads_map trivial _
  takes := by
    refine codec_bool.takes_bind fun present _ => ?_
    cases present with
    | false => exact .pure ⟨rfl, trivial⟩
    | true =>
      exact (codec_fixed 32).takes_map fun key _ => ⟨by simp [writeOpt32], trivial⟩

structure RatchetState where
  dhsSecret : Key
  dhr : Option Key
  rk : Key
  cks : Option Key
  ckr : Option Key
  ns : UInt32
  nr : UInt32
  pn : UInt32
  skipped : List (Key × UInt32 × Key)
  deriving DecidableEq

namespace RatchetState

def writeSkipped : Key × UInt32 × Key → Bytes :=
  Writer.both Writer.fixed (Writer.both Writer.u32 Writer.fixed)

def readSkipped : Reader (Key × UInt32 × Key) :=
  both (Reader.fixed 32) (both Reader.u32 (Reader.fixed 32))

def encode (state : RatchetState) : Bytes :=
  Writer.fixed state.dhsSecret ++ writeOpt32 state.dhr ++ Writer.fixed state.rk ++
    writeOpt32 state.cks ++ writeOpt32 state.ckr ++ Writer.u32 state.ns ++ Writer.u32 state.nr ++
    Writer.u32 state.pn ++ Writer.list writeSkipped state.skipped

def read : Reader RatchetState := do
  let dhsSecret ← Reader.fixed 32
  let dhr ← readOpt32
  let rk ← Reader.fixed 32
  let cks ← readOpt32
  let ckr ← readOpt32
  let ns ← Reader.u32
  let nr ← Reader.u32
  let pn ← Reader.u32
  let skipped ← Reader.list readSkipped
  return { dhsSecret := dhsSecret, dhr := dhr, rk := rk, cks := cks, ckr := ckr, ns := ns, nr := nr,
           pn := pn, skipped := skipped }

def decode (input : Bytes) : Except WireError RatchetState := Reader.decodeAll read input

theorem codec_skipped : Codec (Reader.list readSkipped) (Writer.list writeSkipped)
    fun skipped => skipped.length < 2 ^ 32 := by
  have hitem := codec_both (codec_fixed 32)
    (codec_both codec_u32 (codec_fixed 32))
  apply (codec_list hitem fun x => by simp).congr (fun _ => rfl)
  simp

theorem codec : Codec read encode fun state => state.skipped.length < 2 ^ 32 where
  reads {state} hfits := by
    simp only [encode, List.append_assoc]
    exact (codec_fixed 32).reads_bind trivial <| codec_opt32.reads_bind trivial <|
      (codec_fixed 32).reads_bind trivial <| codec_opt32.reads_bind trivial <|
      codec_opt32.reads_bind trivial <| codec_u32.reads_bind trivial <|
      codec_u32.reads_bind trivial <| codec_u32.reads_bind trivial <|
      codec_skipped.reads_map hfits _
  takes :=
    (codec_fixed 32).takes_bind fun dhs _ => codec_opt32.takes_bind fun dhr _ =>
      (codec_fixed 32).takes_bind fun rk _ => codec_opt32.takes_bind fun cks _ =>
      codec_opt32.takes_bind fun ckr _ => codec_u32.takes_bind fun ns _ =>
      codec_u32.takes_bind fun nr _ => codec_u32.takes_bind fun pn _ =>
      codec_skipped.takes_map fun skipped hskipped => ⟨by simp [encode], hskipped⟩

end RatchetState

namespace Ratchet

/-- `Ratchet::export`. The hash map lists its keys in the order of the model's list; any other
order is as good. -/
def exportState (r : Ratchet) : RatchetState :=
  { dhsSecret := r.dhs, dhr := r.dhr, rk := r.rk, cks := r.cks, ckr := r.ckr, ns := r.ns,
    nr := r.nr, pn := r.pn
    skipped := (AssocMap.pairs r.skipped).map fun entry => (entry.1.1, entry.1.2, entry.2) }

/-- `Ratchet::import` -/
def importState (state : RatchetState) : Ratchet :=
  { dhs := state.dhsSecret, dhr := state.dhr, rk := state.rk, cks := state.cks, ckr := state.ckr,
    ns := state.ns, nr := state.nr, pn := state.pn
    skipped := AssocMap.collect (state.skipped.map fun entry => ((entry.1, entry.2.1), entry.2.2)) }

end Ratchet

structure SessionState where
  ratchet : RatchetState
  ad : Bytes
  deriving DecidableEq

namespace SessionState

def encode (state : SessionState) : Bytes :=
  Writer.bytes state.ratchet.encode ++ Writer.bytes state.ad

def read : Reader SessionState := do
  let ratchet ← Parser.ofExcept (RatchetState.decode (← Reader.bytes))
  let ad ← Reader.bytes
  return { ratchet := ratchet, ad := ad }

def decode (input : Bytes) : Except WireError SessionState := Reader.decodeAll read input

def Fits (state : SessionState) : Prop :=
  state.ratchet.encode.length < 2 ^ 32 ∧ state.ad.length < 2 ^ 32

theorem length_skipped_le (state : RatchetState) :
    state.skipped.length ≤ state.encode.length := by
  have hpos (entry : Key × UInt32 × Key) : 0 < (RatchetState.writeSkipped entry).length := by
    simp [RatchetState.writeSkipped]
  have hlist := Reader.length_le_flatMap hpos state.skipped
  simp only [RatchetState.encode, Writer.list, List.length_append]
  omega

theorem codec : Codec read encode Fits where
  reads hfits :=
    reads_nested RatchetState.codec ((length_skipped_le _).trans_lt hfits.1) hfits.1 <|
      codec_bytes.reads_map hfits.2 _
  takes := takes_nested RatchetState.codec fun ratchet _ hlen =>
    codec_bytes.takes_map fun ad had => ⟨by simp [encode], hlen, had⟩

end SessionState

namespace Session

/-- `Session::export` -/
def exportState (session : Session) : SessionState :=
  { ratchet := session.ratchet.exportState, ad := session.ad }

/-- `Session::import` -/
def importState (state : SessionState) : Session :=
  { ratchet := Ratchet.importState state.ratchet, ad := state.ad }

end Session

structure PreKeySecretsState where
  spkSecret : Key
  otpSecrets : List Key
  deriving DecidableEq

namespace PreKeySecretsState

def encode (state : PreKeySecretsState) : Bytes :=
  Writer.fixed state.spkSecret ++ Writer.list Writer.fixed state.otpSecrets

def read : Reader PreKeySecretsState := do
  let spkSecret ← Reader.fixed 32
  let otpSecrets ← Reader.list (Reader.fixed 32)
  return { spkSecret := spkSecret, otpSecrets := otpSecrets }

def decode (input : Bytes) : Except WireError PreKeySecretsState := Reader.decodeAll read input

theorem codec : Codec read encode fun state => state.otpSecrets.length < 2 ^ 32 := by
  have hotps := codec_list (codec_fixed 32) fun key => by simp
  refine ⟨fun hfits => ?_, ?_⟩
  · exact (codec_fixed 32).reads_bind trivial <| hotps.reads_map ⟨hfits, by simp⟩ _
  · exact (codec_fixed 32).takes_bind fun spk _ => hotps.takes_map fun otps hfits =>
      ⟨by simp [encode], hfits.1⟩

end PreKeySecretsState

end Dante.Dm
