import Dante.Crypto.Suite
import Dante.Proto.Enc

/-!
The proof-of-work puzzle: an Argon2id digest with enough leading zero bits, and the
wire form of a proof. Solving is a random search; one attempt of it is modelled, with the
nonce that was drawn.
-/

namespace Dante.Crypto.Pow

def parallelism : UInt32 := 1

def maxVerifyMCostKib : UInt32 := 131072

def maxVerifyTCost : UInt32 := 8

structure Difficulty where
  mCostKib : UInt32
  tCost : UInt32
  bits : UInt8
  deriving DecidableEq, Repr

def registration : Difficulty := { mCostKib := 65536, tCost := 3, bits := 20 }

def liveness : Difficulty := { mCostKib := 16384, tCost := 3, bits := 16 }

structure PowProof where
  mCostKib : UInt32
  tCost : UInt32
  difficulty : UInt8
  nonce : ByteArr 16
  deriving DecidableEq

variable (S : Suite)

def digest (challenge : Hash) (nonce : ByteArr 16) (mCostKib tCost : UInt32) :
    Except CryptoError Hash :=
  S.argon2id (challenge.toList ++ nonce.toList) (challenge.toList.take 16) mCostKib tCost
    parallelism

def leadingZeroBits : Bytes → Nat
  | [] => 0
  | byte :: rest => if byte = 0 then 8 + leadingZeroBits rest else 7 - byte.toNat.log2

/-- The floors are the verifier's; the ceilings are checked before Argon2 runs,
since the costs are untrusted. -/
def verify (challenge : Hash) (proof : PowProof) (minBits : UInt8)
    (minMCostKib minTCost : UInt32) : Except CryptoError Unit := do
  if proof.difficulty < minBits ∨ proof.mCostKib < minMCostKib ∨ proof.tCost < minTCost then
    throw .powUnmetDifficulty
  if proof.mCostKib > maxVerifyMCostKib ∨ proof.tCost > maxVerifyTCost then
    throw .powUnmetDifficulty
  let d ← digest S challenge proof.nonce proof.mCostKib proof.tCost
  if leadingZeroBits d.toList ≥ proof.difficulty.toNat then
    return ()
  else
    throw .powUnmetDifficulty

/-- One attempt of the solver. -/
def tryOne (challenge : Hash) (difficulty : Difficulty) (nonce : ByteArr 16) : Option PowProof :=
  match digest S challenge nonce difficulty.mCostKib difficulty.tCost with
  | .error _ => none
  | .ok d =>
    if leadingZeroBits d.toList ≥ difficulty.bits.toNat then
      some { mCostKib := difficulty.mCostKib, tCost := difficulty.tCost,
             difficulty := difficulty.bits, nonce }
    else none

/-- What the solver returns, whichever nonce it hits. -/
def Solved (challenge : Hash) (difficulty : Difficulty) (proof : PowProof) : Prop :=
  ∃ nonce, tryOne S challenge difficulty nonce = some proof

variable {S}

/-- A solved puzzle passes exactly where its difficulty is between the floors and the
ceilings. -/
theorem verify_of_solved {challenge : Hash} {difficulty : Difficulty} {proof : PowProof}
    (hsolved : Solved S challenge difficulty proof) (minBits : UInt8)
    (minMCostKib minTCost : UInt32) :
    verify S challenge proof minBits minMCostKib minTCost = .ok () ↔
      (minBits ≤ difficulty.bits ∧ minMCostKib ≤ difficulty.mCostKib ∧
        minTCost ≤ difficulty.tCost) ∧
      difficulty.mCostKib ≤ maxVerifyMCostKib ∧ difficulty.tCost ≤ maxVerifyTCost := by
  obtain ⟨nonce, hattempt⟩ := hsolved
  unfold tryOne at hattempt
  split at hattempt
  · cases hattempt
  rename_i d hdigest
  split at hattempt
  · rename_i hbits
    cases hattempt
    rw [verify]
    by_cases hfloor : minBits ≤ difficulty.bits ∧ minMCostKib ≤ difficulty.mCostKib ∧
        minTCost ≤ difficulty.tCost
    · by_cases hceiling : difficulty.mCostKib ≤ maxVerifyMCostKib ∧
          difficulty.tCost ≤ maxVerifyTCost
      · rw [if_neg (by simpa using hfloor), if_neg (by simpa using hceiling)]
        simp [hdigest, hbits, hfloor, hceiling, bind, Except.bind, pure, Except.pure]
      · rw [if_neg (by simpa using hfloor), if_pos (by simpa [imp_iff_not_or] using hceiling)]
        exact iff_of_false (by rintro ⟨⟩) fun h => hceiling h.2
    · rw [if_pos (by simpa [imp_iff_not_or, or_assoc] using hfloor)]
      exact iff_of_false (by rintro ⟨⟩) fun h => hfloor h.1
  · cases hattempt

variable (S)

open Enc

def write (proof : PowProof) : Bytes :=
  Writer.u32 proof.mCostKib ++ Writer.u32 proof.tCost ++ Writer.u8 proof.difficulty ++
    Writer.fixed proof.nonce

def read : Reader PowProof := do
  let mCostKib ← Reader.u32
  let tCost ← Reader.u32
  let difficulty ← Reader.u8
  let nonce ← Reader.fixed 16
  return { mCostKib, tCost, difficulty, nonce }

theorem reads_write (proof : PowProof) : Parser.Reads read (write proof) proof := by
  have hparts : write proof = Writer.u32 proof.mCostKib ++ (Writer.u32 proof.tCost ++
      (Writer.u8 proof.difficulty ++ (Writer.fixed proof.nonce ++ []))) := by
    simp [write]
  rw [hparts]
  refine (Reader.reads_u32 proof.mCostKib).bind ?_
  refine (Reader.reads_u32 proof.tCost).bind ?_
  refine (Reader.reads_u8 proof.difficulty).bind ?_
  exact (Reader.reads_fixed proof.nonce).bind (Parser.Reads.pure proof)

example : leadingZeroBits [0x00, 0x0f, 0xff] = 12 := by decide

end Dante.Crypto.Pow
