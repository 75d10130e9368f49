import Dante.Core.PolicyEdits
import Dante.Library.Newest

/-!
How a member learns the policies of its servers. A policy message may come from anyone; what
counts is the signature of the server's root key and the version. The member here stays in
its channels: leaving the last channel of a server forgets the server's policy.
-/

namespace Dante.Core.Policy

open Crypto Except

/-- A control message with a policy, and the key of its sender. -/
structure PolicyMessage where
  sender : Key
  policy : Bytes
  deriving DecidableEq

/-- The `Policy` branch of `handle_channel_control`. The sender does not matter. -/
def receivePolicy (S : Suite) (policies : AssocMap Key ServerPolicy) (message : PolicyMessage) :
    AssocMap Key ServerPolicy :=
  match ServerPolicy.decode message.policy with
  | .error _ => policies
  | .ok policy =>
    match policy.verify S with
    | .error _ => policies
    | .ok _ =>
      let newer := (policies.lookup policy.serverRoot).all fun current =>
        policy.version > current.version
      if newer then policies.insert policy.serverRoot policy else policies

def deliver (S : Suite) (messages : List PolicyMessage) : AssocMap Key ServerPolicy :=
  Steps.exec (receivePolicy S) ∅ messages

/-- The policy of a message, if it decodes and its signature verifies. -/
def validPolicy (S : Suite) (message : PolicyMessage) : Option ServerPolicy :=
  (ServerPolicy.decode message.policy).toOption.filter fun policy => (policy.verify S).isOk

def validPolicies (S : Suite) (messages : List PolicyMessage) : List ServerPolicy :=
  messages.filterMap (validPolicy S)

variable {S : Suite}

theorem validPolicy_eq_some {message : PolicyMessage} {policy : ServerPolicy} :
    validPolicy S message = some policy ↔
      ServerPolicy.decode message.policy = .ok policy ∧ policy.verify S = .ok () := by
  have hok : (policy.verify S).isOk = true ↔ policy.verify S = .ok () := by
    cases policy.verify S with
    | error e | ok u => simp [Except.isOk, Except.toBool]
  cases hdecode : ServerPolicy.decode message.policy with
  | error e => simp [validPolicy, hdecode, Except.toOption]
  | ok found =>
    simp only [validPolicy, hdecode, Except.toOption, Option.filter_eq_some_iff,
      Option.some.injEq, Except.ok.injEq, hok]

/-- A message offers its policy, if it is valid, at its version. -/
theorem receivePolicy_eq (policies : AssocMap Key ServerPolicy) (message : PolicyMessage) :
    receivePolicy S policies message = (validPolicy S message).elim policies
      (Newest.offer ServerPolicy.serverRoot (fun policy => policy.version.toNat) policies) := by
  unfold receivePolicy
  cases hvalid : validPolicy S message with
  | none =>
    cases hdecode : ServerPolicy.decode message.policy with
    | error e => rfl
    | ok policy =>
      cases hverify : policy.verify S with
      | error e => simp [hverify]
      | ok u =>
        rw [validPolicy_eq_some.mpr ⟨hdecode, hverify⟩] at hvalid
        cases hvalid
  | some policy =>
    obtain ⟨hdecode, hverify⟩ := validPolicy_eq_some.mp hvalid
    simp only [hdecode, hverify, Option.elim, Newest.offer]
    cases policies.lookup policy.serverRoot with
    | none => rfl
    | some current => simp [UInt64.lt_iff_toNat_lt]

theorem validPolicies_append (first second : List PolicyMessage) :
    validPolicies S (first ++ second) = validPolicies S first ++ validPolicies S second :=
  List.filterMap_append

theorem deliver_eq (messages : List PolicyMessage) : deliver S messages =
    Steps.exec (Newest.offer ServerPolicy.serverRoot fun policy => policy.version.toNat) ∅
      (validPolicies S messages) := by
  induction messages using List.reverseRecOn with
  | nil => rfl
  | append_singleton messages message ih =>
    rw [deliver, Steps.exec_snoc, receivePolicy_eq, ← deliver, ih, validPolicies_append]
    cases hvalid : validPolicy S message with
    | none =>
      have hnone : validPolicies S [message] = [] := List.filterMap_cons_none hvalid
      rw [hnone, List.append_nil]
      rfl
    | some policy =>
      have hsome : validPolicies S [message] = [policy] := List.filterMap_cons_some hvalid
      rw [hsome, Steps.exec_snoc]
      rfl

theorem mem_validPolicies_congr {messages others : List PolicyMessage}
    (hsame : ∀ message, message ∈ others ↔ message ∈ messages) (policy : ServerPolicy) :
    policy ∈ validPolicies S others ↔ policy ∈ validPolicies S messages := by
  simp only [validPolicies, List.mem_filterMap, hsame]

/-- The stored policy of a root is the valid one with the greatest version, whatever else was
delivered, in which order and how often; and the version never decreases on the way. -/
theorem newest_policy_stored (messages : List PolicyMessage)
    (hunique : ∀ policy ∈ validPolicies S messages, ∀ other ∈ validPolicies S messages,
      policy.serverRoot = other.serverRoot → policy.version = other.version → policy = other) :
    (∀ serverRoot policy, (deliver S messages).lookup serverRoot = some policy ↔
      policy ∈ validPolicies S messages ∧ policy.serverRoot = serverRoot ∧
        ∀ other ∈ validPolicies S messages, other.serverRoot = serverRoot →
          other.version ≤ policy.version) ∧
    (∀ serverRoot, (deliver S messages).lookup serverRoot = none ↔
      ∀ policy ∈ validPolicies S messages, policy.serverRoot ≠ serverRoot) ∧
    (∀ others : List PolicyMessage, (∀ message, message ∈ others ↔ message ∈ messages) →
      ∀ serverRoot, (deliver S others).lookup serverRoot = (deliver S messages).lookup serverRoot) ∧
    (∀ before after, messages = before ++ after → ∀ serverRoot old,
      (deliver S before).lookup serverRoot = some old →
        ∃ new, (deliver S messages).lookup serverRoot = some new ∧ old.version ≤ new.version) := by
  have hsome (received : List PolicyMessage)
      (hsame : ∀ message, message ∈ received ↔ message ∈ messages) (serverRoot : Key)
      (policy : ServerPolicy) : (deliver S received).lookup serverRoot = some policy ↔
        Newest.IsNewest ServerPolicy.serverRoot (fun p => p.version.toNat)
          (validPolicies S messages) serverRoot policy := by
    rw [deliver_eq, (Newest.keeps_exec _).lookup_eq_some_iff]
    · exact Newest.IsNewest.congr (mem_validPolicies_congr hsame)
    · intro first hfirst second hsecond hroot hversion
      rw [mem_validPolicies_congr hsame] at hfirst hsecond
      exact hunique first hfirst second hsecond hroot (UInt64.toNat_inj.mp hversion)
  refine ⟨?_, ?_, ?_, ?_⟩
  · intro serverRoot policy
    simp only [hsome messages (fun _ => Iff.rfl), Newest.IsNewest, UInt64.le_iff_toNat_le]
  · intro serverRoot
    rw [deliver_eq, (Newest.keeps_exec _).lookup_eq_none_iff]
  · intro others hsame serverRoot
    apply Option.ext
    intro policy
    rw [hsome others hsame, hsome messages fun _ => Iff.rfl]
  · rintro before after rfl serverRoot old hold
    rw [deliver_eq] at hold
    obtain ⟨new, hnew, hle⟩ := Newest.version_le_of_append hold (validPolicies S after)
    rw [deliver_eq, validPolicies_append]
    exact ⟨new, hnew, UInt64.le_iff_toNat_le.mpr hle⟩

/-- A server's first policy, and its second one with a nickname. -/
def firstPolicy : ServerPolicy := .genesis (sampleSecret (.fill 32 1)) (.fill 32 2) 0

def secondPolicy : ServerPolicy :=
  .signed (sampleSecret (.fill 32 1))
    { firstPolicy with version := 2, nicknames := [(.fill 32 3, "Ann")] } 1

/-- The second policy, a message that is no policy, the first policy and the second again. -/
def lateFirst : List PolicyMessage :=
  [⟨.fill 32 9, secondPolicy.encode⟩, ⟨.fill 32 8, []⟩, ⟨.fill 32 7, firstPolicy.encode⟩,
    ⟨.fill 32 9, secondPolicy.encode⟩]

theorem validPolicies_lateFirst :
    validPolicies sampleSuite lateFirst = [secondPolicy, firstPolicy, secondPolicy] := by
  have hfirst (sender : Key) : validPolicy sampleSuite ⟨sender, firstPolicy.encode⟩ = some firstPolicy :=
    validPolicy_eq_some.mpr ⟨(ServerPolicy.sound_genesis _ _ _).decode_encode,
      ServerPolicy.verify_signed _ _ _⟩
  have hvalid : secondPolicy.Valid := by
    constructor
    case nicknames => exact List.forall_mem_singleton.mpr (by decide)
    all_goals exact fun _ hmem => nomatch hmem
  have hsecond (sender : Key) : validPolicy sampleSuite ⟨sender, secondPolicy.encode⟩ = some secondPolicy :=
    validPolicy_eq_some.mpr ⟨ServerPolicy.decode_encode hvalid (by decide),
      ServerPolicy.verify_signed _ _ _⟩
  have hother (sender : Key) : validPolicy sampleSuite ⟨sender, []⟩ = none := rfl
  simp [validPolicies, lateFirst, hfirst, hsecond, hother]

theorem newest_policy_stored_lateFirst :
    (deliver sampleSuite lateFirst).lookup (.fill 32 1) = some secondPolicy := by
  have hunique : ∀ policy ∈ validPolicies sampleSuite lateFirst,
      ∀ other ∈ validPolicies sampleSuite lateFirst, policy.serverRoot = other.serverRoot →
        policy.version = other.version → policy = other := by
    have hversions : firstPolicy.version ≠ secondPolicy.version := by decide
    rw [validPolicies_lateFirst]
    simp [hversions, hversions.symm]
  refine ((newest_policy_stored lateFirst hunique).1 _ _).mpr ⟨?_, rfl, ?_⟩
  · rw [validPolicies_lateFirst]
    exact List.mem_cons_self
  · have hle : firstPolicy.version ≤ secondPolicy.version := by decide
    rw [validPolicies_lateFirst]
    simp [hle]

end Dante.Core.Policy
