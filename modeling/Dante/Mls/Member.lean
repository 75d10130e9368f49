import Dante.Core.Epochs

/-!
The members of an MLS group and the identities that they go by. Each leaf of a group carries a
credential in which a long-term key vouches for an identity and for the leaf's own signature key,
and `process_from` looks at all leaves that a commit brings before it merges it. A commit can also
be external: whoever sends it joins by it, with the leaf of its update path.

OpenMLS is outside the model. It reads messages and merges commits.
-/

namespace Dante.Mls

open Crypto Core Dm Enc Except

inductive MlsError where
  | group (reason : String)
  | codec (reason : String)
  | unexpected (what : String)

def MlsError.display : MlsError → String
  | .group reason => "mls group: " ++ reason
  | .codec reason => "mls codec: " ++ reason
  | .unexpected what => "mls: " ++ what

structure DanteCredential where
  identity : Bytes
  idkPub : Key
  sig : Signature
  deriving DecidableEq

def credentialBindingDomain : Bytes := "dante/mls/credential-binding/v1".toUTF8.toList

def credentialBindingChallenge (S : Suite) (identity mlsSignaturePub : Bytes) : Hash :=
  sha256Parts S.sha256 [credentialBindingDomain, identity, mlsSignaturePub]

namespace DanteCredential

def encode (cred : DanteCredential) : Bytes :=
  Writer.bytes cred.identity ++ Writer.fixed cred.idkPub ++ Writer.fixed cred.sig

def read : Reader DanteCredential := do
  let identity ← Reader.bytes
  let idkPub ← Reader.fixed 32
  let sig ← Reader.fixed 64
  return { identity, idkPub, sig }

def decode (bytes : Bytes) : Option DanteCredential := (Reader.decodeAll read bytes).toOption

def decodeAndVerify (S : Suite) (bytes mlsSignaturePub : Bytes) : Option DanteCredential := do
  let cred ← decode bytes
  let challenge := credentialBindingChallenge S cred.identity mlsSignaturePub
  let key ← (SignPublic.fromBytes S cred.idkPub).toOption
  (key.verify challenge.toList cred.sig).toOption
  return cred

end DanteCredential

def credentialIdentity (content : Bytes) : Bytes :=
  ((DanteCredential.decode content).map (·.identity)).getD []

structure LeafNode where
  credential : Bytes
  signatureKey : Bytes
  deriving DecidableEq

abbrev Tree := AssocMap UInt32 LeafNode

structure StagedCommit where
  /-- The leaf of the committer; none has whoever joins by this commit. -/
  committer : Option UInt32
  /-- The leaves of the key packages. -/
  adds : List LeafNode
  /-- The leaf of the sender, if it is a member, and the new leaf. -/
  updates : List (Option UInt32 × LeafNode)
  updatePath : Option LeafNode
  /-- By remove and self-remove proposals; `process_from` does not look at them. -/
  removes : List UInt32

inductive Content where
  | application (plaintext : Bytes)
  | stagedCommit (staged : StagedCommit)
  /-- A proposal, or a message of one's own. -/
  | other

structure ProcessedMessage where
  credential : Bytes
  content : Content

structure OpenMls where
  Group : Type
  tree : Group → Tree
  epoch : Group → UInt64
  /-- Parsing and `process_message`, which may use up keys of the group. -/
  processMessage : Group → Bytes → Except MlsError ProcessedMessage × Group
  mergeStagedCommit : Group → StagedCommit → Except String Group
  Welcome : Type
  /-- Parsing and `StagedWelcome::new_from_welcome`. -/
  stageWelcome : Bytes → Except MlsError Welcome
  welcomeTree : Welcome → Tree
  intoGroup : Welcome → Except String Group

namespace LeafNode

/-- The binding in a leaf, if it is consistent. -/
def binding (S : Suite) (leaf : LeafNode) : Option DanteCredential :=
  DanteCredential.decodeAndVerify S leaf.credential leaf.signatureKey

def identity (leaf : LeafNode) : Bytes := credentialIdentity leaf.credential

theorem identity_of_binding {S : Suite} {leaf : LeafNode} {cred : DanteCredential}
    (hbinding : leaf.binding S = some cred) : leaf.identity = cred.identity := by
  obtain ⟨decoded, hdecode, hverify⟩ := Option.bind_eq_some_iff.mp hbinding
  obtain ⟨_, _, hverify⟩ := Option.bind_eq_some_iff.mp hverify
  obtain ⟨_, _, hcred⟩ := Option.bind_eq_some_iff.mp hverify
  cases hcred
  rw [identity, credentialIdentity, hdecode, Option.map_some, Option.getD_some]

end LeafNode

section Checks

variable (S : Suite) (accept : Bytes → Key → Bool)

def checkAdd (leaf : LeafNode) : Except MlsError Unit := do
  let cred ← okOr (leaf.binding S)
    (.unexpected "a commit tried to add a member with no valid DaNTe credential binding")
  refuseIf (accept cred.identity cred.idkPub = false)
    (.unexpected "a commit tried to add a member this client doesn't accept")

def checkUpdate (tree : Tree) (update : Option UInt32 × LeafNode) : Except MlsError Unit := do
  let cred ← okOr (update.2.binding S) (.unexpected
    "a commit tried to update a member to a credential with no valid DaNTe binding")
  let index ← okOr update.1
    (.unexpected "a commit's update proposal had an unexpected sender")
  refuseIf ((tree.lookup index).map LeafNode.identity ≠ some cred.identity) (.unexpected
    "a commit tried to change a member's identity via an update, not just rotate their key")

def checkPath (sender : Bytes) (leaf : LeafNode) : Except MlsError Unit := do
  let cred ← okOr (leaf.binding S)
    (.unexpected "a commit's own update path has no valid DaNTe credential binding")
  refuseIf (cred.identity ≠ sender) (.unexpected
    ("a commit tried to change the committer's own identity via its " ++
      "update path, not just rotate their key"))

def checkCommit (tree : Tree) (sender : Bytes) (staged : StagedCommit) : Except MlsError Unit := do
  staged.adds.forM (checkAdd S accept)
  staged.updates.forM (checkUpdate S tree)
  staged.updatePath.toList.forM (checkPath S sender)

end Checks

namespace OpenMls

variable (mls : OpenMls) (S : Suite)

def processFrom (group : mls.Group) (wire : Bytes) (allowed : Option Bytes)
    (accept : Bytes → Key → Bool) : Except MlsError Processed × mls.Group :=
  match mls.processMessage group wire with
  | (.error e, group) => (.error e, group)
  | (.ok message, group) =>
    let sender := credentialIdentity message.credential
    match message.content with
    | .application plaintext => (.ok (.application sender plaintext), group)
    | .stagedCommit staged =>
      if allowed.any (· ≠ sender) then (.ok .ignored, group)
      else
        match checkCommit S accept (mls.tree group) sender staged with
        | .error e => (.error e, group)
        | .ok () =>
          match mls.mergeStagedCommit group staged with
          | .error e => (.error (.group e), group)
          | .ok group => (.ok .epochChanged, group)
    | .other => (.ok .ignored, group)

/-- `Pending::join` -/
def join (welcome : Bytes) : Except MlsError mls.Group := do
  let staged ← mls.stageWelcome welcome
  (mls.welcomeTree staged).values.forM fun leaf => refuseIf (leaf.binding S = none) (.unexpected
    "a member in this Welcome's ratchet tree has no valid DaNTe credential binding")
  (mls.intoGroup staged).mapError .group

/-- A commit is reported as it is, and it changes no leaf but those that it names. -/
structure Faithful : Prop where
  tree_read : ∀ group wire, mls.tree (mls.processMessage group wire).2 = mls.tree group
  epoch_read : ∀ group wire, mls.epoch (mls.processMessage group wire).2 = mls.epoch group
  /-- A member signs a commit under the credential of its leaf. -/
  committer : ∀ {group wire message staged index},
    (mls.processMessage group wire).1 = .ok message → message.content = .stagedCommit staged →
    staged.committer = some index →
    ∃ leaf, (mls.tree group).lookup index = some leaf ∧ message.credential = leaf.credential
  /-- Whoever joins by a commit brings a leaf. -/
  joiner : ∀ {group wire message staged},
    (mls.processMessage group wire).1 = .ok message → message.content = .stagedCommit staged →
    staged.committer = none → ∃ leaf, staged.updatePath = some leaf
  epoch_merge : ∀ {group staged merged}, mls.mergeStagedCommit group staged = .ok merged →
    mls.epoch merged = mls.epoch group + 1
  kept : ∀ {group staged merged index leaf}, mls.mergeStagedCommit group staged = .ok merged →
    (mls.tree group).lookup index = some leaf → index ∉ staged.removes →
    ∃ leaf', (mls.tree merged).lookup index = some leaf' ∧
      (leaf' = leaf ∨ (some index, leaf') ∈ staged.updates ∨
        (staged.committer = some index ∧ staged.updatePath = some leaf'))
  added : ∀ {group staged merged index leaf}, mls.mergeStagedCommit group staged = .ok merged →
    (mls.tree merged).lookup index = some leaf →
    ((mls.tree group).lookup index = none ∨ index ∈ staged.removes) →
    leaf ∈ staged.adds ∨ (staged.committer = none ∧ staged.updatePath = some leaf)
  joined : ∀ {group staged merged leaf}, mls.mergeStagedCommit group staged = .ok merged →
    staged.committer = none → staged.updatePath = some leaf →
    ∃ index, (mls.tree merged).lookup index = some leaf ∧
      ((mls.tree group).lookup index = none ∨ index ∈ staged.removes)
  /-- The group of a Welcome has the leaves that the Welcome shows. -/
  tree_welcome : ∀ {staged group}, mls.intoGroup staged = .ok group →
    mls.tree group = mls.welcomeTree staged

/-- Every leaf carries a consistent binding. -/
def Bound (group : mls.Group) : Prop :=
  ∀ index leaf, (mls.tree group).lookup index = some leaf → ∃ cred, leaf.binding S = some cred

/-- A merge after which everyone is still who they were, and whoever is new was accepted. -/
structure KeepsIdentities (accept : Bytes → Key → Bool) (group merged : mls.Group)
    (staged : StagedCommit) : Prop where
  bound : mls.Bound S merged
  same : ∀ index leaf, (mls.tree group).lookup index = some leaf → index ∉ staged.removes →
    ∃ leaf', (mls.tree merged).lookup index = some leaf' ∧ leaf'.identity = leaf.identity
  accepted : ∀ index leaf, (mls.tree merged).lookup index = some leaf →
    ((mls.tree group).lookup index = none ∨ index ∈ staged.removes) →
    ∃ cred, leaf.binding S = some cred ∧ accept cred.identity cred.idkPub = true

/-- The group is left as it was, or a commit of the allowed committer is merged that keeps
identities. -/
def ProcessesRight (group : mls.Group) (wire allowed : Bytes) (accept : Bytes → Key → Bool) : Prop :=
  let after := (mls.processFrom S group wire (some allowed) accept).2
  (mls.tree after = mls.tree group ∧ mls.epoch after = mls.epoch group) ∨
    ∃ message staged, (mls.processMessage group wire).1 = .ok message ∧
      message.content = .stagedCommit staged ∧ credentialIdentity message.credential = allowed ∧
      mls.KeepsIdentities S accept group after staged

/-- An external commit that passes the checks under the allowed committer's name, by which
someone joins whom the callback refuses. -/
def Intrudes (group : mls.Group) (wire allowed : Bytes) (accept : Bytes → Key → Bool) : Prop :=
  ∃ message staged leaf cred merged, (mls.processMessage group wire).1 = .ok message ∧
    message.content = .stagedCommit staged ∧ staged.committer = none ∧
    credentialIdentity message.credential = allowed ∧
    checkCommit S accept (mls.tree group) allowed staged = .ok () ∧
    mls.mergeStagedCommit (mls.processMessage group wire).2 staged = .ok merged ∧
    staged.updatePath = some leaf ∧ leaf.binding S = some cred ∧
    accept cred.identity cred.idkPub = false

end OpenMls

section Checks

variable {S : Suite} {accept : Bytes → Key → Bool}

theorem checkAdd_ok {leaf : LeafNode} (hok : checkAdd S accept leaf = .ok ()) :
    ∃ cred, leaf.binding S = some cred ∧ accept cred.identity cred.idkPub = true := by
  obtain ⟨cred, hcred, haccept⟩ := bind_eq_ok.mp hok
  exact ⟨cred, okOr_eq_ok.mp hcred, by simpa using refuseIf_eq_ok.mp haccept⟩

theorem checkUpdate_ok {tree : Tree} {index : UInt32} {leaf old : LeafNode}
    (hok : checkUpdate S tree (some index, leaf) = .ok ()) (hold : tree.lookup index = some old) :
    (∃ cred, leaf.binding S = some cred) ∧ leaf.identity = old.identity := by
  obtain ⟨cred, hcred, hok⟩ := bind_eq_ok.mp hok
  obtain ⟨_, hindex, hsame⟩ := bind_eq_ok.mp hok
  cases okOr_eq_ok.mp hindex
  have hbinding := okOr_eq_ok.mp hcred
  have hidentity := not_not.mp (refuseIf_eq_ok.mp hsame)
  rw [hold, Option.map_some, Option.some.injEq] at hidentity
  exact ⟨⟨cred, hbinding⟩, (LeafNode.identity_of_binding hbinding).trans hidentity.symm⟩

theorem checkPath_ok {sender : Bytes} {leaf : LeafNode} (hok : checkPath S sender leaf = .ok ()) :
    (∃ cred, leaf.binding S = some cred) ∧ leaf.identity = sender := by
  obtain ⟨cred, hcred, hsame⟩ := bind_eq_ok.mp hok
  have hbinding := okOr_eq_ok.mp hcred
  exact ⟨⟨cred, hbinding⟩, (LeafNode.identity_of_binding hbinding).trans
    (not_not.mp (refuseIf_eq_ok.mp hsame))⟩

theorem checkCommit_ok {tree : Tree} {sender : Bytes} {staged : StagedCommit}
    (hok : checkCommit S accept tree sender staged = .ok ()) :
    (∀ leaf ∈ staged.adds, checkAdd S accept leaf = .ok ()) ∧
      (∀ update ∈ staged.updates, checkUpdate S tree update = .ok ()) ∧
      ∀ leaf, staged.updatePath = some leaf → checkPath S sender leaf = .ok () := by
  obtain ⟨_, hadds, hok⟩ := bind_eq_ok.mp hok
  obtain ⟨_, hupdates, hpath⟩ := bind_eq_ok.mp hok
  refine ⟨forM_eq_ok.mp hadds, forM_eq_ok.mp hupdates, fun leaf hleaf => ?_⟩
  exact forM_eq_ok.mp hpath leaf (by rw [hleaf]; exact List.mem_singleton_self leaf)

end Checks

namespace OpenMls

variable {mls : OpenMls} {S : Suite}
variable {accept : Bytes → Key → Bool} {group : mls.Group}

/-- What `process_from` can do: nothing to the tree, or merge a commit that passes the checks. -/
theorem processFrom_cases (hfaithful : mls.Faithful) (group : mls.Group) (wire : Bytes)
    (allowed : Option Bytes) (accept : Bytes → Key → Bool) :
    let result := mls.processFrom S group wire allowed accept
    (mls.tree result.2 = mls.tree group ∧ mls.epoch result.2 = mls.epoch group) ∨
      ∃ message staged, (mls.processMessage group wire).1 = .ok message ∧
        message.content = .stagedCommit staged ∧
        (∀ name ∈ allowed, credentialIdentity message.credential = name) ∧
        checkCommit S accept (mls.tree group) (credentialIdentity message.credential) staged
          = .ok () ∧
        mls.mergeStagedCommit (mls.processMessage group wire).2 staged = .ok result.2 := by
  have htree := hfaithful.tree_read group wire
  have hepoch := hfaithful.epoch_read group wire
  unfold processFrom
  rcases hread : mls.processMessage group wire with ⟨e | message, read⟩ <;>
    rw [hread] at htree hepoch
  · exact .inl ⟨htree, hepoch⟩
  · rcases hcontent : message.content with _ | staged | _
    · simp only [hcontent]
      exact .inl ⟨htree, hepoch⟩
    · by_cases hallowed : allowed.any (· ≠ credentialIdentity message.credential) = true
      · simp only [hcontent, if_pos hallowed]
        exact .inl ⟨htree, hepoch⟩
      · simp only [hcontent, if_neg hallowed]
        rw [htree]
        rcases hcheck : checkCommit S accept (mls.tree group)
          (credentialIdentity message.credential) staged with e | _
        · exact .inl ⟨htree, hepoch⟩
        · rcases hmerge : mls.mergeStagedCommit read staged with e | merged
          · exact .inl ⟨htree, hepoch⟩
          · refine .inr ⟨message, staged, rfl, hcontent, fun name hname => ?_, hcheck, hmerge⟩
            cases hname
            exact (by simpa using hallowed : name = _).symm
    · simp only [hcontent]
      exact .inl ⟨htree, hepoch⟩

theorem processFrom_merge (hfaithful : mls.Faithful) {group merged : mls.Group}
    {wire allowed : Bytes} {message : ProcessedMessage} {staged : StagedCommit}
    (hread : (mls.processMessage group wire).1 = .ok message)
    (hcontent : message.content = .stagedCommit staged)
    (hallowed : credentialIdentity message.credential = allowed)
    (hcheck : checkCommit S accept (mls.tree group) allowed staged = .ok ())
    (hmerge : mls.mergeStagedCommit (mls.processMessage group wire).2 staged = .ok merged) :
    (mls.processFrom S group wire (some allowed) accept).2 = merged := by
  have htree := hfaithful.tree_read group wire
  unfold processFrom
  rcases hmessage : mls.processMessage group wire with ⟨_, read⟩
  rw [hmessage] at hread hmerge htree
  cases hread
  have hname : ¬ (some allowed).any (· ≠ credentialIdentity message.credential) = true := by
    simp [hallowed]
  simp only [hcontent, if_neg hname]
  rw [htree, hallowed, hcheck]
  simp only [hmerge]

/-- What the checks are for. Only who joins by an external commit is left to ask about. -/
theorem keepsIdentities_of_check (hfaithful : mls.Faithful) {group merged : mls.Group}
    (hbound : mls.Bound S group) {wire : Bytes} {message : ProcessedMessage} {staged : StagedCommit}
    (hread : (mls.processMessage group wire).1 = .ok message)
    (hcontent : message.content = .stagedCommit staged)
    (hcheck : checkCommit S accept (mls.tree group) (credentialIdentity message.credential) staged
      = .ok ())
    (hmerge : mls.mergeStagedCommit (mls.processMessage group wire).2 staged = .ok merged) :
    mls.Bound S merged ∧
      ((∀ leaf cred, staged.committer = none → staged.updatePath = some leaf →
        leaf.binding S = some cred → accept cred.identity cred.idkPub = true) →
      mls.KeepsIdentities S accept group merged staged) := by
  obtain ⟨hadds, hupdates, hpath⟩ := checkCommit_ok hcheck
  have htree := hfaithful.tree_read group wire
  have hkept : ∀ index leaf, (mls.tree group).lookup index = some leaf → index ∉ staged.removes →
      ∃ leaf', (mls.tree merged).lookup index = some leaf' ∧
        (∃ cred, leaf'.binding S = some cred) ∧ leaf'.identity = leaf.identity := by
    intro index leaf hleaf hstays
    obtain ⟨leaf', hleaf', hnew⟩ := hfaithful.kept hmerge (by rw [htree]; exact hleaf) hstays
    refine ⟨leaf', hleaf', ?_⟩
    rcases hnew with rfl | hupdate | ⟨hcommitter, hupdate⟩
    · exact ⟨hbound _ _ hleaf, rfl⟩
    · exact checkUpdate_ok (hupdates _ hupdate) hleaf
    · obtain ⟨hbinding, hidentity⟩ := checkPath_ok (hpath _ hupdate)
      obtain ⟨own, hown, hcredential⟩ := hfaithful.committer hread hcontent hcommitter
      cases hown.symm.trans hleaf
      exact ⟨hbinding, hidentity.trans (congrArg credentialIdentity hcredential)⟩
  have hadded : ∀ index leaf, (mls.tree merged).lookup index = some leaf →
      ((mls.tree group).lookup index = none ∨ index ∈ staged.removes) →
      leaf ∈ staged.adds ∨ (staged.committer = none ∧ staged.updatePath = some leaf) := by
    intro index leaf hleaf hfree
    exact hfaithful.added hmerge hleaf (by rw [htree]; exact hfree)
  have hmerged : mls.Bound S merged := by
    intro index leaf hleaf
    by_cases hfree : (mls.tree group).lookup index = none ∨ index ∈ staged.removes
    · rcases hadded index leaf hleaf hfree with hadd | ⟨_, hjoins⟩
      · obtain ⟨cred, hbinding, _⟩ := checkAdd_ok (hadds leaf hadd)
        exact ⟨cred, hbinding⟩
      · exact (checkPath_ok (hpath leaf hjoins)).1
    · obtain ⟨hsome, hstays⟩ := not_or.mp hfree
      obtain ⟨old, hold⟩ := Option.ne_none_iff_exists'.mp hsome
      obtain ⟨leaf', hleaf', hbinding, _⟩ := hkept index old hold hstays
      cases hleaf'.symm.trans hleaf
      exact hbinding
  refine ⟨hmerged, fun hjoiner => ⟨hmerged, fun index leaf hleaf hstays => ?_,
    fun index leaf hleaf hfree => ?_⟩⟩
  · obtain ⟨leaf', hleaf', _, hidentity⟩ := hkept index leaf hleaf hstays
    exact ⟨leaf', hleaf', hidentity⟩
  · rcases hadded index leaf hleaf hfree with hadd | ⟨hcommitter, hjoins⟩
    · exact checkAdd_ok (hadds leaf hadd)
    · obtain ⟨cred, hbinding⟩ := (checkPath_ok (hpath leaf hjoins)).1
      exact ⟨cred, hbinding, hjoiner leaf cred hcommitter hjoins hbinding⟩

/-- Commits cannot change who a leaf is. Nor do they bring in anyone whom the callback refuses,
external commits in the name of the allowed committer excepted. -/
theorem processesRight_iff (hfaithful : mls.Faithful) {group : mls.Group}
    (hbound : mls.Bound S group) (wire allowed : Bytes) (accept : Bytes → Key → Bool) :
    mls.ProcessesRight S group wire allowed accept ↔
      ¬ mls.Intrudes S group wire allowed accept := by
  constructor
  · rintro hright ⟨message, staged, leaf, cred, merged, hread, hcontent, hcommitter, hallowed,
      hcheck, hmerge, hpath, hbinding, hrefused⟩
    have hafter := processFrom_merge hfaithful hread hcontent hallowed hcheck hmerge
    rcases hright with ⟨_, hepoch⟩ | ⟨message', staged', hread', hcontent', _, hkeeps⟩
    · rw [hafter, hfaithful.epoch_merge hmerge, hfaithful.epoch_read] at hepoch
      exact absurd hepoch (by simp)
    · cases hread.symm.trans hread'
      cases hcontent.symm.trans hcontent'
      rw [hafter] at hkeeps
      obtain ⟨index, hleaf, hfree⟩ := hfaithful.joined hmerge hcommitter hpath
      rw [hfaithful.tree_read] at hfree
      obtain ⟨cred', hbinding', haccept⟩ := hkeeps.accepted index leaf hleaf hfree
      cases hbinding.symm.trans hbinding'
      exact Bool.false_ne_true (hrefused.symm.trans haccept)
  · intro hsafe
    rcases processFrom_cases hfaithful group wire (some allowed) accept with
      hsame | ⟨message, staged, hread, hcontent, hallowed, hcheck, hmerge⟩
    · exact .inl hsame
    · have hname := hallowed allowed rfl
      refine .inr ⟨message, staged, hread, hcontent, hname,
        (keepsIdentities_of_check hfaithful hbound hread hcontent hcheck hmerge).2 ?_⟩
      intro leaf cred hcommitter hpath hbinding
      by_contra hrefused
      rw [hname] at hcheck
      exact hsafe ⟨message, staged, leaf, cred, _, hread, hcontent, hcommitter, hname, hcheck,
        hmerge, hpath, hbinding, Bool.eq_false_iff.mpr hrefused⟩

/-- A leaf that the callback refuses and that was not there. -/
theorem not_processesRight {wire allowed : Bytes} (index : UInt32) (leaf : LeafNode)
    (hfree : (mls.tree group).lookup index = none)
    (hjoined : (mls.tree (mls.processFrom S group wire (some allowed) accept).2).lookup index
      = some leaf)
    (hrefused : (leaf.binding S).all (fun cred => !accept cred.identity cred.idkPub) = true) :
    ¬ mls.ProcessesRight S group wire allowed accept := by
  rintro (⟨htree, _⟩ | ⟨_, _, _, _, _, hkeeps⟩)
  · rw [htree, hfree] at hjoined
    cases hjoined
  · obtain ⟨cred, hbinding, haccept⟩ := hkeeps.accepted index leaf hjoined (.inl hfree)
    simp [hbinding, haccept] at hrefused

/-- What a poll uses of this. -/
def toMls (mls : OpenMls) (S : Suite) : Core.Mls where
  Member := mls.Group
  members group := (AssocMap.pairs (mls.tree group)).map fun (index, leaf) => (index, leaf.identity)
  processFrom group wire hostId accept :=
    let (result, group) := mls.processFrom S group wire (some hostId.toList) accept
    (result.mapError MlsError.display, group)

theorem bound_join (hfaithful : mls.Faithful) {welcome : Bytes}
    (hjoin : mls.join S welcome = .ok group) : mls.Bound S group := by
  obtain ⟨staged, _, hjoin⟩ := bind_eq_ok.mp hjoin
  obtain ⟨_, hleaves, hgroup⟩ := bind_eq_ok.mp hjoin
  intro index leaf hleaf
  rw [hfaithful.tree_welcome (mapError_eq_ok.mp hgroup)] at hleaf
  have hcheck := forM_eq_ok.mp hleaves leaf (AssocMap.mem_values.mpr ⟨index, hleaf⟩)
  exact Option.ne_none_iff_exists'.mp (refuseIf_eq_ok.mp hcheck)

theorem bound_processFrom (hfaithful : mls.Faithful) (hbound : mls.Bound S group) (wire : Bytes)
    (allowed : Option Bytes) (accept : Bytes → Key → Bool) :
    mls.Bound S (mls.processFrom S group wire allowed accept).2 := by
  rcases processFrom_cases hfaithful group wire allowed accept with
    ⟨htree, _⟩ | ⟨message, staged, hread, hcontent, _, hcheck, hmerge⟩
  · intro index leaf hleaf
    exact hbound index leaf (by rw [← htree]; exact hleaf)
  · exact (keepsIdentities_of_check hfaithful hbound hread hcontent hcheck hmerge).1

/-- Whatever a log or gossip holds, and whatever the ledger says meanwhile, every leaf of the
group stays bound. -/
theorem bound_read (hfaithful : mls.Faithful) (P : Primitives) (channelId : ChannelId)
    {ch : ChannelSession (mls.toMls S)} (hbound : mls.Bound S ch.mls)
    (reads : LogReading (mls.toMls S)) : mls.Bound S (ch.read P S channelId reads).mls := by
  induction reads generalizing ch with
  | nil => exact hbound
  | cons read rest ih =>
    refine ih ?_
    change mls.Bound S (read.1.openEntry P S channelId ch read.2).1.mls
    rw [ChannelEngine.openEntry]
    split
    · exact hbound
    · dsimp only
      split
      · exact hbound
      · rw [openPayload_mls]
        exact bound_processFrom hfaithful hbound _ _ _

end OpenMls

def sampleLeaf (identity : Bytes) (idk : Key) : LeafNode where
  credential := DanteCredential.encode ⟨identity, idk,
    sampleSign idk (credentialBindingChallenge sampleSuite identity [1]).toList⟩
  signatureKey := [1]

def sampleStaged : Bytes → StagedCommit
  | [0] => ⟨some 0, [sampleLeaf [7] (.fill 32 7)], [], none, []⟩
  | _ => ⟨none, [], [], some (sampleLeaf [1] (.fill 32 9)), []⟩

/-- The leaf that a commit brings. -/
def StagedCommit.newLeaf (staged : StagedCommit) : Option LeafNode :=
  if staged.updates = [] ∧ staged.removes = [] then
    match staged.committer, staged.adds, staged.updatePath with
    | some _, [leaf], none => some leaf
    | none, [], some leaf => some leaf
    | _, _, _ => none
  else none

def sampleMls : OpenMls where
  Group := Tree × UInt64
  tree group := group.1
  epoch group := group.2
  processMessage group wire :=
    let staged := sampleStaged wire
    match staged.committer.elim staged.updatePath group.1.lookup with
    | some leaf => (.ok ⟨leaf.credential, .stagedCommit staged⟩, group)
    | none => (.error (.group "no such member"), group)
  mergeStagedCommit group staged :=
    match staged.newLeaf with
    | some leaf =>
      if group.1.lookup 1 = none then .ok (group.1.insert 1 leaf, group.2 + 1) else .error "full"
    | none => .error "unsupported"
  Welcome := Tree
  stageWelcome _ := .ok ∅
  welcomeTree := id
  intoGroup tree := .ok (tree, 0)

theorem sampleMls_read {group : sampleMls.Group} {wire : Bytes} {message : ProcessedMessage}
    {staged : StagedCommit} (hread : (sampleMls.processMessage group wire).1 = .ok message)
    (hcontent : message.content = .stagedCommit staged) :
    ∃ leaf, staged.committer.elim staged.updatePath group.1.lookup = some leaf ∧
      message.credential = leaf.credential := by
  simp only [sampleMls] at hread
  split at hread
  · cases hread
    cases hcontent
    exact ⟨_, ‹_›, rfl⟩
  · cases hread

theorem sampleMls_merge {group merged : sampleMls.Group} {staged : StagedCommit}
    (hmerge : sampleMls.mergeStagedCommit group staged = .ok merged) :
    ∃ leaf, staged.newLeaf = some leaf ∧ group.1.lookup 1 = none ∧
      merged = (group.1.insert 1 leaf, group.2 + 1) := by
  simp only [sampleMls] at hmerge
  split at hmerge
  · split at hmerge
    · cases hmerge
      exact ⟨_, ‹_›, ‹_›, rfl⟩
    · cases hmerge
  · cases hmerge

theorem StagedCommit.newLeaf_eq_some {staged : StagedCommit} {leaf : LeafNode}
    (hleaf : staged.newLeaf = some leaf) :
    staged.removes = [] ∧ (leaf ∈ staged.adds ∨
      (staged.committer = none ∧ staged.updatePath = some leaf)) ∧
      (staged.committer = none → staged.updatePath = some leaf) := by
  unfold newLeaf at hleaf
  split at hleaf
  · rename_i hsupported
    refine ⟨hsupported.2, ?_⟩
    split at hleaf <;> simp_all
  · cases hleaf

theorem sampleMls_faithful : sampleMls.Faithful where
  tree_read group wire := by
    simp only [sampleMls]
    split <;> rfl
  epoch_read group wire := by
    simp only [sampleMls]
    split <;> rfl
  committer := by
    intro group wire message staged index hread hcontent hcommitter
    obtain ⟨leaf, hleaf, hcredential⟩ := sampleMls_read hread hcontent
    rw [hcommitter] at hleaf
    exact ⟨leaf, hleaf, hcredential⟩
  joiner := by
    intro group wire message staged hread hcontent hcommitter
    obtain ⟨leaf, hleaf, _⟩ := sampleMls_read hread hcontent
    rw [hcommitter] at hleaf
    exact ⟨leaf, hleaf⟩
  epoch_merge := by
    intro group staged merged hmerge
    obtain ⟨_, _, _, rfl⟩ := sampleMls_merge hmerge
    rfl
  kept := by
    intro group staged merged index leaf hmerge hleaf _
    obtain ⟨new, _, hfree, rfl⟩ := sampleMls_merge hmerge
    refine ⟨leaf, (AssocMap.lookup_insert_of_none new hfree hleaf), .inl rfl⟩
  added := by
    intro group staged merged index leaf hmerge hleaf hfree
    obtain ⟨new, hnew, _, rfl⟩ := sampleMls_merge hmerge
    obtain ⟨hremoves, hadded, _⟩ := StagedCommit.newLeaf_eq_some hnew
    have hnone : group.1.lookup index = none := hfree.resolve_right (by simp [hremoves])
    have hinserted := (AssocMap.lookup_insert group.1 1 new index).symm.trans hleaf
    rw [hnone] at hinserted
    split at hinserted
    · cases hinserted
      exact hadded
    · cases hinserted
  joined := by
    intro group staged merged leaf hmerge hcommitter hpath
    obtain ⟨new, hnew, hfree, rfl⟩ := sampleMls_merge hmerge
    obtain ⟨_, _, hjoins⟩ := StagedCommit.newLeaf_eq_some hnew
    cases hpath.symm.trans (hjoins hcommitter)
    exact ⟨1, AList.lookup_insert group.1, .inl hfree⟩
  tree_welcome := by
    intro staged group hgroup
    cases hgroup
    rfl

def sampleGroup : sampleMls.Group :=
  ((∅ : Tree).insert 0 (sampleLeaf [1] (.fill 32 1)), 0)

theorem sampleGroup_bound : sampleMls.Bound sampleSuite sampleGroup := by
  have hbinding : ((sampleLeaf [1] (.fill 32 1)).binding sampleSuite).isSome = true := by
    decide +kernel
  exact AssocMap.forall_insert (fun _ _ hnone => nomatch hnone)
    (Option.isSome_iff_exists.mp hbinding)

/-- Someone joins under the name of the host, with a key that the callback refuses. -/
theorem external_commit_joins_unasked :
    sampleMls.Faithful ∧ sampleMls.Bound sampleSuite sampleGroup ∧
      ¬ sampleMls.ProcessesRight sampleSuite sampleGroup [1] [1]
        fun _ idk => decide (idk = .fill 32 1) := by
  refine ⟨sampleMls_faithful, sampleGroup_bound, OpenMls.not_processesRight 1
    (sampleLeaf [1] (.fill 32 9)) ?_ ?_ ?_⟩ <;> decide +kernel

theorem processesRight_commit_of_host :
    sampleMls.ProcessesRight sampleSuite sampleGroup [0] [1] (fun _ _ => true) ∧
      (sampleMls.processFrom sampleSuite sampleGroup [0] (some [1]) fun _ _ => true).2.1.lookup 1
        = some (sampleLeaf [7] (.fill 32 7)) :=
  ⟨(OpenMls.processesRight_iff sampleMls_faithful sampleGroup_bound [0] [1] fun _ _ => true).mpr
    fun ⟨_, _, _, _, _, _, _, _, _, _, _, _, _, hrefused⟩ => Bool.false_ne_true hrefused.symm,
    by decide +kernel⟩

/-- The commit of the host comes by the log of the channel. -/
theorem bound_commit_of_host :
    let ch : ChannelSession (sampleMls.toMls sampleSuite) :=
      { sampleEpochGeneral with mls := sampleGroup }
    let reader : ChannelEngine (sampleMls.toMls sampleSuite) :=
      { sampleReader sampleHost.ledger with channels := ∅ }
    sampleMls.Bound sampleSuite (ch.read samplePrimitives sampleSuite sampleChannelId
      [(reader, ⟨1, [frameCommit, 0], true⟩)]).mls :=
  OpenMls.bound_read sampleMls_faithful samplePrimitives sampleChannelId sampleGroup_bound _

end Dante.Mls
