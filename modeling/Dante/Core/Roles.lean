import Dante.Bytes

/-!
The roles of a server: which permission bits a member has under the server's policy.
-/

namespace Dante.Core

def permSend : UInt32 := (1 : UInt32) <<< 0
def permKick : UInt32 := (1 : UInt32) <<< 1
def permManageRoles : UInt32 := (1 : UInt32) <<< 3
def permBan : UInt32 := (1 : UInt32) <<< 5
def permAll : UInt32 := 0xFFFFFFFF

/-- What a member without a role can do. -/
def permDefault : UInt32 := permSend

structure Role where
  id : UInt16
  allow : UInt32
  deny : UInt32
  deriving DecidableEq

structure ServerPolicy where
  ownerId : Hash
  roles : List Role
  /-- The ids of each member's roles. -/
  assignments : List (Hash × List UInt16)
  deriving DecidableEq

namespace ServerPolicy

/-- The bits that the roles of the given ids allow and deny. -/
def masks (policy : ServerPolicy) (ids : List UInt16) : UInt32 × UInt32 :=
  ids.foldl (fun acc id =>
    match policy.roles.find? fun role => role.id = id with
    | some role => (acc.1 ||| role.allow, acc.2 ||| role.deny)
    | none => acc) (0, 0)

def effectivePerms (policy : ServerPolicy) (member : Hash) : UInt32 :=
  if member = policy.ownerId then permAll
  else
    let ids := (policy.assignments.find? fun row => row.1 = member).elim [] Prod.snd
    let (allow, deny) := policy.masks ids
    (permDefault ||| allow) &&& ~~~ deny

/-- Creates or changes a role; a new one gets the next free id. -/
def setRole (policy : ServerPolicy) (id : Option UInt16) (allow deny : UInt32) : ServerPolicy :=
  let id := id.getD ((policy.roles.map Role.id).max?.getD 0 + 1)
  let role : Role := { id := id, allow := allow, deny := deny }
  match policy.roles.findIdx? fun other => other.id = id with
  | some i => { policy with roles := policy.roles.set i role }
  | none => { policy with roles := policy.roles ++ [role] }

/-- Members without a role have no row. -/
def assigned (assignments : List (Hash × List UInt16)) : List (Hash × List UInt16) :=
  assignments.filter fun row => row.2 ≠ []

def deleteRole (policy : ServerPolicy) (roleId : UInt16) : ServerPolicy :=
  { policy with
    roles := policy.roles.filter fun role => role.id ≠ roleId
    assignments := assigned
      (policy.assignments.map fun row => (row.1, row.2.filter fun id => id ≠ roleId)) }

/-- Gives a role to a member or takes it away; `none` if there is no such role to give. -/
def assignRole (policy : ServerPolicy) (member : Hash) (roleId : UInt16) (add : Bool) :
    Option ServerPolicy :=
  if add ∧ policy.roles.all (fun role => role.id ≠ roleId) then none
  else
    let rows := match policy.assignments.findIdx? fun row => row.1 = member with
      | some i => policy.assignments.modify i fun row =>
          (row.1, if add then if roleId ∈ row.2 then row.2 else row.2 ++ [roleId]
            else row.2.filter fun id => id ≠ roleId)
      | none => if add then policy.assignments ++ [(member, [roleId])] else policy.assignments
    some { policy with assignments := assigned rows }

end ServerPolicy

end Dante.Core
