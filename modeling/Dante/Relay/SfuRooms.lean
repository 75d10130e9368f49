import Dante.Bytes
import Dante.Library.AssocMap
import Dante.Library.Run

/-!
The rooms of the relay's forwarding unit for voice. A join makes the room if it is new, and only
then negotiates with the participant, which may fail; a leave drops the room when its last slot
becomes free. WebRTC is outside: a request carries the outcome of its negotiation or teardown, and
the candidates it gathers arrive as steps of their own.
-/

namespace Dante.Relay

def maxRooms : Nat := 64

def maxOfferBytes : Nat := 64 * 1024

def maxCandidateBytes : Nat := 4 * 1024

inductive SfuError where
  | full
  | noSuchPeer (slot : Nat)
  | webrtc (reason : String)
  deriving DecidableEq

inductive SfuResponse where
  | answer (slot : Nat) (sdp : String)
  | ice (candidates : List String)
  | ok
  | sfuError (error : SfuError)
  | error (reason : String)
  deriving DecidableEq

section Room

variable {Conn : Type}

/-- One room: its slots, the candidates that were gathered and not yet sorted, and those that
wait for a pull. -/
structure Room (Conn : Type) where
  peers : List (Option Conn)
  events : List (Nat × String)
  ice : AssocMap Nat (List String)

namespace Room

def new (size : Nat) : Room Conn where
  peers := List.replicate size none
  events := []
  ice := ∅

variable (room : Room Conn)

def isEmpty : Bool := room.peers.all Option.isNone

/-- Sorts the gathered candidates by slot; an empty one only ends the gathering. -/
def drain : Room Conn :=
  { room with
    events := []
    ice := room.events.foldl (fun ice event =>
      if event.2.isEmpty then ice
      else ice.insert event.1 ((ice.lookup event.1).getD [] ++ [event.2])) room.ice }

/-- The first free slot goes to the participant, once the negotiation has succeeded. -/
def addPeer (negotiated : Except String (Conn × String)) :
    Except SfuError (Nat × String) × Room Conn :=
  match room.peers.findIdx? Option.isNone with
  | none => (.error .full, room)
  | some slot =>
    match negotiated with
    | .error reason => (.error (.webrtc reason), room)
    | .ok (conn, sdp) => (.ok (slot, sdp), { room with peers := room.peers.set slot (some conn) })

/-- Frees a slot; it is free also if closing the connection fails. -/
def removePeer (slot : Nat) (closed : Except String Unit) : Except SfuError Unit × Room Conn :=
  match room.peers[slot]? with
  | some (some _) => (closed.mapError .webrtc, { room with peers := room.peers.set slot none })
  | _ => (.error (.noSuchPeer slot), room)

def addIce (slot : Nat) (candidate : String) (fed : Except String Unit) : Except SfuError Unit :=
  match room.peers[slot]? with
  | some (some _) => if candidate.isEmpty then .ok () else fed.mapError .webrtc
  | _ => .error (.noSuchPeer slot)

end Room

structure SfuRooms (Conn : Type) where
  roomSize : Nat
  /-- `build` clamps the size to at least one slot. -/
  roomSize_pos : 1 ≤ roomSize
  rooms : AssocMap (ByteArr 32) (Room Conn)

/-- A request with the outcome of what it waits for, or a candidate that was gathered. -/
inductive SfuOp (Conn : Type) where
  | join (room : ByteArr 32) (offer : String) (limited : Bool)
      (negotiated : Except String (Conn × String))
  | ice (room : ByteArr 32) (slot : UInt8) (candidate : String) (limited : Bool)
      (fed : Except String Unit)
  | pull (room : ByteArr 32) (slot : UInt8) (limited : Bool)
  | leave (room : ByteArr 32) (slot : UInt8) (limited : Bool) (closed : Except String Unit)
  | gathered (room : ByteArr 32) (slot : Nat) (candidate : String)

namespace SfuRooms

variable (table : SfuRooms Conn)

def withRoom (id : ByteArr 32) (room : Room Conn) : SfuRooms Conn :=
  { table with rooms := table.rooms.insert id room }

/-- The room of a join, made if it is new. -/
def entry (id : ByteArr 32) : Room Conn := (table.rooms.lookup id).getD (.new table.roomSize)

/-- The reason to turn a join away before its room is looked up. -/
def refusesJoin (id : ByteArr 32) (offer : String) (limited : Bool) : Option String :=
  if offer.utf8ByteSize > maxOfferBytes then some "sfu: offer too large"
  else if limited then some "sfu: rate limited"
  else if table.rooms.lookup id = none ∧ maxRooms ≤ table.rooms.entries.length then
    some "sfu: too many rooms"
  else none

def join (id : ByteArr 32) (offer : String) (limited : Bool)
    (negotiated : Except String (Conn × String)) : SfuResponse × SfuRooms Conn :=
  match table.refusesJoin id offer limited with
  | some reason => (.error reason, table)
  | none =>
    match (table.entry id).addPeer negotiated with
    | (.ok (slot, sdp), room) => (.answer slot sdp, table.withRoom id room.drain)
    | (.error e, room) => (.sfuError e, table.withRoom id room)

def ice (id : ByteArr 32) (slot : UInt8) (candidate : String) (limited : Bool)
    (fed : Except String Unit) : SfuResponse :=
  if limited then .error "sfu: rate limited"
  else if candidate.utf8ByteSize > maxCandidateBytes then .error "sfu: candidate too large"
  else
    match table.rooms.lookup id with
    | none => .error "sfu: no such room"
    | some room =>
      match room.addIce slot.toNat candidate fed with
      | .ok () => .ok
      | .error e => .sfuError e

def pull (id : ByteArr 32) (slot : UInt8) (limited : Bool) : SfuResponse × SfuRooms Conn :=
  if limited then (.error "sfu: rate limited", table)
  else
    match table.rooms.lookup id with
    | none => (.ice [], table)
    | some room =>
      let room := room.drain
      (.ice ((room.ice.lookup slot.toNat).getD []),
        table.withRoom id { room with ice := room.ice.erase slot.toNat })

def leave (id : ByteArr 32) (slot : UInt8) (limited : Bool) (closed : Except String Unit) :
    SfuResponse × SfuRooms Conn :=
  if limited then (.error "sfu: rate limited", table)
  else
    match table.rooms.lookup id with
    | none => (.ok, table)
    | some room =>
      let (result, room) := room.removePeer slot.toNat closed
      let response := match result with
        | .ok () => .ok
        | .error e => .sfuError e
      (response,
        if room.drain.isEmpty then { table with rooms := table.rooms.erase id }
        else table.withRoom id room.drain)

def gathered (id : ByteArr 32) (slot : Nat) (candidate : String) : SfuRooms Conn :=
  match table.rooms.lookup id with
  | none => table
  | some room => table.withRoom id { room with events := room.events ++ [(slot, candidate)] }

def step (op : SfuOp Conn) : SfuRooms Conn :=
  match op with
  | .join id offer limited negotiated => (table.join id offer limited negotiated).2
  | .ice _ _ _ _ _ => table
  | .pull id slot limited => (table.pull id slot limited).2
  | .leave id slot limited closed => (table.leave id slot limited closed).2
  | .gathered id slot candidate => table.gathered id slot candidate

/-- Every room has a participant. -/
def Occupied : Prop := ∀ id room, table.rooms.lookup id = some room → room.isEmpty = false

/-- A join that is not turned away and opens a room gets through its negotiation. -/
def OpensOccupied (op : SfuOp Conn) : Prop :=
  match op with
  | .join id offer limited negotiated =>
    table.refusesJoin id offer limited = none → table.rooms.lookup id = none →
      negotiated.isOk = true
  | _ => True

end SfuRooms

end Room

section Occupancy

variable {Conn : Type} {table : SfuRooms Conn}

theorem SfuRooms.Occupied.withRoom (hoccupied : table.Occupied) {id : ByteArr 32} {room : Room Conn}
    (hroom : room.isEmpty = false) : (table.withRoom id room).Occupied :=
  AssocMap.forall_insert hoccupied hroom

theorem SfuRooms.Occupied.erase (hoccupied : table.Occupied) (id : ByteArr 32) :
    SfuRooms.Occupied { table with rooms := table.rooms.erase id } := by
  intro other found hlookup
  by_cases heq : other = id
  · rw [heq, AList.lookup_erase] at hlookup
    cases hlookup
  · rw [AList.lookup_erase_ne heq] at hlookup
    exact hoccupied other found hlookup

theorem Room.isEmpty_set_some {room : Room Conn} {slot : Nat} (hslot : slot < room.peers.length)
    (conn : Conn) : Room.isEmpty { room with peers := room.peers.set slot (some conn) } = false := by
  rw [Room.isEmpty, List.all_eq_false]
  exact ⟨some conn, List.mem_set hslot _, by simp⟩

/-- A join leaves a participant in the room, or the room as it was. -/
theorem Room.addPeer_cases (room : Room Conn) (negotiated : Except String (Conn × String)) :
    (room.addPeer negotiated).2.isEmpty = false ∧ (∃ result, (room.addPeer negotiated).1 = .ok result) ∨
      (room.addPeer negotiated).2 = room ∧ ∃ e, (room.addPeer negotiated).1 = .error e := by
  unfold addPeer
  cases hfree : room.peers.findIdx? Option.isNone with
  | none => exact Or.inr ⟨rfl, _, rfl⟩
  | some slot =>
    cases negotiated with
    | error reason => exact Or.inr ⟨rfl, _, rfl⟩
    | ok negotiated =>
      have hslot := (List.findIdx?_eq_some_iff_findIdx_eq.mp hfree).1
      exact Or.inl ⟨isEmpty_set_some hslot negotiated.1, _, rfl⟩

theorem Room.addPeer_new {size : Nat} (hsize : 1 ≤ size) (negotiated : Conn × String) :
    ∃ result, ((Room.new size : Room Conn).addPeer (.ok negotiated)).1 = .ok result := by
  obtain ⟨n, rfl⟩ : ∃ n, size = n + 1 := ⟨size - 1, by omega⟩
  refine ⟨(0, negotiated.2), ?_⟩
  simp [addPeer, new, List.replicate_succ, List.findIdx?_cons]

theorem SfuRooms.Occupied.join (hoccupied : table.Occupied) {id : ByteArr 32} {offer : String}
    {limited : Bool} {negotiated : Except String (Conn × String)}
    (hopens : table.OpensOccupied (.join id offer limited negotiated)) :
    (table.join id offer limited negotiated).2.Occupied := by
  unfold SfuRooms.join
  cases hrefused : table.refusesJoin id offer limited with
  | some reason => exact hoccupied
  | none =>
    have hcases := (table.entry id).addPeer_cases negotiated
    cases hadd : (table.entry id).addPeer negotiated with
    | mk result room =>
      rw [hadd] at hcases
      rcases hcases with ⟨hroom, done, hdone⟩ | ⟨hsame, e, he⟩
      · cases hdone
        exact hoccupied.withRoom hroom
      · -- a failed join may only meet a room that was there before
        cases he
        cases hsame
        cases hfound : table.rooms.lookup id with
        | some found => exact hoccupied.withRoom (hoccupied id found hfound)
        | none =>
          have hok := hopens hrefused hfound
          cases negotiated with
          | error reason => cases hok
          | ok negotiated =>
            obtain ⟨result, hresult⟩ := Room.addPeer_new table.roomSize_pos negotiated
            rw [entry, hfound, Option.getD_none] at hadd
            rw [hadd] at hresult
            cases hresult

/-- Every step keeps the rooms occupied if every room that it opens gets its participant. -/
theorem SfuRooms.Occupied.step (hoccupied : table.Occupied) {op : SfuOp Conn}
    (hopens : table.OpensOccupied op) : (table.step op).Occupied := by
  cases op with
  | join id offer limited negotiated => exact hoccupied.join hopens
  | ice id slot candidate limited fed => exact hoccupied
  | pull id slot limited =>
    simp only [SfuRooms.step, SfuRooms.pull]
    cases limited with
    | true => exact hoccupied
    | false =>
      cases hfound : table.rooms.lookup id with
      | none => exact hoccupied
      | some room => exact hoccupied.withRoom (hoccupied id room hfound)
  | leave id slot limited closed =>
    simp only [SfuRooms.step, SfuRooms.leave]
    cases limited with
    | true => exact hoccupied
    | false =>
      cases hfound : table.rooms.lookup id with
      | none => exact hoccupied
      | some room =>
        dsimp only
        cases hempty : (room.removePeer slot.toNat closed).2.drain.isEmpty with
        | true => exact hoccupied.erase id
        | false => exact hoccupied.withRoom hempty
  | gathered id slot candidate =>
    simp only [SfuRooms.step, SfuRooms.gathered]
    cases hfound : table.rooms.lookup id with
    | none => exact hoccupied
    | some room => exact hoccupied.withRoom (hoccupied id room hfound)

def SfuRooms.empty (roomSize : Nat) (hpos : 1 ≤ roomSize) : SfuRooms Conn where
  roomSize := roomSize
  roomSize_pos := hpos
  rooms := ∅

/-- In a run in which every join that opens a room gets through its negotiation, no room is
ever without a participant. -/
theorem rooms_occupied_run {roomSize : Nat} (hpos : 1 ≤ roomSize) {ops : List (SfuOp Conn)}
    (hrun : Steps.Along SfuRooms.step SfuRooms.OpensOccupied (.empty roomSize hpos) ops) :
    ∀ id room, (Steps.exec SfuRooms.step (.empty roomSize hpos) ops).rooms.lookup id = some room →
      room.isEmpty = false := by
  have hstart : (SfuRooms.empty roomSize hpos : SfuRooms Conn).Occupied := by
    intro id room hlookup
    cases hlookup
  exact Steps.exec_invariant SfuRooms.Occupied (fun table op h hop => h.step hop) hstart hrun

/-- Two participants join and one leaves. -/
theorem rooms_occupied_sample :
    (Steps.exec SfuRooms.step (.empty 2 (by decide))
      [.join (.fill 32 1) "o" false (.ok ((), "a")), .join (.fill 32 1) "o" false (.ok ((), "a")),
        .leave (.fill 32 1) 0 false (.ok ())]).Occupied :=
  rooms_occupied_run (by decide)
    ⟨fun _ _ => rfl, fun _ _ => rfl, trivial, trivial⟩

/-- A join whose negotiation fails leaves a room behind that nobody is in. -/
theorem failed_join_leaves_room :
    ((Steps.exec SfuRooms.step (.empty 2 (by decide))
      [.join (.fill 32 1) "not an offer" false (.error "bad sdp" : Except String (Unit × String))]
        ).rooms.lookup (.fill 32 1)).map Room.isEmpty = some true := by
  decide +kernel

end Occupancy

end Dante.Relay
