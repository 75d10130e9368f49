import Dante.Relay.SfuRooms

/-!
Whose candidates a pull returns. A candidate that was gathered is queued under its slot number
alone. The queue of a slot outlives the participant, and so does the connection's last gathering,
so that whoever gets the slot next pulls candidates of a connection that is closed.
-/

namespace Dante.Relay

variable {Conn : Type}

namespace Room

/-- What a pull of the slot would return. -/
def waiting (room : Room Conn) (slot : Nat) : List String := (room.drain.ice.lookup slot).getD []

/-- The candidates among some events that are queued under the slot. -/
def sorted (events : List (Nat × String)) (slot : Nat) : List String :=
  (events.filter fun event => event.1 = slot && !event.2.isEmpty).map Prod.snd

theorem sorted_append (first second : List (Nat × String)) (slot : Nat) :
    sorted (first ++ second) slot = sorted first slot ++ sorted second slot := by
  simp [sorted]

private theorem lookup_sort (events : List (Nat × String)) (ice : AssocMap Nat (List String))
    (slot : Nat) :
    ((events.foldl (fun ice event =>
      if event.2.isEmpty then ice
      else ice.insert event.1 ((ice.lookup event.1).getD [] ++ [event.2])) ice).lookup slot).getD [] =
      (ice.lookup slot).getD [] ++ sorted events slot := by
  induction events generalizing ice with
  | nil => exact (List.append_nil _).symm
  | cons event rest ih =>
    rw [List.foldl_cons, ih, sorted, sorted, List.filter_cons]
    by_cases hempty : event.2.isEmpty = true
    · simp [hempty]
    · rw [if_neg hempty, AssocMap.lookup_insert]
      by_cases hslot : event.1 = slot
      · subst hslot
        simp [hempty]
      · have hne : ¬ slot = event.1 := fun h => hslot h.symm
        simp [hslot, hne]

theorem waiting_eq (room : Room Conn) (slot : Nat) :
    room.waiting slot = (room.ice.lookup slot).getD [] ++ sorted room.events slot :=
  lookup_sort room.events room.ice slot

/-- Every candidate that waits was gathered for the participant in its slot. -/
def Own (gathered : Conn → String → Prop) (room : Room Conn) : Prop :=
  ∀ slot, ∀ candidate ∈ room.waiting slot,
    ∃ conn, room.peers[slot]? = some (some conn) ∧ gathered conn candidate

section

variable {gathered : Conn → String → Prop} {room : Room Conn}

theorem own_new (gathered : Conn → String → Prop) (size : Nat) :
    (new size : Room Conn).Own gathered :=
  fun _ _ hmem => nomatch hmem

theorem Own.drain (h : room.Own gathered) : room.drain.Own gathered := h

theorem Own.waiting_free (h : room.Own gathered) {slot : Nat}
    (hfree : ∀ conn, room.peers[slot]? ≠ some (some conn)) : room.waiting slot = [] := by
  refine List.eq_nil_iff_forall_not_mem.mpr fun candidate hmem => ?_
  obtain ⟨conn, hconn, -⟩ := h slot candidate hmem
  exact hfree conn hconn

theorem Own.set (h : room.Own gathered) {slot : Nat} (hnone : room.waiting slot = [])
    (peer : Option Conn) :
    Own gathered { room with peers := room.peers.set slot peer } := by
  intro other candidate hmem
  change candidate ∈ room.waiting other at hmem
  have hne : slot ≠ other := by
    rintro rfl
    rw [hnone] at hmem
    cases hmem
  rw [List.getElem?_set_ne hne]
  exact h other candidate hmem

theorem Own.addPeer (h : room.Own gathered) (negotiated : Except String (Conn × String)) :
    (room.addPeer negotiated).2.Own gathered := by
  unfold Room.addPeer
  cases hfree : room.peers.findIdx? Option.isNone with
  | none => exact h
  | some slot =>
    cases negotiated with
    | error reason => exact h
    | ok negotiated =>
      refine h.set (h.waiting_free fun conn hconn => ?_) _
      obtain ⟨hlt, hnone, -⟩ := List.findIdx?_eq_some_iff_getElem.mp hfree
      obtain ⟨_, hget⟩ := List.getElem?_eq_some_iff.mp hconn
      rw [hget] at hnone
      cases hnone

theorem Own.removePeer (h : room.Own gathered) {slot : Nat} (hnone : room.waiting slot = [])
    (closed : Except String Unit) : (room.removePeer slot closed).2.Own gathered := by
  unfold Room.removePeer
  split
  · exact h.set hnone none
  · exact h

theorem Own.pulled (h : room.Own gathered) (slot : Nat) :
    Own gathered { room.drain with ice := room.drain.ice.erase slot } := by
  intro other candidate hmem
  refine h other candidate ?_
  rw [waiting_eq] at hmem
  by_cases heq : other = slot
  · rw [heq, AList.lookup_erase] at hmem
    cases hmem
  · rw [AList.lookup_erase_ne heq] at hmem
    simpa [waiting, sorted, Room.drain] using hmem

theorem Own.queued (h : room.Own gathered) {slot : Nat} {conn : Conn} {candidate : String}
    (hpeer : room.peers[slot]? = some (some conn)) (hnew : gathered conn candidate) :
    Own gathered { room with events := room.events ++ [(slot, candidate)] } := by
  intro other found hmem
  rw [waiting_eq, sorted_append, ← List.append_assoc, List.mem_append] at hmem
  rcases hmem with hold | hlast
  · refine h other found ?_
    rwa [waiting_eq]
  · simp only [sorted, List.mem_map, List.mem_filter, List.mem_singleton, Bool.and_eq_true,
      decide_eq_true_eq] at hlast
    obtain ⟨_, ⟨rfl, rfl, -⟩, rfl⟩ := hlast
    exact ⟨conn, hpeer, hnew⟩

theorem Own.mono (h : room.Own gathered) {more : Conn → String → Prop}
    (hmore : ∀ conn candidate, gathered conn candidate → more conn candidate) : room.Own more := by
  intro slot candidate hmem
  obtain ⟨conn, hconn, hgathered⟩ := h slot candidate hmem
  exact ⟨conn, hconn, hmore conn candidate hgathered⟩

end

end Room

/-- A step of the rooms that also tells which connection has gathered a candidate. -/
inductive SfuEvent (Conn : Type) where
  | join (room : ByteArr 32) (offer : String) (limited : Bool)
      (negotiated : Except String (Conn × String))
  | ice (room : ByteArr 32) (slot : UInt8) (candidate : String) (limited : Bool)
      (fed : Except String Unit)
  | pull (room : ByteArr 32) (slot : UInt8) (limited : Bool)
  | leave (room : ByteArr 32) (slot : UInt8) (limited : Bool) (closed : Except String Unit)
  | gathered (room : ByteArr 32) (slot : Nat) (conn : Conn) (candidate : String)

def SfuEvent.op : SfuEvent Conn → SfuOp Conn
  | join room offer limited negotiated => .join room offer limited negotiated
  | ice room slot candidate limited fed => .ice room slot candidate limited fed
  | pull room slot limited => .pull room slot limited
  | leave room slot limited closed => .leave room slot limited closed
  | gathered room slot _ candidate => .gathered room slot candidate

def SfuEvent.source : SfuEvent Conn → List (ByteArr 32 × Conn × String)
  | gathered room _ conn candidate => [(room, conn, candidate)]
  | _ => []

structure Watched (Conn : Type) where
  table : SfuRooms Conn
  gathered : List (ByteArr 32 × Conn × String)

namespace Watched

variable (watched : Watched Conn)

def step (event : SfuEvent Conn) : Watched Conn where
  table := watched.table.step event.op
  gathered := watched.gathered ++ event.source

def start (roomSize : Nat) (hpos : 1 ≤ roomSize) : Watched Conn where
  table := .empty roomSize hpos
  gathered := []

/-- A pull returns candidates of the slot's participant only. -/
def PullsOwn : SfuEvent Conn → Prop
  | .pull id slot limited =>
    ∀ candidates, (watched.table.pull id slot limited).1 = .ice candidates →
      ∀ candidate ∈ candidates, ∃ room conn, watched.table.rooms.lookup id = some room ∧
        room.peers[slot.toNat]? = some (some conn) ∧ (id, conn, candidate) ∈ watched.gathered
  | _ => True

/-- Nothing waits for a participant who leaves others behind, and a connection gathers
candidates while its participant has the slot. -/
def Settled : SfuEvent Conn → Prop
  | .leave id slot limited closed => limited = true ∨
    ∀ room ∈ watched.table.rooms.lookup id,
      room.waiting slot.toNat = [] ∨ (room.removePeer slot.toNat closed).2.isEmpty = true
  | .gathered id slot conn _ =>
    ∀ room ∈ watched.table.rooms.lookup id, room.peers[slot]? = some (some conn)
  | _ => True

instance [DecidableEq Conn] : (event : SfuEvent Conn) → Decidable (watched.Settled event)
  | .leave id slot limited closed =>
    inferInstanceAs (Decidable (limited = true ∨ ∀ room ∈ watched.table.rooms.lookup id,
      room.waiting slot.toNat = [] ∨ (room.removePeer slot.toNat closed).2.isEmpty = true))
  | .gathered id slot conn _ =>
    inferInstanceAs (Decidable (∀ room ∈ watched.table.rooms.lookup id,
      room.peers[slot]? = some (some conn)))
  | .join _ _ _ _ | .ice _ _ _ _ _ | .pull _ _ _ => inferInstanceAs (Decidable True)

def Owned : Prop :=
  ∀ id room, watched.table.rooms.lookup id = some room →
    room.Own fun conn candidate => (id, conn, candidate) ∈ watched.gathered

variable {watched}

theorem owned_start (roomSize : Nat) (hpos : 1 ≤ roomSize) :
    (start roomSize hpos : Watched Conn).Owned :=
  fun _ _ hlookup => nomatch hlookup

/-- A new room at the table is the only thing to look at. -/
theorem Owned.withRoom (h : watched.Owned) {id : ByteArr 32} {room : Room Conn}
    (hroom : room.Own fun conn candidate => (id, conn, candidate) ∈ watched.gathered) :
    Owned { watched with table := watched.table.withRoom id room } := by
  intro other found hlookup
  change AList.lookup other (watched.table.rooms.insert id room) = some found at hlookup
  rw [AssocMap.lookup_insert] at hlookup
  split at hlookup
  · rename_i heq
    cases hlookup
    rw [heq]
    exact hroom
  · exact h other found hlookup

theorem Owned.erase (h : watched.Owned) (id : ByteArr 32) :
    Owned { watched with table := { watched.table with rooms := watched.table.rooms.erase id } } := by
  intro other found hlookup
  by_cases heq : other = id
  · rw [heq] at hlookup
    change AList.lookup id (watched.table.rooms.erase id) = some found at hlookup
    rw [AList.lookup_erase] at hlookup
    cases hlookup
  · change AList.lookup other (watched.table.rooms.erase id) = some found at hlookup
    rw [AList.lookup_erase_ne heq] at hlookup
    exact h other found hlookup

theorem Owned.entry (h : watched.Owned) (id : ByteArr 32) :
    (watched.table.entry id).Own fun conn candidate => (id, conn, candidate) ∈ watched.gathered := by
  unfold SfuRooms.entry
  cases hfound : watched.table.rooms.lookup id with
  | none => exact Room.own_new _ _
  | some room => exact h id room hfound

theorem Owned.join (h : watched.Owned) (id : ByteArr 32) (offer : String) (limited : Bool)
    (negotiated : Except String (Conn × String)) :
    Owned { watched with table := (watched.table.join id offer limited negotiated).2 } := by
  unfold SfuRooms.join
  cases watched.table.refusesJoin id offer limited with
  | some reason => exact h
  | none =>
    have hroom := (h.entry id).addPeer negotiated
    rcases hadd : (watched.table.entry id).addPeer negotiated with ⟨_ | ⟨slot, sdp⟩, room⟩
    · rw [hadd] at hroom
      exact h.withRoom hroom
    · rw [hadd] at hroom
      exact h.withRoom hroom.drain

theorem Owned.pull (h : watched.Owned) (id : ByteArr 32) (slot : UInt8) (limited : Bool) :
    Owned { watched with table := (watched.table.pull id slot limited).2 } := by
  unfold SfuRooms.pull
  cases limited with
  | true => exact h
  | false =>
    cases hfound : watched.table.rooms.lookup id with
    | none => exact h
    | some room => exact h.withRoom ((h id room hfound).pulled slot.toNat)

theorem Owned.leave (h : watched.Owned) {id : ByteArr 32} {slot : UInt8} {limited : Bool}
    {closed : Except String Unit}
    (hsettled : watched.Settled (.leave id slot limited closed)) :
    Owned { watched with table := (watched.table.leave id slot limited closed).2 } := by
  unfold SfuRooms.leave
  cases limited with
  | true => exact h
  | false =>
    cases hfound : watched.table.rooms.lookup id with
    | none => exact h
    | some room =>
      dsimp only
      cases hempty : (room.removePeer slot.toNat closed).2.drain.isEmpty with
      | true => exact h.erase id
      | false =>
        -- the room stays, so nothing may wait for the slot
        have hnone : room.waiting slot.toNat = [] := by
          rcases hsettled with hlimited | hroom
          · cases hlimited
          · refine (hroom room hfound).resolve_right fun hdropped => ?_
            rw [show (room.removePeer slot.toNat closed).2.drain.isEmpty = true from hdropped]
              at hempty
            cases hempty
        exact h.withRoom ((h id room hfound).removePeer hnone closed).drain

theorem Owned.gathered (h : watched.Owned) {id : ByteArr 32} {slot : Nat} {conn : Conn}
    {candidate : String} (hsettled : watched.Settled (.gathered id slot conn candidate)) :
    Owned {
      table := watched.table.gathered id slot candidate
      gathered := watched.gathered ++ [(id, conn, candidate)] } := by
  have hmore : Owned { watched with
      gathered := watched.gathered ++ [(id, conn, candidate)] } := by
    intro other room hlookup
    exact (h other room hlookup).mono fun _ _ hmem => List.mem_append_left _ hmem
  unfold SfuRooms.gathered
  cases hfound : watched.table.rooms.lookup id with
  | none => exact hmore
  | some room =>
    refine hmore.withRoom ((hmore id room hfound).queued (hsettled room hfound) ?_)
    exact List.mem_append_right _ List.mem_cons_self

theorem step_request {event : SfuEvent Conn} (hsource : event.source = []) :
    watched.step event = { watched with table := watched.table.step event.op } := by
  rw [Watched.step, hsource, List.append_nil]

theorem Owned.step (h : watched.Owned) {event : SfuEvent Conn} (hsettled : watched.Settled event) :
    (watched.step event).Owned := by
  cases event with
  | join id offer limited negotiated =>
    rw [step_request rfl]
    exact h.join id offer limited negotiated
  | ice id slot candidate limited fed =>
    rw [step_request rfl]
    exact h
  | pull id slot limited =>
    rw [step_request rfl]
    exact h.pull id slot limited
  | leave id slot limited closed =>
    rw [step_request rfl]
    exact h.leave hsettled
  | gathered id slot conn candidate => exact h.gathered hsettled

theorem Owned.pullsOwn (h : watched.Owned) (event : SfuEvent Conn) : watched.PullsOwn event := by
  cases event with
  | join | ice | leave | gathered => trivial
  | pull id slot limited =>
    intro candidates hpull candidate hmem
    unfold SfuRooms.pull at hpull
    cases limited with
    | true => cases hpull
    | false =>
      cases hfound : watched.table.rooms.lookup id with
      | none =>
        rw [hfound] at hpull
        cases hpull
        cases hmem
      | some room =>
        rw [hfound] at hpull
        cases hpull
        obtain ⟨conn, hconn, hgathered⟩ := h id room hfound slot.toNat candidate hmem
        exact ⟨room, conn, rfl, hconn, hgathered⟩

/-- In a run in which nothing waits for a participant who leaves and no connection gathers
candidates without its participant, every pull returns candidates of the slot's participant. -/
theorem pulls_own_run {roomSize : Nat} (hpos : 1 ≤ roomSize) {events : List (SfuEvent Conn)}
    (hrun : Steps.Along step Settled (start roomSize hpos) events) :
    Steps.Along step PullsOwn (start roomSize hpos) events :=
  Steps.along_invariant Owned (fun _ _ h hevent => h.step hevent)
    (fun _ event h _ => h.pullsOwn event) (owned_start roomSize hpos) hrun

/-- Two participants; the candidates of the first are pulled before they leave and a third one
takes their slot. -/
theorem pulls_own_sample :
    Steps.Along step PullsOwn (start 2 (by decide))
      [.join (.fill 32 1) "o" false (.ok (1, "a")), .join (.fill 32 1) "o" false (.ok (2, "a")),
        .gathered (.fill 32 1) 0 1 "c", .pull (.fill 32 1) 0 false,
        .leave (.fill 32 1) 0 false (.ok ()), .join (.fill 32 1) "o" false (.ok (3, "a")),
        .gathered (.fill 32 1) 0 3 "d", .pull (.fill 32 1) 0 false] :=
  pulls_own_run (by decide) (by decide +kernel)

/-- The candidate of a connection that is closed goes to the next participant of its slot. -/
theorem pulls_stale_candidate :
    let watched : Watched Nat := Steps.exec step (start 2 (by decide))
      [.join (.fill 32 1) "o" false (.ok (1, "a")), .join (.fill 32 1) "o" false (.ok (2, "a")),
        .gathered (.fill 32 1) 0 1 "c", .leave (.fill 32 1) 0 false (.ok ()),
        .join (.fill 32 1) "o" false (.ok (3, "a"))]
    (watched.table.pull (.fill 32 1) 0 false).1 = .ice ["c"] ∧
      (watched.table.rooms.lookup (.fill 32 1)).map (fun room => room.peers[0]?) =
        some (some (some 3)) ∧
      watched.gathered = [(.fill 32 1, 1, "c")] := by
  decide +kernel

end Watched

end Dante.Relay
