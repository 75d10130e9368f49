import Dante.Proto.Envelope

/-!
The messages between a client and a relay, as bytes. Every kind of message has a tag of its
own in front of its fields. Records, envelopes, bundles and key packages are opaque here.
-/

namespace Dante.Net.Wire

open Enc

inductive Request where
  | ping
  | submitRecord (record : Bytes)
  | getTreeHead
  | getRecords (start stop : UInt64)
  | deposit (env : Bytes)
  | fetch (hints : List Hint) (sinceMs : UInt64)
  | publishPrekeys (bundle : Bytes)
  | getPrekeys (id : Hash)
  | putBlob (bytes : Bytes)
  | getBlob (hash : Hash)
  | postToChannel (channelId : ByteArr 32) (blob : Bytes) (identity : Hash) (sig : Signature)
  | setChannelRoster (channelId : ByteArr 32) (serverRoot : Key) (version : UInt64)
      (members : List Hash) (sig : Signature)
  | fetchChannel (channelId : ByteArr 32) (sinceSeq : UInt64)
  | channelHeads (channelIds : List (ByteArr 32))
  | postSignal (topic : ByteArr 32) (blob : Bytes)
  | fetchSignals (topic : ByteArr 32)
  | getIceConfig
  | publishKeyPackages (identity : Hash) (keyPackages : List Bytes) (sig : Signature)
  | getKeyPackage (id : Hash)
  | announceP2p (addrs : List String)
  | getP2pPeers
  | sfuJoin (room : ByteArr 32) (offer : String)
  | sfuIce (room : ByteArr 32) (slot : UInt8) (candidate : String)
  | sfuPull (room : ByteArr 32) (slot : UInt8)
  | sfuLeave (room : ByteArr 32) (slot : UInt8)
  | unfurlLink (url : String)
  deriving DecidableEq

structure IceCfg where
  urls : List String
  username : String
  credential : String
  deriving DecidableEq

inductive Response where
  | pong
  | ok
  | error (msg : String)
  | treeHead (size : UInt64) (root : Hash)
  | records (blobs : List Bytes)
  | envelopes (blobs : List Bytes)
  | prekeys (bundle : Option Bytes)
  | blob (blob : Option Bytes)
  | channelLog (entries : List (UInt64 × Bytes))
  | channelHeads (heads : List (ByteArr 32 × UInt64))
  | signals (blobs : List Bytes)
  | iceConfig (list : List IceCfg)
  | keyPackage (kp : Option Bytes)
  | posted (seq : UInt64)
  | p2pPeers (addrs : List String)
  | sfuAnswer (slot : UInt8) (answer : String)
  | sfuIce (candidates : List String)
  | unfurlPreview (url site title description imageDataUri : String)
  deriving DecidableEq

def writeBlobList (blobs : List Bytes) : Bytes := Writer.list Writer.bytes blobs

def readBlobList : Reader (List Bytes) := Reader.list Reader.bytes

def writeStrList (items : List String) : Bytes := Writer.list Writer.string items

def readStrList : Reader (List String) := Reader.list Reader.string

def writeIdList (ids : List (ByteArr 32)) : Bytes := Writer.list Writer.fixed ids

def readIdList : Reader (List (ByteArr 32)) := Reader.list (Reader.fixed 32)

def writeIce (cfg : IceCfg) : Bytes :=
  writeStrList cfg.urls ++ Writer.string cfg.username ++ Writer.string cfg.credential

def readIce : Reader IceCfg := do
  let urls ← readStrList
  let username ← Reader.string
  let credential ← Reader.string
  return { urls, username, credential }

def writeIceList (list : List IceCfg) : Bytes := Writer.list writeIce list

def readIceList : Reader (List IceCfg) := Reader.list readIce

def writeHints (hints : List Hint) : Bytes := Writer.list Writer.fixed hints

def readHints : Reader (List Hint) := Reader.list (Reader.fixed 8)

def writeEntry (entry : UInt64 × Bytes) : Bytes := Writer.u64 entry.1 ++ Writer.bytes entry.2

def readEntry : Reader (UInt64 × Bytes) := do
  let seq ← Reader.u64
  let blob ← Reader.bytes
  return (seq, blob)

def writeHead (head : ByteArr 32 × UInt64) : Bytes := Writer.fixed head.1 ++ Writer.u64 head.2

def readHead : Reader (ByteArr 32 × UInt64) := do
  let channelId ← Reader.fixed 32
  let seq ← Reader.u64
  return (channelId, seq)

def writeOption (blob : Option Bytes) : Bytes :=
  match blob with
  | some bytes => Writer.bool true ++ Writer.bytes bytes
  | none => Writer.bool false

def readOption : Reader (Option Bytes) := do
  if ← Reader.bool then
    return some (← Reader.bytes)
  else
    return none

namespace Request

def encode : Request → Bytes
  | ping => Writer.u8 0
  | submitRecord record => Writer.u8 1 ++ Writer.bytes record
  | getTreeHead => Writer.u8 2
  | getRecords start stop => Writer.u8 3 ++ Writer.u64 start ++ Writer.u64 stop
  | deposit env => Writer.u8 4 ++ Writer.bytes env
  | fetch hints sinceMs => Writer.u8 5 ++ writeHints hints ++ Writer.u64 sinceMs
  | publishPrekeys bundle => Writer.u8 6 ++ Writer.bytes bundle
  | getPrekeys id => Writer.u8 7 ++ Writer.fixed id
  | putBlob bytes => Writer.u8 8 ++ Writer.bytes bytes
  | getBlob hash => Writer.u8 9 ++ Writer.fixed hash
  | postToChannel channelId blob identity sig =>
    Writer.u8 10 ++ Writer.fixed channelId ++ Writer.bytes blob ++ Writer.fixed identity ++
      Writer.fixed sig
  | setChannelRoster channelId serverRoot version members sig =>
    Writer.u8 24 ++ Writer.fixed channelId ++ Writer.fixed serverRoot ++ Writer.u64 version ++
      writeIdList members ++ Writer.fixed sig
  | fetchChannel channelId sinceSeq => Writer.u8 11 ++ Writer.fixed channelId ++ Writer.u64 sinceSeq
  | channelHeads channelIds => Writer.u8 25 ++ writeIdList channelIds
  | postSignal topic blob => Writer.u8 12 ++ Writer.fixed topic ++ Writer.bytes blob
  | fetchSignals topic => Writer.u8 13 ++ Writer.fixed topic
  | getIceConfig => Writer.u8 14
  | publishKeyPackages identity keyPackages sig =>
    Writer.u8 15 ++ Writer.fixed identity ++ writeBlobList keyPackages ++ Writer.fixed sig
  | getKeyPackage id => Writer.u8 16 ++ Writer.fixed id
  | announceP2p addrs => Writer.u8 17 ++ writeStrList addrs
  | getP2pPeers => Writer.u8 18
  | sfuJoin room offer => Writer.u8 19 ++ Writer.fixed room ++ Writer.string offer
  | sfuIce room slot candidate =>
    Writer.u8 20 ++ Writer.fixed room ++ Writer.u8 slot ++ Writer.string candidate
  | sfuPull room slot => Writer.u8 21 ++ Writer.fixed room ++ Writer.u8 slot
  | sfuLeave room slot => Writer.u8 22 ++ Writer.fixed room ++ Writer.u8 slot
  | unfurlLink url => Writer.u8 23 ++ Writer.string url

def read : Reader Request := do
  match ← Reader.u8 with
  | 0 => return ping
  | 1 => return submitRecord (← Reader.bytes)
  | 2 => return getTreeHead
  | 3 => return getRecords (← Reader.u64) (← Reader.u64)
  | 4 => return deposit (← Reader.bytes)
  | 6 => return publishPrekeys (← Reader.bytes)
  | 7 => return getPrekeys (← Reader.fixed 32)
  | 8 => return putBlob (← Reader.bytes)
  | 9 => return getBlob (← Reader.fixed 32)
  | 10 =>
    return postToChannel (← Reader.fixed 32) (← Reader.bytes) (← Reader.fixed 32)
      (← Reader.fixed 64)
  | 24 =>
    return setChannelRoster (← Reader.fixed 32) (← Reader.fixed 32) (← Reader.u64)
      (← readIdList) (← Reader.fixed 64)
  | 11 => return fetchChannel (← Reader.fixed 32) (← Reader.u64)
  | 25 => return channelHeads (← readIdList)
  | 12 => return postSignal (← Reader.fixed 32) (← Reader.bytes)
  | 13 => return fetchSignals (← Reader.fixed 32)
  | 14 => return getIceConfig
  | 15 => return publishKeyPackages (← Reader.fixed 32) (← readBlobList) (← Reader.fixed 64)
  | 16 => return getKeyPackage (← Reader.fixed 32)
  | 17 => return announceP2p (← readStrList)
  | 18 => return getP2pPeers
  | 19 => return sfuJoin (← Reader.fixed 32) (← Reader.string)
  | 20 => return sfuIce (← Reader.fixed 32) (← Reader.u8) (← Reader.string)
  | 21 => return sfuPull (← Reader.fixed 32) (← Reader.u8)
  | 22 => return sfuLeave (← Reader.fixed 32) (← Reader.u8)
  | 23 => return unfurlLink (← Reader.string)
  | 5 => return fetch (← readHints) (← Reader.u64)
  | other => throw (.badDiscriminant "Request" other.toUInt64)

def decode (input : Bytes) : Except WireError Request := Reader.decodeAll read input

/-- Every string, blob and list is shorter than `2 ^ 32`. -/
def Short : Request → Prop
  | submitRecord blob | deposit blob | publishPrekeys blob | putBlob blob
  | postToChannel _ blob _ _ | postSignal _ blob => blob.length < 2 ^ 32
  | fetch hints _ => hints.length < 2 ^ 32
  | setChannelRoster _ _ _ ids _ | channelHeads ids => ids.length < 2 ^ 32
  | publishKeyPackages _ blobs _ => blobs.length < 2 ^ 32 ∧ ∀ blob ∈ blobs, blob.length < 2 ^ 32
  | announceP2p addrs => addrs.length < 2 ^ 32 ∧ ∀ addr ∈ addrs, addr.utf8ByteSize < 2 ^ 32
  | sfuJoin _ s | sfuIce _ _ s | unfurlLink s => s.utf8ByteSize < 2 ^ 32
  | _ => True

end Request

namespace Response

def encode : Response → Bytes
  | pong => Writer.u8 0
  | ok => Writer.u8 1
  | error msg => Writer.u8 2 ++ Writer.string msg
  | treeHead size root => Writer.u8 3 ++ Writer.u64 size ++ Writer.fixed root
  | records blobs => Writer.u8 4 ++ writeBlobList blobs
  | envelopes blobs => Writer.u8 5 ++ writeBlobList blobs
  | prekeys bundle => Writer.u8 6 ++ writeOption bundle
  | blob bytes => Writer.u8 7 ++ writeOption bytes
  | channelLog entries => Writer.u8 8 ++ Writer.list writeEntry entries
  | channelHeads heads => Writer.u8 17 ++ Writer.list writeHead heads
  | signals blobs => Writer.u8 9 ++ writeBlobList blobs
  | iceConfig list => Writer.u8 10 ++ writeIceList list
  | keyPackage kp => Writer.u8 11 ++ writeOption kp
  | posted seq => Writer.u8 12 ++ Writer.u64 seq
  | p2pPeers addrs => Writer.u8 13 ++ writeStrList addrs
  | sfuAnswer slot answer => Writer.u8 14 ++ Writer.u8 slot ++ Writer.string answer
  | sfuIce candidates => Writer.u8 15 ++ writeStrList candidates
  | unfurlPreview url site title description imageDataUri =>
    Writer.u8 16 ++ Writer.string url ++ Writer.string site ++ Writer.string title ++
      Writer.string description ++ Writer.string imageDataUri

def read : Reader Response := do
  match ← Reader.u8 with
  | 0 => return pong
  | 1 => return ok
  | 2 => return error (← Reader.string)
  | 3 => return treeHead (← Reader.u64) (← Reader.fixed 32)
  | 4 => return records (← readBlobList)
  | 5 => return envelopes (← readBlobList)
  | 6 => return prekeys (← readOption)
  | 7 => return blob (← readOption)
  | 8 => return channelLog (← Reader.list readEntry)
  | 17 => return channelHeads (← Reader.list readHead)
  | 9 => return signals (← readBlobList)
  | 10 => return iceConfig (← readIceList)
  | 11 => return keyPackage (← readOption)
  | 12 => return posted (← Reader.u64)
  | 13 => return p2pPeers (← readStrList)
  | 14 => return sfuAnswer (← Reader.u8) (← Reader.string)
  | 15 => return sfuIce (← readStrList)
  | 16 =>
    return unfurlPreview (← Reader.string) (← Reader.string) (← Reader.string)
      (← Reader.string) (← Reader.string)
  | other => throw (.badDiscriminant "Response" other.toUInt64)

def decode (input : Bytes) : Except WireError Response := Reader.decodeAll read input

def Short : Response → Prop
  | error s | sfuAnswer _ s => s.utf8ByteSize < 2 ^ 32
  | records blobs | envelopes blobs | signals blobs =>
    blobs.length < 2 ^ 32 ∧ ∀ bytes ∈ blobs, bytes.length < 2 ^ 32
  | prekeys found | blob found | keyPackage found => ∀ bytes ∈ found, bytes.length < 2 ^ 32
  | channelLog entries =>
    entries.length < 2 ^ 32 ∧ ∀ entry ∈ entries, entry.2.length < 2 ^ 32
  | channelHeads heads => heads.length < 2 ^ 32
  | iceConfig list => list.length < 2 ^ 32 ∧ ∀ cfg ∈ list,
      (cfg.urls.length < 2 ^ 32 ∧ ∀ url ∈ cfg.urls, url.utf8ByteSize < 2 ^ 32) ∧
        cfg.username.utf8ByteSize < 2 ^ 32 ∧ cfg.credential.utf8ByteSize < 2 ^ 32
  | p2pPeers items | sfuIce items =>
    items.length < 2 ^ 32 ∧ ∀ item ∈ items, item.utf8ByteSize < 2 ^ 32
  | unfurlPreview url site title description imageDataUri =>
    url.utf8ByteSize < 2 ^ 32 ∧ site.utf8ByteSize < 2 ^ 32 ∧ title.utf8ByteSize < 2 ^ 32 ∧
      description.utf8ByteSize < 2 ^ 32 ∧ imageDataUri.utf8ByteSize < 2 ^ 32
  | _ => True

end Response

open Parser Reader

theorem codec_blobList :
    Codec readBlobList writeBlobList
      fun blobs => blobs.length < 2 ^ 32 ∧ ∀ blob ∈ blobs, blob.length < 2 ^ 32 :=
  codec_list codec_bytes fun blob => by simp [Writer.bytes, Writer.u32]

theorem codec_strList :
    Codec readStrList writeStrList
      fun items => items.length < 2 ^ 32 ∧ ∀ item ∈ items, item.utf8ByteSize < 2 ^ 32 :=
  codec_list codec_string fun item => by simp [Writer.string, Writer.bytes, Writer.u32]

theorem codec_arrays {n : Nat} (hn : 0 < n) :
    Codec (Reader.list (fixed n)) (Writer.list Writer.fixed) fun ids => ids.length < 2 ^ 32 :=
  (codec_list (codec_fixed n) fun id => by simpa [Writer.fixed] using hn).congr (fun _ => rfl)
    fun ids => by simp

theorem codec_idList :
    Codec readIdList writeIdList fun ids => ids.length < 2 ^ 32 :=
  codec_arrays (by decide)

theorem codec_hints : Codec readHints writeHints fun hints => hints.length < 2 ^ 32 :=
  codec_arrays (by decide)

theorem codec_ice : Codec readIce writeIce fun cfg =>
    (cfg.urls.length < 2 ^ 32 ∧ ∀ url ∈ cfg.urls, url.utf8ByteSize < 2 ^ 32) ∧
      cfg.username.utf8ByteSize < 2 ^ 32 ∧ cfg.credential.utf8ByteSize < 2 ^ 32 where
  reads h := by
    rw [writeIce, List.append_assoc]
    exact codec_strList.reads_bind h.1 <| codec_string.reads_bind h.2.1 <|
      codec_string.reads_map h.2.2 _
  takes :=
    codec_strList.takes_bind fun _ hurls => codec_string.takes_bind fun _ hname =>
      codec_string.takes_map fun _ hcredential => ⟨by simp [writeIce], hurls, hname, hcredential⟩

theorem codec_iceList : Codec readIceList writeIceList fun list =>
    list.length < 2 ^ 32 ∧ ∀ cfg ∈ list,
      (cfg.urls.length < 2 ^ 32 ∧ ∀ url ∈ cfg.urls, url.utf8ByteSize < 2 ^ 32) ∧
        cfg.username.utf8ByteSize < 2 ^ 32 ∧ cfg.credential.utf8ByteSize < 2 ^ 32 :=
  codec_list codec_ice fun cfg => by simp [writeIce, writeStrList, Writer.list, Writer.u32]

theorem codec_entry : Codec readEntry writeEntry fun entry => entry.2.length < 2 ^ 32 where
  reads h := codec_u64.reads_bind trivial <| codec_bytes.reads_map h _
  takes :=
    codec_u64.takes_bind fun _ _ => codec_bytes.takes_map fun _ hblob =>
      ⟨by simp [writeEntry], hblob⟩

theorem codec_entries : Codec (Reader.list readEntry) (Writer.list writeEntry) fun entries =>
    entries.length < 2 ^ 32 ∧ ∀ entry ∈ entries, entry.2.length < 2 ^ 32 :=
  codec_list codec_entry fun entry => by simp [writeEntry, Writer.u64]

theorem codec_head : Codec readHead writeHead fun _ => True where
  reads _ := (codec_fixed 32).reads_bind trivial <| codec_u64.reads_map trivial _
  takes :=
    (codec_fixed 32).takes_bind fun _ _ => codec_u64.takes_map fun _ _ =>
      ⟨by simp [writeHead], trivial⟩

theorem codec_heads :
    Codec (Reader.list readHead) (Writer.list writeHead) fun heads => heads.length < 2 ^ 32 :=
  (codec_list codec_head fun head => by simp [writeHead, Writer.fixed]).congr (fun _ => rfl)
    fun heads => by simp

theorem codec_option :
    Codec readOption writeOption fun blob => ∀ bytes ∈ blob, bytes.length < 2 ^ 32 where
  reads {blob} h := by
    cases blob with
    | none => exact codec_bool.reads_last trivial (.pure none)
    | some bytes => exact codec_bool.reads_bind trivial <| codec_bytes.reads_map (h bytes rfl) some
  takes := by
    refine codec_bool.takes_bind fun present _ => ?_
    cases present with
    | false => exact .pure ⟨rfl, nofun⟩
    | true =>
      refine codec_bytes.takes_map fun bytes hbytes => ⟨by simp [writeOption], ?_⟩
      simpa using hbytes

theorem Request.reads {request : Request} (h : request.Short) :
    Reads Request.read request.encode request := by
  cases request <;> simp only [encode, List.append_assoc]
  case ping => exact codec_u8.reads_last trivial (.pure _)
  case submitRecord => exact reads_tag <| codec_bytes.reads_map h _
  case getTreeHead => exact codec_u8.reads_last trivial (.pure _)
  case getRecords =>
    exact reads_tag <| codec_u64.reads_bind trivial <| codec_u64.reads_map trivial _
  case deposit => exact reads_tag <| codec_bytes.reads_map h _
  case fetch => exact reads_tag <| codec_hints.reads_bind h <| codec_u64.reads_map trivial _
  case publishPrekeys => exact reads_tag <| codec_bytes.reads_map h _
  case getPrekeys => exact reads_tag <| (codec_fixed 32).reads_map trivial _
  case putBlob => exact reads_tag <| codec_bytes.reads_map h _
  case getBlob => exact reads_tag <| (codec_fixed 32).reads_map trivial _
  case postToChannel =>
    exact reads_tag <| (codec_fixed 32).reads_bind trivial <|
      codec_bytes.reads_bind h <| (codec_fixed 32).reads_bind trivial <|
      (codec_fixed 64).reads_map trivial _
  case setChannelRoster =>
    exact reads_tag <| (codec_fixed 32).reads_bind trivial <|
      (codec_fixed 32).reads_bind trivial <| codec_u64.reads_bind trivial <|
      codec_idList.reads_bind h <| (codec_fixed 64).reads_map trivial _
  case fetchChannel =>
    exact reads_tag <| (codec_fixed 32).reads_bind trivial <| codec_u64.reads_map trivial _
  case channelHeads => exact reads_tag <| codec_idList.reads_map h _
  case postSignal =>
    exact reads_tag <| (codec_fixed 32).reads_bind trivial <| codec_bytes.reads_map h _
  case fetchSignals => exact reads_tag <| (codec_fixed 32).reads_map trivial _
  case getIceConfig => exact codec_u8.reads_last trivial (.pure _)
  case publishKeyPackages =>
    exact reads_tag <| (codec_fixed 32).reads_bind trivial <|
      codec_blobList.reads_bind h <| (codec_fixed 64).reads_map trivial _
  case getKeyPackage => exact reads_tag <| (codec_fixed 32).reads_map trivial _
  case announceP2p => exact reads_tag <| codec_strList.reads_map h _
  case getP2pPeers => exact codec_u8.reads_last trivial (.pure _)
  case sfuJoin =>
    exact reads_tag <| (codec_fixed 32).reads_bind trivial <| codec_string.reads_map h _
  case sfuIce =>
    exact reads_tag <| (codec_fixed 32).reads_bind trivial <|
      codec_u8.reads_bind trivial <| codec_string.reads_map h _
  case sfuPull | sfuLeave =>
    exact reads_tag <| (codec_fixed 32).reads_bind trivial <| codec_u8.reads_map trivial _
  case unfurlLink => exact reads_tag <| codec_string.reads_map h _

theorem Request.takes :
    Takes Request.read fun request xs => xs = request.encode ∧ request.Short := by
  refine codec_u8.takes_bind fun tag _ => ?_
  split
  -- the branches in the order of `read`
  · exact .pure ⟨rfl, trivial⟩
  · exact codec_bytes.takes_map fun _ h => ⟨rfl, h⟩
  · exact .pure ⟨rfl, trivial⟩
  · exact codec_u64.takes_bind fun _ _ => codec_u64.takes_map fun _ _ => ⟨by simp [encode], trivial⟩
  · exact codec_bytes.takes_map fun _ h => ⟨rfl, h⟩
  · exact codec_bytes.takes_map fun _ h => ⟨rfl, h⟩
  · exact (codec_fixed 32).takes_map fun _ _ => ⟨rfl, trivial⟩
  · exact codec_bytes.takes_map fun _ h => ⟨rfl, h⟩
  · exact (codec_fixed 32).takes_map fun _ _ => ⟨rfl, trivial⟩
  · exact (codec_fixed 32).takes_bind fun _ _ => codec_bytes.takes_bind fun _ h =>
      (codec_fixed 32).takes_bind fun _ _ => (codec_fixed 64).takes_map fun _ _ =>
      ⟨by simp [encode], h⟩
  · exact (codec_fixed 32).takes_bind fun _ _ => (codec_fixed 32).takes_bind fun _ _ =>
      codec_u64.takes_bind fun _ _ => codec_idList.takes_bind fun _ h =>
      (codec_fixed 64).takes_map fun _ _ => ⟨by simp [encode], h⟩
  · exact (codec_fixed 32).takes_bind fun _ _ => codec_u64.takes_map fun _ _ =>
      ⟨by simp [encode], trivial⟩
  · exact codec_idList.takes_map fun _ h => ⟨rfl, h⟩
  · exact (codec_fixed 32).takes_bind fun _ _ => codec_bytes.takes_map fun _ h =>
      ⟨by simp [encode], h⟩
  · exact (codec_fixed 32).takes_map fun _ _ => ⟨rfl, trivial⟩
  · exact .pure ⟨rfl, trivial⟩
  · exact (codec_fixed 32).takes_bind fun _ _ => codec_blobList.takes_bind fun _ h =>
      (codec_fixed 64).takes_map fun _ _ => ⟨by simp [encode], h⟩
  · exact (codec_fixed 32).takes_map fun _ _ => ⟨rfl, trivial⟩
  · exact codec_strList.takes_map fun _ h => ⟨rfl, h⟩
  · exact .pure ⟨rfl, trivial⟩
  · exact (codec_fixed 32).takes_bind fun _ _ => codec_string.takes_map fun _ h =>
      ⟨by simp [encode], h⟩
  · exact (codec_fixed 32).takes_bind fun _ _ => codec_u8.takes_bind fun _ _ =>
      codec_string.takes_map fun _ h => ⟨by simp [encode], h⟩
  · exact (codec_fixed 32).takes_bind fun _ _ => codec_u8.takes_map fun _ _ =>
      ⟨by simp [encode], trivial⟩
  · exact (codec_fixed 32).takes_bind fun _ _ => codec_u8.takes_map fun _ _ =>
      ⟨by simp [encode], trivial⟩
  · exact codec_string.takes_map fun _ h => ⟨rfl, h⟩
  · exact codec_hints.takes_bind fun _ h => codec_u64.takes_map fun _ _ => ⟨by simp [encode], h⟩
  · exact .throw

theorem Request.codec : Codec Request.read Request.encode Request.Short := ⟨reads, takes⟩

theorem Response.reads {response : Response} (h : response.Short) :
    Reads Response.read response.encode response := by
  cases response <;> simp only [encode, List.append_assoc]
  case pong => exact codec_u8.reads_last trivial (.pure _)
  case ok => exact codec_u8.reads_last trivial (.pure _)
  case error => exact reads_tag <| codec_string.reads_map h _
  case treeHead =>
    exact reads_tag <| codec_u64.reads_bind trivial <| (codec_fixed 32).reads_map trivial _
  case records | envelopes | signals => exact reads_tag <| codec_blobList.reads_map h _
  case prekeys | blob | keyPackage => exact reads_tag <| codec_option.reads_map h _
  case channelLog => exact reads_tag <| codec_entries.reads_map h _
  case channelHeads => exact reads_tag <| codec_heads.reads_map h _
  case iceConfig => exact reads_tag <| codec_iceList.reads_map h _
  case posted => exact reads_tag <| codec_u64.reads_map trivial _
  case p2pPeers | sfuIce => exact reads_tag <| codec_strList.reads_map h _
  case sfuAnswer => exact reads_tag <| codec_u8.reads_bind trivial <| codec_string.reads_map h _
  case unfurlPreview =>
    obtain ⟨hurl, hsite, htitle, hdescription, himage⟩ := h
    exact reads_tag <| codec_string.reads_bind hurl <|
      codec_string.reads_bind hsite <| codec_string.reads_bind htitle <|
      codec_string.reads_bind hdescription <| codec_string.reads_map himage _

theorem Response.takes :
    Takes Response.read fun response xs => xs = response.encode ∧ response.Short := by
  refine codec_u8.takes_bind fun tag _ => ?_
  split
  -- the branches in the order of `read`
  · exact .pure ⟨rfl, trivial⟩
  · exact .pure ⟨rfl, trivial⟩
  · exact codec_string.takes_map fun _ h => ⟨rfl, h⟩
  · exact codec_u64.takes_bind fun _ _ => (codec_fixed 32).takes_map fun _ _ =>
      ⟨by simp [encode], trivial⟩
  · exact codec_blobList.takes_map fun _ h => ⟨rfl, h⟩
  · exact codec_blobList.takes_map fun _ h => ⟨rfl, h⟩
  · exact codec_option.takes_map fun _ h => ⟨rfl, h⟩
  · exact codec_option.takes_map fun _ h => ⟨rfl, h⟩
  · exact codec_entries.takes_map fun _ h => ⟨rfl, h⟩
  · exact codec_heads.takes_map fun _ h => ⟨rfl, h⟩
  · exact codec_blobList.takes_map fun _ h => ⟨rfl, h⟩
  · exact codec_iceList.takes_map fun _ h => ⟨rfl, h⟩
  · exact codec_option.takes_map fun _ h => ⟨rfl, h⟩
  · exact codec_u64.takes_map fun _ _ => ⟨rfl, trivial⟩
  · exact codec_strList.takes_map fun _ h => ⟨rfl, h⟩
  · exact codec_u8.takes_bind fun _ _ => codec_string.takes_map fun _ h => ⟨by simp [encode], h⟩
  · exact codec_strList.takes_map fun _ h => ⟨rfl, h⟩
  · exact codec_string.takes_bind fun _ hurl => codec_string.takes_bind fun _ hsite =>
      codec_string.takes_bind fun _ htitle => codec_string.takes_bind fun _ hdescription =>
      codec_string.takes_map fun _ himage =>
      ⟨by simp [encode], hurl, hsite, htitle, hdescription, himage⟩
  · exact .throw

theorem Response.codec : Codec Response.read Response.encode Response.Short := ⟨reads, takes⟩

end Dante.Net.Wire
