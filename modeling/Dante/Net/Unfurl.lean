import Dante.Net.GifHosts

/-!
The fetcher of link previews. For each URL on the way of a redirect it looks up the host, connects
to the first address that counts as public and writes one request. The name server and the contacted
servers may answer anything, and something else each time.

A request is written as a text; the characters that matter in it are one byte each.
-/

namespace Dante.Net

structure Ipv4Addr where
  a : UInt8
  b : UInt8
  c : UInt8
  d : UInt8
  deriving DecidableEq

namespace Ipv4Addr

variable (ip : Ipv4Addr)

def isLoopback : Bool := ip.a = 127

def isPrivate : Bool :=
  ip.a = 10 || ip.a = 172 && 16 ≤ ip.b && ip.b ≤ 31 || ip.a = 192 && ip.b = 168

def isLinkLocal : Bool := ip.a = 169 && ip.b = 254

def isBroadcast : Bool := ip = ⟨255, 255, 255, 255⟩

def isDocumentation : Bool :=
  ip.a = 192 && ip.b = 0 && ip.c = 2 || ip.a = 198 && ip.b = 51 && ip.c = 100 ||
    ip.a = 203 && ip.b = 0 && ip.c = 113

def isUnspecified : Bool := ip = ⟨0, 0, 0, 0⟩

def isMulticast : Bool := 224 ≤ ip.a && ip.a ≤ 239

/-- The first case of `ip_is_public`. -/
def isPublic : Bool :=
  !(ip.isLoopback || ip.isPrivate || ip.isLinkLocal || ip.isBroadcast || ip.isDocumentation ||
    ip.isUnspecified || ip.isMulticast || ip.a = 0 ||
    ip.a = 100 && ip.b &&& 0xc0 = 64 ||
    ip.a = 192 && ip.b = 0 && ip.c = 0 ||
    ip.a = 198 && ip.b &&& 0xfe = 18 ||
    240 ≤ ip.a)

end Ipv4Addr

@[ext]
structure Ipv6Addr where
  s0 : UInt16
  s1 : UInt16
  s2 : UInt16
  s3 : UInt16
  s4 : UInt16
  s5 : UInt16
  s6 : UInt16
  s7 : UInt16
  deriving DecidableEq

namespace Ipv6Addr

variable (ip : Ipv6Addr)

/-- The address in two segments. -/
def octets (high low : UInt16) : Ipv4Addr where
  a := (high >>> 8).toUInt8
  b := high.toUInt8
  c := (low >>> 8).toUInt8
  d := low.toUInt8

def toIpv4Mapped : Option Ipv4Addr :=
  if ip.s0 = 0 ∧ ip.s1 = 0 ∧ ip.s2 = 0 ∧ ip.s3 = 0 ∧ ip.s4 = 0 ∧ ip.s5 = 0xffff then
    some (octets ip.s6 ip.s7)
  else none

def isLoopback : Bool := ip = ⟨0, 0, 0, 0, 0, 0, 0, 1⟩

def isUnspecified : Bool := ip = ⟨0, 0, 0, 0, 0, 0, 0, 0⟩

def isMulticast : Bool := ip.s0 &&& 0xff00 = 0xff00

/-- The second case of `ip_is_public`. -/
def isPublic : Bool :=
  match ip.toIpv4Mapped with
  | some v4 => v4.isPublic
  | none =>
    !(ip.isLoopback || ip.isUnspecified || ip.isMulticast ||
      ip.s0 &&& 0xfe00 = 0xfc00 ||
      ip.s0 &&& 0xffc0 = 0xfe80 ||
      ip.s0 = 0x2001 && ip.s1 = 0x0db8)

end Ipv6Addr

inductive IpAddr where
  | v4 (ip : Ipv4Addr)
  | v6 (ip : Ipv6Addr)
  deriving DecidableEq

def ipIsPublic : IpAddr → Bool
  | .v4 ip => ip.isPublic
  | .v6 ip => ip.isPublic

/-- The first public address among those that the name server has answered. -/
def resolvePublic (addrs : List IpAddr) : Except String IpAddr :=
  Except.okOr (addrs.find? ipIsPublic) "link points at a non-public address"

namespace Url

/-- The characters that `trim` takes away. -/
def isWhiteSpace (c : Char) : Bool :=
  [0x9, 0xa, 0xb, 0xc, 0xd, 0x20, 0x85, 0xa0, 0x1680, 0x2000, 0x2001, 0x2002, 0x2003, 0x2004, 0x2005,
    0x2006, 0x2007, 0x2008, 0x2009, 0x200a, 0x2028, 0x2029, 0x202f, 0x205f, 0x3000].contains c.toNat

def trim (text : Text) : Text :=
  ((text.dropWhile isWhiteSpace).reverse.dropWhile isWhiteSpace).reverse

/-- A reference without a scheme, under the site and the rest of the base. -/
def resolveRelative (site rest : Text) : Text → Text
  | '/' :: '/' :: sf => site ++ sf
  | '/' :: abs => site ++ (rest.takeWhile fun c => !isDelimiter c) ++ '/' :: abs
  | href =>
    let authority := rest.takeWhile fun c => !isDelimiter c
    -- the base's directory ends with the last slash after the authority
    match (rest.dropWhile fun c => !isDelimiter c).rsplitOnce '/' with
    | some (dir, _) => site ++ authority ++ dir ++ '/' :: href
    | none => site ++ authority ++ '/' :: href

def absolutize (base href : Text) : Option Text :=
  let href := trim href
  if href = [] then none
  else if (splitScheme href).isSome then some href
  else do
    let (scheme, rest) ← splitScheme base
    return resolveRelative (scheme ++ "://".toList) rest href

end Url

section Fetch

open Url

/-- The request that `http_roundtrip` writes. -/
def httpRequest (path host : Text) : Text :=
  "GET ".toList ++ path ++ " HTTP/1.1\r\nHost: ".toList ++ host ++
    "\r\nUser-Agent: DaNTe-unfurl/1\r\nAccept: text/html,*/*\r\n".toList ++
    "Accept-Encoding: identity\r\nConnection: close\r\n\r\n".toList

inductive HopReply where
  /-- No connection, or no TLS session: nothing is written. -/
  | unreached (reason : String)
  | redirect (location : Text)
  | body (contentType : Text) (bytes : List UInt8)
  /-- An answer that is not used. -/
  | failed (reason : String)

/-- The world outside, for each of the requests that are left. -/
structure Web where
  lookupHost : Nat → Text → UInt16 → Except String (List IpAddr)
  reply : Nat → IpAddr → Target → HopReply

structure Hop where
  url : Text
  target : Target
  /-- What the name server has answered, and the address that is taken. -/
  addrs : List IpAddr
  addr : IpAddr
  written : Option Text

structure Fetched where
  result : Except String (Text × List UInt8 × Text)
  hops : List Hop

def checkWanted (want : Option Text) (url contentType : Text) (bytes : List UInt8) :
    Except String (Text × List UInt8 × Text) :=
  match want with
  | some w =>
    if w.isPrefixOf (contentType.dropWhile isWhiteSpace) then .ok (url, bytes, contentType)
    else .error ("unexpected content type: " ++ String.ofList contentType)
  | none => .ok (url, bytes, contentType)

/-- The loop of `fetch`, with this many turns left. -/
def fetchLoop (web : Web) (want : Option Text) (hostOk : Option (Text → Bool)) :
    Nat → Text → Fetched
  | 0, _ => ⟨.error "too many redirects", []⟩
  | turns + 1, url =>
    if hostOk.any fun ok => !ok url then
      ⟨.error "redirected to a host outside the allowlist", []⟩
    else
      match splitUrl url with
      | .error e => ⟨.error e, []⟩
      | .ok target =>
        match web.lookupHost turns target.host target.port with
        | .error e => ⟨.error e, []⟩
        | .ok addrs =>
          match resolvePublic addrs with
          | .error e => ⟨.error e, []⟩
          | .ok addr =>
            let hop : Hop := ⟨url, target, addrs, addr, some (httpRequest target.path target.host)⟩
            match web.reply turns addr target with
            | .unreached reason => ⟨.error reason, [{ hop with written := none }]⟩
            | .failed reason => ⟨.error reason, [hop]⟩
            | .body contentType bytes => ⟨checkWanted want url contentType bytes, [hop]⟩
            | .redirect location =>
              match absolutize url location with
              | none => ⟨.error "bad redirect location", [hop]⟩
              | some next =>
                let rest := fetchLoop web want hostOk turns next
                ⟨rest.result, hop :: rest.hops⟩

def fetchUrl (web : Web) (want : Option Text) (hostOk : Option (Text → Bool)) (startUrl : Text) :
    Fetched :=
  fetchLoop web want hostOk (maxRedirects + 1) startUrl

/-- What every turn does that connects: the URL is split, the address is the first public one
that was answered, and what is written is the request for the URL. -/
structure Hop.Made (hop : Hop) : Prop where
  target : splitUrl hop.url = .ok hop.target
  addr : hop.addrs.find? ipIsPublic = some hop.addr
  written : ∀ text ∈ hop.written, text = httpRequest hop.target.path hop.target.host

theorem made_of_mem_fetchLoop (web : Web) (want : Option Text) (hostOk : Option (Text → Bool))
    (turns : Nat) (url : Text) :
    ∀ hop ∈ (fetchLoop web want hostOk turns url).hops, hop.Made := by
  induction turns generalizing url with
  | zero => exact List.forall_mem_nil _
  | succ turns ih =>
    rw [fetchLoop]
    split
    · exact List.forall_mem_nil _
    · cases htarget : splitUrl url with
      | error e => exact List.forall_mem_nil _
      | ok target =>
        dsimp only
        cases web.lookupHost turns target.host target.port with
        | error e => exact List.forall_mem_nil _
        | ok addrs =>
          dsimp only
          cases haddr : resolvePublic addrs with
          | error e => exact List.forall_mem_nil _
          | ok addr =>
            have hfirst := Except.okOr_eq_ok.mp haddr
            have hmade : Hop.Made
                ⟨url, target, addrs, addr, some (httpRequest target.path target.host)⟩ :=
              ⟨htarget, hfirst, fun _ htext => (Option.some.inj htext).symm⟩
            dsimp only
            cases web.reply turns addr target with
            | unreached reason =>
              exact List.forall_mem_singleton.mpr ⟨htarget, hfirst, fun _ htext => (nomatch htext)⟩
            | failed reason | body contentType bytes => exact List.forall_mem_singleton.mpr hmade
            | redirect location =>
              dsimp only
              cases absolutize url location with
              | none => exact List.forall_mem_singleton.mpr hmade
              | some next => exact List.forall_mem_cons.mpr ⟨hmade, ih next⟩

end Fetch

end Dante.Net
