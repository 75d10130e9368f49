import Dante.Library.Method
import Dante.Library.Chunks

/-!
Which hosts a GIF download contacts. The allowlist check and the fetcher each read the host out of
the URL with a parser of their own. They agree except on an authority that starts with a bracket,
which only the fetcher takes for an IPv6 literal. A text is the list of its characters.
-/

namespace Dante.Net

abbrev Text := List Char

namespace Url

/-- The end of the authority. -/
def isDelimiter (c : Char) : Bool := c = '/' || c = '?' || c = '#'

/-- `to_ascii_lowercase` -/
def lower (text : Text) : Text := text.map Char.toLower

/-- `u16::from_str`: decimal digits, perhaps after a plus sign. -/
def parsePort (text : Text) : Option UInt16 :=
  let digits := match text with
    | '+' :: rest => rest
    | _ => text
  if digits ≠ [] ∧ digits.all Char.isDigit then
    let n := digits.foldl (fun n c => 10 * n + (c.toNat - '0'.toNat)) 0
    if n < 65536 then some (UInt16.ofNat n) else none
  else none

structure Target where
  path : Text
  host : Text
  port : UInt16
  tls : Bool
  deriving DecidableEq

/-- Scheme and rest of a URL. -/
def splitScheme (url : Text) : Option (Text × Text) := url.splitOnce "://".toList

/-- Whether TLS is used; `none` for a scheme that is not fetched. -/
def usesTls (scheme : Text) : Option Bool :=
  if lower scheme = "https".toList then some true
  else if lower scheme = "http".toList then some false
  else none

def authority (rest : Text) : Text :=
  (rest.takeWhile fun c => !isDelimiter c).afterLast '@'

def path (rest : Text) : Text :=
  match rest.dropWhile fun c => !isDelimiter c with
  | [] => "/".toList
  | tail => tail

/-- Host and port after an opening bracket; what follows the closing one is the port or is
ignored. -/
def bracketHostPort (inner : Text) (defaultPort : UInt16) : Except String (Text × UInt16) := do
  let (host, tail) ← Except.okOr (inner.splitOnce [']']) "bad ipv6 authority"
  let port := if tail.head? = some ':' then parsePort tail.tail else none
  return (host, port.getD defaultPort)

/-- Host and port around the last colon. -/
def plainHostPort (authority : Text) (defaultPort : UInt16) : Except String (Text × UInt16) :=
  match authority.rsplitOnce ':' with
  | some (host, digits) => do return (host, ← Except.okOr (parsePort digits) "bad port")
  | none => .ok (authority, defaultPort)

def hostPort (authority : Text) (tls : Bool) : Except String (Text × UInt16) :=
  let defaultPort : UInt16 := if tls then 443 else 80
  if authority.head? = some '[' then bracketHostPort authority.tail defaultPort
  else plainHostPort authority defaultPort

def splitUrl (url : Text) : Except String Target := do
  let (scheme, rest) ← Except.okOr (splitScheme url) "url needs a scheme"
  let tls ← Except.okOr (usesTls scheme) "only http and https links are previewed"
  let (host, port) ← hostPort (authority rest) tls
  Except.refuseIf (host = []) "url has no host"
  return { path := path rest, host := host, port := port, tls := tls }

def gifSuffixes : List Text := [".tenor.com".toList, ".giphy.com".toList]

def hostAllowed (host : Text) : Bool :=
  gifSuffixes.any fun suffix => host = suffix.drop 1 || suffix.isSuffixOf host

def allowedHost (url : Text) : Bool :=
  match splitScheme url with
  | none => false
  | some (_, rest) => hostAllowed (lower ((authority rest).beforeLast ':'))

end Url

section Fetch

open Url

/-- What a contacted server answers; a redirect carries the absolute form of its location, if
it has one. -/
inductive WebReply where
  | redirect (location : Option Text)
  | body (contentType : Text) (bytes : List UInt8)
  | failed (reason : String)

/-- A download: its result, the URLs it has gone through and the hosts it has contacted. -/
structure Download where
  result : Except String (List UInt8 × Text)
  visited : List Text
  contacted : List Text

def maxRedirects : Nat := 3

/-- The loop of `fetch` with the hop check `host_ok`; `hops` requests are left. `resolves` is
the look-up of a public address, and `answer` the answer to a request. -/
def fetch (hostOk : Text → Bool) (resolves : Text → UInt16 → Bool) (answer : Target → WebReply) :
    Nat → Text → Download
  | 0, _ => ⟨.error "too many redirects", [], []⟩
  | hops + 1, url =>
    if hostOk url then
      match splitUrl url with
      | .error e => ⟨.error e, [url], []⟩
      | .ok target =>
        if resolves target.host target.port then
          match answer target with
          | .redirect (some next) =>
            let rest := fetch hostOk resolves answer hops next
            ⟨rest.result, url :: rest.visited, target.host :: rest.contacted⟩
          | .redirect none => ⟨.error "bad redirect location", [url], [target.host]⟩
          | .body contentType bytes => ⟨.ok (bytes, contentType), [url], [target.host]⟩
          | .failed reason => ⟨.error reason, [url], [target.host]⟩
        else ⟨.error "link points at a non-public address", [url], []⟩
    else ⟨.error "redirected to a host outside the allowlist", [url], []⟩

/-- The content type that a GIF has to come with. -/
def requireImage (page : List UInt8 × Text) : Except String (List UInt8 × Text) :=
  if "image/".toList.isPrefixOf page.2 then .ok page else .error "unexpected content type"

def fetchGif (resolves : Text → UInt16 → Bool) (answer : Target → WebReply) (url : Text) :
    Download :=
  if allowedHost url then
    let page := fetch allowedHost resolves answer (maxRedirects + 1) url
    { page with result := page.result >>= requireImage }
  else ⟨.error "not a recognised GIF provider host", [], []⟩

end Fetch

namespace Url

/-- The host is one of the providers' domains or lies below one of them. -/
def OfProvider (host : Text) : Prop :=
  ∃ domain ∈ ["tenor.com".toList, "giphy.com".toList],
    lower host = domain ∨ ∃ sub : Text, lower host = sub ++ '.' :: domain

theorem hostAllowed_iff (host : Text) : hostAllowed (lower host) = true ↔ OfProvider host := by
  have hbelow (domain : Text) : ('.' :: domain).isSuffixOf (lower host) = true ↔
      ∃ sub : Text, lower host = sub ++ '.' :: domain := by
    rw [List.isSuffixOf_iff_suffix]
    exact exists_congr fun sub => eq_comm
  have htenor := hbelow "tenor.com".toList
  have hgiphy := hbelow "giphy.com".toList
  simp only [hostAllowed, gifSuffixes, List.any_cons, List.any_nil, Bool.or_false, Bool.or_eq_true,
    decide_eq_true_eq, OfProvider, List.mem_cons, List.not_mem_nil, or_false, exists_eq_or_imp,
    exists_eq_left]
  exact or_congr (or_congr Iff.rfl htenor) (or_congr Iff.rfl hgiphy)

/-- The text in brackets that an authority starts with. -/
def bracketed (authority : Text) : Option Text :=
  if authority.head? = some '[' then (authority.tail.splitOnce [']']).map Prod.fst else none

theorem bracketHostPort_eq_ok {inner host : Text} {defaultPort port : UInt16}
    (h : bracketHostPort inner defaultPort = .ok (host, port)) :
    (inner.splitOnce [']']).map Prod.fst = some host := by
  simp only [bracketHostPort, Except.bind_eq_ok, Except.okOr_eq_ok, Except.pure_eq_ok,
    Prod.mk.injEq] at h
  obtain ⟨parts, hsplit, rfl, -⟩ := h
  rw [hsplit]
  rfl

theorem plainHostPort_eq_ok {authority host : Text} {defaultPort port : UInt16}
    (h : plainHostPort authority defaultPort = .ok (host, port)) :
    host = authority.beforeLast ':' := by
  unfold plainHostPort at h
  unfold List.beforeLast
  cases hsplit : authority.rsplitOnce ':' with
  | none =>
    simp only [hsplit, Except.ok.injEq, Prod.mk.injEq] at h
    exact h.1.symm
  | some parts =>
    simp only [hsplit, Except.bind_eq_ok, Except.pure_eq_ok, Prod.mk.injEq] at h
    obtain ⟨-, -, rfl, -⟩ := h
    rfl

/-- The host is the bracketed text, or what stands before the last colon. -/
theorem hostPort_cases {authority host : Text} {port : UInt16} {tls : Bool}
    (h : hostPort authority tls = .ok (host, port)) :
    bracketed authority = some host ∨ host = authority.beforeLast ':' := by
  unfold hostPort at h
  by_cases hfirst : authority.head? = some '['
  · left
    rw [if_pos hfirst] at h
    rw [bracketed, if_pos hfirst]
    exact bracketHostPort_eq_ok h
  · right
    rw [if_neg hfirst] at h
    exact plainHostPort_eq_ok h

theorem hostPort_of_bracketed {authority inside : Text} (tls : Bool)
    (h : bracketed authority = some inside) :
    ∃ port, hostPort authority tls = .ok (inside, port) := by
  unfold bracketed at h
  split at h
  · rename_i hfirst
    rw [Option.map_eq_some_iff] at h
    obtain ⟨⟨host, tail⟩, hsplit, rfl⟩ := h
    rw [hostPort, if_pos hfirst, bracketHostPort, hsplit]
    exact ⟨_, rfl⟩
  · cases h

theorem splitUrl_eq_ok {url : Text} {target : Target} :
    splitUrl url = .ok target ↔
      ∃ scheme rest, splitScheme url = some (scheme, rest) ∧ usesTls scheme = some target.tls ∧
        hostPort (authority rest) target.tls = .ok (target.host, target.port) ∧
        target.host ≠ [] ∧ target.path = path rest := by
  simp only [splitUrl, Except.bind_eq_ok, Except.okOr_eq_ok, Except.refuseIf_eq_ok,
    Except.pure_eq_ok]
  constructor
  · rintro ⟨⟨scheme, rest⟩, hscheme, tls, htls, ⟨host, port⟩, hhost, -, hne, rfl⟩
    exact ⟨scheme, rest, hscheme, htls, hhost, hne, rfl⟩
  · rintro ⟨scheme, rest, hscheme, htls, hhost, hne, hpath⟩
    exact ⟨(scheme, rest), hscheme, target.tls, htls, (target.host, target.port), hhost, (), hne,
      by rw [← hpath]⟩

/-- If the check lets a URL through whose authority starts with a bracket, then the name in the
brackets is a provider's host, or none. -/
def BracketsAgree (url : Text) : Prop :=
  allowedHost url = true → ∀ scheme rest inside, splitScheme url = some (scheme, rest) →
    (usesTls scheme).isSome → bracketed (authority rest) = some inside →
    inside = [] ∨ OfProvider inside

/-- The check and the fetcher mean the same host. -/
def CheckSound (url : Text) : Prop :=
  allowedHost url = true → ∀ target, splitUrl url = .ok target → OfProvider target.host

theorem checkSound_iff (url : Text) : CheckSound url ↔ BracketsAgree url := by
  constructor
  · intro hsound hallowed scheme rest inside hscheme hweb hinside
    by_cases hempty : inside = []
    · exact Or.inl hempty
    · obtain ⟨tls, htls⟩ := Option.isSome_iff_exists.mp hweb
      obtain ⟨port, hport⟩ := hostPort_of_bracketed tls hinside
      exact Or.inr (hsound hallowed
        { path := path rest, host := inside, port := port, tls := tls }
        (splitUrl_eq_ok.mpr ⟨scheme, rest, hscheme, htls, hport, hempty, rfl⟩))
  · intro hagree hallowed target htarget
    obtain ⟨scheme, rest, hscheme, htls, hhost, hne, -⟩ := splitUrl_eq_ok.mp htarget
    rcases hostPort_cases hhost with hinside | hcolon
    · exact (hagree hallowed scheme rest target.host hscheme (by rw [htls]; rfl)
        hinside).resolve_left hne
    · rw [hcolon, ← hostAllowed_iff]
      simpa only [allowedHost, hscheme] using hallowed

end Url

open Url

/-- By induction on the requests that are left: each contacted host is the host of a URL that
has passed the check. -/
theorem fetch_contacted (resolves : Text → UInt16 → Bool) (answer : Target → WebReply) (hops : Nat)
    (url : Text) (hvisited : ∀ u ∈ (fetch allowedHost resolves answer hops url).visited,
      BracketsAgree u) :
    ∀ host ∈ (fetch allowedHost resolves answer hops url).contacted, OfProvider host := by
  induction hops generalizing url with
  | zero => simp [fetch]
  | succ hops ih =>
    rw [fetch] at hvisited ⊢
    by_cases hallowed : allowedHost url = true
    · rw [if_pos hallowed] at hvisited ⊢
      cases htarget : splitUrl url with
      | error e => simp
      | ok target =>
        simp only [htarget] at hvisited ⊢
        by_cases hresolves : resolves target.host target.port = true
        · rw [if_pos hresolves] at hvisited ⊢
          have hfirst (hagree : BracketsAgree url) : OfProvider target.host :=
            (checkSound_iff url).mpr hagree hallowed target htarget
          cases hanswer : answer target with
          | body contentType bytes | failed reason =>
            simp only [hanswer, List.mem_singleton, forall_eq] at hvisited ⊢
            exact hfirst hvisited
          | redirect location =>
            cases location with
            | none =>
              simp only [hanswer, List.mem_singleton, forall_eq] at hvisited ⊢
              exact hfirst hvisited
            | some next =>
              simp only [hanswer, List.forall_mem_cons] at hvisited ⊢
              exact ⟨hfirst hvisited.1, ih next hvisited.2⟩
        · simp [hresolves]
    · simp [hallowed]

/-- The check decides about the host that is contacted exactly if the brackets agree, and a
download all of whose URLs are like that stays with the providers. -/
theorem gif_hosts_iff (url : Text) (resolves : Text → UInt16 → Bool)
    (answer : Target → WebReply) :
    (CheckSound url ↔ BracketsAgree url) ∧
      ((∀ u ∈ (fetchGif resolves answer url).visited, BracketsAgree u) →
        ∀ host ∈ (fetchGif resolves answer url).contacted, OfProvider host) := by
  refine ⟨checkSound_iff url, ?_⟩
  intro hvisited
  rw [fetchGif] at hvisited ⊢
  by_cases hallowed : allowedHost url = true
  · rw [if_pos hallowed] at hvisited ⊢
    exact fetch_contacted resolves answer (maxRedirects + 1) url hvisited
  · simp [hallowed]

/-- The allowlist sees a name below `tenor.com`, the fetcher contacts another host. -/
theorem bracketed_host_contacted :
    allowedHost "https://[evil.example]x.tenor.com/a.gif".toList = true ∧
      splitUrl "https://[evil.example]x.tenor.com/a.gif".toList = .ok
        { path := "/a.gif".toList, host := "evil.example".toList, port := 443, tls := true } ∧
      ¬ OfProvider "evil.example".toList := by
  refine ⟨by decide +kernel, by decide +kernel, ?_⟩
  rw [← hostAllowed_iff]
  decide +kernel

end Dante.Net
