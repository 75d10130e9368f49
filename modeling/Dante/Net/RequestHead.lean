import Dante.Net.Unfurl

/-!
The head of the request that a preview writes. The path and the host of a URL go into it as they
are, so that it is one request head exactly if the URL has no character in them that ends a part
of it, and its path has a slash in front.
-/

namespace Dante.Net

def crlf : Text := ['\r', '\n']

def fixedHeaders : List Text :=
  ["User-Agent: DaNTe-unfurl/1".toList, "Accept: text/html,*/*".toList,
    "Accept-Encoding: identity".toList, "Connection: close".toList]

def headLines (target host : Text) : List Text :=
  ("GET ".toList ++ target ++ " HTTP/1.1".toList) :: ("Host: ".toList ++ host) ::
    (fixedHeaders ++ [[]])

/-- One request head with the five headers: lines that end where a line end is written and
nowhere else, and a target that is one word and starts with a slash. -/
structure RequestHead (text target host : Text) : Prop where
  slash : target.head? = some '/'
  word : ' ' ∉ target
  lines : ∀ line ∈ headLines target host, '\r' ∉ line ∧ '\n' ∉ line
  text : text = (headLines target host).flatMap (· ++ crlf)

def WellFormed (text : Text) : Prop := ∃ target host, RequestHead text target host

namespace Url

/-- What the request may take from a URL. -/
structure Target.Clean (target : Target) : Prop where
  slash : target.path.head? = some '/'
  path : ∀ c ∈ target.path, c ≠ ' ' ∧ c ≠ '\r' ∧ c ≠ '\n'
  host : ∀ c ∈ target.host, c ≠ '\r' ∧ c ≠ '\n'

/-- The path of the URL begins with a slash and has no space and no line end, and the host has no
line end. -/
def Clean (url : Text) : Prop := ∀ target, splitUrl url = .ok target → target.Clean

end Url

theorem httpRequest_eq (path host : Text) : httpRequest path host =
    (headLines path host).flatMap (· ++ crlf) := by
  have htail : "\r\nUser-Agent: DaNTe-unfurl/1\r\nAccept: text/html,*/*\r\n".toList ++
      "Accept-Encoding: identity\r\nConnection: close\r\n\r\n".toList =
        crlf ++ (fixedHeaders ++ [[]]).flatMap (· ++ crlf) := by decide
  have hmiddle : " HTTP/1.1\r\nHost: ".toList = " HTTP/1.1".toList ++ crlf ++ "Host: ".toList := by
    decide
  rw [httpRequest, headLines, List.flatMap_cons, List.flatMap_cons, hmiddle]
  simp only [List.append_assoc, htail]

/-- A text is cut at its first carriage return in one way. -/
theorem append_cr_inj {x y x' y' : Text} (hx : '\r' ∉ x) (hx' : '\r' ∉ x')
    (h : x ++ '\r' :: y = x' ++ '\r' :: y') : x = x' ∧ y = y' := by
  have hlen (z w : Text) (hz : '\r' ∉ z) : (z ++ '\r' :: w).idxOf '\r' = z.length := by
    rw [List.idxOf_append_of_notMem hz, List.idxOf_cons_self, Nat.add_zero]
  have hsame : x.length = x'.length := by rw [← hlen x y hx, h, hlen x' y' hx']
  obtain ⟨rfl, hy⟩ := List.append_inj h hsame
  exact ⟨rfl, (List.cons.inj hy).2⟩

theorem parts_of_request_eq {path host target name : Text}
    (h : httpRequest path host = httpRequest target name) (htarget : '\r' ∉ target) (hname : '\r' ∉ name) :
    path = target ∧ host = name := by
  have hcut (p q : Text) : p ++ " HTTP/1.1\r\nHost: ".toList ++ q =
      (p ++ " HTTP/1.1".toList) ++ '\r' :: ("\nHost: ".toList ++ q) := by
    have hmiddle : " HTTP/1.1\r\nHost: ".toList =
        " HTTP/1.1".toList ++ '\r' :: "\nHost: ".toList := by decide
    rw [hmiddle]
    simp only [List.append_assoc, List.cons_append]
  have hparts : (path ++ " HTTP/1.1".toList) ++ '\r' :: ("\nHost: ".toList ++ host) =
      (target ++ " HTTP/1.1".toList) ++ '\r' :: ("\nHost: ".toList ++ name) := by
    rw [← hcut, ← hcut]
    simp only [httpRequest, List.append_assoc, List.append_cancel_left_eq] at h
    simp only [← List.append_assoc, List.append_cancel_right_eq] at h
    exact h
  have hversion : '\r' ∉ " HTTP/1.1".toList := by decide
  have hhost : '\r' ∉ "\nHost: ".toList := by decide
  -- counting carriage returns: there is none besides the one of the template
  have hcount := congrArg (List.count '\r') hparts
  simp only [List.count_append, List.count_cons_self, List.count_eq_zero_of_not_mem htarget,
    List.count_eq_zero_of_not_mem hname, List.count_eq_zero_of_not_mem hversion,
    List.count_eq_zero_of_not_mem hhost] at hcount
  have hpath : '\r' ∉ path := List.count_eq_zero.mp (by omega)
  obtain ⟨hfront, hback⟩ := append_cr_inj (by simp [hpath]) (by simp [htarget]) hparts
  exact ⟨List.append_cancel_right hfront, List.append_cancel_left hback⟩

theorem wellFormed_httpRequest_iff (target : Url.Target) :
    WellFormed (httpRequest target.path target.host) ↔ target.Clean := by
  constructor
  · rintro ⟨path, host, hhead⟩
    have hfirst := hhead.lines _ List.mem_cons_self
    have hsecond := hhead.lines _ (List.mem_cons_of_mem _ List.mem_cons_self)
    simp only [List.mem_append, not_or] at hfirst hsecond
    obtain ⟨hpath, hhost⟩ := parts_of_request_eq (hhead.text.trans (httpRequest_eq path host).symm)
      hfirst.1.1.2 hsecond.1.2
    constructor
    case slash => exact hpath ▸ hhead.slash
    case path =>
      intro c hc
      rw [hpath] at hc
      exact ⟨fun h => hhead.word (h ▸ hc), fun h => hfirst.1.1.2 (h ▸ hc),
        fun h => hfirst.2.1.2 (h ▸ hc)⟩
    case host =>
      intro c hc
      rw [hhost] at hc
      exact ⟨fun h => hsecond.1.2 (h ▸ hc), fun h => hsecond.2.2 (h ▸ hc)⟩
  · intro hclean
    have hcr : '\r' ∉ target.path := fun h => (hclean.path _ h).2.1 rfl
    have hlf : '\n' ∉ target.path := fun h => (hclean.path _ h).2.2 rfl
    have hcr' : '\r' ∉ target.host := fun h => (hclean.host _ h).1 rfl
    have hlf' : '\n' ∉ target.host := fun h => (hclean.host _ h).2 rfl
    have hfixed : ∀ line ∈ fixedHeaders ++ [[]], '\r' ∉ line ∧ '\n' ∉ line := by decide
    have hget : '\r' ∉ "GET ".toList ∧ '\n' ∉ "GET ".toList := by decide
    have hversion : '\r' ∉ " HTTP/1.1".toList ∧ '\n' ∉ " HTTP/1.1".toList := by decide
    have hhost : '\r' ∉ "Host: ".toList ∧ '\n' ∉ "Host: ".toList := by decide
    refine ⟨target.path, target.host, hclean.slash, fun h => (hclean.path _ h).1 rfl, ?_,
      httpRequest_eq target.path target.host⟩
    refine List.forall_mem_cons.mpr ⟨?_, List.forall_mem_cons.mpr ⟨?_, hfixed⟩⟩
    · simp only [List.mem_append, not_or]
      exact ⟨⟨⟨hget.1, hcr⟩, hversion.1⟩, ⟨hget.2, hlf⟩, hversion.2⟩
    · simp only [List.mem_append, not_or]
      exact ⟨⟨hhost.1, hcr'⟩, hhost.2, hlf'⟩

def sampleServer : Web where
  lookupHost _ _ _ := .ok [.v4 ⟨93, 184, 215, 14⟩]
  reply turns _ _ := if turns = 3 then .redirect "/a b".toList else .body "text/html".toList []

end Dante.Net
