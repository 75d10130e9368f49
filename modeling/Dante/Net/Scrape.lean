import Dante.Bytes
import Dante.Library.CharBoundary
import Dante.Library.Failures
import Dante.Net.Unfurl

/-!
The scraper of link previews. It searches a page for bytes, cuts the page at the offsets that it
has found, and takes the chunks of a chunked body apart. An index out of range and a slice that is
out of range or splits a character are panics: here every access and every slice can fail.
-/

namespace Dante.Net.Scrape

open Except Utf8 Url

inductive Panic where
  | index
  | slice
  deriving DecidableEq

/-- `bytes[i]` -/
def byteAt (bytes : Bytes) (i : Nat) : Except Panic UInt8 := okOr bytes[i]? .index

/-- `&bytes[start..]` -/
def bytesFrom (bytes : Bytes) (start : Nat) : Except Panic Bytes :=
  if start ≤ bytes.length then .ok (bytes.drop start) else .error .slice

/-- `&bytes[..stop]` -/
def bytesTo (bytes : Bytes) (stop : Nat) : Except Panic Bytes :=
  if stop ≤ bytes.length then .ok (bytes.take stop) else .error .slice

/-- `&text[start..]` -/
def textFrom (text : Text) (start : Nat) : Except Panic Text := okOr (sliceFrom text start) .slice

/-- `&text[start..stop]` -/
def textBetween (text : Text) (start stop : Nat) : Except Panic Text :=
  okOr (slice text start stop) .slice

def find (hay needle : Bytes) : Option Nat :=
  if needle = [] ∨ hay.length < needle.length then none
  else (List.range (hay.length - needle.length + 1)).find? fun i =>
    (hay.drop i).take needle.length = needle

/-- `matches!` on a byte. -/
def isOneOf (chars : List Char) (byte : UInt8) : Bool := chars.any fun c => c.val.toUInt8 = byte

theorem bytesFrom_eq_ok {bytes rest : Bytes} {start : Nat} :
    bytesFrom bytes start = .ok rest ↔ start ≤ bytes.length ∧ bytes.drop start = rest := by
  unfold bytesFrom
  split <;> simp [*]

theorem bytesTo_eq_ok {bytes part : Bytes} {stop : Nat} :
    bytesTo bytes stop = .ok part ↔ stop ≤ bytes.length ∧ bytes.take stop = part := by
  unfold bytesTo
  split <;> simp [*]

theorem find_eq_some {hay needle : Bytes} {i : Nat} (h : find hay needle = some i) :
    needle ≠ [] ∧ i + needle.length ≤ hay.length ∧ (hay.drop i).take needle.length = needle := by
  unfold find at h
  split at h
  · cases h
  · rename_i hfits
    obtain ⟨hempty, hlen⟩ := not_or.mp hfits
    have hi := List.mem_range.mp (List.mem_of_find?_eq_some h)
    have hfound := List.find?_some h
    exact ⟨hempty, by omega, of_decide_eq_true hfound⟩

/-- Where a needle was found, its first byte stands. -/
theorem getElem?_of_find {hay needle : Bytes} {i : Nat} {byte : UInt8}
    (h : find hay (byte :: needle) = some i) : hay[i]? = some byte := by
  obtain ⟨-, -, htake⟩ := find_eq_some h
  have hfirst := congrArg List.head? htake
  rwa [List.length_cons, List.head?_take, if_neg (by omega), List.head?_drop] at hfirst

/-- The loops over the blanks in `attr`. -/
def skipBlanks (b : Bytes) (j : Nat) : Nat :=
  if h : j < b.length then
    if isOneOf [' ', '\t', '\n'] b[j] then skipBlanks b (j + 1) else j
  else j
termination_by b.length - j

/-- The value behind an equals sign, quoted or bare. -/
def attrValue (tag : Text) (j : Nat) : Except Panic (Option Text) := do
  let b := encode tag
  let j := skipBlanks b j
  if b.length ≤ j then
    return none
  let q ← byteAt b j
  if isOneOf ['"', '\''] q then
    let some e := find (← bytesFrom b (j + 1)) [q] | return none
    return some (← textBetween tag (j + 1) (e + (j + 1)))
  else
    let stop := ((← bytesFrom b j).findIdx? (isOneOf [' ', '\t', '\n', '>', '/'])).elim b.length (j + ·)
    return some (← textBetween tag j stop)

/-- A blank, a quote or the start of the tag stands before the name. -/
def okBefore (b : Bytes) (i : Nat) : Except Panic Bool :=
  if i = 0 then .ok true
  else (isOneOf [' ', '\t', '\n', '"', '\'', '<']) <$> byteAt b (i - 1)

/-- The loop of `attr` from an offset on. -/
def attrFrom (tag : Text) (name : Bytes) (i : Nat) : Except Panic (Option Text) :=
  match hrest : bytesFrom (encode tag) i with
  | .error e => .error e
  | .ok rest =>
    match hfind : find rest name with
    | none => .ok none
    | some rel => do
      let after := i + rel + name.length
      let j := skipBlanks (encode tag) after
      if (← okBefore (encode tag) (i + rel)) ∧ (encode tag)[j]? = some '='.val.toUInt8 then
        attrValue tag (j + 1)
      else if (encode tag).length ≤ after then
        return none
      else attrFrom tag name after
termination_by (encode tag).length - i
decreasing_by
  obtain ⟨hname, hend, -⟩ := find_eq_some hfind
  obtain ⟨hstart, rfl⟩ := bytesFrom_eq_ok.mp hrest
  have hpos := List.length_pos_of_ne_nil hname
  rw [List.length_drop] at hend
  omega

def attr (tag name : Text) : Except Panic (Option Text) := attrFrom tag (encode name) 0

/-- Whether a tag in small letters has the key. -/
def hasKey (tag key : Text) : Except Panic Bool := do
  if (← attr tag "property".toList) = some key then
    return true
  if (← attr tag "name".toList) = some key then
    return true
  return (← attr tag "itemprop".toList) = some key

/-- The content of a tag, if it has the key. -/
def tagContent (tag key : Text) : Except Panic (Option Text) := do
  if ← hasKey (tag.map Char.toLower) key then
    let some content ← attr tag "content".toList | return none
    let c := trim content
    return if c = [] then none else some c
  else
    return none

/-- Where the tag ends that begins at `start`. -/
def tagEnd (hay : Bytes) (start : Nat) : Except Panic Nat := do
  return (find (← bytesFrom hay start) (encode ">".toList)).elim hay.length (start + ·)

theorem tagEnd_eq_ok {hay : Bytes} {start stop : Nat} (h : tagEnd hay start = .ok stop) :
    start ≤ stop ∧ (stop = hay.length ∨ hay[stop]? = some '>'.val.toUInt8) := by
  unfold tagEnd at h
  obtain ⟨inner, hinner, hstop⟩ := bind_eq_ok.mp h
  obtain ⟨hstart, rfl⟩ := bytesFrom_eq_ok.mp hinner
  obtain rfl := Except.ok.inj hstop
  cases hfind : find (hay.drop start) (encode ">".toList) with
  | none => exact ⟨hstart, .inl rfl⟩
  | some e =>
    have hbyte := getElem?_of_find hfind
    rw [List.getElem?_drop] at hbyte
    exact ⟨Nat.le_add_right start e, .inr hbyte⟩

/-- The loop of `meta` from an offset on. -/
def metaFrom (html key : Text) (i : Nat) : Except Panic (Option Text) :=
  match bytesFrom (encode html) i with
  | .error e => .error e
  | .ok rest =>
    match find rest (encode "<meta".toList) with
    | none => .ok none
    | some rel =>
      match hstop : tagEnd (encode html) (i + rel) with
      | .error e => .error e
      | .ok stop => do
        match ← tagContent (← textBetween html (i + rel) stop) key with
        | some content => return some content
        | none =>
          if (encode html).length ≤ stop + 1 then
            return none
          else metaFrom html key (stop + 1)
termination_by (encode html).length - i
decreasing_by
  obtain ⟨hstart, -⟩ := tagEnd_eq_ok hstop
  omega

def metaTag (html key : Text) : Except Panic (Option Text) := metaFrom html key 0

def titleTag (html : Text) : Except Panic (Option Text) := do
  let l := html.map Char.toLower
  let some opening := find (encode l) (encode "<title".toList) | return none
  let some close := find (encode (← textFrom l opening)) (encode ">".toList) | return none
  let gt := close + opening + 1
  let some last := find (encode (← textFrom l gt)) (encode "</title>".toList) | return none
  let t := trim (← textBetween html gt (last + gt))
  return if t = [] then none else some t

def hexDigit (c : Char) : Option Nat :=
  if '0' ≤ c ∧ c ≤ '9' then some (c.toNat - '0'.toNat)
  else if 'a' ≤ c ∧ c ≤ 'f' then some (c.toNat - 'a'.toNat + 10)
  else if 'A' ≤ c ∧ c ≤ 'F' then some (c.toNat - 'A'.toNat + 10)
  else none

/-- `usize::from_str_radix` in base 16. -/
def fromStrRadix16 (text : Text) : Option Nat :=
  let digits := if text.head? = some '+' then text.tail else text
  if digits = [] then none
  else (digits.foldlM (fun acc c => (hexDigit c).map (16 * acc + ·)) 0).filter (· < 2 ^ 64)

/-- The size in front of a chunk, or zero. -/
def chunkSize (line : Text) : Nat :=
  (fromStrRadix16 (trim ((trim line).takeWhile (· ≠ ';')))).getD 0

def crlf : Bytes := encode "\r\n".toList

/-- The size of a chunk and what stands behind the line with it, which ends at `nl`. The standard
library's `from_utf8_lossy` is `lossy`. -/
def chunkHead (lossy : Bytes → Text) (rest : Bytes) (nl : Nat) : Except Panic (Nat × Bytes) := do
  let size := chunkSize (lossy (← bytesTo rest nl))
  return (size, ← bytesFrom rest (nl + 2))

/-- A whole chunk, and what follows it. -/
def takeChunk (rest : Bytes) (size : Nat) : Except Panic (Bytes × Bytes) := do
  let chunk ← bytesTo rest size
  let rest ← bytesFrom rest size
  if crlf <+: rest then
    return (chunk, ← bytesFrom rest 2)
  else
    return (chunk, rest)

theorem length_of_chunkHead {lossy : Bytes → Text} {rest body : Bytes} {nl size : Nat}
    (h : chunkHead lossy rest nl = .ok (size, body)) : nl + 2 + body.length = rest.length := by
  obtain ⟨line, -, hbody⟩ := bind_eq_ok.mp h
  obtain ⟨found, hfound, heq⟩ := bind_eq_ok.mp hbody
  obtain ⟨hle, rfl⟩ := bytesFrom_eq_ok.mp hfound
  cases heq
  rw [List.length_drop]
  omega

theorem length_of_takeChunk {rest chunk next : Bytes} {size : Nat}
    (h : takeChunk rest size = .ok (chunk, next)) : chunk.length + next.length ≤ rest.length := by
  obtain ⟨part, hpart, h⟩ := bind_eq_ok.mp h
  obtain ⟨hsize, rfl⟩ := bytesTo_eq_ok.mp hpart
  obtain ⟨tail, htail, h⟩ := bind_eq_ok.mp h
  obtain ⟨-, rfl⟩ := bytesFrom_eq_ok.mp htail
  split at h
  · obtain ⟨found, hfound, heq⟩ := bind_eq_ok.mp h
    obtain ⟨-, rfl⟩ := bytesFrom_eq_ok.mp hfound
    cases heq
    simp only [List.length_take, List.length_drop]
    omega
  · cases h
    simp only [List.length_take, List.length_drop]
    omega

/-- The loop of `dechunk`. -/
def dechunkFrom (lossy : Bytes → Text) (out rest : Bytes) : Except Panic Bytes :=
  match find rest crlf with
  | none => .ok out
  | some nl =>
    match hhead : chunkHead lossy rest nl with
    | .error e => .error e
    | .ok (size, body) =>
      if size = 0 ∨ body.length < size then
        if 0 < size ∧ body ≠ [] then (out ++ ·) <$> bytesTo body (min body.length size) else .ok out
      else
        match hchunk : takeChunk body size with
        | .error e => .error e
        | .ok (chunk, next) => dechunkFrom lossy (out ++ chunk) next
termination_by rest.length
decreasing_by
  have hbody := length_of_chunkHead hhead
  have hnext := length_of_takeChunk hchunk
  omega

def dechunk (lossy : Bytes → Text) (input : Bytes) : Except Panic Bytes := dechunkFrom lossy [] input

abbrev Safe {α : Type} (result : Except Panic α) : Prop := FailsIn (fun _ => False) result

section Safety

variable {text tag html : Text} {bytes : Bytes} {start stop i j : Nat} {byte : UInt8}

theorem safe_byteAt (h : i < bytes.length) : Safe (byteAt bytes i) := by
  rw [byteAt, List.getElem?_eq_getElem h]
  exact failsIn_ok _

theorem safe_bytesFrom (h : start ≤ bytes.length) : Safe (bytesFrom bytes start) := by
  rw [bytesFrom, if_pos h]
  exact failsIn_ok _

theorem safe_bytesTo (h : stop ≤ bytes.length) : Safe (bytesTo bytes stop) := by
  rw [bytesTo, if_pos h]
  exact failsIn_ok _

theorem safe_textBetween (hstart : IsBoundary text start) (hstop : IsBoundary text stop)
    (hle : start ≤ stop) : Safe (textBetween text start stop) := by
  obtain ⟨part, hpart⟩ := slice_of_isBoundary hstart hstop hle
  rw [textBetween, hpart]
  exact failsIn_ok _

theorem lt_128_of_isOneOf {chars : List Char} (h : isOneOf chars byte = true)
    (hascii : chars.all (fun c => c.val.toUInt8 < 128) = true) : byte < 128 := by
  obtain ⟨c, hc, hbyte⟩ := List.any_eq_true.mp h
  rw [← of_decide_eq_true hbyte]
  exact of_decide_eq_true (List.all_eq_true.mp hascii c hc)

/-- The blanks that are skipped are characters of one byte. -/
theorem isBoundary_skipBlanks (h : IsBoundary text j) :
    IsBoundary text (skipBlanks (encode text) j) := by
  fun_induction skipBlanks (encode text) j with
  | case1 j hlt hblank ih =>
    exact ih (isBoundary_of_ascii (List.getElem?_eq_getElem hlt)
      (lt_128_of_isOneOf hblank (by decide))).2
  | case2 | case3 => exact h

theorem safe_attrValue (h : IsBoundary tag j) : Safe (attrValue tag j) := by
  have hbegin := isBoundary_skipBlanks h
  unfold attrValue
  dsimp only
  generalize skipBlanks (encode tag) j = j at hbegin
  split
  · exact failsIn_ok _
  · rename_i hin
    have hlt : j < (encode tag).length := Nat.not_le.mp hin
    apply (safe_byteAt hlt).bind_ok
    intro q hq
    have hbyte : (encode tag)[j]? = some q := okOr_eq_ok.mp hq
    split
    · -- a quoted value: the quote is a character of one byte
      rename_i hquote
      have hascii : q < 128 := lt_128_of_isOneOf hquote (by decide)
      apply (safe_bytesFrom hlt).bind_ok
      intro rest hrest
      obtain ⟨-, rfl⟩ := bytesFrom_eq_ok.mp hrest
      split
      · rename_i e hfind
        have hend := getElem?_of_find hfind
        rw [List.getElem?_drop, Nat.add_comm] at hend
        exact FailsIn.bind (safe_textBetween (isBoundary_of_ascii hbyte hascii).2
          (isBoundary_of_ascii hend hascii).1 (Nat.le_add_left _ _)) fun _ => failsIn_ok _
      · exact failsIn_ok _
    · apply (safe_bytesFrom hlt.le).bind_ok
      intro rest hrest
      obtain ⟨-, rfl⟩ := bytesFrom_eq_ok.mp hrest
      refine FailsIn.bind ?_ fun _ => failsIn_ok _
      cases hend : ((encode tag).drop j).findIdx? (isOneOf [' ', '\t', '\n', '>', '/']) with
      | none => exact safe_textBetween hbegin (isBoundary_length tag) hlt.le
      | some p =>
        obtain ⟨hp, hdelim, -⟩ := List.findIdx?_eq_some_iff_getElem.mp hend
        have hstop : (encode tag)[j + p]? = some ((encode tag).drop j)[p] := by
          rw [← List.getElem?_drop, List.getElem?_eq_getElem hp]
        exact safe_textBetween hbegin
          (isBoundary_of_ascii hstop (lt_128_of_isOneOf hdelim (by decide))).1 (Nat.le_add_right _ _)

theorem safe_okBefore (h : i ≤ bytes.length) : Safe (okBefore bytes i) := by
  unfold okBefore
  split
  · exact failsIn_ok _
  · refine (safe_byteAt (by omega)).bind fun _ => failsIn_ok _

theorem safe_attrFrom (name : Bytes) {i : Nat} (h : i ≤ (encode tag).length) :
    Safe (attrFrom tag name i) := by
  rw [attrFrom]
  split
  · rename_i e hrest
    exact absurd hrest (by rw [bytesFrom, if_pos h]; nofun)
  · rename_i rest hrest
    obtain ⟨-, rfl⟩ := bytesFrom_eq_ok.mp hrest
    split
    · exact failsIn_ok _
    · rename_i rel hfind
      obtain ⟨hname, hend, -⟩ := find_eq_some hfind
      have hpos := List.length_pos_of_ne_nil hname
      rw [List.length_drop] at hend
      refine (safe_okBefore (by omega)).bind fun before => ?_
      split
      · rename_i hequals
        exact safe_attrValue (isBoundary_of_ascii hequals.2 (by decide)).2
      · split
        · exact failsIn_ok _
        · rename_i hleft
          exact safe_attrFrom name (Nat.not_le.mp hleft).le
termination_by (encode tag).length - i

theorem safe_attr (tag name : Text) : Safe (attr tag name) := safe_attrFrom _ (Nat.zero_le _)

theorem safe_tagContent (tag key : Text) : Safe (tagContent tag key) := by
  have hkey (tag : Text) : Safe (hasKey tag key) := by
    refine (safe_attr tag _).bind fun property => ?_
    split
    · exact failsIn_ok _
    · refine (safe_attr tag _).bind fun name => ?_
      split
      · exact failsIn_ok _
      · exact (safe_attr tag _).bind fun _ => failsIn_ok _
  refine (hkey _).bind fun found => ?_
  split
  · refine (safe_attr tag _).bind fun content => ?_
    split
    · exact failsIn_ok _
    · exact failsIn_ok _
  · exact failsIn_ok _

theorem safe_metaFrom (key : Text) {i : Nat} (h : i ≤ (encode html).length) :
    Safe (metaFrom html key i) := by
  rw [metaFrom]
  split
  · rename_i e hrest
    exact absurd hrest (by rw [bytesFrom, if_pos h]; nofun)
  · rename_i rest hrest
    obtain ⟨-, rfl⟩ := bytesFrom_eq_ok.mp hrest
    split
    · exact failsIn_ok _
    · rename_i rel hfind
      have hbegin : (encode html)[i + rel]? = some '<'.val.toUInt8 := by
        rw [← List.getElem?_drop]
        exact getElem?_of_find hfind
      split
      · rename_i e htag
        have hin := (List.getElem?_eq_some_iff.mp hbegin).1
        exact (((safe_bytesFrom hin.le).bind fun _ => failsIn_ok _) e htag).elim
      · rename_i stop htag
        obtain ⟨hle, hend⟩ := tagEnd_eq_ok htag
        have hstop : IsBoundary html stop := by
          rcases hend with rfl | hgt
          · exact isBoundary_length html
          · exact (isBoundary_of_ascii hgt (by decide)).1
        refine FailsIn.bind (safe_textBetween (isBoundary_of_ascii hbegin (by decide)).1 hstop hle)
          fun tag => (safe_tagContent tag key).bind fun content => ?_
        split
        · exact failsIn_ok _
        · split
          · exact failsIn_ok _
          · rename_i hleft
            exact safe_metaFrom key (Nat.not_le.mp hleft).le
termination_by (encode html).length - i

/-- A text can be cut at a boundary, and what follows has the bytes behind it. -/
theorem safe_textFrom_bind {α : Type} {next : Text → Except Panic α} (h : IsBoundary text start)
    (hnext : ∀ rest, encode rest = (encode text).drop start → Safe (next rest)) :
    Safe (textFrom text start >>= next) := by
  obtain ⟨front, back, rfl, rfl⟩ := h
  rw [textFrom, sliceFrom_append]
  apply hnext
  rw [encode_append, List.drop_left]

theorem safe_titleTag (html : Text) : Safe (titleTag html) := by
  unfold titleTag
  dsimp only
  split
  · rename_i opening hopening
    have hopen := (isBoundary_of_ascii (getElem?_of_find hopening) (by decide)).1
    refine safe_textFrom_bind hopen fun rest hbytes => ?_
    split
    · rename_i close hclose
      rw [hbytes] at hclose
      have hgt := getElem?_of_find hclose
      rw [List.getElem?_drop, Nat.add_comm] at hgt
      have hstart := (isBoundary_of_ascii hgt (by decide)).2
      refine safe_textFrom_bind hstart fun rest hbytes => ?_
      split
      · rename_i last hlast
        rw [hbytes] at hlast
        have hend := getElem?_of_find hlast
        rw [List.getElem?_drop, Nat.add_comm] at hend
        have hstop := (isBoundary_of_ascii hend (by decide)).1
        -- the offsets were found in the text in small letters
        exact FailsIn.bind (safe_textBetween (isBoundary_of_map utf8Size_toLower hstart)
          (isBoundary_of_map utf8Size_toLower hstop) (Nat.le_add_left _ _)) fun _ => failsIn_ok _
      · exact failsIn_ok _
    · exact failsIn_ok _
  · exact failsIn_ok _

theorem safe_takeChunk (h : stop ≤ bytes.length) : Safe (takeChunk bytes stop) := by
  refine (safe_bytesTo h).bind fun chunk => (safe_bytesFrom h).bind fun rest => ?_
  split
  · rename_i hcrlf
    exact (safe_bytesFrom hcrlf.length_le).bind fun _ => failsIn_ok _
  · exact failsIn_ok _

/-- The output of `dechunk` is made of parts of the input. -/
theorem dechunkFrom_ok (lossy : Bytes → Text) (out rest : Bytes) :
    ∃ out', dechunkFrom lossy out rest = .ok out' ∧ out'.length ≤ out.length + rest.length := by
  rw [dechunkFrom]
  split
  · exact ⟨out, rfl, Nat.le_add_right _ _⟩
  · rename_i nl hfind
    have hend : nl + 2 ≤ rest.length := (find_eq_some hfind).2.1
    have hsafe : Safe (chunkHead lossy rest nl) :=
      (safe_bytesTo (by omega)).bind fun _ => (safe_bytesFrom hend).bind fun _ => failsIn_ok _
    split
    · rename_i e herror
      exact (hsafe e herror).elim
    · rename_i size body hhead
      have hbody := length_of_chunkHead hhead
      split
      · split
        · obtain ⟨part, hpart⟩ := (safe_bytesTo (Nat.min_le_left body.length size)).exists_ok
          obtain ⟨-, rfl⟩ := bytesTo_eq_ok.mp hpart
          rw [hpart]
          refine ⟨_, rfl, ?_⟩
          rw [List.length_append, List.length_take]
          omega
        · exact ⟨out, rfl, Nat.le_add_right _ _⟩
      · rename_i hwhole
        split
        · rename_i e herror
          exact (safe_takeChunk (by omega) e herror).elim
        · rename_i chunk next hchunk
          have hnext := length_of_takeChunk hchunk
          obtain ⟨out', hout, hlen⟩ := dechunkFrom_ok lossy (out ++ chunk) next
          rw [List.length_append] at hlen
          exact ⟨out', hout, by omega⟩
termination_by rest.length

/-- The scraper returns for every page, every key and every body: no index is out of range and no
slice is out of range or splits a character. What `dechunk` returns is no longer than its input. -/
theorem scraper_never_panics (html key : Text) (lossy : Bytes → Text) (input : Bytes) :
    (∃ found, metaTag html key = .ok found) ∧ (∃ found, titleTag html = .ok found) ∧
      (∃ found, attr html key = .ok found) ∧
      ∃ out, dechunk lossy input = .ok out ∧ out.length ≤ input.length := by
  obtain ⟨out, hout, hlen⟩ := dechunkFrom_ok lossy [] input
  rw [List.length_nil, Nat.zero_add] at hlen
  exact ⟨(safe_metaFrom key (Nat.zero_le _)).exists_ok, (safe_titleTag html).exists_ok,
    (safe_attr html key).exists_ok, out, hout, hlen⟩

end Safety

end Dante.Net.Scrape
