import Mathlib.Tactic

/-!
Parsers over a list of symbols, and what it means that a parser reads what an
encoder wrote. A parser consumes the front of its input and returns the rest.
`Reads` is the round trip for one value: after any encoding of it, followed by
anything, the parser returns the value and leaves what followed.
-/

abbrev Parser (β ε α : Type) := StateT (List β) (Except ε) α

namespace Parser

variable {β ε α γ : Type}
variable {parser : Parser β ε α} {next : α → Parser β ε γ} {input rest : List β}

/-- The parser turns `input`, followed by anything, into `a`. -/
def Reads (parser : Parser β ε α) (input : List β) (a : α) : Prop :=
  ∀ rest, parser.run (input ++ rest) = .ok (a, rest)

theorem Reads.pure (a : α) : Reads (Pure.pure a : Parser β ε α) [] a :=
  fun _ => rfl

theorem run_bind_of_ok {a : α} (hok : parser.run input = .ok (a, rest)) :
    (parser >>= next).run input = (next a).run rest := by
  rw [StateT.run_bind, hok]
  rfl

theorem Reads.bind {first second : List β} {a : α} {b : γ} (hfirst : Reads parser first a)
    (hsecond : Reads (next a) second b) : Reads (parser >>= next) (first ++ second) b := by
  intro rest
  rw [List.append_assoc, run_bind_of_ok (hfirst _)]
  exact hsecond rest

/-- A result that was computed elsewhere; it consumes nothing. -/
def ofExcept (result : Except ε α) : Parser β ε α := StateT.lift result

theorem Reads.ofExcept {result : Except ε α} {a : α} (hok : result = .ok a) :
    Reads (ofExcept result : Parser β ε α) [] a := by
  intro rest
  rw [hok]
  rfl

def times (parser : Parser β ε α) : Nat → Parser β ε (List α)
  | 0 => Pure.pure []
  | n + 1 => do
    let a ← parser
    let rest ← times parser n
    return a :: rest

theorem Reads.times {parser : Parser β ε α} {encode : α → List β} (xs : List α)
    (hreads : ∀ x ∈ xs, Reads parser (encode x) x) :
    Reads (times parser xs.length) (xs.flatMap encode) xs := by
  induction xs with
  | nil => exact Reads.pure []
  | cons x rest ih =>
    have hrest := ih fun y hy => hreads y (List.mem_cons_of_mem _ hy)
    have htail : Reads (do return x :: (← Parser.times parser rest.length))
        (rest.flatMap encode ++ []) (x :: rest) := hrest.bind (Reads.pure _)
    rw [List.append_nil] at htail
    rw [List.flatMap_cons]
    exact (hreads x List.mem_cons_self).bind htail

theorem run_bind_ok {b : γ} (hok : (parser >>= next).run input = .ok (b, rest)) :
    ∃ a mid, parser.run input = .ok (a, mid) ∧ (next a).run mid = .ok (b, rest) := by
  rw [StateT.run_bind] at hok
  cases hrun : parser.run input with
  | error e =>
    rw [hrun] at hok
    cases hok
  | ok result =>
    rw [hrun] at hok
    exact ⟨result.1, result.2, rfl, hok⟩

def both (first : Parser β ε α) (second : Parser β ε γ) : Parser β ε (α × γ) := do
  let a ← first
  let b ← second
  return (a, b)

theorem length_of_times {n : Nat} {xs : List α} (hok : (times parser n).run input = .ok (xs, rest)) :
    xs.length = n := by
  induction n generalizing input xs rest with
  | zero =>
    cases hok
    rfl
  | succ n ih =>
    obtain ⟨a, mid, -, hmid⟩ := run_bind_ok hok
    obtain ⟨tail, last, htail, hlast⟩ := run_bind_ok hmid
    cases hlast
    rw [List.length_cons, ih htail]

/-- Whenever the parser returns a value, `P` holds for it and the number of symbols that
it took from the input. -/
def Consumes (parser : Parser β ε α) (P : α → Nat → Prop) : Prop :=
  ∀ (input rest : List β) (a : α), parser.run input = .ok (a, rest) →
    ∃ n, input.length = n + rest.length ∧ P a n

namespace Consumes

variable {P : α → Nat → Prop}

theorem pure {a : α} (h : P a 0) : Consumes (Pure.pure a : Parser β ε α) P := by
  intro input rest found hok
  cases hok
  exact ⟨0, (Nat.zero_add _).symm, h⟩

theorem mono {parser : Parser β ε α} {P Q : α → Nat → Prop} (h : Consumes parser P)
    (hPQ : ∀ a n, P a n → Q a n) : Consumes parser Q := by
  intro input rest a hok
  obtain ⟨n, hn, hP⟩ := h _ _ _ hok
  exact ⟨n, hn, hPQ a n hP⟩

theorem throw {e : ε} : Consumes (MonadExcept.throw e : Parser β ε α) P := by
  intro input rest found hok
  cases hok

theorem bind {parser : Parser β ε α} {next : α → Parser β ε γ} {Q : γ → Nat → Prop}
    (hfirst : Consumes parser P) (hnext : ∀ a n, P a n → Consumes (next a) fun b m => Q b (n + m)) :
    Consumes (parser >>= next) Q := by
  intro input rest b hok
  obtain ⟨a, mid, hrun, hrest⟩ := run_bind_ok hok
  obtain ⟨n, hn, hP⟩ := hfirst _ _ _ hrun
  obtain ⟨m, hm, hQ⟩ := hnext a n hP _ _ _ hrest
  exact ⟨n + m, by omega, hQ⟩

end Consumes

/-- Whenever the parser returns a value, `Q` holds for it and what it took from the input. -/
def Takes (parser : Parser β ε α) (Q : α → List β → Prop) : Prop :=
  ∀ (input rest : List β) (a : α), parser.run input = .ok (a, rest) →
    ∃ taken, input = taken ++ rest ∧ Q a taken

namespace Takes

variable {Q : α → List β → Prop}

theorem pure {a : α} (h : Q a []) : Takes (Pure.pure a : Parser β ε α) Q := by
  intro input rest found hok
  cases hok
  exact ⟨[], rfl, h⟩

theorem throw {e : ε} : Takes (MonadExcept.throw e : Parser β ε α) Q := by
  intro input rest found hok
  cases hok

theorem ofExcept (result : Except ε α) :
    Takes (ofExcept result : Parser β ε α) fun a xs => xs = [] ∧ result = .ok a := by
  intro input rest a hok
  cases result with
  | error e => cases hok
  | ok found =>
    cases hok
    exact ⟨[], rfl, rfl, rfl⟩

theorem bind {parser : Parser β ε α} {next : α → Parser β ε γ} {R : γ → List β → Prop}
    (hfirst : Takes parser Q) (hnext : ∀ a xs, Q a xs → Takes (next a) fun b ys => R b (xs ++ ys)) :
    Takes (parser >>= next) R := by
  intro input rest b hok
  obtain ⟨a, mid, hrun, hrest⟩ := run_bind_ok hok
  obtain ⟨xs, rfl, hQ⟩ := hfirst _ _ _ hrun
  obtain ⟨ys, rfl, hR⟩ := hnext a xs hQ _ _ _ hrest
  exact ⟨xs ++ ys, by rw [List.append_assoc], hR⟩

theorem times {parser : Parser β ε α} {encode : α → List β} {fits : α → Prop}
    (h : Takes parser fun a xs => xs = encode a ∧ fits a) (n : Nat) :
    Takes (times parser n) fun as xs =>
      as.length = n ∧ xs = as.flatMap encode ∧ ∀ a ∈ as, fits a := by
  induction n with
  | zero => exact .pure ⟨rfl, rfl, nofun⟩
  | succ n ih =>
    refine h.bind fun a xs hxs => ih.bind fun as ys hys => .pure ?_
    obtain ⟨rfl, ha⟩ := hxs
    obtain ⟨rfl, rfl, has⟩ := hys
    exact ⟨rfl, by simp, List.forall_mem_cons.mpr ⟨ha, has⟩⟩

end Takes

/-- The parser is the inverse of `encode` on the values that fit: it reads back their
encodings, and what it takes from an input is always the encoding of what it returns. -/
structure Codec (parser : Parser β ε α) (encode : α → List β) (fits : α → Prop) : Prop where
  reads : ∀ {a}, fits a → Reads parser (encode a) a
  takes : Takes parser fun a xs => xs = encode a ∧ fits a

namespace Codec

variable {parser : Parser β ε α} {next : α → Parser β ε γ} {encode : α → List β} {fits : α → Prop}

theorem reads_bind (h : Codec parser encode fits) {a : α} {b : γ} {second : List β} (ha : fits a)
    (hsecond : Reads (next a) second b) : Reads (parser >>= next) (encode a ++ second) b :=
  (h.reads ha).bind hsecond

theorem reads_last (h : Codec parser encode fits) {a : α} {b : γ} (ha : fits a)
    (hnext : Reads (next a) [] b) : Reads (parser >>= next) (encode a) b := by
  rw [← List.append_nil (encode a)]
  exact h.reads_bind ha hnext

theorem reads_map (h : Codec parser encode fits) {a : α} (ha : fits a) (f : α → γ) :
    Reads (parser >>= fun a => Pure.pure (f a)) (encode a) (f a) :=
  h.reads_last ha (.pure _)

theorem takes_bind (h : Codec parser encode fits) {R : γ → List β → Prop}
    (hnext : ∀ a, fits a → Takes (next a) fun b ys => R b (encode a ++ ys)) :
    Takes (parser >>= next) R := by
  refine h.takes.bind ?_
  rintro a _ ⟨rfl, ha⟩
  exact hnext a ha

theorem takes_map (h : Codec parser encode fits) {f : α → γ} {R : γ → List β → Prop}
    (hlast : ∀ a, fits a → R (f a) (encode a)) :
    Takes (parser >>= fun a => Pure.pure (f a)) R :=
  h.takes_bind fun a ha => .pure (by rw [List.append_nil]; exact hlast a ha)

theorem both {second : Parser β ε γ} {encode' : γ → List β} {fits' : γ → Prop}
    (h : Codec parser encode fits) (h' : Codec second encode' fits') :
    Codec (both parser second) (fun v => encode v.1 ++ encode' v.2)
      fun v => fits v.1 ∧ fits' v.2 where
  reads hfits := h.reads_bind hfits.1 <| h'.reads_map hfits.2 _
  takes := h.takes_bind fun a ha => h'.takes_bind fun b hb =>
    .pure ⟨by rw [List.append_nil], ha, hb⟩

/-- A codec for the values of a type from one for something as good. -/
theorem congr (h : Codec parser encode fits) {encode' : α → List β} {fits' : α → Prop}
    (hencode : ∀ a, encode' a = encode a) (hfits : ∀ a, fits' a ↔ fits a) :
    Codec parser encode' fits' := by
  obtain rfl : encode' = encode := funext hencode
  obtain rfl : fits' = fits := funext fun a => propext (hfits a)
  exact h

end Codec

/-- From the encoding of a value the parser gets back this value, and leaves what follows,
exactly if the value fits. What it makes of other inputs is left open. -/
structure Restores (parser : Parser β ε α) (encode : α → List β) (fits : α → Prop) : Prop where
  reads : ∀ {a}, fits a → Reads parser (encode a) a
  only : ∀ {a rest rest'}, parser.run (encode a ++ rest) = .ok (a, rest') →
    fits a ∧ rest' = rest

theorem Codec.restores {encode : α → List β} {fits : α → Prop} (h : Codec parser encode fits) :
    Restores parser encode fits where
  reads := h.reads
  only hok := by
    obtain ⟨taken, hinput, rfl, hfits⟩ := h.takes _ _ _ hok
    exact ⟨hfits, (List.append_cancel_left hinput).symm⟩

theorem Restores.times {encode : α → List β} {fits : α → Prop} (h : Restores parser encode fits)
    (xs : List α) {rest rest' : List β}
    (hok : (times parser xs.length).run (xs.flatMap encode ++ rest) = .ok (xs, rest')) :
    (∀ x ∈ xs, fits x) ∧ rest' = rest := by
  induction xs with
  | nil =>
    cases hok
    exact ⟨nofun, rfl⟩
  | cons x xs ih =>
    rw [List.flatMap_cons, List.append_assoc] at hok
    obtain ⟨a, mid, hfirst, hok⟩ := run_bind_ok hok
    obtain ⟨as, last, htimes, hok⟩ := run_bind_ok hok
    cases hok
    obtain ⟨hx, rfl⟩ := h.only hfirst
    obtain ⟨hxs, rfl⟩ := ih htimes
    exact ⟨List.forall_mem_cons.mpr ⟨hx, hxs⟩, rfl⟩

end Parser
