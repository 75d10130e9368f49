import Dante.Net.Mailbox

/-!
Reading a mailbox page by page. A fetch stops at the byte budget, in the order of the polled
hints and of the deposits; the client then asks again from the newest deposit time that it has
received. Deposit times are the senders' own, so what lies beyond the cut may be older than
what was in front of it.
-/

namespace Dante.Net

structure Pager where
  sinceMs : UInt64
  received : List Envelope
  deriving DecidableEq

namespace Pager

def newest (sinceMs : UInt64) (envs : List Envelope) : UInt64 :=
  envs.foldl (fun greatest env =>
    if greatest < env.depositedMs then env.depositedMs else greatest) sinceMs

section Model

variable (mailbox : Mailbox) (hints : List Hint) (nowMs : UInt64)

/-- One call of `fetch`, after which the cursor moves on. -/
def next (pager : Pager) : Pager :=
  let page := mailbox.fetch hints pager.sinceMs nowMs
  { sinceMs := newest pager.sinceMs page, received := pager.received ++ page }

/-- Call again until nothing new comes back, at most `calls` times. -/
def read : Nat → Pager → Option (List Envelope)
  | 0, _ => none
  | calls + 1, pager =>
    if ∀ env ∈ mailbox.fetch hints pager.sinceMs nowMs, env ∈ pager.received then
      some pager.received
    else
      read calls (pager.next mailbox hints nowMs)

/-- Finitely many calls bring every live envelope under the hints that was deposited at
`sinceMs` or later. -/
def Complete (sinceMs : UInt64) : Prop :=
  ∃ calls out, read mailbox hints nowMs calls { sinceMs := sinceMs, received := [] } = some out ∧
    ∀ hint ∈ hints, ∀ env ∈ mailbox.slot hint,
      sinceMs ≤ env.depositedMs → env.isExpired nowMs = false → env ∈ out

end Model

end Pager

/-- One answer has room for `front`, but not for what comes next in `rest`. -/
structure FirstPage (envs front rest : List Envelope) : Prop where
  parts : envs = front ++ rest
  fits : (front.map envSize).sum ≤ maxFetchBytes
  full : ∀ env ∈ rest.head?, maxFetchBytes < (front.map envSize).sum + envSize env

/-- A mailbox that can be read in pages from `sinceMs` on: either one page has everything, or
nothing beyond the first page is older than the newest envelope in it, that one is newer than
`sinceMs`, and the mailbox can be read in pages from there. -/
inductive Pageable (mailbox : Mailbox) (hints : List Hint) (nowMs : UInt64) : UInt64 → Prop where
  | last {sinceMs : UInt64} {front rest : List Envelope}
      (page : FirstPage (mailbox.candidates hints sinceMs nowMs) front rest)
      (covered : ∀ env ∈ rest, env ∈ front) : Pageable mailbox hints nowMs sinceMs
  | more {sinceMs untilMs : UInt64} {front rest : List Envelope}
      (page : FirstPage (mailbox.candidates hints sinceMs nowMs) front rest)
      (progress : sinceMs < untilMs)
      (reached : ∃ env ∈ front, env.depositedMs = untilMs)
      (bound : ∀ env ∈ front, env.depositedMs ≤ untilMs)
      (behind : ∀ env ∈ rest, env ∈ front ∨ untilMs ≤ env.depositedMs)
      (later : Pageable mailbox hints nowMs untilMs) : Pageable mailbox hints nowMs sinceMs

theorem withinBudget_parts (used : Nat) (envs : List Envelope) (hused : used ≤ maxFetchBytes) :
    ∃ rest, envs = Mailbox.withinBudget used envs ++ rest ∧
      used + ((Mailbox.withinBudget used envs).map envSize).sum ≤ maxFetchBytes ∧
      ∀ env ∈ rest.head?,
        maxFetchBytes < used + ((Mailbox.withinBudget used envs).map envSize).sum + envSize env := by
  induction envs generalizing used with
  | nil => exact ⟨[], rfl, hused, nofun⟩
  | cons env envs ih =>
    rw [Mailbox.withinBudget]
    split
    · rename_i hover
      refine ⟨env :: envs, rfl, hused, ?_⟩
      intro found hfound
      cases hfound
      exact hover
    · rename_i hfits
      obtain ⟨rest, hparts, hsum, hfull⟩ := ih (used + envSize env) (by omega)
      simp only [List.map_cons, List.sum_cons, List.cons_append]
      refine ⟨rest, congrArg _ hparts, by omega, ?_⟩
      intro found hfound
      have := hfull found hfound
      omega

theorem firstPage_withinBudget (envs : List Envelope) :
    ∃ rest, FirstPage envs (Mailbox.withinBudget 0 envs) rest := by
  obtain ⟨rest, hparts, hsum, hfull⟩ := withinBudget_parts 0 envs (Nat.zero_le _)
  simp only [Nat.zero_add] at hsum hfull
  exact ⟨rest, hparts, hsum, hfull⟩

theorem withinBudget_append {used : Nat} {front rest : List Envelope}
    (hfits : used + (front.map envSize).sum ≤ maxFetchBytes)
    (hfull : ∀ env ∈ rest.head?, maxFetchBytes < used + (front.map envSize).sum + envSize env) :
    Mailbox.withinBudget used (front ++ rest) = front := by
  induction front generalizing used with
  | nil =>
    cases rest with
    | nil => rfl
    | cons env rest =>
      have := hfull env rfl
      simp only [List.map_nil, List.sum_nil] at this
      rw [List.nil_append, Mailbox.withinBudget, if_pos (by omega)]
  | cons env front ih =>
    rw [List.map_cons, List.sum_cons] at hfits hfull
    rw [List.cons_append, Mailbox.withinBudget, if_neg (by omega)]
    refine congrArg _ (ih (by omega) ?_)
    intro found hfound
    have := hfull found hfound
    omega

theorem FirstPage.eq_withinBudget {envs front rest : List Envelope}
    (page : FirstPage envs front rest) : Mailbox.withinBudget 0 envs = front := by
  rw [page.parts]
  apply withinBudget_append
  · simpa using page.fits
  · simpa using page.full

theorem mem_withinBudget_filter {used less : Nat} (hless : less ≤ used) {envs : List Envelope}
    {env : Envelope} {p : Envelope → Bool} (hmem : env ∈ Mailbox.withinBudget used envs)
    (hp : p env = true) : env ∈ Mailbox.withinBudget less (envs.filter p) := by
  induction envs generalizing used less with
  | nil => cases hmem
  | cons first envs ih =>
    rw [Mailbox.withinBudget] at hmem
    split at hmem
    · cases hmem
    · rename_i hfits
      by_cases hfirst : p first = true
      · rw [List.filter_cons_of_pos hfirst, Mailbox.withinBudget, if_neg (by omega)]
        rcases List.mem_cons.mp hmem with rfl | hlater
        · exact List.mem_cons_self
        · exact List.mem_cons_of_mem _ (ih (by omega) hlater)
      · rw [List.filter_cons_of_neg hfirst]
        rcases List.mem_cons.mp hmem with rfl | hlater
        · exact absurd hp hfirst
        · exact ih (by omega) hlater

section Pages

variable {mailbox : Mailbox} {hints : List Hint} {nowMs sinceMs untilMs : UInt64} {env : Envelope}

/-- A later cursor selects from what an earlier one does. -/
theorem candidates_filter (hle : sinceMs ≤ untilMs) :
    (mailbox.candidates hints sinceMs nowMs).filter (fun env => decide (untilMs ≤ env.depositedMs)) =
      mailbox.candidates hints untilMs nowMs := by
  unfold Mailbox.candidates
  rw [List.filter_flatMap]
  congr 1
  funext hint
  rw [List.filter_filter]
  apply List.filter_congr
  intro env _
  by_cases huntil : untilMs ≤ env.depositedMs
  · simp [huntil, UInt64.le_trans hle huntil]
  · simp [huntil]

theorem mem_fetch_iff :
    env ∈ mailbox.fetch hints sinceMs nowMs ↔
      env ∈ Mailbox.withinBudget 0 (mailbox.candidates hints sinceMs nowMs) := by
  rw [Mailbox.fetch, List.mem_mergeSort]

theorem mem_candidates_of_fetch (hmem : env ∈ mailbox.fetch hints sinceMs nowMs) :
    env ∈ mailbox.candidates hints sinceMs nowMs :=
  (Mailbox.withinBudget_sublist 0 _).subset (mem_fetch_iff.mp hmem)

theorem since_le_of_mem_fetch (hmem : env ∈ mailbox.fetch hints sinceMs nowMs) :
    sinceMs ≤ env.depositedMs :=
  (Mailbox.mem_candidates.mp (mem_candidates_of_fetch hmem)).2.1

/-- What a page has and a later cursor selects is in the page of the later cursor. -/
theorem mem_fetch_later (hle : sinceMs ≤ untilMs) (hmem : env ∈ mailbox.fetch hints sinceMs nowMs)
    (huntil : untilMs ≤ env.depositedMs) : env ∈ mailbox.fetch hints untilMs nowMs := by
  rw [mem_fetch_iff] at hmem ⊢
  rw [← candidates_filter hle]
  exact mem_withinBudget_filter (Nat.le_refl 0) hmem (by simpa using huntil)

namespace Pager

theorem newest_spec (sinceMs : UInt64) (envs : List Envelope) :
    sinceMs ≤ newest sinceMs envs ∧ (∀ env ∈ envs, env.depositedMs ≤ newest sinceMs envs) ∧
      (newest sinceMs envs = sinceMs ∨
        ∃ env ∈ envs, env.depositedMs = newest sinceMs envs) := by
  induction envs generalizing sinceMs with
  | nil => exact ⟨UInt64.le_refl _, nofun, .inl rfl⟩
  | cons first envs ih =>
    rw [newest, List.foldl_cons, ← newest]
    split
    · rename_i hlt
      obtain ⟨hbase, hbound, hreached⟩ := ih first.depositedMs
      refine ⟨UInt64.le_trans (UInt64.le_of_lt hlt) hbase, ?_, ?_⟩
      · intro env henv
        rcases List.mem_cons.mp henv with rfl | hlater
        · exact hbase
        · exact hbound env hlater
      · rcases hreached with hfirst | ⟨env, henv, heq⟩
        · exact .inr ⟨first, List.mem_cons_self, hfirst.symm⟩
        · exact .inr ⟨env, List.mem_cons_of_mem _ henv, heq⟩
    · rename_i hle
      obtain ⟨hbase, hbound, hreached⟩ := ih sinceMs
      refine ⟨hbase, ?_, ?_⟩
      · intro env henv
        rcases List.mem_cons.mp henv with rfl | hlater
        · exact UInt64.le_trans (UInt64.not_lt.mp hle) hbase
        · exact hbound env hlater
      · rcases hreached with hbase | ⟨env, henv, heq⟩
        · exact .inl hbase
        · exact .inr ⟨env, List.mem_cons_of_mem _ henv, heq⟩

theorem since_le_next (pager : Pager) :
    pager.sinceMs ≤ (pager.next mailbox hints nowMs).sinceMs :=
  (newest_spec pager.sinceMs _).1

/-- The cursor after a page whose newest envelope is newer than the old cursor. -/
theorem newest_eq {envs : List Envelope} (hlt : sinceMs < untilMs)
    (hreached : ∃ env ∈ envs, env.depositedMs = untilMs)
    (hbound : ∀ env ∈ envs, env.depositedMs ≤ untilMs) : newest sinceMs envs = untilMs := by
  obtain ⟨-, hle, hfrom⟩ := newest_spec sinceMs envs
  obtain ⟨env, henv, rfl⟩ := hreached
  apply UInt64.le_antisymm _ (hle env henv)
  rcases hfrom with hsince | ⟨last, hlast, heq⟩
  · rw [hsince]
    exact UInt64.le_of_lt hlt
  · rw [← heq]
    exact hbound last hlast

theorem mem_read {calls : Nat} {pager : Pager} {out : List Envelope}
    (hread : read mailbox hints nowMs calls pager = some out) (hmem : env ∈ out) :
    env ∈ pager.received ∨ pager.sinceMs ≤ env.depositedMs := by
  induction calls generalizing pager with
  | zero => cases hread
  | succ calls ih =>
    rw [read] at hread
    split at hread
    · cases hread
      exact .inl hmem
    · rcases ih hread with hreceived | hlater
      · rcases List.mem_append.mp hreceived with hbefore | hpage
        · exact .inl hbefore
        · exact .inr (since_le_of_mem_fetch hpage)
      · exact .inr (UInt64.le_trans pager.since_le_next hlater)

/-- A client that has its next page already stops with what it has. -/
theorem read_done {calls : Nat} {pager : Pager} {out : List Envelope}
    (hdone : ∀ env ∈ mailbox.fetch hints pager.sinceMs nowMs, env ∈ pager.received)
    (hread : read mailbox hints nowMs calls pager = some out) : out = pager.received := by
  cases calls with
  | zero => cases hread
  | succ calls =>
    rw [read, if_pos hdone] at hread
    exact (Option.some.inj hread).symm

end Pager

open Pager

/-- Reading on from a cursor that nothing received is beyond. -/
theorem Pageable.read (h : Pageable mailbox hints nowMs sinceMs) (received : List Envelope)
    (hreceived : ∀ env ∈ received, env.depositedMs ≤ sinceMs) :
    ∃ calls out, Pager.read mailbox hints nowMs calls { sinceMs, received } = some out ∧
      (∀ env ∈ received, env ∈ out) ∧
      ∀ env ∈ mailbox.candidates hints sinceMs nowMs, env ∈ out := by
  induction h generalizing received with
  | @last sinceMs front rest page covered =>
    have hall : ∀ env ∈ mailbox.candidates hints sinceMs nowMs,
        env ∈ mailbox.fetch hints sinceMs nowMs := by
      intro env henv
      rw [mem_fetch_iff, page.eq_withinBudget]
      rw [page.parts] at henv
      exact (List.mem_append.mp henv).elim id (covered env)
    by_cases hdone : ∀ env ∈ mailbox.fetch hints sinceMs nowMs, env ∈ received
    · exact ⟨1, received, by rw [Pager.read, if_pos hdone], fun _ h => h,
        fun env henv => hdone env (hall env henv)⟩
    · refine ⟨2, received ++ mailbox.fetch hints sinceMs nowMs, ?_,
        fun env henv => List.mem_append_left _ henv,
        fun env henv => List.mem_append_right _ (hall env henv)⟩
      rw [Pager.read, if_neg hdone, Pager.read, if_pos]
      · rfl
      · intro env henv
        apply List.mem_append_right
        apply hall
        rw [Mailbox.mem_candidates]
        obtain ⟨hslot, hsince, hlive⟩ :=
          Mailbox.mem_candidates.mp (mem_candidates_of_fetch henv)
        exact ⟨hslot, UInt64.le_trans (since_le_next { sinceMs, received }) hsince, hlive⟩
  | @more sinceMs untilMs front rest page progress reached bound behind later ih =>
    have hfront (env : Envelope) :
        env ∈ mailbox.fetch hints sinceMs nowMs ↔ env ∈ front := by
      rw [mem_fetch_iff, page.eq_withinBudget]
    have hnew : ¬ ∀ env ∈ mailbox.fetch hints sinceMs nowMs, env ∈ received := by
      obtain ⟨env, henv, rfl⟩ := reached
      intro hdone
      have hle := hreceived env (hdone env ((hfront env).mpr henv))
      exact UInt64.not_lt.mpr hle progress
    have hcursor : newest sinceMs (mailbox.fetch hints sinceMs nowMs) = untilMs := by
      apply newest_eq progress
      · obtain ⟨env, henv, heq⟩ := reached
        exact ⟨env, (hfront env).mpr henv, heq⟩
      · intro env henv
        exact bound env ((hfront env).mp henv)
    have hbefore : ∀ env ∈ received ++ mailbox.fetch hints sinceMs nowMs,
        env.depositedMs ≤ untilMs := by
      intro env henv
      rcases List.mem_append.mp henv with hold | hpage
      · exact UInt64.le_trans (hreceived env hold) (UInt64.le_of_lt progress)
      · exact bound env ((hfront env).mp hpage)
    obtain ⟨calls, out, hread, hkept, hall⟩ := ih _ hbefore
    refine ⟨calls + 1, out, ?_, fun env henv => hkept env (List.mem_append_left _ henv), ?_⟩
    · rw [Pager.read, if_neg hnew, Pager.next, hcursor]
      exact hread
    · intro env henv
      obtain ⟨hslot, -, hlive⟩ := Mailbox.mem_candidates.mp henv
      have hplace : env ∈ front ∨ untilMs ≤ env.depositedMs := by
        rw [page.parts] at henv
        exact (List.mem_append.mp henv).elim .inl (behind env)
      rcases hplace with hin | hlater
      · exact hkept env (List.mem_append_right _ ((hfront env).mpr hin))
      · exact hall env (Mailbox.mem_candidates.mpr ⟨hslot, hlater, hlive⟩)

/-- A client that ends up with everything has read a mailbox that can be read in pages. What it
had before is in its next page, as far as the cursor still selects it. -/
theorem pageable_of_read {calls : Nat} {pager : Pager} {out : List Envelope}
    (hread : Pager.read mailbox hints nowMs calls pager = some out)
    (hreceived : ∀ env ∈ pager.received, pager.sinceMs ≤ env.depositedMs →
      env ∈ mailbox.fetch hints pager.sinceMs nowMs)
    (hall : ∀ env ∈ mailbox.candidates hints pager.sinceMs nowMs, env ∈ out) :
    Pageable mailbox hints nowMs pager.sinceMs := by
  induction calls generalizing pager with
  | zero => cases hread
  | succ calls ih =>
    obtain ⟨rest, page⟩ := firstPage_withinBudget (mailbox.candidates hints pager.sinceMs nowMs)
    have hrest : ∀ env ∈ rest, env ∈ mailbox.candidates hints pager.sinceMs nowMs := by
      intro env henv
      rw [page.parts]
      exact List.mem_append_right _ henv
    -- What was received before counts as part of the page.
    have hcover (hout : ∀ env ∈ out, env ∈ pager.received ∨
        env ∈ mailbox.fetch hints pager.sinceMs nowMs) :
        Pageable mailbox hints nowMs pager.sinceMs := by
      refine .last page fun env henv => mem_fetch_iff.mp ?_
      rcases hout env (hall env (hrest env henv)) with hold | hpage
      · exact hreceived env hold (Mailbox.mem_candidates.mp (hrest env henv)).2.1
      · exact hpage
    rw [Pager.read] at hread
    split at hread
    · cases hread
      exact hcover fun env henv => .inl henv
    · by_cases hstuck : (pager.next mailbox hints nowMs).sinceMs = pager.sinceMs
      · have hout := read_done (by
          rw [hstuck]
          exact fun env henv => List.mem_append_right _ henv) hread
        apply hcover
        intro env henv
        rw [hout] at henv
        exact List.mem_append.mp henv
      · obtain ⟨hle, hbound, hfrom⟩ :=
          newest_spec pager.sinceMs (mailbox.fetch hints pager.sinceMs nowMs)
        obtain ⟨env, henv, heq⟩ := hfrom.resolve_left hstuck
        refine .more page (UInt64.lt_of_le_of_ne hle (Ne.symm hstuck))
          ⟨env, mem_fetch_iff.mp henv, heq⟩ (fun env henv => hbound env (mem_fetch_iff.mpr henv))
          ?_ (ih hread ?_ ?_)
        · intro env henv
          have hsince := (Mailbox.mem_candidates.mp (hrest env henv)).2.1
          rcases mem_read hread (hall env (hrest env henv)) with hreceived' | hlater
          · rcases List.mem_append.mp hreceived' with hold | hpage
            · exact .inl (mem_fetch_iff.mp (hreceived env hold hsince))
            · exact .inl (mem_fetch_iff.mp hpage)
          · exact .inr hlater
        · intro env henv hlater
          rcases List.mem_append.mp henv with hold | hpage
          · exact mem_fetch_later hle (hreceived env hold (UInt64.le_trans hle hlater)) hlater
          · exact mem_fetch_later hle hpage hlater
        · intro env henv
          obtain ⟨hslot, hsince, hlive⟩ := Mailbox.mem_candidates.mp henv
          exact hall env (Mailbox.mem_candidates.mpr ⟨hslot, UInt64.le_trans hle hsince, hlive⟩)

/-- Reading page by page is complete exactly for a mailbox that can be read in pages. -/
theorem paging_complete_iff (mailbox : Mailbox) (hints : List Hint) (sinceMs nowMs : UInt64) :
    Complete mailbox hints nowMs sinceMs ↔ Pageable mailbox hints nowMs sinceMs := by
  constructor
  · rintro ⟨calls, out, hread, hall⟩
    refine pageable_of_read hread nofun ?_
    intro env henv
    obtain ⟨⟨hint, hhint, hslot⟩, hsince, hlive⟩ := Mailbox.mem_candidates.mp henv
    exact hall hint hhint env hslot hsince hlive
  · intro h
    obtain ⟨calls, out, hread, -, hall⟩ := h.read [] nofun
    refine ⟨calls, out, hread, ?_⟩
    intro hint hhint env hslot hsince hlive
    exact hall env (Mailbox.mem_candidates.mpr ⟨⟨hint, hhint, hslot⟩, hsince, hlive⟩)

end Pages

section Overfull

variable (payload : Bytes)

def bulky (depositedMs : UInt64) : Envelope where
  v := 1
  recipientHint := .fill 8 1
  payload := payload
  sizeClass := 0
  depositedMs := depositedMs
  ttlMs := 1000

def overfull : Mailbox :=
  [101, 102, 103, 104, 105, 106, 50].foldl
    (fun mailbox time => mailbox.stored (bulky payload time)) .new

def firstSix : List Envelope := [101, 102, 103, 104, 105, 106].map (bulky payload)

theorem slot_overfull :
    (overfull payload).slot (.fill 8 1) = firstSix payload ++ [bulky payload 50] := by
  have hstored (mailbox : Mailbox) (time : UInt64) :
      (mailbox.stored (bulky payload time)).slot (.fill 8 1) =
        mailbox.slot (.fill 8 1) ++ [bulky payload time] := by
    rw [Mailbox.slot_stored]
    exact if_pos rfl
  simp only [overfull, List.foldl_cons, List.foldl_nil, hstored]
  rfl

theorem candidates_overfull :
    (overfull payload).candidates [.fill 8 1] 0 200 = firstSix payload ++ [bulky payload 50] := by
  rw [Mailbox.candidates, List.flatMap_singleton, slot_overfull, List.filter_eq_self]
  intro env henv
  have htime : env ∈ [101, 102, 103, 104, 105, 106, 50].map (bulky payload) := henv
  obtain ⟨time, hmem, rfl⟩ := List.mem_map.mp htime
  have hlive : ([101, 102, 103, 104, 105, 106, 50].all fun time =>
      decide (0 ≤ (bulky [] time).depositedMs) && !(bulky [] time).isExpired 200) = true := by
    decide
  exact List.all_eq_true.mp hlive time hmem

variable {payload}

theorem firstPage_overfull (hlen : payload.length = 1048576) :
    FirstPage ((overfull payload).candidates [.fill 8 1] 0 200) (firstSix payload)
      [bulky payload 50] := by
  have hsize (time : UInt64) : envSize (bulky payload time) = 1048604 := by
    rw [envSize, bulky, hlen]
  refine ⟨candidates_overfull payload, ?_, ?_⟩
  · simp [firstSix, hsize, maxFetchBytes]
  · intro env henv
    cases henv
    simp [firstSix, hsize, maxFetchBytes]

theorem mem_fetch_overfull (hlen : payload.length = 1048576) {env : Envelope} :
    env ∈ (overfull payload).fetch [.fill 8 1] 0 200 ↔ env ∈ firstSix payload := by
  rw [mem_fetch_iff, (firstPage_overfull hlen).eq_withinBudget]

/-- The client moves its cursor past the envelope that the first page had no room for, and
never gets it. -/
theorem overfull_incomplete (hlen : payload.length = 1048576) :
    ¬ Pager.Complete (overfull payload) [.fill 8 1] 200 0 := by
  rintro ⟨calls, out, hread, hall⟩
  have hcandidate : bulky payload 50 ∈ (overfull payload).candidates [.fill 8 1] 0 200 := by
    rw [candidates_overfull]
    exact List.mem_append_right _ List.mem_cons_self
  obtain ⟨⟨hint, hhint, hslot⟩, hsince, hlive⟩ := Mailbox.mem_candidates.mp hcandidate
  have hout := hall hint hhint _ hslot hsince hlive
  cases calls with
  | zero => cases hread
  | succ calls =>
    rw [Pager.read] at hread
    split at hread
    · cases hread
      cases hout
    · rcases Pager.mem_read hread hout with hpage | hlater
      · obtain ⟨time, htime, heq⟩ := List.mem_map.mp ((mem_fetch_overfull hlen).mp hpage)
        have hfifty : time = 50 := congrArg Envelope.depositedMs heq
        rw [hfifty] at htime
        exact absurd htime (by decide)
      · have hlast : bulky payload 106 ∈ firstSix payload := List.mem_map_of_mem (by decide)
        have hnewest := (Pager.newest_spec 0 _).2.1 _ ((mem_fetch_overfull hlen).mpr hlast)
        exact absurd (UInt64.le_trans hnewest hlater) (by decide : ¬ (106 : UInt64) ≤ 50)

end Overfull

theorem older_envelope_skipped :
    ¬ Pager.Complete (overfull (List.replicate 1048576 0)) [.fill 8 1] 200 0 :=
  overfull_incomplete List.length_replicate

end Dante.Net
