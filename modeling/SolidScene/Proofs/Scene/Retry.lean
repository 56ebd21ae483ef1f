import SolidScene.Proofs.Scene.Lookahead
import SolidScene.Proofs.Source.Utf8

/-!
# Reading again after a failure

Where a source of text fails between two characters, a look ahead or the reading of a character
fails as well, and has passed blanks at most (`Operation.meets`). So what is asked again comes out
as it would have without the failure, and calls that are repeated until they do not fail give what
they give on the text itself (`Reader.retried_reports`).
-/

namespace SolidScene

open Source (Event Signal decode ofText)
open Text (isBlank Position)

/-! ## Failing sources -/

namespace Source

/-- The events are the characters of a text with failures anywhere between them, and then the end as
often as it is asked for. -/
inductive Falters : List Event → List Char → Prop
  | ended (n : ℕ) : Falters (List.replicate n .pause) []
  | char {events : List Event} {cs : List Char} (c : Char) (h : Falters events cs) :
    Falters (.char c :: events) (c :: cs)
  | failure {events : List Event} {cs : List Char} (cause : String) (h : Falters events cs) :
    Falters (.failure cause :: events) cs

/-- The signals by which a source of bytes delivers an event. -/
def Event.signals : Event → List Signal
  | .char c => (String.utf8EncodeChar c).map .byte
  | .failure cause => [.failure cause]
  | .pause => [.pause]

theorem decode_signals (events : List Event) : decode (events.flatMap Event.signals) = events := by
  induction events with
  | nil => rfl
  | cons e events ih =>
    rw [List.flatMap_cons]
    cases e with
    | char c => rw [Event.signals, decode_char, ih]
    | failure | pause => exact congrArg (List.cons _) ih

/-- The source delivers the bytes of a text with failures anywhere between its characters and
interruptions anywhere, and then reports the end as often as it is asked. -/
def DeliversFaltering (signals : List Signal) (text : String) : Prop := ∃ events,
  Falters events text.toList ∧ signals.filter (· ≠ .interruption) = events.flatMap Event.signals

theorem DeliversFaltering.falters {signals : List Signal} {text : String}
    (h : DeliversFaltering signals text) : Falters (decode signals) text.toList := by
  obtain ⟨events, hfalters, hsignals⟩ := h
  rwa [← decode_filter, hsignals, decode_signals]

end Source

open Source (Falters DeliversFaltering)

/-! ## One call -/

namespace Reader

variable {r r₁ r₂ : Reader} {behind : List Event}

theorem PassesBlanks.trans {blanks blanks' : List Char} (h : r.PassesBlanks r₁ blanks r₁.upcoming)
    (h' : r₁.PassesBlanks r₂ blanks' behind) : r.PassesBlanks r₂ (blanks ++ blanks') behind where
  blank c hc := (List.mem_append.1 hc).elim (h.blank c) (h'.blank c)
  upcoming := by rw [h.upcoming, h'.upcoming, List.map_append, List.append_assoc]
  position := by rw [h'.position, h.position, Position.past_append]
  tokenStart := h'.tokenStart.trans h.tokenStart

/-- A call that ends with this error has passed the blanks before the next failure of the source and
ends with it. -/
def Stalls (r r' : Reader) (e : SceneError) : Prop := ∃ cause blanks,
  e = .unreadable cause ∧ r.PassesBlanks r' blanks (.failure cause :: r'.upcoming)

/-- A call that stalls has taken something from the source. -/
theorem Stalls.remaining_lt {r r' : Reader} {e : SceneError} (h : r.Stalls r' e) :
    r'.remaining < r.remaining := by
  obtain ⟨cause, blanks, -, h⟩ := h
  simp only [remaining, h.upcoming, List.length_append, List.length_cons]
  omega

/-- The second reader stands where the first does, before the same text, and its source does not
fail. -/
structure Alongside (r r₀ : Reader) : Prop where
  text : ∃ cs, Falters r.upcoming cs ∧ r₀.upcoming = cs.map .char
  position : r₀.position = r.position
  tokenStart : r₀.tokenStart = r.tokenStart

end Reader

namespace Operation

/-- The operation is a look ahead or reads a character. -/
def OfChar : Operation → Prop
  | .peekChar | .readChar => True
  | _ => False

def Report.succeeds (report : Report) : Bool := report.result.isOk

/-- The operation gives the same with and without failures of the source, or it fails, and without
failures it would have come out the same from behind the blanks that it has passed. -/
inductive Meets (op : Operation) (r r₀ : Reader) : Prop
  | answered (hok : (op.report r).succeeds = true) (hsame : op.report r = op.report r₀)
    (hr : (op.action r).2.Alongside (op.action r₀).2)
  | stalled {e : SceneError} {r₀' : Reader} (h : (op.action r).1 = .error e)
    (hstalls : r.Stalls (op.action r).2 e) (hr : (op.action r).2.Alongside r₀')
    (hagain : op.action r₀' = op.action r₀)

theorem Meets.of_ok {op : Operation} {r r₀ r' r₀' : Reader} {a : op.Value}
    (h : op.action r = (.ok a, r')) (h₀ : op.action r₀ = (.ok a, r₀')) (hr : r'.Alongside r₀') :
    op.Meets r r₀ := by
  refine .answered ?_ ?_ ?_
  · rw [Report.succeeds, report, h]
    rfl
  · rw [report, report, h, h₀, hr.position, hr.tokenStart]
  · rwa [h, h₀]

theorem succeeds_of_error {op : Operation} {r : Reader} {e : SceneError}
    (h : (op.action r).1 = .error e) : (op.report r).succeeds = false := by
  rw [Report.succeeds, report, h]
  rfl

theorem Meets.of_passesBlanks {op : Operation} {r r₀ r₁ r₁₀ : Reader} {blanks : List Char}
    (h : r.PassesBlanks r₁ blanks r₁.upcoming) (h₀ : r₀.PassesBlanks r₁₀ blanks r₁₀.upcoming)
    (hmeets : op.Meets r₁ r₁₀) : op.Meets r r₀ := by
  have heq := op.ignoresBlanks _ _ _ h
  have heq₀ := op.ignoresBlanks _ _ _ h₀
  cases hmeets with
  | answered hok hsame hr =>
    rw [report, ← heq] at hok
    rw [report, report, ← heq, ← heq₀] at hsame
    rw [← heq, ← heq₀] at hr
    exact .answered hok hsame hr
  | stalled he hstalls hr hagain =>
    rw [← heq] at he hstalls hr
    obtain ⟨cause, blanks', hcause, hpasses⟩ := hstalls
    have hstalls : r.Stalls _ _ := ⟨cause, blanks ++ blanks', hcause, h.trans hpasses⟩
    exact .stalled he hstalls hr (hagain.trans heq₀.symm)

section Calls

variable (events : List Event) (p start : Position)

theorem skipBlanks_char {c : Char} (hc : isBlank c = false) :
    Read.skipBlanks ⟨.char c :: events, none, p, start⟩ = (.ok (), ⟨events, some c, p, start⟩) := by
  have hrun : Read.runOf isBlank start (.char c :: events) p =
      (.ok [], ⟨events, some c, p, start⟩) := by
    rw [Read.runOf, if_neg (by simp [hc])]
  exact Read.bind_of_ok hrun _

theorem peekChar_char {c : Char} (hc : isBlank c = false) :
    Read.peekChar ⟨.char c :: events, none, p, start⟩ =
      (.ok (some c), ⟨events, some c, p, start⟩) :=
  Read.bind_of_ok (skipBlanks_char events p start hc) _

theorem readChar_char {c : Char} (hc : isBlank c = false) :
    Read.readChar ⟨.char c :: events, none, p, start⟩ =
      (.ok (some c), ⟨events, none, p.advance c, p⟩) :=
  Read.bind_of_ok (skipBlanks_char events p start hc) _

theorem peekChar_ended (n : ℕ) : Read.peekChar ⟨List.replicate n .pause, none, p, start⟩ =
    (.ok none, ⟨List.replicate (n - 2) .pause, none, p, start⟩) := by
  rcases n with _ | _ | n <;> rfl

theorem readChar_ended (n : ℕ) : Read.readChar ⟨List.replicate n .pause, none, p, start⟩ =
    (.ok none, ⟨List.replicate (n - 2) .pause, none, p, p⟩) := by
  rcases n with _ | _ | n <;> rfl

variable {op : Operation} (hop : op.OfChar)
include hop

theorem OfChar.meets_ended (n : ℕ) :
    op.Meets ⟨List.replicate n .pause, none, p, start⟩ ⟨[], none, p, start⟩ := by
  have hended : Falters (List.replicate (n - 2) .pause) [] := .ended _
  cases op with
  | peekChar =>
    exact .of_ok (peekChar_ended p start n) (peekChar_ended p start 0) ⟨⟨[], hended, rfl⟩, rfl, rfl⟩
  | readChar =>
    exact .of_ok (readChar_ended p start n) (readChar_ended p start 0) ⟨⟨[], hended, rfl⟩, rfl, rfl⟩
  | _ => cases hop

theorem OfChar.meets_char {c : Char} (hc : isBlank c = false) {events : List Event}
    {cs : List Char} (h : Falters events cs) :
    op.Meets ⟨.char c :: events, none, p, start⟩ ⟨.char c :: cs.map .char, none, p, start⟩ := by
  cases op with
  | peekChar =>
    exact .of_ok (peekChar_char _ p start hc) (peekChar_char _ p start hc)
      ⟨⟨c :: cs, .char c h, rfl⟩, rfl, rfl⟩
  | readChar =>
    exact .of_ok (readChar_char _ p start hc) (readChar_char _ p start hc) ⟨⟨cs, h, rfl⟩, rfl, rfl⟩
  | _ => cases hop

theorem OfChar.meets_failure (cause : String) {events : List Event} {cs : List Char}
    (h : Falters events cs) :
    op.Meets ⟨.failure cause :: events, none, p, start⟩ ⟨cs.map .char, none, p, start⟩ := by
  have hfail : op.action ⟨.failure cause :: events, none, p, start⟩ =
      (.error (.unreadable cause), ⟨events, none, p, start⟩) := by
    cases op with
    | peekChar | readChar => rfl
    | _ => cases hop
  refine .stalled (congrArg Prod.fst hfail) ?_ ?_ rfl
  · rw [hfail]
    exact ⟨cause, [], rfl, nofun, rfl, rfl, rfl⟩
  · rw [hfail]
    exact ⟨⟨cs, h, rfl⟩, rfl, rfl⟩

theorem OfChar.meets_falters {events : List Event} {cs : List Char} (h : Falters events cs) :
    op.Meets ⟨events, none, p, start⟩ ⟨cs.map .char, none, p, start⟩ := by
  induction h generalizing p with
  | ended n => exact hop.meets_ended p start n
  | failure cause h => exact hop.meets_failure p start cause h
  | @char events cs c h ih =>
    by_cases hc : isBlank c = true
    · have hpasses (events : List Event) :
          Reader.PassesBlanks ⟨.char c :: events, none, p, start⟩
            ⟨events, none, p.advance c, start⟩ [c] events :=
        ⟨by simpa using hc, rfl, rfl, rfl⟩
      exact .of_passesBlanks (hpasses _) (hpasses _) (ih (p.advance c))
    · exact hop.meets_char p start (by simpa using hc) h

end Calls

/-- Two readers that stand alongside each other come to the same. -/
theorem OfChar.meets {op : Operation} (hop : op.OfChar) {r r₀ : Reader} (h : r.Alongside r₀) :
    op.Meets r r₀ := by
  obtain ⟨⟨cs, hfalters, htext⟩, hposition, hstart⟩ := h
  have hpasses (r : Reader) : r.PassesBlanks ⟨r.upcoming, none, r.position, r.tokenStart⟩ []
      r.upcoming := ⟨nofun, rfl, rfl, rfl⟩
  refine .of_passesBlanks (hpasses r) (hpasses r₀) ?_
  rw [htext, hposition, hstart]
  exact hop.meets_falters _ _ hfalters

end Operation

/-! ## Repeated calls -/

namespace Reader

/-- The operations are asked for one after another, and each again until it does not fail. All calls
that are made so give these reports. -/
inductive Retried : Reader → List Operation → List Operation.Report → Prop
  | nil (r : Reader) : Retried r [] []
  | succeed {r : Reader} {op : Operation} {ops : List Operation} {reports : List Operation.Report}
    (hok : (op.report r).succeeds = true) (h : Retried (op.action r).2 ops reports) :
    Retried r (op :: ops) (op.report r :: reports)
  | fail {r : Reader} {op : Operation} {ops : List Operation} {reports : List Operation.Report}
    (hfail : (op.report r).succeeds = false) (h : Retried (op.action r).2 (op :: ops) reports) :
    Retried r (op :: ops) (op.report r :: reports)

variable {r r₀ : Reader} {ops : List Operation}

theorem Alongside.exists_retried (hops : ∀ op ∈ ops, op.OfChar) (h : r.Alongside r₀) :
    ∃ reports, r.Retried ops reports := by
  induction ops generalizing r r₀ with
  | nil => exact ⟨[], .nil r⟩
  | cons op ops ih =>
    obtain ⟨hop, hops'⟩ := List.forall_mem_cons.1 hops
    -- a call that fails leaves less to come, so it does not fail for ever
    induction hn : r.remaining using Nat.strongRecOn generalizing r r₀ with
    | ind n ihn =>
      cases hop.meets h with
      | answered hok _ hr =>
        obtain ⟨reports, hreports⟩ := ih hops' hr
        exact ⟨_, .succeed hok hreports⟩
      | stalled he hstalls hr _ =>
        obtain ⟨reports, hreports⟩ := ihn _ (hn ▸ hstalls.remaining_lt) hr rfl
        exact ⟨_, .fail (Operation.succeeds_of_error he) hreports⟩

theorem Retried.filter_succeeds {reports : List Operation.Report} (hr : r.Retried ops reports)
    (hops : ∀ op ∈ ops, op.OfChar) (h : r.Alongside r₀) :
    reports.filter Operation.Report.succeeds = r₀.reports ops := by
  induction hr generalizing r₀ with
  | nil => rfl
  | succeed hok _ ih =>
    obtain ⟨hop, hops'⟩ := List.forall_mem_cons.1 hops
    rw [List.filter_cons_of_pos hok]
    cases hop.meets h with
    | answered _ hsame hr => rw [ih hops' hr, Reader.reports, hsame]
    | stalled he => cases hok.symm.trans (Operation.succeeds_of_error he)
  | fail hfail _ ih =>
    rw [List.filter_cons_of_neg (by simpa using hfail)]
    cases (hops _ List.mem_cons_self).meets h with
    | answered hok => cases hok.symm.trans hfail
    | stalled _ _ hr hagain => rw [ih hops hr, reports_congr hagain]

theorem Alongside.exists_after {made : List Operation} (hmade : ∀ op ∈ made, op.OfChar)
    (h : r.Alongside r₀) : ∃ r₀', (r.after made).Alongside r₀' := by
  induction made generalizing r r₀ with
  | nil => exact ⟨r₀, h⟩
  | cons op made ih =>
    obtain ⟨hop, hmade⟩ := List.forall_mem_cons.1 hmade
    cases hop.meets h with
    | answered _ _ hr => exact ih hmade hr
    | stalled _ _ hr => exact ih hmade hr

theorem alongside_ofEvents {signals : List Signal} {text : String}
    (h : DeliversFaltering signals text) :
    (ofEvents (decode signals)).Alongside (ofEvents (ofText text)) :=
  ⟨⟨text.toList, h.falters, rfl⟩, rfl, rfl⟩

/-- Where a source of text fails between characters, looks ahead and readings of characters that are
repeated until they do not fail give the same, and leave the reader at the same places, as on the
text itself. A call fails with the failure that it meets and passes blanks at most. -/
theorem retried_reports {signals : List Signal} {text : String}
    (h : DeliversFaltering signals text) (hops : ∀ op ∈ ops, op.OfChar) :
    (∃ reports, (ofEvents (decode signals)).Retried ops reports) ∧
    (∀ reports, (ofEvents (decode signals)).Retried ops reports →
      reports.filter Operation.Report.succeeds = (ofEvents (ofText text)).reports ops) ∧
    ∀ made op r' e, (∀ op' ∈ op :: made, op'.OfChar) →
      op.action ((ofEvents (decode signals)).after made) = (.error e, r') →
      ((ofEvents (decode signals)).after made).Stalls r' e := by
  have halong := alongside_ofEvents h
  refine ⟨halong.exists_retried hops, fun _ hr => hr.filter_succeeds hops halong, ?_⟩
  intro made op r' e hmade he
  obtain ⟨hop, hmade⟩ := List.forall_mem_cons.1 hmade
  obtain ⟨r₀, hr₀⟩ := halong.exists_after hmade
  cases hop.meets hr₀ with
  | answered hok =>
    cases hok.symm.trans (Operation.succeeds_of_error (congrArg Prod.fst he))
  | stalled he' hstalls =>
    rw [he] at he' hstalls
    cases he'
    exact hstalls

/-- A failure among blanks and one before the end: four calls come out as on the text, and the look
ahead that meets the first failure has passed the blank before it. -/
theorem retried_reports_two_failures :
    let text := "a \nb"
    let signals : List Signal := [.byte 0x61, .byte 0x20, .failure "gone", .interruption,
      .byte 0x0A, .byte 0x62, .failure "lost", .pause]
    let ops : List Operation := [.readChar, .peekChar, .readChar, .readChar]
    DeliversFaltering signals text ∧ (∀ op ∈ ops, op.OfChar) ∧
      (∃ reports, (ofEvents (decode signals)).Retried ops reports ∧
        reports.filter Operation.Report.succeeds = (ofEvents (ofText text)).reports ops) ∧
      ((ofEvents (ofText text)).reports ops).map (·.position) = [⟨1, 2⟩, ⟨2, 1⟩, ⟨2, 2⟩, ⟨2, 2⟩] ∧
      ∃ r', Read.peekChar ((ofEvents (decode signals)).after [.readChar]) =
          (.error (.unreadable "gone"), r') ∧ r'.position = ⟨1, 3⟩ ∧
        ((ofEvents (decode signals)).after [.readChar]).Stalls r' (.unreadable "gone") := by
  intro text signals ops
  have hsignals : DeliversFaltering signals text := by
    refine ⟨[.char 'a', .char ' ', .failure "gone", .char '\n', .char 'b', .failure "lost", .pause],
      ?_, by decide +kernel⟩
    have htext : text.toList = ['a', ' ', '\n', 'b'] := by decide +kernel
    rw [htext]
    exact .char _ (.char _ (.failure _ (.char _ (.char _ (.failure _ (.ended 1))))))
  have hops : ∀ op ∈ ops, op.OfChar := by simp [ops, Operation.OfChar]
  obtain ⟨⟨reports, hreports⟩, hsame, hstalls⟩ := retried_reports hsignals hops
  have hpeek : Read.peekChar ((ofEvents (decode signals)).after [.readChar]) =
      (.error (.unreadable "gone"), ⟨[.char '\n', .char 'b', .failure "lost", .pause], none,
        ⟨1, 3⟩, ⟨1, 1⟩⟩) := by
    decide +kernel
  exact ⟨hsignals, hops, ⟨reports, hreports, hsame reports hreports⟩, by decide +kernel, _, hpeek,
    rfl, hstalls [.readChar] .peekChar _ _ (by simp [Operation.OfChar]) hpeek⟩

end Reader

end SolidScene
