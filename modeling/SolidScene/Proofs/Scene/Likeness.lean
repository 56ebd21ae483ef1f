import Mathlib.Data.List.Forall2
import Mathlib.Data.Option.Basic
import SolidScene.Proofs.Scene.Stages
import SolidScene.Proofs.Scene.Steps
import SolidScene.Proofs.Text.Lexeme

/-!
# Readings that go alike

Two sources are read alike where their characters and their places correspond one by one
(`Likeness`): every action then has corresponding outcomes (`Likeness.Alike.staged`). What differs
between corresponding characters may show in the faults that quote them and nowhere else.
-/

namespace SolidScene

open Source (Event)
open Text (Position isBlank isWordChar)

/-- Which characters and which places of two sources correspond. Characters of words may differ in
what names, combiners and numbers do not depend on, all other characters are the same. -/
structure Likeness where
  chars : Char → Char → Prop
  places : Position → Position → Prop
  isWordChar_eq : ∀ {c d}, chars c d → isWordChar c = isWordChar d
  eq_of_not_wordChar : ∀ {c d}, chars c d → isWordChar c = false → c = d
  tag_eq : ∀ {c d}, chars c d → Tag.ofChar? c = Tag.ofChar? d
  toLower_eq : ∀ {c d}, chars c d → c.toLower = d.toLower
  finite?_eq : ∀ {v w}, List.Forall₂ chars v w → Number.finite? v = Number.finite? w
  advance : ∀ {c d p q}, chars c d → places p q → places (p.advance c) (q.advance d)

namespace Likeness

variable (L : Likeness) {α β : Type} {c d : Char}

/-! ## What corresponds -/

inductive Events : Event → Event → Prop
  | char {c d : Char} (h : L.chars c d) : Events (.char c) (.char d)
  | failure (cause : String) : Events (.failure cause) (.failure cause)
  | pause : Events .pause .pause

/-- Readers of corresponding events at corresponding places. Before the first mark the places of
their last words need not correspond. -/
structure Readers (marked : Bool) (r r' : Reader) : Prop where
  upcoming : List.Forall₂ L.Events r.upcoming r'.upcoming
  position : L.places r.position r'.position
  tokenStart : marked = true → L.places r.tokenStart r'.tokenStart

def Words (v w : String) : Prop := List.Forall₂ L.chars v.toList w.toList

structure Tokens (a b : Read.Token) : Prop where
  text : L.Words a.text b.text
  position : L.places a.position b.position

/-- The same faults, up to the characters that they quote. -/
inductive Faults : Fault → Fault → Prop
  | same (fault : Fault) : Faults fault fault
  | word (what : String) {v w : String} (h : L.Words v w) :
    Faults (.expected what (.word v)) (.expected what (.word w))
  | char (what : String) {c d : Char} (h : L.chars c d) :
    Faults (.expected what (.char c)) (.expected what (.char d))

inductive Errors : SceneError → SceneError → Prop
  | rejected {f g : Fault} {p q : Position} (hf : L.Faults f g) (hp : L.places p q) :
    Errors (.rejected f p) (.rejected g q)
  | tooDeep (limit : ℕ) {p q : Position} (hp : L.places p q) :
    Errors (.tooDeep limit p) (.tooDeep limit q)
  | unreadable (cause : String) : Errors (.unreadable cause) (.unreadable cause)

/-- Corresponding results and readers, or corresponding errors. -/
inductive Outcomes (marked : Bool) (V : α → α → Prop) :
    Except SceneError α × Reader → Except SceneError α × Reader → Prop
  | ok {a b : α} {r r' : Reader} (hv : V a b) (hr : L.Readers marked r r') :
    Outcomes marked V (.ok a, r) (.ok b, r')
  | error {e e' : SceneError} {r r' : Reader} (he : L.Errors e e') :
    Outcomes marked V (.error e, r) (.error e', r')

/-- From corresponding readers the actions have corresponding outcomes. -/
def Alike (marked marked' : Bool) (V : α → α → Prop) (x y : Read α) : Prop :=
  ∀ r r', L.Readers marked r r' → L.Outcomes marked' V (x r) (y r')

variable {L} {m m₁ m₂ : Bool} {V : α → α → Prop} {W : β → β → Prop}

theorem isBlank_eq (h : L.chars c d) : isBlank c = isBlank d := by
  by_cases hc : isWordChar c = true
  · have hd : isWordChar d = true := (L.isWordChar_eq h).symm.trans hc
    rw [(Text.isWordChar_iff.1 hc).1, (Text.isWordChar_iff.1 hd).1]
  · rw [L.eq_of_not_wordChar h ((Bool.not_eq_true _).mp hc)]

theorem eq_iff_of_not_wordChar {b : Char} (h : L.chars c d) (hb : isWordChar b = false) :
    c = b ↔ d = b := by
  constructor
  · rintro rfl
    exact (L.eq_of_not_wordChar h hb).symm
  · rintro rfl
    exact L.eq_of_not_wordChar h ((L.isWordChar_eq h).trans hb)

theorem lowercase_eq {v w : String} (h : L.Words v w) : lowercase v = lowercase w := by
  refine String.toList_inj.1 ?_
  rw [lowercase, lowercase, String.toList_map, String.toList_map]
  have hmap {cs ds : List Char} (h : List.Forall₂ L.chars cs ds) :
      cs.map Char.toLower = ds.map Char.toLower := by
    induction h with
    | nil => rfl
    | cons hc _ ih => rw [List.map_cons, List.map_cons, ih, L.toLower_eq hc]
  exact hmap h

theorem Outcomes.weaken {V : α → α → Prop} {o o' : Except SceneError α × Reader}
    (h : L.Outcomes m V o o') : L.Outcomes false V o o' := by
  cases h with
  | ok hv hr => exact .ok hv { hr with tokenStart := nofun }
  | error he => exact .error he

theorem Readers.pass {r r' : Reader} (h : L.Readers m r r') (hc : r.lookahead = some c)
    (hd : r'.lookahead = some d) : L.Readers m (r.pass c) (r'.pass d) := by
  have hu := h.upcoming
  simp only [Reader.upcoming, hc, hd] at hu
  cases hu with
  | cons he hrest =>
    cases he with
    | char hcd => exact ⟨hrest, L.advance hcd h.position, h.tokenStart⟩

theorem unread_of_pause {r : Reader} {rest : List Event} (h : r.upcoming = .pause :: rest) :
    ({ r with unread := rest } : Reader).upcoming = rest := by
  unfold Reader.upcoming at h ⊢
  rcases hl : r.lookahead with _ | c
  · rfl
  · rw [hl] at h
    cases h

/-! ## Steps -/

namespace Alike

theorem pure {a b : α} (h : V a b) : L.Alike m m V (pure a) (pure b) :=
  fun _ _ hr => .ok h hr

theorem bind {x y : Read α} {f g : α → Read β} (hx : L.Alike m m₁ V x y)
    (hf : ∀ {a b}, V a b → L.Alike m₁ m₂ W (f a) (g b)) :
    L.Alike m m₂ W (x >>= f) (y >>= g) := by
  intro r r' hr
  have h := hx r r' hr
  rw [Read.bind_apply, Read.bind_apply]
  rcases hxr : x r with ⟨e | a, r₁⟩ <;> rcases hyr : y r' with ⟨e' | b, r₁'⟩ <;>
    rw [hxr, hyr] at h
  · cases h with
    | error he => exact .error he
  · cases h
  · cases h
  · cases h with
    | ok hv hr => exact hf hv _ _ hr

theorem bindSame {x y : Read α} {f g : α → Read β} (hx : L.Alike m m₁ Eq x y)
    (hf : ∀ a, L.Alike m₁ m₂ W (f a) (g a)) : L.Alike m m₂ W (x >>= f) (y >>= g) :=
  hx.bind fun {a _} hab => hab ▸ hf a

theorem reject {f g : Fault} {p q : Position} (hf : L.Faults f g) (hp : L.places p q) :
    L.Alike m m₁ V (Read.reject f p) (Read.reject g q) :=
  fun _ _ _ => .error (.rejected hf hp)

theorem position : L.Alike m m L.places Read.position Read.position :=
  fun _ _ hr => .ok hr.position hr

theorem tokenStart : L.Alike true true L.places Read.tokenStart Read.tokenStart :=
  fun _ _ hr => .ok (hr.tokenStart rfl) hr

theorem mark : L.Alike m true L.places Read.mark Read.mark :=
  fun _ _ hr => .ok hr.position { hr with tokenStart := fun _ => hr.position }

theorem peek : L.Alike m m (Option.Rel L.chars) Read.peek Read.peek := by
  intro r r' hr
  have hu := hr.upcoming
  unfold Read.peek
  rcases hev : r.upcoming with _ | ⟨e, events⟩ <;>
    rcases hev' : r'.upcoming with _ | ⟨e', events'⟩ <;> rw [hev, hev'] at hu
  · exact .ok .none hr
  · cases hu
  · cases hu
  · cases hu with
    | cons he hevents =>
      cases he with
      | char h => exact .ok (.some h) ⟨.cons (.char h) hevents, hr.position, hr.tokenStart⟩
      | failure cause => exact .error (.unreadable cause)
      | pause =>
        refine .ok .none ⟨?_, hr.position, hr.tokenStart⟩
        rw [unread_of_pause hev, unread_of_pause hev']
        exact hevents

theorem bump : L.Alike m m (Option.Rel L.chars) Read.bump Read.bump := by
  intro r r' hr
  have h := peek r r' hr
  unfold Read.bump
  rcases hxr : Read.peek r with ⟨e | a, r₁⟩ <;> rcases hyr : Read.peek r' with ⟨e' | b, r₁'⟩ <;>
    rw [hxr, hyr] at h
  · cases h with
    | error he => exact .error he
  · cases h
  · cases h
  · cases h with
    | ok hv hr =>
      cases hv with
      | none => exact .ok .none hr
      | some hc =>
        exact .ok (.some hc) (hr.pass (Read.lookahead_of_peek hxr) (Read.lookahead_of_peek hyr))

theorem runOf {p : Char → Bool} (hp : ∀ {c d}, L.chars c d → p c = p d) {start start' : Position}
    (hstart : m = true → L.places start start') {events events' : List Event}
    (h : List.Forall₂ L.Events events events') {q q' : Position} (hq : L.places q q') :
    L.Outcomes m (List.Forall₂ L.chars) (Read.runOf p start events q)
      (Read.runOf p start' events' q') := by
  induction h generalizing q q' with
  | nil => exact .ok .nil ⟨.nil, hq, hstart⟩
  | @cons _ _ events events' he hrest ih =>
    cases he with
    | @char c d hc =>
      rw [Read.runOf, Read.runOf, hp hc]
      split_ifs
      · have ih := ih (L.advance hc hq)
        rcases hr : Read.runOf p start events (q.advance c) with ⟨e | cs, r⟩ <;>
          rcases hr' : Read.runOf p start' events' (q'.advance d) with ⟨e' | ds, r'⟩ <;>
          rw [hr, hr'] at ih <;> cases ih
        · exact .error ‹_›
        · exact .ok (.cons hc ‹_›) ‹_›
      · exact .ok .nil ⟨.cons (.char hc) hrest, hq, hstart⟩
    | failure cause => exact .error (.unreadable cause)
    | pause => exact .ok .nil ⟨hrest, hq, hstart⟩

theorem takeWhile {p : Char → Bool} (hp : ∀ {c d}, L.chars c d → p c = p d) :
    L.Alike m m (List.Forall₂ L.chars) (Read.takeWhile p) (Read.takeWhile p) :=
  fun _ _ hr => runOf hp hr.tokenStart hr.upcoming hr.position

theorem withFault {x y : Read α} (fault : Fault) (h : L.Alike m m₁ V x y) :
    L.Alike m m₁ V (Read.withFault fault x) (Read.withFault fault y) := by
  intro r r' hr
  have h := h r r' hr
  rw [Read.withFault_apply, Read.withFault_apply]
  rcases hxr : x r with ⟨e | a, r₁⟩ <;> rcases hyr : y r' with ⟨e' | b, r₁'⟩ <;>
    rw [hxr, hyr] at h <;> cases h
  · rename_i he
    refine .error ?_
    cases he with
    | rejected _ hp => exact .rejected (.same fault) hp
    | tooDeep limit hp => exact .tooDeep limit hp
    | unreadable cause => exact .unreadable cause
  · exact .ok ‹_› ‹_›

theorem rejectAtStart (fault : Fault) : L.Alike true m V
    (Read.tokenStart >>= fun at_ => Read.reject fault at_)
    (Read.tokenStart >>= fun at_ => Read.reject fault at_) :=
  tokenStart.bind fun hp => reject (.same fault) hp

theorem rejectHere (fault : Fault) : L.Alike m m₁ V
    (Read.position >>= fun at_ => Read.reject fault at_)
    (Read.position >>= fun at_ => Read.reject fault at_) :=
  position.bind fun hp => reject (.same fault) hp

/-! ## Words and values -/

theorem skipBlanks : L.Alike m m Eq Read.skipBlanks Read.skipBlanks :=
  (takeWhile isBlank_eq).bind fun _ => pure rfl

theorem peekChar : L.Alike m m (Option.Rel L.chars) Read.peekChar Read.peekChar :=
  skipBlanks.bind fun _ => peek

theorem readChar : L.Alike m true (Option.Rel L.chars) Read.readChar Read.readChar :=
  skipBlanks.bind fun _ => mark.bind fun _ => bump

theorem readToken (what : String) :
    L.Alike m true L.Tokens (Read.readToken what) (Read.readToken what) := by
  refine skipBlanks.bind fun _ => mark.bind fun hp => (takeWhile L.isWordChar_eq).bind fun hw => ?_
  cases hw with
  | nil =>
    refine peek.bind fun hnext => ?_
    cases hnext with
    | none => exact reject (.same _) hp
    | some hc => exact reject (.char what hc) hp
  | cons hc hcs =>
    refine pure ⟨?_, hp⟩
    simp only [Words, String.toList_ofList]
    exact .cons hc hcs

theorem readNumber (what : String) :
    L.Alike m true Eq (Read.readNumber what) (Read.readNumber what) := by
  refine (readToken what).bind fun {a b} ht => ?_
  rw [L.finite?_eq ht.text]
  split
  · exact pure rfl
  · exact reject (.word what ht.text) ht.position

/-- Whether a bracket comes next is the same for both. -/
theorem eq_some_iff {next next' : Option Char} {b : Char} (h : Option.Rel L.chars next next')
    (hb : isWordChar b = false) : next = some b ↔ next' = some b := by
  cases h with
  | none => exact Iff.rfl
  | some hc => rw [Option.some.injEq, Option.some.injEq, eq_iff_of_not_wordChar hc hb]

theorem ifOpening {x y : Read α} (hx : L.Alike m m₁ V x x) (hy : L.Alike m m₁ V y y) :
    L.Alike m m₁ V
    (Read.peekChar >>= fun next => if next = some '[' then x else y)
    (Read.peekChar >>= fun next => if next = some '[' then x else y) := by
  refine peekChar.bind fun {next next'} hnext => ?_
  rw [ite_cond_congr (propext (eq_some_iff hnext rfl))]
  split_ifs
  · exact hx
  · exact hy

/-! ## Expressions -/

theorem expectChar {b : Char} (hb : isWordChar b = false) (fault : Fault) :
    L.Alike m true Eq (Read.expectChar b fault) (Read.expectChar b fault) := by
  refine readChar.bind fun {next next'} hnext => ?_
  rw [ite_cond_congr (propext (eq_some_iff hnext hb))]
  split_ifs
  · exact pure rfl
  · exact rejectAtStart fault

theorem readName : L.Alike m true Eq Read.readName Read.readName := by
  refine readChar.bind fun {next next'} hnext => ?_
  have htag : next.bind Tag.ofChar? = next'.bind Tag.ofChar? := by
    cases hnext with
    | none => rfl
    | some hc => exact L.tag_eq hc
  rw [htag]
  split
  · exact rejectAtStart _
  · refine (readToken _).bind fun {a b} ht => ?_
    rw [lowercase_eq ht.text]
    split
    · exact pure rfl
    · exact reject (.same _) ht.position

theorem readCombiner : L.Alike m true Eq Read.readCombiner Read.readCombiner := by
  refine (withFault _ (readToken _)).bind fun {a b} ht => ?_
  rw [Combiner.ofWord?, Combiner.ofWord?, lowercase_eq ht.text]
  split
  · exact pure rfl
  · exact reject (.same _) ht.position

theorem expectEnd : L.Alike m m Eq Read.expectEnd Read.expectEnd := by
  refine peekChar.bind fun hnext => ?_
  cases hnext with
  | none => exact pure rfl
  | some => exact rejectHere _

theorem tooDeep (limit : ℕ) : L.Alike m m₁ V
    (Read.peekChar >>= fun _ => Read.position >>= fun at_ => Read.fail (.tooDeep limit at_))
    (Read.peekChar >>= fun _ => Read.position >>= fun at_ => Read.fail (.tooDeep limit at_)) :=
  peekChar.bind fun _ => position.bind fun hp _ _ _ => .error (.tooDeep limit hp)

theorem unmarked {x y : Read α} (h : L.Alike false m V x y) : L.Alike true m V x y :=
  fun r r' hr => h r r' { hr with tokenStart := nofun }

/-- Actions that go from lexeme to lexeme have the same results. -/
theorem staged {s t : Read.Stage} {x : Read α} (h : Read.Staged s t x) :
    L.Alike s.marked t.marked Eq x x := by
  induction h with
  | pure a => exact pure rfl
  | bind _ _ ihx ihf => exact ihx.bindSame ihf
  | unmarked _ ih => exact ih.unmarked
  | unnamed _ _ ih => exact ih
  | rejectAtStart fault => exact rejectAtStart fault
  | tooDeep limit => exact tooDeep limit
  | ifOpening _ _ ihx ihy => exact ifOpening ihx ihy
  | expectOpening fault | expectClosing fault => exact expectChar rfl fault
  | expectEnd => exact expectEnd
  | readName _ ih => exact readName.bindSame ih
  | readNumber what => exact readNumber what
  | readCombiner => exact readCombiner

theorem construct (limit : ℕ) :
    L.Alike m true Eq (Read.construct limit) (Read.construct limit) := by
  cases m
  · exact staged (.construct limit)
  · exact staged (.unmarked (.construct limit))

theorem whole (limit : ℕ) : L.Alike m true Eq (Read.whole limit) (Read.whole limit) :=
  (construct limit).bindSame fun _ => expectEnd.bindSame fun _ => pure rfl

theorem proceed (limit : ℕ) {behind : Read (List Scene)} (h : L.Alike true false Eq behind behind)
    {next next' : Option Char} (hnext : Option.Rel L.chars next next') :
    L.Alike m false Eq (Read.proceed limit behind next) (Read.proceed limit behind next') := by
  cases hnext with
  | none => exact fun _ _ hr => (Outcomes.ok rfl hr).weaken
  | some => exact (construct limit).bindSame fun _ => h.bindSame fun _ => pure rfl

theorem rounds (limit : ℕ) : ∀ {m : Bool} (n : ℕ),
    L.Alike m false Eq (Read.rounds limit n) (Read.rounds limit n)
  | _, 0 => fun _ _ hr => (Outcomes.ok rfl hr).weaken
  | _, n + 1 => peekChar.bind fun hnext => proceed limit (rounds limit n) hnext

theorem constructAll (limit : ℕ) :
    L.Alike m false Eq (Read.constructAll limit) (Read.constructAll limit) := by
  intro r r' hr
  have hlt : r.remaining < max r.remaining r'.remaining + 1 := by omega
  have hlt' : r'.remaining < max r.remaining r'.remaining + 1 := by omega
  rw [Read.constructAll_eq_rounds limit hlt, Read.constructAll_eq_rounds limit hlt']
  exact rounds limit _ r r' hr

end Alike

end Likeness

end SolidScene
