import SolidScene.Proofs.Scene.Facing
import SolidScene.Proofs.Scene.Spelling
import SolidScene.Proofs.Scene.Stages
import SolidScene.Proofs.Scene.Steps

/-!
# Layout and spelling

What a text is read as depends on its lexemes only, and of the words for names and combiners only on
what they stand for. So texts that are cut into the same lexemes, up to such words, hold the same
scene or have the same fault, at places that stand for each other (`Scene.parse_of_respelled`). The
two readings go from lexeme to lexeme together: at every stage both readers stand before lexemes of
the same number (`Respelled.AtStage`, `Respelled.staged`).
-/

namespace SolidScene

open Text (Position Lexeme lexemes placed next placeOf endOf)
open Grammar (Heading)

/-- The same result, or the same error at places that `R` relates. -/
inductive Scene.SameUpTo (R : Position → Position → Prop) {α : Type} :
    Except SceneError α → Except SceneError α → Prop
  | ok (a : α) : SameUpTo R (.ok a) (.ok a)
  | rejected (fault : Fault) {p p' : Position} (h : R p p') :
    SameUpTo R (.error (.rejected fault p)) (.error (.rejected fault p'))
  | tooDeep (limit : ℕ) {p p' : Position} (h : R p p') :
    SameUpTo R (.error (.tooDeep limit p)) (.error (.tooDeep limit p'))

namespace Respelled

/-! ## Outcomes of both readings -/

/-- Results and readers that `S` relates, or the same error at places that `R` relates. -/
inductive Outcomes (R : Position → Position → Prop) {α : Type}
    (S : α → α → Reader → Reader → Prop) :
    Except SceneError α × Reader → Except SceneError α × Reader → Prop
  | ok {a b : α} {r r' : Reader} (h : S a b r r') : Outcomes R S (.ok a, r) (.ok b, r')
  | rejected (fault : Fault) {p p' : Position} {r r' : Reader} (h : R p p') :
    Outcomes R S (.error (.rejected fault p), r) (.error (.rejected fault p'), r')
  | tooDeep (limit : ℕ) {p p' : Position} {r r' : Reader} (h : R p p') :
    Outcomes R S (.error (.tooDeep limit p), r) (.error (.tooDeep limit p'), r')

/-- The same result, and readers that `P` relates. -/
def Same {α : Type} (P : α → Reader → Reader → Prop) (a b : α) (r r' : Reader) : Prop :=
  a = b ∧ P a r r'

namespace Outcomes

variable {R : Position → Position → Prop} {α β : Type} {S : α → α → Reader → Reader → Prop}
  {T : β → β → Reader → Reader → Prop} {r r' : Reader}

theorem bind {x : Read α} {f : α → Read β} (hx : Outcomes R S (x r) (x r'))
    (hf : ∀ {a b r r'}, S a b r r' → Outcomes R T (f a r) (f b r')) :
    Outcomes R T ((x >>= f) r) ((x >>= f) r') := by
  rw [Read.bind_apply, Read.bind_apply]
  rcases hxr : x r with ⟨o, r₁⟩
  rcases hxr' : x r' with ⟨o', r₁'⟩
  rw [hxr, hxr'] at hx
  cases hx with
  | ok h => exact hf h
  | rejected fault h => exact .rejected fault h
  | tooDeep limit h => exact .tooDeep limit h

theorem imp {S' : α → α → Reader → Reader → Prop} {o o' : Except SceneError α × Reader}
    (h : Outcomes R S o o') (hS : ∀ {a b r r'}, S a b r r' → S' a b r r') : Outcomes R S' o o' := by
  cases h with
  | ok h => exact .ok (hS h)
  | rejected fault h => exact .rejected fault h
  | tooDeep limit h => exact .tooDeep limit h

theorem withFault {x : Read α} (fault : Fault) (hx : Outcomes R S (x r) (x r')) :
    Outcomes R S (Read.withFault fault x r) (Read.withFault fault x r') := by
  rw [Read.withFault_apply, Read.withFault_apply]
  rcases hxr : x r with ⟨o, r₁⟩
  rcases hxr' : x r' with ⟨o', r₁'⟩
  rw [hxr, hxr'] at hx
  cases hx with
  | ok h => exact .ok h
  | rejected _ h => exact .rejected fault h
  | tooDeep limit h => exact .tooDeep limit h

theorem sameUpTo {P : α → Reader → Reader → Prop} {o o' : Except SceneError α × Reader}
    (h : Outcomes R (Same P) o o') : Scene.SameUpTo R o.1 o'.1 := by
  cases h with
  | ok h => exact h.1 ▸ .ok _
  | rejected fault h => exact .rejected fault h
  | tooDeep limit h => exact .tooDeep limit h

end Outcomes

section Texts

variable (text text' : List Char)

/-! ## Stages of both readings -/

/-- Two readers before lexemes of the same numbers. -/
structure Abreast (ps ps' : List (Lexeme × Position)) (r r' : Reader) : Prop where
  left : r.Facing ps (endOf text)
  right : r'.Facing ps' (endOf text')
  along : Along text text' ps ps'

/-- Two readers before the same lexemes, up to their spelling. -/
def BeforeSame (r r' : Reader) : Prop :=
  ∃ ps ps', Abreast text text' ps ps' r r' ∧ Respelled (ps.map Prod.fst) (ps'.map Prod.fst)

/-- What holds of two readers at a stage. -/
def AtStage : Read.Stage → Reader → Reader → Prop
  | .fresh, r, r' => BeforeSame text text' r r'
  | .between, r, r' =>
    BeforeSame text text' r r' ∧ Landmarks text text' r.tokenStart r'.tokenStart
  | .opened, r, r' => ∃ p p' ps ps', r.Facing ps (endOf text) ∧ r'.Facing ps' (endOf text') ∧
      Along text text' ((.opening, p) :: ps) ((.opening, p') :: ps') ∧
      Inside (ps.map Prod.fst) (ps'.map Prod.fst)
  | .named name, r, r' => ∃ ps ps', Abreast text text' ps ps' r r' ∧
      Body name (ps.map Prod.fst) (ps'.map Prod.fst) ∧
      Landmarks text text' r.tokenStart r'.tokenStart

/-- The words that `V` relates were read, with what is behind them. -/
inductive Tokens (V : List Char → List Char → List Lexeme → List Lexeme → Prop) :
    Read.Token → Read.Token → Reader → Reader → Prop
  | intro {w w' : List Char} {ps ps' : List (Lexeme × Position)} {r r' : Reader}
    (hwords : V w w' (ps.map Prod.fst) (ps'.map Prod.fst)) (h : Abreast text text' ps ps' r r')
    (hmark : Landmarks text text' r.tokenStart r'.tokenStart) :
    Tokens V ⟨String.ofList w, r.tokenStart⟩ ⟨String.ofList w', r'.tokenStart⟩ r r'

variable {text text'} {α : Type} {r r' : Reader}

theorem readToken {V : List Char → List Char → List Lexeme → List Lexeme → Prop} (what : String)
    {ps ps' : List (Lexeme × Position)} (hr : r.Facing ps (endOf text))
    (hr' : r'.Facing ps' (endOf text'))
    (hplace : Landmarks text text' (placeOf (endOf text) ps) (placeOf (endOf text') ps'))
    (htail : Along text text' ps.tail ps'.tail)
    (hnext : Next V (ps.map Prod.fst) (ps'.map Prod.fst)) :
    Outcomes (Landmarks text text') (Tokens text text' V) (Read.readToken what r)
      (Read.readToken what r') := by
  generalize hls : ps.map Prod.fst = ls at hnext
  generalize hls' : ps'.map Prod.fst = ls' at hnext
  cases hnext with
  | word hwords =>
    obtain ⟨⟨_, p⟩, qs, rfl, rfl, rfl⟩ := List.map_eq_cons_iff.1 hls
    obtain ⟨⟨_, p'⟩, qs', rfl, rfl, rfl⟩ := List.map_eq_cons_iff.1 hls'
    obtain ⟨r₁, hread, h₁, rfl⟩ := Read.readToken_word hr what
    obtain ⟨r₁', hread', h₁', rfl⟩ := Read.readToken_word hr' what
    rw [hread, hread']
    exact .ok (.intro hwords ⟨h₁, h₁', htail⟩ hplace)
  | other hhead hword =>
    subst hls hls'
    obtain ⟨r₁, hread⟩ := Read.readToken_other hr hword what
    obtain ⟨r₁', hread'⟩ := Read.readToken_other hr' (hhead ▸ hword) what
    rw [hread, hread', next_eq_of_head? hhead]
    exact .rejected _ hplace

theorem readNumber (what : String) (h : BeforeSame text text' r r') :
    Outcomes (Landmarks text text') (Same fun _ => AtStage text text' .between)
      (Read.readNumber what r) (Read.readNumber what r') := by
  obtain ⟨ps, ps', ⟨hr, hr', halong⟩, hsame⟩ := h
  have hnext : Next SameWord (ps.map Prod.fst) (ps'.map Prod.fst) := hsame.toNext fun h => ⟨rfl, h⟩
  refine (readToken what hr hr' (halong.landmarks_next hnext) halong.tail hnext).bind ?_
  rintro _ _ r r' ⟨⟨rfl, hsame⟩, h, hmark⟩
  dsimp only
  cases Number.finite? (String.ofList _).toList with
  | none => exact .rejected _ hmark
  | some x => exact .ok ⟨rfl, ⟨_, _, h, hsame⟩, hmark⟩

theorem readCombiner (h : AtStage text text' (.named (.operation .boolean)) r r') :
    Outcomes (Landmarks text text') (Same fun _ => AtStage text text' .between)
      (Read.readCombiner r) (Read.readCombiner r') := by
  obtain ⟨ps, ps', ⟨hr, hr', halong⟩, hbody, -⟩ := h
  have hnext := hbody.toNext
  refine ((readToken _ hr hr' (halong.landmarks_next hnext) halong.tail hnext).withFault _).bind ?_
  rintro _ _ r r' ⟨⟨hword, hsame⟩, h, hmark⟩
  dsimp only
  rw [hword]
  cases Combiner.ofWord? (String.ofList _) with
  | none => exact .rejected _ hmark
  | some combiner => exact .ok ⟨rfl, ⟨_, _, h, hsame⟩, hmark⟩

/-- Reads the name behind a tag. -/
def readNameOf (tag : Tag) : Read Name := do
  let token ← Read.readToken tag.expects
  match tag.lookup (lowercase token.text) with
  | some name => return name
  | none => Read.reject (.unknownName tag (lowercase token.text)) token.position

theorem readName_eq : Read.readName = Read.readChar >>= fun next =>
    match next.bind Tag.ofChar? with
    | none => Read.tokenStart >>= fun at_ => Read.reject .missingTag at_
    | some tag => readNameOf tag := rfl

theorem readName (h : AtStage text text' .opened r r') :
    Outcomes (Landmarks text text') (Same fun name => AtStage text text' (.named name))
      (Read.readName r) (Read.readName r') := by
  obtain ⟨p, p', ps, ps', hr, hr', halong, hinside⟩ := h
  obtain ⟨r₁, hread, h₁, hmark⟩ := Read.readChar_facing hr
  obtain ⟨r₁', hread', h₁', hmark'⟩ := Read.readChar_facing hr'
  rw [readName_eq, Read.bind_of_ok hread, Read.bind_of_ok hread']
  rcases hinside.cases_tag halong with ⟨hnext, hnext', hplace⟩ |
    ⟨tag, hnext, hnext', hplace, htail, hwords⟩ <;> rw [hnext, hnext']
  · rw [← hmark, ← hmark'] at hplace
    exact .rejected _ hplace
  · refine (readToken tag.expects h₁ h₁' hplace htail hwords).bind ?_
    rintro _ _ r r' ⟨hname, h, hmark⟩
    dsimp only
    cases hname with
    | same hsame =>
      cases tag.lookup (lowercase (String.ofList _)) with
      | none => exact .rejected _ hmark
      | some name => exact .ok ⟨rfl, _, _, h, .same hsame, hmark⟩
    | name hw hw' hbody =>
      rw [hw, hw']
      exact .ok ⟨rfl, _, _, h, hbody, hmark⟩

theorem peekChar (h : BeforeSame text text' r r') :
    Outcomes (Landmarks text text')
      (Same fun _ r₁ r₁' => BeforeSame text text' r₁ r₁' ∧
        Landmarks text text' r₁.position r₁'.position ∧
        r₁.tokenStart = r.tokenStart ∧ r₁'.tokenStart = r'.tokenStart)
      (Read.peekChar r) (Read.peekChar r') := by
  obtain ⟨ps, ps', ⟨hr, hr', halong⟩, hsame⟩ := h
  obtain ⟨r₁, hpeek, h₁, hplace, hmark⟩ := Read.peekChar_facing hr
  obtain ⟨r₁', hpeek', h₁', hplace', hmark'⟩ := Read.peekChar_facing hr'
  rw [hpeek, hpeek', next_eq_of_head? hsame.head?_eq]
  refine .ok ⟨rfl, ⟨ps, ps', ⟨h₁, h₁', halong⟩, hsame⟩, ?_, hmark, hmark'⟩
  rw [hplace, hplace']
  exact halong.landmarks hsame.head?_eq

theorem ifOpening {T : α → α → Reader → Reader → Prop} {x y : Read α}
    (h : AtStage text text' .between r r')
    (hx : ∀ {r r'}, AtStage text text' .between r r' →
      Outcomes (Landmarks text text') T (x r) (x r'))
    (hy : ∀ {r r'}, AtStage text text' .between r r' →
      Outcomes (Landmarks text text') T (y r) (y r')) :
    Outcomes (Landmarks text text') T
      ((Read.peekChar >>= fun next => if next = some '[' then x else y) r)
      ((Read.peekChar >>= fun next => if next = some '[' then x else y) r') := by
  refine (peekChar h.1).bind ?_
  rintro next _ r₁ r₁' ⟨rfl, hsame, -, hmark, hmark'⟩
  have hbetween : AtStage text text' .between r₁ r₁' := ⟨hsame, by rw [hmark, hmark']; exact h.2⟩
  split_ifs
  · exact hx hbetween
  · exact hy hbetween

theorem expectEnd (h : AtStage text text' .between r r') :
    Outcomes (Landmarks text text') (Same fun _ => AtStage text text' .between)
      (Read.expectEnd r) (Read.expectEnd r') := by
  refine (peekChar h.1).bind ?_
  rintro next _ r₁ r₁' ⟨rfl, hsame, hplace, hmark, hmark'⟩
  cases next with
  | none => exact .ok ⟨rfl, hsame, by rw [hmark, hmark']; exact h.2⟩
  | some c => exact .rejected _ hplace

/-- Both readers pass a bracket, or both fail where another lexeme begins. -/
theorem expectChar {l : Lexeme} {b : Char} (hl : l.Bracket b) (fault : Fault)
    (h : BeforeSame text text' r r') :
    Outcomes (Landmarks text text')
      (Same fun _ r r' => ∃ ps ps', r.Facing ps (endOf text) ∧ r'.Facing ps' (endOf text') ∧
        Along text text' ((l, r.tokenStart) :: ps) ((l, r'.tokenStart) :: ps') ∧
        Respelled (l :: ps.map Prod.fst) (l :: ps'.map Prod.fst))
      (Read.expectChar b fault r) (Read.expectChar b fault r') := by
  obtain ⟨ps, ps', ⟨hr, hr', halong⟩, hsame⟩ := h
  obtain ⟨r₁, hread, h₁, hmark⟩ := Read.readChar_facing hr
  obtain ⟨r₁', hread', h₁', hmark'⟩ := Read.readChar_facing hr'
  have hnext := next_eq_of_head? hsame.head?_eq
  unfold Read.expectChar
  rw [Read.bind_of_ok hread, Read.bind_of_ok hread', ← hnext]
  by_cases hb : next ps = some b
  · obtain ⟨p, qs, rfl⟩ := hr.exists_of_next hl hb
    obtain ⟨p', qs', rfl⟩ := hr'.exists_of_next hl (hnext ▸ hb)
    obtain rfl : r₁.tokenStart = p := hmark
    obtain rfl : r₁'.tokenStart = p' := hmark'
    rw [if_pos hb]
    rw [hl.behindChar_cons] at h₁ h₁'
    exact .ok ⟨rfl, qs, qs', h₁, h₁', halong, hsame⟩
  · have hplace := halong.landmarks hsame.head?_eq
    rw [← hmark, ← hmark'] at hplace
    rw [if_neg hb]
    exact .rejected fault hplace

/-! ## Whole texts -/

/-- Actions that go from lexeme to lexeme keep both readers together. -/
theorem staged {s t : Read.Stage} {x : Read α} (h : Read.Staged s t x) :
    ∀ {r r' : Reader}, AtStage text text' s r r' →
      Outcomes (Landmarks text text') (Same fun _ => AtStage text text' t) (x r) (x r') := by
  induction h with
  | pure a => exact fun hr => .ok ⟨rfl, hr⟩
  | bind _ _ ihx ihf =>
    refine fun hr => (ihx hr).bind ?_
    rintro a _ r r' ⟨rfl, hr⟩
    exact ihf a hr
  | unmarked _ ih => exact fun hr => ih hr.1
  | unnamed hname _ ih =>
    exact fun ⟨_, _, h, hbody, hmark⟩ => ih ⟨⟨_, _, h, hbody.of_ne hname⟩, hmark⟩
  | rejectAtStart fault => exact fun hr => .rejected fault hr.2
  | tooDeep limit =>
    refine fun hr => (peekChar hr).bind ?_
    rintro _ _ r r' ⟨-, -, hplace, -⟩
    exact .tooDeep limit hplace
  | ifOpening _ _ ihx ihy => exact fun hr => ifOpening hr ihx ihy
  | expectOpening fault =>
    refine fun hr => (expectChar (b := '[') .opening fault hr).imp ?_
    rintro _ _ r r' ⟨rfl, ps, ps', h, h', halong, hsame⟩
    exact ⟨rfl, _, _, ps, ps', h, h', halong, hsame.inside⟩
  | expectClosing fault =>
    refine fun hr => (expectChar (b := ']') .closing fault hr.1).imp ?_
    rintro _ _ r r' ⟨rfl, ps, ps', h, h', halong, hsame⟩
    exact ⟨rfl, ⟨ps, ps', ⟨h, h', halong.tail⟩, hsame.behind (by simp)⟩, halong.landmarks_lexeme⟩
  | expectEnd => exact expectEnd
  | readName _ ih =>
    refine fun hr => (readName hr).bind ?_
    rintro name _ r r' ⟨rfl, hr⟩
    exact ih name hr
  | readNumber what => exact fun hr => readNumber what hr.1
  | readCombiner => exact readCombiner

theorem beforeSame_ofText {text text' : String}
    (h : Respelled (lexemes text.toList) (lexemes text'.toList)) :
    BeforeSame text.toList text'.toList (.ofEvents (Source.ofText text))
      (.ofEvents (Source.ofText text')) := by
  have hfacing (text : String) : (Reader.ofEvents (Source.ofText text)).Facing
      (placed .start text.toList) (endOf text.toList) :=
    ⟨.start, text.toList, Reader.at_ofText text, rfl, Text.past_start text.toList⟩
  refine ⟨_, _, ⟨hfacing text, hfacing text', 0, rfl, rfl⟩, ?_⟩
  rwa [Text.map_fst_placed, Text.map_fst_placed]

end Texts

end Respelled

namespace Scene

/-- Texts that are cut into the same lexemes, up to the words for names and combiners, hold the same
scene, or have the same fault at places that stand for each other. -/
theorem parse_of_respelled (limit : ℕ) {text text' : String}
    (h : Respelled (lexemes text.toList) (lexemes text'.toList)) :
    SameUpTo (Landmarks text.toList text'.toList) (parse limit text) (parse limit text') :=
  (Respelled.staged (.whole limit) (Respelled.beforeSame_ofText h)).sameUpTo

/-- Another layout and other words move a fault with the lexeme that has it. -/
theorem parse_of_respelled_reflowed :
    let text := "[%boolean sub [%matrix 1 x"
    let text' := "[ %boolean -\n\n[\t%transrot 1 x"
    Respelled (lexemes text.toList) (lexemes text'.toList) ∧
      parse 2 text = .error (.rejected (.expected "matrix value" (.word "x")) ⟨1, 26⟩) ∧
      parse 2 text' = .error (.rejected (.expected "matrix value" (.word "x")) ⟨3, 15⟩) ∧
      SameUpTo (Landmarks text.toList text'.toList) (parse 2 text) (parse 2 text') := by
  intro text text'
  have hheading {name : OperationName} {w : List Char} (hne : w ≠ [])
      (hw : Tag.operation.lookup (lowercase (String.ofList w)) = some (.operation name)) :
      Heading [.word ('%' :: w)] (.operation name) :=
    ⟨.operation, w, .glued hne, Tag.lookup_eq_some_iff.1 hw⟩
  have hboolean : Heading [.word "%boolean".toList] (.operation .boolean) :=
    hheading (by decide) (by decide +kernel)
  have hmatrix : Heading [.word "%matrix".toList] (.operation .matrix) :=
    hheading (by decide) (by decide +kernel)
  have htransrot : Heading [.word "%transrot".toList] (.operation .matrix) :=
    hheading (by decide) (by decide +kernel)
  have hsub : Combiner.ofWord? (String.ofList "sub".toList) = some .subtract := by decide +kernel
  have hminus : Combiner.ofWord? (String.ofList "-".toList) = some .subtract := by decide +kernel
  have hls : lexemes text.toList = [.opening, .word "%boolean".toList, .word "sub".toList,
      .opening, .word "%matrix".toList, .word ['1'], .word ['x']] := by decide +kernel
  have hls' : lexemes text'.toList = [.opening, .word "%boolean".toList, .word "-".toList,
      .opening, .word "%transrot".toList, .word ['1'], .word ['x']] := by decide +kernel
  have h : Respelled (lexemes text.toList) (lexemes text'.toList) := by
    rw [hls, hls']
    exact .combiner hboolean hboolean rfl hsub hminus
      (.heading hmatrix htransrot rfl (.same _ (.same _ .nil)))
  exact ⟨h, by decide +kernel, by decide +kernel, parse_of_respelled 2 h⟩

end Scene

end SolidScene
