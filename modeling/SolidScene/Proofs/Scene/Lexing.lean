import SolidScene.Proofs.Scene.Facing
import SolidScene.Proofs.Text.Cut

/-!
# Lexing by hand

Looking ahead and then taking a bracket as a character and anything else as a word cuts a text into
its lexemes, with the places where they stand in it (`lexes_ofText`).
-/

namespace SolidScene.Read

open Text (Position Lexeme isBracket isWordChar placed next placeOf endOf)

variable {what : String}

/-- Character by character where brackets stand and word by word elsewhere, the reader yields these
tokens until it sees the end of the input. -/
inductive Lexes (what : String) : Reader → List Token → Reader → Prop
  | done {r r' : Reader} (hnext : peekChar r = (.ok none, r')) : Lexes what r [] r'
  | bracket {r r₁ r₂ r' : Reader} {c d : Char} {tokens : List Token}
    (hnext : peekChar r = (.ok (some c), r₁)) (hc : isBracket c = true)
    (hread : readChar r₁ = (.ok (some d), r₂)) (h : Lexes what r₂ tokens r') :
    Lexes what r (⟨String.singleton d, r₂.tokenStart⟩ :: tokens) r'
  | word {r r₁ r₂ r' : Reader} {c : Char} {token : Token} {tokens : List Token}
    (hnext : peekChar r = (.ok (some c), r₁)) (hc : isBracket c = false)
    (hread : readToken what r₁ = (.ok token, r₂)) (h : Lexes what r₂ tokens r') :
    Lexes what r (token :: tokens) r'

theorem Lexes.unique {r r' r'' : Reader} {tokens tokens' : List Token} (h : Lexes what r tokens r')
    (h' : Lexes what r tokens' r'') : tokens' = tokens ∧ r'' = r' := by
  induction h generalizing tokens' with
  | done hnext => cases h' <;> simp_all
  | bracket hnext hc hread _ ih =>
    cases h' with
    | done hnext' => simp_all
    | word hnext' hc' => simp_all
    | bracket hnext' hc' hread' h' =>
      obtain ⟨⟨⟩, rfl⟩ := Prod.mk.inj (hnext.symm.trans hnext')
      obtain ⟨⟨⟩, rfl⟩ := Prod.mk.inj (hread.symm.trans hread')
      obtain ⟨rfl, rfl⟩ := ih h'
      exact ⟨rfl, rfl⟩
  | word hnext hc hread _ ih =>
    cases h' with
    | done hnext' => simp_all
    | bracket hnext' hc' => simp_all
    | word hnext' hc' hread' h' =>
      obtain ⟨⟨⟩, rfl⟩ := Prod.mk.inj (hnext.symm.trans hnext')
      obtain ⟨⟨⟩, rfl⟩ := Prod.mk.inj (hread.symm.trans hread')
      obtain ⟨rfl, rfl⟩ := ih h'
      exact ⟨rfl, rfl⟩

/-- A lexeme as the token that is read for it. -/
def tokenOf : Lexeme × Position → Token
  | (l, p) => ⟨String.ofList l.chars, p⟩

theorem lexeme_of_facing {r : Reader} {l : Lexeme} {p e : Position} {ps : List (Lexeme × Position)}
    (h : r.Facing ((l, p) :: ps) e) :
    (∃ b, l.Bracket b) ∨ ∃ c w, l = .word (c :: w) ∧ isWordChar c = true := by
  obtain ⟨p₀, cs, -, hps, -⟩ := h
  rcases Text.placed_cases p₀ cs with ⟨-, hps'⟩ | ⟨l, b, rest, hl, -, hps'⟩ |
    ⟨c, rest, hc, -, hps'⟩ <;> rw [hps] at hps'
  · cases hps'
  · obtain ⟨⟨rfl, -⟩, -⟩ := hps'
    exact .inl ⟨b, hl⟩
  · obtain ⟨⟨rfl, -⟩, -⟩ := hps'
    exact .inr ⟨c, _, rfl, hc⟩

/-- Lexemes to come are read one by one. -/
theorem lexes_of_facing (what : String) {r : Reader} {ps : List (Lexeme × Position)} {e : Position}
    (h : r.Facing ps e) : ∃ r', Lexes what r (ps.map tokenOf) r' ∧ r'.Facing [] e := by
  induction ps generalizing r with
  | nil =>
    obtain ⟨r', hnext, h', -⟩ := peekChar_facing h
    exact ⟨r', .done hnext, h'⟩
  | cons lp ps ih =>
    obtain ⟨l, p⟩ := lp
    obtain ⟨r₁, hnext, h₁, -⟩ := peekChar_facing h
    rcases lexeme_of_facing h with ⟨b, hl⟩ | ⟨c, w, rfl, hc⟩
    · obtain ⟨r₂, hread, h₂, hstart⟩ := readChar_facing h₁
      rw [Text.next_cons, hl.chars_eq] at hnext hread
      rw [hl.behindChar_cons] at h₂
      obtain ⟨r', hrest, h'⟩ := ih h₂
      have hbracket : isBracket b = true := by
        cases hl <;> decide
      have htoken : tokenOf (l, p) = ⟨String.singleton b, r₂.tokenStart⟩ := by
        rw [tokenOf, hl.chars_eq, hstart, Text.placeOf_cons, String.singleton_eq_ofList]
      rw [List.map_cons, htoken]
      exact ⟨r', .bracket hnext hbracket hread hrest, h'⟩
    · obtain ⟨r₂, hread, h₂, -⟩ := readToken_word h₁ what
      obtain ⟨r', hrest, h'⟩ := ih h₂
      have hword : isBracket c = false := by
        simp only [isWordChar, Bool.and_eq_true, Bool.not_eq_true'] at hc
        exact hc.2
      exact ⟨r', .word hnext hword hread hrest, h'⟩

/-- The reader cuts a text into exactly its lexemes, each at its place, and finds no word behind
them. -/
theorem lexes_ofText (what text : String) :
    ∃ lexed r', Text.CutInto .start text.toList lexed ∧
      (∀ tokens r'', Lexes what (.ofEvents (Source.ofText text)) tokens r'' ↔
        tokens = lexed.map tokenOf ∧ r'' = r') ∧
      (∀ what', (Fault.expected what' .nothing).category = .malformed ∧ (readToken what' r').1 =
        .error (.rejected (.expected what' .nothing) (endOf text.toList))) ∧
      ((∀ c ∈ text.toList, isBracket c = false) →
        (lexed.map tokenOf).map Token.text = (Text.pieces text.toList).map String.ofList) := by
  have hfacing : (Reader.ofEvents (Source.ofText text)).Facing (placed .start text.toList)
      (endOf text.toList) := ⟨_, _, Reader.at_ofText text, rfl, Text.past_start _⟩
  obtain ⟨r', hlexes, hend⟩ := lexes_of_facing what hfacing
  refine ⟨_, r', Text.cut_placed _ _, fun tokens r'' => ⟨hlexes.unique, ?_⟩, fun what' => ⟨rfl, ?_⟩,
    fun hbrackets => ?_⟩
  · rintro ⟨rfl, rfl⟩
    exact hlexes
  · obtain ⟨r'', hread⟩ := readToken_other hend (by simp) what'
    rw [hread]
    rfl
  · rw [← Text.map_chars_lexemes hbrackets, ← Text.map_fst_placed .start, List.map_map,
      List.map_map, List.map_map]
    rfl

/-- A text without brackets, with more than one kind of blank. -/
theorem lexes_ofText_words :
    let text := "sphere\u00a0\t0\n-1.5 "
    ∃ tokens r', Lexes "word" (.ofEvents (Source.ofText text)) tokens r' ∧
      tokens.map Token.text = ["sphere", "0", "-1.5"] := by
  intro text
  obtain ⟨lexed, r', -, hlexes, -, hwords⟩ := lexes_ofText "word" text
  have hpieces : Text.pieces text.toList = ["sphere".toList, "0".toList, "-1.5".toList] := by
    decide +kernel
  refine ⟨_, r', (hlexes _ r').2 ⟨rfl, rfl⟩, ?_⟩
  rw [hwords (by simp [text, isBracket]), hpieces]
  simp

end SolidScene.Read
