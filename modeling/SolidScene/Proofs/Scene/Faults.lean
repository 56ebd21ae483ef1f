import SolidScene.Proofs.Scene.Acceptance
import SolidScene.Proofs.Scene.Facing

/-!
# Faults of single actions

What an action on a character, a word or a number finds wrong with a text, and where: behind the
blanks, where what it finds begins (`readNumber_error`, `readName_error`).
-/

namespace SolidScene

open Text (Position isBlank isBracket isWordChar isWordChar_iff)

/-- What is found stands at the front of these characters. -/
inductive Found.Shows : Found → List Char → Prop
  | word {cs : List Char} (h : cs.takeWhile isWordChar ≠ []) :
    Shows (.word (String.ofList (cs.takeWhile isWordChar))) cs
  | bracket {c : Char} {cs : List Char} (h : isBracket c = true) : Shows (.char c) (c :: cs)
  | nothing : Shows .nothing []

theorem Text.head?_dropWhile_isBlank (cs : List Char) :
    ∀ c ∈ (cs.dropWhile isBlank).head?, isBlank c = false := by
  intro c hc
  have h := List.head?_dropWhile_not isBlank cs
  rwa [hc] at h

/-- Where no word begins behind blanks, a bracket or the end is found. -/
theorem Found.shows_of_takeWhile_eq_nil {cs : List Char}
    (hblank : ∀ c ∈ cs.head?, isBlank c = false) (h : cs.takeWhile isWordChar = []) :
    Found.Shows (cs.head?.elim .nothing .char) cs := by
  cases cs with
  | nil => exact .nothing
  | cons c cs =>
    refine .bracket ?_
    have hc := hblank c rfl
    simp only [List.takeWhile_cons] at h
    simpa [isWordChar, hc] using h

namespace Read

variable {r r' : Reader} {p : Position} {cs : List Char} {e : SceneError} {what : String}

/-! ## Words and numbers -/

theorem readToken_error (h : r.At p cs) (hx : readToken what r = (.error e, r')) :
    ∃ found, found.Shows (cs.dropWhile isBlank) ∧
      e = .rejected (.expected what found) (p.past (cs.takeWhile isBlank)) := by
  obtain ⟨hfail, hread⟩ := readToken_at h what
  by_cases hw : (cs.dropWhile isBlank).takeWhile isWordChar = []
  · obtain ⟨r₁, herror⟩ := hfail hw
    cases herror.symm.trans hx
    exact ⟨_, Found.shows_of_takeWhile_eq_nil (Text.head?_dropWhile_isBlank cs) hw, rfl⟩
  · obtain ⟨r₁, hok, -⟩ := hread hw
    cases hok.symm.trans hx

theorem readToken_ok {token : Token} (h : r.At p cs) (hx : readToken what r = (.ok token, r')) :
    (cs.dropWhile isBlank).takeWhile isWordChar ≠ [] ∧
      token = ⟨String.ofList ((cs.dropWhile isBlank).takeWhile isWordChar),
        p.past (cs.takeWhile isBlank)⟩ ∧
      r'.tokenStart = p.past (cs.takeWhile isBlank) := by
  obtain ⟨hfail, hread⟩ := readToken_at h what
  by_cases hw : (cs.dropWhile isBlank).takeWhile isWordChar = []
  · obtain ⟨r₁, herror⟩ := hfail hw
    cases herror.symm.trans hx
  · obtain ⟨r₁, hok, -, htoken⟩ := hread hw
    cases hok.symm.trans hx
    exact ⟨hw, rfl, htoken⟩

theorem readNumber_error (h : r.At p cs) (hx : readNumber what r = (.error e, r')) :
    ∃ found, found.Shows (cs.dropWhile isBlank) ∧
      e = .rejected (.expected what found) (p.past (cs.takeWhile isBlank)) := by
  unfold readNumber at hx
  rw [bind_apply] at hx
  split at hx
  · rename_i token r₁ htoken
    obtain ⟨hw, rfl, -⟩ := readToken_ok h htoken
    simp only [String.toList_ofList] at hx
    rcases hy : Number.finite? ((cs.dropWhile isBlank).takeWhile isWordChar) with _ | y <;>
      rw [hy] at hx <;> cases hx
    exact ⟨_, .word hw, rfl⟩
  · rename_i e r₁ herror
    cases hx
    exact readToken_error h herror

theorem readNumber_ok {x : Float} (h : r.At p cs) (hx : readNumber what r = (.ok x, r')) :
    Number.finite? ((cs.dropWhile isBlank).takeWhile isWordChar) = some x ∧
      r'.tokenStart = p.past (cs.takeWhile isBlank) := by
  obtain ⟨token, r₁, htoken, hx⟩ := bind_eq_ok hx
  obtain ⟨-, rfl, hstart⟩ := readToken_ok h htoken
  simp only [String.toList_ofList] at hx
  rcases hy : Number.finite? ((cs.dropWhile isBlank).takeWhile isWordChar) with _ | y <;>
    rw [hy] at hx <;> cases hx
  exact ⟨rfl, hstart⟩

/-! ## Brackets, tags and names -/

/-- A character is read from behind the blanks, and its place is noted. -/
theorem readChar_marks (h : r.At p cs) : ∃ r',
    readChar r = (.ok (cs.dropWhile isBlank).head?, r') ∧
      r'.At ((p.past (cs.takeWhile isBlank)).past (cs.dropWhile isBlank).head?.toList)
        (cs.dropWhile isBlank).tail ∧
      r'.tokenStart = p.past (cs.takeWhile isBlank) := by
  obtain ⟨r₁, hskip, h₁⟩ := skipBlanks_at h
  obtain ⟨r', hbump, h'⟩ := bump_at (r := { r₁ with tokenStart := r₁.position })
    ⟨h₁.position, h₁.upcoming⟩
  have hstart := tokenStart_bump { r₁ with tokenStart := r₁.position }
  rw [hbump] at hstart
  exact ⟨r', (bind_of_ok hskip _).trans hbump, h', hstart.trans h₁.position⟩

theorem expectChar_error {c : Char} {fault : Fault} (h : r.At p cs)
    (hx : expectChar c fault r = (.error e, r')) :
    e = .rejected fault (p.past (cs.takeWhile isBlank)) := by
  obtain ⟨r₁, hread, -, hstart⟩ := readChar_marks h
  unfold expectChar at hx
  rw [bind_of_ok hread] at hx
  split at hx
  · cases hx
  · cases hx
    rw [hstart]

theorem expectEnd_error (h : r.At p cs) (hx : expectEnd r = (.error e, r')) :
    e = .rejected .trailingInput (p.past (cs.takeWhile isBlank)) := by
  obtain ⟨r₁, hpeek, h₁⟩ := peekChar_at h
  unfold expectEnd at hx
  rw [bind_of_ok hpeek] at hx
  rcases hnext : (cs.dropWhile isBlank).head? with _ | c <;> rw [hnext] at hx <;> cases hx
  rw [h₁.position]

/-- Behind a tag there is no word, or none that the tag goes with. -/
theorem readNameAfter_error {tag : Tag} (h : r.At p cs)
    (hx : (readToken tag.expects >>= fun token =>
      match tag.lookup (lowercase token.text) with
      | some name => pure name
      | none => reject (.unknownName tag (lowercase token.text)) token.position : Read Name) r
        = (.error e, r')) :
    ∃ fault, e = .rejected fault (p.past (cs.takeWhile isBlank)) ∧
      ((∃ found, found.Shows (cs.dropWhile isBlank) ∧ fault = .expected tag.expects found) ∨
        ((cs.dropWhile isBlank).takeWhile isWordChar ≠ [] ∧ fault = .unknownName tag
          (lowercase (String.ofList ((cs.dropWhile isBlank).takeWhile isWordChar))))) := by
  rw [bind_apply] at hx
  split at hx
  · rename_i token r₁ htoken
    obtain ⟨hw, rfl, -⟩ := readToken_ok h htoken
    dsimp only at hx
    rcases hname : tag.lookup (lowercase (String.ofList
      ((cs.dropWhile isBlank).takeWhile isWordChar))) with _ | name <;> rw [hname] at hx <;>
      cases hx
    exact ⟨_, rfl, .inr ⟨hw, rfl⟩⟩
  · rename_i e r₁ herror
    cases hx
    obtain ⟨found, hfound, rfl⟩ := readToken_error h herror
    exact ⟨_, rfl, .inl ⟨found, hfound, rfl⟩⟩

/-- A name fails where its tag is missing, or behind the tag. -/
theorem readName_error (h : r.At p cs) (hx : readName r = (.error e, r')) :
    e = .rejected .missingTag (p.past (cs.takeWhile isBlank)) ∨
      ∃ tag ds fault, cs.dropWhile isBlank = tag.char :: ds ∧
        e = .rejected fault
          (((p.past (cs.takeWhile isBlank)).advance tag.char).past (ds.takeWhile isBlank)) ∧
        ((∃ found, found.Shows (ds.dropWhile isBlank) ∧ fault = .expected tag.expects found) ∨
          ((ds.dropWhile isBlank).takeWhile isWordChar ≠ [] ∧ fault = .unknownName tag
            (lowercase (String.ofList ((ds.dropWhile isBlank).takeWhile isWordChar))))) := by
  obtain ⟨r₁, hread, h₁, hstart⟩ := readChar_marks h
  unfold readName at hx
  rw [bind_of_ok hread] at hx
  rcases htag : (cs.dropWhile isBlank).head?.bind Tag.ofChar? with _ | tag <;> rw [htag] at hx
  · cases hx
    exact .inl (by rw [hstart])
  · obtain ⟨c, hc, hctag⟩ := Option.bind_eq_some_iff.1 htag
    obtain ⟨ds, hds⟩ := List.head?_eq_some_iff.1 hc
    obtain rfl := Tag.ofChar?_eq_some_iff.1 hctag
    rw [hds] at h₁
    obtain ⟨fault, he, hfault⟩ := readNameAfter_error h₁ hx
    exact .inr ⟨tag, ds, fault, hds, he, hfault⟩

theorem readCombiner_error (h : r.At p cs) (hx : readCombiner r = (.error e, r')) :
    e = .rejected .badCombiner (p.past (cs.takeWhile isBlank)) := by
  unfold readCombiner at hx
  rw [bind_apply, withFault] at hx
  rcases hread : readToken "boolean operator" r with ⟨e | token, r₁⟩ <;> rw [hread] at hx
  · obtain ⟨found, -, rfl⟩ := readToken_error h hread
    cases hx
    rfl
  · obtain ⟨-, rfl, -⟩ := readToken_ok h hread
    rcases hword : Combiner.ofWord? (String.ofList
      ((cs.dropWhile isBlank).takeWhile isWordChar)) with _ | combiner
    · simp only [hword] at hx
      cases hx
      rfl
    · simp only [hword] at hx
      cases hx

end Read

end SolidScene
