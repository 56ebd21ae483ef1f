import SolidScene.Proofs.Scene.Recognition
import SolidScene.Proofs.Text.Placed

/-!
# Reading lexemes at their places

What the actions on characters and words do depends on the lexemes to come and on their places, and
not on the characters between them (`readChar_facing`, `readToken_word`, `readToken_other`).
-/

namespace SolidScene

open Text (Position Lexeme isBlank isWordChar placed next placeOf behindChar)

/-- The reader stands before these lexemes at their places, in a text that ends at `e`. -/
def Reader.Facing (r : Reader) (ps : List (Lexeme × Position)) (e : Position) : Prop :=
  ∃ p cs, r.At p cs ∧ placed p cs = ps ∧ p.past cs = e

/-- A bracket that comes next is a lexeme. -/
theorem Reader.Facing.exists_of_next {r : Reader} {ps : List (Lexeme × Position)} {e : Position}
    {l : Lexeme} {b : Char} (h : r.Facing ps e) (hl : l.Bracket b) (hb : next ps = some b) :
    ∃ q qs, ps = (l, q) :: qs := by
  obtain ⟨p, cs, -, rfl, -⟩ := h
  exact Text.exists_of_next_placed p cs hl hb

namespace Read

open Text.Position (past_append)

variable {α β : Type} {r : Reader} {p e : Position} {cs : List Char} {ps : List (Lexeme × Position)}

/-! ## Marks -/

theorem tokenStart_runOf (q : Char → Bool) (start : Position) (events : List Source.Event)
    (p : Position) : (runOf q start events p).2.tokenStart = start := by
  induction events generalizing p with
  | nil => rfl
  | cons event events ih =>
    cases event with
    | char c =>
      rw [runOf]
      split
      · exact ih (p.advance c)
      · rfl
    | failure | pause => rfl

theorem tokenStart_peek (r : Reader) : (peek r).2.tokenStart = r.tokenStart := by
  unfold peek
  split <;> rfl

theorem tokenStart_bump (r : Reader) : (bump r).2.tokenStart = r.tokenStart := by
  have h := tokenStart_peek r
  unfold bump
  split
  · rename_i hpeek
    rwa [hpeek] at h
  · exact h

theorem tokenStart_takeWhile (q : Char → Bool) (r : Reader) :
    (takeWhile q r).2.tokenStart = r.tokenStart := tokenStart_runOf q _ _ _

/-! ## Characters and words -/

theorem past_takeWhile_dropWhile (p : Position) (cs : List Char) (q : Char → Bool) :
    (p.past (cs.takeWhile q)).past (cs.dropWhile q) = p.past cs := by
  rw [← past_append, List.takeWhile_append_dropWhile]

/-- Looking ahead shows the first character of the lexemes to come. -/
theorem peekChar_facing (h : r.Facing ps e) : ∃ r', peekChar r = (.ok (next ps), r') ∧
    r'.Facing ps e ∧ r'.position = placeOf e ps ∧ r'.tokenStart = r.tokenStart := by
  obtain ⟨p, cs, h, rfl, rfl⟩ := h
  obtain ⟨r₁, hskip, h₁⟩ := takeWhile_at h isBlank
  obtain ⟨r₂, hpeek, h₂, -⟩ := peek_at h₁
  have hskip' := tokenStart_takeWhile isBlank r
  have hpeek' := tokenStart_peek r₁
  rw [hskip] at hskip'
  rw [hpeek] at hpeek'
  refine ⟨r₂, ?_, ⟨_, _, h₂, Text.placed_dropWhile_isBlank p cs, past_takeWhile_dropWhile ..⟩, ?_,
    hpeek'.trans hskip'⟩
  · rw [Text.next_placed]
    exact (bind_of_ok (bind_of_ok hskip _) _).trans hpeek
  · rw [Text.placeOf_placed, h₂.position]

/-- To read a character is to take it from the lexemes to come. -/
theorem readChar_facing (h : r.Facing ps e) : ∃ r', readChar r = (.ok (next ps), r') ∧
    r'.Facing (behindChar ps) e ∧ r'.tokenStart = placeOf e ps := by
  obtain ⟨p, cs, h, rfl, rfl⟩ := h
  obtain ⟨r₁, hskip, h₁⟩ := skipBlanks_at h
  obtain ⟨r₂, hbump, h₂⟩ := bump_at (r := { r₁ with tokenStart := r₁.position })
    ⟨h₁.position, h₁.upcoming⟩
  have hbump' := tokenStart_bump { r₁ with tokenStart := r₁.position }
  rw [hbump] at hbump'
  refine ⟨r₂, ?_, ⟨_, _, h₂, (Text.behindChar_placed p cs).symm, ?_⟩, ?_⟩
  · rw [Text.next_placed]
    exact (bind_of_ok hskip _).trans hbump
  · have hchar (ds : List Char) : ds.head?.toList ++ ds.tail = ds := by
      cases ds <;> rfl
    rw [← past_append, hchar, past_takeWhile_dropWhile]
  · rw [Text.placeOf_placed]
    exact hbump'.trans h₁.position

/-- Reading a word passes the word characters behind the blanks, or fails where there are none. -/
theorem readToken_at (h : r.At p cs) (what : String) :
    let q := p.past (cs.takeWhile isBlank)
    let ds := cs.dropWhile isBlank
    (ds.takeWhile isWordChar = [] → ∃ r', readToken what r =
      (.error (.rejected (.expected what (ds.head?.elim .nothing .char)) q), r')) ∧
    (ds.takeWhile isWordChar ≠ [] → ∃ r',
      readToken what r = (.ok ⟨String.ofList (ds.takeWhile isWordChar), q⟩, r') ∧
        r'.At (q.past (ds.takeWhile isWordChar)) (ds.dropWhile isWordChar) ∧
          r'.tokenStart = q) := by
  intro q ds
  obtain ⟨r₁, hskip, h₁⟩ := skipBlanks_at h
  have hmark : mark r₁ = (.ok q, { r₁ with tokenStart := q }) := by
    rw [mark, h₁.position]
  obtain ⟨r₂, htake, h₂⟩ := takeWhile_at (r := { r₁ with tokenStart := q })
    ⟨h₁.position, h₁.upcoming⟩ isWordChar
  have htoken := tokenStart_takeWhile isWordChar { r₁ with tokenStart := q }
  rw [htake] at htoken
  unfold readToken
  rw [bind_of_ok hskip, bind_of_ok hmark, bind_of_ok htake]
  constructor <;> intro hw
  · obtain ⟨r₃, hpeek, -, -⟩ := peek_at h₂
    have hnext : ds.takeWhile isWordChar ++ ds.dropWhile isWordChar = ds :=
      List.takeWhile_append_dropWhile
    rw [hw, List.nil_append] at hnext
    rw [if_pos (List.isEmpty_iff.2 hw), bind_of_ok hpeek, hnext]
    refine ⟨r₃, ?_⟩
    cases ds.head? <;> rfl
  · rw [if_neg (by simpa using hw)]
    exact ⟨r₂, rfl, h₂, htoken⟩

theorem readToken_word {w : List Char} (h : r.Facing ((.word w, p) :: ps) e) (what : String) :
    ∃ r', readToken what r = (.ok ⟨String.ofList w, p⟩, r') ∧ r'.Facing ps e ∧
      r'.tokenStart = p := by
  obtain ⟨p₀, cs, h, hps, rfl⟩ := h
  have hread := (readToken_at h what).2
  have hpast := (past_takeWhile_dropWhile (p₀.past (cs.takeWhile isBlank)) (cs.dropWhile isBlank)
    isWordChar).trans (past_takeWhile_dropWhile p₀ cs isBlank)
  rcases Text.placed_cases p₀ cs with ⟨hcs, hps'⟩ | ⟨l, b, rest, hl, hcs, hps'⟩ |
    ⟨c, rest, hc, hcs, hps'⟩ <;> rw [hps] at hps'
  · cases hps'
  · cases hl <;> cases hps'
  · obtain ⟨⟨rfl, rfl⟩, rfl⟩ := hps'
    rw [hcs, List.takeWhile_cons_of_pos hc, List.dropWhile_cons_of_pos hc] at hread hpast
    obtain ⟨r', hr', h', htoken⟩ := hread (List.cons_ne_nil _ _)
    exact ⟨r', hr', ⟨_, _, h', rfl, hpast⟩, htoken⟩

theorem readToken_other (h : r.Facing ps e)
    (hword : ∀ w, (ps.map Prod.fst).head? ≠ some (.word w)) (what : String) :
    ∃ r', readToken what r =
      (.error (.rejected (.expected what ((next ps).elim .nothing .char)) (placeOf e ps)), r') := by
  obtain ⟨p, cs, h, rfl, rfl⟩ := h
  have hread := (readToken_at h what).1
  rw [Text.next_placed, Text.placeOf_placed]
  refine hread ?_
  rcases Text.placed_cases p cs with ⟨hcs, hps⟩ | ⟨l, b, rest, hl, hcs, hps⟩ |
    ⟨c, rest, hc, hcs, hps⟩
  · rw [hcs]
    rfl
  · rw [hcs]
    cases hl <;> rfl
  · rw [hps] at hword
    exact absurd rfl (hword _)

end Read

end SolidScene
