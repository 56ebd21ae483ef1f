import SolidScene.Proofs.Scene.Acceptance
import SolidScene.Proofs.Text.Placed

/-!
# Spellings of a scene

Other words for the same names and the same combiners make another spelling of the same lexemes
(`Respelled`). What comes next in two spellings is told apart by such words only, also behind an
opening bracket (`Respelled.Inside.cases_tag`), and lexemes of the same number begin at places that
stand for each other (`Landmarks`).
-/

namespace SolidScene

open Text (Position Lexeme lexemes placed next placeOf behindChar endOf)
open Grammar (Heading)

/-! ## Spellings -/

/-- The same lexemes, up to the words for names and combiners. A heading behind an opening bracket
may be another one of the same name, with its tag glued or apart alike, and where it names
combinations the word behind it may be another one for the same combiner. -/
inductive Respelled : List Lexeme → List Lexeme → Prop
  | nil : Respelled [] []
  | same (l : Lexeme) {ls ls' : List Lexeme} (h : Respelled ls ls') : Respelled (l :: ls) (l :: ls')
  | heading {name : Name} {head head' ls ls' : List Lexeme} (hhead : Heading head name)
    (hhead' : Heading head' name) (hlength : head.length = head'.length) (h : Respelled ls ls') :
    Respelled (.opening :: (head ++ ls)) (.opening :: (head' ++ ls'))
  | combiner {combiner : Combiner} {w w' : List Char} {head head' ls ls' : List Lexeme}
    (hhead : Heading head (.operation .boolean)) (hhead' : Heading head' (.operation .boolean))
    (hlength : head.length = head'.length) (hw : Combiner.ofWord? (String.ofList w) = some combiner)
    (hw' : Combiner.ofWord? (String.ofList w') = some combiner) (h : Respelled ls ls') :
    Respelled (.opening :: (head ++ .word w :: ls)) (.opening :: (head' ++ .word w' :: ls'))

/-! ## Places that stand for each other -/

/-- The same places up to layout: where the lexemes of one number begin, where the names glued to
their tags begin behind the opening brackets of one number, and where the texts end. -/
inductive Landmarks (text text' : List Char) : Position → Position → Prop
  | lexeme (i : ℕ) {l l' : Lexeme} {p p' : Position} (h : (placed .start text)[i]? = some (l, p))
    (h' : (placed .start text')[i]? = some (l', p')) : Landmarks text text' p p'
  | name (i : ℕ) {tag : Tag} {c c' : Char} {w w' : List Char} {p p' q q' : Position}
    (hopen : (placed .start text)[i]? = some (.opening, p))
    (hopen' : (placed .start text')[i]? = some (.opening, p'))
    (hname : (placed .start text)[i + 1]? = some (.word (tag.char :: c :: w), q))
    (hname' : (placed .start text')[i + 1]? = some (.word (tag.char :: c' :: w'), q')) :
    Landmarks text text' (q.advance tag.char) (q'.advance tag.char)
  | finish : Landmarks text text' (endOf text) (endOf text')

namespace Respelled

/-! ## What comes next -/

section Lexemes

variable {l : Lexeme} {ls ls' : List Lexeme}

/-- What stands behind two headings of a name. -/
inductive Body : Name → List Lexeme → List Lexeme → Prop
  | same {name : Name} {ls ls' : List Lexeme} (h : Respelled ls ls') : Body name ls ls'
  | combiner {combiner : Combiner} {w w' : List Char} {ls ls' : List Lexeme}
    (hw : Combiner.ofWord? (String.ofList w) = some combiner)
    (hw' : Combiner.ofWord? (String.ofList w') = some combiner) (h : Respelled ls ls') :
    Body (.operation .boolean) (.word w :: ls) (.word w' :: ls')

/-- What stands behind two opening brackets. -/
inductive Inside : List Lexeme → List Lexeme → Prop
  | same {ls ls' : List Lexeme} (h : Respelled ls ls') : Inside ls ls'
  | heading {name : Name} {head head' ls ls' : List Lexeme} (hhead : Heading head name)
    (hhead' : Heading head' name) (hlength : head.length = head'.length) (h : Body name ls ls') :
    Inside (head ++ ls) (head' ++ ls')

/-- Words that `V` relates come next, with what is behind them, or the same lexeme that is no word,
or nothing. -/
inductive Next (V : List Char → List Char → List Lexeme → List Lexeme → Prop) :
    List Lexeme → List Lexeme → Prop
  | word {w w' : List Char} {ls ls' : List Lexeme} (h : V w w' ls ls') :
    Next V (.word w :: ls) (.word w' :: ls')
  | other {ls ls' : List Lexeme} (hhead : ls.head? = ls'.head?)
    (hword : ∀ w, ls.head? ≠ some (.word w)) : Next V ls ls'

/-- The same word, before the same lexemes. -/
def SameWord (w w' : List Char) (ls ls' : List Lexeme) : Prop := w = w' ∧ Respelled ls ls'

/-- Words for the same combiner or for none, before the same lexemes. -/
def SameCombiner (w w' : List Char) (ls ls' : List Lexeme) : Prop :=
  Combiner.ofWord? (String.ofList w) = Combiner.ofWord? (String.ofList w') ∧ Respelled ls ls'

/-- The same word behind a tag, or words for the same name before bodies for it. -/
inductive SameName (tag : Tag) : List Char → List Char → List Lexeme → List Lexeme → Prop
  | same {w : List Char} {ls ls' : List Lexeme} (h : Respelled ls ls') : SameName tag w w ls ls'
  | name {name : Name} {w w' : List Char} {ls ls' : List Lexeme}
    (hw : tag.lookup (lowercase (String.ofList w)) = some name)
    (hw' : tag.lookup (lowercase (String.ofList w')) = some name) (h : Body name ls ls') :
    SameName tag w w' ls ls'

theorem head?_eq (h : Respelled ls ls') : ls.head? = ls'.head? := by
  cases h <;> rfl

theorem behind (hl : l ≠ .opening) (h : Respelled (l :: ls) (l :: ls')) : Respelled ls ls' := by
  cases h with
  | same _ h => exact h
  | heading | combiner => exact absurd rfl hl

theorem inside (h : Respelled (.opening :: ls) (.opening :: ls')) : Inside ls ls' := by
  cases h with
  | same _ h => exact .same h
  | heading hhead hhead' hlength h => exact .heading hhead hhead' hlength (.same h)
  | combiner hhead hhead' hlength hw hw' h =>
    exact .heading hhead hhead' hlength (.combiner hw hw' h)

theorem toNext {V : List Char → List Char → List Lexeme → List Lexeme → Prop} (h : Respelled ls ls')
    (hV : ∀ {w ls ls'}, Respelled ls ls' → V w w ls ls') : Next V ls ls' := by
  cases h with
  | nil => exact .other rfl nofun
  | same l h =>
    cases l with
    | opening | closing => exact .other rfl nofun
    | word w => exact .word (hV h)
  | heading | combiner => exact .other rfl nofun

theorem Body.toNext (h : Body (.operation .boolean) ls ls') : Next SameCombiner ls ls' := by
  cases h with
  | same h => exact h.toNext fun h => ⟨rfl, h⟩
  | combiner hw hw' h => exact .word ⟨hw.trans hw'.symm, h⟩

theorem Body.of_ne {name : Name} (hname : name ≠ .operation .boolean) (h : Body name ls ls') :
    Respelled ls ls' := by
  cases h with
  | same h => exact h
  | combiner => exact absurd rfl hname

end Lexemes

/-- The tag that a name stands behind. -/
def tagOf : Name → Tag
  | .object _ => .object
  | .operation _ => .operation

theorem tag_eq_of_mem_words {tag : Tag} {word : String} {name : Name}
    (h : (word, name) ∈ tag.words) : tagOf name = tag := by
  cases tag with
  | object | operation =>
    obtain ⟨_, -, ⟨⟩⟩ := List.mem_map.1 h
    rfl

/-- Two headings of a name have the same tag, glued to the word in both or in none. -/
theorem exists_heading {name : Name} {head head' : List Lexeme} (h : Heading head name)
    (h' : Heading head' name) (hlength : head.length = head'.length) :
    ∃ tag : Tag, ∃ w w', tag.lookup (lowercase (String.ofList w)) = some name ∧
      tag.lookup (lowercase (String.ofList w')) = some name ∧
      (w ≠ [] ∧ w' ≠ [] ∧ head = [.word (tag.char :: w)] ∧ head' = [.word (tag.char :: w')] ∨
        head = [.word [tag.char], .word w] ∧ head' = [.word [tag.char], .word w']) := by
  obtain ⟨tag, w, htagged, hw⟩ := h
  obtain ⟨tag', w', htagged', hw'⟩ := h'
  obtain rfl : tag = tag' := (tag_eq_of_mem_words hw).symm.trans (tag_eq_of_mem_words hw')
  refine ⟨tag, w, w', Tag.lookup_eq_some_iff.2 hw, Tag.lookup_eq_some_iff.2 hw', ?_⟩
  cases htagged <;> cases htagged'
  · exact .inl ⟨‹_›, ‹_›, rfl, rfl⟩
  · cases hlength
  · cases hlength
  · exact .inr ⟨rfl, rfl⟩

/-! ## Lexemes of the same numbers -/

/-- The lexemes of two texts from one number on. -/
def Along (text text' : List Char) (ps ps' : List (Lexeme × Position)) : Prop :=
  ∃ i, (placed .start text).drop i = ps ∧ (placed .start text').drop i = ps'

section Along

variable {text text' : List Char} {ps ps' : List (Lexeme × Position)} {l l' : Lexeme}
  {p p' q q' : Position}

theorem Along.tail (h : Along text text' ps ps') : Along text text' ps.tail ps'.tail := by
  obtain ⟨i, rfl, rfl⟩ := h
  exact ⟨i + 1, List.tail_drop.symm, List.tail_drop.symm⟩

theorem getElem?_of_drop_eq_cons {α : Type} {as bs : List α} {a : α} {i : ℕ}
    (h : as.drop i = a :: bs) : as[i]? = some a ∧ as.drop (i + 1) = bs := by
  rw [← List.head?_drop, ← List.tail_drop, h]
  exact ⟨rfl, rfl⟩

theorem Along.landmarks_lexeme (h : Along text text' ((l, p) :: ps) ((l', p') :: ps')) :
    Landmarks text text' p p' := by
  obtain ⟨i, hi, hi'⟩ := h
  exact .lexeme i (getElem?_of_drop_eq_cons hi).1 (getElem?_of_drop_eq_cons hi').1

theorem Along.landmarks (halong : Along text text' ps ps')
    (h : (ps.map Prod.fst).head? = (ps'.map Prod.fst).head?) :
    Landmarks text text' (placeOf (endOf text) ps) (placeOf (endOf text') ps') := by
  rcases ps with _ | ⟨⟨l, p⟩, ps⟩ <;> rcases ps' with _ | ⟨⟨l', p'⟩, ps'⟩
  · exact .finish
  · cases h
  · cases h
  · exact halong.landmarks_lexeme

theorem Along.landmarks_next {V : List Char → List Char → List Lexeme → List Lexeme → Prop}
    (halong : Along text text' ps ps') (h : Next V (ps.map Prod.fst) (ps'.map Prod.fst)) :
    Landmarks text text' (placeOf (endOf text) ps) (placeOf (endOf text') ps') := by
  generalize hls : ps.map Prod.fst = ls at h
  generalize hls' : ps'.map Prod.fst = ls' at h
  cases h with
  | word =>
    obtain ⟨_, _, rfl, -, -⟩ := List.map_eq_cons_iff.1 hls
    obtain ⟨_, _, rfl, -, -⟩ := List.map_eq_cons_iff.1 hls'
    exact halong.landmarks_lexeme
  | other hhead =>
    subst hls hls'
    exact halong.landmarks hhead

/-- A name that is glued to its tag begins behind the tag. -/
theorem Along.landmarks_name {tag : Tag} {c c' : Char} {w w' : List Char}
    (h : Along text text' ((.opening, p) :: (.word (tag.char :: c :: w), q) :: ps)
      ((.opening, p') :: (.word (tag.char :: c' :: w'), q') :: ps')) :
    Landmarks text text' (q.advance tag.char) (q'.advance tag.char) := by
  obtain ⟨i, hi, hi'⟩ := h
  obtain ⟨hopen, hdrop⟩ := getElem?_of_drop_eq_cons hi
  obtain ⟨hopen', hdrop'⟩ := getElem?_of_drop_eq_cons hi'
  exact .name i hopen hopen' (getElem?_of_drop_eq_cons hdrop).1 (getElem?_of_drop_eq_cons hdrop').1

theorem next_eq_of_head? (h : (ps.map Prod.fst).head? = (ps'.map Prod.fst).head?) :
    next ps = next ps' := by
  have hnext (qs : List (Lexeme × Position)) :
      next qs = (qs.map Prod.fst).head?.bind fun l => l.chars.head? := by
    cases qs <;> rfl
  rw [hnext, hnext, h]

/-- A tag is the first character of a word. -/
theorem exists_word_of_tag {tag : Tag} (h : (next ps).bind Tag.ofChar? = some tag) :
    ∃ w q qs, ps = (.word (tag.char :: w), q) :: qs := by
  rcases ps with _ | ⟨⟨_ | _ | _ | ⟨c, w⟩, q⟩, qs⟩
  · cases h
  · cases h
  · cases h
  · cases h
  · obtain rfl : c = tag.char := Tag.ofChar?_eq_some_iff.1 h
    exact ⟨w, q, qs, rfl⟩

/-- Behind two opening brackets no tag comes next, or the same one and words for the same name, at
places that stand for each other. -/
theorem Inside.cases_tag (h : Inside (ps.map Prod.fst) (ps'.map Prod.fst))
    (halong : Along text text' ((.opening, p) :: ps) ((.opening, p') :: ps')) :
    ((next ps).bind Tag.ofChar? = none ∧ (next ps').bind Tag.ofChar? = none ∧
      Landmarks text text' (placeOf (endOf text) ps) (placeOf (endOf text') ps')) ∨
    ∃ tag, (next ps).bind Tag.ofChar? = some tag ∧ (next ps').bind Tag.ofChar? = some tag ∧
      Landmarks text text' (placeOf (endOf text) (behindChar ps))
        (placeOf (endOf text') (behindChar ps')) ∧
      Along text text' (behindChar ps).tail (behindChar ps').tail ∧
      Next (SameName tag) ((behindChar ps).map Prod.fst) ((behindChar ps').map Prod.fst) := by
  have htag (tag : Tag) (w : List Char) (q : Position) (qs : List (Lexeme × Position)) :
      (next ((.word (tag.char :: w), q) :: qs)).bind Tag.ofChar? = some tag :=
    Tag.ofChar?_eq_some_iff.2 rfl
  generalize hls : ps.map Prod.fst = ls at h
  generalize hls' : ps'.map Prod.fst = ls' at h
  cases h with
  | same h =>
    subst hls hls'
    have hhead := h.head?_eq
    cases hnext : (next ps).bind Tag.ofChar? with
    | none => exact .inl ⟨rfl, next_eq_of_head? hhead ▸ hnext, halong.tail.landmarks hhead⟩
    | some tag =>
      have hnext' := next_eq_of_head? hhead ▸ hnext
      obtain ⟨w, q, qs, rfl⟩ := exists_word_of_tag hnext
      obtain ⟨w', q', qs', rfl⟩ := exists_word_of_tag hnext'
      obtain rfl : w = w' := by simpa using hhead
      have hqs := h.behind (by simp)
      refine .inr ⟨tag, rfl, hnext', ?_⟩
      cases w with
      | nil =>
        have hqs : Next (SameName tag) _ _ := hqs.toNext .same
        exact ⟨halong.tail.tail.landmarks_next hqs, halong.tail.tail.tail, hqs⟩
      | cons c w => exact ⟨halong.landmarks_name, halong.tail.tail, .word (.same hqs)⟩
  | heading hhead hhead' hlength hbody =>
    obtain ⟨tag, w, w', hw, hw', hheads⟩ := exists_heading hhead hhead' hlength
    refine .inr ⟨tag, ?_⟩
    rcases hheads with ⟨hne, hne', rfl, rfl⟩ | ⟨rfl, rfl⟩
    · obtain ⟨⟨_, q⟩, qs, rfl, rfl, rfl⟩ := List.map_eq_cons_iff.1 hls
      obtain ⟨⟨_, q'⟩, qs', rfl, rfl, rfl⟩ := List.map_eq_cons_iff.1 hls'
      obtain ⟨c, w, rfl⟩ := List.exists_cons_of_ne_nil hne
      obtain ⟨c', w', rfl⟩ := List.exists_cons_of_ne_nil hne'
      exact ⟨htag .., htag .., halong.landmarks_name, halong.tail.tail, .word (.name hw hw' hbody)⟩
    · obtain ⟨⟨_, q⟩, qs, rfl, rfl, hqs⟩ := List.map_eq_cons_iff.1 hls
      obtain ⟨⟨_, q'⟩, qs', rfl, rfl, hqs'⟩ := List.map_eq_cons_iff.1 hls'
      obtain ⟨⟨_, q₂⟩, qs, rfl, rfl, rfl⟩ := List.map_eq_cons_iff.1 hqs
      obtain ⟨⟨_, q₂'⟩, qs', rfl, rfl, rfl⟩ := List.map_eq_cons_iff.1 hqs'
      exact ⟨htag .., htag .., halong.tail.tail.landmarks_lexeme, halong.tail.tail.tail,
        .word (.name hw hw' hbody)⟩

end Along

end Respelled

end SolidScene
