import SolidScene.Proofs.Scene.Recognition
import SolidScene.Proofs.Solid.WellFormed
import SolidScene.Proofs.Text.Border

/-!
# What is accepted

A text is read as a scene exactly where it spells an expression of that scene that nests brackets no
deeper than the limit (`parse_eq_ok_iff_derivation`), and as many scenes where its lexemes are
expressions of them one after another (`parseMany_eq_ok_iff`). What an action passes to its result
ends at a border between lexemes (`Read.Covers`).
-/

namespace SolidScene

open Text (Position Lexeme lexemes lexemes_cases lexemes_word lexemes_takeWhile isBlank isWordChar
  Apart)
open Grammar
open Solid (minimum_lt_zero_iff)

/-! ## Words -/

/-- A table without a repeated word finds exactly its entries. -/
theorem lookup_eq_some_iff {β : Type} {l : List (String × β)} (h : (l.map Prod.fst).Nodup)
    {k : String} {v : β} : l.lookup k = some v ↔ (k, v) ∈ l := by
  induction l with
  | nil => simp
  | cons entry l ih =>
    obtain ⟨k', v'⟩ := entry
    obtain ⟨hnot, hl⟩ := List.nodup_cons.1 h
    rw [List.lookup_cons, List.mem_cons, Prod.mk.injEq]
    by_cases hk : k = k'
    · subst hk
      have hmem : (k, v) ∉ l := fun hv => hnot (List.mem_map.2 ⟨_, hv, rfl⟩)
      simp [hmem, eq_comm]
    · rw [beq_eq_false_iff_ne.2 hk]
      simp [hk, ih hl]

theorem Tag.lookup_eq_some_iff {tag : Tag} {word : String} {name : Name} :
    tag.lookup word = some name ↔ (word, name) ∈ tag.words :=
  SolidScene.lookup_eq_some_iff (by cases tag <;> decide)

theorem Combiner.ofWord?_eq_some_iff {word : String} {combiner : Combiner} :
    Combiner.ofWord? word = some combiner ↔ (lowercase word, combiner) ∈ Combiner.words :=
  SolidScene.lookup_eq_some_iff (by decide)

theorem Tag.ofChar?_eq_some_iff {c : Char} {tag : Tag} :
    Tag.ofChar? c = some tag ↔ c = tag.char := by
  constructor
  · intro h
    unfold Tag.ofChar? at h
    split at h <;> cases h <;> rfl
  · rintro rfl
    cases tag <;> rfl

theorem Tag.isWordChar_char (tag : Tag) : isWordChar tag.char = true := by
  cases tag <;> decide

/-- A word behind a tag stands in the tag's lexeme or in the next one. -/
theorem tagged_iff {tag : Tag} {cs w : List Char} {rest : List Lexeme} :
    (∃ head, lexemes (tag.char :: cs) = head ++ rest ∧ Tagged tag w head) ↔
      lexemes cs = .word w :: rest := by
  rw [lexemes_word tag.isWordChar_char]
  by_cases hrun : cs.takeWhile isWordChar = []
  · have hdrop : cs.dropWhile isWordChar = cs := by
      conv_rhs => rw [← List.takeWhile_append_dropWhile (p := isWordChar) (l := cs), hrun]
      rfl
    rw [hrun, hdrop]
    constructor
    · rintro ⟨_, hls, hne | -⟩
      · exact absurd (List.cons.inj (Lexeme.word.inj (List.cons.inj hls).1)).2.symm hne
      · exact (List.cons.inj hls).2
    · intro hls
      exact ⟨_, by rw [hls]; rfl, .apart⟩
  · rw [lexemes_takeWhile hrun]
    constructor
    · rintro ⟨_, hls, hne | -⟩
      · obtain ⟨hw, hrest⟩ := List.cons.inj hls
        rw [(List.cons.inj (Lexeme.word.inj hw)).2, hrest]
        rfl
      · exact absurd (List.cons.inj (Lexeme.word.inj (List.cons.inj hls).1)).2 hrun
    · intro hls
      obtain ⟨hw, hrest⟩ := List.cons.inj hls
      rw [hrest, Lexeme.word.inj hw]
      exact ⟨[.word (tag.char :: w)], rfl, .glued (Lexeme.word.inj hw ▸ hrun)⟩

namespace Read

/-! ## Names and shapes -/

/-- Reads the name that belongs to a tag. -/
theorem readNameAfter_recognizes (tag : Tag) :
    Recognizes (readToken tag.expects >>= fun token =>
        match tag.lookup (lowercase token.text) with
        | some name => pure name
        | none => reject (.unknownName tag (lowercase token.text)) token.position)
      fun ls name rest => ∃ w, ls = .word w :: rest ∧
        (lowercase (String.ofList w), name) ∈ tag.words := by
  have hf (w : List Char) (q : Position) :
      Recognizes
        (match tag.lookup (lowercase (String.ofList w)) with
          | some name => pure name
          | none => reject (.unknownName tag (lowercase (String.ofList w))) q)
        fun ls name rest => tag.lookup (lowercase (String.ofList w)) = some name ∧ rest = ls := by
    rcases tag.lookup (lowercase (String.ofList w)) with _ | name
    · exact (Recognizes.reject _ _).congr (by simp)
    · exact (Recognizes.pure name).congr fun _ _ _ => by rw [Option.some.injEq, eq_comm]
  refine ((readToken_readsWord tag.expects).bind hf).congr fun ls name rest => ?_
  constructor
  · rintro ⟨w, _, hls, hname, rfl⟩
    exact ⟨w, hls, Tag.lookup_eq_some_iff.1 hname⟩
  · rintro ⟨w, hls, hname⟩
    exact ⟨w, _, hls, Tag.lookup_eq_some_iff.2 hname, rfl⟩

/-- The next character behind blanks is a tag where the lexemes begin with one. -/
theorem exists_tag {cs w : List Char} {tag : Tag} {head rest : List Lexeme}
    (h : Tagged tag w head) (hls : lexemes cs = head ++ rest) :
    ∃ cs', cs.dropWhile isBlank = tag.char :: cs' := by
  have hfirst : ∃ u ls, lexemes cs = .word (tag.char :: u) :: ls := by
    cases h with
    | glued => exact ⟨w, rest, hls⟩
    | apart => exact ⟨[], .word w :: rest, hls⟩
  obtain ⟨u, ls, hfirst⟩ := hfirst
  rcases lexemes_cases cs with ⟨-, h⟩ | ⟨_, -, h⟩ | ⟨_, -, h⟩ | ⟨c, cs', hcs, -, h⟩ <;>
    cases hfirst.symm.trans h
  exact ⟨cs', hcs⟩

theorem readName_recognizes :
    Recognizes readName fun ls name rest => Before Heading ls name rest := by
  constructor
  · rintro r _ name r' ⟨p, cs, h, rfl⟩ hx
    obtain ⟨r₁, q, hread, h₁⟩ := readChar_at h
    unfold readName at hx
    rw [bind_of_ok hread] at hx
    rcases htag : (cs.dropWhile isBlank).head?.bind Tag.ofChar? with _ | tag <;> rw [htag] at hx
    · cases hx
    obtain ⟨c, hc, hctag⟩ := Option.bind_eq_some_iff.1 htag
    obtain ⟨cs', hcs⟩ := List.head?_eq_some_iff.1 hc
    obtain rfl := Tag.ofChar?_eq_some_iff.1 hctag
    rw [hcs, List.tail_cons] at h₁
    obtain ⟨rest, hrest, w, hw, hname⟩ := (readNameAfter_recognizes tag).sound ⟨q, cs', h₁, rfl⟩ hx
    obtain ⟨head, hls, hhead⟩ := tagged_iff.2 hw
    rw [← hcs, Text.lexemes_dropWhile_isBlank] at hls
    exact ⟨rest, hrest, head, hls, tag, w, hhead, hname⟩
  · rintro r _ name rest ⟨p, cs, h, rfl⟩ ⟨head, hls, tag, w, hhead, hname⟩
    obtain ⟨r₁, q, hread, h₁⟩ := readChar_at h
    obtain ⟨cs', hcs⟩ := exists_tag hhead hls
    rw [hcs] at hread h₁
    rw [← Text.lexemes_dropWhile_isBlank, hcs] at hls
    have hw := tagged_iff.1 ⟨head, hls, hhead⟩
    obtain ⟨r', hx, hr'⟩ := (readNameAfter_recognizes tag).complete ⟨q, cs', h₁, rfl⟩ ⟨w, hw, hname⟩
    refine ⟨r', ?_, hr'⟩
    unfold readName
    rw [bind_of_ok hread, List.head?_cons, Option.bind_some, Tag.ofChar?_eq_some_iff.2 rfl]
    exact hx

/-- Reads the values of an object that the grammar gives it. -/
theorem readObject_readsNumbers (name : ObjectName) :
    ReadsNumbers (readObject name) (Shape name) := by
  cases name with
  | sphere =>
    refine (ReadsNumbers.afterVector fun center => .afterNonNegative fun radius =>
      .pure _).congr fun xs s _ => ?_
    constructor
    · rintro ⟨center, _, rfl, radius, _, rfl, hradius, rfl, rfl⟩
      exact .sphere center hradius
    · intro hshape
      cases hshape with
      | sphere center hradius => exact ⟨center, _, rfl, _, _, rfl, hradius, rfl, rfl⟩
  | cube =>
    refine (ReadsNumbers.afterVector fun center => .afterNonNegative fun size =>
      .pure _).congr fun xs s _ => ?_
    constructor
    · rintro ⟨center, _, rfl, size, _, rfl, hsize, rfl, rfl⟩
      exact .cube center hsize
    · intro hshape
      cases hshape with
      | cube center hsize => exact ⟨center, _, rfl, _, _, rfl, hsize, rfl, rfl⟩
  | box =>
    refine (ReadsNumbers.afterVector fun center => .afterVector fun size =>
      .checked (Scalar.lt size.minimum 0.0) (.pure _)).congr fun xs s hxs => ?_
    -- The smallest extent stands for all of them, as none is NaN.
    constructor
    · rintro ⟨center, _, rfl, size, _, rfl, hmin, rfl, rfl⟩
      have hfinite := (List.forall_mem_append.1 (List.forall_mem_append.1 hxs).2).1
      exact .box center ((minimum_lt_zero_iff hfinite).1 hmin)
    · intro hshape
      cases hshape with
      | box center hsize =>
        have hfinite := (List.forall_mem_append.1 hxs).2
        exact ⟨center, _, rfl, _, _, rfl, (minimum_lt_zero_iff hfinite).2 hsize, rfl, rfl⟩
  | torus =>
    refine (ReadsNumbers.afterVector fun center => .afterNonNegative fun majorRadius =>
      .afterNonNegative fun minorRadius => .pure _).congr fun xs s _ => ?_
    constructor
    · rintro ⟨center, _, rfl, _, _, rfl, hmajor, _, _, rfl, hminor, rfl, rfl⟩
      exact .torus center hmajor hminor
    · intro hshape
      cases hshape with
      | torus center hmajor hminor =>
        exact ⟨center, _, rfl, _, _, rfl, hmajor, _, _, rfl, hminor, rfl, rfl⟩
  | cylinder =>
    refine (ReadsNumbers.afterVector fun center => .afterNonNegative fun radius =>
      .afterNonNegative fun length => .pure _).congr fun xs s _ => ?_
    constructor
    · rintro ⟨center, _, rfl, _, _, rfl, hradius, _, _, rfl, hlength, rfl, rfl⟩
      exact .cylinder center hradius hlength
    · intro hshape
      cases hshape with
      | cylinder center hradius hlength =>
        exact ⟨center, _, rfl, _, _, rfl, hradius, _, _, rfl, hlength, rfl, rfl⟩
  | plane =>
    refine (ReadsNumbers.afterVector fun point => .afterVector (R := fun normal xs s =>
      normal.hasDirection = true ∧ xs = [] ∧ s = .plane point normal) fun normal => ?_).congr
        fun xs s _ => ?_
    · unfold Solid.halfSpace?
      by_cases hnormal : normal.hasDirection = true
      · rw [if_pos hnormal]
        exact (ReadsNumbers.pure _).congr (by simp [hnormal])
      · rw [if_neg hnormal]
        exact (Recognizes.rejectAtStart _).congr (by simp [hnormal])
    · constructor
      · rintro ⟨point, _, rfl, normal, _, rfl, hnormal, rfl, rfl⟩
        exact .plane point hnormal
      · intro hshape
        cases hshape with
        | plane point hnormal => exact ⟨point, _, rfl, _, _, rfl, hnormal, rfl, rfl⟩

/-! ## Operations -/

theorem readCombiner_recognizes :
    Recognizes readCombiner fun ls combiner rest => ∃ w, ls = .word w :: rest ∧
      (lowercase (String.ofList w), combiner) ∈ Combiner.words := by
  refine (((readToken_readsWord _).withFault _).bind (H := fun w ls combiner rest =>
    Combiner.ofWord? (String.ofList w) = some combiner ∧ rest = ls) fun w q => ?_).congr
      fun ls combiner rest => ?_
  · rcases Combiner.ofWord? (String.ofList w) with _ | combiner
    · exact (Recognizes.reject _ _).congr (by simp)
    · exact (Recognizes.pure combiner).congr fun _ _ _ => by rw [Option.some.injEq, eq_comm]
  · constructor
    · rintro ⟨w, _, hls, hword, rfl⟩
      exact ⟨w, hls, Combiner.ofWord?_eq_some_iff.1 hword⟩
    · rintro ⟨w, hls, hword⟩
      exact ⟨w, _, hls, Combiner.ofWord?_eq_some_iff.2 hword, rfl⟩

section Operation

variable {E : List Lexeme → Scene → Prop} {child : Read Scene}
  (hchild : Recognizes child (Before E)) (hopen : ∀ {ls s}, E ls s → ls.head? = some .opening)

include hchild hopen

theorem readOperation_recognizes (name : OperationName) :
    Recognizes (readOperation child name) (Before (Body E (.operation name))) := by
  cases name with
  | boolean =>
    refine (Recognizes.bind readCombiner_recognizes fun combiner =>
      .bind hchild fun a => .bind hchild fun b => .pure _).congr fun ls s rest => ?_
    constructor
    · rintro ⟨combiner, _, ⟨w, rfl, hw⟩, a, _, ⟨u, rfl, ha⟩, b, _, ⟨v, rfl, hb⟩, rfl, rfl⟩
      exact ⟨.word w :: (u ++ v), by simp, .boolean hw ha hb⟩
    · rintro ⟨_, rfl, hbody⟩
      cases hbody with
      | @boolean w combiner u v a b hw ha hb =>
        exact ⟨combiner, _, ⟨w, rfl, hw⟩, a, v ++ rest, ⟨u, by simp, ha⟩, b, rest, ⟨v, rfl, hb⟩,
          rfl, rfl⟩
  | duplicate =>
    refine (Recognizes.bind (readVector_recognizes _) fun period =>
      .bind hchild fun inner => .pure _).congr fun ls s rest => ?_
    constructor
    · rintro ⟨period, _, ⟨used, rfl, hvalues⟩, inner, _, ⟨u, rfl, hinner⟩, rfl, rfl⟩
      exact ⟨used ++ u, by simp, .duplicate hvalues hinner⟩
    · rintro ⟨_, rfl, hbody⟩
      cases hbody with
      | @duplicate used u period inner hvalues hinner =>
        exact ⟨period, u ++ rest, ⟨used, by simp, hvalues⟩, inner, rest, ⟨u, rfl, hinner⟩,
          rfl, rfl⟩
  | matrix =>
    refine (Recognizes.bind (H := fun m ls s rest => ∃ placement inner,
      Placement.ofMatrix? m = some placement ∧ Before E ls inner rest ∧
        s = Solid.placed placement inner) (readMatrix_recognizes _) fun m => ?_).congr
          fun ls s rest => ?_
    · rcases Placement.ofMatrix? m with _ | placement
      · exact (Recognizes.rejectAtStart _).congr (by simp)
      · refine (Recognizes.bind hchild fun inner => .pure _).congr fun ls s rest => ?_
        constructor
        · rintro ⟨inner, _, hinner, rfl, rfl⟩
          exact ⟨placement, inner, rfl, hinner, rfl⟩
        · rintro ⟨_, inner, ⟨⟩, hinner, rfl⟩
          exact ⟨inner, _, hinner, rfl, rfl⟩
    · constructor
      · rintro ⟨m, _, ⟨xs, ⟨used, rfl, hvalues⟩, hm⟩, placement, inner, hplacement,
          ⟨u, rfl, hinner⟩, rfl⟩
        exact ⟨used ++ u, by simp, .matrix hvalues (hm.imp_right And.left) hplacement hinner⟩
      · rintro ⟨_, rfl, hbody⟩
        cases hbody with
        | @matrix used xs u m placement inner hvalues hm hplacement hinner =>
          have hnext : (u ++ rest).head? = some .opening := by
            obtain ⟨u', rfl⟩ := List.head?_eq_some_iff.1 (hopen hinner)
            rfl
          exact ⟨m, u ++ rest, ⟨xs, ⟨used, by simp, hvalues⟩, hm.imp_right fun h => ⟨h, hnext⟩⟩,
            placement, inner, hplacement, ⟨u, rfl, hinner⟩, rfl⟩
  | scale =>
    refine (Recognizes.bind (readNumber_recognizes _) fun factor =>
      .checked (Scalar.eq factor 0.0) (.bind hchild fun inner => .pure _)).congr fun ls s rest => ?_
    constructor
    · rintro ⟨factor, _, ⟨used, rfl, hvalues⟩, hfactor, inner, _, ⟨u, rfl, hinner⟩, rfl, rfl⟩
      exact ⟨used ++ u, by simp, .scale hvalues hfactor hinner⟩
    · rintro ⟨_, rfl, hbody⟩
      cases hbody with
      | @scale used u factor inner hvalues hfactor hinner =>
        exact ⟨factor, u ++ rest, ⟨used, by simp, hvalues⟩, hfactor, inner, rest, ⟨u, rfl, hinner⟩,
          rfl, rfl⟩

theorem readBody_recognizes (name : Name) :
    Recognizes (readBody child name) (Before (Body E name)) := by
  cases name with
  | object name =>
    refine Recognizes.congr (readObject_readsNumbers name) fun ls s rest => ?_
    constructor
    · rintro ⟨xs, ⟨used, rfl, hvalues⟩, hshape⟩
      exact ⟨used, rfl, .object hvalues hshape⟩
    · rintro ⟨used, rfl, hbody⟩
      cases hbody with
      | object hvalues hshape => exact ⟨_, ⟨used, rfl, hvalues⟩, hshape⟩
  | operation name => exact readOperation_recognizes hchild hopen name

end Operation

/-! ## Expressions -/

theorem head?_of_expression {n : ℕ} {ls : List Lexeme} {s : Scene} (h : Expression n ls s) :
    ls.head? = some .opening := by
  cases n with
  | zero => exact h.elim
  | succ n =>
    obtain ⟨_, _, _, _, _, rfl⟩ := h
    rfl

theorem expression_recognizes (limit : ℕ) :
    ∀ room, Recognizes (expression limit room) (Before (Expression room))
  | 0 => by
    constructor
    · rintro r ls s r' hr hx
      obtain ⟨next, r₁, hpeek, -, -⟩ := peekChar_shows hr
      unfold expression at hx
      rw [bind_of_ok hpeek] at hx
      cases hx
    · rintro r ls s rest - ⟨_, _, ⟨⟩⟩
  | room + 1 => by
    have hbody := readBody_recognizes (expression_recognizes limit room) head?_of_expression
    refine (Recognizes.bind (expectChar_recognizes .opening .missingOpening) fun _ =>
      .bind readName_recognizes fun name => .bind (hbody name) fun s =>
        .bind (expectChar_recognizes .closing .missingClosing) fun _ => .pure _).congr
          fun ls s rest => ?_
    constructor
    · rintro ⟨_, _, rfl, name, _, ⟨head, rfl, hhead⟩, s, _, ⟨body, rfl, hbody⟩, _, _, rfl, rfl, rfl⟩
      exact ⟨_, by simp, head, name, body, hhead, hbody, rfl⟩
    · rintro ⟨_, rfl, head, name, body, hhead, hbody, rfl⟩
      exact ⟨(), _, rfl, name, body ++ .closing :: rest, ⟨head, by simp, hhead⟩, s,
        .closing :: rest, ⟨body, rfl, hbody⟩, (), rest, rfl, rfl, rfl⟩

theorem expectEnd_recognizes : Recognizes expectEnd fun ls _ rest => ls = [] ∧ rest = [] := by
  refine .ofPeekChar (G := fun next ls _ rest => next = none ∧ rest = ls) (fun next => ?_)
    fun ls next hshows _ rest => ?_
  · cases next with
    | none => exact (Recognizes.pure ()).congr (by simp)
    | some c =>
      constructor
      · intro _ _ _ _ _ hx
        cases hx
      · intro _ _ _ _ _ h
        cases h.1
  · rw [hshows.nothing]
    exact and_congr_right fun hls => by rw [hls]

theorem whole_recognizes (limit : ℕ) :
    Recognizes (whole limit) fun ls s rest => Expression limit ls s ∧ rest = [] := by
  refine (Recognizes.bind (expression_recognizes limit limit) fun s =>
    .bind expectEnd_recognizes fun _ => .pure s).congr fun ls s rest => ?_
  constructor
  · rintro ⟨s, _, ⟨used, rfl, hs⟩, _, _, ⟨rfl, rfl⟩, rfl, rfl⟩
    exact ⟨by rwa [List.append_nil], rfl⟩
  · rintro ⟨hs, rfl⟩
    exact ⟨s, [], ⟨ls, by simp, hs⟩, (), [], ⟨rfl, rfl⟩, rfl, rfl⟩

/-! ## What actions pass -/

/-- With a result, the action has passed what `G` relates to it, up to a border between lexemes. -/
def Covers (x : Read α) (G : List Lexeme → α → Prop) : Prop := ∀ r p cs a r', r.At p cs →
  x r = (.ok a, r') →
    ∃ mid rest, cs = mid ++ rest ∧ r'.At (p.past mid) rest ∧ Apart mid rest ∧ G (lexemes mid) a

theorem Covers.of_recognizes {x : Read α} {H : List Lexeme → α → List Lexeme → Prop}
    {G : List Lexeme → α → Prop} (h : Recognizes x H) (hsteps : Stepwise (fun _ => True) x)
    (hG : ∀ ls a rest, H ls a rest → Before G ls a rest) : Covers x G := by
  intro r p cs a r' hr hx
  obtain ⟨_, ⟨q, ds, hat, rfl⟩, hrest⟩ := h.sound ⟨p, cs, hr, rfl⟩ hx
  obtain ⟨mid, ds', rfl, hat'⟩ := hsteps.tracks hr
  rw [hx] at hat'
  obtain ⟨rfl, rfl⟩ := hat.unique hat'
  obtain ⟨used, hls, hused⟩ := hG _ _ _ hrest
  have hapart := Text.apart_of_lexemes_append hls
  obtain rfl := List.append_cancel_right (hapart.lexemes_append.symm.trans hls)
  exact ⟨mid, ds, rfl, hat, hapart, hused⟩

theorem expectChar_covers {l : Lexeme} {c : Char} (hl : l.Bracket c) (fault : Fault) :
    Covers (expectChar c fault) fun ls _ => ls = [l] :=
  .of_recognizes (expectChar_recognizes hl fault) (.expectChar _ _) fun _ _ _ hls =>
    ⟨[l], hls, rfl⟩

theorem readName_covers : Covers readName Heading :=
  .of_recognizes readName_recognizes .readName fun _ _ _ => id

theorem readCombiner_covers : Covers readCombiner fun ls combiner =>
    ∃ w, ls = [.word w] ∧ (lowercase (String.ofList w), combiner) ∈ Combiner.words :=
  .of_recognizes readCombiner_recognizes .readCombiner fun _ _ _ ⟨w, hls, hw⟩ =>
    ⟨[.word w], hls, w, rfl, hw⟩

theorem readNumber_covers (what : String) : Covers (readNumber what) fun ls x => Numbers ls [x] :=
  .of_recognizes (readNumber_recognizes what) (.readNumber what) fun _ _ _ => id

theorem readVector_covers (what : String) :
    Covers (readVector what) fun ls v => Numbers ls v.toList :=
  .of_recognizes (readVector_recognizes what) (.readVector what) fun _ _ _ => id

theorem readMatrix_covers (what : String) :
    Covers (readMatrix what) fun ls m => ∃ xs, Numbers ls xs ∧ MatrixValues xs m :=
  .of_recognizes (readMatrix_recognizes what) (.readMatrix what)
    fun _ _ _ ⟨xs, ⟨used, hls, hvalues⟩, hm⟩ =>
      ⟨used, hls, xs, hvalues, hm.imp_right And.left⟩

theorem expression_covers (limit room : ℕ) :
    Covers (expression limit room) (Expression room) :=
  .of_recognizes (expression_recognizes limit room) (.expression trivial room) fun _ _ _ => id

theorem Covers.imp {x : Read α} {G G' : List Lexeme → α → Prop} (h : Covers x G)
    (hG : ∀ ls a, G ls a → G' ls a) : Covers x G' := by
  intro r p cs a r' hr hx
  obtain ⟨mid, rest, hcs, hat, hapart, hmid⟩ := h r p cs a r' hr hx
  exact ⟨mid, rest, hcs, hat, hapart, hG _ _ hmid⟩

/-! ## Many expressions -/

/-- Reading to the end goes on as long as there is something to read. -/
theorem readAll_faces {r : Reader} {ls : List Lexeme} (limit : ℕ) (hr : r.Faces ls) :
    (ls = [] ∧ ∃ r', readAll limit r = (.ok [], r') ∧ r'.Faces []) ∨
      ls ≠ [] ∧ ∃ r₁, r₁.Faces ls ∧ readAll limit r =
        (construct limit >>= fun s => readAll limit >>= fun ss => pure (s :: ss)) r₁ := by
  obtain ⟨next, r₁, hpeek, h₁, hshows⟩ := peekChar_shows hr
  have hrun := congrFun (readAll_eq limit) r
  rw [bind_of_ok hpeek] at hrun
  cases next with
  | none =>
    obtain rfl := hshows.nothing.1 rfl
    exact .inl ⟨rfl, r₁, hrun, h₁⟩
  | some c =>
    refine .inr ⟨fun hls => ?_, r₁, h₁, hrun⟩
    exact Option.some_ne_none c (hshows.nothing.2 hls)

theorem readAll_recognizes (limit : ℕ) :
    Recognizes (readAll limit) fun ls ss rest => Expressions limit ls ss ∧ rest = [] := by
  have hs := expression_recognizes limit limit
  constructor
  · intro r ls ss r' hr hx
    induction ss generalizing r ls with
    | nil =>
      rcases readAll_faces limit hr with ⟨rfl, r₁, hrun, h₁⟩ | ⟨-, r₁, -, hrun⟩ <;>
        rw [hrun] at hx
      · cases hx
        exact ⟨[], h₁, .nil, rfl⟩
      · obtain ⟨s, r₂, -, hx⟩ := bind_eq_ok hx
        obtain ⟨ss, r₃, -, hx⟩ := bind_eq_ok hx
        cases hx
    | cons s ss ih =>
      rcases readAll_faces limit hr with ⟨rfl, r₁, hrun, h₁⟩ | ⟨-, r₁, h₁, hrun⟩ <;>
        rw [hrun] at hx
      · cases hx
      · obtain ⟨s, r₂, hread, hx⟩ := bind_eq_ok hx
        obtain ⟨ss, r₃, hrest, hx⟩ := bind_eq_ok hx
        cases hx
        obtain ⟨mid, h₂, u, rfl, hu⟩ := hs.sound h₁ hread
        obtain ⟨rest, h₃, hmid, rfl⟩ := ih h₂ hrest
        exact ⟨[], h₃, .cons hu hmid, rfl⟩
  · rintro r ls ss _ hr ⟨hss, rfl⟩
    induction hss generalizing r with
    | nil =>
      rcases readAll_faces limit hr with ⟨-, r₁, hrun, h₁⟩ | ⟨hne, -⟩
      · exact ⟨r₁, hrun, h₁⟩
      · exact absurd rfl hne
    | @cons u v s ss hu _ ih =>
      rcases readAll_faces limit hr with ⟨hnil, -⟩ | ⟨-, r₁, h₁, hrun⟩
      · obtain ⟨u', rfl⟩ := List.head?_eq_some_iff.1 (head?_of_expression hu)
        cases hnil
      · obtain ⟨r₂, hread, h₂⟩ := hs.complete h₁ ⟨u, rfl, hu⟩
        obtain ⟨r₃, hrest, h₃⟩ := ih h₂
        exact ⟨r₃, hrun.trans ((bind_of_ok hread _).trans (bind_of_ok hrest _)), h₃⟩

end Read

namespace Scene

variable {limit : ℕ} {text : String}

theorem faces_ofText (text : String) :
    (Reader.ofEvents (Source.ofText text)).Faces (lexemes text.toList) :=
  ⟨_, _, Reader.at_ofText text, rfl⟩

theorem parse_eq_ok_iff {s : Scene} :
    parse limit text = .ok s ↔ Expression limit (lexemes text.toList) s := by
  refine ((Read.whole_recognizes limit).fst_eq_ok_iff (faces_ofText text)).trans ?_
  exact ⟨fun ⟨_, h, _⟩ => h, fun h => ⟨[], h, rfl⟩⟩

theorem parseMany_eq_ok_iff {ss : List Scene} :
    parseMany limit text = .ok ss ↔ Expressions limit (lexemes text.toList) ss := by
  refine ((Read.readAll_recognizes limit).fst_eq_ok_iff (faces_ofText text)).trans ?_
  exact ⟨fun ⟨_, h, _⟩ => h, fun h => ⟨[], h, rfl⟩⟩

/-- A text is read as a scene exactly where it spells an expression of the scene that nests brackets
no deeper than the limit. -/
theorem parse_eq_ok_iff_derivation {s : Scene} :
    parse limit text = .ok s ↔ ∃ ls, Text.Spells text.toList ls ∧ Expression limit ls s := by
  rw [parse_eq_ok_iff]
  constructor
  · exact fun h => ⟨_, Text.spells_iff.2 rfl, h⟩
  · rintro ⟨_, hspells, h⟩
    rwa [Text.spells_iff.1 hspells]

end Scene

end SolidScene
