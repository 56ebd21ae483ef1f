import SolidScene.Proofs.Scene.DepthLimit
import SolidScene.Proofs.Scene.Faults
import SolidScene.Proofs.Scene.Streaming

/-!
# Texts that can be continued

A fault of form, that is of a bracket, a tag or a word and not of a value, stands where a text stops
being the beginning of a scene's text (`Scene.stopsAt`). What stands before it can be continued: up
to the fault every action has passed the beginning of what the grammar wants of it (`Read.Stops`).
What was pulled cannot, as the fault is found whatever follows.
-/

namespace SolidScene

open Source (Event Answers ofText)
open Text (Position Lexeme lexemes before isBlank isWordChar Apart)
open Grammar

/-- A fault of a bracket, a tag or a word, and not of a value. -/
def Fault.OfForm (fault : Fault) : Prop := fault.category ≠ .malformed ∧ fault ≠ .singularMatrix

theorem Fault.not_ofForm {fault : Fault} (h : fault.category = .malformed) : ¬ fault.OfForm :=
  fun hform => hform.1 h

namespace Grammar

/-! ## Expressions of any depth -/

/-- The lexemes are an expression of the scene. -/
def Describes (ls : List Lexeme) (s : Scene) : Prop := Expression s.depth ls s

theorem Expression.describes {n : ℕ} {ls : List Lexeme} {s : Scene} (h : Expression n ls s) :
    Describes ls s :=
  (expression_iff ((expression_iff le_rfl).1 h).2).2 ⟨h, le_rfl⟩

theorem Heading.describes {head body : List Lexeme} {name : Name} {s : Scene}
    (hhead : Heading head name) (hbody : Body Describes name body s) :
    Describes (.opening :: (head ++ body ++ [.closing])) s := by
  obtain ⟨n, hn⟩ : ∃ n, s.depth = n + 1 := Nat.exists_eq_succ_of_ne_zero s.depth_pos.ne'
  have hchildren := Solid.depth_le_succ_iff.1 hn.le
  unfold Describes
  rw [hn]
  exact ⟨head, name, body, hhead,
    hbody.imp fun t ht u hu => ((expression_iff (hchildren t ht)).1 hu).1, rfl⟩

/-! ## Continuations -/

/-- Some text behind the lexemes makes them what `G` relates to a result. -/
def Continues {α : Type} (G : List Lexeme → α → Prop) (ls : List Lexeme) : Prop :=
  ∃ (more : List Char) (a : α), G (ls ++ lexemes more) a

/-- A scene to go on with. -/
def ball : Scene := .sphere ⟨0.0, 0.0, 0.0⟩ 1.0

def ballText : List Char := "[+sphere 0 0 0 1]".toList

theorem describes_ball : Describes (lexemes ballText) ball :=
  (Scene.parse_eq_ok_iff.1
    (show Scene.parse 1 "[+sphere 0 0 0 1]" = .ok ball by decide +kernel)).describes

/-- A text of a scene continues what it begins with. -/
theorem continues_of_parse {limit : ℕ} {text : String} {s : Scene}
    (h : Scene.parse limit text = .ok s) (ls : List Lexeme) (more : List Char)
    (htext : lexemes text.toList = ls ++ lexemes more) : Continues Describes ls :=
  ⟨more, s, htext ▸ (Scene.parse_eq_ok_iff.1 h).describes⟩

theorem continues_nil : Continues Describes [] := ⟨ballText, ball, describes_ball⟩

theorem continues_opening : Continues Describes [.opening] :=
  continues_of_parse (show Scene.parse 1 "[+sphere 0 0 0 1]" = .ok ball by decide +kernel) _
    "+sphere 0 0 0 1]".toList (by decide +kernel)

theorem continues_tag : ∀ tag : Tag, Continues Describes [.opening, .word [tag.char]]
  | .object => continues_of_parse
    (show Scene.parse 1 "[+ sphere 0 0 0 1]" = .ok ball by decide +kernel) _
    " sphere 0 0 0 1]".toList (by decide +kernel)
  | .operation => continues_of_parse
    (show Scene.parse 2 "[% scale 1 [+sphere 0 0 0 1]]" = .ok (.scaled 1.0 ball) by
      decide +kernel) _
    " scale 1 [+sphere 0 0 0 1]]".toList (by decide +kernel)

end Grammar

namespace Read

variable {α β : Type}

/-! ## Faults of values -/

/-- Whatever the action finds wrong is wrong with a value. -/
def OnlyValues (x : Read α) : Prop := ∀ r fault q r', x r = (.error (.rejected fault q), r') →
  ¬ fault.OfForm

namespace OnlyValues

theorem pure (a : α) : OnlyValues (pure a) := by
  rintro _ _ _ _ ⟨⟩

theorem bind {x : Read α} {f : α → Read β} (hx : OnlyValues x) (hf : ∀ a, OnlyValues (f a)) :
    OnlyValues (x >>= f) := by
  intro r fault q r' h
  rw [bind_apply] at h
  split at h
  · exact hf _ _ _ _ _ h
  · cases h
    exact hx _ _ _ _ ‹_›

theorem reject {fault : Fault} (h : ¬ fault.OfForm) (at_ : Position) :
    OnlyValues (reject fault at_ : Read α) := by
  rintro _ _ _ _ ⟨⟩
  exact h

theorem rejectAtStart {fault : Fault} (h : ¬ fault.OfForm) :
    OnlyValues (tokenStart >>= fun at_ => Read.reject fault at_ : Read α) := by
  rintro _ _ _ _ ⟨⟩
  exact h

theorem of_unreadable {x : Read α}
    (h : ∀ {r e r'}, x r = (.error e, r') → ∃ cause, e = .unreadable cause) : OnlyValues x := by
  intro r fault q r' hx
  obtain ⟨_, ⟨⟩⟩ := h hx

theorem takeWhile (p : Char → Bool) : OnlyValues (takeWhile p) :=
  of_unreadable unreadable_of_runOf

theorem peekChar : OnlyValues peekChar :=
  ((takeWhile isBlank).bind fun _ => .pure _).bind fun _ => of_unreadable unreadable_of_peek

theorem mark : OnlyValues mark := by
  rintro _ _ _ _ ⟨⟩

theorem readToken (what : String) : OnlyValues (readToken what) := by
  refine ((takeWhile isBlank).bind fun _ => .pure _).bind fun _ => mark.bind fun _ =>
    (takeWhile isWordChar).bind fun word => ?_
  split
  · refine (of_unreadable unreadable_of_peek).bind fun next => ?_
    cases next <;> exact .reject (Fault.not_ofForm rfl) _
  · exact .pure _

theorem readNumber (what : String) : OnlyValues (readNumber what) := by
  refine (readToken what).bind fun token => ?_
  split
  · exact .pure _
  · exact .reject (Fault.not_ofForm rfl) _

theorem readVector (what : String) : OnlyValues (readVector what) :=
  (readNumber what).bind fun _ => (readNumber what).bind fun _ => (readNumber what).bind fun _ =>
    .pure _

theorem readRow (what : String) : OnlyValues (readRow what) :=
  (readNumber what).bind fun _ => (readNumber what).bind fun _ => (readNumber what).bind fun _ =>
    (readNumber what).bind fun _ => .pure _

theorem readMatrix (what : String) : OnlyValues (readMatrix what) := by
  refine (readRow what).bind fun _ => (readRow what).bind fun _ => (readRow what).bind fun _ =>
    .bind (peekChar.bind fun next => ?_) fun _ => .pure _
  split
  · exact .pure _
  · exact readRow what

theorem readNonNegative (what : String) : OnlyValues (readNonNegative what) := by
  refine (readNumber what).bind fun x => ?_
  split
  · exact .rejectAtStart (Fault.not_ofForm rfl)
  · exact .pure _

theorem readObject (name : ObjectName) : OnlyValues (readObject name) := by
  cases name with
  | sphere | cube => exact (readVector _).bind fun _ => (readNonNegative _).bind fun _ => .pure _
  | torus | cylinder =>
    exact (readVector _).bind fun _ => (readNonNegative _).bind fun _ =>
      (readNonNegative _).bind fun _ => .pure _
  | box =>
    refine (readVector _).bind fun _ => (readVector _).bind fun size => ?_
    split
    · exact .rejectAtStart (Fault.not_ofForm rfl)
    · exact .pure _
  | plane =>
    refine (readVector _).bind fun _ => (readVector _).bind fun normal => ?_
    split
    · exact .pure _
    · exact .rejectAtStart (Fault.not_ofForm rfl)

end OnlyValues

/-! ## What bodies pass -/

theorem readBody_covers (limit room : ℕ) (name : Name) :
    Covers (readBody (expression limit room) name) (Body Describes name) :=
  .imp (.of_recognizes (readBody_recognizes (expression_recognizes limit room)
    head?_of_expression name) (.readBody (.expression trivial room) name) fun _ _ _ => id)
    fun _ _ h => h.imp fun _ _ _ hu => hu.describes

/-! ## Where actions stop -/

/-- Where the action finds a fault of form, `V` holds of what it has passed before the place. -/
def Stops (x : Read α) (V : List Lexeme → Prop) : Prop := ∀ r p cs fault q r', r.At p cs →
  x r = (.error (.rejected fault q), r') → fault.OfForm →
    fault ≠ .trailingInput ∧ ∃ mid rest, cs = mid ++ rest ∧ q = p.past mid ∧ V (lexemes mid)

namespace Stops

variable {V : List Lexeme → Prop}

theorem of_onlyValues {x : Read α} (h : OnlyValues x) : Stops x V :=
  fun _ _ _ _ _ _ _ hx hform => absurd hform (h _ _ _ _ hx)

theorem pure (a : α) : Stops (pure a) V := of_onlyValues (.pure a)

theorem imp {x : Read α} {W : List Lexeme → Prop} (h : Stops x V) (hV : ∀ ls, V ls → W ls) :
    Stops x W := by
  intro r p cs fault q r' hr hx hform
  obtain ⟨htrailing, mid, rest, hcs, hq, hmid⟩ := h r p cs fault q r' hr hx hform
  exact ⟨htrailing, mid, rest, hcs, hq, hV _ hmid⟩

/-- Behind what the first action has passed, the second passes what is still wanted. -/
theorem bind {x : Read α} {f : α → Read β} {G : List Lexeme → α → Prop} (hx : Stops x V)
    (hG : Covers x G) (hf : ∀ a, Stops (f a) fun ls => ∀ used, G used a → V (used ++ ls)) :
    Stops (x >>= f) V := by
  intro r p cs fault q r' hr h hform
  rw [bind_apply] at h
  split at h
  · rename_i a r₁ hread
    obtain ⟨mid, rest, rfl, h₁, hapart, hmid⟩ := hG _ _ _ _ _ hr hread
    obtain ⟨htrailing, mid', rest', rfl, rfl, hmid'⟩ := hf a _ _ _ _ _ _ h₁ h hform
    refine ⟨htrailing, mid ++ mid', rest', (List.append_assoc ..).symm, ?_, ?_⟩
    · rw [Position.past_append]
    · rw [hapart.left.lexemes_append]
      exact hmid' _ hmid
  · cases h
    exact hx _ _ _ _ _ _ hr ‹_› hform

theorem after_values {x : Read α} {f : α → Read β} {G : List Lexeme → α → Prop}
    (hx : OnlyValues x) (hG : Covers x G)
    (hf : ∀ a, Stops (f a) fun ls => ∀ used, G used a → V (used ++ ls)) : Stops (x >>= f) V :=
  (of_onlyValues hx).bind hG hf

end Stops

variable {V : List Lexeme → Prop}

theorem expectChar_stops (c : Char) {fault : Fault} (hfault : fault ≠ .trailingInput) (hV : V []) :
    Stops (expectChar c fault) V := by
  intro r p cs fault' q r' hr hx _
  cases expectChar_error hr hx
  refine ⟨hfault, _, _, List.takeWhile_append_dropWhile.symm, rfl, ?_⟩
  rwa [Text.lexemes_takeWhile_isBlank]

theorem readCombiner_stops (hV : V []) : Stops readCombiner V := by
  intro r p cs fault q r' hr hx _
  cases readCombiner_error hr hx
  refine ⟨nofun, _, _, List.takeWhile_append_dropWhile.symm, rfl, ?_⟩
  rwa [Text.lexemes_takeWhile_isBlank]

theorem readName_stops (hV : V []) (htag : ∀ tag : Tag, V [.word [tag.char]]) :
    Stops readName V := by
  intro r p cs fault q r' hr hx hform
  rcases readName_error hr hx with he | ⟨tag, ds, fault', hds, he, hfault⟩ <;> cases he
  · refine ⟨nofun, _, _, List.takeWhile_append_dropWhile.symm, rfl, ?_⟩
    rwa [Text.lexemes_takeWhile_isBlank]
  · have hname : fault ≠ .trailingInput := by
      rcases hfault with ⟨found, -, rfl⟩ | ⟨-, rfl⟩ <;> nofun
    refine ⟨hname, cs.takeWhile isBlank ++ tag.char :: ds.takeWhile isBlank, ds.dropWhile isBlank,
      ?_, ?_, ?_⟩
    · rw [List.append_assoc, List.cons_append, List.takeWhile_append_dropWhile, ← hds,
        List.takeWhile_append_dropWhile]
    · rw [Position.past_append, Position.past_cons]
    · have hblank : ∀ c ∈ ds.takeWhile isBlank, isBlank c = true :=
        List.all_eq_true.1 List.all_takeWhile
      have hend : ∀ c ∈ (ds.takeWhile isBlank).head?, isWordChar c = false := fun c hc => by
        simp [isWordChar, hblank c (List.mem_of_mem_head? hc)]
      rw [Text.lexemes_blanks_append (List.all_eq_true.1 List.all_takeWhile),
        ← List.singleton_append, Text.lexemes_append (List.cons_ne_nil _ _)
          (List.forall_mem_singleton.2 tag.isWordChar_char) hend, Text.lexemes_blanks hblank]
      exact htag tag

section Operation

variable {child : Read Scene} (h : Stops child (Continues Describes))
  (hcovers : Covers child Describes)

include h hcovers

theorem readOperation_stops (name : OperationName) :
    Stops (readOperation child name) (Continues (Body Describes (.operation name))) := by
  cases name with
  | boolean =>
    have hnil : Continues (Body Describes (.operation .boolean)) [] := by
      refine ⟨"add ".toList ++ ballText ++ ballText, .boolean .add ball ball, ?_⟩
      have hlexemes : lexemes ("add ".toList ++ ballText ++ ballText) =
          .word "add".toList :: (lexemes ballText ++ lexemes ballText) := by
        decide +kernel
      rw [List.nil_append, hlexemes]
      have hadd := Combiner.ofWord?_eq_some_iff.1
        (show Combiner.ofWord? (String.ofList "add".toList) = some .add by decide +kernel)
      exact .boolean hadd describes_ball describes_ball
    refine (readCombiner_stops hnil).bind readCombiner_covers fun combiner =>
      .bind (h.imp ?_) hcovers fun a => .bind (h.imp ?_) hcovers fun b => .pure _
    · rintro ls ⟨more, a, ha⟩ _ ⟨w, rfl, hw⟩
      refine ⟨more ++ ' ' :: ballText, .boolean combiner a ball, ?_⟩
      have hbody := Body.boolean hw ha describes_ball
      rwa [Text.lexemes_append_space, List.append_assoc, ← List.append_assoc ls]
    · rintro ls ⟨more, b, hb⟩ u ha _ ⟨w, rfl, hw⟩
      refine ⟨more, .boolean combiner a b, ?_⟩
      have hbody := Body.boolean hw ha hb
      rwa [List.append_assoc, List.append_assoc]
  | duplicate =>
    refine .after_values (.readVector _) (readVector_covers _) fun period =>
      .bind (h.imp ?_) hcovers fun inner => .pure _
    rintro ls ⟨more, inner, hinner⟩ used hvalues
    exact ⟨more, _, by rw [List.append_assoc]; exact .duplicate hvalues hinner⟩
  | matrix =>
    refine .after_values (.readMatrix _) (readMatrix_covers _) fun m => ?_
    split
    · rename_i placement hplacement
      refine .bind (h.imp ?_) hcovers fun inner => .pure _
      rintro ls ⟨more, inner, hinner⟩ used ⟨xs, hvalues, hm⟩
      exact ⟨more, _, by rw [List.append_assoc]; exact .matrix hvalues hm hplacement hinner⟩
    · exact .of_onlyValues (.rejectAtStart fun hform => hform.2 rfl)
  | scale =>
    refine .after_values (.readNumber _) (readNumber_covers _) fun factor => ?_
    split
    · exact .of_onlyValues (.rejectAtStart (Fault.not_ofForm rfl))
    · rename_i hfactor
      refine .bind (h.imp ?_) hcovers fun inner => .pure _
      rintro ls ⟨more, inner, hinner⟩ used hvalues
      refine ⟨more, .scaled factor inner, ?_⟩
      rw [List.append_assoc]
      exact .scale hvalues (by simpa using hfactor) hinner

theorem readBody_stops (name : Name) :
    Stops (readBody child name) (Continues (Body Describes name)) := by
  cases name with
  | object name => exact .of_onlyValues (.readObject name)
  | operation name => exact readOperation_stops h hcovers name

end Operation

theorem expression_stops (limit : ℕ) :
    ∀ room, Stops (expression limit room) (Continues Describes)
  | 0 => by
    refine .of_onlyValues (OnlyValues.peekChar.bind fun _ => ?_)
    rintro _ _ _ _ ⟨⟩
  | room + 1 => by
    have hbody := readBody_stops (expression_stops limit room)
      ((expression_covers limit room).imp fun _ _ hs => hs.describes)
    refine Stops.bind (expectChar_stops '[' nofun ?_) (expectChar_covers .opening _) fun _ =>
      .bind (readName_stops ?_ ?_) readName_covers fun name =>
        .bind ((hbody name).imp ?_) (readBody_covers limit room name) fun s =>
          .bind (expectChar_stops ']' nofun ?_) (expectChar_covers .closing _) fun _ => .pure _
    -- what is wanted behind nothing, a bracket, a tag, some of a body and a whole body
    · exact continues_nil
    · rintro _ rfl
      exact continues_opening
    · rintro tag _ rfl
      exact continues_tag tag
    · rintro ls ⟨more, s, hs⟩ head hhead _ rfl
      refine ⟨more ++ ' ' :: [']'], s, ?_⟩
      have hdescribes := hhead.describes hs
      simpa [Text.lexemes_append_space] using hdescribes
    · rintro body hbody head hhead _ rfl
      refine ⟨[']'], s, ?_⟩
      have hdescribes := hhead.describes hbody
      simpa using hdescribes

/-- Trailing input stands behind an expression, and before every other fault of form there is what
begins one. -/
theorem whole_stops {limit : ℕ} {r r' : Reader} {p q : Position} {cs : List Char} {fault : Fault}
    (hr : r.At p cs) (hx : whole limit r = (.error (.rejected fault q), r'))
    (hform : fault.OfForm) : ∃ mid rest, cs = mid ++ rest ∧ q = p.past mid ∧
      Continues Describes (lexemes mid) ∧
      (fault = .trailingInput → ∃ s, Expression limit (lexemes mid) s) := by
  unfold whole at hx
  rw [bind_apply] at hx
  split at hx
  · rename_i s r₁ hread
    obtain ⟨mid, rest, rfl, h₁, hapart, hs⟩ := expression_covers limit limit _ _ _ _ _ hr hread
    have hend : expectEnd r₁ = (.error (.rejected fault q), r') := by
      rw [bind_apply] at hx
      split at hx
      · cases hx
      · cases hx
        assumption
    cases expectEnd_error h₁ hend
    have hmid : Expression limit (lexemes (mid ++ rest.takeWhile isBlank)) s := by
      have hborder : Apart mid (rest.takeWhile isBlank ++ rest.dropWhile isBlank) := by
        rwa [List.takeWhile_append_dropWhile]
      rwa [hborder.left.lexemes_append, Text.lexemes_takeWhile_isBlank, List.append_nil]
    refine ⟨mid ++ rest.takeWhile isBlank, rest.dropWhile isBlank, ?_, ?_, ?_, fun _ => ⟨s, hmid⟩⟩
    · rw [List.append_assoc, List.takeWhile_append_dropWhile]
    · rw [Position.past_append]
    · exact ⟨[], s, by simpa using hmid.describes⟩
  · rename_i e r₁ hread
    cases hx
    obtain ⟨htrailing, mid, rest, hcs, hq, hmid⟩ :=
      expression_stops limit limit _ _ _ _ _ _ hr hread hform
    exact ⟨mid, rest, hcs, hq, hmid, fun h => absurd h htrailing⟩

end Read

namespace Scene

variable {limit : ℕ} {text : String} {fault : Fault} {q : Position}

theorem parse_cuts {n m : ℕ} (h : n ≤ m) (text : String) :
    parse n text = parse m text ∨ ∃ q, parse n text = .error (.tooDeep n q) :=
  (Read.whole_cuts h _ _ _ (Reader.at_ofText text)).imp (congrArg Prod.fst)
    fun ⟨q, _, hdeep⟩ => ⟨q, congrArg Prod.fst hdeep⟩

/-- A text that is refused for what is wrong with it is refused at every limit. -/
theorem parse_ne_ok_of_rejected (h : parse limit text = .error (.rejected fault q)) (m : ℕ)
    (s : Scene) : parse m text ≠ .ok s := by
  intro hok
  rcases le_total limit m with hle | hle <;> rcases parse_cuts hle text with hsame | ⟨_, hdeep⟩
  · cases h.symm.trans (hsame.trans hok)
  · cases h.symm.trans hdeep
  · cases hok.symm.trans (hsame.trans h)
  · cases hok.symm.trans hdeep

/-- What is wrong with a text is wrong with every text that begins with what was pulled of it. -/
theorem parse_append_of_pulls (h : parse limit text = .error (.rejected fault q)) {head : String}
    (hpulls : Read.Pulls (Read.whole limit) (ofText text) (ofText head)) (more : String) :
    parse limit (head ++ more) = .error (.rejected fault q) := by
  obtain ⟨pulled, hfoot⟩ := (Read.Stepwise.whole limit).exists_footprint (.ofEvents (ofText text))
  obtain rfl := hfoot.eq_of_pulls hpulls
  have htext : ofText (head ++ more) = ofText head ++ ofText more := by
    rw [ofText, String.toList_append, List.map_append]
    rfl
  rw [← h, parse, htext]
  exact ofEvents_eq hfoot (.of_append _ _)

/-- A text up to its first fault of form. -/
structure StopsAt (limit : ℕ) (text : String) (fault : Fault) (q : Position) : Prop where
  /-- The place of the fault is one of the text. -/
  place : Position.start.past (before q text.toList) = q
  /-- What stands before the fault can be continued to the text of a scene. -/
  continues : ∃ more m s, parse m (String.ofList (before q text.toList) ++ more) = .ok s
  /-- What stands before trailing input is the text of a scene. -/
  complete : fault = .trailingInput →
    ∃ s, parse limit (String.ofList (before q text.toList)) = .ok s
  /-- What was pulled cannot be continued so, unless the end of the text was pulled with it. -/
  pulled : (∃ pulled, Read.Pulls (Read.whole limit) (ofText text) pulled) ∧
    ∀ pulled, Read.Pulls (Read.whole limit) (ofText text) pulled → .pause ∈ pulled ∨
      ∃ head, pulled = ofText head ∧ ∀ more m s, parse m (head ++ more) ≠ .ok s

/-- A fault of form stands where its text stops being the beginning of a scene's text. -/
theorem stopsAt (h : parse limit text = .error (.rejected fault q)) (hform : fault.OfForm) :
    StopsAt limit text fault q := by
  obtain ⟨mid, rest, htext, rfl, ⟨more, s, hs⟩, hcomplete⟩ :=
    Read.whole_stops (Reader.at_ofText text) (Prod.ext h rfl) hform
  have hbefore : before (Position.start.past mid) text.toList = mid := by
    rw [htext, Text.before_append]
  constructor
  · rw [hbefore]
  · rw [hbefore]
    refine ⟨String.ofList (' ' :: more), s.depth, s, parse_eq_ok_iff.2 ?_⟩
    rw [String.toList_append, String.toList_ofList, String.toList_ofList,
      Text.lexemes_append_space]
    exact hs
  · rw [hbefore]
    intro hfault
    obtain ⟨s, hs⟩ := hcomplete hfault
    exact ⟨s, parse_eq_ok_iff.2 (by rwa [String.toList_ofList])⟩
  · obtain ⟨pulled, hfoot⟩ :=
      (Read.Stepwise.whole limit).exists_footprint (.ofEvents (ofText text))
    refine ⟨⟨pulled, hfoot.pulls⟩, fun pulled' hpulls => ?_⟩
    obtain rfl := hfoot.eq_of_pulls hpulls
    rcases hfoot.answers.eq_append_or_mem with hevents | hmem
    · obtain ⟨u, v, -, hu, -⟩ := List.map_eq_append_iff.1 hevents
      have hhead : pulled = ofText (String.ofList u) := by
        rw [ofText, String.toList_ofList, hu]
      subst hhead
      exact .inr ⟨_, rfl, fun more =>
        parse_ne_ok_of_rejected (parse_append_of_pulls h hpulls more)⟩
    · exact .inl hmem

/-- A word in the place of a combiner that is none. -/
theorem stopsAt_bad_combiner :
    let text := "[%boolean x [+sphere 0 0 0 1]]"
    parse 2 text = .error (.rejected .badCombiner ⟨1, 11⟩) ∧ Fault.badCombiner.OfForm ∧
      StopsAt 2 text .badCombiner ⟨1, 11⟩ := by
  intro text
  have htext : parse 2 text = .error (.rejected .badCombiner ⟨1, 11⟩) := by decide +kernel
  have hform : Fault.badCombiner.OfForm := ⟨by decide, by decide⟩
  exact ⟨htext, hform, stopsAt htext hform⟩

end Scene

end SolidScene
