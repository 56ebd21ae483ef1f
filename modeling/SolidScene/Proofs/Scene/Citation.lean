import SolidScene.Proofs.Scene.DepthLimit
import SolidScene.Proofs.Scene.Faults

/-!
# What errors cite

Every error of a text has the place of a character that is no blank, or of the text's end, and what
its fault says was found there stands there (`Scene.cited_of_parse`, `Scene.cited_of_parseMany`).
The places come from words just read, from marks of words read before and from looking ahead, so
along the actions the mark is kept at such a place (`Read.Keeps`, `Reader.Marked`).
-/

namespace SolidScene

open Text (Position isBlank isWordChar)

/-- What the values of a text are called in errors, and the words behind tags. -/
def wordings : List String :=
  ["sphere center", "sphere radius", "cube center", "cube size", "box center", "box size",
    "torus center", "torus major radius", "torus minor radius", "cylinder center",
    "cylinder radius", "cylinder length", "plane point", "plane normal", "duplicate vector",
    "matrix value", "scale factor", "object name", "operation name"]

/-- The values among them that are single lengths. -/
def lengthWordings : List String :=
  ["sphere radius", "cube size", "torus major radius", "torus minor radius", "cylinder radius",
    "cylinder length"]

/-- What the fault says of the text stands at the front of these characters. -/
def Fault.Cites (rest : List Char) : Fault → Prop
  | .expected what found => what ∈ wordings ∧ found.Shows rest
  | .negative what value => what ∈ lengthWordings ∧
    Number.finite? (rest.takeWhile isWordChar) = some value
  | .unknownName _ word => rest.takeWhile isWordChar ≠ [] ∧
    word = lowercase (String.ofList (rest.takeWhile isWordChar))
  | .other .. => False
  | _ => True

/-- At this place of the text, with these characters from it on, no blank stands. -/
def Text.Stands (text : List Char) (q : Position) (rest : List Char) : Prop :=
  ∃ mid, text = mid ++ rest ∧ q = Position.start.past mid ∧ ∀ c ∈ rest.head?, isBlank c = false

open Text (Stands)

/-- The error stands at a place of the text, and cites what stands there. -/
def SceneError.Cited (text : List Char) : SceneError → Prop
  | .rejected fault q => ∃ rest, Stands text q rest ∧ fault.Cites rest
  | .tooDeep _ q => ∃ rest, Stands text q rest
  | .unreadable _ => False

variable {text : List Char}

/-- The reader stands in the text. -/
def Reader.Inside (text : List Char) (r : Reader) : Prop :=
  ∃ mid rest, text = mid ++ rest ∧ r.At (Position.start.past mid) rest

/-- Moreover, the last word or character that was read is one of the text. -/
def Reader.Marked (text : List Char) (r : Reader) : Prop :=
  r.Inside text ∧ ∃ rest, Stands text r.tokenStart rest

namespace Read

variable {α β : Type}

theorem Stepwise.inside {x : Read α} (h : Stepwise (fun _ => True) x) {r : Reader}
    (hr : r.Inside text) : (x r).2.Inside text := by
  obtain ⟨mid, rest, rfl, hat⟩ := hr
  obtain ⟨mid', rest', rfl, hat'⟩ := h.tracks hat
  exact ⟨mid ++ mid', rest', (List.append_assoc ..).symm, by rwa [Position.past_append]⟩

theorem stands_behind_blanks {mid cs : List Char} (htext : text = mid ++ cs) :
    Stands text ((Position.start.past mid).past (cs.takeWhile isBlank)) (cs.dropWhile isBlank) := by
  refine ⟨mid ++ cs.takeWhile isBlank, ?_, ?_, Text.head?_dropWhile_isBlank cs⟩
  · rw [htext, List.append_assoc, List.takeWhile_append_dropWhile]
  · rw [Position.past_append]

/-- From readers of `P` the action comes to readers of `Q` or to an error the text bears out. -/
structure Keeps (text : List Char) (P : Reader → Prop) (x : Read α) (Q : α → Reader → Prop) :
    Prop where
  ok : ∀ {r a r'}, P r → x r = (.ok a, r') → Q a r'
  error : ∀ {r e r'}, P r → x r = (.error e, r') → e.Cited text

namespace Keeps

variable {P : Reader → Prop} {x : Read α} {f : α → Read β} {Q : α → Reader → Prop}
  {R : β → Reader → Prop}

theorem pure {a : α} (h : ∀ r, P r → Q a r) : Keeps text P (pure a) Q where
  ok hr hx := by
    cases hx
    exact h _ hr
  error _ hx := by cases hx

theorem bind (hx : Keeps text P x Q) (hf : ∀ a, Keeps text (Q a) (f a) R) :
    Keeps text P (x >>= f) R where
  ok hr h := by
    obtain ⟨a, r₁, hread, h⟩ := bind_eq_ok h
    exact (hf a).ok (hx.ok hr hread) h
  error hr h := by
    rw [bind_apply] at h
    split at h
    · exact (hf _).error (hx.ok hr ‹_›) h
    · cases h
      exact hx.error hr ‹_›

theorem imp {P' : Reader → Prop} {Q' : α → Reader → Prop} (h : Keeps text P x Q)
    (hP : ∀ r, P' r → P r) (hQ : ∀ a r, Q a r → Q' a r) : Keeps text P' x Q' where
  ok hr hx := hQ _ _ (h.ok (hP _ hr) hx)
  error hr hx := h.error (hP _ hr) hx

theorem rejectAtStart {fault : Fault}
    (h : ∀ r, P r → ∃ rest, Stands text r.tokenStart rest ∧ fault.Cites rest) :
    Keeps text P (tokenStart >>= fun at_ => reject fault at_ : Read α) Q where
  ok _ hx := by cases hx
  error hr hx := by
    cases hx
    exact h _ hr

end Keeps

/-! ## Values -/

section Values

variable {what : String} (hwhat : what ∈ wordings)

include hwhat

theorem readNumber_keeps : Keeps text (Reader.Inside text) (readNumber what) fun x r =>
    r.Inside text ∧ ∃ rest, Stands text r.tokenStart rest ∧
      Number.finite? (rest.takeWhile isWordChar) = some x where
  ok := by
    rintro r x r' hr hx
    have hinside := Stepwise.inside (.readNumber what) hr
    rw [hx] at hinside
    obtain ⟨mid, cs, htext, hat⟩ := hr
    obtain ⟨hnumber, hstart⟩ := readNumber_ok hat hx
    exact ⟨hinside, _, hstart ▸ stands_behind_blanks htext, hnumber⟩
  error := by
    rintro r e r' ⟨mid, cs, htext, hat⟩ hx
    obtain ⟨found, hfound, rfl⟩ := readNumber_error hat hx
    exact ⟨_, stands_behind_blanks htext, hwhat, hfound⟩

theorem readMarked_keeps :
    Keeps text (Reader.Inside text) (readNumber what) fun _ => Reader.Marked text :=
  (readNumber_keeps hwhat).imp (fun _ => id) fun _ _ ⟨hinside, rest, hstands, _⟩ =>
    ⟨hinside, rest, hstands⟩

theorem readVector_keeps :
    Keeps text (Reader.Inside text) (readVector what) fun _ => Reader.Marked text :=
  have hnumber := (readMarked_keeps hwhat).imp (fun _ (hr : Reader.Marked text _) => hr.1)
    fun _ _ => id
  (readMarked_keeps hwhat).bind fun _ => hnumber.bind fun _ => hnumber.bind fun _ =>
    .pure fun _ => id

theorem readRow_keeps :
    Keeps text (Reader.Inside text) (readRow what) fun _ => Reader.Marked text :=
  have hnumber := (readMarked_keeps hwhat).imp (fun _ (hr : Reader.Marked text _) => hr.1)
    fun _ _ => id
  (readMarked_keeps hwhat).bind fun _ => hnumber.bind fun _ => hnumber.bind fun _ =>
    hnumber.bind fun _ => .pure fun _ => id

omit hwhat in
theorem peekChar_keeps :
    Keeps text (Reader.Marked text) peekChar fun _ => Reader.Marked text where
  ok := by
    rintro r next r' ⟨hr, hmark⟩ hx
    have hinside := Stepwise.inside .peekChar hr
    rw [hx] at hinside
    obtain ⟨mid, cs, -, hat⟩ := hr
    obtain ⟨r₁, hpeek, -, -, hstart⟩ := peekChar_facing ⟨_, cs, hat, rfl, rfl⟩
    cases hpeek.symm.trans hx
    exact ⟨hinside, by rwa [hstart]⟩
  error := by
    rintro r e r' ⟨⟨mid, cs, -, hat⟩, -⟩ hx
    obtain ⟨r₁, hpeek, -⟩ := peekChar_at hat
    cases hpeek.symm.trans hx

theorem readMatrix_keeps :
    Keeps text (Reader.Inside text) (readMatrix what) fun _ => Reader.Marked text := by
  have hrow : Keeps text (Reader.Marked text) (readRow what) fun _ => Reader.Marked text :=
    (readRow_keeps hwhat).imp (fun _ hr => hr.1) fun _ _ => id
  refine (readRow_keeps hwhat).bind fun _ => hrow.bind fun _ => hrow.bind fun _ =>
    .bind (peekChar_keeps.bind fun next => ?_) fun _ => .pure fun _ => id
  split
  · exact .pure fun _ => id
  · exact hrow

end Values

theorem readNonNegative_keeps {what : String} (hwhat : what ∈ lengthWordings) :
    Keeps text (Reader.Inside text) (readNonNegative what) fun _ => Reader.Inside text := by
  have hword : ∀ w ∈ lengthWordings, w ∈ wordings := by decide
  refine (readNumber_keeps (hword what hwhat)).bind fun x => ?_
  split
  · exact .rejectAtStart fun r ⟨_, rest, hstands, hx⟩ => ⟨rest, hstands, hwhat, hx⟩
  · exact .pure fun r hr => hr.1

theorem readObject_keeps (name : ObjectName) :
    Keeps text (Reader.Inside text) (readObject name) fun _ => Reader.Inside text := by
  have hvector {what : String} (hwhat : what ∈ wordings) :
      Keeps text (Reader.Inside text) (readVector what) fun _ => Reader.Inside text :=
    (readVector_keeps hwhat).imp (fun _ => id) fun _ _ hr => hr.1
  cases name with
  | sphere =>
    exact (hvector (by decide)).bind fun _ => (readNonNegative_keeps (by decide)).bind fun _ =>
      .pure fun _ => id
  | cube =>
    exact (hvector (by decide)).bind fun _ => (readNonNegative_keeps (by decide)).bind fun _ =>
      .pure fun _ => id
  | torus =>
    exact (hvector (by decide)).bind fun _ => (readNonNegative_keeps (by decide)).bind fun _ =>
      (readNonNegative_keeps (by decide)).bind fun _ => .pure fun _ => id
  | cylinder =>
    exact (hvector (by decide)).bind fun _ => (readNonNegative_keeps (by decide)).bind fun _ =>
      (readNonNegative_keeps (by decide)).bind fun _ => .pure fun _ => id
  | box =>
    refine (hvector (by decide)).bind fun _ => (readVector_keeps (by decide)).bind fun size => ?_
    split
    · exact .rejectAtStart fun r ⟨_, rest, hstands⟩ => ⟨rest, hstands, True.intro⟩
    · exact .pure fun _ hr => hr.1
  | plane =>
    refine (hvector (by decide)).bind fun _ => (readVector_keeps (by decide)).bind fun normal => ?_
    split
    · exact .pure fun _ hr => hr.1
    · exact .rejectAtStart fun r ⟨_, rest, hstands⟩ => ⟨rest, hstands, True.intro⟩

/-! ## Brackets, tags and names -/

/-- An action with one fault, which it finds behind blanks. -/
theorem Keeps.of_error {x : Read α} (fault : Fault) (hsteps : Stepwise (fun _ => True) x)
    (hfault : ∀ rest, fault.Cites rest)
    (hx : ∀ {r p cs e r'}, r.At p cs → x r = (.error e, r') →
      e = .rejected fault (p.past (cs.takeWhile isBlank))) :
    Keeps text (Reader.Inside text) x fun _ => Reader.Inside text where
  ok hr h := by
    have hinside := hsteps.inside hr
    rwa [h] at hinside
  error := by
    rintro r e r' ⟨mid, cs, htext, hat⟩ h
    cases hx hat h
    exact ⟨_, stands_behind_blanks htext, hfault _⟩

theorem expectChar_keeps (c : Char) (fault : Fault) (hfault : ∀ rest, fault.Cites rest) :
    Keeps text (Reader.Inside text) (expectChar c fault) fun _ => Reader.Inside text :=
  .of_error fault (.expectChar _ _) hfault expectChar_error

theorem expectEnd_keeps :
    Keeps text (Reader.Inside text) expectEnd fun _ => Reader.Inside text :=
  .of_error .trailingInput .expectEnd (fun _ => True.intro) expectEnd_error

theorem readCombiner_keeps :
    Keeps text (Reader.Inside text) readCombiner fun _ => Reader.Inside text :=
  .of_error .badCombiner .readCombiner (fun _ => True.intro) readCombiner_error

theorem readName_keeps :
    Keeps text (Reader.Inside text) readName fun _ => Reader.Inside text where
  ok hr h := by
    have hinside := Stepwise.inside .readName hr
    rwa [h] at hinside
  error := by
    rintro r e r' ⟨mid, cs, htext, hat⟩ h
    rcases readName_error hat h with rfl | ⟨tag, ds, fault, hds, rfl, hfault⟩
    · exact ⟨_, stands_behind_blanks htext, True.intro⟩
    · have hbehind : text = (mid ++ cs.takeWhile isBlank ++ [tag.char]) ++ ds := by
        rw [htext, List.append_assoc, List.append_assoc, List.singleton_append, ← hds,
          List.takeWhile_append_dropWhile]
      have hstands := stands_behind_blanks hbehind
      rw [Position.past_append, Position.past_append] at hstands
      refine ⟨_, hstands, ?_⟩
      rcases hfault with ⟨found, hfound, rfl⟩ | ⟨hw, rfl⟩
      · exact ⟨by cases tag <;> decide, hfound⟩
      · exact ⟨hw, rfl⟩

/-! ## Expressions -/

theorem readOperation_keeps {child : Read Scene}
    (h : Keeps text (Reader.Inside text) child fun _ => Reader.Inside text) (name : OperationName) :
    Keeps text (Reader.Inside text) (readOperation child name) fun _ => Reader.Inside text := by
  have hmarked := h.imp (fun _ (hr : Reader.Marked text _) => hr.1) fun _ _ => id
  cases name with
  | boolean =>
    exact readCombiner_keeps.bind fun _ => h.bind fun _ => h.bind fun _ => .pure fun _ => id
  | duplicate =>
    exact (readVector_keeps (by decide)).bind fun _ => hmarked.bind fun _ => .pure fun _ => id
  | matrix =>
    refine (readMatrix_keeps (by decide)).bind fun m => ?_
    split
    · exact hmarked.bind fun _ => .pure fun _ => id
    · exact .rejectAtStart fun r ⟨_, rest, hstands⟩ => ⟨rest, hstands, True.intro⟩
  | scale =>
    refine (readMarked_keeps (by decide)).bind fun factor => ?_
    split
    · exact .rejectAtStart fun r ⟨_, rest, hstands⟩ => ⟨rest, hstands, True.intro⟩
    · exact hmarked.bind fun _ => .pure fun _ => id

theorem readBody_keeps {child : Read Scene}
    (h : Keeps text (Reader.Inside text) child fun _ => Reader.Inside text) (name : Name) :
    Keeps text (Reader.Inside text) (readBody child name) fun _ => Reader.Inside text := by
  cases name with
  | object name => exact readObject_keeps name
  | operation name => exact readOperation_keeps h name

theorem expression_keeps (limit : ℕ) : ∀ room,
    Keeps text (Reader.Inside text) (expression limit room) fun _ => Reader.Inside text
  | 0 => by
    constructor <;> rintro r a r' ⟨mid, cs, htext, hat⟩ h <;>
      obtain ⟨r₁, hdeep⟩ := expression_zero_at limit hat <;> cases hdeep.symm.trans h
    exact ⟨_, stands_behind_blanks htext⟩
  | room + 1 =>
    (expectChar_keeps '[' .missingOpening fun _ => True.intro).bind fun _ =>
      readName_keeps.bind fun name =>
        (readBody_keeps (expression_keeps limit room) name).bind fun _ =>
          (expectChar_keeps ']' .missingClosing fun _ => True.intro).bind fun _ => .pure fun _ => id

theorem whole_keeps (limit : ℕ) :
    Keeps text (Reader.Inside text) (whole limit) fun _ => Reader.Inside text :=
  (expression_keeps limit limit).bind fun _ => expectEnd_keeps.bind fun _ => .pure fun _ => id

theorem cited_of_readAll (limit : ℕ) {r r' : Reader} {e : SceneError} (hr : r.Inside text)
    (hx : readAll limit r = (.error e, r')) : e.Cited text := by
  -- every expression that is read leaves less to come
  induction hk : r.remaining using Nat.strong_induction_on generalizing r r' with
  | _ k ih =>
    obtain ⟨mid, cs, -, hat⟩ := id hr
    have h₁ := Stepwise.inside .peekChar hr
    obtain ⟨r₁, hpeek, -⟩ := peekChar_at hat
    rw [hpeek] at h₁
    have hrun := congrFun (readAll_eq limit) r
    rw [bind_of_ok hpeek] at hrun
    rw [hrun] at hx
    rcases hnext : (cs.dropWhile isBlank).head? with _ | c <;> rw [hnext] at hx hpeek
    · cases hx
    rcases hread : construct limit r₁ with ⟨e' | s, r₂⟩
    · cases (bind_of_error hread _).symm.trans hx
      exact (expression_keeps limit limit).error h₁ hread
    · have hx := (bind_of_ok hread _).symm.trans hx
      have hlt := remaining_lt_of_construct hpeek hread
      rcases hrest : readAll limit r₂ with ⟨e' | ss, r₃⟩
      · cases (bind_of_error hrest _).symm.trans hx
        exact ih r₂.remaining (hk ▸ hlt) ((expression_keeps limit limit).ok h₁ hread) hrest rfl
      · cases (bind_of_ok hrest _).symm.trans hx

end Read

namespace Scene

variable {limit : ℕ} {text : String} {e : SceneError}

theorem inside_ofText (text : String) :
    (Reader.ofEvents (Source.ofText text)).Inside text.toList :=
  ⟨[], text.toList, rfl, Reader.at_ofText text⟩

theorem cited_of_parse (h : parse limit text = .error e) : e.Cited text.toList :=
  (Read.whole_keeps limit).error (inside_ofText text) (Prod.ext h rfl)

theorem cited_of_parseMany (h : parseMany limit text = .error e) : e.Cited text.toList :=
  Read.cited_of_readAll limit (inside_ofText text) (Prod.ext h rfl)

end Scene

end SolidScene
