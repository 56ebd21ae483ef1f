import SolidScene.Proofs.Scene.Facing
import SolidScene.Proofs.Scene.Session

/-!
# Looking ahead

Every operation begins with blanks, and where among them it begins makes no difference to it
(`Operation.ignoresBlanks`). On a text a look ahead passes blanks and nothing else. So looks ahead
between the operations are invisible: the others report what they report without
(`Reader.reports_filter`).
-/

namespace SolidScene

open Source (Event)
open Text (Position isBlank)

/-! ## Among blanks -/

/-- From one reader to another these blanks are passed, and the source goes on with these events. -/
structure Reader.PassesBlanks (r r' : Reader) (blanks : List Char) (behind : List Event) :
    Prop where
  blank : ∀ c ∈ blanks, isBlank c = true
  upcoming : r.upcoming = blanks.map .char ++ behind
  position : r'.position = r.position.past blanks
  tokenStart : r'.tokenStart = r.tokenStart

namespace Read

variable {α β : Type}

/-- The action does the same from all places among blanks. -/
def IgnoresBlanks (x : Read α) : Prop := ∀ (r r' : Reader) (blanks : List Char),
  r.PassesBlanks r' blanks r'.upcoming → x r = x r'

theorem runOf_blanks (start : Position) {blanks : List Char} (h : ∀ c ∈ blanks, isBlank c = true)
    (behind : List Event) (p : Position) : runOf isBlank start (blanks.map .char ++ behind) p =
      ((runOf isBlank start behind (p.past blanks)).1.map (blanks ++ ·),
        (runOf isBlank start behind (p.past blanks)).2) := by
  induction blanks generalizing p with
  | nil => rcases hrun : runOf isBlank start behind p with ⟨_ | _, _⟩ <;> simp [hrun, Except.map]
  | cons c blanks ih =>
    obtain ⟨hc, hblanks⟩ := List.forall_mem_cons.1 h
    rw [List.map_cons, List.cons_append, runOf, if_pos hc, ih hblanks, Position.past_cons]
    rcases runOf isBlank start behind ((p.advance c).past blanks) with ⟨_ | _, _⟩ <;> rfl

theorem skipBlanks_apply (r : Reader) :
    skipBlanks r = ((takeWhile isBlank r).1.map fun _ => (), (takeWhile isBlank r).2) := by
  unfold skipBlanks
  rw [bind_apply]
  rcases takeWhile isBlank r with ⟨_ | _, _⟩ <;> rfl

namespace IgnoresBlanks

theorem skipBlanks : IgnoresBlanks skipBlanks := by
  intro r r' blanks h
  have hrun : takeWhile isBlank r = ((takeWhile isBlank r').1.map (blanks ++ ·),
      (takeWhile isBlank r').2) := by
    unfold takeWhile
    rw [h.upcoming, h.position, h.tokenStart]
    exact runOf_blanks _ h.blank _ _
  rw [skipBlanks_apply, skipBlanks_apply, hrun]
  rcases takeWhile isBlank r' with ⟨_ | _, _⟩ <;> rfl

theorem bind {x : Read α} (hx : IgnoresBlanks x) (f : α → Read β) : IgnoresBlanks (x >>= f) := by
  intro r r' blanks h
  rw [bind_apply, bind_apply, hx r r' blanks h]

theorem peekChar : IgnoresBlanks peekChar := skipBlanks.bind _

theorem readChar : IgnoresBlanks readChar := skipBlanks.bind _

theorem readToken (what : String) : IgnoresBlanks (readToken what) := skipBlanks.bind _

theorem readNumber (what : String) : IgnoresBlanks (readNumber what) := (readToken what).bind _

theorem readVector (what : String) : IgnoresBlanks (readVector what) := (readNumber what).bind _

theorem readRow (what : String) : IgnoresBlanks (readRow what) := (readNumber what).bind _

theorem readMatrix (what : String) : IgnoresBlanks (readMatrix what) := (readRow what).bind _

theorem expression (limit : ℕ) : ∀ room, IgnoresBlanks (expression limit room)
  | 0 => peekChar.bind _
  | _ + 1 => (readChar.bind _).bind _

theorem constructAll (limit : ℕ) : IgnoresBlanks (constructAll limit) := by
  rw [constructAll_eq]
  exact peekChar.bind _

end IgnoresBlanks

end Read

theorem Operation.ignoresBlanks (op : Operation) : Read.IgnoresBlanks op.action := by
  cases op with
  | peekChar => exact .peekChar
  | readChar => exact .readChar
  | readToken what => exact .readToken what
  | readNumber what => exact .readNumber what
  | readVector what => exact .readVector what
  | readMatrix what => exact .readMatrix what
  | construct limit => exact .expression limit limit
  | constructAll limit => exact .constructAll limit

/-! ## Reports -/

namespace Operation

/-- What an operation gave, and the reader's places behind it. -/
structure Report where
  op : Operation
  result : Except SceneError op.Value
  position : Position
  tokenStart : Position

def report (op : Operation) (r : Reader) : Report :=
  ⟨op, (op.action r).1, (op.action r).2.position, (op.action r).2.tokenStart⟩

@[simp] theorem report_op (op : Operation) (r : Reader) : (op.report r).op = op := rfl

/-- Whether the operation is a look ahead. -/
def isLook : Operation → Bool
  | .peekChar => true
  | _ => false

end Operation

namespace Reader

/-- What some operations give, one after another, each of which may fail. -/
def reports (r : Reader) : List Operation → List Operation.Report
  | [] => []
  | op :: ops => op.report r :: (op.action r).2.reports ops

/-- Behind a first operation that does the same, so do all. -/
theorem reports_congr {r r' : Reader} {op : Operation} (h : op.action r = op.action r')
    (ops : List Operation) : r.reports (op :: ops) = r'.reports (op :: ops) := by
  rw [reports, reports, Operation.report, Operation.report, h]

/-! ## On a text -/

/-- All that is still to come are characters. -/
def OnText (r : Reader) : Prop := ∃ cs : List Char, r.upcoming = cs.map .char

theorem passage_onText : Read.Passage fun r r' => r.OnText → r'.OnText where
  refl _ := id
  trans h h' := h' ∘ h
  mark _ := id
  peek r := by
    rintro ⟨cs, h⟩
    obtain ⟨r', hpeek, hat, -⟩ := Read.peek_at ⟨rfl, h⟩
    rw [hpeek]
    exact ⟨cs, hat.upcoming⟩
  pass {r c} hc := by
    rintro ⟨cs, h⟩
    simp only [upcoming, hc] at h
    obtain ⟨_, cs, rfl, -, hunread⟩ := List.map_eq_cons_iff.1 h.symm
    exact ⟨cs, hunread.symm⟩

/-- A look ahead passes the blanks before the next character. -/
theorem OnText.passesBlanks {r : Reader} (h : r.OnText) : ∃ blanks,
    r.PassesBlanks (Read.peekChar r).2 blanks (Read.peekChar r).2.upcoming := by
  obtain ⟨cs, h⟩ := h
  obtain ⟨r₁, hskip, h₁⟩ := Read.takeWhile_at ⟨rfl, h⟩ isBlank
  obtain ⟨r₂, hpeek, h₂, -⟩ := Read.peek_at h₁
  have hstart : r₂.tokenStart = r.tokenStart := by
    have hskip' := Read.tokenStart_takeWhile isBlank r
    have hpeek' := Read.tokenStart_peek r₁
    rw [hskip] at hskip'
    rw [hpeek] at hpeek'
    exact hpeek'.trans hskip'
  have hrun : Read.peekChar r = (.ok (cs.dropWhile isBlank).head?, r₂) :=
    (Read.bind_of_ok (Read.bind_of_ok hskip _) _).trans hpeek
  rw [hrun]
  refine ⟨cs.takeWhile isBlank, List.all_eq_true.1 List.all_takeWhile, ?_, ?_, hstart⟩
  · rw [h, h₂.upcoming, ← List.map_append, List.takeWhile_append_dropWhile]
  · exact h₂.position

/-- Behind a look ahead everything goes on as it would have gone without. -/
theorem OnText.reports_peekChar {r : Reader} (h : r.OnText) (ops : List Operation) :
    (Read.peekChar r).2.reports ops = r.reports ops := by
  obtain ⟨blanks, hpasses⟩ := h.passesBlanks
  cases ops with
  | nil => rfl
  | cons op ops => exact reports_congr (op.ignoresBlanks _ _ _ hpasses).symm ops

theorem OnText.filter_reports {r : Reader} (h : r.OnText) (ops : List Operation) :
    (r.reports ops).filter (!·.op.isLook) = r.reports (ops.filter (!·.isLook)) := by
  induction ops generalizing r with
  | nil => rfl
  | cons op ops ih =>
    have ih := ih (passage_onText.operation op r h)
    cases hop : op.isLook with
    | true =>
      simp only [reports, List.filter_cons, Operation.report_op, hop, Bool.not_true,
        Bool.false_eq_true, if_false, ih]
      cases op with
      | peekChar => exact h.reports_peekChar _
      | _ => cases hop
    | false =>
      simp only [reports, List.filter_cons, Operation.report_op, hop, Bool.not_false, if_true, ih]

/-- Looks ahead between the operations that read a text are invisible: however many there are, and
wherever they stand, the other operations report the same results and places as without them. -/
theorem reports_filter (text : String) (ops : List Operation) :
    ((ofEvents (Source.ofText text)).reports ops).filter (!·.op.isLook) =
      (ofEvents (Source.ofText text)).reports (ops.filter (!·.isLook)) :=
  OnText.filter_reports ⟨text.toList, rfl⟩ ops

end Reader

end SolidScene
