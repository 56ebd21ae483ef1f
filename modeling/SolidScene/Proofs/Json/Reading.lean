import SolidScene.Proofs.Json.Scanning

/-!
# JSON texts are read

Reading goes on from a state over the tokens of a text (`State.after?`). Over the text of a value it
delivers the value to what stands open (`Element.after?`), so a JSON text is read as its value
(`parse?_of_element`).
-/

namespace SolidScene.Json

open Grammar

/-- The state behind a text that is read on from a state. -/
def State.after? (state : State) (cs : List Char) : Option State :=
  (Token.scan? cs).bind fun tokens => tokens.foldlM step? state

namespace State

variable {state : State} {stack : List Frame}

@[simp] theorem after?_nil : state.after? [] = some state := by
  rw [after?, Token.scan?]
  rfl

theorem after?_blanks {bs : List Char} (h : Blanks bs) (cs : List Char) :
    state.after? (bs ++ cs) = state.after? cs := by
  induction bs with
  | nil => rfl
  | cons b bs ih =>
    obtain ⟨hb, hbs⟩ := List.forall_mem_cons.1 h
    rw [← ih hbs, List.cons_append, after?, Token.scan?, if_pos hb, after?]

theorem after?_token {c : Char} {cs rest : List Char} {t : Token} (hblank : isBlank c = false)
    (h : Token.next? (c :: cs) = some (t, rest)) :
    state.after? (c :: cs) = (state.step? t).bind fun next => next.after? rest := by
  have hscan : Token.scan? (c :: cs) = (Token.scan? rest).map (t :: ·) := by
    rw [Token.scan?, if_neg (by simp [hblank])]
    split
    · rename_i hnone
      cases h.symm.trans hnone
    · rename_i hsome
      cases h.symm.trans hsome
      rfl
  rw [after?, hscan]
  cases hrest : Token.scan? rest with
  | none => cases state.step? t <;> simp [after?, hrest]
  | some tokens =>
    rw [Option.map_some, Option.bind_some, List.foldlM_cons]
    simp only [after?, hrest, Option.bind_some]
    rfl

/-- A value may begin here, and what is on the stack stands open around it. -/
def AwaitsValue (state : State) (stack : List Frame) : Prop :=
  ∀ t, t ≠ .endArray → state.step? t = begin? stack t

/-- A key may come here, behind these members, and what is on the stack stands open around. -/
def AwaitsKey (state : State) (members : List (Option String × Json)) (stack : List Frame) : Prop :=
  ∀ key, state.step? (.string key) = some (.needColon members key stack)

theorem awaitsValue_needValue (stack : List Frame) : (needValue stack).AwaitsValue stack :=
  fun _ _ => rfl

theorem awaitsValue_arrayStart (stack : List Frame) :
    (arrayStart stack).AwaitsValue (.array [] :: stack) := by
  intro t ht
  cases t <;> first | rfl | exact absurd rfl ht

theorem awaitsKey_needKey (members : List (Option String × Json)) (stack : List Frame) :
    (needKey members stack).AwaitsKey members stack :=
  fun _ => rfl

theorem awaitsKey_objectStart (stack : List Frame) : (objectStart stack).AwaitsKey [] stack :=
  fun _ => rfl

end State

open State

theorem Ends.cons {c : Char} (h : isBlank c = true ∨ c ∈ [',', ']', '}']) (cs : List Char) :
    Ends (c :: cs) := by
  rintro _ ⟨⟩
  exact h

theorem Ends.blanks {bs rest : List Char} (h : Ends rest) (hbs : Blanks bs) :
    Ends (bs ++ rest) := by
  cases bs with
  | nil => exact h
  | cons b bs => exact .cons (.inl (hbs b List.mem_cons_self)) _

theorem isBlank_of_begins_numeral {c : Char} (h : c = '-' ∨ c.isDigit = true) :
    isBlank c = false := by
  refine Bool.eq_false_of_not_eq_true fun hblank => ?_
  simp only [isBlank, Bool.or_eq_true, beq_iff_eq] at hblank
  rcases hblank with ((rfl | rfl) | rfl) | rfl <;> simp at h

/-- A token that begins a value in its place is the whole value, or opens it. -/
theorem State.AwaitsValue.after?_token {state : State} {stack : List Frame}
    (h : state.AwaitsValue stack) {t : Token} {c : Char} {cs rest : List Char}
    (hblank : isBlank c = false) (hnext : Token.next? (c :: cs) = some (t, rest))
    (ht : t ≠ .endArray) :
    state.after? (c :: cs) = (begin? stack t).bind fun next => next.after? rest := by
  rw [State.after?_token hblank hnext, h t ht]

-- The induction is on the derivation of the text. The stack is universally quantified in each
-- statement, since the values of an array or an object are read above the frame of it.
mutual

theorem Grammar.Value.after? {v : Json} {cs : List Char} (h : Value v cs) {state : State}
    {stack : List Frame} (hstate : state.AwaitsValue stack) {rest : List Char} (hrest : Ends rest) :
    state.after? (cs ++ rest) = (deliver v stack).after? rest := by
  match h with
  | .null | .true | .false => exact (hstate.after?_token rfl rfl (by simp)).trans rfl
  | .number h =>
    have hnext := next?_numeral h hrest
    obtain ⟨c, ds, hcons, hc⟩ := exists_numeral_eq_cons h
    have hblank := isBlank_of_begins_numeral hc
    rw [hcons, List.cons_append] at hnext ⊢
    exact (hstate.after?_token hblank hnext (by simp)).trans rfl
  | .string h =>
    have hnext := next?_quoted h rest
    obtain ⟨_, _⟩ := h
    exact (hstate.after?_token rfl hnext (by simp)).trans rfl
  | .emptyArray h =>
    rw [List.cons_append, List.append_assoc, hstate.after?_token rfl rfl (by simp)]
    exact (after?_blanks h _).trans ((State.after?_token rfl rfl).trans rfl)
  | .array h =>
    rw [List.cons_append, List.append_assoc, hstate.after?_token rfl rfl (by simp)]
    exact h.after? (awaitsValue_arrayStart stack) rest
  | .emptyObject h =>
    rw [List.cons_append, List.append_assoc, hstate.after?_token rfl rfl (by simp)]
    exact (after?_blanks h _).trans ((State.after?_token rfl rfl).trans rfl)
  | .object h =>
    rw [List.cons_append, List.append_assoc, hstate.after?_token rfl rfl (by simp)]
    exact h.after? (awaitsKey_objectStart stack) rest

theorem Grammar.Element.after? {v : Json} {cs : List Char} (h : Element v cs) {state : State}
    {stack : List Frame} (hstate : state.AwaitsValue stack) {rest : List Char} (hrest : Ends rest) :
    state.after? (cs ++ rest) = (deliver v stack).after? rest := by
  match h with
  | .mk hbefore h hafter =>
    rw [List.append_assoc, List.append_assoc, after?_blanks hbefore,
      h.after? hstate (hrest.blanks hafter), after?_blanks hafter]

theorem Grammar.Elements.after? {items : List Json} {cs : List Char} (h : Elements items cs)
    {state : State} {before : List Json} {stack : List Frame}
    (hstate : state.AwaitsValue (.array before :: stack)) (rest : List Char) :
    state.after? (cs ++ ']' :: rest) =
      (deliver (.array (before.reverse ++ items)) stack).after? rest := by
  match h with
  | .one h =>
    rw [h.after? hstate (.cons (.inr (by simp)) _), State.after?_token rfl rfl]
    simp [deliver, State.step?]
  | @Elements.more v _ _ _ h hs =>
    have htail := hs.after? (awaitsValue_needValue (.array (v :: before) :: stack)) rest
    rw [List.append_assoc, List.cons_append, h.after? hstate (.cons (.inr (by simp)) _),
      State.after?_token rfl rfl]
    simpa [deliver, State.step?] using htail

theorem Grammar.Member.after? {m : Option String × Json} {cs : List Char} (h : Member m cs)
    {state : State} {before : List (Option String × Json)} {stack : List Frame}
    (hstate : state.AwaitsKey before stack) {rest : List Char} (hrest : Ends rest) :
    state.after? (cs ++ rest) = (afterMember (m :: before) stack).after? rest := by
  match h with
  | @Member.mk key _ _ _ _ _ hbefore hkey hafter h =>
    have hvalue := h.after? (awaitsValue_needValue (.object before key :: stack)) hrest
    have hnext := next?_quoted hkey
    obtain ⟨_, _⟩ := hkey
    simp only [List.append_assoc, List.cons_append, List.nil_append] at hnext hvalue ⊢
    rw [after?_blanks hbefore, State.after?_token rfl (hnext _), hstate, Option.bind_some,
      after?_blanks hafter, State.after?_token rfl rfl]
    exact hvalue

theorem Grammar.Members.after? {ms : List (Option String × Json)} {cs : List Char}
    (h : Members ms cs) {state : State} {before : List (Option String × Json)} {stack : List Frame}
    (hstate : state.AwaitsKey before stack) (rest : List Char) :
    state.after? (cs ++ '}' :: rest) =
      (deliver (.object (before.reverse ++ ms)) stack).after? rest := by
  match h with
  | .one h =>
    rw [h.after? hstate (.cons (.inr (by simp)) _), State.after?_token rfl rfl]
    simp [State.step?]
  | @Members.more m _ _ _ h hs =>
    have htail := hs.after? (awaitsKey_needKey (m :: before) stack) rest
    rw [List.append_assoc, List.cons_append, h.after? hstate (.cons (.inr (by simp)) _),
      State.after?_token rfl rfl]
    simpa [State.step?] using htail

end

/-- A JSON text is read as its value. -/
theorem parse?_of_element {v : Json} {text : String} (h : Element v text.toList) :
    parse? text = some v := by
  have hend : Ends [] := nofun
  have hafter := h.after? (awaitsValue_needValue []) hend
  rw [List.append_nil, deliver, after?_nil, State.after?, Option.bind_eq_some_iff] at hafter
  obtain ⟨tokens, hscan, htokens⟩ := hafter
  rw [parse?, hscan, Option.bind_some, ofTokens?, htokens]

end SolidScene.Json
