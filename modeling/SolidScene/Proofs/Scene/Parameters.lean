import Mathlib.Data.ZMod.Basic
import SolidScene.Proofs.Scene.Acceptance
import SolidScene.Proofs.Scene.LetterCase

/-!
# Every parameter counts

The words of an expression say how many numbers stand in it: each name stands for as many as its
parameters, where the matrix, with its last row or without, stands for a multiple of four
(`Expression.surplus_eq_zero`). No number is one of the words, and no two texts that are a single
number apart have as many as their words say modulo four. So none is left out or put in unnoticed
(`Scene.exists_error_of_oneApart`).
-/

namespace SolidScene

open Text (Lexeme lexemes)

namespace Number

theorem isDigit_toLower (c : Char) : c.toLower.isDigit = c.isDigit :=
  apply_toLower (by decide) c

theorem exists_isDigit_of_decimal? {negative : Bool} {cs : List Char} {x : Float}
    (h : decimal? negative cs = some x) : ∃ c ∈ cs, c.isDigit = true := by
  simp only [decimal?] at h
  split_ifs at h with hempty
  have hne : (spanDigits cs).1 ++ (fraction (spanDigits cs).2).1 ≠ [] := by simpa using hempty
  obtain ⟨c, hc⟩ := List.exists_mem_of_ne_nil _ hne
  rcases List.mem_append.1 hc with hc | hc
  · exact ⟨c, List.takeWhile_subset _ hc, List.all_eq_true.1 List.all_takeWhile c hc⟩
  · have hrest : (spanDigits cs).2 ⊆ cs := List.dropWhile_subset _
    unfold fraction at hc
    split at hc
    · next places hplaces =>
      rw [hplaces] at hrest
      exact ⟨c, hrest (List.mem_cons_of_mem _ (List.takeWhile_subset _ hc)),
        List.all_eq_true.1 List.all_takeWhile c hc⟩
    · simp at hc

theorem exists_isDigit_of_magnitude? {negative : Bool} {cs : List Char} {x : Float}
    (h : magnitude? negative cs = some x) (hx : x.isFinite = true) :
    ∃ c ∈ cs, c.isDigit = true := by
  unfold magnitude? at h
  split_ifs at h with hinf hnan
  · cases h
    exact absurd hx (by cases negative <;> decide +kernel)
  · cases h
    exact absurd hx (by decide +kernel)
  · exact exists_isDigit_of_decimal? h

/-- A finite literal has a digit. -/
theorem exists_isDigit_of_finite? {w : List Char} {x : Float} (h : finite? w = some x) :
    ∃ c ∈ w, c.isDigit = true := by
  obtain ⟨hread, hx⟩ := Option.filter_eq_some_iff.1 h
  obtain ⟨c, hc, hdigit⟩ : ∃ c ∈ w.map Char.toLower, c.isDigit = true := by
    unfold ofChars? at hread
    split at hread
    · next heq =>
      obtain ⟨c, hc, hdigit⟩ := exists_isDigit_of_magnitude? hread hx
      exact ⟨c, heq ▸ List.mem_cons_of_mem _ hc, hdigit⟩
    · next heq =>
      obtain ⟨c, hc, hdigit⟩ := exists_isDigit_of_magnitude? hread hx
      exact ⟨c, heq ▸ List.mem_cons_of_mem _ hc, hdigit⟩
    · exact exists_isDigit_of_magnitude? hread hx
  obtain ⟨d, hd, rfl⟩ := List.mem_map.1 hc
  exact ⟨d, hd, isDigit_toLower d ▸ hdigit⟩

end Number

/-! ## What words stand for -/

/-- How many numbers stand between a name and what follows them, a matrix with its last row. -/
def Name.arity : Name → ℕ
  | .object .sphere | .object .cube => 4
  | .object .torus | .object .cylinder => 5
  | .object .box | .object .plane => 6
  | .operation .boolean => 0
  | .operation .scale => 1
  | .operation .duplicate => 3
  | .operation .matrix => 16

/-- The words of the language with how many numbers each stands for, the names behind their tags as
well as without. -/
def arities : List (String × ℕ) :=
  Combiner.words.map (fun (word, _) => (word, 0)) ++
    [Tag.object, Tag.operation].flatMap fun tag =>
      (tag.char.toString, 0) :: tag.words.flatMap fun (word, name) =>
        [(word, name.arity), (tag.char.toString ++ word, name.arity)]

/-- How many numbers a word stands for, in any letter case. -/
def arity? (w : List Char) : Option ℕ := arities.lookup (lowercase (String.ofList w))

theorem arity?_combiner {w : List Char} {combiner : Combiner}
    (h : (lowercase (String.ofList w), combiner) ∈ Combiner.words) : arity? w = some 0 := by
  have hwords : ∀ p ∈ Combiner.words, arities.lookup p.1 = some 0 := by decide +kernel
  exact hwords _ h

theorem arity?_tag (tag : Tag) : arity? [tag.char] = some 0 := by
  cases tag <;> decide +kernel

theorem arity?_name {tag : Tag} {w : List Char} {name : Name}
    (h : (lowercase (String.ofList w), name) ∈ tag.words) :
    arity? w = some name.arity ∧ arity? (tag.char :: w) = some name.arity := by
  have hwords : ∀ p ∈ tag.words, arities.lookup p.1 = some p.2.arity ∧
      arities.lookup (tag.char.toString ++ p.1) = some p.2.arity := by
    cases tag <;> decide +kernel
  have hglued : lowercase (String.ofList (tag.char :: w))
      = tag.char.toString ++ lowercase (String.ofList w) := by
    rw [← String.toList_inj]
    cases tag <;> simp [lowercase, Tag.char]
  rw [arity?, arity?, hglued]
  exact hwords _ h

/-- No number is a word of the language: those have no digits. -/
theorem arity?_eq_none {w : List Char} {x : Float} (h : Number.finite? w = some x) :
    arity? w = none := by
  have hwords : arities.all fun p => p.1.toList.all fun c => !c.isDigit := by
    decide +kernel
  refine Option.eq_none_iff_forall_ne_some.2 fun n hn => ?_
  obtain ⟨before, after, heq, -⟩ := List.lookup_eq_some_iff.1 hn
  obtain ⟨c, hc, hdigit⟩ := Number.exists_isDigit_of_finite? h
  have hword := List.all_eq_true.1 hwords _ (by rw [heq]; exact List.mem_append_cons_self)
  have hchar := List.all_eq_true.1 hword c.toLower
    (by simpa [lowercase] using List.mem_map_of_mem hc)
  simp [Number.isDigit_toLower, hdigit] at hchar

namespace Grammar

/-! ## Numbers and the words that ask for them -/

/-- By how much a number is more than the words stand for, modulo four. -/
def surplus : Lexeme → ZMod 4
  | .word w => if (Number.finite? w).isSome then 1 else -((arity? w).getD 0 : ℕ)
  | _ => 0

theorem surplus_number {w : List Char} {x : Float} (h : Number.finite? w = some x) :
    surplus (.word w) = 1 := by
  simp [surplus, h]

theorem surplus_word {w : List Char} {n : ℕ} (h : arity? w = some n) :
    surplus (.word w) = -n := by
  have hnumber : Number.finite? w = none :=
    Option.eq_none_iff_forall_ne_some.2 fun x hx => by simp [arity?_eq_none hx] at h
  simp [surplus, hnumber, h]

theorem Numbers.surplus_eq {ls : List Lexeme} {xs : List Float} (h : Numbers ls xs) :
    (ls.map surplus).sum = xs.length := by
  induction h with
  | nil => simp
  | cons hl _ ih =>
    obtain ⟨w, rfl, hw⟩ := hl
    rw [List.map_cons, List.sum_cons, ih, surplus_number hw, List.length_cons, Nat.cast_succ,
      add_comm]

theorem Heading.surplus_eq {ls : List Lexeme} {name : Name} (h : Heading ls name) :
    (ls.map surplus).sum = -name.arity := by
  obtain ⟨tag, w, htagged, hname⟩ := h
  obtain ⟨hapart, hglued⟩ := arity?_name hname
  cases htagged with
  | glued => simp [surplus_word hglued]
  | apart => simp [surplus_word (arity?_tag tag), surplus_word hapart]

theorem Shape.length_eq {name : ObjectName} {xs : List Float} {s : Scene} (h : Shape name xs s) :
    xs.length = (Name.object name).arity := by
  cases h <;> rfl

theorem MatrixValues.length_eq {xs : List Float} {m : Matrix4 Float} (h : MatrixValues xs m) :
    (xs.length : ZMod 4) = 0 := by
  have hsixteen : m.entries.length = 16 := rfl
  rcases h with h | h
  · rw [← h, hsixteen]
    rfl
  · have htwelve : xs.length = 12 := by simpa [h] using hsixteen
    rw [htwelve]
    rfl

theorem Body.surplus_eq {E : List Lexeme → Scene → Prop} {name : Name} {ls : List Lexeme}
    {s : Scene} (hE : ∀ u t, E u t → (u.map surplus).sum = 0) (h : Body E name ls s) :
    (ls.map surplus).sum = name.arity := by
  cases h with
  | object hvalues hshape => rw [hvalues.surplus_eq, hshape.length_eq]
  | @boolean w _ u v _ _ hword ha hb =>
    simp [surplus_word (arity?_combiner hword), hE _ _ ha, hE _ _ hb, Name.arity]
  | duplicate hvalues hinner =>
    simp [hvalues.surplus_eq, hE _ _ hinner, Vec3.toList, Name.arity]
  | matrix hvalues hmatrix _ hinner =>
    have hmultiple : ((Name.operation .matrix).arity : ZMod 4) = 0 := rfl
    simp [hvalues.surplus_eq, hE _ _ hinner, hmatrix.length_eq, hmultiple]
  | scale hvalues _ hinner =>
    simp [hvalues.surplus_eq, hE _ _ hinner, Name.arity]

/-- In an expression the words stand for as many numbers as there are, up to a matrix's last row. -/
theorem Expression.surplus_eq_zero : ∀ {n : ℕ} {ls : List Lexeme} {s : Scene},
    Expression n ls s → (ls.map surplus).sum = 0
  | n + 1, _, s, ⟨head, name, body, hhead, hbody, hls⟩ => by
    have hbody := hbody.surplus_eq fun _ _ => Expression.surplus_eq_zero
    simp [hls, hhead.surplus_eq, hbody, surplus]

/-- The lexemes are the same but for one word that only one side has. -/
inductive OneApart (w : List Char) : List Lexeme → List Lexeme → Prop
  | removed (a b : List Lexeme) : OneApart w (a ++ .word w :: b) (a ++ b)
  | inserted (a b : List Lexeme) : OneApart w (a ++ b) (a ++ .word w :: b)

theorem OneApart.surplus_ne {w : List Char} {x : Float} (hw : Number.finite? w = some x)
    {ls ls' : List Lexeme} (h : OneApart w ls ls') :
    (ls.map surplus).sum ≠ (ls'.map surplus).sum := by
  have hone : (1 : ZMod 4) ≠ 0 := by decide
  cases h with
  | removed a b => simpa [surplus_number hw] using hone
  | inserted a b => simpa [surplus_number hw] using hone

end Grammar

namespace Scene

open Grammar

/-- A scene's text with one number left out or put in is rejected, whatever the limit is. -/
theorem exists_error_of_oneApart {limit : ℕ} {text : String} {s : Scene}
    (h : parse limit text = .ok s) {w : List Char} {x : Float}
    (hw : Number.finite? w = some x) {edited : String}
    (hedited : OneApart w (lexemes text.toList) (lexemes edited.toList)) (limit' : ℕ) :
    ∃ e, parse limit' edited = .error e := by
  rcases hparse : parse limit' edited with e | s'
  · exact ⟨e, rfl⟩
  · have hsurplus := (parse_eq_ok_iff.1 h).surplus_eq_zero
    have hsurplus' := (parse_eq_ok_iff.1 hparse).surplus_eq_zero
    exact absurd (hsurplus.trans hsurplus'.symm) (hedited.surplus_ne hw)

/-- A factor left out in front of a sphere with all its numbers. -/
theorem exists_error_of_oneApart_factor :
    let text := "[%scale 2e0[+sphere 0 0 0 1]]"
    let edited := "[%scale [+sphere 0 0 0 1]]"
    parse 2 text = .ok (.scaled 2.0 (.sphere ⟨0.0, 0.0, 0.0⟩ 1.0)) ∧
      Number.finite? ['2', 'e', '0'] = some 2.0 ∧
      OneApart ['2', 'e', '0'] (lexemes text.toList) (lexemes edited.toList) ∧
      ∃ e, parse 7 edited = .error e := by
  intro text edited
  have htext : parse 2 text = .ok (.scaled 2.0 (.sphere ⟨0.0, 0.0, 0.0⟩ 1.0)) := by decide +kernel
  have hnumber : Number.finite? ['2', 'e', '0'] = some 2.0 := by decide +kernel
  have hedited : OneApart ['2', 'e', '0'] (lexemes text.toList) (lexemes edited.toList) := by
    have hbefore : lexemes text.toList = [.opening, .word ("%scale".toList)] ++
        .word ['2', 'e', '0'] :: (lexemes edited.toList).drop 2 := by
      decide +kernel
    have hafter : lexemes edited.toList = [.opening, .word ("%scale".toList)] ++
        (lexemes edited.toList).drop 2 := by
      decide +kernel
    rw [hbefore, hafter]
    exact .removed _ _
  exact ⟨htext, hnumber, hedited, exists_error_of_oneApart htext hnumber hedited 7⟩

end Scene

end SolidScene
