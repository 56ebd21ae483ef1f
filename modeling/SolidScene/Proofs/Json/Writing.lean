import SolidScene.Proofs.Json.Scanning

/-!
# What is written is JSON

Quoted texts, whole numbers in their digits and objects that are written member by member
(`quoted_quote`, `numeral_toDigits`, `value_objectText`).
-/

namespace SolidScene.Json

open Grammar

theorem hexDigit_hexDigit {n : ℕ} (h : n < 16) : HexDigit (hexDigit n) n := ⟨h, .inl rfl⟩

theorem piece_escape (c : Char) : Piece (escape c) c.toNat := by
  unfold escape
  split_ifs with hquote hslash hback hfeed hline hreturn htab hcontrol
  · subst hquote
    exact .short (by decide)
  · subst hslash
    exact .short (by decide)
  · rw [hback]
    exact .short (by decide)
  · rw [hfeed]
    exact .short (by decide)
  · subst hline
    exact .short (by decide)
  · subst hreturn
    exact .short (by decide)
  · subst htab
    exact .short (by decide)
  · have hzero : HexDigit '0' 0 := ⟨by decide, .inl rfl⟩
    have hhex := Piece.hex hzero hzero (hexDigit_hexDigit (n := c.toNat / 16) (by omega))
      (hexDigit_hexDigit (Nat.mod_lt c.toNat (by decide)))
    have hsum : ((0 * 16 + 0) * 16 + c.toNat / 16) * 16 + c.toNat % 16 = c.toNat := by omega
    rwa [hsum] at hhex
  · exact .plain (by omega) hquote hslash

theorem points_toNat (cs : List Char) : Points (cs.map Char.toNat) cs := by
  induction cs with
  | nil => exact .nil
  | cons c cs ih => exact .char c ih

/-- Pieces that stand for a text spell it. -/
theorem quoted_of_points {pieces : List (List Char)} {points : List ℕ} {text : String}
    (hpieces : List.Forall₂ Piece pieces points) (hpoints : Points points text.toList) :
    Quoted (some text) ('"' :: (pieces.flatten ++ ['"'])) := by
  refine .mk hpieces fun other => ⟨?_, fun hother => ?_⟩
  · rintro ⟨⟩
    exact hpoints
  · rw [← charsOfPoints?_eq_some_iff (forall_lt_of_pieces hpieces)] at hpoints hother
    exact congrArg some (String.toList_injective (Option.some.inj (hpoints.symm.trans hother)))

theorem pieces_escape (cs : List Char) :
    List.Forall₂ Piece (cs.map escape) (cs.map Char.toNat) :=
  List.forall₂_map_left_iff.2 (List.forall₂_map_right_iff.2
    (List.forall₂_same.2 fun c _ => piece_escape c))

theorem quoted_quote (text : String) : Quoted (some text) (quote text) := by
  rw [quote, List.flatMap_def, List.cons_append]
  exact quoted_of_points (pieces_escape _) (points_toNat _)

/-! ## Numbers -/

theorem head?_toDigits_ne {n : ℕ} (h : 0 < n) : (Nat.toDigits 10 n).head? ≠ some '0' := by
  induction n using Nat.strongRecOn with
  | ind n ih =>
    by_cases hsmall : n < 10
    · have hall : ∀ d < 10, 0 < d → [d.digitChar].head? ≠ some '0' := by decide
      rw [Nat.toDigits_of_lt_base hsmall]
      exact hall n hsmall h
    · have hhead := ih (n / 10) (by omega) (by omega)
      obtain ⟨c, cs, hcons⟩ := List.exists_cons_of_ne_nil (Nat.toDigits_ne_nil (n := n / 10)
        (b := 10))
      rw [Nat.toDigits_of_base_le (by decide) (by omega), hcons]
      rwa [hcons] at hhead

theorem numeral_toDigits (n : ℕ) : Numeral (Nat.toDigits 10 n) := by
  have hwhole : Whole (Nat.toDigits 10 n) := by
    rcases n.eq_zero_or_pos with rfl | hpos
    · exact .inl rfl
    · exact .inr ⟨⟨Nat.toDigits_ne_nil, fun c hc => Number.isDigit_of_mem_toDigits hc⟩,
        head?_toDigits_ne hpos⟩
  have hsign : ([] : List Char) ∈ [[], ['-']] := List.mem_cons_self
  simpa using Numeral.mk hsign hwhole (.inl rfl) (.inl rfl)

/-! ## Objects -/

theorem Grammar.Value.element {v : Json} {cs : List Char} (h : Value v cs) : Element v cs := by
  have hnone : Blanks [] := List.forall_mem_nil _
  simpa using Element.mk hnone h hnone

theorem member_of_value {key : Option String} {quoted : List Char} (hkey : Quoted key quoted)
    {v : Json} {cs : List Char} (h : Value v cs) :
    Grammar.Member (key, v) (quoted ++ ':' :: cs) := by
  have hnone : Blanks [] := List.forall_mem_nil _
  simpa using Grammar.Member.mk hnone hkey hnone h.element

/-- An object is written with its members in their order, each by its key and the text of its
value. -/
theorem value_objectText {texts : List (String × List Char)} {members : List (Option String × Json)}
    (h : List.Forall₂ (fun t m => m.1 = some t.1 ∧ Value m.2 t.2) texts members)
    (hne : texts ≠ []) : Value (.object members) (objectText texts) := by
  suffices hmembers : Members members
      ((texts.map fun t => quote t.1 ++ ':' :: t.2).intersperse [',']).flatten from
    .object hmembers
  induction h with
  | nil => exact absurd rfl hne
  | @cons t m texts members htext hrest ih =>
    obtain ⟨key, value⟩ := t
    obtain ⟨_, v⟩ := m
    obtain ⟨rfl, hvalue⟩ := htext
    have hmember := member_of_value (quoted_quote key) hvalue
    cases hrest with
    | nil => simpa using Members.one hmember
    | cons => simpa using Members.more hmember (ih (List.cons_ne_nil _ _))

end SolidScene.Json
