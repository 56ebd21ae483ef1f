import SolidScene.Proofs.Scene.Likeness

/-!
# Letter case

Letters stand in words only, and what a word names, combines or counts does not depend on the case
of its letters. So texts that differ in the case of letters are read alike, and errors tell them
apart only where they quote a word (`Scene.parse_of_lowercase_eq`).
-/

namespace SolidScene

open Text (Position isWordChar)

/-! ## Letters -/

theorem toLower_eq_self_or (c : Char) : c.toLower = c ∨ ∃ n < 26, c = Char.ofNat (65 + n) := by
  by_cases h : c.val ≥ 'A'.val ∧ c.val ≤ 'Z'.val
  · have hlow : 65 ≤ c.toNat := UInt32.le_iff_toNat_le.1 h.1
    have hhigh : c.toNat ≤ 90 := UInt32.le_iff_toNat_le.1 h.2
    refine .inr ⟨c.toNat - 65, by omega, ?_⟩
    rw [Nat.add_sub_cancel' hlow, Char.ofNat_toNat]
  · unfold Char.toLower
    exact .inl (dif_neg h)

/-- What is the same of all letters in both cases is the same of all characters. -/
theorem apply_toLower {β : Type} {f : Char → β}
    (h : ∀ n < 26, f (Char.ofNat (65 + n)).toLower = f (Char.ofNat (65 + n))) (c : Char) :
    f c.toLower = f c := by
  rcases toLower_eq_self_or c with hc | ⟨n, hn, rfl⟩
  · rw [hc]
  · exact h n hn

theorem isWordChar_toLower (c : Char) : isWordChar c.toLower = isWordChar c :=
  apply_toLower (by decide) c

theorem Tag.ofChar?_toLower (c : Char) : Tag.ofChar? c.toLower = Tag.ofChar? c :=
  apply_toLower (by decide) c

theorem toLower_of_not_wordChar {c : Char} (hc : isWordChar c = false) : c.toLower = c := by
  rcases toLower_eq_self_or c with hself | ⟨n, hn, rfl⟩
  · exact hself
  · have hletter : ∀ n < 26, isWordChar (Char.ofNat (65 + n)) = true := by decide
    exact absurd hc (by simp [hletter n hn])

theorem eq_of_toLower_eq {c d : Char} (h : c.toLower = d.toLower) (hc : isWordChar c = false) :
    c = d := by
  have hd : isWordChar d = false := by
    rw [← isWordChar_toLower, ← h, isWordChar_toLower, hc]
  rw [← toLower_of_not_wordChar hc, h, toLower_of_not_wordChar hd]

theorem map_toLower_eq_iff {v w : List Char} : v.map Char.toLower = w.map Char.toLower ↔
    List.Forall₂ (fun c d => c.toLower = d.toLower) v w := by
  rw [← List.forall₂_eq_eq_eq, List.forall₂_map_left_iff, List.forall₂_map_right_iff]

theorem lowercase_eq_iff {v w : String} : lowercase v = lowercase w ↔
    v.toList.map Char.toLower = w.toList.map Char.toLower := by
  rw [← String.toList_inj, lowercase, lowercase, String.toList_map, String.toList_map]

/-! ## Texts in another case -/

namespace Likeness

/-- A text and the same text with its letters in another case. -/
def letterCase : Likeness where
  chars c d := c.toLower = d.toLower
  places := Eq
  isWordChar_eq {c d} h := by rw [← isWordChar_toLower c, h, isWordChar_toLower d]
  eq_of_not_wordChar := eq_of_toLower_eq
  tag_eq {c d} h := by rw [← Tag.ofChar?_toLower c, h, Tag.ofChar?_toLower d]
  toLower_eq h := h
  finite?_eq h := by
    unfold Number.finite? Number.ofChars?
    rw [map_toLower_eq_iff.2 h]
  advance {c d p q} h hp := by
    have hline : c = '\n' ↔ d = '\n' := by
      constructor
      · rintro rfl
        exact (eq_of_toLower_eq h (by decide)).symm
      · rintro rfl
        exact (eq_of_toLower_eq h.symm (by decide)).symm
    simp only [Position.advance, hp, hline]

theorem readers_letterCase {text text' : String} (h : lowercase text = lowercase text') :
    letterCase.Readers false (.ofEvents (Source.ofText text))
      (.ofEvents (Source.ofText text')) := by
  refine ⟨?_, rfl, nofun⟩
  exact List.forall₂_map_left_iff.2 (List.forall₂_map_right_iff.2
    ((map_toLower_eq_iff.1 (lowercase_eq_iff.1 h)).imp fun _ _ hc => .char hc))

end Likeness

/-! ## Messages -/

theorem lowercase_append (v w : String) : lowercase (v ++ w) = lowercase v ++ lowercase w := by
  refine String.toList_inj.1 ?_
  simp [lowercase]

/-- What kind of error it is. -/
inductive SceneError.Kind where
  | rejected (category : Category)
  | tooDeep
  | unreadable
deriving DecidableEq

def SceneError.kind : SceneError → Kind
  | .rejected fault _ => .rejected fault.category
  | .tooDeep .. => .tooDeep
  | .unreadable _ => .unreadable

namespace Scene

/-- The same result, or errors of the same kind at the same place, in words that differ in the case
of letters only. -/
inductive EqualUpToCase {α : Type} : Except SceneError α → Except SceneError α → Prop
  | ok (a : α) : EqualUpToCase (.ok a) (.ok a)
  | error {e e' : SceneError} (kind : e.kind = e'.kind) (position : e.position? = e'.position?)
    (detail : e.detail?.map lowercase = e'.detail?.map lowercase)
    (message : lowercase e.message = lowercase e'.message) :
    EqualUpToCase (.error e) (.error e')

end Scene

theorem Found.message_word (v : String) : (Found.word v).message = "'" ++ v ++ "'" := rfl

theorem Found.message_char (c : Char) :
    (Found.char c).message = "'" ++ String.singleton c ++ "'" := rfl

theorem Fault.detail_expected (what : String) (found : Found) :
    (expected what found).detail = "expected " ++ what ++ ", found " ++ found.message := rfl

theorem SceneError.message_rejected (fault : Fault) (p : Position) :
    (rejected fault p).message =
      fault.category.label ++ " at " ++ p.message ++ ": " ++ fault.detail := rfl

namespace Likeness

theorem faults_letterCase {f g : Fault} (h : letterCase.Faults f g) :
    f.category = g.category ∧ lowercase f.detail = lowercase g.detail := by
  cases h with
  | same => exact ⟨rfl, rfl⟩
  | word what h =>
    refine ⟨rfl, ?_⟩
    simp only [Fault.detail_expected, Found.message_word, lowercase_append, lowercase_eq h]
  | @char what c d h =>
    have hsingleton : lowercase (String.singleton c) = lowercase (String.singleton d) := by
      refine String.toList_inj.1 ?_
      simp [lowercase, letterCase.toLower_eq h]
    refine ⟨rfl, ?_⟩
    simp only [Fault.detail_expected, Found.message_char, lowercase_append, hsingleton]

theorem equalUpToCase {α : Type} {m : Bool} {o o' : Except SceneError α × Reader}
    (h : letterCase.Outcomes m Eq o o') : Scene.EqualUpToCase o.1 o'.1 := by
  cases h with
  | ok hv => exact hv ▸ .ok _
  | error he =>
    cases he with
    | @rejected f g p q hf hp =>
      obtain rfl : p = q := hp
      obtain ⟨hcategory, hdetail⟩ := faults_letterCase hf
      refine .error ?_ rfl (congrArg some hdetail) ?_
      · simp only [SceneError.kind, hcategory]
      · simp only [SceneError.message_rejected, lowercase_append, hcategory, hdetail]
    | @tooDeep limit p q hp =>
      obtain rfl : p = q := hp
      exact .error rfl rfl rfl rfl
    | unreadable cause => exact .error rfl rfl rfl rfl

end Likeness

namespace Scene

/-- Texts that differ in the case of letters only hold the same scenes, or have the same fault. -/
theorem parse_of_lowercase_eq (limit : ℕ) {text text' : String}
    (h : lowercase text = lowercase text') :
    EqualUpToCase (parse limit text) (parse limit text') ∧
      EqualUpToCase (parseMany limit text) (parseMany limit text') := by
  have hr := Likeness.readers_letterCase h
  exact ⟨Likeness.equalUpToCase (Likeness.Alike.whole limit _ _ hr),
    Likeness.equalUpToCase (Likeness.Alike.constructAll limit _ _ hr)⟩

/-- A word that is no finite number is quoted as it is written. -/
theorem parse_of_lowercase_eq_quoted :
    let text := "[%Boolean ADD [+SPHERE 0 0 1E0 Inf]]"
    let text' := "[%bOOLEAN add [+Sphere 0 0 1e0 iNF]]"
    lowercase text = lowercase text' ∧
      parse 2 text = .error (.rejected (.expected "sphere radius" (.word "Inf")) ⟨1, 32⟩) ∧
      parse 2 text' = .error (.rejected (.expected "sphere radius" (.word "iNF")) ⟨1, 32⟩) ∧
      EqualUpToCase (parse 2 text) (parse 2 text') ∧
      EqualUpToCase (parseMany 2 text) (parseMany 2 text') := by
  intro text text'
  have h : lowercase text = lowercase text' := lowercase_eq_iff.2 (by decide +kernel)
  exact ⟨h, by decide +kernel, by decide +kernel, parse_of_lowercase_eq 2 h⟩

end Scene

end SolidScene
