import SolidScene.Proofs.Scene.Citation
import SolidScene.Proofs.Scene.LetterCase

/-!
# What messages quote

A message that ends in what was found, that names an unknown word or that gives a length says what
stands in the text at the error's place (`Scene.quoted_of_error`). A quotation can be told from the
message alone, as nothing that is quoted has a blank, and what stands before it is one of a few
texts (`eq_of_ends`). So the message's form gives the fault, and what a fault cites is known.
-/

namespace SolidScene

open Text (Stands isBracket isWordChar)

/-- A message and what stands in the text from its error's place on. -/
structure Quotes (rest : List Char) (message : String) : Prop where
  /-- A word that was found is the one that stands there. -/
  word : ∀ front X, message = front ++ ("found '" ++ X ++ "'") →
    (∀ c, isBracket c = true → X ≠ String.singleton c) →
      X ≠ "" ∧ X.toList = rest.takeWhile isWordChar
  bracket : ∀ front c, message = front ++ ("found '" ++ String.singleton c ++ "'") →
    isBracket c = true → rest.head? = some c
  nothing : ∀ front, message = front ++ "found end of input" → rest = []
  /-- An unknown word is the one that stands there, in lower case. -/
  name : ∀ X, message = "unknown object type: " ++ X ∨ message = "unknown operation type: " ++ X →
    X ≠ "" ∧ X = lowercase (String.ofList (rest.takeWhile isWordChar))
  /-- A length below zero is the value of the number that stands there. -/
  length : ∀ what X, message = what ++ (" must be non-negative, found " ++ X) → what ≠ "box size" →
    ∃ x, Number.finite? (rest.takeWhile isWordChar) = some x ∧ X = Fault.numberText x

/-! ## Quotations -/

section Key

variable {front key tail quoted : String} {c : Char}

/-- Where the last character of the key is not quoted, the key ends before the quotation begins. -/
theorem exists_of_ends {fixed : String} (h : front ++ (key ++ tail) = fixed ++ quoted)
    (hkey : key.toList.getLast? = some c) (hc : c ∉ quoted.toList) :
    ∃ mid, fixed.toList = front.toList ++ key.toList ++ mid ∧
      tail.toList = mid ++ quoted.toList := by
  obtain ⟨init, hinit⟩ := List.getLast?_eq_some_iff.1 hkey
  have hlist := congrArg String.toList h
  simp only [String.toList_append, hinit] at hlist ⊢
  rw [← List.append_assoc, ← List.append_assoc] at hlist
  rw [← List.append_assoc]
  rcases List.append_eq_append_iff.1 hlist with hmid | ⟨mid, hmid, hquoted⟩
  · exact hmid
  rcases mid.eq_nil_or_concat with rfl | ⟨mid, d, rfl⟩
  · exact ⟨[], by simpa using hmid.symm, hquoted.symm⟩
  · rw [List.concat_eq_append, ← List.append_assoc] at hmid
    obtain ⟨-, hd⟩ := List.append_inj' hmid rfl
    rw [hquoted, List.singleton_inj.1 hd] at hc
    simp at hc

theorem contained_of_ends {fixed : String} (h : front ++ (key ++ tail) = fixed ++ quoted)
    (hkey : key.toList.getLast? = some c) (hc : c ∉ quoted.toList) :
    key.toList <:+: fixed.toList := by
  obtain ⟨mid, hmid, -⟩ := exists_of_ends h hkey hc
  exact ⟨front.toList, mid, hmid.symm⟩

/-- So the key stands right before the quotation, if it stands nowhere before. -/
theorem eq_of_ends {lead : String} (h : front ++ (key ++ tail) = lead ++ (key ++ quoted))
    (hkey : key.toList.getLast? = some c) (hc : c ∉ quoted.toList)
    (hlead : ¬ key.toList <:+: lead.toList ++ key.toList.dropLast) :
    front = lead ∧ tail = quoted := by
  rw [← @String.append_assoc lead] at h
  obtain ⟨mid, hmid, htail⟩ := exists_of_ends h hkey hc
  rw [String.toList_append] at hmid
  rcases mid.eq_nil_or_concat with rfl | ⟨mid, d, rfl⟩
  · rw [List.append_nil] at hmid
    exact ⟨String.toList_inj.1 (List.append_cancel_right hmid.symm), String.toList_inj.1 htail⟩
  · refine absurd ⟨front.toList, mid, ?_⟩ hlead
    have hnonempty : key.toList ≠ [] := by
      intro hempty
      simp [hempty] at hkey
    rw [← List.dropLast_append_of_ne_nil hnonempty, hmid, List.concat_eq_append,
      ← List.append_assoc, List.dropLast_concat]

end Key

theorem notMem_numberText {c : Char} (hc : Number.isNumeral c = false)
    (hname : c ∉ "-NaNinf".toList) (x : Float) : c ∉ (Fault.numberText x).toList := by
  rw [Fault.numberText, String.toList_ofList, Number.shortest, Number.signed]
  have hmagnitude : c ∉ Number.shortestMagnitude (Binary64.magnitudeBits x) := fun hmem =>
    Bool.false_ne_true (hc.symm.trans (Number.isNumeral_of_mem_shortestMagnitude hmem))
  split_ifs <;> simp_all

theorem notMem_vectorText {c : Char} (hc : Number.isNumeral c = false)
    (hname : c ∉ "[, -NaNinf]".toList) (v : Vec3 Float) : c ∉ (Fault.vectorText v).toList := by
  have hnumber (x : Float) : c ∉ (Fault.numberText x).toList :=
    notMem_numberText hc (fun hmem => hname (by simp_all)) x
  simp_all [Fault.vectorText, String.toList_append, toString]

theorem blank_notMem {w : List Char} (h : ∀ c ∈ w, isWordChar c = true) : ' ' ∉ w := fun hmem =>
  absurd (h ' ' hmem) (by decide)

theorem blank_notMem_takeWhile (cs : List Char) : ' ' ∉ cs.takeWhile isWordChar :=
  blank_notMem (List.all_eq_true.1 List.all_takeWhile)

theorem blank_notMem_lowercase (cs : List Char) :
    ' ' ∉ (lowercase (String.ofList (cs.takeWhile isWordChar))).toList := by
  refine blank_notMem fun c hc => ?_
  rw [lowercase, String.toList_map, String.toList_ofList] at hc
  obtain ⟨d, hd, rfl⟩ := List.mem_map.1 hc
  rw [isWordChar_toLower]
  exact List.all_eq_true.1 List.all_takeWhile d hd

theorem Found.Shows.blank_notMem {found : Found} {cs : List Char} (h : found.Shows cs) :
    found = .nothing ∨ ' ' ∉ found.message.toList := by
  cases h with
  | word =>
    refine .inr ?_
    simpa [Found.message_word] using blank_notMem_takeWhile cs
  | @bracket c cs hc =>
    have hne : ' ' ≠ c := by
      rintro rfl
      exact absurd hc (by decide)
    refine .inr ?_
    simpa [Found.message_char] using hne
  | nothing => exact .inl rfl

/-! ## Messages -/

/-- How a message ends that says what was found instead of a word. -/
inductive Ending : String → Prop
  | nothing : Ending "end of input"
  | quoted (X : String) : Ending ("'" ++ X ++ "'")

theorem Ending.ne_numberText {tail : String} (h : Ending tail) (x : Float) :
    tail ≠ Fault.numberText x := by
  intro hx
  have hnot {c : Char} := @notMem_numberText c
  cases h with
  | nothing =>
    refine hnot (c := ' ') (by decide) (by decide) x ?_
    rw [← hx]
    decide
  | quoted X =>
    refine hnot (c := '\'') (by decide) (by decide) x ?_
    rw [← hx]
    simp

theorem Ending.ne_vectorText {tail : String} (h : Ending tail) (v : Vec3 Float) :
    tail ≠ Fault.vectorText v := by
  intro hv
  have hhead := congrArg (·.toList.head?) hv
  cases h <;> simp [Fault.vectorText, toString] at hhead

namespace Fault

variable {fault : Fault} {rest : List Char}

theorem detail_unknownName (tag : Tag) (word : String) : (unknownName tag word).detail =
    match tag with
    | .object => "unknown object type: " ++ word
    | .operation => "unknown operation type: " ++ word := by
  cases tag <;> rfl

theorem detail_expected_found (what : String) (found : Found) : (expected what found).detail =
    "expected " ++ what ++ ", " ++ ("found " ++ found.message) := by
  refine String.toList_inj.1 ?_
  simp [detail_expected]

theorem detail_negative (what : String) (value : Float) : (negative what value).detail =
    what ++ (" must be non-negative, found " ++ numberText value) := String.append_assoc ..

theorem detail_negative_found (what : String) (value : Float) : (negative what value).detail =
    what ++ " must be non-negative, " ++ ("found " ++ numberText value) := by
  refine String.toList_inj.1 ?_
  simp [detail_negative]

theorem detail_negativeSize_found (size : Vec3 Float) : (negativeSize size).detail =
    "box size must be non-negative, " ++ ("found " ++ vectorText size) := by
  rw [← String.append_assoc]
  rfl

theorem detail_noDirection_found (normal : Vec3 Float) : (noDirection normal).detail =
    "plane normal must be non-zero, " ++ ("found " ++ vectorText normal) := by
  rw [← String.append_assoc]
  rfl

theorem vector_not_ends {tail lead front : String} (htail : Ending tail) (v : Vec3 Float)
    (hlead : ¬ "found".toList <:+: lead.toList ++ "found".toList.dropLast) :
    front ++ ("found " ++ tail) ≠ lead ++ ("found " ++ vectorText v) := by
  intro h
  have hfound (X : String) : "found " ++ X = "found" ++ (" " ++ X) := by
    rw [← String.append_assoc]
    rfl
  rw [hfound, hfound] at h
  -- a vector has blanks, but the last letter of the key is in none
  obtain ⟨-, hsame⟩ := eq_of_ends h (c := 'd') (by decide) (by
    simpa using notMem_vectorText (by decide) (by decide) v) hlead
  exact htail.ne_vectorText v ((String.append_right_inj _).1 hsame)

/-- The messages that quote nothing, and what stands before the unknown word in the two others that
give no value. -/
def fixedTexts : List String :=
  [missingOpening, missingTag, missingClosing, trailingInput, badCombiner, singularMatrix,
    zeroFactor].map detail ++ ["unknown object type: ", "unknown operation type: "]

/-- A key that is in none of the fixed texts comes from a fault about a value. -/
theorem about_value_of_key (h : fault.Cites rest) {front key tail : String}
    (hsplit : front ++ (key ++ tail) = fault.detail) (hkey : key.toList.getLast? = some ' ')
    (hfixed : ∀ fixed ∈ fixedTexts, ¬ key.toList <:+: fixed.toList) :
    (∃ what found, fault = .expected what found) ∨ (∃ what value, fault = .negative what value) ∨
      (∃ size, fault = .negativeSize size) ∨ ∃ normal, fault = .noDirection normal := by
  have hnot {fixed quoted : String} (hmem : fixed ∈ fixedTexts)
      (hd : fault.detail = fixed ++ quoted) (hblank : ' ' ∉ quoted.toList) : False :=
    hfixed fixed hmem (contained_of_ends (hsplit.trans hd) hkey hblank)
  cases fault with
  | missingOpening | missingTag | missingClosing | trailingInput | badCombiner | singularMatrix
  | zeroFactor => exact (hnot (by decide) String.append_empty.symm (by decide)).elim
  | unknownName tag word =>
    obtain ⟨-, rfl⟩ := h
    cases tag
    · exact (hnot (by decide) rfl (blank_notMem_lowercase rest)).elim
    · exact (hnot (by decide) rfl (blank_notMem_lowercase rest)).elim
  | expected what found => exact .inl ⟨what, found, rfl⟩
  | negative what value => exact .inr (.inl ⟨what, value, rfl⟩)
  | negativeSize size => exact .inr (.inr (.inl ⟨size, rfl⟩))
  | noDirection normal => exact .inr (.inr (.inr ⟨normal, rfl⟩))
  | other => exact h.elim

/-- Behind a word like found only what was found instead of the expected comes to the end. -/
theorem exists_expected_of_ends (h : fault.Cites rest) {front tail : String}
    (hend : front ++ ("found " ++ tail) = fault.detail) (htail : Ending tail) :
    ∃ what found, fault = .expected what found ∧ tail = found.message := by
  obtain ⟨what, found, rfl⟩ | ⟨what, value, rfl⟩ | ⟨size, rfl⟩ | ⟨normal, rfl⟩ :=
    about_value_of_key h hend (by decide) (by decide)
  · refine ⟨what, found, rfl, ?_⟩
    have hwording : ∀ what ∈ wordings, '\'' ∉ what.toList ∧ ¬ "found ".toList <:+:
        "expected ".toList ++ what.toList ++ ", ".toList ++ "found ".toList.dropLast := by decide
    obtain ⟨hapostrophe, hlead⟩ := hwording what h.1
    obtain rfl | hblank := h.2.blank_notMem
    · cases htail with
      | nothing => rfl
      | quoted X =>
        refine absurd ?_ hapostrophe
        have hmem : '\'' ∈ (expected what .nothing).detail.toList := by
          rw [← hend]
          simp
        simpa [detail_expected, Found.message] using hmem
    · refine (eq_of_ends (hend.trans (detail_expected_found what found)) (by decide) hblank ?_).2
      rwa [String.toList_append, String.toList_append]
  · have hwording : ∀ what ∈ lengthWordings, ¬ "found ".toList <:+:
        what.toList ++ " must be non-negative, ".toList ++ "found ".toList.dropLast := by decide
    have hlead := hwording what h.1
    rw [← String.toList_append] at hlead
    obtain ⟨-, rfl⟩ := eq_of_ends (hend.trans (detail_negative_found what value)) (c := ' ')
      (by decide) (notMem_numberText (by decide) (by decide) value) hlead
    exact absurd rfl (htail.ne_numberText value)
  · exact absurd (hend.trans (detail_negativeSize_found size))
      (vector_not_ends htail size (by decide))
  · exact absurd (hend.trans (detail_noDirection_found normal))
      (vector_not_ends htail normal (by decide))

theorem exists_unknownName_of_begins (h : fault.Cites rest) {tag : Tag} {X : String}
    (hbegin : (unknownName tag X).detail = fault.detail) : fault = .unknownName tag X := by
  have hthird : fault.detail.toList[2]? = some 'k' := by
    rw [← hbegin]
    cases tag <;> simp [detail_unknownName]
  cases fault with
  | missingOpening | missingTag | missingClosing | trailingInput | badCombiner | singularMatrix
  | zeroFactor => exact absurd hthird (by decide)
  | unknownName tag' word =>
    obtain rfl : tag = tag' := by
      have htenth := congrArg (·.toList[9]?) hbegin
      cases tag <;> cases tag' <;> simp [detail_unknownName] at htenth ⊢
    obtain rfl : X = word := by cases tag <;> exact (String.append_right_inj _).1 hbegin
    rfl
  | expected what found => simp [detail_expected] at hthird
  | negative what value =>
    have hwording : ∀ what ∈ lengthWordings, ∀ text,
        (what ++ (" must be non-negative, found " ++ text)).toList[2]? ≠ some 'k' := by
      simp [lengthWordings]
    exact absurd (detail_negative what value ▸ hthird) (hwording what h.1 _)
  | negativeSize size => simp [detail_negativeSize_found] at hthird
  | noDirection normal => simp [detail_noDirection_found] at hthird
  | other => exact h.elim

theorem exists_negative_of_splits (h : fault.Cites rest) {what X : String}
    (hsplit : what ++ (" must be non-negative, found " ++ X) = fault.detail)
    (hsize : what ≠ "box size") : ∃ value, fault = .negative what value ∧ X = numberText value := by
  obtain ⟨what', found, rfl⟩ | ⟨what', value, rfl⟩ | ⟨size, rfl⟩ | ⟨normal, rfl⟩ :=
    about_value_of_key h hsplit (by decide) (by decide)
  · have hwording : ∀ what ∈ wordings, ¬ " must be non-negative, found ".toList <:+:
        "expected ".toList ++ what.toList ++ ", found ".toList ++ "end of input".toList := by decide
    have hlead := hwording what' h.1
    obtain rfl | hblank := h.2.blank_notMem
    · have := contained_of_ends (hsplit.trans String.append_empty.symm) (c := ' ') (by decide)
        (by decide)
      rw [detail_expected, String.toList_append, String.toList_append, String.toList_append] at this
      exact absurd this hlead
    · have := contained_of_ends (hsplit.trans (detail_expected what' found)) (by decide) hblank
      rw [String.toList_append, String.toList_append] at this
      exact absurd (this.trans (List.prefix_append ..).isInfix) hlead
  · have hwording : ∀ what ∈ lengthWordings, ¬ " must be non-negative, found ".toList <:+:
        what.toList ++ " must be non-negative, found ".toList.dropLast := by decide
    obtain ⟨rfl, rfl⟩ := eq_of_ends (hsplit.trans (detail_negative what' value)) (c := ' ')
      (by decide) (notMem_numberText (by decide) (by decide) value) (hwording what' h.1)
    exact ⟨value, rfl, rfl⟩
  · have hm : what ++ (" m" ++ ("ust be non-negative, found " ++ X)) =
        "box size" ++ (" m" ++ ("ust be non-negative, found " ++ vectorText size)) := by
      rw [← @String.append_assoc " m", ← @String.append_assoc " m",
        ← @String.append_assoc "box size"]
      exact hsplit
    obtain ⟨hsame, -⟩ := eq_of_ends hm (c := 'm') (by decide) (by
      simpa using notMem_vectorText (by decide) (by decide) size) (by decide)
    exact absurd hsame hsize
  · have hg : 'g' ∈ (noDirection normal).detail.toList := by
      rw [← hsplit]
      simp
    refine absurd hg ?_
    simpa [detail_noDirection_found] using notMem_vectorText (by decide) (by decide) normal

end Fault

/-! ## What is quoted -/

theorem Found.Shows.eq_of_message {found : Found} {rest : List Char} (h : found.Shows rest)
    {X : String} (hX : found.message = "'" ++ X ++ "'") :
    (X ≠ "" ∧ X.toList = rest.takeWhile isWordChar) ∨
      ∃ c, isBracket c = true ∧ X = String.singleton c ∧ rest.head? = some c := by
  have hquoted {Y : String} (hY : "'" ++ Y ++ "'" = "'" ++ X ++ "'") : Y = X :=
    (String.append_right_inj _).1 ((String.append_left_inj _).1 hY)
  cases h with
  | word hw =>
    obtain rfl : String.ofList _ = X := hquoted hX
    exact .inl ⟨fun hempty => hw (by simpa using congrArg String.toList hempty),
      String.toList_ofList⟩
  | @bracket c cs hc =>
    obtain rfl : String.singleton c = X := hquoted hX
    exact .inr ⟨c, hc, rfl, rfl⟩
  | nothing =>
    have := congrArg (·.toList.head?) hX
    simp [Found.message] at this

theorem Found.Shows.eq_nil_of_message {found : Found} {rest : List Char} (h : found.Shows rest)
    (hend : found.message = "end of input") : rest = [] := by
  have hquoted (Y : String) : "'" ++ Y ++ "'" ≠ "end of input" := by
    intro hY
    have := congrArg (·.toList.head?) hY
    simp at this
  cases h with
  | word => exact absurd hend (hquoted _)
  | bracket => exact absurd hend (hquoted _)
  | nothing => rfl

theorem found_quoted (X : String) : "found " ++ ("'" ++ X ++ "'") = "found '" ++ X ++ "'" := by
  refine String.toList_inj.1 ?_
  simp

theorem lowercase_ne_empty {w : List Char} (h : w ≠ []) : lowercase (String.ofList w) ≠ "" := by
  simpa [lowercase] using h

theorem Fault.quotes {fault : Fault} {rest : List Char} (h : fault.Cites rest) :
    Quotes rest fault.detail where
  word front X hm hX := by
    obtain ⟨what, found, rfl, hfound⟩ :=
      exists_expected_of_ends h ((congrArg _ (found_quoted X)).trans hm.symm) (.quoted X)
    obtain hword | ⟨c, hc, rfl, -⟩ := h.2.eq_of_message hfound.symm
    · exact hword
    · exact absurd rfl (hX c hc)
  bracket front c hm hc := by
    obtain ⟨what, found, rfl, hfound⟩ :=
      exists_expected_of_ends h ((congrArg _ (found_quoted _)).trans hm.symm) (.quoted _)
    obtain ⟨-, hword⟩ | ⟨d, -, hd, hhead⟩ := h.2.eq_of_message hfound.symm
    · have hmem : c ∈ rest.takeWhile isWordChar := by simp [← hword]
      have hwordChar := List.all_eq_true.1 List.all_takeWhile c hmem
      simp [isWordChar, hc] at hwordChar
    · obtain rfl := String.singleton_inj.1 hd
      exact hhead
  nothing front hm := by
    obtain ⟨what, found, rfl, hfound⟩ := exists_expected_of_ends h
      ((congrArg _ (by decide)).trans hm.symm) .nothing
    exact h.2.eq_nil_of_message hfound.symm
  name X hm := by
    obtain ⟨tag, rfl⟩ : ∃ tag, fault = .unknownName tag X := by
      rcases hm with hm | hm
      · exact ⟨.object, exists_unknownName_of_begins h hm.symm⟩
      · exact ⟨.operation, exists_unknownName_of_begins h hm.symm⟩
    obtain ⟨hw, rfl⟩ := h
    exact ⟨lowercase_ne_empty hw, rfl⟩
  length what X hm hsize := by
    obtain ⟨value, rfl, rfl⟩ := exists_negative_of_splits h hm.symm hsize
    exact ⟨value, h.2, rfl⟩

namespace Scene

/-- An error of a text has a place that stands in the text, and where its message quotes something
or gives a length, that is what stands there. -/
theorem quoted_of_error {limit : ℕ} {text : String} {e : SceneError}
    (h : parse limit text = .error e ∨ parseMany limit text = .error e) :
    ∃ q rest, e.position? = some q ∧ Stands text.toList q rest ∧
      ∀ message, e.detail? = some message → Quotes rest message := by
  have hcited : e.Cited text.toList := h.elim cited_of_parse cited_of_parseMany
  cases e with
  | rejected fault q =>
    obtain ⟨rest, hstands, hcites⟩ := hcited
    exact ⟨q, rest, rfl, hstands, fun _ hm => Option.some_inj.1 hm ▸ Fault.quotes hcites⟩
  | tooDeep limit q =>
    obtain ⟨rest, hstands⟩ := hcited
    exact ⟨q, rest, rfl, hstands, fun _ hm => by cases hm⟩
  | unreadable cause => exact hcited.elim

theorem quoted_of_error_orb :
    let text := "[%scale 2 \n [+Orb 0 0 0 1]]"
    parse 2 text = .error (.rejected (.unknownName .object "orb") ⟨2, 4⟩) ∧
      ∃ rest, Stands text.toList ⟨2, 4⟩ rest ∧
        "orb" = lowercase (String.ofList (rest.takeWhile isWordChar)) := by
  intro text
  have htext : parse 2 text = .error (.rejected (.unknownName .object "orb") ⟨2, 4⟩) := by
    decide +kernel
  obtain ⟨q, rest, hq, hstands, hquotes⟩ := quoted_of_error (.inl htext)
  obtain rfl : ⟨2, 4⟩ = q := Option.some_inj.1 hq
  exact ⟨htext, rest, hstands, ((hquotes _ rfl).name "orb" (.inl (by decide))).2⟩

end Scene

end SolidScene
