import SolidScene.Proofs.Json.Grammar
import SolidScene.Proofs.Number.ReadBack
import SolidScene.Proofs.Source.Utf8

/-!
# Tokens of JSON texts

A token of the grammar is the token that is scanned, whatever follows a string, and where no more
of a number follows a number (`next?_quoted`, `next?_numeral`).
-/

namespace SolidScene.Json

open Grammar

/-! ## Strings -/

theorem hexValue?_of_hexDigit {c : Char} {n : ℕ} (h : HexDigit c n) : hexValue? c = some n := by
  obtain ⟨hn, hc⟩ := h
  have hall : ∀ n < 16,
      hexValue? n.digitChar = some n ∧ hexValue? n.digitChar.toUpper = some n := by
    decide +kernel
  rcases hc with rfl | rfl
  · exact (hall n hn).1
  · exact (hall n hn).2

theorem hexNumber?_eq {a b c d : Char} {i j k l : ℕ} (ha : HexDigit a i) (hb : HexDigit b j)
    (hc : HexDigit c k) (hd : HexDigit d l) :
    hexNumber? a b c d = some (((i * 16 + j) * 16 + k) * 16 + l) := by
  rw [hexNumber?, hexValue?_of_hexDigit ha, hexValue?_of_hexDigit hb, hexValue?_of_hexDigit hc,
    hexValue?_of_hexDigit hd]
  rfl

theorem Grammar.Piece.lt {piece : List Char} {n : ℕ} (h : Piece piece n) : n < 0x110000 := by
  cases h with
  | plain => exact Source.toNat_lt _
  | short h =>
    have hall : ∀ e ∈ shortEscapes, e.2 < 0x110000 := by decide
    exact hall _ h
  | hex ha hb hc hd =>
    have := ha.1
    have := hb.1
    have := hc.1
    have := hd.1
    omega

/-- A piece is scanned as its number. -/
theorem scanString?_piece {piece : List Char} {n : ℕ} (h : Piece piece n) (cs : List Char) :
    scanString? (piece ++ cs) = (scanString? cs).map fun (points, rest) => (n :: points, rest) := by
  cases h with
  | @plain c hcontrol hquote hslash =>
    rw [List.singleton_append]
    rw [scanString?, if_neg (by simp [hslash]; omega)]
    · cases scanString? cs <;> rfl
    · exact hquote
    · exact fun _ _ _ _ _ h _ => hslash h
    · exact fun _ _ h _ => hslash h
  | @short c n h =>
    have hall : ∀ e ∈ shortEscapes, shortEscape? e.1 = some e.2 ∧ e.1 ≠ 'u' := by decide
    obtain ⟨hshort, hne⟩ := hall _ h
    rw [List.cons_append, List.singleton_append, scanString?, hshort]
    · cases scanString? cs <;> rfl
    · exact fun _ _ _ _ _ h _ => hne h
  | hex ha hb hc hd =>
    simp only [List.cons_append, List.nil_append, scanString?, hexNumber?_eq ha hb hc hd]
    cases scanString? cs <;> rfl

theorem scanString?_pieces {pieces : List (List Char)} {points : List ℕ}
    (h : List.Forall₂ Piece pieces points) (rest : List Char) :
    scanString? (pieces.flatten ++ '"' :: rest) = some (points, rest) := by
  induction h with
  | nil => rfl
  | cons hpiece _ ih =>
    rw [List.flatten_cons, List.append_assoc, scanString?_piece hpiece, ih]
    rfl

/-! ### Characters -/

theorem not_surrogate (c : Char) : isLeading c.toNat = false ∧ isTrailing c.toNat = false := by
  have hvalid := c.valid
  unfold UInt32.isValidChar Nat.isValidChar at hvalid
  have heq : c.toNat = c.val.toNat := rfl
  simp only [isLeading, isTrailing, Bool.and_eq_false_iff, decide_eq_false_iff_not]
  omega

theorem toNat_ofNat {n : ℕ} (hleading : isLeading n = false) (htrailing : isTrailing n = false)
    (hn : n < 0x110000) : (Char.ofNat n).toNat = n := by
  simp only [isLeading, isTrailing, Bool.and_eq_false_iff, decide_eq_false_iff_not] at *
  have hvalid : n.isValidChar := by
    unfold Nat.isValidChar
    omega
  rw [Char.ofNat, dif_pos hvalid]
  rfl

theorem charsOfPoints?_char (c : Char) (points : List ℕ) :
    charsOfPoints? (c.toNat :: points) = (charsOfPoints? points).map (c :: ·) := by
  obtain ⟨hleading, htrailing⟩ := not_surrogate c
  cases points with
  | nil => simp [charsOfPoints?, hleading, htrailing]
  | cons m points => simp [charsOfPoints?, hleading, htrailing]

/-- The two halves of a pair are put together again. -/
theorem charsOfPoints?_pair {c : Char} (hc : 0x10000 ≤ c.toNat) (points : List ℕ) :
    charsOfPoints? ((0xD800 + (c.toNat - 0x10000) / 0x400) ::
      (0xDC00 + (c.toNat - 0x10000) % 0x400) :: points) = (charsOfPoints? points).map (c :: ·) := by
  have hlt := Source.toNat_lt c
  generalize hn : c.toNat = n at hc hlt ⊢
  have hleading : isLeading (0xD800 + (n - 0x10000) / 0x400) = true := by
    simp only [isLeading, Bool.and_eq_true, decide_eq_true_eq]
    omega
  have htrailing : isTrailing (0xDC00 + (n - 0x10000) % 0x400) = true := by
    simp only [isTrailing, Bool.and_eq_true, decide_eq_true_eq]
    omega
  have hback : 0x10000 + (0xD800 + (n - 0x10000) / 0x400 - 0xD800) * 0x400 +
      (0xDC00 + (n - 0x10000) % 0x400 - 0xDC00) = n := by
    omega
  rw [charsOfPoints?, if_pos hleading, if_pos htrailing, hback, ← hn, Char.ofNat_toNat]

theorem Grammar.Points.of_char {n : ℕ} (hleading : isLeading n = false)
    (htrailing : isTrailing n = false) (hn : n < 0x110000) {points : List ℕ} {cs : List Char}
    (h : Points points cs) : Points (n :: points) (Char.ofNat n :: cs) := by
  have hchar := h.char (Char.ofNat n)
  rwa [toNat_ofNat hleading htrailing hn] at hchar

theorem Grammar.Points.of_halves {n m : ℕ} (hleading : isLeading n = true)
    (htrailing : isTrailing m = true) {points : List ℕ} {cs : List Char} (h : Points points cs) :
    Points (n :: m :: points)
      (Char.ofNat (0x10000 + (n - 0xD800) * 0x400 + (m - 0xDC00)) :: cs) := by
  simp only [isLeading, isTrailing, Bool.and_eq_true, decide_eq_true_eq] at hleading htrailing
  generalize hk : 0x10000 + (n - 0xD800) * 0x400 + (m - 0xDC00) = k
  have hchar : (Char.ofNat k).toNat = k := by
    refine toNat_ofNat ?_ ?_ (by omega) <;> 
      simp only [isLeading, isTrailing, Bool.and_eq_false_iff, decide_eq_false_iff_not] <;> omega
  have hpair := Points.pair (by omega : 0x10000 ≤ (Char.ofNat k).toNat) h
  have hn : 0xD800 + (k - 0x10000) / 0x400 = n := by omega
  have hm : 0xDC00 + (k - 0x10000) % 0x400 = m := by omega
  rwa [hchar, hn, hm] at hpair

theorem charsOfPoints?_eq_some_iff {points : List ℕ} (hpoints : ∀ n ∈ points, n < 0x110000)
    {cs : List Char} : charsOfPoints? points = some cs ↔ Points points cs := by
  constructor
  · intro h
    fun_induction charsOfPoints? points generalizing cs with
    | case1 =>
      cases h
      exact .nil
    | case2 | case5 | case6 => cases h
    | case3 n hn =>
      obtain ⟨hleading, htrailing⟩ := Bool.or_eq_false_iff.1 (Bool.eq_false_of_not_eq_true hn)
      cases h
      exact .of_char hleading htrailing (hpoints n List.mem_cons_self) .nil
    | case4 n m points hleading htrailing ih =>
      obtain ⟨cs, hcs, rfl⟩ := Option.map_eq_some_iff.1 h
      have hrest := (List.forall_mem_cons.1 (List.forall_mem_cons.1 hpoints).2).2
      exact .of_halves hleading htrailing (ih hrest hcs)
    | case7 n m points hleading htrailing ih =>
      obtain ⟨cs, hcs, rfl⟩ := Option.map_eq_some_iff.1 h
      obtain ⟨hn, hrest⟩ := List.forall_mem_cons.1 hpoints
      exact .of_char (Bool.eq_false_of_not_eq_true hleading)
        (Bool.eq_false_of_not_eq_true htrailing) hn (ih hrest hcs)
  · intro h
    induction h with
    | nil => rfl
    | char c _ ih =>
      rw [charsOfPoints?_char, ih (List.forall_mem_cons.1 hpoints).2]
      rfl
    | pair hc _ ih =>
      rw [charsOfPoints?_pair hc, ih (List.forall_mem_cons.1 (List.forall_mem_cons.1 hpoints).2).2]
      rfl

theorem textOfPoints?_eq {text? : Option String} {points : List ℕ}
    (hpoints : ∀ n ∈ points, n < 0x110000)
    (htext : ∀ text, text? = some text ↔ Points points text.toList) :
    textOfPoints? points = text? := by
  refine Option.ext fun text => ?_
  rw [htext text, ← charsOfPoints?_eq_some_iff hpoints, textOfPoints?, Option.map_eq_some_iff]
  constructor
  · rintro ⟨cs, hcs, rfl⟩
    rw [hcs, String.toList_ofList]
  · exact fun hcs => ⟨_, hcs, String.ofList_toList⟩

theorem forall_lt_of_pieces {pieces : List (List Char)} {points : List ℕ}
    (h : List.Forall₂ Piece pieces points) : ∀ n ∈ points, n < 0x110000 := by
  induction h with
  | nil => exact List.forall_mem_nil _
  | cons hpiece _ ih => exact List.forall_mem_cons.2 ⟨hpiece.lt, ih⟩

/-- A string in quotes is scanned as its text. -/
theorem next?_quoted {text? : Option String} {cs : List Char} (h : Quoted text? cs)
    (rest : List Char) : Token.next? (cs ++ rest) = some (.string text?, rest) := by
  obtain ⟨hpieces, htext⟩ := h
  rw [List.cons_append, List.append_assoc, List.singleton_append]
  simp only [Token.next?, scanString?_pieces hpieces, Option.map_some,
    textOfPoints?_eq (forall_lt_of_pieces hpieces) htext]

/-! ## Numbers -/

/-- Nothing of a number comes next: a blank, a comma, a bracket that closes, or the end. -/
def Ends (rest : List Char) : Prop :=
  ∀ c ∈ rest.head?, isBlank c = true ∨ c ∈ [',', ']', '}']

theorem Ends.head {rest : List Char} (h : Ends rest) :
    ∀ c ∈ rest.head?, c.isDigit = false ∧ c ∉ ['.', 'e', 'E'] := by
  intro c hc
  rcases h c hc with hblank | hmem
  · simp only [isBlank, Bool.or_eq_true, beq_iff_eq] at hblank
    rcases hblank with ((rfl | rfl) | rfl) | rfl <;> decide +kernel
  · fin_cases hmem <;> decide +kernel

theorem digits?_append {ds : List Char} (h : Digits ds) {rest : List Char}
    (hrest : ∀ c ∈ rest.head?, c.isDigit = false) : digits? (ds ++ rest) = some (ds, rest) := by
  have hspan := Number.spanDigits_append rest h.2 hrest
  rw [Number.spanDigits, Prod.mk.injEq] at hspan
  rw [digits?, hspan.1, hspan.2]
  simp [h.1]

theorem whole?_append {ds : List Char} (h : Whole ds) {rest : List Char}
    (hrest : ∀ c ∈ rest.head?, c.isDigit = false) : whole? (ds ++ rest) = some (ds, rest) := by
  rcases h with rfl | ⟨h, hhead⟩
  · rfl
  · obtain ⟨c, cs, rfl⟩ := List.exists_cons_of_ne_nil h.1
    have hc : c ≠ '0' := fun hc => hhead (congrArg some hc)
    rw [← digits?_append h hrest, whole?]
    rintro _ ⟨⟩
    exact hc rfl

theorem fraction?_append {ps : List Char} (h : Places ps) {rest : List Char}
    (hrest : ∀ c ∈ rest.head?, c.isDigit = false ∧ c ≠ '.') :
    fraction? (ps ++ rest) = some (ps, rest) := by
  rcases h with rfl | ⟨ds, hds, rfl⟩
  · cases rest with
    | nil => rfl
    | cons c cs =>
      rw [List.nil_append, fraction?]
      rintro _ ⟨⟩
      exact (hrest '.' rfl).2 rfl
  · rw [List.cons_append, fraction?, digits?_append hds fun c hc => (hrest c hc).1]
    rfl

theorem exponent?_append {ps : List Char} (h : Power ps) {rest : List Char} (hrest : Ends rest) :
    exponent? (ps ++ rest) = some (ps, rest) := by
  rcases h with rfl | ⟨e, sign, ds, he, hsign, hds, rfl⟩
  · cases rest with
    | nil => rfl
    | cons c cs =>
      have hc := (hrest.head c rfl).2
      rw [List.nil_append, exponent?, if_neg]
      rintro (rfl | rfl) <;> simp at hc
  · have hdigits := digits?_append hds fun c hc => (hrest.head c hc).1
    have hsplit : exponentSign (sign ++ (ds ++ rest)) = (sign, ds ++ rest) := by
      obtain ⟨d, ds, rfl⟩ := List.exists_cons_of_ne_nil hds.1
      have hd := hds.2 d List.mem_cons_self
      fin_cases hsign
      · rw [List.nil_append, List.cons_append, exponentSign] <;> rintro _ ⟨⟩ <;> simp at hd
      · rfl
      · rfl
    have he : e = 'e' ∨ e = 'E' := by simpa using he
    rw [List.cons_append, List.append_assoc, exponent?, if_pos he, hsplit]
    simp only [hdigits, Option.map_some]
    rfl

theorem head?_power_append {ps : List Char} (h : Power ps) {rest : List Char} (hrest : Ends rest) :
    ∀ c ∈ (ps ++ rest).head?, c.isDigit = false ∧ c ≠ '.' := by
  rcases h with rfl | ⟨e, sign, ds, he, -, -, rfl⟩
  · intro c hc
    exact (hrest.head c hc).imp id fun hc => by simp_all
  · rintro _ ⟨⟩
    fin_cases he <;> decide +kernel

theorem head?_places_append {ps : List Char} (h : Places ps) {rest : List Char}
    (hrest : ∀ c ∈ rest.head?, c.isDigit = false) :
    ∀ c ∈ (ps ++ rest).head?, c.isDigit = false := by
  rcases h with rfl | ⟨ds, -, rfl⟩
  · exact hrest
  · rintro _ ⟨⟩
    decide +kernel

/-- A number without its sign begins with a digit and is scanned whole. -/
theorem magnitude?_append {whole places power : List Char} (hwhole : Whole whole)
    (hplaces : Places places) (hpower : Power power) {rest : List Char} (hrest : Ends rest) :
    magnitude? (whole ++ (places ++ power) ++ rest) = some (whole ++ (places ++ power), rest) := by
  have hpast := head?_power_append hpower hrest
  have hbehind := head?_places_append hplaces fun c hc => (hpast c hc).1
  rw [List.append_assoc, List.append_assoc, magnitude?, whole?_append hwhole hbehind]
  simp only [Option.bind_eq_bind, Option.bind_some, fraction?_append hplaces hpast,
    exponent?_append hpower hrest, List.append_assoc]
  rfl

theorem exists_whole_eq_cons {whole : List Char} (h : Whole whole) :
    ∃ c cs, whole = c :: cs ∧ c.isDigit = true := by
  rcases h with rfl | ⟨h, -⟩
  · exact ⟨'0', [], rfl, rfl⟩
  · obtain ⟨c, cs, rfl⟩ := List.exists_cons_of_ne_nil h.1
    exact ⟨c, cs, rfl, h.2 c List.mem_cons_self⟩

theorem number?_append {literal : List Char} (h : Numeral literal) {rest : List Char}
    (hrest : Ends rest) : number? (literal ++ rest) = some (literal, rest) := by
  obtain ⟨hsign, hwhole, hplaces, hpower⟩ := h
  have hmagnitude := magnitude?_append hwhole hplaces hpower hrest
  fin_cases hsign
  · obtain ⟨c, cs, rfl, hc⟩ := exists_whole_eq_cons hwhole
    rw [List.nil_append, number?, hmagnitude]
    rintro _ ⟨⟩
    simp at hc
  · rw [List.cons_append, List.nil_append, List.cons_append, number?, hmagnitude]
    rfl

theorem exists_numeral_eq_cons {literal : List Char} (h : Numeral literal) :
    ∃ c cs, literal = c :: cs ∧ (c = '-' ∨ c.isDigit = true) := by
  obtain ⟨hsign, hwhole, -, -⟩ := h
  obtain ⟨c, cs, rfl, hc⟩ := exists_whole_eq_cons hwhole
  fin_cases hsign
  · exact ⟨c, _, rfl, .inr hc⟩
  · exact ⟨'-', _, rfl, .inl rfl⟩

/-- A number is scanned as its literal where no more of a number follows it. -/
theorem next?_numeral {literal : List Char} (h : Numeral literal) {rest : List Char}
    (hrest : Ends rest) : Token.next? (literal ++ rest) = some (.number literal, rest) := by
  have hnumber := number?_append h hrest
  obtain ⟨c, cs, rfl, hc⟩ := exists_numeral_eq_cons h
  rw [List.cons_append] at hnumber ⊢
  unfold Token.next?
  split
  case h_11 => rw [hnumber]; rfl
  all_goals
    rename_i heq
    obtain ⟨rfl, -⟩ := List.cons.inj heq
    simp at hc

end SolidScene.Json
