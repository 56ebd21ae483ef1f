import SolidScene.Number.Literal
import SolidScene.Number.Text
import SolidScene.Proofs.Number.Arithmetic
import SolidScene.Text.Blank

/-!
# Numbers read back

The text of a finite double is a word (`shortest_ne_nil`, `isWordChar_of_mem_shortest`), and reading
it gives the same double, the sign of a zero included (`finite?_shortest`).
-/

namespace SolidScene.Number

open Binary64
open Text (blankRanges isBlank isBracket isWordChar)

/-! ## Digits -/

theorem isDigit_of_mem_toDigits {n : ℕ} {c : Char} (hc : c ∈ Nat.toDigits 10 n) :
    c.isDigit = true :=
  Nat.isDigit_of_mem_toDigits (by decide) (by decide) hc

theorem natOfDigits_append (cs ds : List Char) :
    natOfDigits (cs ++ ds) = 10 ^ ds.length * natOfDigits cs + natOfDigits ds := by
  have h (l : List Char) : natOfDigits l = Nat.ofDigitChars 10 l 0 :=
    Nat.ofDigitChars_eq_foldl.symm
  rw [h, h, h, Nat.ofDigitChars_append, Nat.ofDigitChars_eq_ofDigitChars_zero]

theorem natOfDigits_toDigits (n : ℕ) : natOfDigits (Nat.toDigits 10 n) = n :=
  Nat.ofDigitChars_eq_foldl.symm.trans Nat.ofDigitChars_ten_toDigits

theorem lastDigits_eq_append (count n : ℕ) (rest : List Char) :
    lastDigits count n rest = lastDigits count n [] ++ rest := by
  induction count generalizing n rest with
  | zero => rfl
  | succ count ih =>
    rw [lastDigits, lastDigits, ih, ih _ [_], List.append_assoc]
    rfl

theorem lastDigits_succ (count n : ℕ) :
    lastDigits (count + 1) n [] = lastDigits count (n / 10) [] ++ [(n % 10).digitChar] :=
  lastDigits_eq_append count (n / 10) _

theorem length_lastDigits (count n : ℕ) : (lastDigits count n []).length = count := by
  induction count generalizing n with
  | zero => rfl
  | succ count ih => rw [lastDigits_succ, List.length_append, ih, List.length_singleton]

theorem isDigit_of_mem_lastDigits {count n : ℕ} {c : Char} (hc : c ∈ lastDigits count n []) :
    c.isDigit = true := by
  induction count generalizing n with
  | zero => simp [lastDigits] at hc
  | succ count ih =>
    rw [lastDigits_succ, List.mem_append, List.mem_singleton] at hc
    rcases hc with hc | rfl
    · exact ih hc
    · rw [Nat.isDigit_digitChar, decide_eq_true_eq]
      omega

theorem natOfDigits_lastDigits (count n : ℕ) :
    natOfDigits (lastDigits count n []) = n % 10 ^ count := by
  induction count generalizing n with
  | zero => simp [lastDigits, natOfDigits, Nat.mod_one]
  | succ count ih =>
    have hdigit : natOfDigits [(n % 10).digitChar] = n % 10 := by
      show 10 * 0 + ((n % 10).digitChar.toNat - 48) = n % 10
      rw [Nat.toNat_digitChar_sub_48_of_lt_ten (Nat.mod_lt _ (by decide)), Nat.zero_add]
    rw [lastDigits_succ, natOfDigits_append, ih, hdigit, List.length_singleton, Nat.pow_one,
      Nat.pow_succ', Nat.mod_mul, Nat.add_comm]

/-! ## Positional text -/

/-- Whether a character can stand in the text of a finite magnitude. -/
def isNumeral (c : Char) : Bool := c.isDigit || c == '.'

theorem isNumeral_of_mem_positional {n places : ℕ} {c : Char} (hc : c ∈ positional n places) :
    isNumeral c = true := by
  have hdigit (h : c.isDigit = true) : isNumeral c = true := by rw [isNumeral, h, Bool.true_or]
  rw [positional, List.mem_append] at hc
  rcases hc with hc | hc
  · exact hdigit (isDigit_of_mem_toDigits hc)
  · split_ifs at hc
    · simp at hc
    · rcases List.mem_cons.1 hc with rfl | hc
      · rfl
      · exact hdigit (isDigit_of_mem_lastDigits hc)

/-- A positional text begins with a digit. -/
theorem exists_positional_eq_cons (n places : ℕ) :
    ∃ c cs, positional n places = c :: cs ∧ c.isDigit = true := by
  obtain ⟨c, cs, h⟩ := List.exists_cons_of_ne_nil (Nat.toDigits_ne_nil (n := n / 10 ^ places)
    (b := 10))
  have hc : c ∈ Nat.toDigits 10 (n / 10 ^ places) := h ▸ List.mem_cons_self
  exact ⟨c, _, by rw [positional, h, List.cons_append], isDigit_of_mem_toDigits hc⟩

theorem spanDigits_append {ds : List Char} (rest : List Char) (hd : ∀ c ∈ ds, c.isDigit = true)
    (hr : ∀ c ∈ rest.head?, c.isDigit = false) : spanDigits (ds ++ rest) = (ds, rest) := by
  have htake : rest.takeWhile Char.isDigit = [] ∧ rest.dropWhile Char.isDigit = rest := by
    cases rest with
    | nil => exact ⟨rfl, rfl⟩
    | cons c cs =>
      have hc := hr c rfl
      exact ⟨List.takeWhile_cons_of_neg (by simp [hc]), List.dropWhile_cons_of_neg (by simp [hc])⟩
  rw [spanDigits, List.takeWhile_append_of_pos hd, List.dropWhile_append_of_pos hd, htake.1,
    htake.2, List.append_nil]

/-- Digits, and digits behind a point, are read together as a number with places. -/
theorem decimal?_append (negative : Bool) {whole places tail : List Char} (hne : whole ≠ [])
    (hwhole : ∀ c ∈ whole, c.isDigit = true) (htail : ∀ c ∈ tail.head?, c.isDigit = false)
    (hplaces : fraction tail = (places, [])) :
    decimal? negative (whole ++ tail)
      = some (ofDecimal negative (natOfDigits (whole ++ places)) (-places.length)) := by
  have hdigits : (whole ++ places).isEmpty = false :=
    List.isEmpty_eq_false_iff.2 (List.append_ne_nil_of_left_ne_nil hne places)
  simp only [decimal?, spanDigits_append tail hwhole htail, hplaces, hdigits, exponent?,
    Bool.false_eq_true, if_false, Option.map_some, Int.zero_sub]

/-- A positional text is read as the number it was written for. -/
theorem decimal?_positional (negative : Bool) (n places : ℕ) :
    decimal? negative (positional n places) = some (ofDecimal negative n (-places)) := by
  have hlast := fun c (hc : c ∈ lastDigits places n []) => isDigit_of_mem_lastDigits hc
  have hvalue : natOfDigits (Nat.toDigits 10 (n / 10 ^ places) ++ lastDigits places n []) = n := by
    rw [natOfDigits_append, length_lastDigits, natOfDigits_lastDigits, natOfDigits_toDigits,
      Nat.div_add_mod]
  have hread (tail : List Char) (htail : ∀ c ∈ tail.head?, c.isDigit = false)
      (hplaces : fraction tail = (lastDigits places n [], [])) :
      decimal? negative (Nat.toDigits 10 (n / 10 ^ places) ++ tail)
        = some (ofDecimal negative n (-places)) := by
    rw [decimal?_append negative Nat.toDigits_ne_nil (fun c hc => isDigit_of_mem_toDigits hc)
      htail hplaces, hvalue, length_lastDigits]
  unfold positional
  split_ifs with h
  · subst h
    exact hread [] (by simp) rfl
  · refine hread ('.' :: lastDigits places n []) (by simp) ?_
    have hspan := spanDigits_append [] hlast (by simp)
    rwa [List.append_nil] at hspan

/-! ## Literals -/

theorem toLower_of_isNumeral {c : Char} (hc : isNumeral c = true) : c.toLower = c := by
  unfold Char.toLower
  rw [dif_neg]
  intro h
  rw [isNumeral, Bool.or_eq_true, Char.isDigit_iff_toNat, beq_iff_eq] at hc
  have hlow : 65 ≤ c.toNat := UInt32.le_iff_toNat_le.1 h.1
  rcases hc with ⟨-, hhigh⟩ | rfl
  · have hhigh' : c.toNat ≤ 57 := hhigh
    omega
  · exact absurd hlow (by decide)

theorem isFinite_of_finite? {w : List Char} {x : Float} (h : finite? w = some x) :
    x.isFinite = true :=
  (Option.filter_eq_some_iff.1 h).2

theorem ofChars?_positional (negative : Bool) (n places : ℕ) :
    ofChars? ((if negative then ['-'] else []) ++ positional n places)
      = some (ofDecimal negative n (-places)) := by
  obtain ⟨c, cs, hpos, hc⟩ := exists_positional_eq_cons n places
  have hne (d : Char) (hd : d.isDigit = false) : c ≠ d := by
    rintro rfl
    exact Bool.false_ne_true (hd.symm.trans hc)
  have hlower : (positional n places).map Char.toLower = positional n places :=
    (List.map_congr_left (g := id) fun _ hc =>
      toLower_of_isNumeral (isNumeral_of_mem_positional hc)).trans (List.map_id _)
  have hmagnitude : magnitude? negative (positional n places)
      = some (ofDecimal negative n (-places)) := by
    rw [magnitude?, if_neg, if_neg, decimal?_positional]
    · rw [hpos]
      simp [hne 'n' rfl]
    · rw [hpos]
      simp [hne 'i' rfl]
  rw [ofChars?, List.map_append, hlower]
  cases negative
  · simp only [Bool.false_eq_true, if_false, List.map_nil, List.nil_append]
    rw [hpos] at hmagnitude ⊢
    split
    · rename_i h
      exact absurd (List.cons.inj h).1 (hne '-' rfl)
    · rename_i h
      exact absurd (List.cons.inj h).1 (hne '+' rfl)
    · exact hmagnitude
  · exact hmagnitude

/-! ## The shortest text -/

theorem readsBack_of_gridPoint? {bits grid n : ℕ} (h : gridPoint? bits grid = some n) :
    readsBack bits grid n = true := by
  unfold gridPoint? at h
  simp only at h
  split_ifs at h
  · exact List.find?_some h
  · exact List.find?_some h

/-- The search ends at a point that reads back, if the finest grid has one. -/
theorem readsBack_coarsest {bits : ℕ} (h : readsBack bits 0 (expansion bits) = true)
    (start : ℕ) : readsBack bits (coarsest bits start).2 (coarsest bits start).1 = true := by
  induction start with
  | zero => exact h
  | succ grid ih =>
    unfold coarsest
    rcases Option.eq_none_or_eq_some (gridPoint? bits (grid + 1)) with hnone | ⟨n, hsome⟩
    · rw [hnone]
      exact ih
    · rw [hsome]
      exact readsBack_of_gridPoint? hsome

theorem readsBack_iff {bits grid n : ℕ} :
    readsBack bits grid n = true ↔ nearestBits (n * 10 ^ grid) (5 ^ unitPlaces) = bits := by
  rw [readsBack]
  exact beq_iff_eq

theorem readsBack_expansion {bits : ℕ} (hb : bits < infinityBits) :
    readsBack bits 0 (expansion bits) = true := by
  rw [readsBack_iff, expansion, Nat.pow_zero, Nat.mul_one]
  exact (nearestBits_unitsOfBits _ (Nat.pow_pos (by decide))).trans (Nat.min_eq_left hb.le)

/-- A point of a grid, written with places up to a finest grid, keeps its value. -/
theorem nearestBits_gridPoint (n grid finest : ℕ) :
    nearestBits (n * 10 ^ (grid - finest) * 2 ^ finest) (10 ^ (finest - grid))
      = nearestBits (n * 10 ^ grid) (5 ^ finest) := by
  refine nearestBits_congr (by positivity) (by positivity) ?_
  have h : 10 ^ (grid - finest) * 10 ^ finest = 10 ^ grid * 10 ^ (finest - grid) := by
    rw [← Nat.pow_add, ← Nat.pow_add]
    congr 1
    omega
  calc n * 10 ^ (grid - finest) * 2 ^ finest * 5 ^ finest
      = n * (10 ^ (grid - finest) * (2 * 5) ^ finest) := by rw [Nat.mul_pow]; ring
    _ = n * 10 ^ grid * 10 ^ (finest - grid) := by rw [h, Nat.mul_assoc]

/-- A number that does not round to zero has no more places than matter. -/
theorem places_le {n places : ℕ} (h : 0 < nearestBits (n * 2 ^ unitPlaces) (10 ^ places)) :
    places ≤ 401 + n.log2 := by
  have hlow : 10 ^ places < 2 * (n * 2 ^ unitPlaces) := by
    have hone : unitsOfBits 1 = 1 := by decide
    have hmid := ((lt_nearestBits_iff (by positivity) 0).1 h).2
    rw [unitsOfBits_zero, hone] at hmid
    omega
  by_contra hlarge
  have hplaces : unitPlaces = 1074 := rfl
  have hpow : 2 * (n * 2 ^ unitPlaces) ≤ 10 ^ places := by
    calc 2 * (n * 2 ^ unitPlaces) ≤ 2 * (2 ^ (n.log2 + 1) * 2 ^ unitPlaces) := by
          have := (Nat.lt_log2_self (n := n)).le
          gcongr
      _ = 2 ^ (n.log2 + 1 + unitPlaces + 1) := by ring
      _ ≤ 2 ^ (3 * places) := Nat.pow_le_pow_right (by decide) (by omega)
      _ = 8 ^ places := Nat.pow_mul 2 3 places
      _ ≤ 10 ^ places := Nat.pow_le_pow_left (by decide) places
  exact Nat.not_lt.2 hpow hlow

theorem ofDecimal_eq (negative : Bool) {n places bits : ℕ}
    (hplaces : bits = 0 → places = 0) (h : nearestBits (n * 2 ^ unitPlaces) (10 ^ places) = bits) :
    ofDecimal negative n (-places) = ofSignBits negative bits := by
  have hclamp : clampExponent n (-places) = -places := by
    have hle : places ≤ 401 + n.log2 := by
      rcases Nat.eq_zero_or_pos bits with h0 | hpos
      · rw [hplaces h0]
        exact Nat.zero_le _
      · exact places_le (h ▸ hpos)
    unfold clampExponent
    omega
  rw [ofDecimal, hclamp]
  cases places with
  | zero =>
    rw [Nat.pow_zero] at h
    refine congrArg (ofSignBits negative) (Eq.trans ?_ h)
    show nearestBits (n * 10 ^ 0 * 2 ^ unitPlaces) 1 = _
    rw [Nat.pow_zero, Nat.mul_one]
  | succ places => exact congrArg (ofSignBits negative) h

theorem ofChars?_shortestMagnitude (negative : Bool) {bits : ℕ} (hb : bits < infinityBits) :
    ofChars? ((if negative then ['-'] else []) ++ shortestMagnitude bits)
      = some (ofSignBits negative bits) := by
  by_cases h0 : bits = 0
  · have hread := ofChars?_positional negative 0 0
    rw [ofDecimal_eq negative (fun _ => rfl)
      (by rw [Nat.zero_mul, nearestBits_zero (by positivity)])] at hread
    rw [shortestMagnitude, if_pos h0, h0]
    exact hread
  · have hback := readsBack_iff.1
      (readsBack_coarsest (readsBack_expansion hb) (startGrid bits))
    rw [← nearestBits_gridPoint] at hback
    rw [shortestMagnitude, if_neg h0]
    simp only
    rw [ofChars?_positional, ofDecimal_eq negative (absurd · h0) hback]

/-- The text of a finite double is read as the same double. -/
theorem finite?_shortest {x : Float} (hx : x.isFinite = true) : finite? (shortest x) = some x := by
  have hb := isFinite_iff.1 hx
  have hread := ofChars?_shortestMagnitude (isNegative x) hb
  rw [ofSignBits_isNegative hx] at hread
  have htext : shortest x
      = (if isNegative x then ['-'] else []) ++ shortestMagnitude (magnitudeBits x) := by
    rw [shortest, signed]
    rw [if_neg hb.not_gt, if_neg hb.ne]
  rw [finite?, htext, hread, Option.filter_some, if_pos hx]

/-! ## The text is a word -/

theorem isWordChar_of_isNumeral {c : Char} (hc : isNumeral c = true) : isWordChar c = true := by
  rw [isNumeral, Bool.or_eq_true, Char.isDigit_iff_toNat, beq_iff_eq] at hc
  rcases hc with ⟨hlow, hhigh⟩ | rfl
  · have hlow' : 48 ≤ c.toNat := hlow
    have hhigh' : c.toNat ≤ 57 := hhigh
    have hblank : isBlank c = false := by
      simp [isBlank, blankRanges]
      omega
    have hopen : c ≠ '[' := by
      rintro rfl
      exact absurd hhigh' (by decide)
    have hclose : c ≠ ']' := by
      rintro rfl
      exact absurd hhigh' (by decide)
    simp [isWordChar, isBracket, hblank, hopen, hclose]
  · decide

theorem isNumeral_of_mem_shortestMagnitude {bits : ℕ} {c : Char}
    (hc : c ∈ shortestMagnitude bits) : isNumeral c = true := by
  unfold shortestMagnitude at hc
  split_ifs at hc
  · rw [List.mem_singleton.1 hc]
    rfl
  · exact isNumeral_of_mem_positional hc

theorem shortestMagnitude_ne_nil (bits : ℕ) : shortestMagnitude bits ≠ [] := by
  unfold shortestMagnitude
  split_ifs
  · exact List.cons_ne_nil _ _
  · exact List.append_ne_nil_of_left_ne_nil Nat.toDigits_ne_nil _

theorem isWordChar_of_mem_shortest {x : Float} {c : Char} (hc : c ∈ shortest x) :
    isWordChar c = true := by
  have hword (w : List Char) (hw : w.all isWordChar = true) (hc : c ∈ w) : isWordChar c = true :=
    List.all_eq_true.1 hw c hc
  rw [shortest, signed] at hc
  by_cases hnan : infinityBits < magnitudeBits x
  · rw [if_pos hnan] at hc
    exact hword ['N', 'a', 'N'] (by decide) hc
  rw [if_neg hnan, List.mem_append] at hc
  rcases hc with hc | hc
  · split_ifs at hc
    · exact hword ['-'] (by decide) hc
    · exact absurd hc List.not_mem_nil
  · split_ifs at hc
    · exact hword ['i', 'n', 'f'] (by decide) hc
    · exact isWordChar_of_isNumeral (isNumeral_of_mem_shortestMagnitude hc)

theorem shortest_ne_nil (x : Float) : shortest x ≠ [] := by
  rw [shortest, signed]
  split_ifs <;> simp [shortestMagnitude_ne_nil]

end SolidScene.Number
