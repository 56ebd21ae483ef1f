import Mathlib.Order.Monotone.Basic
import Mathlib.Tactic.Positivity
import Mathlib.Tactic.Ring
import SolidScene.Number.Binary64

/-!
# Rounding to the nearest double

`nearestBits` lies above the pattern `b` exactly when the fraction is past the midpoint between the
doubles `b` and `b + 1`, or on it with `b` odd (`lt_nearestBits_iff`). So it depends only on the
value of the fraction, never falls as the value grows, and gives back the bits of every double.
-/

namespace SolidScene.Binary64

/-- A whole number is passed exactly when the midpoint above it is, or is met from an odd one. -/
theorem lt_roundHalfEven_iff {num den : ℕ} (hd : 0 < den) (n : ℕ) :
    n < roundHalfEven num den ↔
      (2 * n + 1) * den < 2 * num ∨ (2 * n + 1) * den = 2 * num ∧ n % 2 = 1 := by
  have hr := Nat.mod_lt num hd
  have hnum := Nat.div_add_mod num den
  rcases Nat.lt_trichotomy n (num / den) with hlt | rfl | hgt
  · have hmul : den * (n + 1) ≤ den * (num / den) := Nat.mul_le_mul_left _ hlt
    have hring : (2 * n + 1) * den + den = 2 * (den * (n + 1)) := by ring
    have hleft : n < roundHalfEven num den := by
      unfold roundHalfEven
      split_ifs <;> omega
    exact iff_of_true hleft (.inl (by omega))
  · have hring : (2 * (num / den) + 1) * den = 2 * (den * (num / den)) + den := by ring
    unfold roundHalfEven
    split_ifs <;> omega
  · have hmul : den * (num / den + 1) ≤ den * n := Nat.mul_le_mul_left _ hgt
    have hring : (2 * n + 1) * den = 2 * (den * n) + den := by ring
    have hring' : den * (num / den + 1) = den * (num / den) + den := by ring
    refine iff_of_false ?_ (by omega)
    unfold roundHalfEven
    split_ifs <;> omega

theorem roundHalfEven_mul {k num den : ℕ} (hk : 0 < k) :
    roundHalfEven (k * num) (k * den) = roundHalfEven num den := by
  have h2 (a : ℕ) : 2 * (k * a) = k * (2 * a) := by ring
  simp only [roundHalfEven, Nat.mul_div_mul_left _ _ hk, Nat.mul_mod_mul_left, h2,
    Nat.mul_lt_mul_left hk, Nat.mul_right_inj (Nat.ne_of_gt hk)]

/-! ## Units of a bit pattern -/

/-- The patterns of one binade: `r` steps of `2 ^ doublings` units. The last of them is the first
of the next binade. -/
theorem unitsOfBits_binade {doublings r : ℕ} (hlow : 2 ^ 52 ≤ r ∨ doublings = 0)
    (hhigh : r ≤ 2 ^ 53) : unitsOfBits (doublings * 2 ^ 52 + r) = r * 2 ^ doublings := by
  unfold unitsOfBits fractionBits
  rcases Nat.lt_or_ge r (2 ^ 52) with h | h
  · obtain rfl : doublings = 0 := by omega
    rw [Nat.zero_mul, Nat.zero_add, if_pos h, pow_zero, Nat.mul_one]
  · rw [if_neg (by omega)]
    rcases Nat.lt_or_eq_of_le hhigh with h' | rfl
    · have hq : (doublings * 2 ^ 52 + r) / 2 ^ 52 - 1 = doublings := by omega
      have hm : 2 ^ 52 + (doublings * 2 ^ 52 + r) % 2 ^ 52 = r := by omega
      rw [hq, hm]
    · have hq : (doublings * 2 ^ 52 + 2 ^ 53) / 2 ^ 52 - 1 = doublings + 1 := by omega
      have hm : 2 ^ 52 + (doublings * 2 ^ 52 + 2 ^ 53) % 2 ^ 52 = 2 ^ 52 := by omega
      rw [hq, hm, Nat.pow_succ]
      ring

/-- Every pattern belongs to a binade. -/
theorem exists_binade (bits : ℕ) : ∃ doublings r, bits = doublings * 2 ^ 52 + r ∧ r < 2 ^ 53 ∧
    (2 ^ 52 ≤ r ∨ doublings = 0) := by
  rcases Nat.lt_or_ge bits (2 ^ 52) with h | h
  · exact ⟨0, bits, by omega, by omega, .inr rfl⟩
  · exact ⟨bits / 2 ^ 52 - 1, 2 ^ 52 + bits % 2 ^ 52, by omega, by omega, .inl (by omega)⟩

theorem unitsOfBits_lt_succ (bits : ℕ) : unitsOfBits bits < unitsOfBits (bits + 1) := by
  obtain ⟨doublings, r, rfl, hr, hlow⟩ := exists_binade bits
  rw [Nat.add_assoc, unitsOfBits_binade hlow hr.le,
    unitsOfBits_binade (by omega) (Nat.succ_le_of_lt hr)]
  exact Nat.mul_lt_mul_of_pos_right (Nat.lt_succ_self r) (by positivity)

theorem unitsOfBits_strictMono : StrictMono unitsOfBits :=
  strictMono_nat_of_lt_succ unitsOfBits_lt_succ

theorem unitsOfBits_zero : unitsOfBits 0 = 0 := by simp [unitsOfBits, fractionBits]

/-- Twice the units of a pattern are those of the pattern one binade up, or of twice the pattern
where there are no binades yet. -/
theorem two_mul_unitsOfBits (bits : ℕ) :
    2 * unitsOfBits bits = unitsOfBits (if bits < 2 ^ 52 then 2 * bits else bits + 2 ^ 52) := by
  split_ifs with h
  · have hfirst (r : ℕ) (hr : r ≤ 2 ^ 53) : unitsOfBits r = r := by
      have h := unitsOfBits_binade (.inr rfl) hr
      simpa only [Nat.zero_mul, Nat.zero_add, pow_zero, Nat.mul_one] using h
    rw [hfirst bits (by omega), hfirst (2 * bits) (by omega)]
  · obtain ⟨doublings, r, rfl, hr, hlow⟩ := exists_binade bits
    have hlow' : 2 ^ 52 ≤ r := by
      rcases hlow with hlow | rfl
      · exact hlow
      · omega
    have hup : doublings * 2 ^ 52 + r + 2 ^ 52 = (doublings + 1) * 2 ^ 52 + r := by ring
    rw [hup, unitsOfBits_binade hlow hr.le, unitsOfBits_binade (.inl hlow') hr.le, Nat.pow_succ]
    ring

/-! ## The nearest double -/

/-- The binade that the rounding happens in holds the fraction. -/
theorem binade_bounds (num : ℕ) {den : ℕ} (hd : 0 < den) :
    num < 2 ^ ((num / den).log2 - 52 + 53) * den ∧
      (2 ^ ((num / den).log2 - 52 + 52) * den ≤ num ∨ (num / den).log2 - 52 = 0) := by
  have hlt : num / den < 2 ^ ((num / den).log2 + 1) := Nat.lt_log2_self
  refine ⟨?_, ?_⟩
  · have hle : 2 ^ ((num / den).log2 + 1) ≤ 2 ^ ((num / den).log2 - 52 + 53) :=
      Nat.pow_le_pow_right (by decide) (by omega)
    exact (Nat.div_lt_iff_lt_mul hd).1 (hlt.trans_le hle)
  · rcases Nat.lt_or_ge (num / den).log2 53 with h | h
    · exact .inr (by omega)
    · left
      have hne : num / den ≠ 0 := by
        intro h0
        simp [h0] at h
      have hge := Nat.log2_self_le hne
      rw [show (num / den).log2 - 52 + 52 = (num / den).log2 by omega]
      exact (Nat.le_div_iff_mul_le hd).1 hge

/-- The step count within the binade. -/
theorem roundHalfEven_binade {num den doublings : ℕ} (hd : 0 < den)
    (hhigh : num < 2 ^ (doublings + 53) * den)
    (hlow : 2 ^ (doublings + 52) * den ≤ num ∨ doublings = 0) :
    roundHalfEven num (den * 2 ^ doublings) ≤ 2 ^ 53 ∧
      (2 ^ 52 ≤ roundHalfEven num (den * 2 ^ doublings) ∨ doublings = 0) := by
  have hd' : 0 < den * 2 ^ doublings := by positivity
  refine ⟨?_, ?_⟩
  · refine Nat.le_of_not_lt fun h => ?_
    have hring : 2 ^ (doublings + 53) * den = 2 ^ 53 * (den * 2 ^ doublings) := by
      rw [Nat.pow_add]; ring
    rw [hring] at hhigh
    rcases (lt_roundHalfEven_iff hd' _).1 h with h | ⟨-, h⟩
    · generalize den * 2 ^ doublings = d at *
      omega
    · exact absurd h (by decide)
  · rcases hlow with hlow | h0
    · left
      have hring : 2 ^ (doublings + 52) * den = 2 ^ 52 * (den * 2 ^ doublings) := by
        rw [Nat.pow_add]; ring
      rw [hring] at hlow
      have : 2 ^ 52 - 1 < roundHalfEven num (den * 2 ^ doublings) := by
        rw [lt_roundHalfEven_iff hd']
        left
        generalize den * 2 ^ doublings = d at *
        omega
      omega
    · exact .inr h0

theorem midpoint_lt {b m : ℕ} (h : b < m) :
    unitsOfBits b + unitsOfBits (b + 1) < 2 * unitsOfBits m := by
  have hlt := unitsOfBits_lt_succ b
  have hle : unitsOfBits (b + 1) ≤ unitsOfBits m := unitsOfBits_strictMono.monotone h
  omega

theorem lt_midpoint {b m : ℕ} (h : m ≤ b) :
    2 * unitsOfBits m < unitsOfBits b + unitsOfBits (b + 1) := by
  have hlt := unitsOfBits_lt_succ b
  have hle := unitsOfBits_strictMono.monotone h
  omega

/-- A fraction rounds past the bits `b` exactly when it is past the midpoint above them, or on it
with `b` odd. -/
theorem lt_nearestBits_iff {num den : ℕ} (hd : 0 < den) (b : ℕ) :
    b < nearestBits num den ↔ b < infinityBits ∧
      ((unitsOfBits b + unitsOfBits (b + 1)) * den < 2 * num ∨
        (unitsOfBits b + unitsOfBits (b + 1)) * den = 2 * num ∧ b % 2 = 1) := by
  obtain ⟨hhigh, hlow⟩ := binade_bounds num hd
  unfold nearestBits fractionBits
  simp only [lt_min_iff, and_comm (b := b < infinityBits)]
  generalize (num / den).log2 - 52 = doublings at *
  obtain ⟨hR, hR'⟩ := roundHalfEven_binade hd hhigh hlow
  have hd' : 0 < den * 2 ^ doublings := by positivity
  refine and_congr_right fun _ => ?_
  rcases Nat.lt_or_ge b (doublings * 2 ^ 52 + if doublings = 0 then 0 else 2 ^ 52) with hb | hb
  · -- below the binade: the fraction is past every double there
    have h0 : doublings ≠ 0 := by
      rintro rfl
      simp at hb
    simp only [h0, if_false, or_false] at hb hlow hR'
    refine iff_of_true (by omega) (.inl ?_)
    have hunits : unitsOfBits (doublings * 2 ^ 52 + 2 ^ 52) = 2 ^ 52 * 2 ^ doublings :=
      unitsOfBits_binade (.inl le_rfl) (by omega)
    have hmidpoint := midpoint_lt hb
    rw [hunits] at hmidpoint
    rw [Nat.pow_add, Nat.mul_comm (2 ^ doublings)] at hlow
    calc (unitsOfBits b + unitsOfBits (b + 1)) * den
        < 2 * (2 ^ 52 * 2 ^ doublings) * den := Nat.mul_lt_mul_of_pos_right hmidpoint hd
      _ = 2 * (2 ^ 52 * 2 ^ doublings * den) := Nat.mul_assoc ..
      _ ≤ 2 * num := Nat.mul_le_mul_left 2 hlow
  · obtain ⟨r, rfl⟩ := Nat.exists_eq_add_of_le ((Nat.le_add_right _ _).trans hb)
    have hr : 2 ^ 52 ≤ r ∨ doublings = 0 := by
      split_ifs at hb <;> omega
    rcases Nat.lt_or_ge r (2 ^ 53) with hr' | hr'
    · -- in the binade: the whole numbers of steps are its doubles
      have hup : unitsOfBits (doublings * 2 ^ 52 + (r + 1)) = (r + 1) * 2 ^ doublings :=
        unitsOfBits_binade (hr.imp_left Nat.le_succ_of_le) (Nat.succ_le_of_lt hr')
      rw [Nat.add_assoc, unitsOfBits_binade hr hr'.le, hup, Nat.add_lt_add_iff_left,
        lt_roundHalfEven_iff hd']
      have hring : (r * 2 ^ doublings + (r + 1) * 2 ^ doublings) * den
          = (2 * r + 1) * (den * 2 ^ doublings) := by ring
      have hodd : (doublings * 2 ^ 52 + r) % 2 = r % 2 := by omega
      rw [hring, hodd]
    · -- above the binade: no fraction of it is past a double there
      have hunits : unitsOfBits (doublings * 2 ^ 52 + 2 ^ 53) = 2 ^ 53 * 2 ^ doublings :=
        unitsOfBits_binade (.inl (by decide)) le_rfl
      have hmidpoint := lt_midpoint (Nat.add_le_add_left hr' (doublings * 2 ^ 52))
      rw [hunits] at hmidpoint
      rw [Nat.pow_add, Nat.mul_comm (2 ^ doublings)] at hhigh
      have hpast : 2 * num < (unitsOfBits (doublings * 2 ^ 52 + r)
          + unitsOfBits (doublings * 2 ^ 52 + r + 1)) * den :=
        calc 2 * num < 2 * (2 ^ 53 * 2 ^ doublings * den) := by omega
          _ = 2 * (2 ^ 53 * 2 ^ doublings) * den := (Nat.mul_assoc ..).symm
          _ ≤ _ := Nat.mul_le_mul_right den hmidpoint.le
      exact iff_of_false (by omega) (by omega)

theorem nearestBits_le_infinityBits (num den : ℕ) : nearestBits num den ≤ infinityBits :=
  Nat.min_le_right _ _

/-- Rounding keeps the order of fractions. -/
theorem nearestBits_mono {num den num' den' : ℕ} (hd : 0 < den) (hd' : 0 < den')
    (h : num * den' ≤ num' * den) : nearestBits num den ≤ nearestBits num' den' := by
  refine Nat.le_of_not_lt fun hlt => ?_
  have hself := Nat.lt_irrefl (nearestBits num' den')
  rw [lt_nearestBits_iff hd] at hlt
  rw [lt_nearestBits_iff hd'] at hself
  refine hself ⟨hlt.1, ?_⟩
  generalize nearestBits num' den' = b at *
  generalize hm : unitsOfBits b + unitsOfBits (b + 1) = mid at *
  have hmul (a c d : ℕ) : a * c * d = a * d * c := by ring
  rcases hlt.2 with hmid | ⟨hmid, hodd⟩
  · left
    refine Nat.lt_of_mul_lt_mul_right (a := den) ?_
    calc mid * den' * den = mid * den * den' := hmul ..
      _ < 2 * num * den' := Nat.mul_lt_mul_of_pos_right hmid hd'
      _ = 2 * (num * den') := by ring
      _ ≤ 2 * (num' * den) := Nat.mul_le_mul_left 2 h
      _ = 2 * num' * den := by ring
  · have hle : mid * den' ≤ 2 * num' := by
      refine Nat.le_of_mul_le_mul_right (c := den) ?_ hd
      calc mid * den' * den = mid * den * den' := hmul ..
        _ = 2 * (num * den') := by rw [hmid]; ring
        _ ≤ 2 * (num' * den) := Nat.mul_le_mul_left 2 h
        _ = 2 * num' * den := by ring
    exact (Nat.lt_or_eq_of_le hle).imp_right fun heq => ⟨heq, hodd⟩

/-- Only the value of a fraction matters. -/
theorem nearestBits_congr {num den num' den' : ℕ} (hd : 0 < den) (hd' : 0 < den')
    (h : num * den' = num' * den) : nearestBits num den = nearestBits num' den' :=
  Nat.le_antisymm (nearestBits_mono hd hd' h.le) (nearestBits_mono hd' hd h.ge)

/-- A double rounds to itself, and what is past the greatest one to infinity. -/
theorem nearestBits_unitsOfBits (bits : ℕ) {den : ℕ} (hd : 0 < den) :
    nearestBits (unitsOfBits bits * den) den = min bits infinityBits := by
  have key (c : ℕ) : c < nearestBits (unitsOfBits bits * den) den ↔ c < min bits infinityBits := by
    rw [lt_nearestBits_iff hd, lt_min_iff, and_comm]
    refine and_congr_left fun _ => ?_
    have hc := unitsOfBits_lt_succ c
    have hring : 2 * (unitsOfBits bits * den) = (2 * unitsOfBits bits) * den := by ring
    rw [hring, Nat.mul_lt_mul_right hd, Nat.mul_left_inj hd.ne']
    rcases Nat.lt_or_ge c bits with h | h
    · have := unitsOfBits_strictMono.monotone (show c + 1 ≤ bits from h)
      exact iff_of_true (.inl (by omega)) h
    · have := unitsOfBits_strictMono.monotone h
      exact iff_of_false (by omega) (by omega)
  refine Nat.le_antisymm (Nat.le_of_not_lt fun h => ?_) (Nat.le_of_not_lt fun h => ?_)
  · exact absurd ((key _).1 h) (Nat.lt_irrefl _)
  · exact absurd ((key _).2 h) (Nat.lt_irrefl _)

theorem nearestBits_zero {den : ℕ} (hd : 0 < den) : nearestBits 0 den = 0 := by
  have h := nearestBits_unitsOfBits 0 hd
  rwa [unitsOfBits_zero, Nat.zero_mul, Nat.zero_min] at h

end SolidScene.Binary64
