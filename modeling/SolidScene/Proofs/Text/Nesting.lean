import Mathlib.Data.Int.Order.Basic
import Mathlib.Order.Bounds.Basic
import SolidScene.Proofs.Text.Lexeme

/-!
# Nesting of brackets

A text nests its brackets properly, and so deep (`Nests`). Texts one behind the other nest as deep
as the deeper one, a text in brackets nests one deeper, and everything but brackets may be left
out (`Nests.of_filter`).
-/

namespace SolidScene.Text

/-- How many more brackets open than close. -/
def excess (cs : List Char) : ℤ := cs.count '[' - cs.count ']'

/-- Every bracket that opens is closed and none closes before it, and `depth` is how many are open
where most are. -/
structure Nests (cs : List Char) (depth : ℕ) : Prop where
  closed : excess cs = 0
  opened : ∀ p, p <+: cs → 0 ≤ excess p
  greatest : IsGreatest {n | ∃ p, p <+: cs ∧ excess p = n} (depth : ℤ)

@[simp] theorem excess_nil : excess [] = 0 := rfl

@[simp] theorem excess_append (cs ds : List Char) : excess (cs ++ ds) = excess cs + excess ds := by
  simp only [excess, List.count_append]
  omega

@[simp] theorem excess_opening (cs : List Char) : excess ('[' :: cs) = excess cs + 1 := by
  simp [excess]
  omega

theorem excess_filter (cs : List Char) : excess (cs.filter isBracket) = excess cs := by
  rw [excess, count_filter_isBracket .opening, count_filter_isBracket .closing, excess]

/-! ## Parts -/

section Parts

variable {u v p : List Char}

/-- A part of two texts is a part of the first, or the first and a part of the second. -/
theorem prefix_append_cases (h : p <+: u ++ v) : p <+: u ∨ ∃ q, q <+: v ∧ p = u ++ q := by
  rcases List.prefix_or_prefix_of_prefix h (List.prefix_append u v) with h' | ⟨q, rfl⟩
  · exact .inl h'
  · exact .inr ⟨q, (List.prefix_append_right_inj u).1 h, rfl⟩

/-- Before the end of a text in brackets the first of them is open. -/
theorem prefix_enclosed_cases (h : p <+: '[' :: (u ++ [']'])) :
    p = [] ∨ p = '[' :: (u ++ [']']) ∨ ∃ q, q <+: u ∧ excess p = excess q + 1 := by
  rcases List.prefix_cons_iff.1 h with hnil | ⟨q, rfl, hq⟩
  · exact .inl hnil
  rcases List.prefix_concat_iff.1 hq with rfl | hq
  · exact .inr (.inl rfl)
  · exact .inr (.inr ⟨q, hq, excess_opening q⟩)

end Parts

namespace Nests

variable {u v : List Char} {m n : ℕ}

theorem excess_le (h : Nests u n) {p : List Char} (hp : p <+: u) : excess p ≤ n :=
  h.greatest.2 ⟨p, hp, rfl⟩

theorem nil : Nests [] 0 where
  closed := rfl
  opened p hp := by rw [List.prefix_nil.1 hp, excess_nil]
  greatest := by
    refine ⟨⟨[], List.nil_prefix, rfl⟩, ?_⟩
    rintro _ ⟨p, hp, rfl⟩
    rw [List.prefix_nil.1 hp]
    rfl

theorem append (hu : Nests u m) (hv : Nests v n) : Nests (u ++ v) (max m n) where
  closed := by rw [excess_append, hu.closed, hv.closed, Int.add_zero]
  opened p hp := by
    rcases prefix_append_cases hp with hp | ⟨q, hq, rfl⟩
    · exact hu.opened p hp
    · rw [excess_append, hu.closed, Int.zero_add]
      exact hv.opened q hq
  greatest := by
    constructor
    · rcases le_total m n with h | h
      · obtain ⟨q, hq, hdeep⟩ := hv.greatest.1
        refine ⟨u ++ q, (List.prefix_append_right_inj u).2 hq, ?_⟩
        rw [excess_append, hu.closed, Int.zero_add, hdeep, max_eq_right h]
      · obtain ⟨p, hp, hdeep⟩ := hu.greatest.1
        exact ⟨p, hp.trans (List.prefix_append u v), by rw [hdeep, max_eq_left h]⟩
    · rintro _ ⟨p, hp, rfl⟩
      rcases prefix_append_cases hp with hp | ⟨q, hq, rfl⟩
      · have := hu.excess_le hp
        omega
      · have := hv.excess_le hq
        rw [excess_append, hu.closed]
        omega

theorem flatMap {β : Type} {f : β → List Char} {depth : β → ℕ} {l : List β}
    (h : ∀ x ∈ l, Nests (f x) (depth x)) : Nests (l.flatMap f) ((l.map depth).foldr max 0) := by
  induction l with
  | nil => exact .nil
  | cons x l ih =>
    obtain ⟨hx, hl⟩ := List.forall_mem_cons.1 h
    exact hx.append (ih hl)

theorem enclosed (h : Nests u n) : Nests ('[' :: (u ++ [']'])) (n + 1) := by
  have hclosed : excess ('[' :: (u ++ [']'])) = 0 := by
    rw [excess_opening, excess_append, h.closed]
    rfl
  have hpart {p : List Char} (hp : p <+: '[' :: (u ++ [']'])) :
      excess p = 0 ∨ ∃ q, q <+: u ∧ excess p = excess q + 1 := by
    rcases prefix_enclosed_cases hp with rfl | rfl | hq
    · exact .inl rfl
    · exact .inl hclosed
    · exact .inr hq
  refine ⟨hclosed, fun p hp => ?_, ?_, ?_⟩
  · rcases hpart hp with h0 | ⟨q, hq, hpq⟩
    · exact h0.ge
    · have := h.opened q hq
      omega
  · obtain ⟨q, hq, hdeep⟩ := h.greatest.1
    refine ⟨'[' :: q, ?_, by rw [excess_opening, hdeep]; rfl⟩
    exact List.cons_prefix_cons.2 ⟨rfl, hq.trans (List.prefix_append u _)⟩
  · rintro _ ⟨p, hp, rfl⟩
    rcases hpart hp with h0 | ⟨q, hq, hpq⟩
    · omega
    · have := h.excess_le hq
      omega

/-- A text in brackets that encloses a proper one is balanced at its end only. -/
theorem excess_eq_zero_iff (h : Nests u n) {p : List Char} (hp : p <+: '[' :: (u ++ [']']))
    (hne : p ≠ []) : excess p = 0 ↔ p = '[' :: (u ++ [']']) := by
  constructor
  · intro h0
    rcases prefix_enclosed_cases hp with hnil | hall | ⟨q, hq, hpq⟩
    · exact absurd hnil hne
    · exact hall
    · have := h.opened q hq
      omega
  · rintro rfl
    exact h.enclosed.closed

/-- What is no bracket makes no difference. -/
theorem of_filter {cs : List Char} (h : Nests (cs.filter isBracket) n) : Nests cs n where
  closed := by rw [← excess_filter, h.closed]
  opened p hp := by
    rw [← excess_filter]
    exact h.opened _ (hp.filter _)
  greatest := by
    constructor
    · obtain ⟨q, hq, hdeep⟩ := h.greatest.1
      obtain ⟨p, hp, rfl⟩ := List.prefix_filter_iff.1 hq
      exact ⟨p, hp, by rw [← hdeep, excess_filter]⟩
    · rintro _ ⟨p, hp, rfl⟩
      rw [← excess_filter]
      exact h.excess_le (hp.filter _)

end Nests

end SolidScene.Text
