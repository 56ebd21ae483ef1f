import Mathlib.Data.List.Basic
import Mathlib.Order.Basic
import SolidScene.Scene.Parse

/-!
# Steps and runs

To pass characters is to look at each and then leave it behind (`bump_eq`, `takeWhile_eq`), and to
read to the end of a source is to read in rounds, as many as the source is long
(`constructAll_eq_rounds`). So what looking, passing and marking do to a reader every action does
(`Passage.stepwise`).
-/

namespace SolidScene.Read

open Source (Event)

variable {α β : Type}

/-! ## Passing characters -/

theorem lookahead_of_peek {r r' : Reader} {c : Char} (h : peek r = (.ok (some c), r')) :
    r'.lookahead = some c := by
  unfold peek at h
  split at h <;> cases h
  rfl

/-- Leaves the character behind that was looked at. -/
def passed (next : Option Char) : Read (Option Char) := fun r => (.ok next, next.elim r r.pass)

theorem bump_eq : bump = peek >>= passed := by
  funext r
  rw [bind_apply]
  unfold bump
  rcases peek r with ⟨e | _ | c, r'⟩ <;> rfl

theorem takeWhile_eq (p : Char → Bool) : takeWhile p = peek >>= fun
    | some c =>
      if p c then passed (some c) >>= fun _ => takeWhile p >>= fun cs => pure (c :: cs)
      else pure []
    | none => pure [] := by
  funext ⟨unread, lookahead, at_, start⟩
  rw [bind_apply]
  have hchar (c : Char) (unread : List Event) : runOf p start (.char c :: unread) at_ =
      (if p c then passed (some c) >>= fun _ => takeWhile p >>= fun cs => pure (c :: cs)
        else pure [] : Read (List Char)) ⟨unread, some c, at_, start⟩ := by
    rw [runOf]
    split_ifs
    · have hpass : passed (some c) ⟨unread, some c, at_, start⟩
          = (.ok (some c), ⟨unread, none, at_.advance c, start⟩) := rfl
      have htake : takeWhile p ⟨unread, none, at_.advance c, start⟩
          = runOf p start unread (at_.advance c) := rfl
      rw [bind_of_ok hpass, bind_apply, htake]
      rcases runOf p start unread (at_.advance c) with ⟨e | cs, r'⟩ <;> rfl
    · rfl
  cases lookahead with
  | some c => exact hchar c unread
  | none =>
    rcases unread with _ | ⟨c | cause | _, unread⟩
    · rfl
    · exact hchar c unread
    · rfl
    · rfl

/-- Along a run of characters a reader comes to what holds of it from behind: every character that
is passed leaves less to come. -/
theorem run_induction {P : Reader → Prop}
    (step : ∀ r, (∀ r' c, peek r = (.ok (some c), r') → P (r'.pass c)) → P r) (r : Reader) :
    P r := by
  induction hk : r.remaining using Nat.strongRecOn generalizing r with
  | ind k ih =>
    refine step r fun r' c hpeek => ih _ ?_ _ rfl
    rw [← hk]
    refine bump_remaining (c := c) ?_
    rw [bump_eq, bind_of_ok hpeek]
    rfl

/-! ## Other faults -/

/-- An error with its fault, where it has one, replaced by this one. -/
def blame (fault : Fault) : SceneError → SceneError
  | .rejected _ position => .rejected fault position
  | e => e

theorem withFault_apply (fault : Fault) (x : Read α) (r : Reader) :
    withFault fault x r = ((x r).1.mapError (blame fault), (x r).2) := by
  unfold withFault
  rcases x r with ⟨(_ | _ | _) | a, r'⟩ <;> rfl

/-! ## Rounds -/

/-- Reads an expression and what comes behind it, where there is one. -/
def proceed (limit : ℕ) (behind : Read (List Scene)) : Option Char → Read (List Scene)
  | none => pure []
  | some _ => construct limit >>= fun s => behind >>= fun ss => pure (s :: ss)

theorem proceed_none (limit : ℕ) (behind : Read (List Scene)) :
    proceed limit behind none = pure [] := rfl

theorem proceed_some (limit : ℕ) (behind : Read (List Scene)) (c : Char) :
    proceed limit behind (some c)
      = construct limit >>= fun s => behind >>= fun ss => pure (s :: ss) := rfl

theorem constructAll_eq (limit : ℕ) :
    constructAll limit = peekChar >>= proceed limit (constructAll limit) := by
  refine (readAll_eq limit).trans (congrArg _ (funext fun next => ?_))
  cases next <;> rfl

/-- Reads expressions to the end of the input, or so many of them. -/
def rounds (limit : ℕ) : ℕ → Read (List Scene)
  | 0 => pure []
  | n + 1 => peekChar >>= proceed limit (rounds limit n)

theorem Stepwise.proceed {behind : Read (List Scene)} (h : Stepwise (fun _ => True) behind)
    (limit : ℕ) : ∀ next, Stepwise (fun _ => True) (proceed limit behind next)
  | none => .pure _
  | some _ => .bind (.construct trivial) fun _ => .bind h fun _ => .pure _

theorem Stepwise.rounds (limit : ℕ) : ∀ n, Stepwise (fun _ => True) (rounds limit n)
  | 0 => .pure _
  | n + 1 => .bind .peekChar (.proceed (.rounds limit n) limit)

theorem constructAll_eq_rounds (limit : ℕ) {n : ℕ} {r : Reader} (h : r.remaining < n) :
    constructAll limit r = rounds limit n r := by
  induction n generalizing r with
  | zero => exact absurd h (Nat.not_lt_zero _)
  | succ n ih =>
    rw [constructAll_eq, rounds]
    rcases hpeek : peekChar r with ⟨e | _ | c, r₁⟩
    · rw [bind_of_error hpeek, bind_of_error hpeek]
    · rw [bind_of_ok hpeek, bind_of_ok hpeek, proceed_none, proceed_none]
    · rw [bind_of_ok hpeek, bind_of_ok hpeek, proceed_some, proceed_some]
      rcases hread : construct limit r₁ with ⟨e | s, r₂⟩
      · rw [bind_of_error hread, bind_of_error hread]
      · have hlt := remaining_lt_of_construct hpeek hread
        have hrest : constructAll limit r₂ = rounds limit n r₂ := ih (by omega)
        rw [bind_of_ok hread, bind_of_ok hread]
        rcases hrounds : rounds limit n r₂ with ⟨e | ss, r₃⟩
        · rw [bind_of_error hrounds, bind_of_error (hrest.trans hrounds)]
        · rw [bind_of_ok hrounds, bind_of_ok (hrest.trans hrounds)]

/-! ## What steps do to a reader -/

/-- A relation that looking ahead, passing what was seen and marking a place keep to. -/
structure Passage (R : Reader → Reader → Prop) : Prop where
  refl : ∀ r, R r r
  trans : ∀ {r₁ r₂ r₃}, R r₁ r₂ → R r₂ r₃ → R r₁ r₃
  mark : ∀ r, R r { r with tokenStart := r.position }
  peek : ∀ r, R r (peek r).2
  pass : ∀ {r c}, r.lookahead = some c → R r (r.pass c)

namespace Passage

variable {R : Reader → Reader → Prop}

theorem bind (hR : Passage R) {x : Read α} {f : α → Read β} {r : Reader} (hx : R r (x r).2)
    (hf : ∀ a r', x r = (.ok a, r') → R r' (f a r').2) : R r ((x >>= f) r).2 := by
  rw [bind_apply]
  rcases h : x r with ⟨e | a, r'⟩ <;> rw [h] at hx
  · exact hx
  · exact hR.trans hx (hf a r' h)

theorem passed (hR : Passage R) {r r' : Reader} {next : Option Char}
    (h : Read.peek r = (.ok next, r')) : R r' (Read.passed next r').2 := by
  cases next with
  | none => exact hR.refl r'
  | some c => exact hR.pass (lookahead_of_peek h)

theorem takeWhile (hR : Passage R) (p : Char → Bool) (r : Reader) : R r (takeWhile p r).2 := by
  induction r using run_induction with
  | step r ih =>
    rw [takeWhile_eq]
    refine hR.bind (hR.peek r) fun next r' hpeek => ?_
    cases next with
    | none => exact hR.refl r'
    | some c =>
      dsimp only
      split_ifs
      · refine hR.bind (hR.passed hpeek) fun _ r'' hpass => ?_
        obtain ⟨-, rfl⟩ := Prod.mk.inj hpass
        exact hR.bind (ih r' c hpeek) fun cs r'' _ => hR.refl r''
      · exact hR.refl r'

/-- Every action keeps to what its steps keep to, whatever its outcome. -/
theorem stepwise (hR : Passage R) {limits : ℕ → Prop} {x : Read α} (h : Stepwise limits x)
    (r : Reader) : R r (x r).2 := by
  induction h generalizing r with
  | pure | position | tokenStart | reject | tooDeep => exact hR.refl r
  | mark => exact hR.mark r
  | bind _ _ ihx ihf => exact hR.bind (ihx r) fun a r' _ => ihf a r'
  | peek => exact hR.peek r
  | bump =>
    rw [bump_eq]
    exact hR.bind (hR.peek r) fun next r' => hR.passed
  | takeWhile p => exact hR.takeWhile p r
  | withFault fault _ ih =>
    rw [withFault_apply]
    exact ih r

theorem constructAll (hR : Passage R) (limit : ℕ) (r : Reader) : R r (constructAll limit r).2 := by
  rw [constructAll_eq_rounds limit (Nat.lt_succ_self r.remaining)]
  exact hR.stepwise (.rounds limit _) r

end Passage

end SolidScene.Read
