import SolidScene.Proofs.Scene.Session

/-!
# Why reading ends

The limit of nesting is not what ends the reading of an expression: an expression inside another one
begins where the source has less left to deliver, so the recursion could go by that alone
(`construct_eq_descend`). An expression that is read takes its brackets from the source, and reading
to the end of a source repeats no more often than the source delivers opening brackets
(`construct_progress`).
-/

namespace SolidScene.Read

open Reader (passage_moves)
open Source (Event characters)

variable {α β : Type}

/-! ## What is left of the source -/

theorem length_unread_le {r r' : Reader} {delivered : List Event} {passed : List Char}
    (h : r.Moves r' delivered passed) : r'.unread.length ≤ r.unread.length := by
  rw [h.unread, List.length_append]
  omega

/-- Of two characters that are passed the reader has held one at most, so the source has delivered
the other. -/
theorem length_unread_lt {r r' : Reader} {delivered : List Event} {passed : List Char}
    (h : r.Moves r' delivered passed) (htwo : 2 ≤ passed.length) :
    r'.unread.length < r.unread.length := by
  have hheld : r.lookahead.toList.length ≤ 1 := by
    cases r.lookahead <;> simp
  have hlength := congrArg List.length h.characters
  have hdelivered : (characters delivered).length ≤ delivered.length := List.length_filterMap_le ..
  rw [List.length_append, List.length_append] at hlength
  rw [h.unread, List.length_append]
  omega

/-- Whatever its outcome, the action gives nothing back to the source. -/
def Takes (x : Read α) : Prop := ∀ r, (x r).2.unread.length ≤ r.unread.length

theorem Stepwise.moves {x : Read α} (h : Stepwise (fun _ => True) x) (r : Reader) :
    ∃ delivered passed, r.Moves (x r).2 delivered passed := passage_moves.stepwise h r

theorem Stepwise.takes {x : Read α} (h : Stepwise (fun _ => True) x) : Takes x := by
  intro r
  obtain ⟨_, _, hmoves⟩ := h.moves r
  exact length_unread_le hmoves

/-! ## What an expression takes -/

theorem bump_moves {r r' : Reader} {c : Char} (h : bump r = (.ok (some c), r')) :
    ∃ delivered, r.Moves r' delivered [c] := by
  rw [bump_eq] at h
  obtain ⟨next, r₁, hpeek, hpass⟩ := bind_eq_ok h
  cases hpass
  obtain ⟨delivered, hmoves⟩ := Reader.Moves.peek r
  rw [hpeek] at hmoves
  exact ⟨_, hmoves.trans (.pass (lookahead_of_peek hpeek))⟩

/-- Reading a character may pass blanks first. -/
theorem readChar_moves {r r' : Reader} {c : Char} (h : readChar r = (.ok (some c), r')) :
    ∃ delivered before, r.Moves r' delivered (before ++ [c]) := by
  obtain ⟨_, r₁, hskip, h⟩ := bind_eq_ok h
  obtain ⟨_, r₂, hmark, hbump⟩ := bind_eq_ok h
  cases hmark
  obtain ⟨d, before, hbefore⟩ := Stepwise.moves .skipBlanks r
  obtain ⟨d', hchar⟩ := bump_moves hbump
  rw [hskip] at hbefore
  have hmark := hbefore.trans (.mark r₁)
  rw [List.append_nil, List.append_nil] at hmark
  exact ⟨_, before, hmark.trans hchar⟩

theorem expectChar_moves {r r' : Reader} {c : Char} {fault : Fault}
    (h : expectChar c fault r = (.ok (), r')) :
    ∃ delivered before, r.Moves r' delivered (before ++ [c]) := by
  obtain ⟨next, r₁, hread, h⟩ := bind_eq_ok h
  split at h
  · rename_i hnext
    cases h
    rw [hnext] at hread
    exact readChar_moves hread
  · cases h

theorem readName_moves {r r' : Reader} {name : Name} (h : readName r = (.ok name, r')) :
    ∃ delivered passed, r.Moves r' delivered passed ∧ passed ≠ [] := by
  obtain ⟨next, r₁, hread, h⟩ := bind_eq_ok h
  rcases htag : next.bind Tag.ofChar? with _ | tag <;> rw [htag] at h
  · cases h
  obtain ⟨c, rfl, -⟩ := Option.bind_eq_some_iff.1 htag
  obtain ⟨token, r₂, htoken, h⟩ := bind_eq_ok h
  rcases hname : tag.lookup (lowercase token.text) with _ | name' <;> rw [hname] at h <;> cases h
  obtain ⟨_, before, hchar⟩ := readChar_moves hread
  obtain ⟨_, passed, hword⟩ := Stepwise.moves (.readToken tag.expects) r₁
  rw [htoken] at hword
  exact ⟨_, _, hchar.trans hword, by simp⟩

/-! ## Expressions inside others -/

/-- Reads an expression, with `child` for those inside it. -/
def within (child : Read Scene) : Read Scene := do
  expectChar '[' .missingOpening
  let name ← readName
  let scene ← readBody child name
  expectChar ']' .missingClosing
  return scene

/-- Reads with `child` where the source has less left to deliver than before `r`, and with `other`
where it has as much. -/
def below (r : Reader) (child other : Read Scene) : Read Scene := fun q =>
  if q.unread.length < r.unread.length then child q else other q

/-- Reads an expression where `depth` levels of nesting are open with it. Inside it goes on only
where the source has less left to deliver. -/
def descend (other : Read Scene) (limit depth : ℕ) (r : Reader) :
    Except SceneError Scene × Reader :=
  if limit < depth then expression limit 0 r
  else within (fun q =>
    if q.unread.length < r.unread.length then descend other limit (depth + 1) q else other q) r
termination_by r.unread.length

section Below

variable {child other : Read Scene} {r q : Reader}

theorem below_bind (hq : q.unread.length < r.unread.length) {f g : Scene → Read α}
    (h : ∀ s q', child q = (.ok s, q') → f s q' = g s q') :
    (child >>= f) q = (below r child other >>= g) q := by
  have hbelow : below r child other q = child q := if_pos hq
  rw [bind_apply, bind_apply, hbelow]
  rcases hchild : child q with ⟨e | s, q'⟩
  · rfl
  · exact h s q' hchild

theorem Stepwise.bind_below {x : Read α} {f g : α → Read β} (hx : Stepwise (fun _ => True) x)
    (hq : q.unread.length < r.unread.length)
    (h : ∀ a q', q'.unread.length < r.unread.length → f a q' = g a q') :
    (x >>= f) q = (x >>= g) q := by
  have htakes := hx.takes q
  rw [bind_apply, bind_apply]
  rcases hxq : x q with ⟨e | a, q'⟩
  · rfl
  · rw [hxq] at htakes
    exact h a q' (htakes.trans_lt hq)

theorem readOperation_below (hchild : Takes child) (hq : q.unread.length < r.unread.length)
    (name : OperationName) :
    readOperation child name q = readOperation (below r child other) name q := by
  cases name with
  | boolean =>
    refine Stepwise.bind_below .readCombiner hq fun combiner q₁ h₁ => ?_
    refine below_bind h₁ fun a q₂ hread => ?_
    have htakes := hchild q₁
    rw [hread] at htakes
    exact below_bind (htakes.trans_lt h₁) fun _ _ _ => rfl
  | duplicate =>
    exact Stepwise.bind_below (.readVector _) hq fun _ _ h₁ => below_bind h₁ fun _ _ _ => rfl
  | matrix =>
    refine Stepwise.bind_below (.readMatrix _) hq fun matrix _ h₁ => ?_
    cases Placement.ofMatrix? matrix with
    | none => rfl
    | some => exact below_bind h₁ fun _ _ _ => rfl
  | scale =>
    refine Stepwise.bind_below (.readNumber _) hq fun factor _ h₁ => ?_
    cases hzero : Scalar.eq factor 0.0 with
    | true => rfl
    | false => exact below_bind h₁ fun _ _ _ => rfl

/-- Whatever would be done where the source has as much left as before the expression, it makes no
difference. -/
theorem within_below (hchild : Takes child) (other : Read Scene) (r : Reader) :
    within child r = within (below r child other) r := by
  unfold within
  rw [bind_apply, bind_apply]
  rcases hopen : expectChar '[' .missingOpening r with ⟨e | _, r₁⟩
  · rfl
  dsimp only
  rw [bind_apply, bind_apply]
  rcases hname : readName r₁ with ⟨e | name, r₂⟩
  · rfl
  dsimp only
  obtain ⟨d, before, hopened⟩ := expectChar_moves hopen
  obtain ⟨d', passed, hnamed, hne⟩ := readName_moves hname
  have hlt : r₂.unread.length < r.unread.length := by
    refine length_unread_lt (hopened.trans hnamed) ?_
    have hpos := List.length_pos_of_ne_nil hne
    simp only [List.length_append, List.length_singleton]
    omega
  have hbody : readBody child name r₂ = readBody (below r child other) name r₂ := by
    cases name with
    | object => rfl
    | operation name => exact readOperation_below hchild hlt name
  rw [bind_apply, bind_apply, hbody]

end Below

theorem expression_takes (limit room : ℕ) : Takes (expression limit room) :=
  Stepwise.takes (.expression trivial room)

theorem expression_eq_descend (other : Read Scene) {limit room depth : ℕ}
    (h : room + depth = limit + 1) (r : Reader) :
    expression limit room r = descend other limit depth r := by
  induction room generalizing depth r with
  | zero => rw [descend, if_pos (by omega)]
  | succ room ih =>
    have hchild : below r (expression limit room) other = fun q =>
        if q.unread.length < r.unread.length then descend other limit (depth + 1) q
        else other q := by
      funext q
      rw [below, ih (show room + (depth + 1) = limit + 1 by omega)]
    rw [descend, if_neg (by omega), ← hchild]
    exact within_below (expression_takes limit room) other r

/-- An expression goes down into those inside it only where the source has less left to deliver,
however deep they may nest. -/
theorem construct_eq_descend (other : Read Scene) (limit : ℕ) :
    construct limit = descend other limit 1 :=
  funext fun r => expression_eq_descend other rfl r

theorem construct_moves {limit : ℕ} {r r' : Reader} {s : Scene}
    (h : construct limit r = (.ok s, r')) : ∃ delivered before inside,
      r.Moves r' delivered (before ++ '[' :: inside ++ [']']) := by
  cases limit with
  | zero =>
    obtain ⟨_, r₁, -, h⟩ := bind_eq_ok h
    obtain ⟨_, r₂, -, h⟩ := bind_eq_ok h
    cases h
  | succ room =>
    obtain ⟨_, r₁, hopen, h⟩ := bind_eq_ok h
    obtain ⟨name, r₂, hname, h⟩ := bind_eq_ok h
    obtain ⟨s, r₃, hbody, h⟩ := bind_eq_ok h
    obtain ⟨_, r₄, hclose, h⟩ := bind_eq_ok h
    cases h
    obtain ⟨_, before, hopened⟩ := expectChar_moves hopen
    obtain ⟨_, passed, hnamed, -⟩ := readName_moves hname
    obtain ⟨_, values, hvalues⟩ := Stepwise.moves
      (.readBody (.expression trivial room) name) r₂
    obtain ⟨_, blanks, hclosed⟩ := expectChar_moves hclose
    rw [hbody] at hvalues
    have hmoves := ((hopened.trans hnamed).trans hvalues).trans hclosed
    have hpassed : before ++ ['['] ++ passed ++ values ++ (blanks ++ [']'])
        = before ++ '[' :: (passed ++ values ++ blanks) ++ [']'] := by simp
    rw [hpassed] at hmoves
    exact ⟨_, _, _, hmoves⟩

/-! ## One expression after another -/

/-- So often an expression was there and was read, with these results. -/
inductive Repeats (limit : ℕ) : Reader → List Scene → Reader → Prop
  | none (r : Reader) : Repeats limit r [] r
  | more {r r₁ r₂ r' : Reader} {c : Char} {s : Scene} {ss : List Scene}
    (hnext : peekChar r = (.ok (some c), r₁)) (hread : construct limit r₁ = (.ok s, r₂))
    (h : Repeats limit r₂ ss r') : Repeats limit r (s :: ss) r'

/-- How reading to the end comes out behind these results: there is nothing more, or looking for
more fails, or reading it does. -/
inductive Ends (limit : ℕ) (ss : List Scene) (r : Reader) :
    Except SceneError (List Scene) × Reader → Prop
  | nothing {r' : Reader} (h : peekChar r = (.ok none, r')) : Ends limit ss r (.ok ss, r')
  | unseen {r' : Reader} {e : SceneError} (h : peekChar r = (.error e, r')) :
    Ends limit ss r (.error e, r')
  | unread {r₁ r' : Reader} {c : Char} {e : SceneError} (hnext : peekChar r = (.ok (some c), r₁))
    (h : construct limit r₁ = (.error e, r')) : Ends limit ss r (.error e, r')

theorem Ends.cons {limit : ℕ} {ss : List Scene} {r r₁ r₂ r₃ : Reader} {c : Char} {s : Scene}
    (h : Ends limit ss r (constructAll limit r₃)) (hnext : peekChar r₁ = (.ok (some c), r₂))
    (hread : construct limit r₂ = (.ok s, r₃)) :
    Ends limit (s :: ss) r (constructAll limit r₁) := by
  rw [constructAll_eq, bind_of_ok hnext, proceed_some, bind_of_ok hread]
  generalize hrest : constructAll limit r₃ = rest at h
  cases h with
  | nothing h =>
    rw [bind_of_ok hrest]
    exact .nothing h
  | unseen h =>
    rw [bind_of_error hrest]
    exact .unseen h
  | unread hnext h =>
    rw [bind_of_error hrest]
    exact .unread hnext h

theorem exists_repeats (limit : ℕ) (r : Reader) :
    ∃ ss r₁, Repeats limit r ss r₁ ∧ Ends limit ss r₁ (constructAll limit r) := by
  induction hk : r.remaining using Nat.strongRecOn generalizing r with
  | ind k ih =>
    rcases hnext : peekChar r with ⟨e | _ | c, r₁⟩
    · refine ⟨[], r, .none r, ?_⟩
      rw [constructAll_eq, bind_of_error hnext]
      exact .unseen hnext
    · refine ⟨[], r, .none r, ?_⟩
      rw [constructAll_eq, bind_of_ok hnext]
      exact .nothing hnext
    · rcases hread : construct limit r₁ with ⟨e | s, r₂⟩
      · refine ⟨[], r, .none r, ?_⟩
        rw [constructAll_eq, bind_of_ok hnext, proceed_some, bind_of_error hread]
        exact .unread hnext hread
      · obtain ⟨ss, r₃, hrepeats, hends⟩ := ih _ (hk ▸ remaining_lt_of_construct hnext hread) r₂ rfl
        exact ⟨s :: ss, r₃, .more hnext hread hrepeats, hends.cons hnext hread⟩

/-- Every repetition passes an opening bracket. -/
theorem Repeats.moves {limit : ℕ} {ss : List Scene} {r r' : Reader} (h : Repeats limit r ss r') :
    ∃ delivered passed, r.Moves r' delivered passed ∧ ss.length ≤ passed.count '[' := by
  induction h with
  | none r => exact ⟨[], [], .refl r, Nat.le_refl 0⟩
  | @more r r₁ r₂ r' c s ss hnext hread _ ih =>
    obtain ⟨_, blanks, hlook⟩ := Stepwise.moves .peekChar r
    obtain ⟨_, before, inside, htaken⟩ := construct_moves hread
    obtain ⟨_, passed, hrest, hcount⟩ := ih
    rw [hnext] at hlook
    refine ⟨_, _, (hlook.trans htaken).trans hrest, ?_⟩
    simp only [List.count_append, List.count_cons_self, List.length_cons]
    omega

/-- Reading ends for every source and every limit: an expression goes down only where less is left,
one that is read takes an opening bracket and then a closing one, and expressions are read one
after another no more often than opening brackets are delivered. -/
theorem construct_progress (limit : ℕ) (r : Reader) :
    (∀ other, construct limit r = descend other limit 1 r) ∧
      (∀ s r', construct limit r = (.ok s, r') → ∃ delivered before inside,
        r.Moves r' delivered (before ++ '[' :: inside ++ [']'])) ∧
      ∃ ss r₁ delivered passed, Repeats limit r ss r₁ ∧ Ends limit ss r₁ (constructAll limit r) ∧
        r.Moves r₁ delivered passed ∧
        ss.length ≤ (r.lookahead.toList ++ characters delivered).count '[' := by
  obtain ⟨ss, r₁, hrepeats, hends⟩ := exists_repeats limit r
  obtain ⟨delivered, passed, hmoves, hcount⟩ := hrepeats.moves
  refine ⟨fun other => congrFun (construct_eq_descend other limit) r, fun s r' => construct_moves,
    ss, r₁, delivered, passed, hrepeats, hends, hmoves, ?_⟩
  rw [hmoves.characters, List.count_append]
  omega

/-- An expression with blanks before it and another source's failure behind it. -/
theorem construct_progress_sphere :
    let r := Reader.ofEvents (Source.ofText " [+sphere 0 0 0 1]" ++ [.failure "gone"])
    ∃ s r' delivered before inside, construct 1 r = (.ok s, r') ∧
      r.Moves r' delivered (before ++ '[' :: inside ++ [']']) := by
  intro r
  have hread : (construct 1 r).1 = .ok (.sphere ⟨0.0, 0.0, 0.0⟩ 1.0) := by decide +kernel
  obtain ⟨delivered, before, inside, hmoves⟩ :=
    (construct_progress 1 r).2.1 _ _ (Prod.ext hread rfl)
  exact ⟨_, _, delivered, before, inside, Prod.ext hread rfl, hmoves⟩

end SolidScene.Read
