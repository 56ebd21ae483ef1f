import SolidScene.Proofs.Scene.Acceptance

/-!
# The limit of nesting

Reading at two limits goes the same way until the lower one finds nesting too deep (`Cuts`), which
it does behind as many open brackets as it allows (`DeepAt`). So a lower limit only refuses texts,
and of those that are read exactly the ones of deeper scenes (`Scene.CutAt`).
-/

namespace SolidScene

open Text (Position Lexeme lexemes isBlank)
open Grammar

namespace Read

variable {α β : Type}

/-! ## Two limits -/

/-- On a text the first action does as the second, or finds nesting deeper than the limit. -/
def Cuts (limit : ℕ) (x y : Read α) : Prop := ∀ r p cs, r.At p cs →
  x r = y r ∨ ∃ q r', x r = (.error (.tooDeep limit q), r')

theorem bind_congr_at {x y : Read α} {r : Reader} (h : x r = y r) (f : α → Read β) :
    (x >>= f) r = (y >>= f) r := by
  rw [bind_apply, bind_apply, h]

theorem Cuts.refl (limit : ℕ) (x : Read α) : Cuts limit x x := fun _ _ _ _ => .inl rfl

theorem Cuts.bind {limit : ℕ} {x y : Read α} {f g : α → Read β} (hx : Cuts limit x y)
    (hsteps : Stepwise (fun _ => True) x) (hf : ∀ a, Cuts limit (f a) (g a)) :
    Cuts limit (x >>= f) (y >>= g) := by
  intro r p cs hr
  obtain ⟨mid, rest, -, hat⟩ := hsteps.tracks hr
  rcases hx r p cs hr with heq | ⟨q, r', hdeep⟩
  · rw [bind_apply, bind_apply, ← heq]
    rcases hrun : x r with ⟨e | a, r₁⟩
    · exact .inl rfl
    · rw [hrun] at hat
      exact hf a r₁ _ _ hat
  · exact .inr ⟨q, r', bind_of_error hdeep f⟩

theorem Cuts.bind_right {limit : ℕ} {x : Read α} {f g : α → Read β}
    (hsteps : Stepwise (fun _ => True) x) (hf : ∀ a, Cuts limit (f a) (g a)) :
    Cuts limit (x >>= f) (x >>= g) :=
  (Cuts.refl limit x).bind hsteps hf

theorem readOperation_cuts {limit : ℕ} {child child' : Read Scene} (h : Cuts limit child child')
    (hsteps : Stepwise (fun _ => True) child) (name : OperationName) :
    Cuts limit (readOperation child name) (readOperation child' name) := by
  cases name with
  | boolean =>
    exact .bind_right .readCombiner fun _ => h.bind hsteps fun _ => h.bind hsteps fun _ => .refl _ _
  | duplicate => exact .bind_right (.readVector _) fun _ => h.bind hsteps fun _ => .refl _ _
  | matrix =>
    refine .bind_right (.readMatrix _) fun _ => ?_
    split
    · exact h.bind hsteps fun _ => .refl _ _
    · exact .refl _ _
  | scale =>
    refine .bind_right (.readNumber _) fun _ => ?_
    split
    · exact .refl _ _
    · exact h.bind hsteps fun _ => .refl _ _

theorem readBody_cuts {limit : ℕ} {child child' : Read Scene} (h : Cuts limit child child')
    (hsteps : Stepwise (fun _ => True) child) :
    ∀ name, Cuts limit (readBody child name) (readBody child' name)
  | .object name => .refl limit (readObject name)
  | .operation name => readOperation_cuts h hsteps name

theorem expression_zero_at (limit : ℕ) {r : Reader} {p : Position} {cs : List Char}
    (hr : r.At p cs) : ∃ r',
      expression limit 0 r = (.error (.tooDeep limit (p.past (cs.takeWhile isBlank))), r') := by
  obtain ⟨r', hpeek, hat⟩ := peekChar_at hr
  refine ⟨r', (bind_of_ok hpeek _).trans ?_⟩
  rw [← hat.position]
  rfl

theorem expression_cuts {n m : ℕ} :
    ∀ {room room' : ℕ}, room ≤ room' → Cuts n (expression n room) (expression m room')
  | 0, _, _ => fun _ _ _ hr => .inr ⟨_, expression_zero_at n hr⟩
  | room + 1, room' + 1, h => by
    have hchild := @expression_cuts n m _ _ (Nat.le_of_succ_le_succ h)
    have hsteps : Stepwise (fun _ => True) (expression n room) := .expression trivial room
    exact .bind_right (.expectChar _ _) fun _ => .bind_right .readName fun name =>
      (readBody_cuts hchild hsteps name).bind (.readBody hsteps name) fun _ => .refl _ _

theorem whole_cuts {n m : ℕ} (h : n ≤ m) : Cuts n (whole n) (whole m) :=
  (expression_cuts h).bind (.construct trivial) fun _ => .refl _ _

theorem readAll_cuts {n m : ℕ} (h : n ≤ m) : Cuts n (readAll n) (readAll m) := by
  intro r p cs hr
  -- every expression that is read leaves less to come
  induction hk : r.remaining using Nat.strong_induction_on generalizing r p cs with
  | _ k ih =>
    obtain ⟨r₁, hpeek, h₁⟩ := peekChar_at hr
    have hn := congrFun (readAll_eq n) r
    have hm := congrFun (readAll_eq m) r
    rw [bind_of_ok hpeek] at hn hm
    rw [hn, hm]
    rcases (cs.dropWhile isBlank).head? with _ | c
    · exact .inl rfl
    rcases expression_cuts h r₁ _ _ h₁ with heq | ⟨q, r', hdeep⟩
    · rcases hread : construct n r₁ with ⟨e | s, r₂⟩
      · have hread' : construct m r₁ = (.error e, r₂) := heq.symm.trans hread
        exact .inl ((bind_of_error hread _).trans (bind_of_error hread' _).symm)
      · have hread' : construct m r₁ = (.ok s, r₂) := heq.symm.trans hread
        have hsteps : Stepwise (fun _ => True) (construct n) := .construct trivial
        obtain ⟨mid, rest, -, hat⟩ := hsteps.tracks h₁
        rw [hread] at hat
        have hlt := remaining_lt_of_construct hpeek hread
        rcases ih r₂.remaining (hk ▸ hlt) r₂ _ _ hat rfl with hrest | ⟨q, r', hdeep⟩
        · refine .inl ((bind_of_ok hread _).trans (Eq.trans ?_ (bind_of_ok hread' _).symm))
          exact bind_congr_at hrest _
        · exact .inr ⟨q, r', (bind_of_ok hread _).trans (bind_of_error hdeep _)⟩
    · exact .inr ⟨q, r', bind_of_error hdeep _⟩

/-! ## Open brackets -/

/-- From one place of a text to another, where so many more brackets open than close between
them. -/
def Passes (opens : ℕ) (p : Position) (cs : List Char) (q : Position) (ds : List Char) : Prop :=
  ∃ mid, cs = mid ++ ds ∧ q = p.past mid ∧ mid.count '[' = mid.count ']' + opens

theorem Passes.trans {i j : ℕ} {p q q' : Position} {cs ds es : List Char}
    (h : Passes i p cs q ds) (h' : Passes j q ds q' es) : Passes (i + j) p cs q' es := by
  obtain ⟨u, rfl, rfl, hu⟩ := h
  obtain ⟨v, rfl, rfl, hv⟩ := h'
  refine ⟨u ++ v, by rw [List.append_assoc], by rw [Position.past_append], ?_⟩
  rw [List.count_append, List.count_append]
  omega

theorem Passes.after {j : ℕ} {p q q' : Position} {cs ds es : List Char}
    (h : Passes 0 p cs q ds) (h' : Passes j q ds q' es) : Passes j p cs q' es := by
  have hboth := h.trans h'
  rwa [Nat.zero_add] at hboth

theorem passes_blanks (p : Position) (cs : List Char) :
    Passes 0 p cs (p.past (cs.takeWhile isBlank)) (cs.dropWhile isBlank) := by
  refine ⟨_, List.takeWhile_append_dropWhile.symm, rfl, ?_⟩
  rw [Text.count_takeWhile_isBlank .opening, Text.count_takeWhile_isBlank .closing]

/-- Whatever the action reads, so many more brackets open in it than close. -/
def Opens (opens : ℕ) (x : Read α) : Prop := ∀ r p cs a r', r.At p cs → x r = (.ok a, r') →
  ∃ q ds, Passes opens p cs q ds ∧ r'.At q ds

/-- Wherever the action finds nesting too deep, so many brackets are open, and the limit is this. -/
def DeepAt (limit opens : ℕ) (x : Read α) : Prop := ∀ r p cs limit' q r', r.At p cs →
  x r = (.error (.tooDeep limit' q), r') → limit' = limit ∧ ∃ ds, Passes opens p cs q ds

/-- What is read has the brackets of its lexemes. -/
theorem Opens.of_covers {opens : ℕ} {x : Read α} {G : List Lexeme → α → Prop} (h : Covers x G)
    (hG : ∀ ls a, G ls a → ls.count .opening = ls.count .closing + opens) : Opens opens x := by
  intro r p cs a r' hr hx
  obtain ⟨mid, ds, rfl, hat, -, hmid⟩ := h r p cs a r' hr hx
  refine ⟨_, ds, ⟨mid, rfl, rfl, ?_⟩, hat⟩
  rw [← Text.count_lexemes .opening, ← Text.count_lexemes .closing, hG _ _ hmid]

theorem Opens.of_values {x : Read α} {G : List Lexeme → α → Prop} (h : Covers x G)
    (hG : ∀ ls a, G ls a → ls.flatMap Lexeme.brackets = []) : Opens 0 x :=
  .of_covers h fun ls a ha => Text.count_opening_eq (hG ls a ha)

theorem expectChar_opens (fault : Fault) : Opens 1 (expectChar '[' fault) := by
  refine .of_covers (expectChar_covers .opening fault) ?_
  rintro _ _ rfl
  rfl

theorem readName_opens : Opens 0 readName :=
  .of_values readName_covers fun _ _ hhead => hhead.brackets_eq_nil

theorem readCombiner_opens : Opens 0 readCombiner := by
  refine .of_values readCombiner_covers ?_
  rintro _ _ ⟨w, rfl, -⟩
  rfl

theorem readNumber_opens (what : String) : Opens 0 (readNumber what) :=
  .of_values (readNumber_covers what) fun _ _ hvalues => hvalues.brackets_eq_nil

theorem readVector_opens (what : String) : Opens 0 (readVector what) :=
  .of_values (readVector_covers what) fun _ _ hvalues => hvalues.brackets_eq_nil

theorem readMatrix_opens (what : String) : Opens 0 (readMatrix what) :=
  .of_values (readMatrix_covers what) fun _ _ ⟨_, hvalues, _⟩ => hvalues.brackets_eq_nil

theorem expression_opens (limit room : ℕ) : Opens 0 (expression limit room) :=
  .of_covers (expression_covers limit room) fun _ _ hs => by
    rw [hs.count_eq .opening, hs.count_eq .closing, Nat.add_zero]

/-- An action without a limit never finds nesting too deep. -/
theorem DeepAt.never {limit opens : ℕ} {x : Read α} (h : Stepwise (fun _ => False) x) :
    DeepAt limit opens x :=
  fun _ _ _ _ _ _ _ hx => (h.limit_of_tooDeep hx).elim

theorem DeepAt.bind {limit i j : ℕ} {x : Read α} {f : α → Read β} (hx : DeepAt limit (i + j) x)
    (hopens : Opens i x) (hf : ∀ a, DeepAt limit j (f a)) : DeepAt limit (i + j) (x >>= f) := by
  intro r p cs limit' q r' hr h
  rw [bind_apply] at h
  split at h
  · rename_i a r₁ hread
    obtain ⟨q₁, ds, hpass, h₁⟩ := hopens _ _ _ _ _ hr hread
    obtain ⟨rfl, es, hdeep⟩ := hf a _ _ _ _ _ _ h₁ h
    exact ⟨rfl, es, hpass.trans hdeep⟩
  · rename_i e r₁ hread
    cases h
    exact hx _ _ _ _ _ _ hr hread

theorem DeepAt.bind_left {limit opens : ℕ} {x : Read α} {f : α → Read β} (hx : DeepAt limit opens x)
    (hf : ∀ a, Stepwise (fun _ => False) (f a)) : DeepAt limit opens (x >>= f) := by
  intro r p cs limit' q r' hr h
  rw [bind_apply] at h
  split at h
  · exact ((hf _).limit_of_tooDeep h).elim
  · rename_i e r₁ hread
    cases h
    exact hx _ _ _ _ _ _ hr hread

theorem DeepAt.bind_closed {limit opens : ℕ} {x : Read α} {f : α → Read β}
    (hx : DeepAt limit opens x) (hopens : Opens 0 x) (hf : ∀ a, DeepAt limit opens (f a)) :
    DeepAt limit opens (x >>= f) := by
  rw [← Nat.zero_add opens] at hx ⊢
  exact hx.bind hopens hf

/-- Values have no brackets, so what follows them is as deep as they. -/
theorem DeepAt.after_values {limit opens : ℕ} {x : Read α} {f : α → Read β}
    (hx : Stepwise (fun _ => False) x) (hopens : Opens 0 x) (hf : ∀ a, DeepAt limit opens (f a)) :
    DeepAt limit opens (x >>= f) :=
  (DeepAt.never hx).bind_closed hopens hf

theorem readOperation_deepAt {limit opens : ℕ} {child : Read Scene} (h : DeepAt limit opens child)
    (hopens : Opens 0 child) (name : OperationName) :
    DeepAt limit opens (readOperation child name) := by
  have hinner (f : Scene → Scene) : DeepAt limit opens (child >>= fun s => pure (f s)) :=
    h.bind_left fun _ => .pure _
  cases name with
  | boolean =>
    exact .after_values .readCombiner readCombiner_opens fun _ =>
      h.bind_closed hopens fun _ => hinner _
  | duplicate =>
    exact .after_values (.readVector _) (readVector_opens _) fun _ => hinner _
  | matrix =>
    refine .after_values (.readMatrix _) (readMatrix_opens _) fun matrix => ?_
    split
    · exact hinner _
    · exact .never (.bind .tokenStart fun _ => .reject _ _)
  | scale =>
    refine .after_values (.readNumber _) (readNumber_opens _) fun factor => ?_
    split
    · exact .never (.bind .tokenStart fun _ => .reject _ _)
    · exact hinner _

theorem readBody_deepAt {limit opens : ℕ} {child : Read Scene} (h : DeepAt limit opens child)
    (hopens : Opens 0 child) : ∀ name, DeepAt limit opens (readBody child name)
  | .object name => .never (.readObject name)
  | .operation name => readOperation_deepAt h hopens name

theorem expression_deepAt (limit : ℕ) : ∀ room, DeepAt limit room (expression limit room)
  | 0 => by
    intro r p cs limit' q r' hr hx
    obtain ⟨r₁, hdeep⟩ := expression_zero_at limit hr
    cases hdeep.symm.trans hx
    exact ⟨rfl, _, passes_blanks p cs⟩
  | room + 1 => by
    have hbody := readBody_deepAt (expression_deepAt limit room) (expression_opens limit room)
    have hrest : DeepAt limit room (readName >>= fun name =>
        readBody (expression limit room) name >>= fun s =>
          expectChar ']' .missingClosing >>= fun _ => pure s) :=
      .after_values .readName readName_opens fun name =>
        (hbody name).bind_left fun _ => .bind (.expectChar _ _) fun _ => .pure _
    have h : DeepAt limit (1 + room) (expression limit (room + 1)) :=
      .bind (.never (.expectChar _ _)) (expectChar_opens _) fun _ => hrest
    rwa [Nat.add_comm 1 room] at h

theorem whole_deepAt (limit : ℕ) : DeepAt limit limit (whole limit) :=
  (expression_deepAt limit limit).bind_left fun _ => .bind .expectEnd fun _ => .pure _

theorem readAll_deepAt (limit : ℕ) : DeepAt limit limit (readAll limit) := by
  intro r p cs limit' q r' hr hx
  -- what was read has its brackets closed, so the next expression starts as deep as the first
  induction hk : r.remaining using Nat.strong_induction_on generalizing r p cs r' with
  | _ k ih =>
    obtain ⟨r₁, hpeek, h₁⟩ := peekChar_at hr
    have hrun := congrFun (readAll_eq limit) r
    rw [bind_of_ok hpeek] at hrun
    rw [hrun] at hx
    rcases hnext : (cs.dropWhile isBlank).head? with _ | c <;> rw [hnext] at hx
    · cases hx
    rcases hread : construct limit r₁ with ⟨e | s, r₂⟩
    · cases (bind_of_error hread _).symm.trans hx
      obtain ⟨hlimit, ds, hdeep⟩ := expression_deepAt limit limit _ _ _ _ _ _ h₁ hread
      exact ⟨hlimit, ds, (passes_blanks p cs).after hdeep⟩
    · have hx := (bind_of_ok hread _).symm.trans hx
      obtain ⟨q₂, ds, hpass, h₂⟩ := expression_opens limit limit _ _ _ _ _ h₁ hread
      have hlt := remaining_lt_of_construct hpeek hread
      rcases hrest : readAll limit r₂ with ⟨e | ss, r₃⟩
      · cases (bind_of_error hrest _).symm.trans hx
        obtain ⟨hlimit, es, hdeep⟩ := ih r₂.remaining (hk ▸ hlt) r₂ _ _ _ h₂ hrest rfl
        exact ⟨hlimit, es, (passes_blanks p cs).after (hpass.after hdeep)⟩
      · cases (bind_of_ok hrest _).symm.trans hx

end Read

namespace Scene

/-- How the reading of a text at a limit is cut out of its reading at a higher one. -/
structure CutAt {α : Type} (limit : ℕ) (text : String) (low high : Except SceneError α)
    (shallow : α → Prop) : Prop where
  /-- The readings differ only where the lower one finds nesting too deep. -/
  same : (∀ limit' q, low ≠ .error (.tooDeep limit' q)) → high = low
  /-- What is read is what the limit allows. -/
  ok_iff : ∀ a, low = .ok a ↔ high = .ok a ∧ shallow a
  /-- Nesting is too deep behind as many open brackets as the limit allows. -/
  tooDeep : ∀ limit' q, low = .error (.tooDeep limit' q) → limit' = limit ∧
    Position.start.past (Text.before q text.toList) = q ∧
    (Text.before q text.toList).count '[' = (Text.before q text.toList).count ']' + limit

theorem CutAt.of_actions {α : Type} {n : ℕ} {text : String} {x y : Read α} {shallow : α → Prop}
    (hcuts : Read.Cuts n x y) (hdeep : Read.DeepAt n n x)
    (hok : ∀ a, (x (.ofEvents (Source.ofText text))).1 = .ok a ↔
      (y (.ofEvents (Source.ofText text))).1 = .ok a ∧ shallow a) :
    CutAt n text (x (.ofEvents (Source.ofText text))).1 (y (.ofEvents (Source.ofText text))).1
      shallow where
  same h := by
    rcases hcuts _ _ _ (Reader.at_ofText text) with heq | ⟨q, r', htooDeep⟩
    · rw [heq]
    · exact absurd (congrArg Prod.fst htooDeep) (h n q)
  ok_iff := hok
  tooDeep limit' q h := by
    have hx : x (.ofEvents (Source.ofText text)) = (.error (.tooDeep limit' q), _) := Prod.ext h rfl
    obtain ⟨hlimit, ds, mid, htext, rfl, hcount⟩ := hdeep _ _ _ _ _ _ (Reader.at_ofText text) hx
    rw [htext, Text.before_append]
    exact ⟨hlimit, rfl, hcount⟩

/-- A lower limit only cuts: it refuses the scenes that are deeper, each where its brackets nest
deeper than the limit, and changes nothing else. -/
theorem cutAt_of_le {n m : ℕ} (h : n ≤ m) (text : String) :
    CutAt n text (parse n text) (parse m text) (fun s => s.depth ≤ n) ∧
      CutAt n text (parseMany n text) (parseMany m text) (fun ss => ∀ s ∈ ss, s.depth ≤ n) := by
  constructor
  · refine .of_actions (Read.whole_cuts h) (Read.whole_deepAt n) fun s => ?_
    exact parse_eq_ok_iff.trans ((expression_iff h).trans (and_congr_left' parse_eq_ok_iff.symm))
  · refine .of_actions (Read.readAll_cuts h) (Read.readAll_deepAt n) fun ss => ?_
    exact parseMany_eq_ok_iff.trans
      ((expressions_iff h).trans (and_congr_left' parseMany_eq_ok_iff.symm))

theorem cutAt_of_le_scaled_sphere :
    let text := "[%scale 2 [+sphere 0 0 0 1]]"
    1 ≤ 2 ∧ parse 1 text = .error (.tooDeep 1 ⟨1, 11⟩) ∧
      parse 2 text = .ok (.scaled 2.0 (.sphere ⟨0.0, 0.0, 0.0⟩ 1.0)) ∧
      CutAt 1 text (parse 1 text) (parse 2 text) (fun s => s.depth ≤ 1) ∧
      CutAt 1 text (parseMany 1 text) (parseMany 2 text) (fun ss => ∀ s ∈ ss, s.depth ≤ 1) := by
  intro text
  have hle : 1 ≤ 2 := by decide
  exact ⟨hle, by decide +kernel, by decide +kernel, cutAt_of_le hle text⟩

end Scene

end SolidScene
