import SolidScene.Proofs.Scene.Likeness
import SolidScene.Proofs.Scene.Pulling

/-!
# Texts one behind another

A text that holds scenes is read the same whatever text stands behind it, up to the blanks at its
end (`constructAll_followedBy`), and a text is read behind another as by itself, with its places
moved (`constructAll_behind`). So the scenes of two texts are those of the one and then those of the
other, and a fault of the second text stands where that text puts it (`Scene.parseMany_append`).
-/

namespace SolidScene

open Source (Event Answers)
open Text (Position endOf isBlank lexemes)

/-! ## What is read before more -/

/-- The reader of a source that goes on with more events. -/
def Reader.followedBy (r : Reader) (more : List Event) : Reader :=
  { r with unread := r.unread ++ more }

namespace Read

variable {α : Type} {r r' : Reader} {p : Position} {cs : List Char}

/-- An action that ends with a character it came to has the same result where more follows. -/
theorem Footprint.followedBy {x : Read α} {a : α} {pulled : List Event} {c : Char}
    (h : Footprint x r pulled) (hx : x r = (.ok a, r')) (hc : r.Newest pulled c)
    (more : List Event) : x (r.followedBy more) = (.ok a, r'.followedBy more) := by
  have ha := h.answers
  rw [hx] at ha
  have hmore : Answers (r.unread ++ more) pulled (r'.unread ++ more) := by
    rcases hc with ⟨rfl, -⟩ | ⟨before, rfl⟩
    · rw [ha.eq_of_nil]
      exact .nil _
    · rw [ha.eq_append (by simp), List.append_assoc]
      exact .of_append _ _
  have hrun := h.run hmore
  rw [hx] at hrun
  exact hrun

theorem peekChar_followedBy {c : Char} (h : peekChar r = (.ok (some c), r')) (more : List Event) :
    peekChar (r.followedBy more) = (.ok (some c), r'.followedBy more) := by
  have hsteps : Stepwise (fun _ => True) peekChar := .peekChar
  obtain ⟨pulled, hfoot⟩ := hsteps.exists_footprint r
  obtain ⟨_, r₁, -, hpeek⟩ := bind_eq_ok h
  have hnewest : r.Newest pulled c := hfoot.held (by rw [h]; exact lookahead_of_peek hpeek)
  exact hfoot.followedBy h hnewest more

theorem construct_followedBy {limit : ℕ} {s : Scene} (h : construct limit r = (.ok s, r'))
    (more : List Event) : construct limit (r.followedBy more) = (.ok s, r'.followedBy more) := by
  obtain ⟨-, pulled, hfoot, hnewest⟩ := construct_endsBehind limit r s r' h trivial
  exact hfoot.followedBy h hnewest more

theorem constructAll_eq_ok {limit : ℕ} {ss : List Scene} (h : constructAll limit r = (.ok ss, r')) :
    (ss = [] ∧ peekChar r = (.ok none, r')) ∨ ∃ c r₁ s r₂ ss', ss = s :: ss' ∧
      peekChar r = (.ok (some c), r₁) ∧ construct limit r₁ = (.ok s, r₂) ∧
      constructAll limit r₂ = (.ok ss', r') := by
  rw [constructAll_eq] at h
  obtain ⟨next, r₁, hpeek, h⟩ := bind_eq_ok h
  cases next with
  | none =>
    cases h
    exact .inl ⟨rfl, hpeek⟩
  | some c =>
    obtain ⟨s, r₂, hread, h⟩ := bind_eq_ok h
    obtain ⟨ss', r₃, hrest, h⟩ := bind_eq_ok h
    cases h
    exact .inr ⟨c, r₁, s, r₂, ss', rfl, hpeek, hread, hrest⟩

theorem constructAll_of_construct {limit : ℕ} {c : Char} {s : Scene} {r₁ r₂ : Reader}
    (hpeek : peekChar r = (.ok (some c), r₁)) (hread : construct limit r₁ = (.ok s, r₂)) :
    (constructAll limit r).1 = (constructAll limit r₂).1.map (s :: ·) := by
  have hrun := congrFun (constructAll_eq limit) r
  rw [bind_of_ok hpeek, proceed_some, bind_of_ok hread] at hrun
  rw [hrun]
  rcases hrest : constructAll limit r₂ with ⟨e | ss, r₃⟩
  · rw [bind_of_error hrest]
    rfl
  · rw [bind_of_ok hrest]
    rfl

/-- Where a text holds scenes, what follows it is read behind the last of them. -/
theorem constructAll_followedBy {limit : ℕ} {ss : List Scene} (hr : r.At p cs)
    (h : constructAll limit r = (.ok ss, r')) :
    ∃ (r₁ : Reader) (mid blanks : List Char), cs = mid ++ blanks ∧
      (∀ c ∈ blanks, isBlank c = true) ∧ r₁.At (p.past mid) blanks ∧
      ∀ more, (constructAll limit (r.followedBy more)).1
        = (constructAll limit (r₁.followedBy more)).1.map (ss ++ ·) := by
  -- on the scenes: behind an expression the reader stands in the rest of the text
  induction ss generalizing r p cs with
  | nil =>
    rcases constructAll_eq_ok h with ⟨-, hpeek⟩ | ⟨_, _, _, _, _, ⟨⟩, -⟩
    obtain ⟨r₁, hpeek', -⟩ := peekChar_at hr
    have hnone := congrArg Prod.fst (hpeek'.symm.trans hpeek)
    have hblanks : ∀ c ∈ cs, isBlank c = true :=
      List.dropWhile_eq_nil_iff.1 (List.head?_eq_none_iff.1 (Except.ok.inj hnone))
    refine ⟨r, [], cs, rfl, hblanks, hr, fun more => ?_⟩
    cases (constructAll limit (r.followedBy more)).1 <;> rfl
  | cons s ss ih =>
    rcases constructAll_eq_ok h with ⟨⟨⟩, -⟩ | ⟨c, r₁, s', r₂, ss', heq, hpeek, hread, hrest⟩
    obtain ⟨rfl, rfl⟩ := List.cons.inj heq
    have hsteps : Stepwise (fun _ => True) (peekChar >>= fun _ => construct limit) :=
      .bind .peekChar fun _ => .construct trivial
    obtain ⟨mid, rest, rfl, hat⟩ := hsteps.tracks hr
    rw [bind_of_ok hpeek, hread] at hat
    obtain ⟨r₃, mid', blanks, rfl, hblanks, h₃, hmore⟩ := ih hat hrest
    refine ⟨r₃, mid ++ mid', blanks, (List.append_assoc ..).symm, hblanks, ?_, fun more => ?_⟩
    · rwa [Position.past_append]
    · rw [constructAll_of_construct (peekChar_followedBy hpeek more)
        (construct_followedBy hread more), hmore]
      cases (constructAll limit (r₃.followedBy more)).1 <;> rfl

end Read

/-! ## A text behind another -/

/-- An error of a text, where the text stands behind a place. -/
def SceneError.behind (base : Position) : SceneError → SceneError
  | .rejected fault position => .rejected fault (base.behind position)
  | .tooDeep limit position => .tooDeep limit (base.behind position)
  | .unreadable cause => .unreadable cause

namespace Likeness

/-- A text behind a place and the text by itself. -/
def behind (base : Position) : Likeness where
  chars := Eq
  places p q := ∃ cs, p = base.past cs ∧ q = Position.start.past cs
  isWordChar_eq := by
    rintro c _ rfl
    rfl
  eq_of_not_wordChar h _ := h
  tag_eq := by
    rintro c _ rfl
    rfl
  toLower_eq := by
    rintro c _ rfl
    rfl
  finite?_eq h := by rw [List.forall₂_eq_eq_eq] at h; rw [h]
  advance := by
    rintro c _ _ _ rfl ⟨cs, rfl, rfl⟩
    exact ⟨cs ++ [c], (base.past_append cs [c]).symm, (Position.start.past_append cs [c]).symm⟩

variable {base p q : Position} {r r' : Reader} {cs : List Char}

theorem places_behind (h : (behind base).places p q) : p = base.behind q := by
  obtain ⟨cs, rfl, rfl⟩ := h
  exact Position.past_eq_behind base cs

theorem faults_behind {f g : Fault} (h : (behind base).Faults f g) : f = g := by
  cases h with
  | same => rfl
  | word what h =>
    rw [Words, behind, List.forall₂_eq_eq_eq] at h
    rw [String.toList_inj.1 h]
  | char what h => rw [h]

theorem errors_behind {e e' : SceneError} (h : (behind base).Errors e e') :
    e = e'.behind base := by
  cases h with
  | rejected hf hp => rw [faults_behind hf, places_behind hp, SceneError.behind]
  | tooDeep limit hp => rw [places_behind hp, SceneError.behind]
  | unreadable cause => rfl

theorem readers_behind (hr : r.At p cs) (hr' : r'.At q cs) (h : (behind base).places p q) :
    (behind base).Readers false r r' := by
  refine ⟨?_, by rwa [hr.position, hr'.position], nofun⟩
  rw [hr.upcoming, hr'.upcoming]
  exact List.forall₂_map_left_iff.2 (List.forall₂_map_right_iff.2
    (List.forall₂_same.2 fun c _ => .char rfl))

end Likeness

theorem Likeness.Outcomes.eq_mapError {α : Type} {m : Bool} {base : Position}
    {o o' : Except SceneError α × Reader} (h : (Likeness.behind base).Outcomes m Eq o o') :
    o.1 = o'.1.mapError (SceneError.behind base) := by
  cases h with
  | ok hv hr => exact congrArg Except.ok hv
  | error he => exact congrArg Except.error (errors_behind he)

/-- Behind a place and blanks a text is read as by itself, with its places moved. -/
theorem Read.constructAll_behind (limit : ℕ) {base : Position} {blanks cs : List Char}
    {r r' : Reader} (hblanks : ∀ c ∈ blanks, isBlank c = true) (hr : r.At base (blanks ++ cs))
    (hr' : r'.At .start cs) :
    (constructAll limit r).1 =
      (constructAll limit r').1.mapError (SceneError.behind (base.past blanks)) := by
  obtain ⟨r₁, hpeek, h₁⟩ := peekChar_at hr
  obtain ⟨r₁', hpeek', h₁'⟩ := peekChar_at hr'
  rw [List.dropWhile_append_of_pos hblanks] at hpeek h₁
  rw [List.takeWhile_append_of_pos hblanks, Position.past_append] at h₁
  rw [constructAll_eq, bind_of_ok hpeek, bind_of_ok hpeek']
  refine (Likeness.Alike.proceed limit (.constructAll limit) ?_ r₁ r₁'
    (Likeness.readers_behind h₁ h₁' ⟨_, rfl, rfl⟩)).eq_mapError
  cases (cs.dropWhile isBlank).head? with
  | none => exact .none
  | some c => exact .some rfl

namespace Scene

theorem parseMany_append_of_ok {limit : ℕ} {first : String} {scenes : List Scene}
    (h : parseMany limit first = .ok scenes) (second : String) :
    parseMany limit (first ++ second) = ((parseMany limit second).mapError
      (SceneError.behind (endOf first.toList))).map (scenes ++ ·) := by
  obtain ⟨r₁, mid, blanks, hcs, hblanks, hat, hmore⟩ := Read.constructAll_followedBy
    (Reader.at_ofText first) (Prod.ext h rfl)
  have hat₂ : (r₁.followedBy (Source.ofText second)).At (Position.start.past mid)
      (blanks ++ second.toList) := by
    refine ⟨hat.position, ?_⟩
    rw [List.map_append, ← hat.upcoming]
    exact (List.append_assoc ..).symm
  have hend : endOf first.toList = (Position.start.past mid).past blanks := by
    rw [← Position.past_append, ← hcs, Text.past_start]
  have hsecond := Read.constructAll_behind limit hblanks hat₂ (Reader.at_ofText second)
  rw [hend, parseMany, parseMany, manyOfEvents, manyOfEvents, ← hsecond, ← hmore, Source.ofText,
    String.toList_append, List.map_append]
  rfl

/-- The scenes of two texts one behind the other are those of the first and then those of the
second. A fault of the second text is a fault of both, at its place behind the end of the first. One
scene by itself is the case of one scene among many. -/
theorem parseMany_append (limit : ℕ) :
    (∀ (first second : String) (scenes : List Scene), parseMany limit first = .ok scenes →
      (∀ others, parseMany limit second = .ok others →
        parseMany limit (first ++ second) = .ok (scenes ++ others)) ∧
      ∀ e, parseMany limit second = .error e →
        parseMany limit (first ++ second) = .error (e.behind (endOf first.toList))) ∧
    ∀ (text : String) (s : Scene), parse limit text = .ok s ↔ parseMany limit text = .ok [s] := by
  constructor
  · intro first second scenes hfirst
    have hboth := parseMany_append_of_ok hfirst second
    constructor
    · intro others hsecond
      rw [hboth, hsecond]
      rfl
    · intro e hsecond
      rw [hboth, hsecond]
      rfl
  · intro text s
    rw [parse_eq_ok_iff, parseMany_eq_ok_iff]
    generalize lexemes text.toList = ls
    constructor
    · intro h
      simpa using Grammar.Expressions.cons h .nil
    · intro h
      cases h with
      | cons hs hss =>
        cases hss
        rwa [List.append_nil]

/-- A word that is no number is found on the line behind a sphere. -/
theorem parseMany_append_bad_word :
    let sphere := "[+sphere 0 0 0 1]\n "
    let bad := "[+cube 0 0 0 x]"
    parseMany 1 sphere = .ok [.sphere ⟨0.0, 0.0, 0.0⟩ 1.0] ∧
      parseMany 1 bad = .error (.rejected (.expected "cube size" (.word "x")) ⟨1, 14⟩) ∧
      parseMany 1 (sphere ++ bad) =
        .error (.rejected (.expected "cube size" (.word "x")) ⟨2, 15⟩) := by
  intro sphere bad
  have hsphere : parseMany 1 sphere = .ok [.sphere ⟨0.0, 0.0, 0.0⟩ 1.0] := by decide +kernel
  have hbad : parseMany 1 bad = .error (.rejected (.expected "cube size" (.word "x")) ⟨1, 14⟩) := by
    decide +kernel
  have hend : endOf sphere.toList = ⟨2, 2⟩ := by decide
  have hboth := ((parseMany_append 1).1 sphere bad _ hsphere).2 _ hbad
  rw [hend] at hboth
  exact ⟨hsphere, hbad, hboth⟩

end Scene

end SolidScene
