import SolidScene.Proofs.Number.ReadBack
import SolidScene.Proofs.Scene.Grammar
import SolidScene.Proofs.Scene.OnText
import SolidScene.Scene.Parse

/-!
# Actions recognize the grammar

`Recognizes x G` says that on a text the action `x` has a result exactly where the relation `G`
between the lexemes before it, the result and the lexemes behind it holds. It passes from actions to
sequences of them, so an expression is read exactly where the grammar has one
(`expression_recognizes`). Of an action that reads numbers only the numbers matter (`ReadsNumbers`).
-/

namespace SolidScene

open Text (Position Lexeme lexemes lexemes_cases isBlank isWordChar)
open Grammar

/-- The reader faces these lexemes, to the end of a text. -/
def Reader.Faces (r : Reader) (ls : List Lexeme) : Prop := ∃ p cs, r.At p cs ∧ lexemes cs = ls

namespace Read

variable {α β : Type} {r : Reader} {p : Position} {cs : List Char} {ls : List Lexeme}

/-- On a text the action has exactly the results that `G` describes, and ends before the lexemes
that `G` leaves. -/
structure Recognizes (x : Read α) (G : List Lexeme → α → List Lexeme → Prop) : Prop where
  sound : ∀ {r ls a r'}, r.Faces ls → x r = (.ok a, r') → ∃ rest, r'.Faces rest ∧ G ls a rest
  complete : ∀ {r ls a rest}, r.Faces ls → G ls a rest → ∃ r', x r = (.ok a, r') ∧ r'.Faces rest

namespace Recognizes

variable {x : Read α} {f : α → Read β} {G : List Lexeme → α → List Lexeme → Prop}

theorem congr {H : List Lexeme → α → List Lexeme → Prop} (h : Recognizes x G)
    (hG : ∀ ls a rest, G ls a rest ↔ H ls a rest) : Recognizes x H where
  sound hr hx := by
    obtain ⟨rest, hr', hrest⟩ := h.sound hr hx
    exact ⟨rest, hr', (hG _ _ _).1 hrest⟩
  complete hr hH := h.complete hr ((hG _ _ _).2 hH)

protected theorem pure (a : α) : Recognizes (pure a) fun ls b rest => b = a ∧ rest = ls where
  sound hr hx := by
    cases hx
    exact ⟨_, hr, rfl, rfl⟩
  complete hr h := by
    obtain ⟨rfl, rfl⟩ := h
    exact ⟨_, rfl, hr⟩

protected theorem bind {H : α → List Lexeme → β → List Lexeme → Prop} (hx : Recognizes x G)
    (hf : ∀ a, Recognizes (f a) (H a)) :
    Recognizes (x >>= f) fun ls b rest => ∃ a mid, G ls a mid ∧ H a mid b rest where
  sound hr h := by
    obtain ⟨a, r₁, hxr, hfr⟩ := bind_eq_ok h
    obtain ⟨mid, hmid, hG⟩ := hx.sound hr hxr
    obtain ⟨rest, hrest, hH⟩ := (hf a).sound hmid hfr
    exact ⟨rest, hrest, a, mid, hG, hH⟩
  complete hr h := by
    obtain ⟨a, mid, hG, hH⟩ := h
    obtain ⟨r₁, hxr, hmid⟩ := hx.complete hr hG
    obtain ⟨r', hfr, hrest⟩ := (hf a).complete hmid hH
    exact ⟨r', (bind_of_ok hxr f).trans hfr, hrest⟩

protected theorem reject (fault : Fault) (at_ : Position) :
    Recognizes (reject fault at_ : Read α) fun _ _ _ => False where
  sound _ hx := by cases hx
  complete _ h := h.elim

theorem rejectAtStart (fault : Fault) :
    Recognizes (tokenStart >>= fun at_ => reject fault at_ : Read α) fun _ _ _ => False where
  sound _ hx := by cases hx
  complete _ h := h.elim

/-- A check in front of an action leaves the results of the action where it passes. -/
theorem checked {fault : Fault} (refused : Bool) (hx : Recognizes x G) :
    Recognizes (if refused then do reject fault (← tokenStart) else x) fun ls a rest =>
      refused = false ∧ G ls a rest := by
  cases refused with
  | true => exact (rejectAtStart fault).congr (by simp)
  | false => exact hx.congr (by simp)

/-- Whether there is a result depends on the lexemes alone. -/
theorem fst_eq_ok_iff (h : Recognizes x G) (hr : r.Faces ls) {a : α} :
    (x r).1 = .ok a ↔ ∃ rest, G ls a rest := by
  constructor
  · intro hx
    obtain ⟨rest, -, hG⟩ := h.sound hr (show x r = (.ok a, (x r).2) from Prod.ext hx rfl)
    exact ⟨rest, hG⟩
  · rintro ⟨rest, hG⟩
    obtain ⟨r', hx, -⟩ := h.complete hr hG
    rw [hx]

end Recognizes

/-! ## Characters and words -/

theorem skipBlanks_at (h : r.At p cs) : ∃ r', skipBlanks r = (.ok (), r') ∧
    r'.At (p.past (cs.takeWhile isBlank)) (cs.dropWhile isBlank) := by
  obtain ⟨r', hr, hat⟩ := takeWhile_at h isBlank
  exact ⟨r', bind_of_ok hr _, hat⟩

theorem peekChar_at (h : r.At p cs) : ∃ r', peekChar r = (.ok (cs.dropWhile isBlank).head?, r') ∧
    r'.At (p.past (cs.takeWhile isBlank)) (cs.dropWhile isBlank) := by
  obtain ⟨r₁, hskip, h₁⟩ := skipBlanks_at h
  obtain ⟨r', hpeek, hat, -⟩ := peek_at h₁
  exact ⟨r', (bind_of_ok hskip _).trans hpeek, hat⟩

theorem readChar_at (h : r.At p cs) : ∃ r' q, readChar r = (.ok (cs.dropWhile isBlank).head?, r') ∧
    r'.At q (cs.dropWhile isBlank).tail := by
  obtain ⟨r₁, hskip, h₁⟩ := skipBlanks_at h
  obtain ⟨r₂, hmark, h₂⟩ := mark_at h₁
  obtain ⟨r', hbump, hat⟩ := bump_at h₂
  exact ⟨r', _, (bind_of_ok hskip _).trans ((bind_of_ok hmark _).trans hbump), hat⟩

/-- The action reads the word that comes next, and has no result where none does. -/
def ReadsWord (x : Read Token) : Prop := ∀ r ls, r.Faces ls →
  (∃ w mid r' q, ls = .word w :: mid ∧ x r = (.ok ⟨String.ofList w, q⟩, r') ∧ r'.Faces mid) ∨
    (∀ w mid, ls ≠ .word w :: mid) ∧ ∃ e r', x r = (.error e, r')

theorem readToken_readsWord (what : String) : ReadsWord (readToken what) := by
  rintro r _ ⟨p, cs, h, rfl⟩
  obtain ⟨r₁, hskip, h₁⟩ := skipBlanks_at h
  obtain ⟨r₂, hmark, h₂⟩ := mark_at h₁
  obtain ⟨r₃, htake, h₃⟩ := takeWhile_at h₂ isWordChar
  obtain ⟨r₄, hpeek, -, -⟩ := peek_at h₃
  have hempty (hw : (cs.dropWhile isBlank).takeWhile isWordChar = []) :
      ∃ e r', readToken what r = (.error e, r') := by
    unfold readToken
    rw [bind_of_ok hskip, bind_of_ok hmark, bind_of_ok htake, hw, if_pos List.isEmpty_nil,
      bind_of_ok hpeek]
    exact ⟨_, _, rfl⟩
  rcases lexemes_cases cs with ⟨hcs, hls⟩ | ⟨rest, hcs, hls⟩ | ⟨rest, hcs, hls⟩ |
    ⟨c, rest, hcs, hc, hls⟩
  · exact .inr ⟨by simp [hls], hempty (by rw [hcs]; rfl)⟩
  · exact .inr ⟨by simp [hls], hempty (by rw [hcs]; rfl)⟩
  · exact .inr ⟨by simp [hls], hempty (by rw [hcs]; rfl)⟩
  · have hw : (c :: rest).takeWhile isWordChar = c :: rest.takeWhile isWordChar :=
      List.takeWhile_cons_of_pos hc
    rw [hcs] at h₃ htake
    rw [List.dropWhile_cons_of_pos hc] at h₃
    rw [hw] at htake
    refine .inl ⟨_, _, r₃, p.past (cs.takeWhile isBlank), hls, ?_, ⟨_, _, h₃, rfl⟩⟩
    unfold readToken
    rw [bind_of_ok hskip, bind_of_ok hmark, bind_of_ok htake]
    rfl

theorem ReadsWord.withFault {x : Read Token} (h : ReadsWord x) (fault : Fault) :
    ReadsWord (withFault fault x) := by
  intro r ls hr
  unfold Read.withFault
  rcases h _ _ hr with ⟨w, mid, r', q, hls, hx, hr'⟩ | ⟨hls, e, r', hx⟩
  · exact .inl ⟨w, mid, r', q, hls, by rw [hx], hr'⟩
  · rw [hx]
    cases e <;> exact .inr ⟨hls, _, _, rfl⟩

/-- What follows a word depends on its characters only. -/
theorem ReadsWord.bind {x : Read Token} (h : ReadsWord x) {f : Token → Read β}
    {H : List Char → List Lexeme → β → List Lexeme → Prop}
    (hf : ∀ w q, Recognizes (f ⟨String.ofList w, q⟩) (H w)) :
    Recognizes (x >>= f) fun ls b rest => ∃ w mid, ls = .word w :: mid ∧ H w mid b rest where
  sound hr hb := by
    rcases h _ _ hr with ⟨w, mid, r₁, q, hls, hx, h₁⟩ | ⟨-, e, r₁, hx⟩
    · rw [bind_of_ok hx] at hb
      obtain ⟨rest, hrest, hH⟩ := (hf w q).sound h₁ hb
      exact ⟨rest, hrest, w, mid, hls, hH⟩
    · rw [bind_of_error hx] at hb
      cases hb
  complete hr hb := by
    obtain ⟨w, mid, rfl, hH⟩ := hb
    rcases h _ _ hr with ⟨w', mid', r₁, q, hls, hx, h₁⟩ | ⟨hls, -⟩
    · obtain ⟨⟨rfl⟩, rfl⟩ := List.cons.inj hls
      obtain ⟨r', hf, hrest⟩ := (hf w q).complete h₁ hH
      exact ⟨r', (bind_of_ok hx _).trans hf, hrest⟩
    · exact absurd rfl (hls w mid)

/-! ## Brackets and the end -/

theorem expectChar_recognizes {l : Lexeme} {c : Char} (hl : l.Bracket c) (fault : Fault) :
    Recognizes (expectChar c fault) fun ls _ rest => ls = l :: rest := by
  have key {r : Reader} {p : Position} {cs : List Char} (h : r.At p cs) :
      (∃ rest r', lexemes cs = l :: lexemes rest ∧ expectChar c fault r = (.ok (), r') ∧
          r'.Faces (lexemes rest)) ∨
        (∀ rest, lexemes cs ≠ l :: rest) ∧ ∃ e r', expectChar c fault r = (.error e, r') := by
    obtain ⟨r₁, q, hread, h₁⟩ := readChar_at h
    have hpass {rest : List Char} (hcs : cs.dropWhile isBlank = c :: rest) :
        expectChar c fault r = (.ok (), r₁) ∧ r₁.Faces (lexemes rest) := by
      rw [hcs] at hread h₁
      refine ⟨?_, q, rest, h₁, rfl⟩
      unfold expectChar
      rw [bind_of_ok hread, if_pos List.head?_cons]
      rfl
    have hfail (hnext : (cs.dropWhile isBlank).head? ≠ some c) :
        ∃ e r', expectChar c fault r = (.error e, r') := by
      unfold expectChar
      rw [bind_of_ok hread, if_neg hnext]
      exact ⟨_, _, rfl⟩
    rcases lexemes_cases cs with ⟨hcs, hls⟩ | ⟨rest, hcs, hls⟩ | ⟨rest, hcs, hls⟩ |
      ⟨d, rest, hcs, hd, hls⟩ <;> cases hl
    · exact .inr ⟨by simp [hls], hfail (by simp [hcs])⟩
    · exact .inr ⟨by simp [hls], hfail (by simp [hcs])⟩
    · exact .inl ⟨rest, r₁, hls, hpass hcs⟩
    · exact .inr ⟨by simp [hls], hfail (by simp [hcs])⟩
    · exact .inr ⟨by simp [hls], hfail (by simp [hcs])⟩
    · exact .inl ⟨rest, r₁, hls, hpass hcs⟩
    · exact .inr ⟨by simp [hls], hfail (by rw [hcs]; rintro ⟨⟩; exact absurd hd (by decide))⟩
    · exact .inr ⟨by simp [hls], hfail (by rw [hcs]; rintro ⟨⟩; exact absurd hd (by decide))⟩
  constructor
  · rintro r _ _ r' ⟨p, cs, h, rfl⟩ hx
    rcases key h with ⟨rest, r₁, hls, hok, h₁⟩ | ⟨-, e, r₁, herror⟩
    · cases hok.symm.trans hx
      exact ⟨_, h₁, hls⟩
    · cases herror.symm.trans hx
  · rintro r _ _ rest ⟨p, cs, h, rfl⟩ hls
    rcases key h with ⟨rest', r₁, hls', hok, h₁⟩ | ⟨hne, -⟩
    · cases hls.symm.trans hls'
      exact ⟨r₁, hok, h₁⟩
    · exact absurd hls (hne rest)

/-- What looking ahead shows of the lexemes to come. -/
structure Shows (ls : List Lexeme) (next : Option Char) : Prop where
  opening : next = some '[' ↔ ls.head? = some .opening
  nothing : next = none ↔ ls = []

theorem peekChar_shows (hr : r.Faces ls) :
    ∃ next r', peekChar r = (.ok next, r') ∧ r'.Faces ls ∧ Shows ls next := by
  obtain ⟨p, cs, h, rfl⟩ := hr
  obtain ⟨r', hpeek, h'⟩ := peekChar_at h
  refine ⟨_, r', hpeek, ⟨_, _, h', Text.lexemes_dropWhile_isBlank cs⟩, ?_⟩
  rcases lexemes_cases cs with ⟨hcs, hls⟩ | ⟨rest, hcs, hls⟩ | ⟨rest, hcs, hls⟩ |
    ⟨d, rest, hcs, hd, hls⟩ <;> rw [hcs, hls]
  · exact ⟨by simp, by simp⟩
  · exact ⟨by simp, by simp⟩
  · exact ⟨by simp, by simp⟩
  · have hne : d ≠ '[' := by
      rintro rfl
      exact absurd hd (by decide)
    exact ⟨by simp [hne], by simp⟩

theorem Recognizes.ofPeekChar {f : Option Char → Read β}
    {G : Option Char → List Lexeme → β → List Lexeme → Prop}
    {H : List Lexeme → β → List Lexeme → Prop} (hf : ∀ next, Recognizes (f next) (G next))
    (hG : ∀ ls next, Shows ls next → ∀ b rest, G next ls b rest ↔ H ls b rest) :
    Recognizes (peekChar >>= f) H where
  sound hr hb := by
    obtain ⟨next, r₁, hpeek, h₁, hshows⟩ := peekChar_shows hr
    rw [bind_of_ok hpeek] at hb
    obtain ⟨rest, hrest, hG'⟩ := (hf next).sound h₁ hb
    exact ⟨rest, hrest, (hG _ _ hshows _ _).1 hG'⟩
  complete hr hb := by
    obtain ⟨next, r₁, hpeek, h₁, hshows⟩ := peekChar_shows hr
    obtain ⟨r', hb', hrest⟩ := (hf next).complete h₁ ((hG _ _ hshows _ _).2 hb)
    exact ⟨r', (bind_of_ok hpeek _).trans hb', hrest⟩

/-! ## Values -/

/-- The lexemes that `G` relates to a result stand before the rest. -/
def Before (G : List Lexeme → α → Prop) (ls : List Lexeme) (a : α) (rest : List Lexeme) : Prop :=
  ∃ used, ls = used ++ rest ∧ G used a

theorem before_numbers_append {ls rest : List Lexeme} {xs ys : List Float} :
    Before Numbers ls (xs ++ ys) rest ↔
      ∃ mid, Before Numbers ls xs mid ∧ Before Numbers mid ys rest := by
  constructor
  · rintro ⟨used, rfl, h⟩
    refine ⟨used.drop xs.length ++ rest, ⟨used.take xs.length, ?_, ?_⟩, used.drop xs.length, rfl,
      ?_⟩
    · rw [← List.append_assoc, List.take_append_drop]
    · exact List.forall₂_take_append used xs ys h
    · exact List.forall₂_drop_append used xs ys h
  · rintro ⟨_, ⟨u, rfl, hu⟩, ⟨v, rfl, hv⟩⟩
    exact ⟨u ++ v, by rw [List.append_assoc], List.rel_append hu hv⟩

theorem before_numbers_cons {ls rest : List Lexeme} {x : Float} {xs : List Float} :
    Before Numbers ls (x :: xs) rest ↔
      ∃ mid, Before Numbers ls [x] mid ∧ Before Numbers mid xs rest :=
  @before_numbers_append ls rest [x] xs

theorem before_numbers_singleton {ls rest : List Lexeme} {x : Float} :
    Before Numbers ls [x] rest ↔ ∃ w, ls = .word w :: rest ∧ Number.finite? w = some x := by
  constructor
  · rintro ⟨_, rfl, h⟩
    cases h with
    | cons hl hnil =>
      cases hnil
      obtain ⟨w, rfl, hw⟩ := hl
      exact ⟨w, rfl, hw⟩
  · rintro ⟨w, rfl, hw⟩
    exact ⟨[.word w], rfl, .cons ⟨w, rfl, hw⟩ .nil⟩

theorem readNumber_recognizes (what : String) :
    Recognizes (readNumber what) fun ls x rest => Before Numbers ls [x] rest := by
  refine ((readToken_readsWord what).bind (H := fun w ls x rest =>
    Number.finite? w = some x ∧ rest = ls) fun w q => ?_).congr fun ls x rest => ?_
  · simp only [String.toList_ofList]
    rcases Number.finite? w with _ | x
    · exact (Recognizes.reject _ _).congr (by simp)
    · exact (Recognizes.pure x).congr fun ls y rest => by rw [Option.some.injEq, eq_comm]
  · rw [before_numbers_singleton]
    constructor
    · rintro ⟨w, _, hls, hw, rfl⟩
      exact ⟨w, hls, hw⟩
    · rintro ⟨w, hls, hw⟩
      exact ⟨w, _, hls, hw, rfl⟩

theorem readVector_recognizes (what : String) :
    Recognizes (readVector what) fun ls v rest => Before Numbers ls v.toList rest := by
  refine (Recognizes.bind (readNumber_recognizes what) fun x =>
    .bind (readNumber_recognizes what) fun y =>
      .bind (readNumber_recognizes what) fun z => .pure _).congr fun ls v rest => ?_
  constructor
  · rintro ⟨x, m₁, h₁, y, m₂, h₂, z, m₃, h₃, rfl, rfl⟩
    exact before_numbers_cons.2 ⟨m₁, h₁, before_numbers_cons.2 ⟨m₂, h₂, h₃⟩⟩
  · intro h
    obtain ⟨m₁, h₁, h⟩ := before_numbers_cons.1 h
    obtain ⟨m₂, h₂, h₃⟩ := before_numbers_cons.1 h
    exact ⟨v.x, m₁, h₁, v.y, m₂, h₂, v.z, rest, h₃, rfl, rfl⟩

theorem readRow_recognizes (what : String) :
    Recognizes (readRow what) fun ls v rest => Before Numbers ls v.toList rest := by
  refine (Recognizes.bind (readNumber_recognizes what) fun x =>
    .bind (readNumber_recognizes what) fun y => .bind (readNumber_recognizes what) fun z =>
      .bind (readNumber_recognizes what) fun w => .pure _).congr fun ls v rest => ?_
  constructor
  · rintro ⟨x, m₁, h₁, y, m₂, h₂, z, m₃, h₃, w, m₄, h₄, rfl, rfl⟩
    exact before_numbers_cons.2 ⟨m₁, h₁, before_numbers_cons.2 ⟨m₂, h₂,
      before_numbers_cons.2 ⟨m₃, h₃, h₄⟩⟩⟩
  · intro h
    obtain ⟨m₁, h₁, h⟩ := before_numbers_cons.1 h
    obtain ⟨m₂, h₂, h⟩ := before_numbers_cons.1 h
    obtain ⟨m₃, h₃, h₄⟩ := before_numbers_cons.1 h
    exact ⟨v.x, m₁, h₁, v.y, m₂, h₂, v.z, m₃, h₃, v.w, rest, h₄, rfl, rfl⟩

/-- Numbers begin with a word. -/
theorem head?_ne_opening {ls rest : List Lexeme} {x : Float} {xs : List Float}
    (h : Before Numbers ls (x :: xs) rest) : ls.head? ≠ some .opening := by
  obtain ⟨_, hx, -⟩ := before_numbers_cons.1 h
  obtain ⟨w, rfl, -⟩ := before_numbers_singleton.1 hx
  simp

theorem readLastRow_recognizes (what : String) :
    Recognizes (readLastRow what) fun ls v rest => Before Numbers ls v.toList rest ∨
      v = affineRow ∧ rest = ls ∧ ls.head? = some .opening := by
  have hf (next : Option Char) :
      Recognizes (if next = some '[' then pure affineRow else readRow what) fun ls v rest =>
        if next = some '[' then v = affineRow ∧ rest = ls else Before Numbers ls v.toList rest := by
    split_ifs
    · exact .pure _
    · exact readRow_recognizes what
  refine .ofPeekChar hf fun ls next hshows v rest => ?_
  split_ifs with hnext
  · have hopen := hshows.opening.1 hnext
    constructor
    · rintro ⟨rfl, rfl⟩
      exact .inr ⟨rfl, rfl, hopen⟩
    · rintro (h | ⟨rfl, rfl, -⟩)
      · exact absurd hopen (head?_ne_opening h)
      · exact ⟨rfl, rfl⟩
  · constructor
    · exact .inl
    · rintro (h | ⟨-, -, hopen⟩)
      · exact h
      · exact absurd (hshows.opening.2 hopen) hnext

theorem entries_ofRows (a b c d : Vec4 Float) :
    (Matrix4.ofRows a b c d).entries = a.toList ++ (b.toList ++ (c.toList ++ d.toList)) := rfl

theorem exists_ofRows (m : Matrix4 Float) : ∃ a b c d, m = Matrix4.ofRows a b c d :=
  ⟨m.transpose.x, m.transpose.y, m.transpose.z, m.transpose.w, rfl⟩

/-- The last row of a matrix is left out only where an expression follows. -/
theorem readMatrix_recognizes (what : String) :
    Recognizes (readMatrix what) fun ls m rest => ∃ xs, Before Numbers ls xs rest ∧
      (m.entries = xs ∨ m.entries = xs ++ affineRow.toList ∧ rest.head? = some .opening) := by
  refine (Recognizes.bind (readRow_recognizes what) fun a =>
    .bind (readRow_recognizes what) fun b => .bind (readRow_recognizes what) fun c =>
      .bind (readLastRow_recognizes what) fun d => .pure _).congr fun ls m rest => ?_
  constructor
  · rintro ⟨a, m₁, h₁, b, m₂, h₂, c, m₃, h₃, d, m₄, h₄, rfl, rfl⟩
    rcases h₄ with h₄ | ⟨rfl, rfl, hopen⟩
    · refine ⟨_, ?_, .inl (entries_ofRows a b c d)⟩
      exact before_numbers_append.2 ⟨m₁, h₁, before_numbers_append.2 ⟨m₂, h₂,
        before_numbers_append.2 ⟨m₃, h₃, h₄⟩⟩⟩
    · refine ⟨a.toList ++ (b.toList ++ c.toList), ?_, .inr ⟨rfl, hopen⟩⟩
      exact before_numbers_append.2 ⟨m₁, h₁, before_numbers_append.2 ⟨m₂, h₂, h₃⟩⟩
  · rintro ⟨xs, hxs, hm⟩
    obtain ⟨a, b, c, d, rfl⟩ := exists_ofRows m
    rw [entries_ofRows] at hm
    rcases hm with rfl | ⟨hm, hopen⟩
    · obtain ⟨m₁, h₁, hxs⟩ := before_numbers_append.1 hxs
      obtain ⟨m₂, h₂, hxs⟩ := before_numbers_append.1 hxs
      obtain ⟨m₃, h₃, h₄⟩ := before_numbers_append.1 hxs
      exact ⟨a, m₁, h₁, b, m₂, h₂, c, m₃, h₃, d, rest, .inl h₄, rfl, rfl⟩
    · rw [← List.append_assoc, ← List.append_assoc] at hm
      obtain ⟨rfl, hd⟩ := List.append_inj' hm rfl
      obtain rfl : d = affineRow := by
        cases d
        simp only [Vec4.toList, List.cons.injEq, and_true] at hd
        obtain ⟨rfl, rfl, rfl, rfl⟩ := hd
        rfl
      obtain ⟨m₂, h₁₂, h₃⟩ := before_numbers_append.1 hxs
      obtain ⟨m₁, h₁, h₂⟩ := before_numbers_append.1 h₁₂
      exact ⟨a, m₁, h₁, b, m₂, h₂, c, rest, h₃, affineRow, rest, .inr ⟨rfl, rfl, hopen⟩, rfl, rfl⟩

theorem readNonNegative_recognizes (what : String) :
    Recognizes (readNonNegative what) fun ls x rest =>
      Before Numbers ls [x] rest ∧ Scalar.lt x 0.0 = false := by
  refine (Recognizes.bind (readNumber_recognizes what) fun x =>
    .checked (Scalar.lt x 0.0) (.pure x)).congr fun ls x rest => ?_
  constructor
  · rintro ⟨y, _, h, hlt, rfl, rfl⟩
    exact ⟨h, hlt⟩
  · rintro ⟨h, hlt⟩
    exact ⟨x, rest, h, hlt, rfl, rfl⟩

/-! ## Nothing but numbers -/

/-- The action reads numbers, and its result is one that `P` allows for them. -/
def ReadsNumbers (x : Read α) (P : List Float → α → Prop) : Prop :=
  Recognizes x fun ls a rest => ∃ xs, Before Numbers ls xs rest ∧ P xs a

theorem before_numbers_nil {ls rest : List Lexeme} : Before Numbers ls [] rest ↔ ls = rest := by
  constructor
  · rintro ⟨_, rfl, ⟨⟩⟩
    rfl
  · rintro rfl
    exact ⟨[], rfl, .nil⟩

theorem isFinite_of_numbers {ls : List Lexeme} {xs : List Float} (h : Numbers ls xs) :
    ∀ x ∈ xs, x.isFinite = true := by
  induction h with
  | nil => simp
  | cons hl _ ih =>
    obtain ⟨w, -, hw⟩ := hl
    exact List.forall_mem_cons.2 ⟨Number.isFinite_of_finite? hw, ih⟩

namespace ReadsNumbers

variable {x : Read α} {P Q : List Float → α → Prop}

/-- Numbers that are read are finite. -/
theorem congr (h : ReadsNumbers x P)
    (hPQ : ∀ xs a, (∀ x ∈ xs, x.isFinite = true) → (P xs a ↔ Q xs a)) : ReadsNumbers x Q :=
  Recognizes.congr h fun _ _ _ => exists_congr fun _ => and_congr_right fun ⟨_, _, hxs⟩ =>
    hPQ _ _ (isFinite_of_numbers hxs)

protected theorem pure (a : α) : ReadsNumbers (pure a) fun xs b => xs = [] ∧ b = a := by
  refine (Recognizes.pure a).congr fun ls b rest => ?_
  constructor
  · rintro ⟨rfl, rfl⟩
    exact ⟨[], before_numbers_nil.2 rfl, rfl, rfl⟩
  · rintro ⟨_, h, rfl, rfl⟩
    exact ⟨rfl, (before_numbers_nil.1 h).symm⟩

theorem checked {fault : Fault} (refused : Bool) (hx : ReadsNumbers x P) :
    ReadsNumbers (if refused then do reject fault (← tokenStart) else x) fun xs a =>
      refused = false ∧ P xs a :=
  (Recognizes.checked refused hx).congr fun _ _ _ => by simp only [exists_and_left, and_left_comm]

/-- The numbers of one value stand before the numbers of what follows. -/
theorem after {values : α → List Float} {ok : α → Prop} {f : α → Read β}
    {R : α → List Float → β → Prop}
    (hx : Recognizes x fun ls a rest => Before Numbers ls (values a) rest ∧ ok a)
    (hf : ∀ a, ReadsNumbers (f a) (R a)) :
    ReadsNumbers (x >>= f) fun xs b => ∃ a ys, xs = values a ++ ys ∧ ok a ∧ R a ys b := by
  refine (Recognizes.bind hx hf).congr fun ls b rest => ?_
  constructor
  · rintro ⟨a, _, ⟨ha, hok⟩, ys, hys, hR⟩
    exact ⟨_, before_numbers_append.2 ⟨_, ha, hys⟩, a, ys, rfl, hok, hR⟩
  · rintro ⟨_, h, a, ys, rfl, hok, hR⟩
    obtain ⟨mid, ha, hys⟩ := before_numbers_append.1 h
    exact ⟨a, mid, ⟨ha, hok⟩, ys, hys, hR⟩

theorem afterVector {what : String} {f : Vec3 Float → Read β}
    {R : Vec3 Float → List Float → β → Prop} (hf : ∀ v, ReadsNumbers (f v) (R v)) :
    ReadsNumbers (readVector what >>= f) fun xs b =>
      ∃ v ys, xs = v.toList ++ ys ∧ R v ys b := by
  have hvector : Recognizes (readVector what) fun ls v rest =>
      Before Numbers ls v.toList rest ∧ True :=
    (readVector_recognizes what).congr (by simp)
  exact (after hvector hf).congr (by simp)

theorem afterNonNegative {what : String} {f : Float → Read β} {R : Float → List Float → β → Prop}
    (hf : ∀ a, ReadsNumbers (f a) (R a)) :
    ReadsNumbers (readNonNegative what >>= f) fun xs b =>
      ∃ a ys, xs = a :: ys ∧ Scalar.lt a 0.0 = false ∧ R a ys b :=
  after (readNonNegative_recognizes what) hf

end ReadsNumbers

end Read

end SolidScene
