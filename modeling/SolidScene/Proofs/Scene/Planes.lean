import SolidScene.Proofs.Geometry.Direction
import SolidScene.Proofs.Scene.Acceptance

/-!
# Planes and their normals

A plane is accepted where the square of its normal's length neither overflows nor vanishes, and a
text of one is refused for its normal everywhere else (`plane_accepted_iff`). So a normal that is
finite and not zero may be refused (`plane_refused`).
-/

namespace SolidScene

open Text (Lexeme lexemes)
open Grammar (Heading Numbers)

/-- The lexemes spell a plane through this point, with a normal that need not have a direction. -/
def Grammar.SpellsPlane (ls : List Lexeme) (point normal : Vec3 Float) : Prop :=
  ∃ head values, Heading head (.object .plane) ∧ Numbers values (point.toList ++ normal.toList) ∧
    ls = .opening :: (head ++ values ++ [.closing])

open Grammar (SpellsPlane)

namespace Read

theorem readObject_plane_error {r : Reader} {ls rest : List Lexeme} {point normal : Vec3 Float}
    (hr : r.Faces ls) (hvalues : Before Numbers ls (point.toList ++ normal.toList) rest)
    (hnormal : normal.hasDirection = false) : ∃ position r',
      readObject .plane r = (.error (.rejected (.noDirection normal) position), r') := by
  obtain ⟨mid, hpoint, hrest⟩ := before_numbers_append.1 hvalues
  obtain ⟨r₁, hread, h₁⟩ := (readVector_recognizes "plane point").complete hr hpoint
  obtain ⟨r₂, hread', -⟩ := (readVector_recognizes "plane normal").complete h₁ hrest
  have hnone : Solid.halfSpace? point normal = none := by
    rw [Solid.halfSpace?, hnormal, if_neg Bool.false_ne_true]
  refine ⟨r₂.tokenStart, r₂, ?_⟩
  rw [readObject, bind_of_ok hread, bind_of_ok hread', hnone]
  rfl

theorem construct_plane_error {limit : ℕ} (hlimit : 0 < limit) {r : Reader} {ls : List Lexeme}
    {point normal : Vec3 Float} (hr : r.Faces ls) (h : SpellsPlane ls point normal)
    (hnormal : normal.hasDirection = false) : ∃ position r',
      construct limit r = (.error (.rejected (.noDirection normal) position), r') := by
  obtain ⟨room, rfl⟩ := Nat.exists_eq_succ_of_ne_zero hlimit.ne'
  obtain ⟨head, values, hhead, hvalues, rfl⟩ := h
  obtain ⟨r₁, hopen, h₁⟩ :=
    (expectChar_recognizes .opening .missingOpening).complete (a := ()) hr rfl
  rw [List.append_assoc] at h₁
  obtain ⟨r₂, hname, h₂⟩ := readName_recognizes.complete h₁ ⟨head, rfl, hhead⟩
  obtain ⟨position, r₃, hobject⟩ := readObject_plane_error h₂ ⟨values, rfl, hvalues⟩ hnormal
  refine ⟨position, r₃, ?_⟩
  show (expectChar '[' .missingOpening >>= fun _ => readName >>= fun name =>
    readBody (expression (room + 1) room) name >>= fun s =>
      expectChar ']' .missingClosing >>= fun _ => pure s) r = _
  rw [bind_of_ok hopen, bind_of_ok hname]
  exact bind_of_error hobject _

end Read

namespace Scene

theorem parse_plane {limit : ℕ} (hlimit : 0 < limit) {text : String} {point normal : Vec3 Float}
    (h : SpellsPlane (lexemes text.toList) point normal) :
    (normal.Measured → parse limit text = .ok (.plane point normal)) ∧
      (¬ normal.Measured →
        ∃ position, parse limit text = .error (.rejected (.noDirection normal) position)) := by
  rw [← Vec3.hasDirection_iff, Bool.not_eq_true]
  constructor <;> intro hnormal
  · obtain ⟨room, rfl⟩ := Nat.exists_eq_succ_of_ne_zero hlimit.ne'
    obtain ⟨head, values, hhead, hvalues, hls⟩ := h
    exact parse_eq_ok_iff.2 ⟨head, _, values, hhead, .object hvalues (.plane point hnormal), hls⟩
  · obtain ⟨position, r', hread⟩ := Read.construct_plane_error hlimit (faces_ofText text) h hnormal
    refine ⟨position, ?_⟩
    have hwhole : Read.whole limit (.ofEvents (Source.ofText text)) = _ :=
      Read.bind_of_error hread _
    rw [parse, ofEvents, hwhole]

/-- A plane is accepted where the square of its normal's length neither overflows nor vanishes, and
refused for its normal everywhere else. An accepted normal is finite and not zero, and where no
coordinate is very small or large, every other normal is accepted. -/
theorem plane_accepted_iff (point normal : Vec3 Float) :
    ((Solid.halfSpace? point normal).isSome = true ↔ normal.Measured) ∧
      (normal.Measured →
        (∀ c ∈ normal.toList, c.isFinite = true) ∧ ∃ c ∈ normal.toList, (c == 0.0) = false) ∧
      ((∀ c ∈ normal.toList, Vec3.Moderate c) →
        (normal.Measured ↔ ∃ c ∈ normal.toList, (c == 0.0) = false)) ∧
      ∀ limit text, 0 < limit → SpellsPlane (lexemes text.toList) point normal →
        (normal.Measured → parse limit text = .ok (.plane point normal)) ∧
          (¬ normal.Measured →
            ∃ position, parse limit text = .error (.rejected (.noDirection normal) position)) := by
  refine ⟨?_, Vec3.Measured.sound, Vec3.measured_iff, fun limit text hlimit => parse_plane hlimit⟩
  rw [← Vec3.hasDirection_iff, Solid.halfSpace?]
  split_ifs with h <;> simp [h]

/-- A plane with a normal of length five, over several lines. -/
theorem plane_accepted_iff_slanted :
    let normal : Vec3 Float := ⟨0.0, 3.0, 4.0⟩
    let text := "[+Plane 0 0 0\n  0 3 4]"
    (∀ c ∈ normal.toList, Vec3.Moderate c) ∧
      SpellsPlane (lexemes text.toList) ⟨0.0, 0.0, 0.0⟩ normal ∧
      (Solid.halfSpace? ⟨0.0, 0.0, 0.0⟩ normal).isSome = true ∧
      parse 1 text = .ok (.plane ⟨0.0, 0.0, 0.0⟩ normal) := by
  intro normal text
  obtain ⟨hsome, -, hmoderate, hparse⟩ := plane_accepted_iff ⟨0.0, 0.0, 0.0⟩ normal
  have hcoordinates : ∀ c ∈ normal.toList, Vec3.Moderate c := by
    simp only [normal, Vec3.toList, List.forall_mem_cons]
    refine ⟨⟨?_, ?_, ?_⟩, ⟨?_, ?_, ?_⟩, ⟨?_, ?_, ?_⟩, by simp⟩ <;> decide +kernel
  have hmeasured : normal.Measured :=
    (hmoderate hcoordinates).2 ⟨3.0, by simp [normal, Vec3.toList], by decide +kernel⟩
  have hspells : SpellsPlane (lexemes text.toList) ⟨0.0, 0.0, 0.0⟩ normal := by
    have hword {w : List Char} {x : Float} (h : Number.finite? w = some x) :
        ∃ w', Lexeme.word w = .word w' ∧ Number.finite? w' = some x := ⟨w, rfl, h⟩
    have hzero : Number.finite? ['0'] = some 0.0 := by decide +kernel
    have hthree : Number.finite? ['3'] = some 3.0 := by decide +kernel
    have hfour : Number.finite? ['4'] = some 4.0 := by decide +kernel
    refine ⟨[.word ('+' :: "Plane".toList)],
      [.word ['0'], .word ['0'], .word ['0'], .word ['0'], .word ['3'], .word ['4']],
      ⟨.object, _, .glued (by decide), by decide +kernel⟩, ?_, by decide +kernel⟩
    exact .cons (hword hzero) (.cons (hword hzero) (.cons (hword hzero)
      (.cons (hword hzero) (.cons (hword hthree) (.cons (hword hfour) .nil)))))
  exact ⟨hcoordinates, hspells, hsome.2 hmeasured, (hparse 1 text (by decide) hspells).1 hmeasured⟩

/-- Normals that are finite and not zero, one so long and one so short that the square of the length
is lost. -/
theorem plane_refused :
    let long : Vec3 Float := ⟨1e200, 0.0, 0.0⟩
    let short : Vec3 Float := ⟨1e-200, 0.0, 0.0⟩
    (∀ normal ∈ [long, short], (∀ c ∈ normal.toList, c.isFinite = true) ∧
      (∃ c ∈ normal.toList, (c == 0.0) = false) ∧
      Solid.halfSpace? ⟨0.0, 0.0, 0.0⟩ normal = none) ∧
      parse 1 "[+ plane 0 0 0 1e200 0 0]" = .error (.rejected (.noDirection long) ⟨1, 24⟩) ∧
      parse 1 "[+ plane 0 0 0 1e-200 0 0]" = .error (.rejected (.noDirection short) ⟨1, 25⟩) := by
  decide +kernel

end Scene

end SolidScene
