import SolidScene.Proofs.Scene.Acceptance
import SolidScene.Proofs.Scene.Footprint
import SolidScene.Proofs.Source.Utf8

/-!
# Scenes from bytes

A scene is read from the bytes of a text as from the text itself. From bytes that encode no text
none is read: the outcome is the failure of decoding them, or a fault of every text that begins as
the bytes do (`Scene.ofEvents_decode`).
-/

namespace SolidScene

open Source (Event Signal Answers Delivers LongestText decode invalidUtf8 ofText)

theorem Read.Stepwise.whole (limit : ℕ) : Stepwise (fun _ => True) (whole limit) :=
  .bind (.construct trivial) fun s => .bind .expectEnd fun _ => .pure s

namespace Scene

variable {limit : ℕ}

theorem ofEvents_eq {events events' pulled rest : List Event}
    (h : Read.Footprint (Read.whole limit) (.ofEvents events) pulled)
    (ha : Answers events' pulled rest) : ofEvents limit events' = ofEvents limit events := by
  have hrun : Read.whole limit (.ofEvents events') = _ := h.run ha
  rw [ofEvents, hrun]
  rfl

/-- Ends that a source reports are like the end that it stays at. -/
theorem ofEvents_append_pauses (limit : ℕ) (events : List Event) (k : ℕ) :
    ofEvents limit (events ++ List.replicate k .pause) = ofEvents limit events := by
  obtain ⟨pulled, hfoot⟩ := (Read.Stepwise.whole limit).exists_footprint (.ofEvents events)
  obtain ⟨rest, ha⟩ := hfoot.answers.padded k
  exact ofEvents_eq hfoot ha

/-- A text that describes a scene no longer does so with one more bracket behind it. -/
theorem parse_append_closing {text : String} {s : Scene} (h : parse limit text = .ok s) :
    parse limit (text ++ "]") ≠ .ok s := by
  intro h'
  have hcount {t : String} (ht : parse limit t = .ok s) : t.toList.count ']' = s.nodeCount := by
    rw [← Text.count_lexemes .closing]
    exact (parse_eq_ok_iff.1 ht).count_eq .closing
  have hmore : (text ++ "]").toList.count ']' = text.toList.count ']' + 1 := by
    rw [String.toList_append, List.count_append]
    rfl
  rw [hcount h, hcount h'] at hmore
  omega

/-- Text and then a failure: reading comes to the failure or ends before with a fault of the text,
and then whatever text follows makes no difference. -/
theorem ofEvents_append_failure (limit : ℕ) (head : String) (cause : String) (more : List Event) :
    ofEvents limit (ofText head ++ .failure cause :: more) = .error (.unreadable cause) ∨
      ∃ e, (∀ cause', e ≠ .unreadable cause') ∧
        ofEvents limit (ofText head ++ .failure cause :: more) = .error e ∧
        ∀ text, parse limit (head ++ text) = .error e := by
  obtain ⟨pulled, hfoot⟩ := (Read.Stepwise.whole limit).exists_footprint
    (.ofEvents (ofText head ++ .failure cause :: more))
  have hcause (cause' : String) : ofEvents limit (ofText head ++ .failure cause :: more) =
      .error (.unreadable cause') ↔ .failure cause' ∈ pulled :=
    (hfoot.explains.failure_mem_iff.trans failureCause?_eq_some_iff).symm
  rcases hfoot.answers.isPrefix_or_mem with ⟨left, hleft⟩ | hmem
  · right
    have hclean (cause' : String) : .failure cause' ∉ pulled := fun hmem => by
      have hhead : Event.failure cause' ∈ ofText head :=
        hleft ▸ List.mem_append_left left hmem
      obtain ⟨c, -, ⟨⟩⟩ := List.mem_map.1 hhead
    have hsame (text : String) : parse limit (head ++ text) =
        ofEvents limit (ofText head ++ .failure cause :: more) := by
      have ha : Answers (ofText (head ++ text)) pulled (left ++ ofText text) := by
        have htext : ofText (head ++ text) = ofText head ++ ofText text := by
          rw [ofText, String.toList_append, List.map_append]
          rfl
        rw [htext, ← hleft, List.append_assoc]
        exact .of_append _ _
      exact ofEvents_eq hfoot ha
    rcases hout : ofEvents limit (ofText head ++ .failure cause :: more) with e | s
    · refine ⟨e, ?_, rfl, fun text => (hsame text).trans hout⟩
      rintro cause' rfl
      exact hclean cause' ((hcause cause').1 hout)
    · -- brackets would be balanced with and without one more
      have hhead : parse limit head = .ok s := by
        rw [← hout, ← hsame "", String.append_empty]
      exact absurd ((hsame "]").trans hout) (parse_append_closing hhead)
  · exact .inl ((hcause cause).2 hmem)

theorem ofEvents_decode_text (limit : ℕ) {signals : List Signal} {text : String}
    (h : Delivers signals text.toUTF8) : ofEvents limit (decode signals) = parse limit text := by
  obtain ⟨k, hk⟩ := h.decode_eq
  rw [hk, ofEvents_append_pauses, parse]

theorem exists_ofEvents_decode_error (limit : ℕ) {signals : List Signal} {bytes : ByteArray}
    (h : Delivers signals bytes) (hbytes : ¬ bytes.IsValidUTF8) : ∃ head, LongestText bytes head ∧
      (ofEvents limit (decode signals) = .error (.unreadable invalidUtf8) ∨
        ∃ e, (∀ cause, e ≠ .unreadable cause) ∧ ofEvents limit (decode signals) = .error e ∧
          ∀ text, parse limit (head ++ text) = .error e) := by
  obtain ⟨head, more, hlongest, hdecode⟩ := h.exists_failure hbytes
  refine ⟨head, hlongest, ?_⟩
  rw [hdecode]
  exact ofEvents_append_failure limit head invalidUtf8 more

/-- A scene is read from the bytes of a text as from the text, and from no other bytes. What is
wrong with other bytes is that they encode no text, or what is wrong with every text that begins
with the longest text at their front. -/
theorem ofEvents_decode (limit : ℕ) {signals : List Signal} {bytes : ByteArray}
    (h : Delivers signals bytes) :
    (∀ text : String, text.toUTF8 = bytes →
      ofEvents limit (decode signals) = parse limit text) ∧
    (∀ s, ofEvents limit (decode signals) = .ok s ↔
      ∃ text : String, text.toUTF8 = bytes ∧ parse limit text = .ok s) ∧
    (¬ bytes.IsValidUTF8 → ∃ head, LongestText bytes head ∧
      (ofEvents limit (decode signals) = .error (.unreadable invalidUtf8) ∨
        ∃ e, (∀ cause, e ≠ .unreadable cause) ∧ ofEvents limit (decode signals) = .error e ∧
          ∀ text, parse limit (head ++ text) = .error e)) := by
  have htext (text : String) (heq : text.toUTF8 = bytes) :
      ofEvents limit (decode signals) = parse limit text := by
    subst heq
    exact ofEvents_decode_text limit h
  refine ⟨htext, fun s => ⟨fun hs => ?_, ?_⟩, exists_ofEvents_decode_error limit h⟩
  · by_cases hbytes : bytes.IsValidUTF8
    · obtain ⟨cs, hcs⟩ := hbytes
      have heq : (String.ofList cs).toUTF8 = bytes := String.toByteArray_ofList.trans hcs.symm
      exact ⟨_, heq, (htext _ heq).symm.trans hs⟩
    · obtain ⟨head, -, herror | ⟨e, -, herror, -⟩⟩ :=
          exists_ofEvents_decode_error limit h hbytes <;>
        cases hs.symm.trans herror
  · rintro ⟨text, heq, hs⟩
    exact (htext text heq).trans hs

/-- A sphere from interrupted bytes, and a wrong tag before a character that is cut off. -/
theorem ofEvents_decode_interrupted :
    let sphere := "[+sphere 0 0 0 1]"
    let interrupted := sphere.toUTF8.data.toList.flatMap fun b => [.interruption, .byte b]
    let cut : ByteArray := ⟨#[0x5B, 0x78, 0xC3]⟩
    let broken := [.byte 0x5B, .interruption, .byte 0x78, .byte 0xC3, .pause]
    Delivers interrupted sphere.toUTF8 ∧
      ofEvents 1 (decode interrupted) = .ok (.sphere ⟨0.0, 0.0, 0.0⟩ 1.0) ∧
      Delivers broken cut ∧ ¬ cut.IsValidUTF8 ∧
      ofEvents 1 (decode broken) = .error (.rejected .missingTag ⟨1, 2⟩) ∧
      ∃ head, LongestText cut head ∧
        ∀ text, parse 1 (head ++ text) = .error (.rejected .missingTag ⟨1, 2⟩) := by
  intro sphere interrupted cut broken
  have hsphere : Delivers interrupted sphere.toUTF8 := ⟨0, by decide +kernel⟩
  have hparse : parse 1 sphere = .ok (.sphere ⟨0.0, 0.0, 0.0⟩ 1.0) := by decide +kernel
  have hbroken : Delivers broken cut := ⟨1, by decide +kernel⟩
  have hcut : ¬ cut.IsValidUTF8 := by decide +kernel
  have herror : ofEvents 1 (decode broken) = .error (.rejected .missingTag ⟨1, 2⟩) := by
    decide +kernel
  refine ⟨hsphere, ((ofEvents_decode 1 hsphere).1 sphere rfl).trans hparse, hbroken, hcut,
    herror, ?_⟩
  obtain ⟨head, hlongest, hfail | ⟨e, -, he, hall⟩⟩ := (ofEvents_decode 1 hbroken).2.2 hcut
  · cases hfail.symm.trans herror
  · cases he.symm.trans herror
    exact ⟨head, hlongest, hall⟩

end Scene

end SolidScene
