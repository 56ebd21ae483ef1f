import SolidScene.Proofs.Source.Utf8

/-!
# Bytes that encode no text

Bytes either begin with the encoding of a character or are ill-formed in one of six ways
(`IllFormed`), never both. So bytes are valid where no text at their front has ill-formed bytes
behind it, and else decoding gives the characters of that text and then fails (`untilEnd_decode`).
-/

namespace SolidScene.Source

/-! ## Forms -/

/-- The byte can only stand behind the first one of a sequence. -/
def Continues (b : UInt8) : Prop := 0x80 ≤ b.toNat ∧ b.toNat < 0xC0

instance : DecidablePred Continues := fun _ => inferInstanceAs (Decidable (_ ∧ _))

/-- What sequences of one width have in common: the first bytes reach from `first` to below `above`,
and `least` is the least number that needs so many bytes. -/
structure Width where
  first : ℕ
  above : ℕ
  least : ℕ

/-- The widths by the number of bytes behind the first. -/
def widths : List Width :=
  [⟨0x00, 0x80, 0⟩, ⟨0xC0, 0xE0, 0x80⟩, ⟨0xE0, 0xF0, 0x800⟩, ⟨0xF0, 0xF8, 0x10000⟩]

/-- The byte starts a sequence of this width. -/
def Width.Leads (w : Width) (a : UInt8) : Prop := w.first ≤ a.toNat ∧ a.toNat < w.above

instance (w : Width) : DecidablePred w.Leads := fun _ => inferInstanceAs (Decidable (_ ∧ _))

/-- Bytes in the form of an encoded character, and the number that their payloads spell. -/
inductive Form (w : Width) : List UInt8 → ℕ → Prop
  | mk {a : UInt8} {bs : List UInt8} (hw : widths[bs.length]? = some w) (ha : w.Leads a)
    (hbs : ∀ b ∈ bs, Continues b) :
    Form w (a :: bs) (bs.foldl (fun n b => n * 64 + (b.toNat - 0x80)) (a.toNat - w.first))

/-- Bytes that begin with no encoded character, by what is wrong with them. -/
inductive IllFormed : List UInt8 → Prop
  | stray {b : UInt8} {rest : List UInt8} (h : Continues b) : IllFormed (b :: rest)
  | noLead {b : UInt8} {rest : List UInt8} (h : 0xF8 ≤ b.toNat) : IllFormed (b :: rest)
  | truncated {w : Width} {a : UInt8} {n : ℕ} {bs rest : List UInt8} (hw : widths[n]? = some w)
    (ha : w.Leads a) (hbs : ∀ b ∈ bs, Continues b) (hshort : bs.length < n)
    (hrest : ∀ b ∈ rest.head?, ¬ Continues b) : IllFormed (a :: (bs ++ rest))
  | overlong {w : Width} {bytes rest : List UInt8} {value : ℕ} (h : Form w bytes value)
    (hvalue : value < w.least) : IllFormed (bytes ++ rest)
  | surrogate {w : Width} {bytes rest : List UInt8} {value : ℕ} (h : Form w bytes value)
    (hvalue : 0xD800 ≤ value ∧ value ≤ 0xDFFF) : IllFormed (bytes ++ rest)
  | tooLarge {w : Width} {bytes rest : List UInt8} {value : ℕ} (h : Form w bytes value)
    (hvalue : 0x10FFFF < value) : IllFormed (bytes ++ rest)

/-! ## Characters and their forms -/

theorem leads_unique {n n' : ℕ} {w w' : Width} {a : UInt8} (hw : widths[n]? = some w)
    (hw' : widths[n']? = some w') (ha : w.Leads a) (ha' : w'.Leads a) : n = n' := by
  unfold Width.Leads at ha ha'
  rcases n with _ | _ | _ | _ | n <;> cases hw <;> dsimp only at ha <;>
    rcases n' with _ | _ | _ | _ | n' <;> cases hw' <;> dsimp only at ha' <;> omega

theorem exists_leads {a : UInt8} (ha : ¬ Continues a) (hlt : a.toNat < 0xF8) :
    ∃ (n : ℕ) (w : Width), widths[n]? = some w ∧ w.Leads a := by
  unfold Continues at ha
  rcases Nat.lt_or_ge a.toNat 0x80 with h₁ | h₁
  · exact ⟨0, _, rfl, Nat.zero_le _, h₁⟩
  rcases Nat.lt_or_ge a.toNat 0xE0 with h₂ | h₂
  · exact ⟨1, _, rfl, by dsimp only; omega, h₂⟩
  rcases Nat.lt_or_ge a.toNat 0xF0 with h₃ | h₃
  · exact ⟨2, _, rfl, h₂, h₃⟩
  · exact ⟨3, _, rfl, h₃, hlt⟩

theorem Width.Leads.not_continues {n : ℕ} {w : Width} {a : UInt8} (ha : w.Leads a)
    (hw : widths[n]? = some w) : ¬ Continues a ∧ a.toNat < 0xF8 := by
  unfold Width.Leads at ha
  unfold Continues
  rcases n with _ | _ | _ | _ | n <;> cases hw <;> dsimp only at ha <;> omega

theorem Form.of_value {w : Width} {a : UInt8} {bs : List UInt8} {value : ℕ}
    (hw : widths[bs.length]? = some w) (ha : w.Leads a) (hbs : ∀ b ∈ bs, Continues b)
    (hvalue : bs.foldl (fun n b => n * 64 + (b.toNat - 0x80)) (a.toNat - w.first) = value) :
    Form w (a :: bs) value := hvalue ▸ .mk hw ha hbs

theorem form_utf8EncodeChar (c : Char) :
    ∃ w, Form w (String.utf8EncodeChar c) c.toNat ∧ w.least ≤ c.toNat := by
  have hlt := toNat_lt c
  have hvalue : c.toNat = c.val.toNat := rfl
  rw [hvalue] at hlt ⊢
  unfold String.utf8EncodeChar
  generalize c.val.toNat = v at hlt ⊢
  dsimp only
  split_ifs with h₁ h₂ h₃ <;> refine ⟨_, .of_value rfl ?_ ?_ ?_, ?_⟩ <;>
    simp only [Width.Leads, Continues, List.forall_mem_cons, List.not_mem_nil, List.foldl,
      UInt8.toNat_ofNat', false_imp_iff, forall_const, and_true] <;> omega

theorem ofNat_eq_of_toNat {b : UInt8} {n : ℕ} (h : n = b.toNat) : UInt8.ofNat n = b :=
  h ▸ UInt8.ofNat_toNat

theorem Form.exists_char {w : Width} {bytes : List UInt8} {value : ℕ} (h : Form w bytes value)
    (hleast : w.least ≤ value) (hvalid : value.isValidChar) :
    ∃ c, bytes = String.utf8EncodeChar c := by
  obtain ⟨c, hc⟩ : ∃ c : Char, c.val.toNat = value := ⟨.ofNatAux value hvalid, rfl⟩
  cases h with
  | @mk a bs hw ha hbs =>
    refine ⟨c, ?_⟩
    unfold String.utf8EncodeChar
    rw [hc]
    unfold Width.Leads at ha
    simp only [Continues] at hbs
    -- the number of bytes fixes the width, and the value gives each byte back
    rcases bs with _ | ⟨b₁, _ | ⟨b₂, _ | ⟨b₃, _ | ⟨b₄, bs⟩⟩⟩⟩ <;> cases hw <;>
      dsimp only [List.foldl] at ha hleast ⊢ <;>
      simp only [List.forall_mem_cons, List.not_mem_nil, false_imp_iff, forall_const,
        and_true] at hbs
    · rw [if_pos (by omega), ofNat_eq_of_toNat (b := a) (by omega)]
    · rw [if_neg (by omega), if_pos (by omega), ofNat_eq_of_toNat (b := a) (by omega),
        ofNat_eq_of_toNat (b := b₁) (by omega)]
    · rw [if_neg (by omega), if_neg (by omega), if_pos (by omega),
        ofNat_eq_of_toNat (b := a) (by omega), ofNat_eq_of_toNat (b := b₁) (by omega),
        ofNat_eq_of_toNat (b := b₂) (by omega)]
    · rw [if_neg (by omega), if_neg (by omega), if_neg (by omega),
        ofNat_eq_of_toNat (b := a) (by omega), ofNat_eq_of_toNat (b := b₁) (by omega),
        ofNat_eq_of_toNat (b := b₂) (by omega), ofNat_eq_of_toNat (b := b₃) (by omega)]

/-- Of two sequences at the front of the same bytes neither is longer, and they spell the same. -/
theorem Form.unique {w w' : Width} {bytes bytes' rest rest' : List UInt8} {value value' : ℕ}
    (h : Form w bytes value) (h' : Form w' bytes' value')
    (heq : bytes ++ rest = bytes' ++ rest') : w = w' ∧ bytes = bytes' ∧ value = value' := by
  cases h with
  | @mk a bs hw ha hbs =>
    cases h' with
    | @mk a' bs' hw' ha' hbs' =>
      rw [List.cons_append, List.cons_append, List.cons.injEq] at heq
      obtain ⟨rfl, heq⟩ := heq
      obtain ⟨rfl, -⟩ := List.append_inj heq (leads_unique hw hw' ha ha')
      obtain rfl := Option.some.inj (hw.symm.trans hw')
      exact ⟨rfl, rfl, rfl⟩

/-! ## One character or none -/

theorem Form.exists_char_or_illFormed {w : Width} {bytes : List UInt8} {value : ℕ}
    (h : Form w bytes value) (rest : List UInt8) :
    (∃ c, bytes = String.utf8EncodeChar c) ∨ IllFormed (bytes ++ rest) := by
  rcases Nat.lt_or_ge value w.least with hless | hleast
  · exact .inr (.overlong h hless)
  by_cases hsurrogate : 0xD800 ≤ value ∧ value ≤ 0xDFFF
  · exact .inr (.surrogate h hsurrogate)
  rcases Nat.lt_or_ge 0x10FFFF value with hlarge | hsmall
  · exact .inr (.tooLarge h hlarge)
  · exact .inl (h.exists_char hleast (by unfold Nat.isValidChar; omega))

theorem exists_continues_append (bytes : List UInt8) : ∃ bs rest, bytes = bs ++ rest ∧
    (∀ b ∈ bs, Continues b) ∧ ∀ b ∈ rest.head?, ¬ Continues b := by
  refine ⟨bytes.takeWhile (Continues ·), bytes.dropWhile (Continues ·),
    List.takeWhile_append_dropWhile.symm, fun b hb => ?_, fun b hb => ?_⟩
  · exact of_decide_eq_true (List.all_eq_true.1 List.all_takeWhile b hb)
  · have hnot := List.head?_dropWhile_not (Continues ·) bytes
    rw [Option.mem_def.1 hb] at hnot
    simpa using hnot

theorem exists_char_or_illFormed (a : UInt8) (bytes : List UInt8) :
    (∃ c rest, a :: bytes = String.utf8EncodeChar c ++ rest) ∨ IllFormed (a :: bytes) := by
  by_cases ha : Continues a
  · exact .inr (.stray ha)
  by_cases hlt : a.toNat < 0xF8
  · obtain ⟨n, w, hw, hleads⟩ := exists_leads ha hlt
    obtain ⟨bs, rest, rfl, hbs, hrest⟩ := exists_continues_append bytes
    rcases Nat.lt_or_ge bs.length n with hshort | hlong
    · exact .inr (.truncated hw hleads hbs hshort hrest)
    · have hwidth : widths[(bs.take n).length]? = some w := by rwa [List.length_take_of_le hlong]
      have hform := Form.mk hwidth hleads fun b hb => hbs b (List.mem_of_mem_take hb)
      have hsplit : a :: (bs ++ rest) = (a :: bs.take n) ++ (bs.drop n ++ rest) := by
        rw [List.cons_append, ← List.append_assoc, List.take_append_drop]
      rw [hsplit]
      exact (hform.exists_char_or_illFormed _).imp_left fun ⟨c, hc⟩ => ⟨c, _, by rw [hc]⟩
  · exact .inr (.noLead (Nat.not_lt.1 hlt))

theorem Form.not_illFormed {w : Width} {bytes : List UInt8} {value : ℕ} (h : Form w bytes value)
    (hleast : w.least ≤ value) (hvalid : value.isValidChar) (rest : List UInt8) :
    ¬ IllFormed (bytes ++ rest) := by
  intro hill
  unfold Nat.isValidChar at hvalid
  generalize hall : bytes ++ rest = all at hill
  cases hill with
  | stray hb =>
    cases h with
    | mk hw ha hbs =>
      cases hall
      exact (ha.not_continues hw).1 hb
  | noLead hb =>
    cases h with
    | mk hw ha hbs =>
      cases hall
      exact absurd hb (Nat.not_le.2 (ha.not_continues hw).2)
  | @truncated w' a' n bs' rest' hw' ha' hbs' hshort hrest =>
    cases h with
    | @mk a bs hw ha hbs =>
      rw [List.cons_append, List.cons.injEq] at hall
      obtain ⟨rfl, hall⟩ := hall
      obtain rfl := leads_unique hw hw' ha ha'
      -- the byte behind the shorter run is one of the longer
      have hmem := congrArg (·[bs'.length]?) hall
      simp only [List.getElem?_append_left hshort, List.getElem?_append_right (Nat.le_refl _),
        Nat.sub_self, ← List.head?_eq_getElem?, List.getElem?_eq_getElem hshort] at hmem
      exact hrest _ hmem.symm (hbs _ (List.getElem_mem hshort))
  | overlong h' hvalue | surrogate h' hvalue | tooLarge h' hvalue =>
    obtain ⟨rfl, -, rfl⟩ := h.unique h' hall
    omega

theorem not_illFormed_nil : ¬ IllFormed [] := by
  intro hill
  generalize hnil : ([] : List UInt8) = bytes at hill
  cases hill with
  | stray | noLead | truncated => cases hnil
  | overlong h | surrogate h | tooLarge h =>
    cases h with
    | mk => cases hnil

theorem not_illFormed_char (c : Char) (rest : List UInt8) :
    ¬ IllFormed (String.utf8EncodeChar c ++ rest) :=
  let ⟨_, hform, hleast⟩ := form_utf8EncodeChar c
  hform.not_illFormed hleast c.valid rest

/-! ## Texts and what is behind them -/

variable {signals : List Signal}

theorem encode_append (cs ds : List Char) : encode (cs ++ ds) = encode cs ++ encode ds :=
  List.flatMap_append

/-- What stands behind a text at the front of another one is a text. -/
theorem exists_append_of_encode_append {cs ds : List Char} {rest : List UInt8}
    (h : encode ds ++ rest = encode cs) : ∃ es, cs = ds ++ es ∧ rest = encode es := by
  have hdecode := congrArg (fun bytes => decode (bytes.map .byte ++ [])) h
  rw [List.map_append, List.append_assoc, decode_encode, decode_encode] at hdecode
  obtain ⟨ds', es, rfl, hds, -⟩ := List.map_eq_append_iff.1
    (hdecode.trans (List.append_nil _)).symm
  obtain rfl := List.map_injective_iff.2 (fun _ _ => Event.char.inj) hds
  rw [encode_append] at h
  exact ⟨es, rfl, List.append_cancel_left h⟩

theorem prefix_of_toUTF8_prefix {text text' : String}
    (h : text.toUTF8.data.toList <+: text'.toUTF8.data.toList) : text.toList <+: text'.toList := by
  obtain ⟨rest, h⟩ := h
  rw [data_toUTF8, data_toUTF8] at h
  obtain ⟨es, hes, -⟩ := exists_append_of_encode_append h
  exact ⟨es, hes.symm⟩

theorem longestText_toUTF8 (text : String) : LongestText text.toUTF8 text where
  starts := List.prefix_rfl
  longest _ := prefix_of_toUTF8_prefix

theorem delivers_map_byte (bytes : ByteArray) : Delivers (bytes.data.toList.map .byte) bytes := by
  refine ⟨0, ?_⟩
  rw [List.filter_eq_self.2 (by simp), List.replicate_zero, List.append_nil]

theorem isValidUTF8_iff {bytes : ByteArray} :
    bytes.IsValidUTF8 ↔ ∃ cs, bytes.data.toList = encode cs := by
  refine ⟨fun ⟨cs, h⟩ => ⟨cs, ?_⟩, fun ⟨cs, h⟩ => ⟨cs, ByteArray.ext (Array.toList_inj.1 ?_)⟩⟩
  · rw [h]
    exact List.toList_data_toByteArray
  · rw [h]
    exact List.toList_data_toByteArray.symm

/-- Bytes are valid where no text at their front has ill-formed ones behind it. -/
theorem not_isValidUTF8_iff {bytes : ByteArray} : ¬ bytes.IsValidUTF8 ↔
    ∃ (text : String) (rest : List UInt8),
      bytes.data.toList = text.toUTF8.data.toList ++ rest ∧ IllFormed rest := by
  constructor
  · intro h
    obtain ⟨head, -, ⟨⟨rest, hrest⟩, hlongest⟩, -⟩ :=
      (delivers_map_byte bytes).exists_failure h
    refine ⟨head, rest, hrest.symm, ?_⟩
    cases rest with
    | nil =>
      refine absurd (isValidUTF8_iff.2 ⟨head.toList, ?_⟩) h
      rw [← hrest, data_toUTF8, List.append_nil]
    | cons a rest =>
      refine (exists_char_or_illFormed a rest).resolve_left fun ⟨c, back, hc⟩ => ?_
      have hprefix := hlongest (head.push c) ⟨back, by
        rw [← hrest, hc, data_toUTF8, data_toUTF8, String.toList_push, encode_append,
          List.append_assoc, encode_cons, List.append_assoc]; rfl⟩
      have hlength := hprefix.length_le
      rw [String.toList_push, List.length_append] at hlength
      exact absurd hlength (by simp)
  · rintro ⟨text, rest, hbytes, hill⟩ hvalid
    obtain ⟨cs, hcs⟩ := isValidUTF8_iff.1 hvalid
    rw [data_toUTF8] at hbytes
    obtain ⟨es, -, rfl⟩ := exists_append_of_encode_append (hbytes.symm.trans hcs)
    cases es with
    | nil => exact not_illFormed_nil hill
    | cons c es =>
      rw [encode_cons] at hill
      exact not_illFormed_char c _ hill

/-! ## Up to the end -/

/-- The characters up to the first event that is none, and the cause of that event where it is a
failure. -/
def untilEnd : List Event → List Char × Option String
  | [] => ([], none)
  | .char c :: events => ((c :: (untilEnd events).1), (untilEnd events).2)
  | .failure cause :: _ => ([], some cause)
  | .pause :: _ => ([], none)

theorem untilEnd_chars (cs : List Char) (events : List Event) :
    untilEnd (cs.map .char ++ events) = (cs ++ (untilEnd events).1, (untilEnd events).2) := by
  induction cs with
  | nil => rfl
  | cons c cs ih => rw [List.map_cons, List.cons_append, untilEnd, ih, List.cons_append]

theorem untilEnd_pauses (k : ℕ) : untilEnd (List.replicate k .pause) = ([], none) := by
  cases k <;> rfl

/-- The character among the events comes from its own bytes among the signals, and what is before
and behind it from the signals before and behind those. -/
def Brings (signals : List Signal) (before : List Event) (c : Char) (after : List Event) : Prop :=
  ∃ front back, signals = front ++ (String.utf8EncodeChar c).map .byte ++ back ∧
    decode front = before ∧ decode back = after

theorem eventOfBytes_eq_char {bytes : List UInt8} (h : eventOfBytes bytes = .char c) :
    bytes = String.utf8EncodeChar c := by
  unfold eventOfBytes at h
  split at h
  · next hc =>
    cases h
    exact charOfBytes?_eq_some_iff.1 hc
  · cases h

variable {e : Event} {before after : List Event} {c : Char} {taken : List UInt8} {missing : ℕ}

/-- Signals that make up one event stand in front of the others. -/
theorem brings_append {piece : List Signal}
    (hpiece : ∀ more, decode (piece ++ more) = e :: decode more)
    (hchar : ∀ c, e = .char c → piece = (String.utf8EncodeChar c).map .byte)
    (ih : ∀ before, decode signals = before ++ .char c :: after → Brings signals before c after)
    (h : decode (piece ++ signals) = before ++ .char c :: after) :
    Brings (piece ++ signals) before c after := by
  rw [hpiece] at h
  cases before with
  | nil =>
    obtain ⟨rfl, hafter⟩ := List.cons.inj h
    exact ⟨[], signals, by rw [hchar c rfl, List.nil_append], rfl, hafter⟩
  | cons e' before =>
    obtain ⟨rfl, hbehind⟩ := List.cons.inj h
    obtain ⟨front, back, rfl, rfl, hback⟩ := ih before hbehind
    exact ⟨piece ++ front, back, by simp only [List.append_assoc], hpiece front, hback⟩

/-- The machine is in this state when it has taken these bytes. -/
def Reached (taken : List UInt8) (missing : ℕ) : Prop :=
  ∀ more, decode (taken.map .byte ++ more) = decodeFrom taken missing more

theorem reached_start : Reached [] 0 := fun _ => rfl

theorem Reached.decode_cons (h : Reached taken missing) {signal : Signal}
    (hsignal : ∀ more, decodeFrom taken missing (signal :: more) = e :: decode more)
    (more : List Signal) : decode ((taken.map .byte ++ [signal]) ++ more) = e :: decode more := by
  rw [List.append_assoc, h]
  exact hsignal more

theorem Reached.brings (hstate : Reached taken missing) (hclean : .interruption ∉ signals)
    (h : decode (taken.map .byte ++ signals) = before ++ .char c :: after) :
    Brings (taken.map .byte ++ signals) before c after := by
  induction signals generalizing taken missing before with
  | nil =>
    rw [hstate, decodeFrom] at h
    split at h
    · exact absurd h.symm (List.append_ne_nil_of_right_ne_nil _ (List.cons_ne_nil _ _))
    · obtain ⟨-, ⟨⟩⟩ | ⟨_, -, hnil⟩ := List.cons_eq_append_iff.1 h
      exact absurd hnil.symm (List.append_ne_nil_of_right_ne_nil _ (List.cons_ne_nil _ _))
  | cons signal signals ih =>
    have hclean' := List.not_mem_of_not_mem_cons hclean
    have ih' (before) : decode signals = before ++ .char c :: after →
        Brings signals before c after := ih reached_start hclean'
    cases signal with
    | interruption => simp at hclean
    | failure cause =>
      rw [List.append_cons] at h ⊢
      refine brings_append (hstate.decode_cons fun _ => rfl) (fun _ he => ?_) ih' h
      cases he
    | pause =>
      rw [List.append_cons] at h ⊢
      refine brings_append (hstate.decode_cons fun _ => rfl) (fun _ he => ?_) ih' h
      split at he <;> cases he
    | byte b =>
      obtain ⟨width, hwidth⟩ : ∃ width,
        (if taken.isEmpty then continuations? b else some (missing - 1)) = width := ⟨_, rfl⟩
      rw [List.append_cons] at h ⊢
      cases width with
      | none =>
        refine brings_append (hstate.decode_cons fun _ => by rw [decodeFrom, hwidth]; rfl)
          (fun _ he => ?_) ih' h
        cases he
      | some n =>
        cases n with
        | zero =>
          refine brings_append (hstate.decode_cons fun _ => by rw [decodeFrom, hwidth]; rfl)
            (fun c he => ?_) ih' h
          rw [← eventOfBytes_eq_char he, List.map_append]
          rfl
        | succ n =>
          have hnext : Reached (taken ++ [b]) (n + 1) := fun more => by
            rw [List.map_append, List.append_assoc, hstate]
            change decodeFrom taken missing (.byte b :: more) = _
            rw [decodeFrom, hwidth]
          rw [← List.map_singleton, ← List.map_append] at h ⊢
          exact ih hnext hclean' h

/-- Every byte sequence is decoded to the longest text that it begins with. Then the input ends if
that is all of it, and decoding fails if it is not, which is where ill-formed bytes stand behind
some text. No character, also behind a failure, comes from other bytes than its own. -/
theorem untilEnd_decode {bytes : ByteArray} (h : Delivers signals bytes) :
    (∃ head, LongestText bytes head ∧ untilEnd (decode signals) =
      (head.toList, if bytes.IsValidUTF8 then none else some invalidUtf8)) ∧
    (¬ bytes.IsValidUTF8 ↔ ∃ (text : String) (rest : List UInt8),
      bytes.data.toList = text.toUTF8.data.toList ++ rest ∧ IllFormed rest) ∧
    ∀ before c after, decode signals = before ++ .char c :: after →
      Brings (signals.filter (· ≠ .interruption)) before c after := by
  refine ⟨?_, not_isValidUTF8_iff, fun before c after hdecode => ?_⟩
  · by_cases hvalid : bytes.IsValidUTF8
    · obtain ⟨cs, hcs⟩ := hvalid
      obtain rfl : bytes = (String.ofList cs).toUTF8 := by
        rw [hcs, String.toUTF8, ← String.utf8Encode_toList, String.toList_ofList]
      obtain ⟨k, hdecode⟩ := h.decode_eq
      refine ⟨_, longestText_toUTF8 _, ?_⟩
      rw [hdecode, ofText, untilEnd_chars, untilEnd_pauses, List.append_nil, if_pos ⟨cs, hcs⟩]
    · obtain ⟨head, more, hlongest, hdecode⟩ := h.exists_failure hvalid
      refine ⟨head, hlongest, ?_⟩
      rw [hdecode, ofText, untilEnd_chars, untilEnd, List.append_nil, if_neg hvalid]
  · rw [← decode_filter] at hdecode
    exact reached_start.brings (by simp) hdecode

theorem untilEnd_decode_overlong :
    let signals := [0x61, 0xC0, 0x80, 0x62].map Signal.byte ++ [.pause]
    let bytes : ByteArray := ⟨#[0x61, 0xC0, 0x80, 0x62]⟩
    Delivers signals bytes ∧ LongestText bytes "a" ∧ ¬ bytes.IsValidUTF8 ∧
      Brings signals [.char 'a', .failure invalidUtf8] 'b' [.pause] := by
  intro signals bytes
  have h : Delivers signals bytes := ⟨1, by decide⟩
  obtain ⟨⟨head, hhead, huntil⟩, hinvalid, hbrings⟩ := untilEnd_decode h
  have hrun : untilEnd (decode signals) = (['a'], some invalidUtf8) := by decide +kernel
  obtain rfl : head = "a" :=
    String.toList_inj.1 (congrArg Prod.fst (huntil.symm.trans hrun))
  have hform : Form ⟨0xC0, 0xE0, 0x80⟩ [0xC0, 0x80] 0 :=
    .of_value rfl (by decide) (List.forall_mem_singleton.2 (by decide)) (by decide)
  have hsplit : bytes.data.toList = "a".toUTF8.data.toList ++ [0xC0, 0x80, 0x62] := by
    decide +kernel
  exact ⟨h, hhead, hinvalid.2 ⟨"a", _, hsplit, .overlong hform (by decide)⟩,
    hbrings _ _ _ (by decide +kernel)⟩

end SolidScene.Source
