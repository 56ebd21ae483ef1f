import Mathlib.Data.List.Basic
import SolidScene.Source.Utf8

/-!
# Decoding

Decoding undoes UTF-8: the bytes of a text are decoded to its characters, whatever comes behind them
(`decode_encode`). Bytes that encode no text are decoded to the longest text that they begin with
and then to a failure (`Delivers.exists_failure`).
-/

namespace SolidScene.Source

/-! ## Characters -/

theorem continuations?_ofNat {n : ℕ} (h : n < 256) : continuations? (UInt8.ofNat n) =
    if n < 0x80 then some 0 else if n < 0xC0 then none else if n < 0xE0 then some 1
    else if n < 0xF0 then some 2 else if n < 0xF8 then some 3 else none := by
  simp only [continuations?, UInt8.lt_iff_toNat_lt, UInt8.toNat_ofNat', Nat.mod_eq_of_lt h]
  rfl

theorem toNat_lt (c : Char) : c.toNat < 0x110000 := by
  have hvalid := c.valid
  unfold UInt32.isValidChar Nat.isValidChar at hvalid
  have heq : c.toNat = c.val.toNat := rfl
  omega

/-- The first byte of a character announces the others, and the bytes spell its number. -/
theorem exists_utf8EncodeChar_eq (c : Char) : ∃ b bs, String.utf8EncodeChar c = b :: bs ∧
    continuations? b = some bs.length ∧ scalarValue (b :: bs) = c.toNat := by
  have hlt := toNat_lt c
  have hvalue : c.toNat = c.val.toNat := rfl
  rw [hvalue] at hlt ⊢
  unfold String.utf8EncodeChar
  generalize c.val.toNat = v at hlt ⊢
  dsimp only
  split_ifs with h₁ h₂ h₃
  · refine ⟨_, _, rfl, ?_, ?_⟩
    · rw [continuations?_ofNat (by omega), if_pos (by omega)]
      rfl
    · simp only [scalarValue, List.foldl, List.length, UInt8.toNat_ofNat']
      omega
  · refine ⟨_, _, rfl, ?_, ?_⟩
    · rw [continuations?_ofNat (by omega), if_neg (by omega), if_neg (by omega), if_pos (by omega)]
      rfl
    · simp only [scalarValue, List.foldl, List.length, UInt8.toNat_ofNat']
      omega
  · refine ⟨_, _, rfl, ?_, ?_⟩
    · rw [continuations?_ofNat (by omega), if_neg (by omega), if_neg (by omega),
        if_neg (by omega), if_pos (by omega)]
      rfl
    · simp only [scalarValue, List.foldl, List.length, UInt8.toNat_ofNat']
      omega
  · refine ⟨_, _, rfl, ?_, ?_⟩
    · rw [continuations?_ofNat (by omega), if_neg (by omega), if_neg (by omega),
        if_neg (by omega), if_neg (by omega), if_pos (by omega)]
      rfl
    · simp only [scalarValue, List.foldl, List.length, UInt8.toNat_ofNat']
      omega

theorem charOfBytes?_eq_some_iff {bytes : List UInt8} {c : Char} :
    charOfBytes? bytes = some c ↔ bytes = String.utf8EncodeChar c := by
  constructor
  · intro h
    simp only [charOfBytes?, Option.ite_none_right_eq_some, Option.some.injEq] at h
    rw [← h.2, h.1]
  · rintro rfl
    obtain ⟨b, bs, hc, -, hvalue⟩ := exists_utf8EncodeChar_eq c
    rw [charOfBytes?, hc, hvalue, Char.ofNat_toNat, if_pos hc]

/-! ## The machine -/

variable {taken bs : List UInt8} {b : UInt8} {signals : List Signal}

theorem decode_filter (signals : List Signal) :
    decode (signals.filter (· ≠ .interruption)) = decode signals := by
  unfold decode
  generalize ([] : List UInt8) = taken, 0 = missing
  induction signals generalizing taken missing with
  | nil => rfl
  | cons signal signals ih =>
    cases signal with
    | interruption => exact ih taken missing
    | byte | failure | pause =>
      rw [List.filter_cons_of_pos (by simp)]
      simp only [decodeFrom, ih]

theorem decode_byte (b : UInt8) (signals : List Signal) :
    decode (.byte b :: signals) = match continuations? b with
      | none => .failure invalidUtf8 :: decode signals
      | some 0 => eventOfBytes [b] :: decode signals
      | some (n + 1) => decodeFrom [b] (n + 1) signals := rfl

theorem decodeFrom_bytes (htaken : taken ≠ []) (hbs : bs ≠ []) (signals : List Signal) :
    decodeFrom taken bs.length (bs.map .byte ++ signals) =
      eventOfBytes (taken ++ bs) :: decode signals := by
  induction bs generalizing taken with
  | nil => exact absurd rfl hbs
  | cons b bs ih =>
    rw [List.map_cons, List.cons_append, decodeFrom, if_neg (by simpa using htaken)]
    cases bs with
    | nil => rfl
    | cons b' bs =>
      refine (ih (List.append_ne_nil_of_right_ne_nil _ (by simp)) (by simp)).trans ?_
      rw [List.append_assoc, List.singleton_append]

theorem decodeFrom_short (htaken : taken ≠ []) {missing : ℕ} (h : bs.length < missing) (k : ℕ) :
    ∃ more, decodeFrom taken missing (bs.map .byte ++ List.replicate k .pause) =
      .failure invalidUtf8 :: more := by
  have hempty : taken.isEmpty ≠ true := by simpa using htaken
  induction bs generalizing taken missing with
  | nil =>
    cases k with
    | zero => exact ⟨[], if_neg hempty⟩
    | succ k => exact ⟨_, by rw [List.replicate_succ, List.map_nil, List.nil_append, decodeFrom,
        if_neg hempty]⟩
  | cons b bs ih =>
    obtain ⟨n, rfl⟩ : ∃ n, missing = n + 2 := ⟨missing - 2, by simp at h; omega⟩
    rw [List.map_cons, List.cons_append, decodeFrom, if_neg hempty]
    exact ih (List.append_ne_nil_of_right_ne_nil _ (by simp)) (by simp at h ⊢; omega) (by simp)

/-- A first byte and the bytes that it announces make up one event. -/
theorem decode_of_width (h : continuations? b = some bs.length) (signals : List Signal) :
    decode ((b :: bs).map .byte ++ signals) = eventOfBytes (b :: bs) :: decode signals := by
  rw [List.map_cons, List.cons_append, decode_byte, h]
  cases bs with
  | nil => rfl
  | cons b' bs => exact decodeFrom_bytes (List.cons_ne_nil b []) (List.cons_ne_nil b' bs) signals

theorem decode_char (c : Char) (signals : List Signal) :
    decode ((String.utf8EncodeChar c).map .byte ++ signals) = .char c :: decode signals := by
  obtain ⟨b, bs, hc, hwidth, -⟩ := exists_utf8EncodeChar_eq c
  rw [hc, decode_of_width hwidth, ← hc, eventOfBytes, charOfBytes?_eq_some_iff.2 rfl]

theorem decode_bytes (b : UInt8) (bs : List UInt8) (k : ℕ) :
    (∃ c rest, b :: bs = String.utf8EncodeChar c ++ rest) ∨
      ∃ more, decode ((b :: bs).map .byte ++ List.replicate k .pause) =
        .failure invalidUtf8 :: more := by
  cases hwidth : continuations? b with
  | none => exact .inr ⟨_, by rw [List.map_cons, List.cons_append, decode_byte, hwidth]⟩
  | some n =>
    by_cases hn : n ≤ bs.length
    · have htake : continuations? b = some (bs.take n).length := by
        rw [hwidth, List.length_take_of_le hn]
      have hrun := decode_of_width htake ((bs.drop n).map .byte ++ List.replicate k .pause)
      rw [← List.append_assoc, ← List.map_append, List.cons_append, List.take_append_drop] at hrun
      cases hc : charOfBytes? (b :: bs.take n) with
      | none => exact .inr ⟨_, hrun.trans (by rw [eventOfBytes, hc])⟩
      | some c =>
        refine .inl ⟨c, bs.drop n, ?_⟩
        rw [← charOfBytes?_eq_some_iff.1 hc, List.cons_append, List.take_append_drop]
    · obtain ⟨m, rfl⟩ : ∃ m, n = m + 1 := ⟨n - 1, by omega⟩
      obtain ⟨more, hmore⟩ := decodeFrom_short (List.cons_ne_nil b []) (Nat.lt_of_not_le hn) k
      refine .inr ⟨more, ?_⟩
      rw [List.map_cons, List.cons_append, decode_byte, hwidth]
      exact hmore

/-! ## Texts -/

/-- The bytes that encode some characters. -/
def encode (cs : List Char) : List UInt8 := cs.flatMap String.utf8EncodeChar

theorem encode_cons (c : Char) (cs : List Char) :
    encode (c :: cs) = String.utf8EncodeChar c ++ encode cs := List.flatMap_cons

theorem data_toUTF8 (text : String) : text.toUTF8.data.toList = encode text.toList := by
  rw [String.toUTF8, ← String.utf8Encode_toList]
  exact List.toList_data_toByteArray

/-- The bytes of a text are decoded to its characters. -/
theorem decode_encode (cs : List Char) (signals : List Signal) :
    decode ((encode cs).map .byte ++ signals) = cs.map .char ++ decode signals := by
  induction cs with
  | nil => rfl
  | cons c cs ih =>
    rw [encode_cons, List.map_append, List.append_assoc, decode_char, ih]
    rfl

theorem decode_pauses (k : ℕ) : decode (List.replicate k .pause) = List.replicate k .pause := by
  induction k with
  | zero => rfl
  | succ k ih => exact congrArg (List.cons .pause) ih

/-- Bytes are decoded to the characters that they begin with, and the others to a failure. -/
theorem exists_encode_append (bytes : List UInt8) (k : ℕ) :
    ∃ head rest, bytes = encode head ++ rest ∧ (rest = [] ∨
      ∃ more,
        decode (rest.map .byte ++ List.replicate k .pause) = .failure invalidUtf8 :: more) := by
  -- a character takes up one byte at least, so fewer bytes are left behind it
  induction hn : bytes.length using Nat.strongRecOn generalizing bytes with
  | ind n ih =>
    cases bytes with
    | nil => exact ⟨[], [], rfl, .inl rfl⟩
    | cons b bs =>
      rcases decode_bytes b bs k with ⟨c, rest, hbytes⟩ | hfailure
      · have hlt : rest.length < n := by
          have hne := List.length_pos_of_ne_nil (String.utf8EncodeChar_ne_nil (c := c))
          rw [← hn, hbytes, List.length_append]
          omega
        obtain ⟨head, rest', rfl, hrest⟩ := ih _ hlt rest rfl
        exact ⟨c :: head, rest', by rw [hbytes, encode_cons, List.append_assoc], hrest⟩
      · exact ⟨[], b :: bs, rfl, .inr hfailure⟩

/-- The source delivers these bytes, with interruptions anywhere, and then reports the end as often
as it is asked. -/
def Delivers (signals : List Signal) (bytes : ByteArray) : Prop :=
  ∃ k, signals.filter (· ≠ .interruption) = bytes.data.toList.map .byte ++ List.replicate k .pause

/-- The longest text that the bytes begin with. -/
structure LongestText (bytes : ByteArray) (head : String) : Prop where
  starts : head.toUTF8.data.toList <+: bytes.data.toList
  longest : ∀ text : String, text.toUTF8.data.toList <+: bytes.data.toList →
    text.toList <+: head.toList

theorem Delivers.decode_eq {text : String} (h : Delivers signals text.toUTF8) :
    ∃ k, decode signals = ofText text ++ List.replicate k .pause := by
  obtain ⟨k, h⟩ := h
  refine ⟨k, ?_⟩
  rw [← decode_filter, h, data_toUTF8, decode_encode, decode_pauses]
  rfl

theorem isPrefix_of_append_failure {cs ds : List Char} {events more : List Event} {cause : String}
    (h : cs.map .char ++ events = ds.map .char ++ .failure cause :: more) : cs <+: ds := by
  induction cs generalizing ds with
  | nil => exact List.nil_prefix
  | cons c cs ih =>
    cases ds with
    | nil => cases h
    | cons d ds =>
      obtain ⟨hhead, htail⟩ := List.cons.inj h
      cases hhead
      exact List.cons_prefix_cons.2 ⟨rfl, ih htail⟩

/-- Other bytes are decoded to the longest text that they begin with and a failure. -/
theorem Delivers.exists_failure {bytes : ByteArray} (h : Delivers signals bytes)
    (hbytes : ¬ bytes.IsValidUTF8) : ∃ head more, LongestText bytes head ∧
      decode signals = ofText head ++ .failure invalidUtf8 :: more := by
  obtain ⟨k, h⟩ := h
  obtain ⟨head, rest, hsplit, hrest⟩ := exists_encode_append bytes.data.toList k
  have hdecode : decode signals =
      head.map .char ++ decode (rest.map .byte ++ List.replicate k .pause) := by
    rw [← decode_filter, h, hsplit, List.map_append, List.append_assoc, decode_encode]
  rcases hrest with rfl | ⟨more, hmore⟩
  · refine absurd (ByteArray.IsValidUTF8.intro head (ByteArray.ext (Array.toList_inj.1 ?_))) hbytes
    rw [hsplit, List.append_nil]
    exact List.toList_data_toByteArray.symm
  · rw [hmore] at hdecode
    refine ⟨String.ofList head, more, ⟨?_, fun text ⟨back, htext⟩ => ?_⟩, ?_⟩
    · rw [data_toUTF8, String.toList_ofList, hsplit]
      exact List.prefix_append _ _
    · rw [data_toUTF8] at htext
      rw [String.toList_ofList]
      have htext : decode signals = text.toList.map .char ++
          decode (back.map .byte ++ List.replicate k .pause) := by
        rw [← decode_filter, h, ← htext, List.map_append, List.append_assoc, decode_encode]
      exact isPrefix_of_append_failure (htext.symm.trans hdecode)
    · rw [hdecode, ofText, String.toList_ofList]

end SolidScene.Source
