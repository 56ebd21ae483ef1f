import SolidScene.Proofs.Json.Reading
import SolidScene.Proofs.Json.Record
import SolidScene.Proofs.Json.Writing
import SolidScene.Settings

/-!
# Settings are kept

Settings are read from every JSON text that keeps them: as they are written, with the members in
another order, spelled otherwise or among others, and with what has its default left out. A text
that gives a setting twice is refused (`read_of_keeps`).
-/

namespace SolidScene.Settings

open Json (Record Repeated fields?_of_record fields?_of_repeated member_of_value numeral_toDigits
  pieces_escape points_toNat quoted_of_points quoted_quote value_objectText)
open Json.Grammar (Value Element Blanks Piece Points Quoted)

/-- The value of a member that may be left out. -/
inductive Kept (holds : Json → Prop) (atDefault : Prop) : Option Json → Prop
  | given {v : Json} (h : holds v) : Kept holds atDefault (some v)
  | leftOut (h : atDefault) : Kept holds atDefault none

/-- The value is this whole number in its digits. -/
def IsWord (n : ℕ) (v : Json) : Prop := v = .number (Nat.toDigits 10 n)

/-- The object keeps the nesting limit. -/
def KeepsMaxDepth (n : ℕ) (v : Json) : Prop :=
  ∃ maxDepth, Record ["max_depth"] [maxDepth] v ∧
    Kept (IsWord n) (n = default.maxDepth) maxDepth

/-- The object keeps the settings. -/
def Keeps (s : Settings) (v : Json) : Prop :=
  ∃ parser logFilter precision,
    Record ["parser", "log_filter", "precision"] [parser, logFilter, precision] v ∧
    Kept (KeepsMaxDepth s.maxDepth) (s.maxDepth = default.maxDepth) parser ∧
    Kept (· = .string (some s.logFilter)) (s.logFilter = default.logFilter) logFilter ∧
    Kept (IsWord s.precision) (s.precision = default.precision) precision

/-- A setting is given twice in its object. -/
inductive Repeats : Json → Prop
  | setting {key : String} {members : List Json.Member}
    (hkey : key ∈ ["parser", "log_filter", "precision"]) (h : Repeated key members) :
    Repeats (.object members)
  | maxDepth {members inner : List Json.Member}
    (hparser : (some "parser", .object inner) ∈ members) (h : Repeated "max_depth" inner) :
    Repeats (.object members)

/-! ## Settings from values -/

theorem word?_of_isWord {n : ℕ} (hn : n < UInt64.size) {v : Json} (h : IsWord n v) :
    Json.word? v = some n := by
  have hdigits : (Nat.toDigits 10 n).all Char.isDigit = true :=
    List.all_eq_true.2 fun c hc => Number.isDigit_of_mem_toDigits hc
  have hvalue : (Nat.toDigits 10 n).foldl (fun n c => 10 * n + (c.toNat - '0'.toNat)) 0 = n :=
    Number.natOfDigits_toDigits n
  rw [h, Json.word?, if_pos hdigits, hvalue]
  exact if_pos hn

theorem orDefault_of_kept {α : Type} {read : Json → Option α} {holds : Json → Prop} {a d : α}
    (hread : ∀ v, holds v → read v = some a) {v? : Option Json} (h : Kept holds (a = d) v?) :
    orDefault read d v? = some a := by
  cases h with
  | given h => exact hread _ h
  | leftOut h => exact congrArg some h.symm

theorem maxDepthOfJson?_of_keeps {n : ℕ} (hn : n < UInt64.size) {v : Json}
    (h : KeepsMaxDepth n v) : maxDepthOfJson? v = some n := by
  obtain ⟨maxDepth, hrecord, hkept⟩ := h
  rw [maxDepthOfJson?, fields?_of_record (by decide) rfl hrecord]
  exact orDefault_of_kept (fun v => word?_of_isWord hn) hkept

theorem ofJson?_of_keeps {s : Settings} (hdepth : s.maxDepth < UInt64.size)
    (hprecision : s.precision < UInt64.size) {v : Json} (h : Keeps s v) : ofJson? v = some s := by
  obtain ⟨parser, logFilter, precision, hrecord, hparser, hlog, hplaces⟩ := h
  have hparser := orDefault_of_kept (fun v => maxDepthOfJson?_of_keeps hdepth) hparser
  have hlog : orDefault Json.text? default.logFilter logFilter = some s.logFilter :=
    orDefault_of_kept (fun v hv => hv ▸ rfl) hlog
  have hplaces := orDefault_of_kept (fun v => word?_of_isWord hprecision) hplaces
  rw [ofJson?, fields?_of_record (by decide) rfl hrecord]
  simp only [hparser, hlog, hplaces]
  rfl

theorem ofJson?_of_repeats {v : Json} (h : Repeats v) : ofJson? v = none := by
  cases h with
  | setting hkey h => rw [ofJson?, fields?_of_repeated hkey h]
  | @maxDepth members inner hparser h =>
    have hinner : maxDepthOfJson? (.object inner) = none := by
      rw [maxDepthOfJson?, fields?_of_repeated List.mem_cons_self h]
    rw [ofJson?, Json.fields?]
    split_ifs
    · rcases Json.field?_of_mem hparser with hfield | hfield
      · -- what is read for the other fields makes no difference
        rw [List.mapM_cons, List.mapM_cons, List.mapM_cons, List.mapM_nil, hfield]
        cases Json.field? members "log_filter" with
        | none => rfl
        | some logFilter =>
          cases Json.field? members "precision" with
          | none => rfl
          | some precision => simp [orDefault, hinner]
      · rw [List.mapM_cons, hfield]
        rfl
    · rfl

/-! ## The text of settings -/

theorem exists_value_text (s : Settings) : ∃ v, Keeps s v ∧ Value v s.text.toList := by
  let inner : List Json.Member := [(some "max_depth", .number (Nat.toDigits 10 s.maxDepth))]
  let members : List Json.Member :=
    [(some "parser", .object inner), (some "log_filter", .string (some s.logFilter)),
      (some "precision", .number (Nat.toDigits 10 s.precision))]
  have hnone (keys : List String) : Json.Others keys [] := List.forall_mem_nil _
  have hinner : KeepsMaxDepth s.maxDepth (.object inner) :=
    ⟨some _, .mk (hnone _) (.refl _), .given rfl⟩
  have hinnerText : Value (.object inner)
      (Json.objectText [("max_depth", Nat.toDigits 10 s.maxDepth)]) :=
    value_objectText (.cons ⟨rfl, .number (numeral_toDigits _)⟩ .nil) (List.cons_ne_nil _ _)
  refine ⟨.object members, ⟨some _, some _, some _, .mk (hnone _) (.refl _), .given hinner,
    .given rfl, .given rfl⟩, ?_⟩
  rw [text, String.toList_ofList]
  exact value_objectText (.cons ⟨rfl, hinnerText⟩ (.cons ⟨rfl, .string (quoted_quote _)⟩
    (.cons ⟨rfl, .number (numeral_toDigits _)⟩ .nil))) (List.cons_ne_nil _ _)

/-- Settings are read back from their text, and from every JSON text of an object that keeps them.
No settings are read where one is given twice. -/
theorem read_of_keeps :
    (∀ s : Settings, s.maxDepth < UInt64.size → s.precision < UInt64.size →
      parse? s.text = some s ∧
      ∀ v (text : String), Keeps s v → Element v text.toList → parse? text = some s) ∧
    ∀ v (text : String), Repeats v → Element v text.toList → parse? text = none := by
  have hread {v : Json} {text : String} (h : Element v text.toList) : parse? text = ofJson? v := by
    rw [parse?, Json.parse?_of_element h, Option.bind_some]
  constructor
  · intro s hdepth hprecision
    have hkeeps {v : Json} {text : String} (h : Keeps s v) (htext : Element v text.toList) :
        parse? text = some s := by
      rw [hread htext, ofJson?_of_keeps hdepth hprecision h]
    obtain ⟨v, hv, hvalue⟩ := exists_value_text s
    exact ⟨hkeeps hv hvalue.element, fun v text => hkeeps⟩
  · intro v text h htext
    rw [hread htext, ofJson?_of_repeats h]

/-- A text with escapes, blanks and another member that leaves out a default, and a text that gives
one setting twice. -/
theorem read_of_keeps_respelled :
    let s : Settings := ⟨12, "😀", 6⟩
    let respelled := "\x7b \"x\": [\x7b\x7d],\n\"log_filter\":\"\\uD83D\\ude00\"," ++
      "\"\\u0070arser\" :\x7b\"max_depth\":12\x7d\x7d"
    parse? s.text = some s ∧ parse? respelled = some s ∧
      parse? "\x7b\"precision\":1,\"precision\":2\x7d" = none := by
  intro s respelled
  obtain ⟨hkept, hrepeated⟩ := read_of_keeps
  obtain ⟨htext, hother⟩ := hkept s (by decide) (by decide)
  have hnone : Blanks [] := List.forall_mem_nil _
  have hblank {c : Char} (hc : Json.isBlank c = true) : Blanks [c] :=
    List.forall_mem_singleton.2 hc
  have hhex {a b c d : Char} (i j k l : ℕ)
      (h : (i < 16 ∧ (a = i.digitChar ∨ a = i.digitChar.toUpper)) ∧
        (j < 16 ∧ (b = j.digitChar ∨ b = j.digitChar.toUpper)) ∧
        (k < 16 ∧ (c = k.digitChar ∨ c = k.digitChar.toUpper)) ∧
        (l < 16 ∧ (d = l.digitChar ∨ d = l.digitChar.toUpper))) :
      Piece ['\\', 'u', a, b, c, d] (((i * 16 + j) * 16 + k) * 16 + l) :=
    .hex h.1 h.2.1 h.2.2.1 h.2.2.2
  have hmember (key : String) (n : ℕ) : Json.Grammar.Member (some key, .number (Nat.toDigits 10 n))
      (Json.quote key ++ ':' :: Nat.toDigits 10 n) :=
    member_of_value (quoted_quote key) (.number (numeral_toDigits n))
  refine ⟨htext, ?_, ?_⟩
  · have hsmile : Quoted (some "😀") ("\"\\uD83D\\ude00\"".toList) :=
      quoted_of_points
        (.cons (hhex 13 8 3 13 (by decide)) (.cons (hhex 13 14 0 0 (by decide)) .nil))
        (Points.pair (c := '😀') (by decide) .nil)
    have hkey : Quoted (some "parser") ("\"\\u0070arser\"".toList) :=
      quoted_of_points (.cons (hhex 0 0 7 0 (by decide)) (pieces_escape "arser".toList))
        (points_toNat "parser".toList)
    have hextra : Json.Grammar.Member (some "x", .array [.object []]) _ :=
      .mk (hblank (c := ' ') rfl) (quoted_quote "x") hnone
        (.mk (hblank (c := ' ') rfl) (.array (.one (Value.emptyObject hnone).element)) hnone)
    have hfilter : Json.Grammar.Member (some "log_filter", .string (some "😀")) _ :=
      .mk (hblank (c := '\n') rfl) (quoted_quote "log_filter") hnone (Value.string hsmile).element
    have hparser : Json.Grammar.Member
        (some "parser", .object [(some "max_depth", .number (Nat.toDigits 10 12))]) _ :=
      .mk hnone hkey (hblank (c := ' ') rfl) (Value.object (.one (hmember "max_depth" 12))).element
    obtain ⟨cs, hcs, helement⟩ : ∃ cs, cs = respelled.toList ∧ Element _ cs :=
      ⟨_, by decide +kernel,
        (Value.object (.more hextra (.more hfilter (.one hparser)))).element⟩
    subst hcs
    have hothers : Json.Others ["parser", "log_filter", "precision"]
        [(some "x", .array [.object []])] :=
      List.forall_mem_singleton.2 ⟨"x", rfl, by decide⟩
    have hinner : KeepsMaxDepth 12 (.object [(some "max_depth", .number (Nat.toDigits 10 12))]) :=
      ⟨some _, .mk (List.forall_mem_nil _) (.refl _), .given rfl⟩
    exact hother _ _ ⟨some _, some _, none, .mk hothers (List.reverse_perm _).symm, .given hinner,
      .given rfl, .leftOut rfl⟩ helement
  · obtain ⟨cs, hcs, helement⟩ :
        ∃ cs, cs = "\x7b\"precision\":1,\"precision\":2\x7d".toList ∧ Element _ cs :=
      ⟨_, by decide +kernel,
        (Value.object (.more (hmember "precision" 1) (.one (hmember "precision" 2)))).element⟩
    subst hcs
    have hkey : "precision" ∈ ["parser", "log_filter", "precision"] := by decide
    exact hrepeated _ _ (.setting hkey (by unfold Repeated; decide)) helement

end SolidScene.Settings
