import SolidScene.CommandLine.Run
import SolidScene.Proofs.Scene.RoundTrip
import SolidScene.Proofs.Scene.Soundness
import SolidScene.Proofs.Scene.Streaming

/-!
# What commands print

What a command line shows, its exit code and what it prints, depends on the settings, its options
and the bytes of its scene, and not on where they come from (`shown_of_settings`). The bytes of a
printed scene hold the same scene (`Scene.ofBytes?_printed`), so they replace the bytes that it was
read from (`run_on_printed`).
-/

namespace SolidScene

open Source (Delivers Signal decode)

namespace Scene

variable {limit : ℕ} {bytes : ByteArray}

/-- The scene that the bytes of a text hold, if they do and it does. -/
def ofBytes? (limit : ℕ) (bytes : ByteArray) : Option Scene :=
  (String.fromUTF8? bytes).bind fun text => (parse limit text).toOption

theorem ofBytes?_toUTF8 (limit : ℕ) (text : String) :
    ofBytes? limit text.toUTF8 = (parse limit text).toOption := by
  have htext : String.fromUTF8? text.toUTF8 = some text := dif_pos text.isValidUTF8
  rw [ofBytes?, htext, Option.bind_some]

/-- However its bytes are delivered, a source holds the scene of its bytes. -/
theorem ofEvents_decode_toOption {signals : List Signal} (h : Delivers signals bytes) :
    (ofEvents limit (decode signals)).toOption = ofBytes? limit bytes := by
  by_cases hbytes : bytes.IsValidUTF8
  · obtain ⟨text, rfl⟩ : ∃ text : String, text.toUTF8 = bytes := ⟨.fromUTF8 bytes hbytes, rfl⟩
    rw [ofEvents_decode_text limit h, ofBytes?_toUTF8]
  · have hnone : String.fromUTF8? bytes = none := dif_neg hbytes
    rw [ofBytes?, hnone]
    obtain ⟨_, -, herror | ⟨_, -, herror, -⟩⟩ := exists_ofEvents_decode_error limit h hbytes <;>
      rw [herror] <;> rfl

/-- A scene that has been read is read again from the line that it is printed as. -/
theorem parse_printed {text : String} {s : Scene} (h : parse limit text = .ok s) :
    parse limit (s.text ++ "\n") = .ok s := by
  obtain ⟨hwellFormed, hdepth⟩ := wellFormed_of_parse h
  have hline : (s.text ++ "\n").toList = s.canonicalBefore ['\n'] := by
    rw [String.toList_append, Scene.text, String.toList_ofList, canonicalBefore_eq]
    rfl
  have hend : Text.lexemes ['\n'] = [] := by
    rw [Text.lexemes_blank (by decide), Text.lexemes_nil]
  rw [parse_eq_ok_iff, hline, lexemes_canonicalBefore, hend, List.append_nil]
  exact expression_spelling hwellFormed hdepth

theorem ofBytes?_printed {s : Scene} (h : ofBytes? limit bytes = some s) :
    ofBytes? limit (s.text ++ "\n").toUTF8 = some s := by
  obtain ⟨text, -, hs⟩ := Option.bind_eq_some_iff.1 h
  have hread : parse limit text = .ok s := by
    cases hparse : parse limit text with
    | error e => rw [hparse] at hs; cases hs
    | ok t => rw [hparse] at hs; cases hs; rfl
  rw [ofBytes?_toUTF8, parse_printed hread]
  rfl

end Scene

namespace CommandLine

/-- What a command line shows to who does not look at its reports. -/
def Outcome.shown (o : Outcome) : ℕ × String := (o.code, o.stdout)

/-- What the place of a scene holds. -/
def Surroundings.content (s : Surroundings) (place : String) : Except String (List Signal) :=
  if isStdin place then .ok s.stdin else s.file place

/-- The command line is understood so, and the place of its scene holds these bytes. -/
structure Works (s : Surroundings) (line : List String) (i : Invocation) (bytes : ByteArray) :
    Prop where
  understood : Invocation.ofArguments line = .ok i
  delivers : ∃ signals, s.content i.input = .ok signals ∧ Delivers signals bytes

/-- The same settings are there to be loaded, and the options that concern every command agree. -/
structure Alike (s s' : Surroundings) (i i' : Invocation) : Prop where
  textFile : s.textFile = s'.textFile
  usualSettings : s.usualSettings = s'.usualSettings
  maxDepth : i.maxDepth = i'.maxDepth
  config : i.config = i'.config

theorem Alike.loadSettings {s s' : Surroundings} {i i' : Invocation} (h : Alike s s' i i') :
    loadSettings s i.config = loadSettings s' i'.config := by
  simp only [CommandLine.loadSettings, readSettings, h.textFile, h.usualSettings, h.config]

/-- What a command shows of a scene, or where there is none. -/
def Command.shown (precision : ℕ) (command : Command) : Option Scene → ℕ × String
  | none => (1, "")
  | some scene =>
    if command.printsPlaces ∧ maxPlaces < precision then (101, "")
    else (0, command.answer precision scene)

/-- What is loaded from a place is the scene that its bytes hold. -/
theorem loadScene_toOption {s : Surroundings} {place : String} {bytes : ByteArray}
    (h : ∃ signals, s.content place = .ok signals ∧ Delivers signals bytes) (limit : ℕ) :
    (loadScene s limit place).toOption = Scene.ofBytes? limit bytes := by
  obtain ⟨signals, hcontent, hdelivers⟩ := h
  rw [← Scene.ofEvents_decode_toOption hdelivers]
  unfold Surroundings.content at hcontent
  unfold loadScene
  split_ifs at hcontent with hplace
  · cases hcontent
    rw [if_pos hplace]
    simp only [pure, Except.pure, bind, Except.bind]
    cases Scene.ofEvents limit (decode s.stdin) <;> rfl
  · rw [if_neg hplace, hcontent]
    simp only [pure, Except.pure, bind, Except.bind]
    cases Scene.ofEvents limit (decode signals) <;> rfl

/-- A letter that is no slash is one step by itself. -/
theorem splitOn_slash_singleton {c : Char} (hc : c ≠ '/') :
    (String.singleton c).splitOn "/" = [String.singleton c] := by
  have hslash : String.Pos.Raw.get "/" 0 = '/' := by decide
  have hfirst : String.Pos.Raw.get (String.singleton c) 0 = c := String.get_of_valid [] [c]
  have hstart : ¬ String.Pos.Raw.atEnd (String.singleton c) 0 = true := by
    simpa using String.atEnd_of_valid [] [c]
  have hnext : String.Pos.Raw.next (String.singleton c) 0 = ⟨c.utf8Size⟩ := by
    simpa using String.next_of_valid [] c []
  have hend : String.Pos.Raw.atEnd (String.singleton c) ⟨c.utf8Size⟩ = true := by
    simpa using String.atEnd_of_valid [c] []
  have hall : String.Pos.Raw.extract (String.singleton c) 0 ⟨c.utf8Size⟩ = String.singleton c := by
    simpa using String.extract_of_valid [] [c] []
  have hzero : String.Pos.Raw.unoffsetBy 0 0 = 0 := rfl
  rw [String.splitOn, if_neg (by decide), String.splitOnAux, if_neg hstart, hfirst, hslash,
    if_neg (by simpa using hc), hzero, hnext, String.splitOnAux, if_pos hend, hall]
  rfl

/-- Of the places of one letter, the dash is the standard input. -/
theorem isStdin_singleton {c : Char} (hc : c ≠ '/') :
    isStdin (String.singleton c) = (c == '-') := by
  rw [isStdin, splitOn_slash_singleton hc]
  split
  · rename_i steps hsteps
    obtain ⟨hdash, rfl⟩ := List.cons.inj hsteps
    obtain rfl : c = '-' := by simpa using congrArg String.toList hdash
    rfl
  · rename_i hother
    refine (beq_eq_false_iff_ne.2 ?_).symm
    rintro rfl
    exact hother [] rfl

variable {s s' s₀ : Surroundings} {line line' line₀ : List String} {i i' tree : Invocation}
  {bytes : ByteArray}

theorem answer_eq {settings : Settings} (h : loadSettings s i.config = .ok settings) :
    i.answer s = (loadScene s (i.maxDepth.getD settings.maxDepth) i.input).mapError .reported >>=
      fun scene =>
        if i.command.printsPlaces ∧ maxPlaces < settings.precision then
          throw (.tooManyPlaces settings.precision)
        else return i.command.answer settings.precision scene := by
  rw [Invocation.answer, h]
  rfl

theorem shown_of_error {e : Settings.LoadError} (h : Works s line i bytes)
    (hsettings : loadSettings s i.config = .error e) : (run s line).shown = (1, "") := by
  rw [run, h.understood]
  simp only [Invocation.answer, hsettings]
  rfl

/-- What is shown comes from the settings, the options and the bytes of the scene. -/
theorem shown_of_settings {settings : Settings} (h : Works s line i bytes)
    (hsettings : loadSettings s i.config = .ok settings) :
    (run s line).shown = i.command.shown settings.precision
      (Scene.ofBytes? (i.maxDepth.getD settings.maxDepth) bytes) := by
  rw [run, h.understood]
  simp only [answer_eq hsettings, ← loadScene_toOption h.delivers]
  cases loadScene s (i.maxDepth.getD settings.maxDepth) i.input with
  | error e => rfl
  | ok scene =>
    simp only [Except.mapError, bind, Except.bind, Except.toOption, Command.shown]
    split_ifs <;> rfl

/-- With the same settings and options a command shows the same of bytes that hold the same
scene. -/
theorem shown_congr {bytes' : ByteArray} (h : Works s line i bytes) (h' : Works s' line' i' bytes')
    (halike : Alike s s' i i') (hcommand : i'.command = i.command)
    (hbytes : ∀ settings, loadSettings s i.config = .ok settings →
      Scene.ofBytes? (i.maxDepth.getD settings.maxDepth) bytes' =
        Scene.ofBytes? (i.maxDepth.getD settings.maxDepth) bytes) :
    (run s' line').shown = (run s line).shown := by
  have hload := halike.loadSettings
  cases hsettings : loadSettings s i.config with
  | error e => rw [shown_of_error h hsettings, shown_of_error h' (hload ▸ hsettings)]
  | ok settings =>
    rw [shown_of_settings h hsettings, shown_of_settings h' (hload ▸ hsettings), hcommand,
      ← halike.maxDepth, hbytes settings hsettings]

/-- A scene that is printed was there, and what is printed is the line of its text. -/
theorem exists_of_printed (h : Works s line i bytes) (htree : i.command = .tree false)
    (hcode : (run s line).code = 0) : ∃ settings scene, loadSettings s i.config = .ok settings ∧
      Scene.ofBytes? (i.maxDepth.getD settings.maxDepth) bytes = some scene ∧
      (run s line).stdout = scene.text ++ "\n" := by
  cases hsettings : loadSettings s i.config with
  | error e => cases hcode.symm.trans (congrArg Prod.fst (shown_of_error h hsettings))
  | ok settings =>
    have hshown := shown_of_settings h hsettings
    rw [htree] at hshown
    cases hscene : Scene.ofBytes? (i.maxDepth.getD settings.maxDepth) bytes with
    | none =>
      rw [hscene] at hshown
      cases hcode.symm.trans (congrArg Prod.fst hshown)
    | some scene =>
      rw [hscene] at hshown
      exact ⟨settings, scene, rfl, hscene, congrArg Prod.snd hshown⟩

/-- Where a command fails with a report it prints nothing. -/
theorem stdout_of_code_one (h : (run s line).code = 1) : (run s line).stdout = "" := by
  unfold run at h ⊢
  split at h
  · cases h
  · cases h
  · split at h
    · cases h
    · rfl
    · cases h

/-- What is printed of a scene replaces the bytes that the scene was read from: with the same
settings and options every command shows the same of both. The same bytes show the same from
wherever they come, and a failure that is reported prints nothing. -/
theorem run_on_printed :
    (∀ {s₀ s s' : Surroundings} {line₀ line line' : List String} {tree i i' : Invocation}
        {bytes : ByteArray}, Works s₀ line₀ tree bytes → tree.command = .tree false →
      (run s₀ line₀).code = 0 → Works s line i bytes → Alike s₀ s tree i →
      Works s' line' i' (run s₀ line₀).stdout.toUTF8 → Alike s s' i i' →
      i'.command = i.command → (run s' line').shown = (run s line).shown) ∧
    (∀ {s s' : Surroundings} {line line' : List String} {i i' : Invocation} {bytes : ByteArray},
      Works s line i bytes → Works s' line' i' bytes → Alike s s' i i' →
      i'.command = i.command → (run s' line').shown = (run s line).shown) ∧
    ∀ s line, (run s line).code = 1 → (run s line).stdout = "" := by
  refine ⟨?_, ?_, fun s line => stdout_of_code_one⟩
  · intro s₀ s s' line₀ line line' tree i i' bytes h₀ htree hcode h halike₀ h' halike hcommand
    obtain ⟨settings, scene, hsettings, hscene, hprinted⟩ := exists_of_printed h₀ htree hcode
    rw [halike₀.loadSettings] at hsettings
    rw [halike₀.maxDepth] at hscene
    rw [hprinted] at h'
    refine shown_congr h h' halike hcommand fun settings' hsettings' => ?_
    cases hsettings.symm.trans hsettings'
    rw [Scene.ofBytes?_printed hscene, hscene]
  · intro s s' line line' i i' bytes h h' halike hcommand
    exact shown_congr h h' halike hcommand fun _ _ => rfl

theorem run_on_printed_sphere :
    let bytesOf (text : String) : List Signal := text.toUTF8.data.toList.map .byte
    let settings (place : String) : Except String String :=
      if place = "two.json" then .ok "\x7b\"precision\": 2\x7d" else .error "gone"
    let stdin : Surroundings :=
      ⟨bytesOf "[+SPHERE 1e0 0 0 2.50]", fun _ => .error "gone", settings, none⟩
    let file (text : String) : Surroundings := ⟨[], fun _ => .ok (bytesOf text), settings, none⟩
    let tree := ["tree", "-", "--config", "two.json"]
    let eval := ["--config=two.json", "eval", "-p", "0", "0", "-2e0", "-"]
    let eval' := ["eval", "f", "--point", "0", "0", "-2", "--config", "two.json"]
    let shallow := ["check", "f", "--max-depth", "0"]
    (run stdin tree).shown = (0, "[+ sphere 1 0 0 2.5]\n") ∧
      (run stdin eval).shown = (0, "-0.26\n") ∧
      (run (file "[+ sphere 1 0 0 2.5]\n") eval').shown = (0, "-0.26\n") ∧
      (run (file "[+SPHERE 1e0 0 0 2.50]") eval').shown = (0, "-0.26\n") ∧
      (run (file "[+ sphere 1 0 0 2.5]\n") shallow).code = 1 ∧
      (run (file "[+ sphere 1 0 0 2.5]\n") shallow).stdout = "" := by
  intro bytesOf settings stdin file tree eval eval' shallow
  have hdelivers (text : String) : Delivers (bytesOf text) text.toUTF8 :=
    ⟨0, by simp [bytesOf, List.filter_map, Function.comp_def]⟩
  have hdash : isStdin "-" = true := isStdin_singleton (by decide : '-' ≠ '/')
  have hplace : isStdin "f" = false := isStdin_singleton (by decide : 'f' ≠ '/')
  have hstdin {line : List String} {i : Invocation} (h : Invocation.ofArguments line = .ok i)
      (hinput : i.input = "-") : Works stdin line i "[+SPHERE 1e0 0 0 2.50]".toUTF8 :=
    ⟨h, _, by rw [Surroundings.content, hinput, hdash, if_pos rfl], hdelivers _⟩
  have hfile (text : String) {line : List String} {i : Invocation}
      (h : Invocation.ofArguments line = .ok i) (hinput : i.input = "f") :
      Works (file text) line i text.toUTF8 :=
    ⟨h, _, by rw [Surroundings.content, hinput, hplace]; rfl, hdelivers _⟩
  have htree : Works stdin tree ⟨.tree false, "-", none, some "two.json"⟩ _ :=
    hstdin (by decide +kernel) rfl
  have heval : Works stdin eval ⟨.eval ⟨0.0, 0.0, -2.0⟩, "-", none, some "two.json"⟩ _ :=
    hstdin (by decide +kernel) rfl
  have heval' (text : String) :
      Works (file text) eval' ⟨.eval ⟨0.0, 0.0, -2.0⟩, "f", none, some "two.json"⟩ text.toUTF8 :=
    hfile text (by decide +kernel) rfl
  have hload : loadSettings stdin (some "two.json") = .ok ⟨256, "warn", 2⟩ := by decide +kernel
  have hprinted : (run stdin tree).shown = (0, "[+ sphere 1 0 0 2.5]\n") := by
    rw [shown_of_settings htree hload]
    decide +kernel
  have hshown : (run stdin eval).shown = (0, "-0.26\n") := by
    rw [shown_of_settings heval hload]
    decide +kernel
  have hstdout : (run stdin tree).stdout = "[+ sphere 1 0 0 2.5]\n" := congrArg Prod.snd hprinted
  have hline : Works (file "[+ sphere 1 0 0 2.5]\n") eval'
      ⟨.eval ⟨0.0, 0.0, -2.0⟩, "f", none, some "two.json"⟩ (run stdin tree).stdout.toUTF8 := by
    rw [hstdout]
    exact heval' _
  have hcheck : Works (file "[+ sphere 1 0 0 2.5]\n") shallow ⟨.check, "f", some 0, none⟩ _ :=
    hfile _ (by decide +kernel) rfl
  have hshallow : (run (file "[+ sphere 1 0 0 2.5]\n") shallow).shown = (1, "") := by
    have hdefault : loadSettings (file "[+ sphere 1 0 0 2.5]\n") none = .ok .default := rfl
    rw [shown_of_settings hcheck hdefault]
    decide +kernel
  have hcode := congrArg Prod.fst hshallow
  obtain ⟨hreplaced, hsame, hfailed⟩ := run_on_printed
  refine ⟨hprinted, hshown, ?_, ?_, hcode, hfailed _ _ hcode⟩
  · rw [← hshown]
    exact hreplaced htree rfl (congrArg Prod.fst hprinted) heval ⟨rfl, rfl, rfl, rfl⟩ hline
      ⟨rfl, rfl, rfl, rfl⟩ rfl
  · rw [← hshown]
    exact hsame heval (heval' _) ⟨rfl, rfl, rfl, rfl⟩ rfl

end CommandLine

end SolidScene
