import ScriptLang.Proofs.Scanning.Quoting
import ScriptLang.Proofs.Sessions.Reached

/-!
# Printing any text

* `Text.printSource` — the source that prints a text: a literal behind `print`;
* `Session.run_printSource` — a session that may run, with an output without limit, writes the text and a line end;
* `Session.quotable` — any text can be written as a literal and printed back.
-/

namespace ScriptLang

namespace Text

/-- The source that prints a text. -/
def printSource (text : String) : String := "print " ++ literal text ++ ";"

/-- The keyword of the source that prints a text. -/
def printKeyword : Token := ⟨.keyword .kwPrint, "print", 1⟩

/-- The program that prints a text. -/
def printProgram (text : String) : List Stmt := [.print printKeyword (.literal (.string (escape text)))]

/-- The pieces of the source that prints a text. -/
theorem ofSource_printSource (text : String) : Piece.ofSource (printSource text).toList =
    [.token (.keyword .kwPrint) ['p', 'r', 'i', 'n', 't'], .blank [' '],
      .token (.string (escape text)) (literal text).toList, .token (.mark .semicolon) [';']] := by
  have hsource : (printSource text).toList =
      'p' :: 'r' :: 'i' :: 'n' :: 't' :: ' ' :: ((literal text).toList ++ [';']) := by
    simp [printSource]
  have hword : Piece.next 'p' ('r' :: 'i' :: 'n' :: 't' :: ' ' :: ((literal text).toList ++ [';'])) =
      (.token (.keyword .kwPrint) ['p', 'r', 'i', 'n', 't'], ' ' :: ((literal text).toList ++ [';'])) := rfl
  have hspace : Piece.next ' ' ((literal text).toList ++ [';']) = (.blank [' '], (literal text).toList ++ [';']) := rfl
  have hsemicolon : Piece.ofSource [';'] = [.token (.mark .semicolon) [';']] := rfl
  rw [hsource, Piece.ofSource_cons, hword, Piece.ofSource_cons, hspace, Piece.ofSource_literal, hsemicolon]

/-- The tokens of the source that prints a text, without the end. -/
theorem beforeEnd_printSource (text : String) : beforeEnd (tokensOf (printSource text)) =
    [printKeyword, literalToken text, .ofMark .semicolon (lastLine text)] := by
  rw [beforeEnd_tokensOf, ofSource_printSource]
  show [printKeyword, (⟨_, String.ofList (literal text).toList, 1 + Item.newlines (literal text).toList⟩ : Token),
    ⟨.mark .semicolon, ";", 1 + Item.newlines (literal text).toList + 0⟩] = _
  rw [newlines_literal, String.ofList_toList]
  rfl

theorem lexicalDiagnostics_printSource (text : String) : lexicalDiagnostics (printSource text) = [] := by
  have hfaults : lexicalFaults (printSource text) = [] := by
    rw [lexicalFaults_eq_nil, ofSource_printSource]
    simp
  rw [lexicalDiagnostics, hfaults]
  rfl

/-- The source that prints a text is read as the program that does. -/
theorem reads_printSource (text : String) (fresh : Label) :
    (Phrase.declarations (printProgram text)).Reads fresh (beforeEnd (tokensOf (printSource text))) fresh := by
  rw [beforeEnd_printSource]
  have hvalue : (Phrase.expression (.literal (.string (escape text)))).Reads fresh [literalToken text] fresh :=
    .operators (.binary_of_unary (.noStep (.call (.constant rfl) .callEnd)) .disjunction)
  have hkeyword : printKeyword.kind = .keyword .kwPrint := rfl
  have hsemicolon : (Token.ofMark .semicolon (lastLine text)).kind = .mark .semicolon := rfl
  exact .declarationsMore (.noDeclaration (.print hkeyword hvalue hsemicolon)) .declarationsEnd

end Text

open Text

namespace Session

/-- A session with what it wrote. -/
def wrote (s : Session) (text : String) : Session :=
  let console := s.machine.console
  { s with machine := { s.machine with console := { console with sink := console.sink.write text.toUTF8 } } }

/-- Two calls deep, the program that prints a text writes it with a line end. -/
theorem execute_printProgram {s : Session} (hlimit : s.machine.console.sink.limit = none)
    (hflush : s.machine.console.sink.flushFails = false) (text : String) (fuel : Nat) :
    s.execute (fuel + 2) (printProgram text) = ⟨.completed, [], s.wrote (text ++ "\n")⟩ := by
  have hfits : s.machine.console.sink.fits (text ++ "\n").toUTF8.size = true := by
    rw [Sink.fits, hlimit]
  have hwritten : (s.wrote (text ++ "\n")).machine.console.sink.flushFails = false := by
    show (s.machine.console.sink.write _).flushFails = false
    rw [Sink.write, hlimit]
    exact hflush
  have hprint : Exec.print printKeyword (.string (escape text)) s.machine =
      .done () (s.wrote (text ++ "\n")).machine := by
    rw [Exec.print, unescape_escape]
    exact if_pos hfits
  have hexec : Exec.exec (fuel + 2) s.setting Heap.globals (.print printKeyword (.literal (.string (escape text))))
      s.machine = .done .normal (s.wrote (text ++ "\n")).machine := by
    have hvalue : Exec.eval (fuel + 1) s.setting Heap.globals (.literal (.string (escape text))) =
        pure (.string (escape text)) := by
      rw [Exec.eval]
      rfl
    rw [Exec.exec]
    simp only [hvalue, pure_bind]
    show Exec.andThen (Exec.print printKeyword (.string (escape text))) (fun _ => Exec.value Flow.normal) s.machine = _
    rw [Exec.andThen, hprint]
    rfl
  have hflushed : Exec.flush (s.wrote (text ++ "\n")).machine = .done () (s.wrote (text ++ "\n")).machine := by
    rw [Exec.flush, hwritten]
    rfl
  have hrun : (do Exec.program (fuel + 2) s.setting (printProgram text); Exec.flush : Exec Unit) s.machine =
      .done () (s.wrote (text ++ "\n")).machine := by
    show Exec.andThen (Exec.andThen (Exec.exec (fuel + 2) s.setting Heap.globals _) fun _ => Exec.value ())
      (fun _ => Exec.flush) s.machine = _
    rw [Exec.andThen, Exec.andThen, hexec]
    exact hflushed
  rw [execute, hrun]
  rfl

/-- A session that may run, with an output without limit, writes the text and a line end and completes. -/
theorem run_printSource {s : Session} (hrunnable : s.runnable = true)
    (hlimit : s.machine.console.sink.limit = none) (hflush : s.machine.console.sink.flushFails = false) (text : String)
    (fuel : Nat) : (s.run (fuel + 2) (printSource text)).outcome = .completed ∧
      (s.run (fuel + 2) (printSource text)).diagnostics = [] ∧
      (s.run (fuel + 2) (printSource text)).session.output = s.output ++ (text ++ "\n").toUTF8 := by
  have henter := enter?_of_reads hrunnable (lexicalDiagnostics_printSource text) (reads_printSource text s.fresh) rfl
  rw [run_eq_execute henter, execute_printProgram (by exact hlimit) (by exact hflush)]
  refine ⟨rfl, rfl, ?_⟩
  show (s.machine.console.sink.write _).written = s.machine.console.sink.written ++ _
  rw [Sink.write, hlimit]

/-- A text can be written as a literal and printed back. -/
structure Quotable (text : String) : Prop where
  /-- A reader gives one string with the escaped text, then the end, and nothing else. -/
  items : (Reader.ofSource (literal text)).items =
    ([.token ⟨.string (escape text), literal text, lastLine text⟩, .token (.endOfFile (lastLine text))], true)
  /-- There is no fault in the literal. -/
  faults : lexicalFaults (literal text) = []
  tokens : tokensOf (literal text) =
    [⟨.string (escape text), literal text, lastLine text⟩, .endOfFile (lastLine text)]
  /-- Decoding the escaped text gives the text back. -/
  decoded : unescape (escape text) = .ok text
  /-- A new session prints the text, with a line end, and completes. -/
  printed : ∀ unread clock fuel,
    let answer := (start ⟨Sink.unlimited, unread, clock⟩).run (fuel + 2) ("print " ++ literal text ++ ";")
    answer.outcome = .completed ∧ answer.diagnostics = [] ∧ answer.session.output = (text ++ "\n").toUTF8

/-- Any text can be written as a literal and printed back. -/
theorem quotable (text : String) : Quotable text := by
  refine ⟨Reader.items_literal text, ?_, ?_, unescape_escape text, fun unread clock fuel => ?_⟩
  · rw [lexicalFaults, Item.ofSource_literal]
    rfl
  · rw [tokensOf, Item.ofSource_literal]
    rfl
  · have hrun := run_printSource (s := start ⟨Sink.unlimited, unread, clock⟩) rfl rfl rfl text fuel
    have hempty : (start ⟨Sink.unlimited, unread, clock⟩).output = ByteArray.empty := rfl
    rw [hempty, ByteArray.empty_append] at hrun
    exact hrun

end Session

end ScriptLang
