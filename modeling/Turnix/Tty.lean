import Turnix.Lib.Rust

/-!
# The terminal

`tty/mod.rs`. What the terminal asks of the text console is recorded as a list of operations, and not done here:
what drawing does, and where it stops, is in `Console`. `CONSOLE` is `none` until a font has been loaded, and then
nothing is asked of it.
-/

namespace Turnix

/-- The calls of `TextConsole`. -/
inductive ConsoleOp
  | writeChar (c : Char)
  | backspace
  | writeStr (s : String)
deriving DecidableEq, Repr

/-- `Tty`. -/
structure Tty where
  lineBuffer : String
  inputQueue : List String
deriving DecidableEq, Repr

/-- `TTY` and `CONSOLE`. -/
structure Terminal where
  tty : Tty
  console : Option (List ConsoleOp)
deriving DecidableEq, Repr

/-- `if let Some(ref mut console) = *CONSOLE.lock()`: the request is recorded. -/
def Terminal.ask (op : ConsoleOp) (t : Terminal) : Terminal :=
  { t with console := t.console.map (· ++ [op]) }

/-- `char::is_control`: the category `Cc`. -/
def isControl (c : Char) : Bool := c.val < 0x20 ∨ (0x7F ≤ c.val ∧ c.val ≤ 0x9F)

/-- `String::pop`, without the character. -/
def popChar (s : String) : Option String :=
  if s = "" then none else some (String.ofList s.toList.dropLast)

/-- `Tty::handle_input`. -/
def Terminal.handleInput (c : Char) (t : Terminal) : Terminal :=
  if c = '\n' ∨ c = '\r' then
    let line := t.tty.lineBuffer.push '\n'
    Terminal.ask (.writeChar '\n') { t with tty := ⟨"", t.tty.inputQueue ++ [line]⟩ }
  else if c = '\x08' ∨ c = '\x7f' then
    match popChar t.tty.lineBuffer with
    | some rest => Terminal.ask .backspace { t with tty := { t.tty with lineBuffer := rest } }
    | none => t
  else if !isControl c then
    Terminal.ask (.writeChar c)
      { t with tty := { t.tty with lineBuffer := t.tty.lineBuffer.push c } }
  else t

/-- `Tty::read_line`. -/
def Terminal.readLine (t : Terminal) : Option String × Terminal :=
  match t.tty.inputQueue with
  | [] => (none, t)
  | line :: rest => (some line, { t with tty := { t.tty with inputQueue := rest } })

/-- `Tty::write`, as far as the request to draw the text. -/
def Terminal.write (s : String) (t : Terminal) : Terminal := t.ask (.writeStr s)

end Turnix
