/-
**Where diagnostics go: a log, and a terminal that says nothing twice.**

A log gets one warning for every diagnostic. A terminal shows a line in yellow for a diagnostic only
if it has not shown the same line before; it can be told to forget what it has shown.
-/

import PagedHtml.Diagnostic

namespace PagedHtml

structure LogRecord where
  level : String
  target : String
  message : String
  deriving DecidableEq, Repr

def Diagnostic.logRecord (diagnostic : Diagnostic) : LogRecord :=
  ⟨"WARN", diagnostic.kind.label, diagnostic.display⟩

/-- A terminal, by the lines that it has shown. -/
structure Terminal where
  shown : List String

namespace Terminal

def blank : Terminal := ⟨[]⟩

/-- What tells diagnostics on a terminal apart. -/
def line (diagnostic : Diagnostic) : String :=
  "[" ++ diagnostic.kind.label ++ "] " ++ diagnostic.display

def yellow (text : String) : String := "\u001b[33m" ++ text ++ "\u001b[39m"

/-- What is written for a line that is shown. -/
def notice (line : String) : String := yellow ("[Folio] ⚠ " ++ line) ++ "\n"

/-- Shows a diagnostic: the text that is written, and the terminal afterwards. -/
def emit (terminal : Terminal) (diagnostic : Diagnostic) : String × Terminal :=
  let line := line diagnostic
  if terminal.shown.contains line then ("", terminal)
  else (notice line, ⟨line :: terminal.shown⟩)

/-- Shows diagnostics, one after another. -/
def emitAll (terminal : Terminal) : List Diagnostic → String × Terminal
  | [] => ("", terminal)
  | first :: rest =>
    let (written, next) := terminal.emit first
    let (more, last) := next.emitAll rest
    (written ++ more, last)

end Terminal

end PagedHtml
