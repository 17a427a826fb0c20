import ByteRegex.Regex.Replace

/-!
# Log Records

What the library has to say about its work to someone who follows it. Compiling
a pattern makes one record: a detailed one with the shape of the program, or a
plain one with the error. Expanding a template makes a plain record for every
reference that cannot be followed.

## Main definitions

* `LogRecord`: A message with its level.
* `compileRecord`: The record of compiling a pattern.
* `Diagnostic.record`: The record of a reference that cannot be followed.
* `replaceRecords`: The records of compiling a pattern and replacing with it.
-/

namespace ByteRegex

/-- How much a record matters. -/
inductive LogLevel where
  | trace
  | debug
  deriving DecidableEq, Repr

def LogLevel.name : LogLevel → String
  | trace => "TRACE"
  | debug => "DEBUG"

/-- A message with its level. -/
structure LogRecord where
  level : LogLevel
  message : String
  deriving DecidableEq, Repr

/-- A record on one line. -/
def LogRecord.line (r : LogRecord) : String := r.level.name ++ ": " ++ r.message

/-- The name of a search strategy in records; a strategy without a literal has
    none. -/
def Strategy.title : Strategy → String
  | literal _ _ (some _) => "StrKmp"
  | literal _ _ none => "Str"
  | everywhere => "None"
  | lineBegin => "None"

/-- The record of compiling a pattern. -/
def compileRecord (options : CompileOptions) (pattern : Bytes) : LogRecord :=
  let shown := Text.quoted (Utf8.lossy pattern)
  match compile options pattern with
  | .ok p =>
    { level := .trace
      message := "compiled " ++ shown ++ ": " ++ toString p.size ++ " ops, " ++
        toString p.groups ++ " groups, optimize " ++ p.strategy.title ++ ", anchor_bol " ++
        toString (p.strategy == .lineBegin) }
  | .error e =>
    { level := .debug
      message := "compile of " ++ shown ++ " (" ++ options.dialect.name ++ ") failed: " ++
        e.message }

/-- The record of a reference that cannot be followed. -/
def Diagnostic.record : Diagnostic → LogRecord
  | noSuchGroup n =>
    { level := .debug, message := "replacement references missing capture " ++ toString n }

/-- The records of compiling a pattern and, if that succeeds, of replacing every
    match in a text. -/
def replaceRecords (options : CompileOptions) (pattern template text : Bytes) :
    List LogRecord :=
  let replacing := match Regex.ofPattern pattern options with
    | .ok r =>
      (r.replace text (Template.read options.dialect template) true).diagnostics.map
        Diagnostic.record
    | .error _ => []
  compileRecord options pattern :: replacing

end ByteRegex
