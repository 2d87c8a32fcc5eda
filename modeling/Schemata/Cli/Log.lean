import Schemata.Analysis.Convert

/-!
# Log lines

What happened during a conversion is logged line by line. Only what stops a
conversion is a warning; the rest is shown on demand.
-/

namespace Schemata.Cli

open Analysis

inductive Level
  | debug
  | warning
deriving DecidableEq, Repr

def Level.name : Level → String
  | debug => "DEBUG"
  | warning => "WARNING"

/-- A line of the log. -/
structure LogLine where
  level : Level
  logger : String
  message : Str
deriving DecidableEq, Repr

def LogLine.text (line : LogLine) : Str :=
  line.level.name ++ " " ++ line.logger ++ ": " ++ line.message ++ "\n"

def analyzerLogger : String :=
  "json_schema_to_ir.pipeline.analyzer.analyzer"

def generatorLogger : String :=
  "json_schema_to_ir.pipeline.generator"

/-- What an entry was made from, in words. -/
def originText : Origin → String
  | .object => "type"
  | .intersection => "intersection type"
  | .union => "union"
  | .enumeration => "enum"

def eventLine : Event → LogLine
  | .parsing pointer shape =>
      ⟨.debug, analyzerLogger, "Parsing " ++ pointer ++ " as " ++ shape.name⟩
  | .registered origin name pointer =>
      ⟨.debug, analyzerLogger,
        "Registered " ++ originText origin ++ " " ++ name ++ " from " ++ pointer⟩
  | .recorded violation =>
      ⟨.debug, analyzerLogger, violation.code.name ++ ": " ++ violation.message⟩
  | .tupleItems pointer =>
      ⟨.warning, analyzerLogger, "Tuple-style items at " ++ pointer ++ " are not supported"⟩
  | .circularReference reference pointer =>
      ⟨.warning, analyzerLogger, circularMessage reference ++ " (at " ++ pointer ++ ")"⟩

/-- The first line of a conversion. -/
def startLine (path : String) : LogLine :=
  ⟨.debug, generatorLogger, "Parsing " ++ path⟩

/-- The last line of a conversion that was not stopped. -/
def endLine (context : Context) : LogLine :=
  let count (n : Nat) : String := Text.integerText n
  ⟨.debug, analyzerLogger,
    "Built " ++ count context.types.length ++ " types, " ++ count context.enums.length ++
      " enums, " ++ count context.unions.length ++ " unions with " ++
      count context.violations.length ++ " violations"⟩

/-- The lines of a conversion that ended in the given state. -/
def contextLines (context : Context) (stopped : Bool) : List LogLine :=
  context.log.reverse.map eventLine ++ if stopped then [] else [endLine context]

/-- The text of the lines that are shown. -/
def logText (verbose : Bool) (lines : List LogLine) : Str :=
  ((lines.filter fun line => verbose || line.level = .warning).map LogLine.text).flatten

end Schemata.Cli
