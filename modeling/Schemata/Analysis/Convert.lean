import Schemata.Analysis.Step
import Schemata.Json.Reader

/-!
# Converting documents

A conversion descends from schema to schema, through the parts of a schema and
through references. A descent ends by itself: it meets each pointer of the
document a bounded number of times. The bound on its depth is computed from the
size of the document, so that no descent reaches it.
-/

namespace Schemata.Analysis

open Schema

/-- Convert a schema by a descent of at most the given depth. -/
def convertWithin (setting : Setting) : Nat → Converter
  | 0 => fun _ _ => throw .tooDeep
  | depth + 1 => step setting (convertWithin setting depth)

/-- A depth that no descent through a document reaches. -/
def Setting.depth (setting : Setting) : Nat :=
  8 * Nat.pow (setting.document.size + 2) 3

/-- Convert a schema. -/
def convert (setting : Setting) : Converter :=
  convertWithin setting setting.depth

/-- Convert a property of an object schema. -/
def convertProperty (setting : Setting) (entry : Schema.Entry) : Action Property :=
  property setting (convert setting) entry

/-- Convert a whole document. -/
def analyze (setting : Setting) : Except Failure Converted × Context :=
  let root := View.root setting.document
  (convert setting root (some root.code)).run.run {}

/-- The title of a document is the name of its root. -/
def title (setting : Setting) : Except Failure Label := do
  let name ← setting.naming.infer (View.root setting.document)
  return name.getD ⟨setting.rootName, none⟩

/-- The outcome of a conversion that ended in the given state. -/
def Context.outcome (context : Context) (setting : Setting) (title : Label) : Outcome :=
  ⟨{ title := title
     majorVersion := setting.options.majorVersion
     sourcePaths := [setting.sourcePath]
     loc := some (View.root setting.document).code
     types := context.types
     enums := context.enums
     unions := context.unions },
    context.violations⟩

/-- The outcome for a document, and the state in which its conversion ended. -/
def outcome (setting : Setting) : Except Failure Outcome × Context :=
  match analyze setting with
  | (.error failure, context) => (.error failure, context)
  | (.ok _, context) => ((title setting).map (context.outcome setting), context)

end Schemata.Analysis

namespace Schemata

/-- Why a text is not converted. -/
inductive ConversionError
  | unreadable (error : Json.ReadError)
  | refused (failure : Failure)
deriving DecidableEq, Repr

/-- Convert the text of a schema document. -/
def convertText (text sourcePath : String) (options : Options := {}) :
    Except ConversionError Outcome :=
  match Json.read text with
  | .error error => .error (.unreadable error)
  | .ok document =>
      match (Analysis.outcome ⟨document, sourcePath, options⟩).1 with
      | .error failure => .error (.refused failure)
      | .ok outcome => .ok outcome

end Schemata
