/-
HexDoc/Conversion.lean

Converting a document: its text is read, its references are resolved and the result is
written as XML or as YAML.  The first step that fails ends the conversion.

A conversion keeps a log of what it has done, one record after the other, up to the failure
if there is one.
-/
import HexDoc.Parser.Document
import HexDoc.Resolution.Resolver
import HexDoc.Value.Nesting
import HexDoc.Xml.Writer
import HexDoc.Yaml.Writer

namespace HexDoc

/-- The formats that a document can be written in. -/
inductive Format
  | xml
  | yaml
deriving DecidableEq, Repr

namespace Format

/-- The word for a format. -/
def word : Format → String
  | xml => "xml"
  | yaml => "yaml"

/-- The format that a word stands for. -/
def ofWord? (s : String) : Option Format :=
  [xml, yaml].find? fun f => f.word = s

/-- Writes an environment in a format. -/
def write (f : Format) (env : Environment) : Except Unwritable String :=
  match f with
  | xml => Xml.write env Xml.defaultRoot
  | yaml => Yaml.write env

/-- The wording of what stands against writing a value in a format. -/
def unwritableMessage (f : Format) (e : Unwritable) : String :=
  match f with
  | xml => Xml.unwritableMessage e
  | yaml => e.message

end Format

/-- Why a document cannot be converted. -/
inductive Failure
  /-- No format goes by this word. -/
  | unknownFormat (word : String)
  | read (e : ReadError)
  | resolve (e : ResolveError)
  /-- Values nest too deeply to be written. -/
  | tooDeep (f : Format)
  /-- Something is left that cannot be written. -/
  | unwritable (f : Format) (e : Unwritable)
deriving DecidableEq, Repr

/-- The full text of a failure. -/
def Failure.render : Failure → String
  | .unknownFormat w => "Unknown output format: " ++ w
  | .read e => e.render
  | .resolve e => e.render
  | .tooDeep f => errorLine .nowhere ("Values nested too deeply to write as " ++ f.word)
  | .unwritable f e => f.unwritableMessage e

/-- A record of the log. -/
inductive Record
  /-- A binding has been read. -/
  | bound (n : Name)
  /-- Something has happened in the resolution. -/
  | resolution (e : Event)
  /-- All bindings, so many, have been resolved. -/
  | resolved (count : Nat)
  /-- A document of so many characters has been written. -/
  | written (length : Nat) (f : Format)
deriving DecidableEq, Repr

namespace Record

/-- The part of the program that makes a record. -/
def source : Record → String
  | bound _ => "hexconf.parser"
  | resolution _ => "hexconf.evaluator"
  | resolved _ => "hexconf.main"
  | written .. => "hexconf.main"

/-- The wording of a record. -/
def message : Record → String
  | bound n => "Parsed binding " ++ n
  | resolution (.found n) => "Cache hit for " ++ n
  | resolution (.resolved n) => "Resolved " ++ n
  | resolved k => "Resolved " ++ toString k ++ " bindings"
  | written k f => "Wrote " ++ toString k ++ " characters of " ++ f.word

/-- The line of a record. -/
def render (r : Record) : String :=
  "DEBUG " ++ r.source ++ ": " ++ r.message

end Record

/-- The deepest nesting of dictionaries that is written.  The writers call themselves as deep as
the values nest, and what runs them allows only so many calls within each other.  How deep that
is depends on the format and on where the writer is called from, but 150 are always allowed and
1000 never are; this one number stands for the limit in both formats. -/
def deepestWritten : Nat :=
  400

/-- A conversion: the document or the failure, and the log. -/
structure Conversion where
  result : Except Failure String
  log : List Record

namespace Conversion

/-- Writes a resolved environment, unless its values nest too deeply. -/
def writeResolved (env : Environment) (f : Format) : Except Failure String :=
  if Value.fieldsNestWithin deepestWritten env then (f.write env).mapError (.unwritable f)
  else .error (.tooDeep f)

/-- Writes a resolved environment and notes how much there is of it. -/
def ofResolved (env : Environment) (f : Format) : Conversion :=
  match writeResolved env f with
  | .error e => ⟨.error e, [.resolved env.length]⟩
  | .ok s => ⟨.ok s, [.resolved env.length, .written s.length f]⟩

/-- Resolves an environment and writes it. -/
def ofEnvironment (env : Environment) (f : Format) : Conversion :=
  let a := (Resolver.ofEnvironment env).all
  let log := a.events.map .resolution
  match a.result with
  | .error e => ⟨.error (.resolve e), log⟩
  | .ok resolved =>
    let t := ofResolved resolved f
    ⟨t.result, log ++ t.log⟩

/-- Converts a text into a format. -/
def ofText (text : String) (f : Format) : Conversion :=
  let (result, names) := readDocument text
  let log := names.map .bound
  match result with
  | .error e => ⟨.error (.read e), log⟩
  | .ok env =>
    let t := ofEnvironment env f
    ⟨t.result, log ++ t.log⟩

/-- Converts a text into the format that a word stands for. -/
def ofTextTo (text : String) (word : String) : Conversion :=
  match Format.ofWord? word with
  | none => ⟨.error (.unknownFormat word), []⟩
  | some f => ofText text f

end Conversion

/-- The document that a text converts to, or why there is none. -/
def convert (text : String) (f : Format) : Except Failure String :=
  (Conversion.ofText text f).result

end HexDoc
