import Splice.Analysis
import Splice.Error
import Splice.Grammar.Pattern

/-!
# Patterns

A pattern is a source that the grammar accepts under its flags. Every copy of
a pattern shares one record of analyses, kept in an archive under the
pattern's number.
-/

namespace Splice

variable {α : Type}

/-- The circumstances under which a piece of source was built. -/
structure Traits where
  /-- The direction that its back references were built for. -/
  direction : Direction
  wide : Bool
  /-- The flag `i` of the patterns it was built from, if there were any. -/
  ignoreCase : Option Bool
  /-- The flag `m` of the patterns it was built from. -/
  multiline : Option Bool
  deriving DecidableEq, Repr

/-- The traits of a piece that constrains nothing. -/
def Traits.plain : Traits := ⟨.neutral, false, none, none⟩

structure Pattern where
  /-- Where the archive keeps its analyses. -/
  number : Nat
  source : Text
  flags : Flags
  traits : Traits
  deriving DecidableEq, Repr

/-- The recorded analyses of all patterns, by number. -/
abbrev Archive := Array Analysis

namespace Archive

def analysis (archive : Archive) (number : Nat) : Analysis := archive[number]?.getD .empty

/-- Answers a question about a source that a numbered pattern stands for. -/
def ask (number : Nat) (p : Property α) (source : Text) : StateM Archive α := fun archive =>
  let (answer, analysis) := (archive.analysis number).ask p source
  (answer, archive.setIfInBounds number analysis)

end Archive

namespace Pattern

/-- How an empty source is shown. -/
def emptyGroup : Text := "(?:)".toList

def display (p : Pattern) : Text :=
  Error.slashed (if p.source = [] then emptyGroup else p.source) p.flags.render

/-- Makes a pattern of a source that the grammar accepts. -/
def make (source : Text) (flags : Flags) (traits : Traits) (analysis : Analysis) :
    ExceptT Error (StateM Archive) Pattern := do
  if Grammar.accepts flags.unicode source then
    let number := (← get).size
    modify (·.push analysis)
    return ⟨number, source, flags, traits⟩
  else throw (.invalidPattern source flags)

/-- Compiles a source under the flags that some letters name. The letters are
read before the source. -/
def compile (source letters : Text) : ExceptT Error (StateM Archive) Pattern :=
  match Flags.parse letters with
  | .error cause => throw (.flags cause)
  | .ok flags => make source flags { Traits.plain with wide := flags.unicode } .empty

def ask (pattern : Pattern) (p : Property α) : StateM Archive α :=
  Archive.ask pattern.number p pattern.source

end Pattern

end Splice
