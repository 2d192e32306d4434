import Splice.Agreement
import Splice.Source.Emulation
import Splice.Source.Literal
import Splice.Source.Repetition
import Splice.Source.WideMode

/-!
# Fragments

A fragment is a piece of source together with where it came from. A native
fragment stands for a pattern and shares the pattern's record of analyses,
even after its own source has been respelled. A composite owns its record. A
literal is escaped text, about which nothing needs recording.
-/

namespace Splice

variable {α : Type}

inductive Origin
  | native (pattern : Pattern)
  | literal
  | composite (traits : Traits) (analysis : Analysis)
  deriving DecidableEq, Repr

structure Fragment where
  source : Text
  origin : Origin
  deriving DecidableEq, Repr

/-- The answer about a literal: it holds no group, no reference and no bar. -/
def Property.ofLiteral : Property α → Text → α
  | .captures, _ => 0
  | .references, _ => .none
  | .alternates, _ => false
  | .singleGroup, source => Source.isSingleGroup source

namespace Fragment

def native (p : Pattern) : Fragment := ⟨p.source, .native p⟩

def literal (t : Text) : Fragment := ⟨Source.ofLiteral t, .literal⟩

def composite (source : Text) (traits : Traits) (analysis : Analysis) : Fragment :=
  ⟨source, .composite traits analysis⟩

/-- A composite with any source, as if built from one pattern with some flags,
or from none. -/
def raw (source : Text) (flags : Option Flags) : Fragment :=
  let traits := match flags with
    | none => Traits.plain
    | some f => ⟨.neutral, f.unicode, some f.ignoreCase, some f.multiline⟩
  composite source traits .empty

def isLiteral (f : Fragment) : Bool :=
  match f.origin with
  | .literal => true
  | _ => false

def traits? (f : Fragment) : Option Traits :=
  match f.origin with
  | .native p => some p.traits
  | .literal => none
  | .composite t _ => some t

def isWide (f : Fragment) : Bool := f.traits?.any Traits.wide

def analysis (archive : Archive) (f : Fragment) : Analysis :=
  match f.origin with
  | .native p => archive.analysis p.number
  | .literal => .empty
  | .composite _ a => a

/-- Answers a question about a fragment, and the fragment with the answer
recorded. -/
def ask (p : Property α) (f : Fragment) : StateM Archive (α × Fragment) :=
  match f.origin with
  | .native pattern => do
    let answer ← Archive.ask pattern.number p f.source
    return (answer, f)
  | .literal => return (p.ofLiteral f.source, f)
  | .composite traits analysis =>
    let (answer, analysis) := analysis.ask p f.source
    return (answer, { f with origin := .composite traits analysis })

/-- Whether a quantifier behind the fragment would bind to part of it only. The
question whether it is one group is asked only where the answer matters. -/
def needsWrapping (wide : Bool) (f : Fragment) :
    StateM Archive (Except Error Bool × Fragment) :=
  match Source.repeatability wide f.source with
  | .nothing => return (.error (Source.nothingToRepeat f.source), f)
  | .whole => return (.ok false, f)
  | .wholeIfGroup assertion => do
    let (isGroup, g) ← f.ask .singleGroup
    return (Source.wrapsGiven f.source isGroup assertion, g)

def promote (f : Fragment) : Except Error Fragment :=
  if Source.hasWideProblem f.source then .error (.widePromotion f.source)
  else .ok { f with source := Source.promote f.source }

/-- Spells out the flags of a native fragment that a composite cannot have. -/
def emulate (fold : Bool) (f : Fragment) : Fragment :=
  match f.origin with
  | .native p =>
    let folds := fold && p.flags.multiline
    if p.flags.dotAll || folds then
      { f with source := Source.emulate p.flags.dotAll folds f.source }
    else f
  | _ => f

def adapt (fold wide : Bool) (f : Fragment) : Except Error Fragment :=
  let f := f.emulate fold
  if wide && !f.isLiteral && !f.isWide then f.promote else .ok f

def grouped (f : Fragment) : Fragment :=
  composite ("(?:".toList ++ f.source ++ [')']) (f.traits?.getD .plain) .empty

end Fragment

end Splice
