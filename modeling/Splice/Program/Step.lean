import Splice.Assembly
import Splice.Finishing
import Splice.Wrapping

/-!
# Programs

A program is a list of steps that make, inspect and combine named values. The
items of an assembly may contain deferred builders, which are programs
themselves and run while the assembly is under way.
-/

namespace Splice

abbrev Name := String

inductive Value
  | pattern (p : Pattern)
  | fragment (f : Fragment)
  deriving DecidableEq, Repr

/-- The values of variables, the latest first. -/
abbrev Bindings := List (Name × Value)

def Value.toFragment : Value → Fragment
  | .pattern p => .native p
  | .fragment f => f

inductive Question
  | captures
  | references
  | alternates
  | singleGroup
  /-- Whether a quantifier needs a group around it; for fragments only. -/
  | needsWrapping (wide : Bool)
  deriving DecidableEq, Repr

/-- What has to hold before a step does its work. A step looks at its
requirements in order, and the first that does not hold is why it fails. -/
inductive Requirement
  | defined (name : Name)
  /-- The variable has a value, and it is a pattern. -/
  | pattern (name : Name)
  | flags (letters : Text)
  /-- A field that cannot be read. This never holds. -/
  | malformed (field : String)
  deriving DecidableEq, Repr

/-- A step that runs no other steps. Where `result` names a variable, it
receives the value that the step makes. -/
inductive Action
  | compile (result : Option Name) (source : Text) (flags : Option Text)
  /-- A composite with any source, which nothing checks. -/
  | raw (result : Option Name) (source : Text) (flags : Option Text)
  | native (result : Option Name) (of : Name)
  | copy (result : Option Name) (of : Name)
  | decorate (result : Option Name) (of : Name) (wrapping : Wrapping)
  /-- Flags to remove, if given, replace flags to add. -/
  | finish (result : Option Name) (of : Name) (add remove : Option Text)
      (direction : Option Direction)
  | stance
  | reset
  | inspect (of : Name)
  | force (of : Name) (question : Question)
  | same (first second : Name)
  | checkDirection (of : Name) (building : Direction)
  /-- A step that cannot be read to its end, with what it requires up to there. -/
  | malformed (before : List Requirement) (field : String)
  deriving Repr

/-- How nested steps are shielded from the steps around them. -/
inductive Shield
  /-- Flags and direction are restored behind them. -/
  | reentrant
  /-- The same, and they start from fresh flags. -/
  | scope
  /-- They build in a direction, which is restored behind them. -/
  | direction (d : Direction)
  deriving DecidableEq, Repr

mutual
inductive Item
  | literal (text : Text)
  | pattern (p : Pattern)
  | fragment (f : Fragment)
  | named (name : Name)
  | tree (items : List Item)
  /-- Runs steps and then stands for another item. -/
  | deferred (steps : List Step) (result : Item)
  /-- An item that cannot be read. -/
  | malformed (field : String)

inductive Step
  | action (a : Action)
  | assemble (result : Option Name) (items : List Item) (layout : Layout)
  | nested (shield : Shield) (steps : List Step)
end

def Item.isDeferred : Item → Bool
  | .deferred .. => true
  | _ => false

mutual
/-- What an item requires before its assembly starts. Deferred builders require
nothing until they run. -/
def Item.requirements : Item → List Requirement
  | .named name => [.defined name]
  | .tree items => Item.requirementsAll items
  | .malformed field => [.malformed field]
  | .literal _ | .pattern _ | .fragment _ | .deferred .. => []

def Item.requirementsAll : List Item → List Requirement
  | [] => []
  | item :: rest => item.requirements ++ Item.requirementsAll rest
end

end Splice
