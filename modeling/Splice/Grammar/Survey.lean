import Splice.Grammar.Escape

/-!
# A survey of parentheses and names

References may name groups that open later, so a pattern is surveyed before it
is read: how many parentheses of any kind stand outside classes, and which
names its groups have. No two groups share a name.
-/

namespace Splice.Grammar

structure Survey where
  parentheses : Nat
  names : List Text
  deriving DecidableEq, Repr

/-- The name of the group whose parenthesis stands before a text. -/
def groupName? : Text → Option Text
  | '?' :: '<' :: rest => (name? rest).map Prod.fst
  | _ => none

/-- Adds a parenthesis to a survey. Fails on a name that is already taken. -/
def Survey.add (found : Survey) (rest : Text) : Option Survey :=
  match groupName? rest with
  | none => some { found with parentheses := found.parentheses + 1 }
  | some name =>
    if found.names.contains name then none
    else some ⟨found.parentheses + 1, name :: found.names⟩

/-- Continues a survey. A backslash hides the character behind it, and a
bracket everything up to the bracket that closes the class. -/
def surveyFrom (inClass : Bool) (found : Survey) : Text → Option Survey
  | [] => some found
  | '\\' :: rest => surveyFrom inClass found (rest.drop 1)
  | '[' :: rest => surveyFrom true found rest
  | ']' :: rest => surveyFrom false found rest
  | '(' :: rest =>
    if inClass then surveyFrom inClass found rest
    else
      match found.add rest with
      | some found => surveyFrom inClass found rest
      | none => none
  | _ :: rest => surveyFrom inClass found rest
termination_by t => t.length
decreasing_by all_goals (simp only [List.length_drop, List.length_cons]; omega)

def survey? (source : Text) : Option Survey := surveyFrom false ⟨0, []⟩ source

end Splice.Grammar
