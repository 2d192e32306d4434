import Splice.Identifier
import Splice.UnicodeEscape

/-!
# Group names

A group name may spell a character as an escape by code point. `unescape`
replaces every escape by its character; a raw text names a group in wide mode
when what remains is an identifier.
-/

namespace Splice.GroupName

/-- Decodes the escapes of a name. A backslash that starts none is refused. -/
def unescape : Text → Option Text
  | [] => some []
  | '\\' :: 'u' :: t =>
    match UnicodeEscape.char? t with
    | some (c, length) => (unescape (t.drop length)).map (c :: ·)
    | none => none
  | c :: t => if c = '\\' then none else (unescape t).map (c :: ·)
termination_by t => t.length
decreasing_by all_goals (simp only [List.length_drop, List.length_cons]; omega)

def isValid (raw : Text) : Bool := (unescape raw).any (Identifier.isIdentifier .unicode16)

end Splice.GroupName
