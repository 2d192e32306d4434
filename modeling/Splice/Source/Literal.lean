import Splice.Text

/-!
# Literal text as a source

A source that matches a given text and nothing else.
-/

namespace Splice.Source

/-- The characters with a meaning of their own outside classes. -/
def metaCharacters : Text := ".?*+^$[]\\()\x7b\x7d|".toList

def ofChar (c : Char) : Text := if metaCharacters.contains c then ['\\', c] else [c]

def ofLiteral (t : Text) : Text := t.flatMap ofChar

end Splice.Source
