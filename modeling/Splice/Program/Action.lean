import Splice.Program.Workshop

/-!
# Steps that run no other steps

What each action does to a workshop and what it answers.
-/

namespace Splice

/-- The answer to a question about a pattern. Whether it needs wrapping can be
asked of fragments only. -/
def Pattern.find (p : Pattern) : Question → Work Finding
  | .captures => do return .number (← Work.filing (p.ask .captures))
  | .references => do return .yes (← Work.filing (p.ask .references)).present
  | .alternates => do return .yes (← Work.filing (p.ask .alternates))
  | .singleGroup => do return .yes (← Work.filing (p.ask .singleGroup))
  | .needsWrapping _ => Work.fail (.malformed "what")

/-- The answer to a question about a fragment, and the fragment with all that
is now recorded. -/
def Fragment.find (f : Fragment) : Question → StateM Archive (Except Error Finding × Fragment)
  | .captures => do
    let (n, f) ← f.ask .captures
    return (.ok (.number n), f)
  | .references => do
    let (r, f) ← f.ask .references
    return (.ok (.references r), f)
  | .alternates => do
    let (b, f) ← f.ask .alternates
    return (.ok (.yes b), f)
  | .singleGroup => do
    let (b, f) ← f.ask .singleGroup
    return (.ok (.yes b), f)
  | .needsWrapping wide => do
    let (outcome, f) ← f.needsWrapping wide
    return (outcome.map .yes, f)

/-- Asks a question about a variable. What is recorded about a fragment stays
with the variable, also if the question has no answer. -/
def Work.force (name : Name) (question : Question) : Work Answer := do
  match ← lookup name with
  | .pattern p =>
    let finding ← p.find question
    return .forced finding ((Value.pattern p).view (← get).archive)
  | .fragment f =>
    let (outcome, f) ← filing (f.find question)
    modify (Workshop.store name (.fragment f))
    match outcome with
    | .ok finding => return .forced finding ((Value.fragment f).view (← get).archive)
    | .error e => throw (.ofError e)

def Work.finish (result : Option Name) (name : Name) (add remove : Option Text)
    (direction : Option Direction) : Work Answer := do
  let value ← lookup name
  let add ← flags? add
  let remove ← flags? remove
  let options : Finish := ⟨(remove.map .remove).or (add.map .add), direction⟩
  let w ← get
  let p ← onArchive (value.toFragment.finish w.fold w.stance.agreement options)
  keep result (.pattern p)

def Work.decorate (result : Option Name) (name : Name) (wrapping : Wrapping) : Work Answer := do
  let value ← lookup name
  let wide := (← get).stance.agreement.wide
  let f ← onArchive (value.toFragment.decorate wide wrapping)
  keep result (.fragment f)

def Action.run : Action → Work Answer
  | .compile result source letters => do
    let p ← Work.onArchive (Pattern.compile source (letters.getD []))
    Work.keep result (.pattern p)
  | .raw result source letters => do
    let flags ← Work.flags? letters
    Work.keep result (.fragment (.raw source flags))
  | .native result name => do
    let p ← Work.lookupPattern name
    Work.keep result (.fragment (.native p))
  | .copy result name => do
    let value ← Work.lookup name
    Work.keep result value
  | .decorate result name wrapping => Work.decorate result name wrapping
  | .finish result name add remove direction => Work.finish result name add remove direction
  | .stance => do return .stance (← get).stance
  | .reset => do
    modify Workshop.reset
    return .done
  | .inspect name => do
    let value ← Work.lookup name
    Work.keep none value
  | .force name question => Work.force name question
  | .same first second => do
    let p ← Work.lookupPattern first
    let q ← Work.lookupPattern second
    return .same (p.number == q.number)
  | .checkDirection name building => do
    let p ← Work.lookupPattern name
    match p.traits.direction.check building p.source with
    | .ok directed => return .directed directed
    | .error e => throw (.ofError e)
  | .malformed before field => do
    Work.requireAll before
    Work.fail (.malformed field)

end Splice
