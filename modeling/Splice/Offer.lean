import Splice.Agreement

/-!
# Offers to an agreement

Pieces that are offered one after another to one agreement, as sources that
still have to be compiled or as bare demands.
-/

namespace Splice

inductive Offer
  /-- A source and the letters of its flags. -/
  | source (text letters : Text)
  | demand (d : Demand) (shown : Text)
  deriving DecidableEq, Repr

namespace Offer

/-- Hears an offer. A source that does not compile leaves the agreement alone. -/
def hear (fold : Bool) (a : Agreement) : Offer → Except Error Unit × Agreement
  | .source text letters =>
    match (Pattern.compile text letters).run #[] with
    | (.ok p, _) => a.hear fold p.display p.demand
    | (.error e, _) => (.error e, a)
  | .demand d shown => a.hear fold shown d

/-- Hears offers in order, and answers the outcome of each and the agreement
behind it. -/
def hearAll (fold : Bool) (a : Agreement) : List Offer → List (Except Error Unit × Agreement)
  | [] => []
  | offer :: rest =>
    let (outcome, a) := offer.hear fold a
    (outcome, a) :: hearAll fold a rest

end Offer

end Splice
