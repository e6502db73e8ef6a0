import CostCTL.Formula.Basic

/-!
# Universal form

Every path formula that asks for some path is the negation of one that asks about all paths.
`Formula.universal` replaces each by its dual, so that only universal quantifiers remain.
-/

namespace CostCTL.Formula

/-- No quantifier over some path. -/
def isUniversal : Formula → Bool
  | atom _ => true
  | not f | within f _ => f.isUniversal
  | and l r | or l r | implies l r => l.isUniversal && r.isUniversal
  | always .all f | eventually .all f | next .all f => f.isUniversal
  | strongUntil .all l r | weakUntil .all l r => l.isUniversal && r.isUniversal
  | _ => false

/-- The condition that ends a refutation of `l` until `r`: neither holds. -/
def neither (l r : Formula) : Formula := .and (.not l) (.not r)

/-- A path refutes `l` until `r` by reaching a node where neither holds before any `r`, so the
two untils are dual to each other. -/
def universal : Formula → Formula
  | atom a => .atom a
  | not f => .not f.universal
  | and l r => .and l.universal r.universal
  | or l r => .or l.universal r.universal
  | implies l r => .implies l.universal r.universal
  | always .all f => .always .all f.universal
  | eventually .all f => .eventually .all f.universal
  | next .all f => .next .all f.universal
  | strongUntil .all l r => .strongUntil .all l.universal r.universal
  | weakUntil .all l r => .weakUntil .all l.universal r.universal
  | always .some f => .not (.eventually .all (.not f.universal))
  | eventually .some f => .not (.always .all (.not f.universal))
  | next .some f => .not (.next .all (.not f.universal))
  | strongUntil .some l r =>
    let l' := l.universal
    let r' := r.universal
    .not (.weakUntil .all (.not r') (neither l' r'))
  | weakUntil .some l r =>
    let l' := l.universal
    let r' := r.universal
    .not (.strongUntil .all (.not r') (neither l' r'))
  | within f w => .within f.universal w

end CostCTL.Formula
