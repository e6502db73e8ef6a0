import CostCTL.Proofs.Answer

/-!
# What validation rules out

A specification that validates is checked to an answer: its windows never conflict and its formulas
have the shape that the search expects. All that can still go wrong is seen at a node only: a
variable that is not there, or one that has no order. Where the variables are as the comparisons
need them (`Comparison.FitsAt`), nothing can.
-/

namespace CostCTL

variable {g : Kripke} {f : Formula}

/-! ### Atoms at a node -/

/-- The fault is seen at a node only. -/
def AtomError.isLocal : AtomError → Bool
  | operandShape _ | nonNumericOrdering _ => false
  | unknownVariable .. | domainMismatch .. => true

namespace Comparison

variable {c : Comparison} {node : Node} {i : NodeId} {e : AtomError}

/-- The compared variable is there, and it is an integer if the comparison is by order. -/
def FitsAt (c : Comparison) (node : Node) : Prop :=
  ∀ name relation literal, c.oriented = .ok (name, relation, literal) →
    ∃ v, node.var? name = some v ∧ (relation.isOrdering = true → v.isNumeric = true)

/-- A comparison by order is with a number, if it validates. -/
theorem oriented_of_validate (h : c.validate = .ok ()) :
    ∃ name relation literal, c.oriented = .ok (name, relation, literal) ∧
      (relation.isOrdering = true → literal.isNumeric = true) := by
  obtain ⟨⟨name, relation, literal⟩, ho, h⟩ := Formula.exists_of_bind_eq_ok h
  refine ⟨name, relation, literal, ho, fun hr => ?_⟩
  cases hl : literal.isNumeric with
  | true => rfl
  | false => simp [hr, hl] at h

/-- Two values that are not both integers are compared by equality alone. -/
theorem compareValues_eq_error {relation : Relation} {found literal : Value}
    (h : c.compareValues i relation found literal = .error e) :
    e = .domainMismatch c i found.domain ∧ relation.isOrdering = true ∧
      (found.isNumeric = false ∨ literal.isNumeric = false) := by
  unfold compareValues at h
  split at h
  · cases h
  · next hints =>
    split at h
    · next ho =>
      cases h
      refine ⟨rfl, ho, ?_⟩
      cases found <;> cases literal <;> simp_all [Value.isNumeric]
    · cases h

/-- What a comparison that validates can fail by. -/
theorem evaluate_eq_error (hv : c.validate = .ok ()) (h : c.evaluate node i = .error e) :
    e.isLocal = true ∧ ¬ c.FitsAt node := by
  obtain ⟨name, relation, literal, ho, hnum⟩ := oriented_of_validate hv
  simp only [evaluate, hv, ho, bind, Except.bind] at h
  cases hvar : node.var? name with
  | none =>
    rw [hvar] at h
    cases h
    refine ⟨rfl, fun hfits => ?_⟩
    obtain ⟨v, hsome, -⟩ := hfits name relation literal ho
    rw [hvar] at hsome
    cases hsome
  | some found =>
    rw [hvar] at h
    obtain ⟨rfl, hord, hvalues⟩ := compareValues_eq_error h
    refine ⟨rfl, fun hfits => ?_⟩
    obtain ⟨v, hsome, hint⟩ := hfits name relation literal ho
    cases hvar.symm.trans hsome
    simp [hint hord, hnum hord] at hvalues

end Comparison

namespace Atom

def FitsAt : Atom → Node → Prop
  | compare c, node => c.FitsAt node
  | const _, _ | inState _, _ => True

theorem evaluate_eq_error {a : Atom} {node : Node} {i : NodeId} {e : AtomError}
    (hv : a.validate = .ok ()) (h : a.evaluate node i = .error e) :
    e.isLocal = true ∧ ¬ a.FitsAt node := by
  cases a with
  | const | inState => cases h
  | compare c => exact Comparison.evaluate_eq_error hv h

end Atom

namespace Formula

/-- A formula validates only if its atoms do. -/
theorem validate_of_mem_atoms {w : Window} (h : f.validateUnder w = .ok ()) {a : Atom}
    (ha : a ∈ f.atoms) : a.validate = .ok () := by
  induction f generalizing w with
  | atom b =>
    obtain rfl := List.mem_singleton.mp ha
    rw [validateUnder] at h
    cases hv : a.validate with
    | ok => rfl
    | error e => rw [hv] at h; cases h
  | not f ih | always q f ih | eventually q f ih | next q f ih => exact ih h ha
  | and l r ihl ihr | or l r ihl ihr | implies l r ihl ihr | strongUntil q l r ihl ihr
    | weakUntil q l r ihl ihr =>
    obtain ⟨_, hl, hr⟩ := exists_of_bind_eq_ok h
    rcases List.mem_append.mp ha with ha | ha
    · exact ihl hl ha
    · exact ihr hr ha
  | within f v ih =>
    obtain ⟨u, -, h⟩ := validateUnder_within h
    exact ih h ha

end Formula

/-! ### Checks -/

namespace Checker

/-- A check of a valid specification accepts it, or names a requirement that is violated, or finds
at a node that a compared variable is not there or has no order. It ends in no other way: windows
do not conflict, and no record is missed. If all compared variables are there, and are integers
where they are compared by order, it accepts or names a requirement. -/
theorem answers_of_validate (c : Checker) (spec : Specification)
    (hl : c.settings.popLimit = none) (hv : spec.validate = .ok ()) :
    ((c.check spec).1.result = .ok () ∨
      (∃ k f x, spec[k]? = some f ∧
        (c.check spec).1.result = .error (.error (.unsatisfied k f x))) ∨
      (∃ name i,
        (c.check spec).1.result = .error (.error (.malformed (.atom (.unknownVariable name i))))) ∨
      ∃ a i found, (c.check spec).1.result =
        .error (.error (.malformed (.atom (.domainMismatch a i found))))) ∧
    ((∀ f ∈ spec, ∀ a ∈ f.atoms, ∀ i node, c.graph.node? i = some node → a.FitsAt node) →
      (c.check spec).1.result = .ok () ∨ ∃ k f x, spec[k]? = some f ∧
        (c.check spec).1.result = .error (.error (.unsatisfied k f x))) := by
  cases h : (c.check spec).1.result with
  | ok a => exact ⟨.inl rfl, fun _ => .inl rfl⟩
  | error e =>
    rcases exists_of_check_error_of_valid hl hv h with
      ⟨k, f, x, -, -, hf, rfl, -⟩ | ⟨f, hf, a, ha, i, node, x, hn, hx, rfl⟩
    · exact ⟨.inr (.inl ⟨k, f, x, hf, rfl⟩), fun _ => .inr ⟨k, f, x, hf, rfl⟩⟩
    · have hatom := Formula.validate_of_mem_atoms (Specification.validate_of_mem hv hf) ha
      obtain ⟨hlocal, hfits⟩ := Atom.evaluate_eq_error hatom hx
      refine ⟨.inr (.inr ?_), fun hall => absurd (hall f hf a ha i node hn) hfits⟩
      cases x with
      | operandShape | nonNumericOrdering => cases hlocal
      | unknownVariable name j => exact .inl ⟨name, j, rfl⟩
      | domainMismatch b j found => exact .inr ⟨b, j, found, rfl⟩

end Checker

/-- Two nodes, in which the variable `x` has the values one and two. -/
def Kripke.counting : Kripke where
  nodes := #[⟨⟨(∅ : SortedMap String Value).insert "x" (.int 1), false, "", ""⟩, .read⟩,
    ⟨⟨(∅ : SortedMap String Value).insert "x" (.int 2), false, "", ""⟩, .read⟩]
  edges := #[[⟨⟨1⟩, ⟨1, 0⟩⟩], [⟨⟨0⟩, ⟨1, 0⟩⟩]]
  initial := (∅ : SortedSet NodeId).insert ⟨0⟩
  size_edges := rfl
  total := by simp
  inside := by simp
  initial_nonempty := toList_insert_first
  initial_inside := by decide

theorem Kripke.var?_counting {i : NodeId} {node : Node} (h : counting.node? i = some node) :
    ∃ n, node.var? "x" = some (.int n) := by
  obtain ⟨_ | _ | k⟩ := i
  · cases h
    exact ⟨1, by decide⟩
  · cases h
    exact ⟨2, by decide⟩
  · cases h

/-- Where a variable is an integer, it may be compared by order on either side. -/
theorem Checker.answers_counting :
    let spec : Specification := [.within (.strongUntil .all
      (.atom (.compare ⟨.var "x", .lt, .lit (.int 2)⟩))
      (.atom (.compare ⟨.lit (.int 2), .le, .var "x"⟩)))
      (.ofList [⟨.time, .le, ⟨3, ⟨.time, .pico⟩⟩⟩])]
    spec.validate = .ok () ∧
      (((small .counting .breadthFirst).check spec).1.result = .ok () ∨ ∃ k f x, spec[k]? = some f ∧
        ((small .counting .breadthFirst).check spec).1.result =
          .error (.error (.unsatisfied k f x))) := by
  refine ⟨by decide, (answers_of_validate _ _ rfl (by decide)).2 ?_⟩
  intro f hf a ha i node hn
  obtain ⟨n, hx⟩ := Kripke.var?_counting hn
  obtain rfl := List.mem_singleton.mp hf
  rcases List.mem_cons.mp ha with rfl | ha
  · intro name relation literal ho
    cases ho
    exact ⟨.int n, hx, fun _ => rfl⟩
  · obtain rfl := List.mem_singleton.mp ha
    intro name relation literal ho
    cases ho
    exact ⟨.int n, hx, fun _ => rfl⟩

end CostCTL
