import Rql.Error

/-!
# Predicates

A predicate is a tree: comparisons at the leaves, conjunctions at the groups. The checked ways to
build one, `Comparison.make` and `Predicate.makeGroup`, allow neither a comparison with a number of
values that its operator does not take nor a group without members.

A predicate is read from a term (`ofTerm`). A call of a conjunction is a group of the predicates
that its arguments are. A call of an operator is a comparison: the first argument is the field,
quoted or not, and every further one is a value. No other term is a predicate.
-/

namespace Rql

/-- A comparison whose field is not empty and whose operator takes that many values. -/
def Comparison.make (op : Operator) (field : String) (values : List Literal) :
    Except Fault Comparison :=
  if field = "" then .error (.noField op)
  else if op.arity.accepts values.length then .ok ⟨op, field, values⟩
  else .error (.wrongValueCount op field values.length)

/-- A condition on the fields of a record. -/
inductive Predicate where
  | compare (c : Comparison)
  | group (conjunction : Conjunction) (members : List Predicate)
deriving Repr, Inhabited

namespace Predicate

/-- A group with at least one member. -/
def makeGroup (conjunction : Conjunction) (members : List Predicate) : Except Fault Predicate :=
  if members.isEmpty then .error (.emptyGroup conjunction) else .ok (.group conjunction members)

/-- The name of the operator or the conjunction. -/
def token : Predicate → String
  | .compare c => c.op.token
  | .group conjunction _ => conjunction.token

/-- The comparison that a predicate is. -/
def comparison? : Predicate → Option Comparison
  | .compare c => some c
  | .group .. => none

mutual

/-- The predicate as it stands in a query. -/
def render : Predicate → String
  | .compare c => c.render
  | .group conjunction members => conjunction.token ++ "(" ++ renderMembers members ++ ")"

/-- The members with commas between them. -/
def renderMembers : List Predicate → String
  | [] => ""
  | [member] => render member
  | member :: rest => render member ++ "," ++ renderMembers rest

end

mutual

/-- How deep groups lie inside one another. -/
def depth : Predicate → Nat
  | .compare _ => 0
  | .group _ members => 1 + depthOfMembers members

/-- The greatest depth of the members. -/
def depthOfMembers : List Predicate → Nat
  | [] => 0
  | member :: rest => max (depth member) (depthOfMembers rest)

end

mutual

/-- The comparisons of the tree from left to right. -/
def comparisons : Predicate → List Comparison
  | .compare c => [c]
  | .group _ members => comparisonsOfMembers members

/-- The comparisons of the members from left to right. -/
def comparisonsOfMembers : List Predicate → List Comparison
  | [] => []
  | member :: rest => comparisons member ++ comparisonsOfMembers rest

end

mutual

/-- What is left when groups of one conjunction give way to their members, however deep. -/
def flatten (conjunction : Conjunction) : Predicate → List Predicate
  | .compare c => [.compare c]
  | .group other members =>
    if other = conjunction then flattenMembers conjunction members else [.group other members]

/-- `flatten` for each of the members. -/
def flattenMembers (conjunction : Conjunction) : List Predicate → List Predicate
  | [] => []
  | member :: rest => flatten conjunction member ++ flattenMembers conjunction rest

end

mutual

/-- Equality of predicates is decided from the root down. -/
def decEq : (p q : Predicate) → Decidable (p = q)
  | .compare c, .compare d =>
    if h : c = d then isTrue (h ▸ rfl) else isFalse fun e => h (Predicate.compare.inj e)
  | .compare _, .group .. => isFalse nofun
  | .group .., .compare _ => isFalse nofun
  | .group c ps, .group d qs =>
    if hc : c = d then
      match decEqMembers ps qs with
      | isTrue hm => isTrue (hc ▸ hm ▸ rfl)
      | isFalse hm => isFalse fun e => hm (Predicate.group.inj e).2
    else isFalse fun e => hc (Predicate.group.inj e).1

/-- Equality of lists of predicates, member by member. -/
def decEqMembers : (ps qs : List Predicate) → Decidable (ps = qs)
  | [], [] => isTrue rfl
  | [], _ :: _ => isFalse nofun
  | _ :: _, [] => isFalse nofun
  | p :: ps, q :: qs =>
    match decEq p q, decEqMembers ps qs with
    | isTrue hp, isTrue hr => isTrue (hp ▸ hr ▸ rfl)
    | isFalse hp, _ => isFalse fun e => hp (List.cons.inj e).1
    | _, isFalse hr => isFalse fun e => hr (List.cons.inj e).2

end

instance : DecidableEq Predicate := decEq

/-! ## Predicates from terms -/

/-- The values that the further arguments of an operator are. -/
def valuesOfTerms (op : Operator) (args : List Term) : Except Fault (List Literal) :=
  args.mapM fun
    | .word l => .ok l
    | arg => .error (.callForValue op arg)

/-- The comparison that a call of an operator is. -/
def ofOperatorCall (op : Operator) : List Term → Except Fault Predicate
  | [] => .error (.noField op)
  | .call .. :: _ => .error (.callForField op)
  | .word field :: args => do
    let values ← valuesOfTerms op args
    return .compare (← Comparison.make op field.text values)

mutual

/-- The predicate that a term is. -/
def ofTerm : Term → Except Fault Predicate
  | .word l => .error (.wordForPredicate l)
  | .call name args =>
    match Conjunction.ofToken? name with
    | some conjunction =>
      match ofTerms args with
      | .error fault => .error fault
      | .ok members => makeGroup conjunction members
    | none =>
      match Operator.ofToken? name with
      | some op => ofOperatorCall op args
      | none => .error (.unknownFunction name)

/-- The predicates that terms are, up to the first that is none. -/
def ofTerms : List Term → Except Fault (List Predicate)
  | [] => .ok []
  | t :: rest =>
    match ofTerm t with
    | .error fault => .error fault
    | .ok p =>
      match ofTerms rest with
      | .error fault => .error fault
      | .ok ps => .ok (p :: ps)

end

end Predicate

end Rql
