import MiniC.Proofs.Scoping
import MiniC.Quad.Lowering

/-!
# The code of a tree

What lowering produces depends only on the tree and on the numbers of the first temporary and the
first label that are free. Here it is given outright, without the table: the quadruples, the name
that holds the value of an expression, and how many temporaries and labels are used up.

Labels are numbered as they are needed, so no two marks of a function have the same one.
-/

namespace MiniC

open Lower (temporaryName)

/-! ## Temporaries -/

theorem toDigits_injective {m n : Nat} (same : Nat.toDigits 10 m = Nat.toDigits 10 n) : m = n := by
  have read (k : Nat) : Nat.ofDigitChars 10 (Nat.toDigits 10 k) 0 = k :=
    Nat.ofDigitChars_toDigits (by decide) (Nat.le_refl 10)
  rw [← read m, same, read n]

theorem temporaryName_injective {m n : Nat} (same : temporaryName m = temporaryName n) : m = n := by
  have chars := congrArg String.toList same
  exact toDigits_injective (by simpa [temporaryName] using chars)

/-- No name of the source is that of a temporary. -/
theorem IsIdentifier.ne_temporaryName {name : String} (isName : IsIdentifier name) (n : Nat) :
    name ≠ temporaryName n := by
  rintro rfl
  have dollar := isName.word '$' (by simp [temporaryName])
  exact absurd dollar (by decide)

namespace Node

mutual
/-- Number of temporaries that the code of a node uses. -/
def temporaryCount : Node → Nat
  | integer .. => 1
  | unary _ _ operand => operand.temporaryCount + 1
  | binary _ _ lhs rhs => lhs.temporaryCount + rhs.temporaryCount + 1
  | call _ _ arguments => temporaryCounts arguments + 1
  | block _ _ statements => temporaryCounts statements
  | returnValue _ value => value.temporaryCount
  | assignment _ _ value => value.temporaryCount
  | ifThen _ condition consequent => condition.temporaryCount + consequent.temporaryCount
  | ifElse _ condition consequent alternative =>
      condition.temporaryCount + consequent.temporaryCount + alternative.temporaryCount
  | _ => 0
def temporaryCounts : List Node → Nat
  | [] => 0
  | node :: nodes => node.temporaryCount + temporaryCounts nodes
end

mutual
/-- Number of labels that the code of a statement uses. -/
def labelCount : Node → Nat
  | block _ _ statements => labelCounts statements
  | ifThen _ _ consequent => consequent.labelCount + 1
  | ifElse _ _ consequent alternative => consequent.labelCount + alternative.labelCount + 2
  | _ => 0
def labelCounts : List Node → Nat
  | [] => 0
  | node :: nodes => node.labelCount + labelCounts nodes
end

/-- The name that holds the value of an expression. Its own temporary comes after those of its
parts, the first of which is number `next`. -/
def valueName (next : Nat) : Node → String
  | identifier _ name => name
  | unary _ _ operand => temporaryName (next + operand.temporaryCount)
  | binary _ _ lhs rhs => temporaryName (next + lhs.temporaryCount + rhs.temporaryCount)
  | call _ _ arguments => temporaryName (next + temporaryCounts arguments)
  | _ => temporaryName next

/-- The names that hold the values of expressions. -/
def valueNames : (next : Nat) → List Node → List String
  | _, [] => []
  | next, node :: nodes => node.valueName next :: valueNames (next + node.temporaryCount) nodes

/-- The name of something to call. -/
def calleeName : Node → String
  | identifier _ name => name
  | _ => ""

mutual
/-- Code of an expression in `scope`. -/
def valueCode (scope : ScopeId) : (next : Nat) → Node → List Quad
  | next, integer _ value => [.load value (temporaryName next) scope]
  | next, unary info op operand =>
      operand.valueCode scope next ++
        [.unary op (operand.valueName next) ((unary info op operand).valueName next) scope]
  | next, binary info op lhs rhs =>
      lhs.valueCode scope next ++ (rhs.valueCode scope (next + lhs.temporaryCount) ++
        [.binary op (lhs.valueName next) (rhs.valueName (next + lhs.temporaryCount))
          ((binary info op lhs rhs).valueName next) scope])
  | next, call info callee arguments =>
      valueCodes scope next arguments ++
        ((valueNames next arguments).reverse.map (Quad.param · scope) ++
          [.call callee.calleeName arguments.length ((call info callee arguments).valueName next)
            scope])
  | _, _ => []
def valueCodes (scope : ScopeId) : (next : Nat) → List Node → List Quad
  | _, [] => []
  | next, node :: nodes =>
      node.valueCode scope next ++ valueCodes scope (next + node.temporaryCount) nodes
end

mutual
/-- Code of a statement in `scope`, where `next` and `label` are the numbers of the first temporary
and the first label. -/
def statementCode (exit : Label) : (scope : ScopeId) → (next label : Nat) → Node → List Quad
  | scope, next, label, block info _ statements =>
      statementsCode exit (info.scope.getD scope) next label statements
  | scope, next, _, returnValue _ value =>
      value.valueCode scope next ++ [.ret exit (value.valueName next) scope]
  | scope, next, _, assignment _ target value =>
      value.valueCode scope next ++ [.assign (value.valueName next) target scope]
  | scope, next, label, ifThen _ condition consequent =>
      condition.valueCode scope next ++
        .jumpIfNot (condition.valueName next) ⟨label⟩ scope ::
          (consequent.statementCode exit scope (next + condition.temporaryCount) (label + 1) ++
            [.mark ⟨label⟩ scope])
  | scope, next, label, ifElse _ condition consequent alternative =>
      condition.valueCode scope next ++
        .jumpIfNot (condition.valueName next) ⟨label⟩ scope ::
          (consequent.statementCode exit scope (next + condition.temporaryCount) (label + 1) ++
            .jump ⟨label + 1 + consequent.labelCount⟩ scope :: .mark ⟨label⟩ scope ::
              (alternative.statementCode exit scope
                  (next + condition.temporaryCount + consequent.temporaryCount)
                  (label + 1 + consequent.labelCount + 1) ++
                [.mark ⟨label + 1 + consequent.labelCount⟩ scope]))
  | _, _, _, _ => []
def statementsCode (exit : Label) : (scope : ScopeId) → (next label : Nat) → List Node → List Quad
  | _, _, _, [] => []
  | scope, next, label, node :: nodes =>
      node.statementCode exit scope next label ++
        statementsCode exit scope (next + node.temporaryCount) (label + node.labelCount) nodes
end

/-- Code of a function with that body: its exit has the label of the number before. -/
def functionCode (scope : ScopeId) (next label : Nat) (body : Node) : List Quad :=
  body.statementCode ⟨label⟩ scope next (label + 1) ++ [.mark ⟨label⟩ scope]

end Node

/-! ## Marks -/

theorem split_at {α : Type} {list : List α} {index : Nat} {a : α} (found : list[index]? = some a) :
    list = list.take index ++ a :: list.drop (index + 1) := by
  obtain ⟨lt, rfl⟩ := List.getElem?_eq_some_iff.1 found
  rw [List.getElem_cons_drop, List.take_append_drop]

/-- The label that a quadruple marks. -/
def Quad.marked? (quad : Quad) : Option Label :=
  match quad.op, quad.operand1 with
  | .label, some (.label label) => some label
  | _, _ => none

theorem Quad.marked?_eq_some_iff {quad : Quad} {label : Label} :
    quad.marked? = some label ↔ quad.op = .label ∧ quad.operand1 = some (.label label) := by
  constructor
  · intro marked
    unfold Quad.marked? at marked
    split at marked
    · next isLabel operand =>
      cases marked
      exact ⟨isLabel, operand⟩
    · cases marked
  · rintro ⟨isLabel, operand⟩
    rw [Quad.marked?, isLabel, operand]

theorem Quad.op_of_marked {quad : Quad} {label : Label} (marked : quad.marked? = some label) :
    quad.op = .label :=
  (marked?_eq_some_iff.1 marked).1

/-- The labels that are marked. -/
def marks (code : List Quad) : List Label :=
  code.filterMap Quad.marked?

theorem marks_append (first second : List Quad) :
    marks (first ++ second) = marks first ++ marks second :=
  List.filterMap_append

theorem marks_cons (quad : Quad) (code : List Quad) :
    marks (quad :: code) = quad.marked?.toList ++ marks code := by
  unfold marks
  rw [List.filterMap_cons]
  cases quad.marked? <;> rfl

namespace Node

@[simp] theorem marked?_binary (op : BinaryOp) (lhs rhs result : String) (scope : ScopeId) :
    (Quad.binary op lhs rhs result scope).marked? = none := by
  cases op <;> rfl

@[simp] theorem marked?_unary (op : UnaryOp) (operand result : String) (scope : ScopeId) :
    (Quad.unary op operand result scope).marked? = none := by
  cases op <;> rfl

theorem marks_pushes (names : List String) (scope : ScopeId) :
    marks (names.map (Quad.param · scope)) = [] := by
  induction names with
  | nil => rfl
  | cons name names ih => exact ih

mutual
/-- An expression has no marks. -/
theorem marks_valueCode (scope : ScopeId) : (node : Node) → ∀ next : Nat,
    marks (node.valueCode scope next) = []
  | integer .. => fun _ => rfl
  | unary info op operand => by
    intro next
    rw [valueCode, marks_append, marks_valueCode scope operand, marks_cons, marked?_unary]
    rfl
  | binary info op lhs rhs => by
    intro next
    rw [valueCode, marks_append, marks_append, marks_valueCode scope lhs, marks_valueCode scope rhs,
      marks_cons, marked?_binary]
    rfl
  | call info callee arguments => by
    intro next
    rw [valueCode, marks_append, marks_append, marks_valueCodes scope arguments, marks_pushes]
    rfl
  | empty .. | program .. | function .. | parameter .. | returnValue .. | block .. | declaration ..
  | assignment .. | ifThen .. | ifElse .. | identifier .. | real .. => fun _ => rfl
theorem marks_valueCodes (scope : ScopeId) : (nodes : List Node) → ∀ next : Nat,
    marks (valueCodes scope next nodes) = []
  | [] => fun _ => rfl
  | node :: nodes => by
    intro next
    rw [valueCodes, marks_append, marks_valueCode scope node, marks_valueCodes scope nodes]
    rfl
end

/-- Labels with numbers from `first` up to `last`, all different. -/
structure LabelsBetween (first last : Nat) (labels : List Label) : Prop where
  within : ∀ label ∈ labels, first ≤ label.index ∧ label.index < last
  distinct : labels.Nodup

theorem LabelsBetween.append {first middle last : Nat} {labels labels' : List Label}
    (le : first ≤ middle) (le' : middle ≤ last) (between : LabelsBetween first middle labels)
    (between' : LabelsBetween middle last labels') :
    LabelsBetween first last (labels ++ labels') where
  within := by
    intro label member
    rcases List.mem_append.1 member with m | m
    · have bounds := between.within label m
      omega
    · have bounds := between'.within label m
      omega
  distinct := by
    refine List.nodup_append.2 ⟨between.distinct, between'.distinct, ?_⟩
    rintro label m label' m' rfl
    have bounds := between.within label m
    have bounds' := between'.within label m'
    omega

theorem LabelsBetween.single (first : Nat) : LabelsBetween first (first + 1) [⟨first⟩] where
  within := by
    intro label member
    obtain rfl := List.mem_singleton.1 member
    exact ⟨Nat.le_refl _, Nat.lt_succ_self _⟩
  distinct := List.nodup_cons.2 ⟨List.not_mem_nil, List.nodup_nil⟩

theorem LabelsBetween.nil (first last : Nat) : LabelsBetween first last [] :=
  ⟨fun _ member => absurd member List.not_mem_nil, List.nodup_nil⟩

theorem LabelsBetween.perm {first last : Nat} {labels labels' : List Label}
    (between : LabelsBetween first last labels) (same : labels'.Perm labels) :
    LabelsBetween first last labels' :=
  ⟨fun label member => between.within label (same.mem_iff.1 member),
    same.nodup_iff.2 between.distinct⟩

mutual
/-- A statement marks each of its labels at most once. -/
theorem marks_statementCode (exit : Label) : (node : Node) → ∀ (scope : ScopeId) (next label : Nat),
    LabelsBetween label (label + node.labelCount)
      (marks (node.statementCode exit scope next label))
  | block info declarations statements => fun _ _ _ =>
    marks_statementsCode exit statements _ _ _
  | returnValue info value | assignment info target value => by
    intro scope next label
    rw [statementCode, marks_append, marks_valueCode]
    exact .nil _ _
  | ifThen info condition consequent => by
    intro scope next label
    have inner := marks_statementCode exit consequent scope (next + condition.temporaryCount)
      (label + 1)
    have all := (LabelsBetween.single label).append (by omega) (by omega) inner
    have marked : marks ((ifThen info condition consequent).statementCode exit scope next label) =
        marks (consequent.statementCode exit scope (next + condition.temporaryCount) (label + 1)) ++
          [⟨label⟩] := by
      rw [statementCode, marks_append, marks_valueCode, marks_cons, marks_append]
      rfl
    have last : label + (ifThen info condition consequent).labelCount =
        label + 1 + consequent.labelCount := by
      rw [labelCount]
      omega
    rw [marked, last]
    exact all.perm List.perm_append_comm
  | ifElse info condition consequent alternative => by
    intro scope next label
    have positive := marks_statementCode exit consequent scope (next + condition.temporaryCount)
      (label + 1)
    have negative := marks_statementCode exit alternative scope
      (next + condition.temporaryCount + consequent.temporaryCount)
      (label + 1 + consequent.labelCount + 1)
    have first := (LabelsBetween.single label).append (by omega) (by omega) positive
    have second := (LabelsBetween.single (label + 1 + consequent.labelCount)).append
      (by omega) (by omega) negative
    have marked : marks ((ifElse info condition consequent alternative).statementCode exit scope next
        label) =
        marks (consequent.statementCode exit scope (next + condition.temporaryCount) (label + 1)) ++
          [⟨label⟩] ++ (marks (alternative.statementCode exit scope
            (next + condition.temporaryCount + consequent.temporaryCount)
            (label + 1 + consequent.labelCount + 1)) ++ [⟨label + 1 + consequent.labelCount⟩]) := by
      rw [statementCode, marks_append, marks_valueCode, marks_cons, marks_append, marks_cons,
        marks_cons, marks_append, List.append_assoc]
      rfl
    have last : label + (ifElse info condition consequent alternative).labelCount =
        label + 1 + consequent.labelCount + 1 + alternative.labelCount := by
      rw [labelCount]
      omega
    rw [marked, last]
    exact (first.append (by omega) (by omega) second).perm
      (List.perm_append_comm.append List.perm_append_comm)
  | empty .. | program .. | function .. | parameter .. | call .. | declaration .. | binary ..
  | unary .. | identifier .. | integer .. | real .. => fun _ _ _ => .nil _ _
theorem marks_statementsCode (exit : Label) : (nodes : List Node) →
    ∀ (scope : ScopeId) (next label : Nat),
    LabelsBetween label (label + labelCounts nodes)
      (marks (statementsCode exit scope next label nodes))
  | [] => fun _ _ _ => .nil _ _
  | node :: nodes => by
    intro scope next label
    have rest := marks_statementsCode exit nodes scope (next + node.temporaryCount)
      (label + node.labelCount)
    rw [statementsCode, marks_append, labelCounts, ← Nat.add_assoc]
    exact (marks_statementCode exit node scope next label).append (by omega) (by omega) rest
end

/-- A function marks each of its labels at most once, its exit included. -/
theorem labelsBetween_functionCode (scope : ScopeId) (next label : Nat) (body : Node) :
    LabelsBetween label (label + 1 + body.labelCount)
      (marks (body.functionCode scope next label)) := by
  have inner := marks_statementCode ⟨label⟩ body scope next (label + 1)
  have all := (LabelsBetween.single label).append (by omega) (by omega) inner
  have marked : marks (body.functionCode scope next label) =
      marks (body.statementCode ⟨label⟩ scope next (label + 1)) ++ [⟨label⟩] := by
    rw [functionCode, marks_append]
    rfl
  rw [marked]
  exact all.perm List.perm_append_comm

theorem marks_functionCode (scope : ScopeId) (next label : Nat) (body : Node) :
    (marks (body.functionCode scope next label)).Nodup :=
  (labelsBetween_functionCode scope next label body).distinct

end Node
end MiniC
