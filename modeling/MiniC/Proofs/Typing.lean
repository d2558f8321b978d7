import MiniC.Proofs.Scoping

/-!
# Well-formed programs

The rules that a program has to follow, stated with the names in sight handed from the outside
inward: the functions up to the current one with their signatures, and around a place of a function
the blocks with the types of their names. A parameter or a variable hides a function of its name,
and an inner block hides the names of the outer ones.
-/

namespace MiniC

/-- What a function gives and takes. -/
structure Signature where
  result : Ty
  inputs : List Ty
deriving DecidableEq, Repr

/-- The functions that may be called at a place, each with its signature. -/
abbrev Signatures : Type := List (String × Signature)

namespace Node

/-- The name that a parameter or a declaration introduces, and its type. -/
def declaredType? : Node → Option (String × Ty)
  | parameter _ ty name => some (name, ty)
  | declaration _ ty name => some (name, ty)
  | _ => none

def declaredTypes (nodes : List Node) : List (String × Ty) :=
  nodes.filterMap declaredType?

mutual
/-- Expressions with a type. No type is converted to another. -/
inductive HasType (functions : Signatures) (env : Blocks Ty) : Node → Ty → Prop
  | integer {info : Info} {value : Int32} : HasType functions env (.integer info value) .int
  | real {info : Info} {value : Float} : HasType functions env (.real info value) .double
  | identifier {info : Info} {name : String} {ty : Ty} : env.find? name = some ty →
      HasType functions env (.identifier info name) ty
  | unary {info : Info} {op : UnaryOp} {operand : Node} {ty : Ty} :
      HasType functions env operand ty → HasType functions env (.unary info op operand) ty
  | binary {info : Info} {op : BinaryOp} {lhs rhs : Node} {ty : Ty} :
      HasType functions env lhs ty → HasType functions env rhs ty →
      HasType functions env (.binary info op lhs rhs) ty
  -- A parameter or a variable of that name would hide the function.
  | call {info info' : Info} {name : String} {signature : Signature} {arguments : List Node} :
      env.find? name = none → Blocks.findIn name functions = some signature →
      HaveTypes functions env arguments signature.inputs →
      HasType functions env (.call info (.identifier info' name) arguments) signature.result
/-- As many expressions as types, each of its type. -/
inductive HaveTypes (functions : Signatures) (env : Blocks Ty) : List Node → List Ty → Prop
  | nil : HaveTypes functions env [] []
  | cons {node : Node} {nodes : List Node} {ty : Ty} {types : List Ty} :
      HasType functions env node ty → HaveTypes functions env nodes types →
      HaveTypes functions env (node :: nodes) (ty :: types)
end

section HasType

variable {functions : Signatures} {env : Blocks Ty} {info : Info} {ty : Ty}

theorem hasType_integer {value : Int32} :
    HasType functions env (integer info value) ty ↔ ty = .int := by
  constructor
  · intro typed
    cases typed
    rfl
  · rintro rfl
    exact .integer

theorem hasType_real {value : Float} :
    HasType functions env (real info value) ty ↔ ty = .double := by
  constructor
  · intro typed
    cases typed
    rfl
  · rintro rfl
    exact .real

theorem hasType_identifier {name : String} :
    HasType functions env (identifier info name) ty ↔ env.find? name = some ty := by
  constructor
  · intro typed
    cases typed
    assumption
  · exact .identifier

theorem hasType_unary {op : UnaryOp} {operand : Node} :
    HasType functions env (unary info op operand) ty ↔ HasType functions env operand ty := by
  constructor
  · intro typed
    cases typed
    assumption
  · exact .unary

theorem hasType_binary {op : BinaryOp} {lhs rhs : Node} :
    HasType functions env (binary info op lhs rhs) ty ↔
      HasType functions env lhs ty ∧ HasType functions env rhs ty := by
  constructor
  · intro typed
    cases typed with
    | binary left right => exact ⟨left, right⟩
  · rintro ⟨left, right⟩
    exact .binary left right

theorem hasType_call {info' : Info} {name : String} {arguments : List Node} :
    HasType functions env (call info (identifier info' name) arguments) ty ↔
      env.find? name = none ∧ ∃ signature, Blocks.findIn name functions = some signature ∧
        HaveTypes functions env arguments signature.inputs ∧ signature.result = ty := by
  constructor
  · intro typed
    cases typed with
    | call absent found typed => exact ⟨absent, _, found, typed, rfl⟩
  · rintro ⟨absent, signature, found, typed, rfl⟩
    exact .call absent found typed

theorem haveTypes_cons {node : Node} {nodes : List Node} {types : List Ty} :
    HaveTypes functions env (node :: nodes) (ty :: types) ↔
      HasType functions env node ty ∧ HaveTypes functions env nodes types := by
  constructor
  · intro typed
    cases typed with
    | cons isTyped areTyped => exact ⟨isTyped, areTyped⟩
  · rintro ⟨isTyped, areTyped⟩
    exact .cons isTyped areTyped

end HasType

mutual
/-- Statements of a function that returns `result`. -/
inductive WellTyped (functions : Signatures) (result : Ty) : Blocks Ty → Node → Prop
  | empty {env : Blocks Ty} {info : Info} : WellTyped functions result env (.empty info)
  | block {env : Blocks Ty} {info : Info} {declarations statements : List Node} :
      (declaredNames declarations).Nodup →
      AllWellTyped functions result (declaredTypes declarations :: env) statements →
      WellTyped functions result env (.block info declarations statements)
  | returnValue {env : Blocks Ty} {info : Info} {value : Node} :
      HasType functions env value result →
      WellTyped functions result env (.returnValue info value)
  | assignment {env : Blocks Ty} {info : Info} {target : String} {value : Node} {ty : Ty} :
      env.find? target = some ty → HasType functions env value ty →
      WellTyped functions result env (.assignment info target value)
  | ifThen {env : Blocks Ty} {info : Info} {condition consequent : Node} {ty : Ty} :
      HasType functions env condition ty → WellTyped functions result env consequent →
      WellTyped functions result env (.ifThen info condition consequent)
  | ifElse {env : Blocks Ty} {info : Info} {condition consequent alternative : Node} {ty : Ty} :
      HasType functions env condition ty → WellTyped functions result env consequent →
      WellTyped functions result env alternative →
      WellTyped functions result env (.ifElse info condition consequent alternative)
inductive AllWellTyped (functions : Signatures) (result : Ty) : Blocks Ty → List Node → Prop
  | nil {env : Blocks Ty} : AllWellTyped functions result env []
  | cons {env : Blocks Ty} {node : Node} {nodes : List Node} :
      WellTyped functions result env node → AllWellTyped functions result env nodes →
      AllWellTyped functions result env (node :: nodes)
end

section WellTyped

variable {functions : Signatures} {result : Ty} {env : Blocks Ty} {info : Info}

theorem wellTyped_block {declarations statements : List Node} :
    WellTyped functions result env (block info declarations statements) ↔
      (declaredNames declarations).Nodup ∧
        AllWellTyped functions result (declaredTypes declarations :: env) statements := by
  constructor
  · intro typed
    cases typed with
    | block distinct areTyped => exact ⟨distinct, areTyped⟩
  · rintro ⟨distinct, areTyped⟩
    exact .block distinct areTyped

theorem wellTyped_returnValue {value : Node} :
    WellTyped functions result env (returnValue info value) ↔
      HasType functions env value result := by
  constructor
  · intro typed
    cases typed
    assumption
  · exact .returnValue

theorem wellTyped_assignment {target : String} {value : Node} :
    WellTyped functions result env (assignment info target value) ↔
      ∃ ty, env.find? target = some ty ∧ HasType functions env value ty := by
  constructor
  · intro typed
    cases typed with
    | assignment isTarget isTyped => exact ⟨_, isTarget, isTyped⟩
  · rintro ⟨ty, isTarget, isTyped⟩
    exact .assignment isTarget isTyped

theorem wellTyped_ifThen {condition consequent : Node} :
    WellTyped functions result env (ifThen info condition consequent) ↔
      (∃ ty, HasType functions env condition ty) ∧ WellTyped functions result env consequent := by
  constructor
  · intro typed
    cases typed with
    | ifThen isTyped isTyped' => exact ⟨⟨_, isTyped⟩, isTyped'⟩
  · rintro ⟨⟨ty, isTyped⟩, isTyped'⟩
    exact .ifThen isTyped isTyped'

theorem wellTyped_ifElse {condition consequent alternative : Node} :
    WellTyped functions result env (ifElse info condition consequent alternative) ↔
      ((∃ ty, HasType functions env condition ty) ∧ WellTyped functions result env consequent) ∧
        WellTyped functions result env alternative := by
  constructor
  · intro typed
    cases typed with
    | ifElse isTyped isTyped' isTyped'' => exact ⟨⟨⟨_, isTyped⟩, isTyped'⟩, isTyped''⟩
  · rintro ⟨⟨⟨ty, isTyped⟩, isTyped'⟩, isTyped''⟩
    exact .ifElse isTyped isTyped' isTyped''

theorem allWellTyped_cons {node : Node} {nodes : List Node} :
    AllWellTyped functions result env (node :: nodes) ↔
      WellTyped functions result env node ∧ AllWellTyped functions result env nodes := by
  constructor
  · intro typed
    cases typed with
    | cons isTyped areTyped => exact ⟨isTyped, areTyped⟩
  · rintro ⟨isTyped, areTyped⟩
    exact .cons isTyped areTyped

end WellTyped

/-- The types of the parameters, and the type that is returned. -/
def signatureWith (parameters : List Node) (returnType : Ty) : Signature :=
  ⟨returnType, (declaredTypes parameters).map (·.2)⟩

/-- Functions behind those that are `known`, each of them known to itself and to the later ones. -/
inductive FunctionsTyped : (known : Signatures) → List Node → Prop
  | nil {known : Signatures} : FunctionsTyped known []
  | cons {known : Signatures} {info : Info} {returnType : Ty} {name : String}
      {parameters : List Node} {body : Node} {later : List Node} :
      name ∉ known.map (·.1) → (declaredNames parameters).Nodup →
      WellTyped ((name, signatureWith parameters returnType) :: known) returnType
        [declaredTypes parameters] body →
      FunctionsTyped ((name, signatureWith parameters returnType) :: known) later →
      FunctionsTyped known (.function info returnType name parameters body :: later)

/-- A program that follows the rules, one of whose functions is `main`. -/
inductive WellFormed : Node → Prop
  | program {info : Info} {functions : List Node} : FunctionsTyped [] functions →
      "main" ∈ functionNames functions → WellFormed (.program info functions)

end Node
end MiniC
