import ScriptTypes.Inference.Descent
import ScriptTypes.Inference.Program

/-!
# Inferring types

The possible types of a node come from its construct and the types of its parts; those of an owner
from every value the script gives to it. An owner with properties that its types do not show gets a
generated type that has them.

A symbol that is being inferred has no types where it is met again. Results for nodes are lists of
names in the order in which they are found, not yet in canonical form; `TypeList.ofList` makes them
a result.
-/

namespace ScriptTypes.Inference

open Script (Literal UnaryOp NodeId)
open Program (answerOf answerTo gather anyOf)

def literalType : Literal → TypeName
  | .string _ => Primitive.string.name
  | .number _ => Primitive.number.name
  | .boolean _ => Primitive.boolean.name
  | .regex _ => Primitive.regExp.name

def unaryTypes : UnaryOp → List TypeName
  | .delete | .not => [TypeName.booleanType]
  | .typeOf => [TypeName.stringType]
  | .void => []
  | .increment | .decrement | .plus | .minus | .bitNot => [TypeName.numberType]

section Nodes

variable (s : Setting) (scope : ScopeId) (n : NodeId)

theorem node_mem_callees {p : ScopeId × NodeId} (h : p ∈ s.parts scope n) :
    .node p.1 p.2 ∈ s.callees (.node scope n) :=
  List.mem_append_left _ (List.mem_map_of_mem h)

theorem owner_mem_callees {o : Owner} (h : s.owner? scope n = some o) :
    .owner o ∈ s.callees (.node scope n) :=
  List.mem_append_right _ (List.mem_map_of_mem (Option.mem_toList.2 h))

/-- The types of the parts of a node, one part after the other. -/
def partTypes : Program s (.node scope n) (List TypeName) :=
  gather (s.parts scope n).attach fun p => answerOf (.node p.1.1 p.1.2) (node_mem_callees s scope n p.2)

/-- Is any part of a node a string? -/
def anyString : Program s (.node scope n) Bool :=
  anyOf (s.parts scope n).attach fun p => do
    let types : List TypeName ← answerOf (.node p.1.1 p.1.2) (node_mem_callees s scope n p.2)
    return (TypeList.ofList types).contains TypeName.stringType

/-- The types of an identifier that means no symbol: of a parameter, or of the globals of its
name. -/
def undeclaredTypes (name : String) : List TypeName :=
  let globals := (s.globals name).flatMap Element.referenceTypes
  match s.parameterList? n with
  | some params =>
    if s.scopes.hasSymbol scope name then s.parameterNodeTypes n params name else globals
  | none => globals

/-- The types of a node whose values have no owner. -/
def formTypes : Program s (.node scope n) (List TypeName) :=
  match s.module.form n with
  | .identifier name => return undeclaredTypes s scope n name
  | .literal value => return [literalType value]
  | .array [] => return [TypeName.arrayType]
  | .array (_ :: _) => do
    let types := TypeList.ofList (← partTypes s scope n)
    return types.names.map TypeName.arrayTypeOf
  | .object _ => return [TypeName.objectType]
  | .function .. => do
    let returns := TypeList.ofList (← partTypes s scope n)
    let returns := if !(s.module.returnedNodes n).isEmpty && returns.isEmpty
      then [TypeName.objectType] else returns.names
    return [TypeName.functionType returns]
  | .binary (.arithmetic .add) _ _ => do
    if (s.module.addedNodes n).any s.module.isStringLiteral then return [TypeName.stringType]
    return [if ← anyString s scope n then TypeName.stringType else TypeName.numberType]
  | .binary (.arithmetic _) _ _ => return [TypeName.numberType]
  | .binary (.logical .and) _ _ | .binary (.logical .or) _ _ => partTypes s scope n
  | .binary (.logical _) _ _ => return [TypeName.booleanType]
  | .assign .plain _ _ => partTypes s scope n
  | .assign (.compound .add) _ _ => do
    return [if ← anyString s scope n then TypeName.stringType else TypeName.numberType]
  | .assign (.compound _) _ _ => return [TypeName.numberType]
  | .conditional .. => partTypes s scope n
  | .construct .. => do
    let types := TypeList.ofList (← partTypes s scope n)
    gather types.names fun t => do
      let prototypes ← answerTo (.members ((TypeName.classBaseType? t).getD t) "prototype")
      return prototypes.flatMap Element.types
  | .invoke callee args => do
    let types := TypeList.ofList (← partTypes s scope n)
    let unknown := if types.isEmpty && s.needsObject n then [TypeName.objectType] else []
    let returned ← gather types.names fun t => do
      if TypeName.isFunctionType t then return TypeName.functionReturnTypes t
      let ancestors ← answerTo (.ancestors t)
      return (ancestors.filter TypeName.isFunctionType).flatMap TypeName.functionReturnTypes
    return s.requiredTypes callee args ++ unknown ++ returned
  | .member object property => do
    let types := TypeList.ofList (← partTypes s scope n)
    gather types.names fun t => do
      let members ← answerTo (.members (s.receiverType object t) property)
      return members.flatMap Element.referenceTypes
  | .element .. => do
    let types := TypeList.ofList (← partTypes s scope n)
    return types.names.map fun t => (TypeName.elementType? t).getD TypeName.objectType
  | .group _ => partTypes s scope n
  | .unary op _ => return unaryTypes op
  | .update .. => return [TypeName.numberType]
  | _ => return []

/-- The types of a node. -/
def nodeTypes : Program s (.node scope n) (List TypeName) :=
  match h : s.owner? scope n with
  | some o => do
    let e : Element ← answerOf (.owner o) (owner_mem_callees s scope n h)
    return e.referenceTypes
  | none => formTypes s scope n

end Nodes

section Owners

variable (s : Setting) (o : Owner)

theorem value_mem_callees {v : NodeId} (hv : v ∈ o.values s) (h : s.documentedFunction? v = none) :
    .node (s.scopeOf v) v ∈ s.callees (.owner o) := by
  refine List.mem_append_left _ (List.mem_map.2 ⟨v, List.mem_filter.2 ⟨hv, ?_⟩, rfl⟩)
  rw [h]
  rfl

theorem property_mem_callees {p : String × Collection} (h : p ∈ (o.collection s).properties) :
    .owner (.property o p.1) ∈ s.callees (.owner o) :=
  List.mem_append_right _ (List.mem_map.2 ⟨p, h, rfl⟩)

/-- What the values of an owner say about it, without its properties. -/
def element : Program s (.owner o) Element := do
  let types ← gather (o.values s).attach fun v => do
    let declared := s.declaredTypes v.1
    match h : s.documentedFunction? v.1 with
    | some function => return declared ++ [function]
    | none =>
      let types : List TypeName ←
        answerOf (.node (s.scopeOf v.1) v.1) (value_mem_callees s o v.2 h)
      return declared ++ (TypeList.ofList types).names
  let types := TypeList.ofList types
  return {
    name := o.name
    owner := o.memberOf s
    types := types.names
    signature := s.signature? (o.values s) types }

/-- The name of a property that an owner has. -/
abbrev PropertyName := { name : String // Call.owner (.property o name) ∈ s.callees (.owner o) }

/-- The properties of an owner that the given types do not show. One with properties of its own
counts among them in any case. -/
def missing (types : List TypeName) : Program s (.owner o) (List (PropertyName s o)) :=
  gather (o.collection s).properties.attach fun p => do
    let name : PropertyName s o := ⟨p.1.1, property_mem_callees s o p.2⟩
    if p.1.2.hasProperties then return [name]
    let isShown : Bool ← answerTo (.shows types p.1.1)
    return if isShown then [] else [name]

variable {s o} {m : Type → Type} [Monad m]
  (questions : (q : Question) → StateT Registry m q.Answer)
  (calls : (b : Call) → b ∈ s.callees (.owner o) → StateT Registry m b.Answer)

/-- Add properties to the generated type of their owner. -/
def addMembers : List (PropertyName s o) → StateT Registry m Unit
  | [] => return
  | p :: ps => do
    let member : Element ← calls (.owner (.property o p.1)) p.2
    modify fun r => r.addMember (o.type s) p.1 member
    addMembers ps

/-- Move properties that an element's types do not show into a generated type, which becomes the
type of the element. -/
def generate (e : Element) (properties : List (PropertyName s o)) : StateT Registry m Element := do
  if properties.isEmpty then return e
  let type := o.type s
  if !Entries.contains type (← get) then
    -- The type is there before its members are, which may refer to it.
    modify fun r => r.register type (if e.types.isEmpty then [TypeName.objectType] else e.types)
    addMembers calls properties
  return { e with types := [type] }

/-- All that is known about an owner. -/
def ownerElement : StateT Registry m Element := do
  let e ← (element s o).run questions calls
  let properties ← (missing s o e.types).run questions calls
  generate calls e properties

end Owners

/-- One call, with questions and nested calls answered as given. -/
def answerCall (s : Setting) {m : Type → Type} [Monad m]
    (questions : (q : Question) → StateT Registry m q.Answer) :
    (a : Call) → ((b : Call) → b ∈ s.callees a → StateT Registry m b.Answer) →
      StateT Registry m a.Answer
  | .node scope n, calls => (nodeTypes s scope n).run questions calls
  | .owner _, calls => ownerElement questions calls

/-- The answer to a question in the present registry. -/
def currently (s : Setting) {m : Type → Type} [Monad m] (q : Question) : StateT Registry m q.Answer :=
  return q.answer s.index (← get)

/-- Inference adds to the registry of generated types. -/
abbrev Infer := StateM Registry

/-- The answer to a call, while the symbols in `entered` are being inferred. -/
def answer (s : Setting) (entered : List Symbol) (a : Call) : Infer a.Answer :=
  match _h : enter entered a with
  | none => return a.unknown
  | some entered => answerCall s (currently s) a fun b _hb => answer s entered b
termination_by (free s entered, descent s a)
decreasing_by exact descends _h _hb

end ScriptTypes.Inference
