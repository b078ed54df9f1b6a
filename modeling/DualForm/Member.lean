import DualForm.Ty

/-!
# Member and method descriptors

* `DeclaringType` — the type that declares a member. A synthesized one is the container a closure
  keeps its captured locals in.
* `Member γ` — a field or property with a getter of type `γ`.
* `Method ι` — a method with an invoker of type `ι`.
* `Member.same`, `Method.same` — descriptors are compared by what they declare; the getter and the
  invoker do not take part.
-/

namespace DualForm

/-- Type that declares members and methods. -/
structure DeclaringType where
  name : String
  ty : Ty
  /-- Whether the type was generated to hold captured locals. -/
  synthesized : Bool
deriving DecidableEq, Repr, Inhabited

namespace DeclaringType

/-- Nominal type written by a user. -/
def nominal (name : String) : DeclaringType := ⟨name, .named name, false⟩

/-- Declaring type that stands for an existing type. -/
def ofTy (ty : Ty) : DeclaringType := ⟨ty.text, ty, false⟩

/-- Container of captured locals. -/
def closure (name : String) : DeclaringType := ⟨name, .named name, true⟩

/-- The dual or factory whose type declares the members. -/
def wrapper? (d : DeclaringType) : Option Wrapper := d.ty.wrapper?

/-- Inspection text. -/
def inspect (d : DeclaringType) : String :=
  if d.synthesized then "closure " ++ d.name else d.name

end DeclaringType

/-- Fields hold a value, properties compute one. -/
inductive MemberKind where
  | field
  | property
deriving DecidableEq, Repr, Inhabited

/-- Name of a kind of member. -/
def MemberKind.name : MemberKind → String
  | .field => "Field"
  | .property => "Property"

/-- What a field or property declares. -/
structure MemberSignature where
  declaring : DeclaringType
  name : String
  /-- Type of the value read. -/
  ty : Ty
  kind : MemberKind
  isStatic : Bool
deriving DecidableEq, Repr, Inhabited

/-- Field or property. -/
structure Member (γ : Type) extends MemberSignature where
  getter : γ

namespace Member

variable {γ : Type}

/-- Equality of descriptors. -/
def same (a b : Member γ) : Bool := a.toMemberSignature = b.toMemberSignature

/-- Whether the declaring type is this dual or factory. -/
def declaredBy (m : Member γ) (w : Wrapper) : Bool := m.declaring.ty.declares w

/-- Inspection text. -/
def inspect (m : Member γ) : String :=
  m.kind.name ++ " " ++ m.declaring.inspect ++ "::" ++ m.name ++ ": " ++ m.ty.text

end Member

/-- What a method declares. -/
structure MethodSignature where
  declaring : DeclaringType
  name : String
  params : List Ty
  result : Ty
  isStatic : Bool
deriving DecidableEq, Repr, Inhabited

/-- Method, operator or conversion. -/
structure Method (ι : Type) extends MethodSignature where
  invoker : ι

namespace Method

variable {ι : Type}

/-- Equality of descriptors. -/
def same (a b : Method ι) : Bool := a.toMethodSignature = b.toMethodSignature

/-- Equality of optional descriptors. -/
def sameOption : Option (Method ι) → Option (Method ι) → Bool
  | none, none => true
  | some a, some b => a.same b
  | _, _ => false

/-- Whether the declaring type is this dual or factory. -/
def declaredBy (m : Method ι) (w : Wrapper) : Bool := m.declaring.ty.declares w

/-- Inspection text. -/
def inspect (m : Method ι) : String :=
  m.declaring.inspect ++ "::" ++ m.name ++ "(" ++ ", ".intercalate (Ty.texts m.params) ++ ") -> " ++
    m.result.text

end Method

end DualForm
