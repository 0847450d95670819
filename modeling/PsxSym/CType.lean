import PsxSym.Strconv
/-!
# CType — the C type model and the declarations it prints

Package `c`: a C type is a typedef name, a base type, a pointer, an array, a function, or a struct, union or enum,
and every type prints two ways, `String` (the reference form, `struct foo`) and `Def` (the definition form, a whole
`struct foo { ... }`).  `Field.String` prints a declaration: a pointer puts `*` before the name, an array puts
`[len]` after it, a function wraps it as `(name)(params)`, and at a type that wraps nothing it prints
`type name` — except for a union whose tag `isFakeTag`, which it prints whole (`fakeUnionString`).

The recursion is on the type, with the name built so far as an accumulator (`declString`); a leaf's `String` is
written out in its case, and `declString_of_printsByName` (in `Declarator`) says it is the type's `String`.
`StructType.Def` and `UnionType.Def` are one definition, `aggregateDef`, at two keywords; the field loop they share with
`fakeUnionString` is `fieldLines`, at the indentation each writes.
-/
namespace PsxSym
namespace C

/-! ## Formatting -/

/-- `%X`: upper-case hexadecimal. -/
def hexX (n : Nat) : String := String.mk ((Nat.toDigits 16 n).map Char.toUpper)

/-- `%04X`: upper-case hexadecimal, padded with zeros to four digits. -/
def hex04X (n : Nat) : String :=
  let h := hexX n
  String.mk (List.replicate (4 - h.length) '0') ++ h

theorem intercalate_go_append (s : String) : ∀ (a b : String) (l : List String),
    String.intercalate.go (a ++ b) s l = a ++ String.intercalate.go b s l
  | _, _, [] => rfl
  | a, b, x :: l => by
    rw [String.intercalate.go, String.intercalate.go, String.append_assoc, String.append_assoc,
      intercalate_go_append s a, String.append_assoc]

theorem intercalate_cons_cons (s x y : String) (l : List String) :
    s.intercalate (x :: y :: l) = x ++ s ++ s.intercalate (y :: l) := by
  rw [String.intercalate, String.intercalate, String.intercalate.go, intercalate_go_append]

/-- `isFakeTag`: the tag `_<n>fake` the compiler made up for an aggregate that had none.  The prefix and the suffix
are ASCII, so the byte slice `tag[len("_") : len(tag)-len("fake")]` is the characters between them. -/
def isFakeTag (tag : String) : Bool :=
  if "_".data.isPrefixOf tag.data && "fake".data.isSuffixOf tag.data then
    let s := (tag.data.take (tag.data.length - "fake".length)).drop "_".length
    (atoi ⟨s⟩).2.isNone
  else false

/-! ## Types -/

/-- The base types, with the names `stringer` gives them from their line comments. -/
inductive BaseType where
  | void | char | short | int | long | uchar | ushort | uint | ulong
  deriving DecidableEq, Repr

def BaseType.string : BaseType → String
  | .void => "void"
  | .char => "char"
  | .short => "short"
  | .int => "int"
  | .long => "long"
  | .uchar => "unsigned char"
  | .ushort => "unsigned short"
  | .uint => "unsigned int"
  | .ulong => "unsigned long"

/-- A field of a struct or union, or a function parameter: `Field`, over the type of its type. -/
structure FieldOf (τ : Type) where
  offset : UInt32
  size : UInt32
  type : τ
  name : String
  deriving DecidableEq, Repr

/-- A struct or union: `StructType` and `UnionType` have the same fields. -/
structure AggregateOf (τ : Type) where
  size : UInt32
  tag : String
  fields : List (FieldOf τ)
  deriving DecidableEq, Repr

structure EnumMember where
  value : UInt32
  name : String
  deriving DecidableEq, Repr, Inhabited

structure EnumType where
  tag : String
  members : List EnumMember
  deriving DecidableEq, Repr

inductive CType where
  | typedef (type : CType) (name : String)
  | base (t : BaseType)
  | pointer (elem : CType)
  | struct (t : AggregateOf CType)
  | union (t : AggregateOf CType)
  | enum (t : EnumType)
  | array (elem : CType) (len : Int)
  | func (retType : CType) (params : List (FieldOf CType)) (variadic : Bool)
  deriving Repr

abbrev Field := FieldOf CType
abbrev StructType := AggregateOf CType
abbrev UnionType := AggregateOf CType

/-! ## Printing -/

/-- The parameter list of `FuncType.String` and of `Field.String`'s function case, from the printed parameters. -/
def paramList (params : List String) (variadic : Bool) : String :=
  ", ".intercalate params ++ (if variadic then (if params.length > 0 then ", " else "") ++ "..." else "")

/-- The size comment of a struct or union definition. -/
def sizeComment (size : UInt32) : String := if size > 0 then "// size = 0x" ++ hexX size.toNat ++ "\n" else ""

/-- `len(t.Fields) > 1 && t.Fields[1].Offset > 0`: the second field has an offset. -/
def secondOffset {τ : Type} : List (FieldOf τ) → Bool
  | _ :: f :: _ => f.offset > 0
  | _ => false

/-- The offset comment before a field line. -/
def offsetComment {τ : Type} (indent : String) (second : Bool) (field : FieldOf τ) : String :=
  if field.size > 0 then
    indent ++ "// offset: " ++ hex04X field.offset.toNat ++ " (" ++ toString field.size.toNat ++ " bytes)\n"
  else if second then indent ++ "// offset: " ++ hex04X field.offset.toNat ++ "\n"
  else ""

mutual

/-- `Field.String` of a field of type `type` named `name`. -/
def declString : CType → String → String
  | .pointer elem, name => declString elem ("*" ++ name)
  | .array elem len, name => declString elem (name ++ "[" ++ toString len ++ "]")
  | .func retType params variadic, name =>
    declString retType ("(" ++ name ++ ")(" ++ paramList (fieldStrings params) variadic ++ ")")
  | .union t, name => if isFakeTag t.tag then fakeUnionString t ++ " " ++ name else "union " ++ t.tag ++ " " ++ name
  | .typedef _ tname, name => tname ++ " " ++ name
  | .base t, name => t.string ++ " " ++ name
  | .struct t, name => "struct " ++ t.tag ++ " " ++ name
  | .enum t, name => "enum " ++ t.tag ++ " " ++ name

/-- The printed fields, in order. -/
def fieldStrings : List Field → List String
  | [] => []
  | ⟨_, _, type, name⟩ :: fs => declString type name :: fieldStrings fs

/-- The field loop of a struct or union definition: each field's offset comment and its line, at `indent`. -/
def fieldLines (indent : String) (second : Bool) : List Field → String
  | [] => ""
  | (f@⟨_, _, type, name⟩) :: fs =>
    offsetComment indent second f ++ indent ++ declString type name ++ ";\n" ++ fieldLines indent second fs

/-- `fakeUnionString`: the body of a union with a fake tag, for a field line. -/
def fakeUnionString : UnionType → String
  | ⟨size, _, fields⟩ => sizeComment size ++ "\tunion \x7b\n" ++ fieldLines "\t\t" (secondOffset fields) fields ++ "\t\x7d"

end

/-- `Field.String`. -/
def Field.string (f : Field) : String := declString f.type f.name

/-- `String` of each type: the reference form. -/
def CType.string : CType → String
  | .typedef _ name => name
  | .base t => t.string
  | .pointer elem => elem.string ++ "*"
  | .struct t => "struct " ++ t.tag
  | .union t => "union " ++ t.tag
  | .enum t => "enum " ++ t.tag
  | .array elem len => elem.string ++ "[" ++ toString len ++ "]"
  | .func retType params variadic => retType.string ++ " (*)(" ++ paramList (fieldStrings params) variadic ++ ")"

/-- `StructType.Def` and `UnionType.Def`, at their keyword. -/
def aggregateDef (keyword : String) (t : AggregateOf CType) : String :=
  sizeComment t.size ++ (if t.tag.length > 0 then keyword ++ " " ++ t.tag ++ " \x7b\n" else keyword ++ " \x7b\n") ++
    fieldLines "\t" (secondOffset t.fields) t.fields ++ "\x7d"

def StructType.def (t : StructType) : String := aggregateDef "struct" t

def UnionType.def (t : UnionType) : String := aggregateDef "union" t

/-- `Typedef.Def`. -/
def typedefDef (type : CType) (name : String) : String :=
  match type with
  | .base t => "typedef " ++ t.string ++ " " ++ name ++ ";"
  | _ => "typedef " ++ declString type name ++ ";"

example : Field.string ⟨0, 0, .pointer (.base .int), "p"⟩ = "int *p" := by decide
example : Field.string ⟨0, 0, .array (.base .short) 4, "arr"⟩ = "short arr[4]" := by decide
example : Field.string ⟨0, 0, .pointer (.func (.base .int) [] false), "fn"⟩ = "int (*fn)()" := by decide

end C
end PsxSym
