import PsxSym.Declarator
import PsxSym.CLexer
/-!
# Declaration — C's grammar of the declarations package `c` prints

A declaration is a type specifier, then a declarator.  A specifier is the keywords of a base type, a typedef name,
`struct`, `union` or `enum` and a tag (a reference to the aggregate or enum of that tag), or `struct` or `union`,
a tag when there is one, and a body of at least one field declaration, each ended by `;`.  A declarator is `*`s,
then a name or a declarator in parentheses, then suffixes; a function's suffix is a parameter list of
declarations, separated by `,` and ended by `...` when the function is variadic.  This is C's grammar

    declaration := specifier declarator
    specifier   := base | typedef-name | (struct|union) tag | (struct|union) tag? '{' (declaration ';')+ '}'
                 | enum tag
    declarator  := '*'* direct suffix*            direct := name | '(' declarator ')'
    suffix      := '[' constant ']' | '(' params ')'
    params      := ε | '...' | declaration (',' declaration)* [',' '...']

read over the tokens C's lexer makes.  An identifier is a typedef name when the declarations in scope, `env`, give
it a type.  The parameter list `...` alone is C23's: before C23, `...` needs a parameter before it.  The grammar is
C's syntax; C's constraints on the types it builds (a positive array length, no array of functions, no function
that returns an array or a function) it does not check.

`declToks`, `aggregateToks` and `typedefToks` are the tokens of what `Field.String`, `StructType.Def`,
`UnionType.Def` and `Typedef.Def` print, when every tag and name they print is an identifier (`PrintedTokens`
proves it).  Each type `Field.String` prints by its `String` is read in that reference form: a struct, union or
enum by its tag alone.  Offsets and sizes are written only in comments, so every field reads back with both zero,
and a union printed inline reads back with no tag (`CType.erase`).  `CType.readAs` says what C reads; `ReadBack`
proves that it does.
-/
namespace PsxSym
namespace C

/-! ## The tokens package `c` prints -/

/-- The keywords `BaseType.String` prints. -/
def BaseType.toks : BaseType → List CToken
  | .void => [.keyword "void"]
  | .char => [.keyword "char"]
  | .short => [.keyword "short"]
  | .int => [.keyword "int"]
  | .long => [.keyword "long"]
  | .uchar => [.keyword "unsigned", .keyword "char"]
  | .ushort => [.keyword "unsigned", .keyword "short"]
  | .uint => [.keyword "unsigned", .keyword "int"]
  | .ulong => [.keyword "unsigned", .keyword "long"]

/-- The tokens of `%d` of an `int`: a negative number is a `-` before its digits. -/
def intToks (n : Int) : List CToken := if n < 0 then [.punct '-', .const n.natAbs] else [.const n.toNat]

/-- The tokens of a parameter list, from each parameter's: a `,` between two, and `...` last when the function is
variadic, after a `,` when there are parameters. -/
def paramToks : List (List CToken) → Bool → List CToken
  | [], variadic => if variadic then [.ellipsis] else []
  | [p], variadic => p ++ if variadic then [.punct ',', .ellipsis] else []
  | p :: ps, variadic => p ++ .punct ',' :: paramToks ps variadic

mutual

/-- The tokens of `Field.String` for a field of type `type` whose name so far has the tokens `d`: a union whose tag
`isFakeTag` is its body, as `fakeUnionString` prints it. -/
def declToks : CType → List CToken → List CToken
  | .pointer elem, d => declToks elem (.punct '*' :: d)
  | .array elem len, d => declToks elem (d ++ .punct '[' :: intToks len ++ [.punct ']'])
  | .func retType params variadic, d =>
    declToks retType (.punct '(' :: d ++ .punct ')' :: .punct '(' :: paramToks (fieldToks params) variadic ++
      [.punct ')'])
  | .union ⟨_, tag, fields⟩, d =>
    if isFakeTag tag then .keyword "union" :: .punct '\x7b' :: fieldLineToks fields ++ .punct '\x7d' :: d
    else .keyword "union" :: .ident tag :: d
  | .typedef _ name, d => .ident name :: d
  | .base t, d => t.toks ++ d
  | .struct t, d => .keyword "struct" :: .ident t.tag :: d
  | .enum t, d => .keyword "enum" :: .ident t.tag :: d

/-- The tokens of each parameter. -/
def fieldToks : List Field → List (List CToken)
  | [] => []
  | ⟨_, _, type, name⟩ :: fs => declToks type [.ident name] :: fieldToks fs

/-- The tokens of `fieldLines`: each field's declaration and `;`, its comments and indentation set aside. -/
def fieldLineToks : List Field → List CToken
  | [] => []
  | ⟨_, _, type, name⟩ :: fs => declToks type [.ident name] ++ .punct ';' :: fieldLineToks fs

end

/-- The tokens of `StructType.Def` and `UnionType.Def`, at their keyword. -/
def aggregateToks (keyword : String) (t : AggregateOf CType) : List CToken :=
  .keyword keyword :: ((if t.tag.length > 0 then [.ident t.tag] else []) ++
    .punct '\x7b' :: fieldLineToks t.fields ++ [.punct '\x7d'])

/-- The tokens of `Typedef.Def`. -/
def typedefToks (type : CType) (name : String) : List CToken :=
  .keyword "typedef" :: declToks type [.ident name] ++ [.punct ';']

/-! ## C's grammar -/

/-- The leading `*`s of a declarator: how many, and the tokens after them. -/
def starsOf : List CToken → Nat × List CToken
  | .punct '*' :: ts => ((starsOf ts).1 + 1, (starsOf ts).2)
  | ts => (0, ts)

/-- A declaration from the reading of its specifier and of its declarator: the specifier's type, wrapped in what
the declarator says. -/
def declOf (spec : Option (CType × List CToken))
    (declarator : List CToken → Option ((List Wrapper × String) × List CToken)) :
    Option ((CType × String) × List CToken) :=
  spec.bind fun s => (declarator s.2).map fun r => ((wrapAll r.1.1 s.1, r.1.2), r.2)

/-- The base type the keywords at the head name, as `BaseType.String` prints it. -/
def parseBase : List CToken → Option (BaseType × List CToken)
  | .keyword "unsigned" :: .keyword "char" :: ts => some (.uchar, ts)
  | .keyword "unsigned" :: .keyword "short" :: ts => some (.ushort, ts)
  | .keyword "unsigned" :: .keyword "int" :: ts => some (.uint, ts)
  | .keyword "unsigned" :: .keyword "long" :: ts => some (.ulong, ts)
  | .keyword "void" :: ts => some (.void, ts)
  | .keyword "char" :: ts => some (.char, ts)
  | .keyword "short" :: ts => some (.short, ts)
  | .keyword "int" :: ts => some (.int, ts)
  | .keyword "long" :: ts => some (.long, ts)
  | _ => none

/-- A body, from the field declarations read after its `{`: the struct or union of the tag and the fields, read
with size zero, when the fields end at a `}` and there is one at least. -/
def bodyOf (keyword tag : String) : Option (List Field × List CToken) → Option (CType × List CToken)
  | some (fields, .punct '\x7d' :: ts) =>
    if fields.isEmpty then none
    else if keyword = "struct" then some (.struct ⟨0, tag, fields⟩, ts)
    else some (.union ⟨0, tag, fields⟩, ts)
  | _ => none

section Grammar

variable (env : String → Option CType)

mutual

/-- A declarator: the wrappers it says of the name, outermost first, the name, and the tokens after it.  The
suffixes bind tighter than the `*`s, so the wrappers are the direct declarator's, then the suffixes', then a pointer
per `*`.  Each call reads a token before it calls again, or calls a specifier, which reads one, so a fuel of one
more than the tokens is enough. -/
def parseDeclarator : Nat → List CToken → Option ((List Wrapper × String) × List CToken)
  | 0, _ => none
  | fuel + 1, ts =>
    let direct : Option ((List Wrapper × String) × List CToken) :=
      match (starsOf ts).2 with
      | .ident name :: ts => some (([], name), ts)
      | .punct '(' :: ts =>
        match parseDeclarator fuel ts with
        | some (r, .punct ')' :: ts) => some (r, ts)
        | _ => none
      | _ => none
    direct.bind fun r => (parseSuffixes fuel r.2).map fun s =>
      ((r.1.1 ++ s.1 ++ List.replicate (starsOf ts).1 .pointer, r.1.2), s.2)

/-- The suffixes at the head of the tokens, in order: `[n]` an array, `(params)` a function. -/
def parseSuffixes : Nat → List CToken → Option (List Wrapper × List CToken)
  | 0, _ => none
  | fuel + 1, .punct '[' :: .const n :: .punct ']' :: ts =>
    (parseSuffixes fuel ts).map fun s => (.array n :: s.1, s.2)
  | fuel + 1, .punct '(' :: ts =>
    match parseParams fuel true ts with
    | some ((params, variadic), .punct ')' :: ts) =>
      (parseSuffixes fuel ts).map fun s => (.func params variadic :: s.1, s.2)
    | _ => none
  | _ + 1, ts => some ([], ts)

/-- A parameter list, up to its `)`: each parameter a declaration, read with offset and size zero, and whether the
list ends with `...`.  Only the first place may hold the `)` of an empty list. -/
def parseParams : Nat → Bool → List CToken → Option ((List Field × Bool) × List CToken)
  | 0, _, _ => none
  | _ + 1, true, .punct ')' :: ts => some (([], false), .punct ')' :: ts)
  | _ + 1, _, .ellipsis :: ts => some (([], true), ts)
  | fuel + 1, _, ts =>
    match declOf (parseSpec fuel ts) (parseDeclarator fuel) with
    | some ((type, name), .punct ',' :: ts) =>
      (parseParams fuel false ts).map fun p => ((⟨0, 0, type, name⟩ :: p.1.1, p.1.2), p.2)
    | some ((type, name), ts) => some (([⟨0, 0, type, name⟩], false), ts)
    | none => none

/-- A type specifier.  A tag alone reads as a reference, the aggregate or enum of that tag with no fields or
members; a body reads as the aggregate of its fields, with offset and size zero. -/
def parseSpec : Nat → List CToken → Option (CType × List CToken)
  | 0, _ => none
  | fuel + 1, .keyword "struct" :: .ident tag :: .punct '\x7b' :: ts => bodyOf "struct" tag (parseFieldDecls fuel ts)
  | fuel + 1, .keyword "struct" :: .punct '\x7b' :: ts => bodyOf "struct" "" (parseFieldDecls fuel ts)
  | _ + 1, .keyword "struct" :: .ident tag :: ts => some (.struct ⟨0, tag, []⟩, ts)
  | fuel + 1, .keyword "union" :: .ident tag :: .punct '\x7b' :: ts => bodyOf "union" tag (parseFieldDecls fuel ts)
  | fuel + 1, .keyword "union" :: .punct '\x7b' :: ts => bodyOf "union" "" (parseFieldDecls fuel ts)
  | _ + 1, .keyword "union" :: .ident tag :: ts => some (.union ⟨0, tag, []⟩, ts)
  | _ + 1, .keyword "enum" :: .ident tag :: ts => some (.enum ⟨tag, []⟩, ts)
  | _ + 1, .ident name :: ts => (env name).map fun type => (.typedef type name, ts)
  | _ + 1, ts => (parseBase ts).map fun r => (.base r.1, r.2)

/-- The field declarations of a body, each a declaration and `;`, up to its `}`. -/
def parseFieldDecls : Nat → List CToken → Option (List Field × List CToken)
  | 0, _ => none
  | _ + 1, .punct '\x7d' :: ts => some ([], .punct '\x7d' :: ts)
  | fuel + 1, ts =>
    match declOf (parseSpec fuel ts) (parseDeclarator fuel) with
    | some ((type, name), .punct ';' :: ts) => (parseFieldDecls fuel ts).map fun r => (⟨0, 0, type, name⟩ :: r.1, r.2)
    | _ => none

end

/-- A declaration: a specifier, then a declarator. -/
def parseDecl (fuel : Nat) (ts : List CToken) : Option ((CType × String) × List CToken) :=
  declOf (parseSpec env fuel ts) (parseDeclarator env fuel)

/-- C's reading of a whole declaration, with fuel enough for its tokens. -/
def parseDeclaration (ts : List CToken) : Option ((CType × String) × List CToken) := parseDecl env (ts.length + 1) ts

/-- C's reading of a whole struct or union definition, with fuel enough for its tokens. -/
def parseDefinition (ts : List CToken) : Option (CType × List CToken) := parseSpec env (ts.length + 1) ts

/-- C's reading of a whole typedef: `typedef`, a declaration, and `;`, the type and the name it declares. -/
def parseTypedef : List CToken → Option (CType × String)
  | .keyword "typedef" :: ts =>
    match parseDecl env (ts.length + 1) ts with
    | some ((type, name), [.punct ';']) => some (type, name)
    | _ => none
  | _ => none

end Grammar

/-! ## Types as a declaration says them -/

mutual

/-- The type with every field's offset and size zero, every struct, enum and union whose tag is not fake by its tag
alone, and every union whose tag `isFakeTag` without its size and tag: what a declaration says of it. -/
def CType.erase : CType → CType
  | .pointer elem => .pointer elem.erase
  | .array elem len => .array elem.erase len
  | .func retType params variadic => .func retType.erase (eraseFields params) variadic
  | .union ⟨_, tag, fields⟩ => if isFakeTag tag then .union ⟨0, "", eraseFields fields⟩ else .union ⟨0, tag, []⟩
  | .typedef type name => .typedef type name
  | .base t => .base t
  | .struct t => .struct ⟨0, t.tag, []⟩
  | .enum t => .enum ⟨t.tag, []⟩

def eraseFields : List Field → List Field
  | [] => []
  | ⟨_, _, type, name⟩ :: fs => ⟨0, 0, type.erase, name⟩ :: eraseFields fs

end

mutual

/-- No pointer wraps an array directly: in the type, in a function it is or returns, in the function's parameters,
or in the fields of a union `Field.String` prints inline. -/
def CType.noPointerArray : CType → Bool
  | .pointer (.array _ _) => false
  | .pointer elem => elem.noPointerArray
  | .array elem _ => elem.noPointerArray
  | .func retType params _ => retType.noPointerArray && fieldsNoPointerArray params
  | .union ⟨_, tag, fields⟩ => !isFakeTag tag || fieldsNoPointerArray fields
  | .typedef _ _ | .base _ | .struct _ | .enum _ => true

def fieldsNoPointerArray : List Field → Bool
  | [] => true
  | ⟨_, _, type, _⟩ :: fs => type.noPointerArray && fieldsNoPointerArray fs

end

mutual

/-- What C reads in the declaration `Field.String` writes for a type, when the declarator around it reads as the
wrappers `ws`, then `k` leading `*`s.  A `*` binds looser than a suffix written after it, so an array the type has
inside a pointer is read outside it.  A function's parentheses close the declarator, and the `*`s before it read
inside them.  Its parameters read as declarations of their own, with offset and size zero.  A union printed inline
reads as a union with no tag, its fields read the same way; any other struct, union or enum reads by its tag. -/
def CType.readAs : CType → List Wrapper → Nat → CType
  | .pointer elem, ws, k => elem.readAs ws (k + 1)
  | .array elem len, ws, k => elem.readAs (ws ++ [.array len]) k
  | .func retType params variadic, ws, k =>
    retType.readAs (ws ++ List.replicate k .pointer ++ [.func (readFields params) variadic]) 0
  | .union ⟨_, tag, fields⟩, ws, k =>
    wrapAll (ws ++ List.replicate k .pointer)
      (if isFakeTag tag then .union ⟨0, "", readFields fields⟩ else .union ⟨0, tag, []⟩)
  | .typedef type name, ws, k => wrapAll (ws ++ List.replicate k .pointer) (.typedef type name)
  | .base t, ws, k => wrapAll (ws ++ List.replicate k .pointer) (.base t)
  | .struct t, ws, k => wrapAll (ws ++ List.replicate k .pointer) (.struct ⟨0, t.tag, []⟩)
  | .enum t, ws, k => wrapAll (ws ++ List.replicate k .pointer) (.enum ⟨t.tag, []⟩)

def readFields : List Field → List Field
  | [] => []
  | ⟨_, _, type, name⟩ :: fs => ⟨0, 0, type.readAs [] 0, name⟩ :: readFields fs

end

/-! ## The declarations C reads as printed -/

mutual

/-- The types whose declaration C reads as `Field.String` means it: every tag printed is an identifier, every
typedef name is declared in `env` as its type, no array's length is negative, and every union printed inline has a
field, as C's grammar asks of a body.  The names of the fields and parameters are identifiers that name no typedef:
in a parameter list, C would read a typedef name in parentheses as the type of an unnamed parameter. -/
def CType.Readable (env : String → Option CType) : CType → Prop
  | .pointer elem => elem.Readable env
  | .array elem len => 0 ≤ len ∧ elem.Readable env
  | .func retType params _ => retType.Readable env ∧ FieldsReadable env params
  | .union ⟨_, tag, fields⟩ => if isFakeTag tag then fields ≠ [] ∧ FieldsReadable env fields else isIdent tag
  | .typedef type name => isIdent name ∧ env name = some type
  | .base _ => True
  | .struct t => isIdent t.tag
  | .enum t => isIdent t.tag

def FieldsReadable (env : String → Option CType) : List Field → Prop
  | [] => True
  | ⟨_, _, type, name⟩ :: fs => (isIdent name ∧ env name = none) ∧ type.Readable env ∧ FieldsReadable env fs

end

end C
end PsxSym
