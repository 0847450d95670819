import PsxSym.Reader
/-!
# Symbol — PS1 symbols and their decoder

A symbol is a five-byte header (`Value:u32`, `Kind:u8`) and a body whose shape the kind selects.  `parseSymbol`
reads the header with `struc.Unpack`, then the body: the fixed-layout bodies with `struc.Unpack` again, and the
`Def2` body by hand in `parseDef2`, whose dimension groups are read by `Dimensions.Unpack`, a `struc.Custom`
unpacker.  Each body has a `BodySize` accessor, computed from its decoded fields.

`Name1` and `Name2` have the same fields and the same `BodySize`: each is the shared layout `Name`, and each
`BodySize` is `Name.bodySize`, under its own name.
-/
namespace PsxSym

/-! ## Kinds -/

/-- Modelled from the spec: `Kind` and its constants are declared in `kind.go`, which is not among the sources.  The
kind is one byte, and the five kinds with a body are name-local `0x01`, name-global `0x02`, definition `0x94`,
extended definition `0x96` and overlay `0x98`. -/
abbrev Kind := UInt8

def kindName1 : Kind := 0x01
def kindName2 : Kind := 0x02
def kindDef : Kind := 0x94
def kindDef2 : Kind := 0x96
def kindOverlay : Kind := 0x98

/-! ## Symbols -/

/-- Array dimensions: one group of lengths, read up to and including its terminating `0`. -/
abbrev Dimensions := List UInt16

/-- The layout `Name1` and `Name2` share: `NameLen`, then the `NameLen` bytes of `Name`. -/
structure Name where
  nameLen : UInt8
  name : List UInt8
  deriving DecidableEq, Repr

/-- The body of a `Name1` (`0x01`) symbol. -/
abbrev Name1 := Name

/-- The body of a `Name2` (`0x02`) symbol. -/
abbrev Name2 := Name

/-- The body of a `Def` (`0x94`) symbol.  `type` is the encoded type, `Type` in the source. -/
structure Def where
  «class» : UInt16
  type : UInt16
  size : UInt32
  nameLen : UInt8
  name : List UInt8
  deriving DecidableEq, Repr

/-- The body of a `Def2` (`0x96`) symbol. -/
structure Def2 where
  «class» : UInt16
  type : UInt16
  size : UInt32
  dims : List Dimensions
  tagLen : UInt8
  tag : List UInt8
  nameLen : UInt8
  name : List UInt8
  deriving DecidableEq, Repr

/-- The body of an `Overlay` (`0x98`) symbol. -/
structure Overlay where
  length : UInt32
  id : UInt32
  deriving DecidableEq, Repr

/-- `SymbolBody`, the sum of the five bodies. -/
inductive SymbolBody where
  | name1 (body : Name1)
  | name2 (body : Name2)
  | «def» (body : Def)
  | def2 (body : Def2)
  | overlay (body : Overlay)
  deriving DecidableEq, Repr

structure SymbolHeader where
  value : UInt32
  kind : Kind
  deriving DecidableEq, Repr

structure Symbol where
  hdr : SymbolHeader
  body : SymbolBody
  deriving DecidableEq, Repr

/-! ## Sizes -/

def Name.bodySize (body : Name) : Nat := 1 + body.nameLen.toNat

def Name1.bodySize (body : Name1) : Nat := Name.bodySize body

def Name2.bodySize (body : Name2) : Nat := Name.bodySize body

def Def.bodySize (body : Def) : Nat := 2 + 2 + 4 + 1 + body.nameLen.toNat

def Def2.bodySize (body : Def2) : Nat :=
  let dimsLen := body.dims.foldl (fun dimsLen dims => dimsLen + 2 * dims.length) 0
  2 + 2 + 4 + dimsLen + 1 + body.tagLen.toNat + 1 + body.nameLen.toNat

def Overlay.bodySize (_ : Overlay) : Nat := 4 + 4

def SymbolBody.bodySize : SymbolBody → Nat
  | .name1 body => Name1.bodySize body
  | .name2 body => Name2.bodySize body
  | .def body => body.bodySize
  | .def2 body => body.bodySize
  | .overlay body => body.bodySize

/-- `binary.Size(*sym.Hdr)`: a `uint32` and a one-byte kind, unpadded. -/
def SymbolHeader.size : Nat := 4 + 1

def Symbol.size (sym : Symbol) : Nat := SymbolHeader.size + sym.body.bodySize

/-! ## Dimensions -/

/-- `Dimensions.Unpack`: `binary.Read` of one little-endian `u16` after another, each appended to `dims`, until a
`0` has been appended.  `binary.Read` fails with `io.EOF` on an empty stream, which the loop turns into
`io.ErrUnexpectedEOF`, and with `io.ErrUnexpectedEOF` on a stream of one byte (`unpack_eq` is the loop body read
this way). -/
def Dimensions.unpack (dims : Dimensions) : List UInt8 → Except Cause (Dimensions × List UInt8)
  | [] => .error .unexpectedEOF
  | [_] => .error .unexpectedEOF
  | b₀ :: b₁ :: s =>
    let dim := UInt16.ofNat (ofLE [b₀, b₁])
    if dim = 0 then .ok (dims ++ [dim], s) else Dimensions.unpack (dims ++ [dim]) s

def Dimensions.size (dims : Dimensions) : Nat := 2 * dims.length

/-- `Dimensions.String`: the lengths before the first `0`, in decimal, or `"0"` when there are none. -/
def Dimensions.string (dims : Dimensions) : String :=
  let ds := (dims.takeWhile (· ≠ 0)).map (fun dim => toString dim.toNat)
  if ds.length = 0 then "0" else " ".intercalate ds

/-! ## The decoder -/

/-- `parseSymbolHeader`: `struc.Unpack` of the header, `Value` then `Kind`. -/
def parseSymbolHeader : Decoder SymbolHeader := do
  let value ← readU32
  let kind ← readU8
  pure ⟨value, kind⟩

/-- `struc.Unpack` of a `Name1` or `Name2` body: `NameLen`, then the `NameLen` bytes of `Name`. -/
def Name.unpack : Decoder Name := do
  let nameLen ← readU8
  let name ← readFull nameLen.toNat
  pure ⟨nameLen, name⟩

/-- `struc.Unpack` of a `Def` body. -/
def Def.unpack : Decoder Def := do
  let cls ← readU16
  let type ← readU16
  let size ← readU32
  let nameLen ← readU8
  let name ← readFull nameLen.toNat
  pure ⟨cls, type, size, nameLen, name⟩

/-- `struc.Unpack` of an `Overlay` body. -/
def Overlay.unpack : Decoder Overlay := do
  let length ← readU32
  let id ← readU32
  pure ⟨length, id⟩

/-- The number of dimension groups of a `Def2` body: one per `ARY` (`0x3`) modifier of its type, and one when the
type has none.  `mods` is `Type.mods`, which is not among the sources. -/
def narray (mods : UInt16 → List Nat) (type : UInt16) : Nat :=
  let n := (mods type).foldl (fun narray mod => if mod = 0x3 then narray + 1 else narray) 0
  if n = 0 then 1 else n

/-- The `narray` loop of `parseDef2`: `n` dimension groups, each read by `Dimensions.Unpack` into an empty
`Dimensions` and appended in order. -/
def readDims : Nat → Decoder (List Dimensions)
  | 0 => pure []
  | n + 1 => do
    let dims ← (Dimensions.unpack [] : Decoder Dimensions)
    let rest ← readDims n
    pure (dims :: rest)

/-- `io.ReadFull` of an `n`-byte buffer, done only when `n` is not zero (`if body.TagLen > 0`, and the same for the
name). -/
def readIfPos (n : UInt8) : Decoder (List UInt8) := if n > 0 then readFull n.toNat else pure []

/-- `parseDef2`. -/
def parseDef2 (mods : UInt16 → List Nat) : Decoder Def2 := do
  let cls ← readU16
  let type ← readU16
  let size ← readU32
  let dims ← readDims (narray mods type)
  let tagLen ← readU8
  let tag ← readIfPos tagLen
  let nameLen ← readU8
  let name ← readIfPos nameLen
  pure ⟨cls, type, size, dims, tagLen, tag, nameLen, name⟩

/-- `parseSymbolBody`: the body the kind selects; any other kind is an error before a byte of the body is read. -/
def parseSymbolBody (mods : UInt16 → List Nat) (kind : Kind) : Decoder SymbolBody :=
  if kind = kindName1 then do let body ← Name.unpack; pure (.name1 body)
  else if kind = kindName2 then do let body ← Name.unpack; pure (.name2 body)
  else if kind = kindDef then do let body ← Def.unpack; pure (.def body)
  else if kind = kindDef2 then do let body ← parseDef2 mods; pure (.def2 body)
  else if kind = kindOverlay then do let body ← Overlay.unpack; pure (.overlay body)
  else fun _ => .error (.unknownKind kind)

/-- `parseSymbol`: the header, then the body.  An error comes with the symbol as far as it was read: nothing when the
header failed, the header when the body did. -/
def parseSymbol (mods : UInt16 → List Nat) (s : List UInt8) :
    Except (Option SymbolHeader × Cause) (Symbol × List UInt8) :=
  match parseSymbolHeader s with
  | .error e => .error (none, e)
  | .ok (hdr, s) =>
    match parseSymbolBody mods hdr.kind s with
    | .error e => .error (some hdr, e)
    | .ok (body, s) => .ok (⟨hdr, body⟩, s)

example : parseSymbol (fun _ => []) [0, 0, 1, 0x80, 0x01, 2, 0x41, 0x42, 7] =
    .ok (⟨⟨0x80010000, kindName1⟩, .name1 ⟨2, [0x41, 0x42]⟩⟩, [7]) := by decide

end PsxSym
