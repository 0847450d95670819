import PsxSym.CType
/-!
# Declarator — what `Field.String` prints around a name

`Field.String` peels the type one wrapper at a time — a pointer, an array, a function — and rewrites the name for
each (`*name`, `name[len]`, `(name)(params)`), until it reaches a type that wraps nothing, which it prints before
the name.  `declString_wrapAll` says this once for every chain of wrappers, and the rest of the module reads it off:
a union with a fake tag is printed whole at the end of every chain (`declString_wrapAll_fakeUnion`), a struct is
always printed by its tag, fake or not (`declString_wrapAll_struct`), and a pointer to an array prints as the array
of pointers does (`declString_pointer_array`), because the pointer's `*` is written before the name and the array's
`[len]` after it, with no parentheses between.
-/
namespace PsxSym
namespace C

/-! ## Leaves -/

/-- The types `Field.String` prints by their `String`: no wrapper, and no union with a fake tag. -/
def CType.printsByName : CType → Bool
  | .pointer _ | .array _ _ | .func _ _ _ => false
  | .union u => !isFakeTag u.tag
  | _ => true

/-- `Field.String`'s last two cases: a type that wraps nothing is printed by its `String`, then the name. -/
theorem declString_of_printsByName {t : CType} (h : t.printsByName) (name : String) :
    declString t name = t.string ++ " " ++ name := by
  cases t <;> simp_all [CType.printsByName, declString, CType.string]

/-! ## Chains of wrappers -/

/-- One wrapper `Field.String` peels: a pointer, an array of `len`, or a function of `params`. -/
inductive Wrapper where
  | pointer
  | array (len : Int)
  | func (params : List Field) (variadic : Bool)

/-- The type `w` wraps around `t`. -/
def Wrapper.wrap : Wrapper → CType → CType
  | .pointer, t => .pointer t
  | .array len, t => .array t len
  | .func params variadic, t => .func t params variadic

/-- The name `Field.String` passes on to the element of `w`, from the name of `w`. -/
def Wrapper.rename : Wrapper → String → String
  | .pointer, name => "*" ++ name
  | .array len, name => name ++ "[" ++ toString len ++ "]"
  | .func params variadic, name => "(" ++ name ++ ")(" ++ paramList (fieldStrings params) variadic ++ ")"

/-- A chain of wrappers around `t`, the outermost first. -/
def wrapAll (ws : List Wrapper) (t : CType) : CType := ws.foldr Wrapper.wrap t

/-- The name at the inner end of a chain of wrappers. -/
def renameAll (ws : List Wrapper) (name : String) : String := ws.foldl (fun n w => w.rename n) name

theorem declString_wrap (w : Wrapper) (t : CType) (name : String) :
    declString (w.wrap t) name = declString t (w.rename name) := by
  cases w <;> simp [Wrapper.wrap, Wrapper.rename, declString]

/-- **`Field.String` peels every wrapper.**  At the end of a chain, the type inside is printed with the name the
chain has built. -/
theorem declString_wrapAll (ws : List Wrapper) (t : CType) (name : String) :
    declString (wrapAll ws t) name = declString t (renameAll ws name) := by
  induction ws generalizing name with
  | nil => rfl
  | cons w ws ih => exact (declString_wrap w _ name).trans (ih _)

/-- **A union with a fake tag is printed whole at the end of every chain of wrappers.** -/
theorem declString_wrapAll_fakeUnion (ws : List Wrapper) (u : UnionType) (name : String) (h : isFakeTag u.tag) :
    declString (wrapAll ws (.union u)) name = fakeUnionString u ++ " " ++ renameAll ws name := by
  simp [declString_wrapAll, declString, h]

/-- **A struct is printed by its tag at the end of every chain of wrappers, whether the tag is fake or not.** -/
theorem declString_wrapAll_struct (ws : List Wrapper) (s : StructType) (name : String) :
    declString (wrapAll ws (.struct s)) name = "struct " ++ s.tag ++ " " ++ renameAll ws name := by
  rw [declString_wrapAll, declString]

/-- A struct with a fake tag, as the field of a struct: it is printed by its tag. -/
theorem fakeStruct_printed_by_tag :
    isFakeTag "_0fake" = true ∧
      Field.string ⟨0, 0, .struct ⟨4, "_0fake", [⟨0, 4, .base .int, "x"⟩]⟩, "s"⟩ = "struct _0fake s" :=
  ⟨by decide, by decide⟩

theorem declString_wrapAll_fakeUnion_pointer :
    isFakeTag "_1fake" = true ∧
      declString (wrapAll [.pointer] (.union ⟨0, "_1fake", []⟩)) "u" =
        fakeUnionString ⟨0, "_1fake", []⟩ ++ " " ++ renameAll [.pointer] "u" :=
  ⟨by decide, declString_wrapAll_fakeUnion _ _ _ (by decide)⟩

/-! ## Pointers around arrays -/

/-- **A pointer to an array and an array of pointers are different types, printed the same.**  For every element
type, length and name, `Field.String` writes `*` before the name for the pointer and `[len]` after it for the array,
in either order; C reads the text as the array of pointers. -/
theorem declString_pointer_array (t : CType) (len : Int) (name : String) :
    CType.pointer (.array t len) ≠ .array (.pointer t) len ∧
      declString (.pointer (.array t len)) name = declString (.array (.pointer t) len) name := by
  refine ⟨fun h => CType.noConfusion h, ?_⟩
  simp only [declString, String.append_assoc]

example : Field.string ⟨0, 0, .pointer (.array (.base .int) 4), "p"⟩ = "int *p[4]" := by decide

end C
end PsxSym
