import PsxSym.Enum
import PsxSym.CLexer
/-!
# EnumReadBack — C reads `EnumType.Def` back

An enum definition is read from its characters, through C's lexer (`CLexer`), since its text is made by the
`tabwriter`'s padding as much as by its tokens.  `parseEnumSpecifier` is C's grammar of an enum specifier whose
enumerators all have a value.  What it takes, C takes the same way; what C has beyond it (enumerators without a
value, values that are expressions) it rejects.

When the tag is empty or an identifier and every member's name is one, C reads `EnumType.Def`'s text as the enum's
tag and its members, in the order the call leaves them, each with its value: the tabs and spaces the `tabwriter`
pads with lex as white space, and each `%d` as a decimal constant.  An enum with no member C does not read at all:
its grammar has no empty enumerator list (`EnumType.def_parseEnumSpecifier`).  A value of `2^31` or more is printed
and read as it is, though C before C23 asks an enumeration constant to fit an `int`.
-/
namespace PsxSym
namespace C

/-! ## C's grammar of an enum specifier -/

/-- The enumerator list after the `{`, each enumerator with a value: a comma after each (after the last one too, as
C99 allows, or not), then the closing brace, which ends the text.  The list is never empty. -/
def parseEnumerators : List CToken → Option (List (String × Nat))
  | .ident name :: .punct '=' :: .const v :: ts =>
    match ts with
    | [.punct '\x7d'] | [.punct ',', .punct '\x7d'] => some [(name, v)]
    | .punct ',' :: ts => (parseEnumerators ts).map ((name, v) :: ·)
    | _ => none
  | _ => none

/-- An enum specifier with its enumerator list: `enum`, the tag when there is one, `{` and the enumerators.  An
anonymous enum is read with the empty tag. -/
def parseEnumSpecifier : List CToken → Option (String × List (String × Nat))
  | .keyword "enum" :: .ident tag :: .punct '\x7b' :: ts => (parseEnumerators ts).map (tag, ·)
  | .keyword "enum" :: .punct '\x7b' :: ts => (parseEnumerators ts).map ("", ·)
  | _ => none

/-! ## The definition's text, lexed -/

/-- The tokens of a member's line. -/
def memberTokens (m : EnumMember) : List CToken := [.ident m.name, .punct '=', .const m.value.toNat, .punct ',']

/-- A member's line lexes as its name, `=`, its value and `,`. -/
theorem closed_alignedLine {w : Nat} {m : EnumMember} (hm : isIdent m.name) (hw : m.name.length < w) :
    Closed (alignedLine w m).data (memberTokens m) := by
  have hne : m.name ≠ "" := fun h => by rw [h] at hm; cases hm
  obtain ⟨k, hk⟩ : ∃ k, w - m.name.length = k + 1 := ⟨_, (Nat.succ_pred_eq_of_pos (by omega)).symm⟩
  have e : (alignedLine w m).data = ['\t'] ++ (m.name.data ++ (' ' :: List.replicate k ' ')) ++
      (['=', ' '] ++ ((toString m.value.toNat).data ++ [',', '\n'])) := by
    simp [alignedLine, hne, hk, List.replicate_succ]
  have hsp : Closed (' ' :: List.replicate k ' ') [] := closed_blanks (by simp [List.mem_replicate])
  have hv : Closed ((toString m.value.toNat).data ++ [',', '\n']) [.const m.value.toNat, .punct ','] :=
    (lexesTo_toString _).append_closed ((closed_punct (by decide)).append (closed_white (by decide))) (sep_cons (by decide) _)
  rw [e, memberTokens]
  exact (closed_white (by decide)).append (((lexesTo_ident hm).append_closed hsp (sep_cons (by decide) _)).append
    ((closed_punct (by decide)).append ((closed_white (by decide)).append hv)))

theorem closed_alignedLines {w : Nat} : ∀ {ms : List EnumMember}, (∀ m ∈ ms, isIdent m.name ∧ m.name.length < w) →
    Closed (String.join (ms.map (alignedLine w))).data (ms.flatMap memberTokens)
  | [], _ => closed_nil
  | m :: ms, h => by
    have hm := h m (List.mem_cons_self _ _)
    rw [List.map_cons, String.data_join, List.map_cons, List.flatten_cons, ← String.data_join, List.flatMap_cons]
    exact (closed_alignedLine hm.1 hm.2).append (closed_alignedLines fun x hx => h x (List.mem_cons_of_mem _ hx))

/-- The header lexes as `enum`, the tag when there is one, and `{`. -/
theorem closed_header {tag : String} (h : tag = "" ∨ isIdent tag) :
    Closed (if tag.length > 0 then "enum " ++ tag ++ " \x7b\n" else "enum \x7b\n").data
      (.keyword "enum" :: ((if tag = "" then [] else [.ident tag]) ++ [.punct '\x7b'])) := by
  have henum : Closed "enum ".data [.keyword "enum"] :=
    (lexesTo_keyword (s := "enum") (by decide)).append_closed (closed_white (by decide)) (sep_cons (by decide) _)
  have hbrace : Closed "\x7b\n".data [.punct '\x7b'] := (closed_punct (by decide)).append (closed_white (by decide))
  rcases h with rfl | h
  · exact henum.append hbrace
  · have hne : tag ≠ "" := fun h' => by rw [h'] at h; cases h
    have hlen : tag.length > 0 := List.length_pos.2 (isIdent_spec h).1
    rw [if_pos hlen, if_neg hne, String.data_append, String.data_append]
    exact henum.append ((lexesTo_ident h).append_closed ((closed_white (by decide)).append hbrace) (sep_cons (by decide) _))

/-- C's grammar reads the members' tokens back, unless there is none. -/
theorem parseEnumerators_memberTokens : ∀ ms : List EnumMember,
    parseEnumerators (ms.flatMap memberTokens ++ [.punct '\x7d']) =
      if ms = [] then none else some (ms.map fun m => (m.name, m.value.toNat))
  | [] => rfl
  | [_] => rfl
  | m :: m' :: ms => by
    have ih := parseEnumerators_memberTokens (m' :: ms)
    rw [if_neg (List.cons_ne_nil _ _)] at ih ⊢
    simp only [List.flatMap_cons, memberTokens, List.cons_append, List.nil_append, List.append_assoc] at ih ⊢
    rw [parseEnumerators] <;> simp [ih]

theorem parseEnumSpecifier_header (tag : String) (ts : List CToken) :
    parseEnumSpecifier (.keyword "enum" :: ((if tag = "" then [] else [.ident tag]) ++ .punct '\x7b' :: ts)) =
      (parseEnumerators ts).map (tag, ·) := by
  by_cases h : tag = ""
  · rw [if_pos h, h]; rfl
  · rw [if_neg h]; rfl

/-- **C reads an enum's definition back**, when its tag is empty or an identifier and its members' names are
identifiers: as the enum's tag and its members, in the order `EnumType.Def` leaves them, each with its value.  An
enum with no member it does not read: C's grammar has no empty enumerator list. -/
theorem EnumType.def_parseEnumSpecifier (t : EnumType) (htag : t.tag = "" ∨ isIdent t.tag)
    (hnames : ∀ m ∈ t.members, isIdent m.name) :
    parseEnumSpecifier (lex (EnumType.def t).1) =
      if t.members = [] then none
      else some (t.tag, (EnumType.def t).2.members.map fun m => (m.name, m.value.toNat)) := by
  have hp : (EnumType.def t).2.members.Perm t.members := (sortSlice_perm_sorted t.members).1
  have hw : ∀ m ∈ (EnumType.def t).2.members, isIdent m.name ∧ m.name.length < nameWidth (EnumType.def t).2.members :=
    fun m hm => ⟨hnames m (hp.subset hm), name_length_lt_nameWidth hm⟩
  have hcells : ∀ m ∈ t.members, ∀ c ∈ m.name.data, Tabwriter.endsCell c = false := fun m hm c hc => by
    have hid := (isIdent_spec (hnames m hm)).2.1 c hc
    refine Bool.eq_false_iff.2 fun he => ?_
    rcases Tabwriter.endsCell_iff.1 he with rfl | rfl | rfl | rfl <;> exact absurd hid (by decide)
  have hnil : (EnumType.def t).2.members = [] ↔ t.members = [] := by
    rw [← List.length_eq_zero, ← List.length_eq_zero, hp.length_eq]
  have hlex := ((closed_header htag).append (closed_alignedLines hw)).append (closed_punct (c := '\x7d') (by decide))
  rw [lex, EnumType.def_fst t hcells, String.data_append, String.data_append, show "\x7d".data = ['\x7d'] from rfl,
    hlex.lexAux_eq]
  simp only [List.cons_append, List.append_assoc, List.singleton_append]
  rw [parseEnumSpecifier_header, List.nil_append, parseEnumerators_memberTokens]
  simp only [hnil]
  split_ifs <;> rfl

theorem EnumType.def_parseEnumSpecifier_one_zero :
    (oneZeroEnum.tag = "" ∨ isIdent oneZeroEnum.tag) ∧ (∀ m ∈ oneZeroEnum.members, isIdent m.name) ∧
      parseEnumSpecifier (lex (EnumType.def oneZeroEnum).1) =
        if oneZeroEnum.members = [] then none
        else some (oneZeroEnum.tag, (EnumType.def oneZeroEnum).2.members.map fun m => (m.name, m.value.toNat)) :=
  ⟨.inr (by decide), by decide, EnumType.def_parseEnumSpecifier oneZeroEnum (.inr (by decide)) (by decide)⟩

/-- An enum with no member. -/
def emptyEnum : EnumType := ⟨"E", []⟩

/-- It prints `enum E {` and `}`, which C does not read. -/
example : (EnumType.def emptyEnum).1 = "enum E \x7b\n\x7d" ∧ parseEnumSpecifier (lex (EnumType.def emptyEnum).1) = none := by
  decide

end C
end PsxSym
