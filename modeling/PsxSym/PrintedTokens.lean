import PsxSym.Declaration
import PsxSym.Layout
/-!
# PrintedTokens — what C's lexer makes of the declarations package `c` prints

`Field.String`, `StructType.Def`, `UnionType.Def` and `Typedef.Def` print text; C reads it through its lexer.  When
every tag and name printed is an identifier, the lexer makes of it the tokens `declToks`, `aggregateToks` and
`typedefToks`: the comments `// size` and `// offset` and the tabs, spaces and line breaks are set aside, each name
and tag is one identifier, each keyword one keyword, each `%d` one constant, and `...` one punctuator
(`lex_fieldString`, `lex_aggregateDef`, `lex_typedefDef`).  Each piece of the text lexes the same wherever it
stands (`LexesTo`, `Closed`), so the proof follows `Field.String`'s recursion, one piece at a time.
-/
namespace PsxSym
namespace C

/-! ## Pieces -/

/-- A comment on one line, with its line break, after blanks, lexes as nothing. -/
theorem closed_comment {pre body : List Char} (hpre : ∀ c ∈ pre, c = ' ' ∨ c = '\t' ∨ c = '\n') (h : OneLine body) :
    Closed (pre ++ '/' :: '/' :: (body ++ ['\n'])) [] :=
  (closed_blanks hpre).append (closed_lineComment h)

theorem closed_sizeComment (size : UInt32) : Closed (sizeComment size).data [] := by
  unfold sizeComment
  split_ifs
  · have h : OneLine (" size = 0x" ++ hexX size.toNat).data := by
      simp only [String.data_append, oneLine_append]
      exact ⟨by decide, oneLine_hexX _⟩
    exact @closed_comment [] _ (by simp) h
  · exact closed_nil

theorem closed_offsetComment {indent : String} (hi : ∀ c ∈ indent.data, c = ' ' ∨ c = '\t' ∨ c = '\n')
    (second : Bool) (f : Field) : Closed (offsetComment indent second f).data [] := by
  have h₁ := oneLine_hex04X f.offset.toNat
  unfold offsetComment
  split_ifs
  · have h : OneLine (" offset: " ++ hex04X f.offset.toNat ++ " (" ++ toString f.size.toNat ++ " bytes)").data := by
      simp only [String.data_append, oneLine_append]
      exact ⟨⟨⟨⟨by decide, h₁⟩, by decide⟩, oneLine_toString _⟩, by decide⟩
    have e := closed_comment hi h
    simp only [String.data_append, List.append_assoc] at e ⊢
    exact e
  · have h : OneLine (" offset: " ++ hex04X f.offset.toNat).data := by
      simp only [String.data_append, oneLine_append]
      exact ⟨by decide, h₁⟩
    have e := closed_comment hi h
    simp only [String.data_append, List.append_assoc] at e ⊢
    exact e
  · exact closed_nil

/-- `%d` of an `int` lexes as `intToks`. -/
theorem lexesTo_intToks : ∀ n : Int, LexesTo (toString n).data (intToks n)
  | .ofNat m => by
    rw [intToks, if_neg (show ¬Int.ofNat m < 0 from Int.not_lt.2 (Int.ofNat_nonneg m))]
    exact lexesTo_toString m
  | .negSucc m => by
    rw [intToks, if_pos (Int.negSucc_lt_zero m)]
    exact (closed_punct (c := '-') (by decide)).append_lexesTo (lexesTo_toString (m + 1))

theorem closed_keyword_space {s : String}
    (h : s.data ≠ [] ∧ (∀ x ∈ s.data, isIdentChar x) ∧ wordToken s.data = .keyword s) :
    Closed (s ++ " ").data [.keyword s] := by
  have e := (lexesTo_keyword h).append_closed (closed_white (c := ' ') (by decide)) (sep_cons (by decide) _)
  rwa [List.append_nil] at e

/-- `BaseType.String` lexes as its keywords. -/
theorem lexesTo_baseString (t : BaseType) : LexesTo t.string.data t.toks := by
  have hu : Closed ("unsigned" ++ " ").data [.keyword "unsigned"] := closed_keyword_space (by decide)
  cases t
  case uchar => exact hu.append_lexesTo (lexesTo_keyword (s := "char") (by decide))
  case ushort => exact hu.append_lexesTo (lexesTo_keyword (s := "short") (by decide))
  case uint => exact hu.append_lexesTo (lexesTo_keyword (s := "int") (by decide))
  case ulong => exact hu.append_lexesTo (lexesTo_keyword (s := "long") (by decide))
  all_goals exact lexesTo_keyword (by decide)

/-- A type printed by its name, a blank, and the declarator. -/
theorem lexesTo_named {s d : String} {stoks dtoks : List CToken} (hs : LexesTo s.data stoks)
    (hd : LexesTo d.data dtoks) : LexesTo (s ++ " " ++ d).data (stoks ++ dtoks) := by
  have e := (hs.append_closed (closed_white (c := ' ') (by decide)) (sep_cons (by decide) _)).append_lexesTo hd
  rwa [List.append_nil] at e

/-- A keyword and a tag. -/
theorem lexesTo_keywordTag {kw tag : String}
    (hk : kw.data ≠ [] ∧ (∀ x ∈ kw.data, isIdentChar x) ∧ wordToken kw.data = .keyword kw) (ht : isIdent tag) :
    LexesTo (kw ++ " " ++ tag).data [.keyword kw, .ident tag] :=
  lexesTo_named (lexesTo_keyword hk) (lexesTo_ident ht)

theorem paramList_cons_cons (s t : String) (l : List String) (variadic : Bool) :
    paramList (s :: t :: l) variadic = s ++ ", " ++ paramList (t :: l) variadic := by
  simp [paramList, intercalate_cons_cons, String.append_assoc]

/-- The blanks `fieldLines` indents with. -/
def Blank (s : String) : Prop := ∀ c ∈ s.data, c = ' ' ∨ c = '\t' ∨ c = '\n'

instance (s : String) : Decidable (Blank s) := inferInstanceAs (Decidable (∀ c ∈ s.data, _))

/-! ## The declarations -/

section Lexing

variable (env : String → Option CType)

mutual

/-- **`Field.String` prints `declToks`**: around a declarator that lexes as `dtoks`, the declaration of a type
whose tags and names are identifiers lexes as `declToks`. -/
theorem lexesTo_declString : ∀ (t : CType) (d : String) (dtoks : List CToken), t.Readable env →
    LexesTo d.data dtoks → LexesTo (declString t d).data (declToks t dtoks)
  | .pointer elem, d, dtoks, ht, hd =>
    lexesTo_declString elem ("*" ++ d) (.punct '*' :: dtoks) ht ((closed_punct (c := '*') (by decide)).append_lexesTo hd)
  | .array elem len, d, dtoks, ht, hd => by
    apply lexesTo_declString elem _ _ ht.2
    have hb : Closed ("[" ++ (toString len ++ "]")).data (.punct '[' :: (intToks len ++ [.punct ']'])) :=
      (closed_punct (c := '[') (by decide)).append
        ((lexesTo_intToks len).append_closed (closed_punct (c := ']') (by decide)) (sep_cons (by decide) _))
    have e := (hd.append_closed hb (sep_cons (by decide) _)).lexesTo
    simp only [String.data_append, List.append_assoc, List.cons_append] at e ⊢
    exact e
  | .func retType params variadic, d, dtoks, ht, hd => by
    apply lexesTo_declString retType _ _ ht.1
    have hp : Closed ((paramList (fieldStrings params) variadic).data ++ [')'])
        (paramToks (fieldToks params) variadic ++ [.punct ')']) :=
      (lexesTo_paramList params variadic ht.2).append_closed (closed_punct (c := ')') (by decide)) (sep_cons (by decide) _)
    have e := ((closed_punct (c := '(') (by decide)).append ((hd.append_closed ((closed_punct (c := ')') (by decide)).append
      ((closed_punct (c := '(') (by decide)).append hp)) (sep_cons (by decide) _)))).lexesTo
    simp only [String.data_append, List.append_assoc, List.cons_append, List.singleton_append] at e ⊢
    exact e
  | .union ⟨size, tag, fields⟩, d, dtoks, ht, hd => by
    by_cases hf : isFakeTag tag = true
    · simp only [CType.Readable, hf, if_true] at ht
      have hu : Closed (fakeUnionString ⟨size, tag, fields⟩).data
          (.keyword "union" :: .punct '\x7b' :: fieldLineToks fields ++ [.punct '\x7d']) := by
        have hk : Closed ("\tunion \x7b\n").data [.keyword "union", .punct '\x7b'] :=
          (closed_white (c := '\t') (by decide)).append ((closed_keyword_space (s := "union") (by decide)).append
            ((closed_punct (c := '\x7b') (by decide)).append (closed_white (c := '\n') (by decide))))
        have e := (closed_sizeComment size).append (hk.append ((closed_fieldLines "\t\t" (by decide)
          (secondOffset fields) fields ht.2).append ((closed_white (c := '\t') (by decide)).append
            (closed_punct (c := '\x7d') (by decide)))))
        simp only [fakeUnionString, String.data_append, List.append_assoc, List.cons_append, List.nil_append] at e ⊢
        exact e
      have e := hu.append_lexesTo ((closed_white (c := ' ') (by decide)).append_lexesTo hd)
      simp only [declString, declToks, hf, if_true, String.data_append, List.append_assoc, List.cons_append,
        List.nil_append] at e ⊢
      exact e
    · simp only [CType.Readable, hf, Bool.false_eq_true, if_false] at ht
      simp only [declString, declToks, hf, Bool.false_eq_true, if_false]
      exact lexesTo_named (@lexesTo_keywordTag "union" _ (by decide) ht) hd
  | .typedef _ name, d, dtoks, ht, hd => lexesTo_named (lexesTo_ident ht.1) hd
  | .base t, d, dtoks, _, hd => lexesTo_named (lexesTo_baseString t) hd
  | .struct t, d, dtoks, ht, hd => lexesTo_named (@lexesTo_keywordTag "struct" _ (by decide) ht) hd
  | .enum t, d, dtoks, ht, hd => lexesTo_named (@lexesTo_keywordTag "enum" _ (by decide) ht) hd

/-- The parameter list `Field.String` prints lexes as `paramToks`. -/
theorem lexesTo_paramList : ∀ (params : List Field) (variadic : Bool), FieldsReadable env params →
    LexesTo (paramList (fieldStrings params) variadic).data (paramToks (fieldToks params) variadic)
  | [], variadic, _ => by
    cases variadic
    · exact closed_nil.lexesTo
    · exact closed_ellipsis.lexesTo
  | [⟨_, _, type, name⟩], variadic, h => by
    have hp := lexesTo_declString type name [.ident name] h.2.1 (lexesTo_ident h.1.1)
    cases variadic
    · simpa [paramList, fieldStrings, fieldToks, paramToks, String.intercalate, String.intercalate.go] using hp
    · have e := (hp.append_closed ((closed_punct (c := ',') (by decide)).append
        ((closed_white (c := ' ') (by decide)).append closed_ellipsis)) (sep_cons (by decide) _)).lexesTo
      simpa [paramList, fieldStrings, fieldToks, paramToks, String.intercalate, String.intercalate.go] using e
  | ⟨_, _, type, name⟩ :: ⟨o, sz, type', name'⟩ :: qs, variadic, h => by
    have hp := lexesTo_declString type name [.ident name] h.2.1 (lexesTo_ident h.1.1)
    have e := (hp.append_closed ((closed_punct (c := ',') (by decide)).append (closed_white (c := ' ') (by decide)))
      (sep_cons (by decide) _)).append_lexesTo (lexesTo_paramList (⟨o, sz, type', name'⟩ :: qs) variadic h.2.2)
    simp only [fieldStrings, fieldToks, paramList_cons_cons, paramToks, String.data_append, List.append_assoc,
      List.cons_append, List.nil_append] at e ⊢
    exact e

/-- The field loop lexes as each field's declaration and `;`, its comments and indentation set aside. -/
theorem closed_fieldLines (indent : String) (hi : Blank indent) (second : Bool) : ∀ fields : List Field,
    FieldsReadable env fields → Closed (fieldLines indent second fields).data (fieldLineToks fields)
  | [], _ => closed_nil
  | ⟨offset, size, type, name⟩ :: fs, h => by
    have hp := lexesTo_declString type name [.ident name] h.2.1 (lexesTo_ident h.1.1)
    have e := (closed_offsetComment hi second ⟨offset, size, type, name⟩).append ((closed_blanks hi).append
      ((hp.append_closed ((closed_punct (c := ';') (by decide)).append (closed_white (c := '\n') (by decide)))
        (sep_cons (by decide) _)).append (closed_fieldLines indent hi second fs h.2.2)))
    simp only [fieldLines, fieldLineToks, String.data_append, List.append_assoc, List.cons_append,
      List.nil_append] at e ⊢
    exact e

end

/-- **`Field.String` prints `declToks`** of the field's name, when its name and the tags and names its type prints are
identifiers. -/
theorem lex_fieldString (f : Field) (ht : f.type.Readable env) (hn : isIdent f.name) :
    lex (Field.string f) = declToks f.type [.ident f.name] :=
  (lexesTo_declString env f.type f.name [.ident f.name] ht (lexesTo_ident hn)).lexAux_eq

/-- **`StructType.Def` and `UnionType.Def` print `aggregateToks`**, when the tag is empty or an identifier and the
fields' tags and names are identifiers. -/
theorem lex_aggregateDef {keyword : String}
    (hk : keyword.data ≠ [] ∧ (∀ x ∈ keyword.data, isIdentChar x) ∧ wordToken keyword.data = .keyword keyword)
    (t : AggregateOf CType) (htag : t.tag = "" ∨ isIdent t.tag) (hf : FieldsReadable env t.fields) :
    lex (aggregateDef keyword t) = aggregateToks keyword t := by
  have hbrace : Closed " \x7b\n".data [.punct '\x7b'] :=
    (closed_white (c := ' ') (by decide)).append ((closed_punct (c := '\x7b') (by decide)).append
      (closed_white (c := '\n') (by decide)))
  have hhead : Closed (if t.tag.length > 0 then keyword ++ " " ++ t.tag ++ " \x7b\n" else keyword ++ " \x7b\n").data
      (.keyword keyword :: ((if t.tag.length > 0 then [.ident t.tag] else []) ++ [.punct '\x7b'])) := by
    rcases htag with htag | htag
    · have e := (lexesTo_keyword hk).append_closed hbrace (sep_cons (by decide) _)
      simpa [htag] using e
    · have hlen : t.tag.length > 0 := List.length_pos.2 (isIdent_spec htag).1
      have e := (lexesTo_keywordTag hk htag).append_closed hbrace (sep_cons (by decide) _)
      simpa [hlen] using e
  have e := (closed_sizeComment t.size).append (hhead.append ((closed_fieldLines env "\t" (by decide)
    (secondOffset t.fields) t.fields hf).append (closed_punct (c := '\x7d') (by decide))))
  unfold lex aggregateDef aggregateToks
  simpa only [String.data_append, List.append_assoc, List.cons_append, List.nil_append] using e.lexAux_eq

theorem typedefDef_eq_declString (type : CType) (name : String) :
    typedefDef type name = "typedef " ++ declString type name ++ ";" := by
  cases type <;> simp [typedefDef, declString, String.append_assoc]

/-- **`Typedef.Def` prints `typedefToks`**, when the type's tags and names and the name are identifiers. -/
theorem lex_typedefDef (type : CType) (name : String) (ht : type.Readable env) (hn : isIdent name) :
    lex (typedefDef type name) = typedefToks type name := by
  have e := ((closed_keyword_space (s := "typedef") (by decide)).append_lexesTo
    (lexesTo_declString env type name [.ident name] ht (lexesTo_ident hn))).append_closed
      (closed_punct (c := ';') (by decide)) (sep_cons (by decide) _)
  rw [lex, typedefDef_eq_declString, show "typedef " = "typedef" ++ " " from rfl, String.data_append,
    String.data_append, show ";".data = [';'] from rfl, e.lexAux_eq]
  rfl

end Lexing

end C
end PsxSym
