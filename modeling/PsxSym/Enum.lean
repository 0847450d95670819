import PsxSym.Tabwriter
import PsxSym.SortSorted
import PsxSym.Listing
/-!
# Enum — `EnumType.Def`

`EnumType.Def` sorts the members in place with `sort.Slice`, by `Value`, and writes one line `\t%s\t= %d,\n` per
member through a `tabwriter` (`minwidth = 1`, `tabwidth = 3`, `padding = 1`, padding character `' '`,
`TabIndent`), which aligns the `=` of all lines.  The call returns the text and leaves the members sorted; the
model returns both.

The call leaves the members a permutation of what they were, their values ascending, and a second call prints the
same text and leaves them where they are (`EnumType.def_members_sorted`, `EnumType.def_def`).  When no name holds a
character that ends a cell or a line, every line has three cells, the empty one before the first tab, the name and
`= value,`, and the `tabwriter` pads every name with spaces to one width, one more than the longest name, so that
the `=` of all lines stand in one column (`EnumType.def_aligned`); an empty name it pads with tabs.

`sort.Slice` is not stable: on thirteen members, the first of value 1 and the rest of value 0, the first
partition's swap of the pivot to the front carries the seventh member before the second to the sixth
(`enumDef_reorders_equal_values`).  Where the values are distinct, the order the members were read in does not
matter (`EnumType.def_perm`).
-/
namespace PsxSym
namespace C

open Tabwriter

/-! ## The definition -/

/-- The settings of the writer `EnumType.Def` makes, `tabwriter.NewWriter(buf, 1, 3, 1, ' ', tabwriter.TabIndent)`. -/
def enumConfig : Tabwriter.Config := ⟨1, 3, 1, ' ', true⟩

/-- What `EnumType.Def` writes for a member, `fmt.Fprintf(w, "\t%s\t= %d,\n", member.Name, member.Value)`. -/
def memberText (m : EnumMember) : String := "\t" ++ m.name ++ "\t= " ++ toString m.value.toNat ++ ",\n"

/-- `EnumType.Def`: the definition, and the enum as the call leaves it, its members sorted in place.  The header goes
to the buffer, then each member's line through the writer, the writer's `Flush`, and the closing brace. -/
def EnumType.def (t : EnumType) : String × EnumType :=
  let members := sortSlice (fun m : EnumMember => m.value.toNat) t.members
  let w := members.foldl (fun w m => w.write enumConfig (memberText m))
    (Writer.new (if t.tag.length > 0 then "enum " ++ t.tag ++ " \x7b\n" else "enum \x7b\n"))
  ((w.flush enumConfig).output ++ "\x7d", ⟨t.tag, members⟩)

/-! ## The members the call leaves -/

/-- **`EnumType.Def` sorts the members in place**: it leaves them a permutation of what they were, their values
ascending, under the same tag. -/
theorem EnumType.def_members_sorted (t : EnumType) :
    (EnumType.def t).2.tag = t.tag ∧ (EnumType.def t).2.members.Perm t.members ∧
      ((EnumType.def t).2.members.map fun m => m.value.toNat).Sorted (· ≤ ·) :=
  ⟨rfl, sortSlice_perm_sorted t.members⟩

/-- **Rendering an enum a second time prints what the first printed**, and leaves the members where the first left
them: the first left them sorted, and `sort.Slice` leaves a sorted slice as it is. -/
theorem EnumType.def_def (t : EnumType) : EnumType.def (EnumType.def t).2 = EnumType.def t := by
  have h : sortSlice (fun m : EnumMember => m.value.toNat) (sortSlice (fun m => m.value.toNat) t.members) =
      sortSlice (fun m => m.value.toNat) t.members :=
    sortSlice_of_sorted _ (sortSlice_perm_sorted t.members).2
  simp only [EnumType.def, h]

/-- Two members, `one = 1` before `zero = 0`. -/
def oneZeroEnum : EnumType := ⟨"E", [⟨1, "one"⟩, ⟨0, "zero"⟩]⟩

/-- **With distinct values, the order the members come in does not matter**: two enums with the same tag whose
members are the same up to order, no two of them with the same value, print the same definition and are left with
their members in the same order. -/
theorem EnumType.def_perm (t t' : EnumType) (htag : t.tag = t'.tag) (hp : t.members.Perm t'.members)
    (hd : (t.members.map fun m => m.value).Nodup) : EnumType.def t = EnumType.def t' := by
  have h : sortSlice (fun m : EnumMember => m.value.toNat) t.members = sortSlice (fun m => m.value.toNat) t'.members :=
    sortSlice_eq_of_perm hp (by simpa [List.map_map] using hd.map fun _ _ h => UInt32.toNat.inj h)
  simp only [EnumType.def, htag, h]

theorem EnumType.def_perm_swapped :
    oneZeroEnum.tag = "E" ∧ oneZeroEnum.members.Perm [⟨0, "zero"⟩, ⟨1, "one"⟩] ∧
      (oneZeroEnum.members.map fun m => m.value).Nodup ∧
      EnumType.def oneZeroEnum = EnumType.def ⟨"E", [⟨0, "zero"⟩, ⟨1, "one"⟩]⟩ :=
  ⟨rfl, by decide, by decide, EnumType.def_perm _ _ rfl (by decide) (by decide)⟩

/-! ## Alignment -/

/-- The width the writer gives the column of names: the longest name plus the padding 1, at least 1. -/
def nameWidth (members : List EnumMember) : Nat := members.foldl (fun w m => max w (m.name.length + 1)) 1

/-- A member's line as the alignment asks for it, the column of names `w` wide: a tab, the name padded with spaces
to `w`, or for an empty name as many tabs as reach `w` at three columns a tab, then `= value,`. -/
def alignedLine (w : Nat) (m : EnumMember) : String :=
  "\t" ++ (if m.name = "" then String.mk (List.replicate ((w + 2) / 3) '\t')
    else m.name ++ String.mk (List.replicate (w - m.name.length) ' ')) ++ "= " ++ toString m.value.toNat ++ ",\n"

theorem lt_foldl_name_width : ∀ (ms : List EnumMember) (w : Nat),
    w ≤ ms.foldl (fun w m => max w (m.name.length + 1)) w ∧
      ∀ m ∈ ms, m.name.length < ms.foldl (fun w m => max w (m.name.length + 1)) w
  | [], _ => ⟨le_rfl, by simp⟩
  | m :: ms, w => by
    obtain ⟨h₁, h₂⟩ := lt_foldl_name_width ms (max w (m.name.length + 1))
    simp only [List.foldl_cons, List.mem_cons, forall_eq_or_imp]
    exact ⟨(le_max_left _ _).trans h₁, (Nat.lt_succ_self _).trans_le ((le_max_right _ _).trans h₁), h₂⟩

/-- Every name is shorter than the column, so at least one space stands before its `=`. -/
theorem name_length_lt_nameWidth {ms : List EnumMember} {m : EnumMember} (hm : m ∈ ms) :
    m.name.length < nameWidth ms :=
  (lt_foldl_name_width ms 1).2 m hm

/-- The cells of a member's line: the empty cell before the first tab, the name, and `= value,`. -/
def memberCells (m : EnumMember) : List String := ["", m.name, "= " ++ toString m.value.toNat ++ ","]

/-- A member whose name ends no cell, written at the start of a line, adds its line of three cells. -/
theorem write_memberText (w : Writer) (hl : w.line = []) (hc : w.cell = "") {m : EnumMember}
    (h : ∀ c ∈ m.name.data, endsCell c = false) :
    w.write enumConfig (memberText m) = ⟨w.output, w.lines ++ [memberCells m], [], ""⟩ := by
  have hv : ∀ c ∈ ("= " ++ toString m.value.toNat ++ ",").data, endsCell c = false := by
    intro c hc
    refine Bool.eq_false_iff.2 fun he => ?_
    simp only [String.data_append, List.mem_append] at hc
    rcases hc with (hc | hc) | hc
    · fin_cases hc <;> exact absurd he (by decide)
    · have hd := isDigit_of_mem_toString _ c hc
      rcases endsCell_iff.1 he with rfl | rfl | rfl | rfl <;> exact absurd hd (by decide)
    · fin_cases hc; exact absurd he (by decide)
  have e : (memberText m).data =
      '\t' :: (m.name.data ++ '\t' :: (("= " ++ toString m.value.toNat ++ ",").data ++ ['\n'])) := by
    simp [memberText]
  rw [Writer.write, e, List.foldl_cons, Writer.step_tab, List.foldl_append, Writer.foldl_step_plain _ _ _ h,
    List.foldl_cons, Writer.step_tab, List.foldl_append, Writer.foldl_step_plain _ _ _ hv, List.foldl_cons,
    List.foldl_nil, Writer.step_newline _ _ (by simp)]
  simp [hl, hc, memberCells]
  rfl

theorem foldl_write_memberText : ∀ (ms : List EnumMember) (w : Writer), w.line = [] → w.cell = "" →
    (∀ m ∈ ms, ∀ c ∈ m.name.data, endsCell c = false) →
      ms.foldl (fun w m => w.write enumConfig (memberText m)) w = ⟨w.output, w.lines ++ ms.map memberCells, [], ""⟩
  | [], w, hl, hc, _ => by cases w; simp_all
  | m :: ms, w, hl, hc, h => by
    rw [List.foldl_cons, write_memberText w hl hc (h m (List.mem_cons_self _ _)),
      foldl_write_memberText ms _ rfl rfl fun x hx => h x (List.mem_cons_of_mem _ hx)]
    simp

/-- A member's line, through the writer with the column widths `1` and `w`. -/
theorem writeLine_memberCells (w : Nat) (m : EnumMember) :
    writeLine enumConfig [1, w] (memberCells m) ++ "\n" = alignedLine w m := by
  have hv : ("= " ++ (toString m.value.toNat ++ ",")).isEmpty = false := Bool.eq_false_iff.2 fun h => by
    simpa using congrArg String.data ((String.isEmpty_iff _).1 h)
  have he : ("" : String).isEmpty = true := rfl
  by_cases hn : m.name = ""
  · have ht : ((w + 2) / 3 * 3 + 2) / 3 = (w + 2) / 3 := by omega
    simp [writeLine, writeCells, memberCells, alignedLine, writePadding, enumConfig, hn, hv, he, ht, String.append_assoc]
  · have hn' : m.name.isEmpty = false := Bool.eq_false_iff.2 fun h => hn ((String.isEmpty_iff _).1 h)
    simp [writeLine, writeCells, memberCells, alignedLine, writePadding, enumConfig, hn, hn', hv, he,
      String.append_assoc]

/-- The text `EnumType.Def` prints when no name ends a cell: the header, each member's line with the names' column
as wide as the longest name plus one, and the closing brace. -/
theorem EnumType.def_fst (t : EnumType) (h : ∀ m ∈ t.members, ∀ c ∈ m.name.data, endsCell c = false) :
    (EnumType.def t).1 = (if t.tag.length > 0 then "enum " ++ t.tag ++ " \x7b\n" else "enum \x7b\n") ++
      String.join ((EnumType.def t).2.members.map (alignedLine (nameWidth (EnumType.def t).2.members))) ++ "\x7d" := by
  set ms := (EnumType.def t).2.members
  have hp : ms.Perm t.members := (sortSlice_perm_sorted t.members).1
  set header := if t.tag.length > 0 then "enum " ++ t.tag ++ " \x7b\n" else "enum \x7b\n"
  have e : (EnumType.def t).1 =
      ((ms.foldl (fun w m => w.write enumConfig (memberText m)) (Writer.new header)).flush enumConfig).output ++
        "\x7d" := rfl
  rw [e, foldl_write_memberText ms _ rfl rfl fun m hm => h m (hp.subset hm)]
  simp only [Writer.flush, Writer.new, List.nil_append, show ("" : String).isEmpty = true from rfl, if_true]
  congr 2
  rcases List.eq_nil_or_concat ms with hnil | ⟨_, _, hnil⟩
  · rw [hnil]; rfl
  · have hne : ms.map memberCells ≠ [] := by simp [hnil]
    rw [render_uniform enumConfig (k := 2) (by norm_num) hne (by simp [memberCells])]
    have hw₀ : blockWidth enumConfig 0 (ms.map memberCells) = 1 := by
      rw [blockWidth, List.foldl_map]; exact List.foldl_fixed' (fun _ => rfl) ms
    have hw₁ : blockWidth enumConfig 1 (ms.map memberCells) = nameWidth ms := by
      rw [blockWidth, List.foldl_map]; rfl
    simp only [show List.range 2 = [0, 1] from rfl, List.map_cons, List.map_nil, hw₀, hw₁, List.map_map,
      Function.comp_def, writeLine_memberCells]

example : (EnumType.def oneZeroEnum).1 = "enum E \x7b\n\tzero = 0,\n\tone  = 1,\n\x7d" := by
  decide

/-- An empty name, and `ab`. -/
def blankNameEnum : EnumType := ⟨"E", [⟨0, ""⟩, ⟨1, "ab"⟩]⟩

/-- The empty name is padded with a tab, to the column of `ab`. -/
example : (EnumType.def blankNameEnum).1 = "enum E \x7b\n\t\t= 0,\n\tab = 1,\n\x7d" := by
  decide

/-- Thirteen members: `A = 1`, then `B` to `M`, all `= 0`. -/
def tiedEnum : EnumType :=
  ⟨"E", ⟨1, "A"⟩ :: ["B", "C", "D", "E", "F", "G", "H", "I", "J", "K", "L", "M"].map (⟨0, ·⟩)⟩

/-- `G`, the seventh member, comes before `B` to `F`, which have its value and stood before it. -/
theorem enumDef_reorders_equal_values :
    (EnumType.def tiedEnum).1 =
      "enum E \x7b\n\tG = 0,\n\tB = 0,\n\tC = 0,\n\tD = 0,\n\tE = 0,\n\tF = 0,\n\tH = 0,\n\tI = 0,\n\tJ = 0,\n\tK = 0,\n\tL = 0,\n\tM = 0,\n\tA = 1,\n\x7d" := by
  rw [EnumType.def_fst tiedEnum (by decide)]
  decide

end C
end PsxSym
