import PsxSym.Reader
import PsxSym.Symbol
import PsxSym.Dimensions
import PsxSym.Format
import PsxSym.Truncation
import PsxSym.Cuts
import PsxSym.Stream
import PsxSym.Strconv
import PsxSym.CType
import PsxSym.Declarator
import PsxSym.Layout
import PsxSym.Listing
import PsxSym.CLexer
import PsxSym.Declaration
import PsxSym.PrintedTokens
import PsxSym.ReadBack
import PsxSym.FakeTag
import PsxSym.Pdqsort
import PsxSym.SortPerm
import PsxSym.SortParts
import PsxSym.SortHeap
import PsxSym.SortCorrect
import PsxSym.SortSorted
import PsxSym.Tabwriter
import PsxSym.Enum
import PsxSym.EnumReadBack
