import CHeader.Main
import CHeader.Proofs.BrokenTexts
import CHeader.Proofs.Checked.Progress
import CHeader.Proofs.DirectiveWords
import CHeader.Proofs.FunctionDefinitions
import CHeader.Proofs.Grammar
import CHeader.Proofs.GuardLineEnds
import CHeader.Proofs.Hidden
import CHeader.Proofs.InPlace
import CHeader.Proofs.Isolation
import CHeader.Proofs.LineSearch
import CHeader.Proofs.MarkerWords
import CHeader.Proofs.Meaning
import CHeader.Proofs.NestedTokens
import CHeader.Proofs.OldStyle
import CHeader.Proofs.RegularTexts
import CHeader.Proofs.Spellings
import CHeader.Proofs.SymbolChains
import CHeader.Proofs.Tiling
import CHeader.Proofs.TypeAttributes
