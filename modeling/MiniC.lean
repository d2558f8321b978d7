import MiniC.Main
import MiniC.Proofs.Arithmetic
import MiniC.Proofs.CodeTexts
import MiniC.Proofs.Commands
import MiniC.Proofs.Discipline
import MiniC.Proofs.Histories
import MiniC.Proofs.LaterFunctions
import MiniC.Proofs.Limits
import MiniC.Proofs.Lookups
import MiniC.Proofs.Nesting
import MiniC.Proofs.NormalForms
import MiniC.Proofs.Places
import MiniC.Proofs.Printing
import MiniC.Proofs.Progress
import MiniC.Proofs.Renaming
import MiniC.Proofs.RunningOff
import MiniC.Proofs.ScopeDumps
import MiniC.Proofs.StackSlots
import MiniC.Proofs.Symbols
import MiniC.Proofs.Termination
import MiniC.Proofs.WholeWords
import MiniC.Tree.Same
