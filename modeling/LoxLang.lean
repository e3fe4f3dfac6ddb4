import LoxLang.Tree.Occurrence
import LoxLang.Main
import LoxLang.Proofs.Grammar.Programs
import LoxLang.Proofs.Run.Access
import LoxLang.Proofs.Run.Asking
import LoxLang.Proofs.Grammar.Relabel
import LoxLang.Proofs.Grammar.Seam
import LoxLang.Proofs.Run.Reliance
import LoxLang.Proofs.Run.Relabel.Evaluation
import LoxLang.Proofs.Run.Seam
import LoxLang.Proofs.Session.Accepted
import LoxLang.Proofs.Session.Pieces
import LoxLang.Proofs.Session.Whole
import LoxLang.Proofs.Run.Rest
import LoxLang.Proofs.Session.Forgetting
import LoxLang.Proofs.Grammar.Recovery
import LoxLang.Proofs.Run.Renaming
import LoxLang.Proofs.Session.Rejected
import LoxLang.Proofs.Run.Unwinding
import LoxLang.Proofs.Run.Receivers.Programs
import LoxLang.Proofs.Number.Nearest
import LoxLang.Proofs.Token.Respacing
import LoxLang.Proofs.Scope.Distances
import LoxLang.Proofs.Run.Ending.Programs
import LoxLang.Proofs.Store.Distance
import LoxLang.Proofs.Grammar.InPlace
import LoxLang.Proofs.Tree.ReadBack
import LoxLang.Proofs.Run.Loops.Programs
import LoxLang.Proofs.Number.ReadBack
import LoxLang.Proofs.Token.Dump
import LoxLang.Proofs.Run.Growth.Programs
