import TuneLang.Main
import TuneLang.Proofs.Midi.Recording
import TuneLang.Proofs.Midi.Playable
import TuneLang.Proofs.Scope.Safety
import TuneLang.Proofs.Scope.Coincidence
import TuneLang.Proofs.Store.Lasting
import TuneLang.Proofs.Store.Identity
import TuneLang.Proofs.Eval.Outcomes
import TuneLang.Proofs.Eval.Erasure
import TuneLang.Proofs.Grammar.Unambiguity
import TuneLang.Proofs.Expr.RoundTrip
import TuneLang.Proofs.Eval.Seclusion
import TuneLang.Proofs.Expr.Conversion
import TuneLang.Proofs.Session.Turn
import TuneLang.Proofs.Session.Append
import TuneLang.Proofs.Session.Endings
import TuneLang.Proofs.Eval.Comparison
import TuneLang.Proofs.Midi.Truncation
import TuneLang.Proofs.Scope.Application
import TuneLang.Proofs.Expr.Identifier
import TuneLang.Proofs.Grammar.Spacing
import TuneLang.Proofs.Tune.Formula
import TuneLang.Proofs.Tune.Structure
import TuneLang.Proofs.Tune.Transposition
import TuneLang.Proofs.Session.Typing
import TuneLang.Proofs.Tune.Scaling
import TuneLang.Proofs.World.Attempts
import TuneLang.Proofs.Eval.Playback
import TuneLang.Proofs.Session.Playback
import TuneLang.Proofs.World.Writing
