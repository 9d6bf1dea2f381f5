import MiniScriptLayout.Main
import MiniScriptLayout.Proofs.Breaking
import MiniScriptLayout.Proofs.Causality
import MiniScriptLayout.Proofs.Comma.Reading
import MiniScriptLayout.Proofs.Comma.Sign
import MiniScriptLayout.Proofs.Comma.Trailing
import MiniScriptLayout.Proofs.Command.Collection
import MiniScriptLayout.Proofs.Command.Modes
import MiniScriptLayout.Proofs.Edges
import MiniScriptLayout.Proofs.Editor.Disk
import MiniScriptLayout.Proofs.Editor.Formatting
import MiniScriptLayout.Proofs.Editor.Position
import MiniScriptLayout.Proofs.Editor.Sync
import MiniScriptLayout.Proofs.Expression.Line
import MiniScriptLayout.Proofs.FinalNewline
import MiniScriptLayout.Proofs.Indentation.Bracket
import MiniScriptLayout.Proofs.Indentation.Function
import MiniScriptLayout.Proofs.Indentation.Progress
import MiniScriptLayout.Proofs.Lexical.Balance
import MiniScriptLayout.Proofs.MapColon.Normal
import MiniScriptLayout.Proofs.Minus.Normal
import MiniScriptLayout.Proofs.Parentheses.Chain
import MiniScriptLayout.Proofs.Parentheses.Layers
import MiniScriptLayout.Proofs.Returns
import MiniScriptLayout.Proofs.RoundTrip
import MiniScriptLayout.Proofs.Separation
import MiniScriptLayout.Proofs.Settled
import MiniScriptLayout.Proofs.Spacing.Seam
import MiniScriptLayout.Proofs.Transparency
import MiniScriptLayout.Proofs.Units
import MiniScriptLayout.Server
