import Gradual.Eval.Bridge
import Gradual.Eval.Error
import Gradual.Eval.Host
import Gradual.Eval.Interpreter
import Gradual.Eval.Machine
import Gradual.Eval.Run
import Gradual.Eval.Semantics
import Gradual.Eval.Sink
import Gradual.Eval.State
import Gradual.Eval.Value
import Gradual.Expr.Basic
import Gradual.Expr.Equality
import Gradual.Expr.Text
import Gradual.Json.Basic
import Gradual.Json.Decode
import Gradual.Json.Encode
import Gradual.Json.Postfix
import Gradual.Json.Reader
import Gradual.Json.Writer
import Gradual.Log
import Gradual.Proofs.Accumulation
import Gradual.Proofs.Batch
import Gradual.Proofs.CallDepth
import Gradual.Proofs.CallLimit
import Gradual.Proofs.CastLog
import Gradual.Proofs.CheckFootprint
import Gradual.Proofs.Codec
import Gradual.Proofs.Consistency
import Gradual.Proofs.Cycles
import Gradual.Proofs.Elaboration
import Gradual.Proofs.Erasure
import Gradual.Proofs.Footprint
import Gradual.Proofs.Growth
import Gradual.Proofs.Guarantee
import Gradual.Proofs.Insertion
import Gradual.Proofs.Invariant
import Gradual.Proofs.JsonFields
import Gradual.Proofs.Lexical
import Gradual.Proofs.LogFree
import Gradual.Proofs.Matching
import Gradual.Proofs.Names
import Gradual.Proofs.Precision
import Gradual.Proofs.Preservation
import Gradual.Proofs.Recheck
import Gradual.Proofs.Relevance
import Gradual.Proofs.ScopeUpdate
import Gradual.Proofs.Scopes
import Gradual.Proofs.SessionScopes
import Gradual.Proofs.SinkLimit
import Gradual.Proofs.Soundness
import Gradual.Proofs.StaticTyping
import Gradual.Proofs.Termination
import Gradual.Proofs.TypeText
import Gradual.Proofs.Typed
import Gradual.Proofs.Worlds
import Gradual.Scope.Basic
import Gradual.Scope.Tree
import Gradual.Session
import Gradual.Text.Hidden
import Gradual.Text.Quoted
import Gradual.Ty.Basic
import Gradual.Ty.Consistency
import Gradual.Ty.Text
import Gradual.Typing.Check
import Gradual.Typing.Context
import Gradual.Typing.Error
