import CambrianLang.Solidity.MathAgreement
import CambrianLang.Validate.VarScoping
import CambrianLang.Str.Agreement
import CambrianLang.Solidity.HelperCompleteness
import CambrianLang.Solidity.ChainFusion
import CambrianLang.Stdlib.Vault.Liveness
import CambrianLang.Stdlib.Vault.Quotes
import CambrianLang.Stdlib.Vault.Spending
import CambrianLang.Validate.MatchSoundness
import CambrianLang.Ghost.IterationOrder
import CambrianLang.Stdlib.TransferLog
import CambrianLang.Guards.FromClauses
import CambrianLang.Construction.Faithful
import CambrianLang.Guards.SameFailures
import CambrianLang.Analysis.ResolverAgreement
import CambrianLang.Construction.DeployerReads
import CambrianLang.Solidity.AliasScopes
import CambrianLang.Spec.LostExpectations
import CambrianLang.Forge.KeptChecks
import CambrianLang.Core.MulDiv
import CambrianLang.Ir.Transforms
import CambrianLang.Project.CatalogKept
import CambrianLang.Core.Wrapping
import CambrianLang.Layout.Seeding
import CambrianLang.Project.Loading
import CambrianLang.Solidity.PayloadBindings
import CambrianLang.Solidity.WrappingOps
import CambrianLang.Syntax.RoundTrip
import CambrianLang.Core.WideExact
import CambrianLang.Analysis.RouteOrder
import CambrianLang.Analysis.FailClosure
import CambrianLang.Stdlib.SquareRoot
import CambrianLang.Project.RecoverySafety
import CambrianLang.Syntax.LiteralCodecs
import CambrianLang.Project.DerivedNames
import CambrianLang.Project.SourceMapper
import CambrianLang.Stdlib.Token.TransferCheck
import CambrianLang.Invariants.Profiles
import CambrianLang.Invariants.CheckHelpers
import CambrianLang.Fuel.FuelFix
import CambrianLang.Solidity.UntypedSends
import CambrianLang.Spec.AssumeKept
import CambrianLang.Core.RoundingDivision
import CambrianLang.Solidity.ReboundLets
