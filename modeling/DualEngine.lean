import DualEngine.Main
import DualEngine.Proofs.FunctionAgreement
import DualEngine.Proofs.StraightLine
import DualEngine.Proofs.Outlines
import DualEngine.Proofs.BraceDepth
import DualEngine.Proofs.RandomRange
import DualEngine.Proofs.StableKinds
import DualEngine.Proofs.CoercionAgreement
import DualEngine.Proofs.UnrunSubmissions
import DualEngine.Proofs.LineDivision
import DualEngine.Proofs.Overlays
import DualEngine.Proofs.StoredTexts
import DualEngine.Proofs.ArrayCode
import DualEngine.Proofs.ModularArithmetic
