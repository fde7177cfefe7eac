import MotionEntropy.Session
import MotionEntropy.Trace
import MotionEntropy.Proofs.FaultPropagation
import MotionEntropy.Proofs.LogarithmAccuracy
import MotionEntropy.Proofs.LogarithmScaling
import MotionEntropy.Proofs.CostBounds
import MotionEntropy.Proofs.CdfValidity
import MotionEntropy.Proofs.CostRounding
import MotionEntropy.Proofs.MassTransfer
import MotionEntropy.Proofs.AdaptationLimit
import MotionEntropy.Proofs.CostDomain
import MotionEntropy.Proofs.ComponentWalk
import MotionEntropy.Proofs.SymbolWriting
import MotionEntropy.Proofs.DifferenceWriting
import MotionEntropy.Proofs.PriceTables
import MotionEntropy.Proofs.VectorCalls
import MotionEntropy.Proofs.ModelPreservation
import MotionEntropy.Proofs.SessionInvariant
import MotionEntropy.Proofs.PriceAgreement
import MotionEntropy.Proofs.WriteAcceptance
import MotionEntropy.Proofs.CodeInjectivity
import MotionEntropy.Proofs.StreamDecoding
import MotionEntropy.Proofs.LedgerRoom
import MotionEntropy.Proofs.TableRouting
import MotionEntropy.Proofs.CountReset
import MotionEntropy.Proofs.SessionHistory
import MotionEntropy.Proofs.WriteInterleaving
import MotionEntropy.Proofs.MirroredRuns
import MotionEntropy.Proofs.PrecisionTiers
import MotionEntropy.Proofs.TierConfinement
import MotionEntropy.Proofs.CodeReading
import MotionEntropy.Proofs.VectorRounding
import MotionEntropy.Proofs.ReferenceSets
import MotionEntropy.Proofs.VectorRecovery
import MotionEntropy.Proofs.NearestVectors
import MotionEntropy.Proofs.CandidateHistory
import MotionEntropy.Proofs.ComponentPricing
import MotionEntropy.Proofs.MagnitudeClasses
import MotionEntropy.Proofs.CodeShape
import MotionEntropy.Proofs.WriterAgreement
import MotionEntropy.Proofs.WordLogarithm
