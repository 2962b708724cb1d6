import PrivateHistogram.Aggregation
import PrivateHistogram.Aggregation.Context
import PrivateHistogram.Aggregation.Error
import PrivateHistogram.Aggregation.Params
import PrivateHistogram.Attempt
import PrivateHistogram.BucketShare
import PrivateHistogram.Cipher.Aes
import PrivateHistogram.Cipher.Gcm
import PrivateHistogram.CommandLine
import PrivateHistogram.CommandLine.Directory
import PrivateHistogram.CommandLine.Flags
import PrivateHistogram.CommandLine.Options
import PrivateHistogram.Conversion
import PrivateHistogram.Curve.Coordinate
import PrivateHistogram.Curve.Modular
import PrivateHistogram.Curve.Montgomery
import PrivateHistogram.Curve.Ristretto
import PrivateHistogram.Curve.Scalar
import PrivateHistogram.Decimal
import PrivateHistogram.Decimal.Shortest
import PrivateHistogram.ElGamal
import PrivateHistogram.Exponential
import PrivateHistogram.Failure
import PrivateHistogram.Goldilocks
import PrivateHistogram.Goldilocks.Codec
import PrivateHistogram.Hash.Hkdf
import PrivateHistogram.Hash.Keccak
import PrivateHistogram.Hash.Sha2
import PrivateHistogram.Helper
import PrivateHistogram.Helper.Drive
import PrivateHistogram.Increasing
import PrivateHistogram.Join
import PrivateHistogram.Json
import PrivateHistogram.Json.Codec
import PrivateHistogram.Json.Float
import PrivateHistogram.Json.Parser
import PrivateHistogram.Json.Printer
import PrivateHistogram.Json.Text
import PrivateHistogram.KeyGroup
import PrivateHistogram.KeyRecord
import PrivateHistogram.Keys
import PrivateHistogram.Main
import PrivateHistogram.Octets
import PrivateHistogram.Octets.Hex
import PrivateHistogram.PartialHistogram
import PrivateHistogram.PeerMessage
import PrivateHistogram.PointFunction.Cache
import PrivateHistogram.PointFunction.Error
import PrivateHistogram.PointFunction.Evaluation
import PrivateHistogram.PointFunction.Expansion
import PrivateHistogram.PointFunction.Hierarchy
import PrivateHistogram.PointFunction.Key
import PrivateHistogram.PointFunction.Tree
import PrivateHistogram.Privacy.Geometric
import PrivateHistogram.Privacy.Noise
import PrivateHistogram.Privacy.Params
import PrivateHistogram.Proofs.Aggregation.Accumulations
import PrivateHistogram.Proofs.Aggregation.CheckedRounds
import PrivateHistogram.Proofs.Aggregation.Collisions
import PrivateHistogram.Proofs.Aggregation.Continuations
import PrivateHistogram.Proofs.Aggregation.ExactReleases
import PrivateHistogram.Proofs.Aggregation.Failures
import PrivateHistogram.Proofs.Aggregation.HalfJoined
import PrivateHistogram.Proofs.Aggregation.Histograms
import PrivateHistogram.Proofs.Aggregation.Keys
import PrivateHistogram.Proofs.Aggregation.Labels
import PrivateHistogram.Proofs.Aggregation.Merges
import PrivateHistogram.Proofs.Aggregation.NoisedSums
import PrivateHistogram.Proofs.Aggregation.Outcomes
import PrivateHistogram.Proofs.Aggregation.Partitions
import PrivateHistogram.Proofs.Aggregation.Releases
import PrivateHistogram.Proofs.Aggregation.Rounds
import PrivateHistogram.Proofs.Aggregation.Runs
import PrivateHistogram.Proofs.Aggregation.Segments
import PrivateHistogram.Proofs.Aggregation.ShardReleases
import PrivateHistogram.Proofs.Aggregation.Shards
import PrivateHistogram.Proofs.Aggregation.SwappedReleases
import PrivateHistogram.Proofs.Aggregation.Totals
import PrivateHistogram.Proofs.Codecs
import PrivateHistogram.Proofs.CommandLine.Writes
import PrivateHistogram.Proofs.Conversions
import PrivateHistogram.Proofs.Draws
import PrivateHistogram.Proofs.Formats
import PrivateHistogram.Proofs.Goldilocks
import PrivateHistogram.Proofs.Goldilocks.Residues
import PrivateHistogram.Proofs.Goldilocks.Words
import PrivateHistogram.Proofs.Group.ElGamal
import PrivateHistogram.Proofs.Group.Laws
import PrivateHistogram.Proofs.Group.Rekeying
import PrivateHistogram.Proofs.Group.Scalars
import PrivateHistogram.Proofs.Helper.Batches
import PrivateHistogram.Proofs.Helper.Books
import PrivateHistogram.Proofs.Helper.Calls
import PrivateHistogram.Proofs.Helper.Counts
import PrivateHistogram.Proofs.Helper.Coverage
import PrivateHistogram.Proofs.Helper.Deliveries
import PrivateHistogram.Proofs.Helper.Drive
import PrivateHistogram.Proofs.Helper.Exactness
import PrivateHistogram.Proofs.Helper.Exchanges
import PrivateHistogram.Proofs.Helper.Failures
import PrivateHistogram.Proofs.Helper.Finishing
import PrivateHistogram.Proofs.Helper.Halves
import PrivateHistogram.Proofs.Helper.Intake
import PrivateHistogram.Proofs.Helper.Joins
import PrivateHistogram.Proofs.Helper.Ledger
import PrivateHistogram.Proofs.Helper.Moves
import PrivateHistogram.Proofs.Helper.Retries
import PrivateHistogram.Proofs.Helper.Rounds
import PrivateHistogram.Proofs.Helper.SeparateRuns
import PrivateHistogram.Proofs.Helper.Steps
import PrivateHistogram.Proofs.Helper.Tables
import PrivateHistogram.Proofs.Increasing
import PrivateHistogram.Proofs.Join.Agreement
import PrivateHistogram.Proofs.Join.Identifiers
import PrivateHistogram.Proofs.Json.Maps
import PrivateHistogram.Proofs.Json.Numerals
import PrivateHistogram.Proofs.Json.Printing
import PrivateHistogram.Proofs.Json.Records
import PrivateHistogram.Proofs.Json.Texts
import PrivateHistogram.Proofs.PointFunction.Caches
import PrivateHistogram.Proofs.PointFunction.CheckedExpansions
import PrivateHistogram.Proofs.PointFunction.CheckedPlans
import PrivateHistogram.Proofs.PointFunction.Continuations
import PrivateHistogram.Proofs.PointFunction.Covers
import PrivateHistogram.Proofs.PointFunction.Expansions
import PrivateHistogram.Proofs.PointFunction.Paths
import PrivateHistogram.Proofs.PointFunction.Plans
import PrivateHistogram.Proofs.PointFunction.Pointwise
import PrivateHistogram.Proofs.PointFunction.Reach
import PrivateHistogram.Proofs.PointFunction.Refinement
import PrivateHistogram.Proofs.PointFunction.Selections
import PrivateHistogram.Proofs.PointFunction.Shares
import PrivateHistogram.Proofs.PointFunction.Walks
import PrivateHistogram.Proofs.Reports
import PrivateHistogram.Proofs.Reports.Reconstruction
import PrivateHistogram.Proofs.SeedStreams
import PrivateHistogram.Proofs.Sharing
import PrivateHistogram.Proofs.Sharing.Secrecy
import PrivateHistogram.Proofs.Suites
import PrivateHistogram.RandomTape
import PrivateHistogram.RandomTape.Seeded
import PrivateHistogram.RandomTape.SplitMix
import PrivateHistogram.Release
import PrivateHistogram.Report
import PrivateHistogram.Room
import PrivateHistogram.Round
import PrivateHistogram.SealedKey
import PrivateHistogram.SecretSharing
import PrivateHistogram.SeedStream
import PrivateHistogram.Suite
import PrivateHistogram.Suite.Standard
import PrivateHistogram.Text.Blank
import PrivateHistogram.Text.Float
import PrivateHistogram.Text.Number
import PrivateHistogram.Text.Printable
import PrivateHistogram.Text.Quoted
import PrivateHistogram.Transport
import PrivateHistogram.Transport.Hpke
import PrivateHistogram.Proofs.CommandLine.Selections
import PrivateHistogram.Proofs.Words
